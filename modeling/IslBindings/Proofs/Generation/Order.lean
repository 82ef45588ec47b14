import IslBindings.Proofs.Generation.Independence
import IslBindings.Proofs.Registry.FirstDeclared
import Mathlib.Data.List.Perm.Basic

/-!
# The order of declarations

Declarations with C names of their own, none of them an error, make the same methods in whatever
order they are added. What becomes of a method depends on the methods of its class, but not on
their order. So the outputs for two orders of declarations hold the same wrappers, registrations
and entries of the report, in other orders. Upcasts are left out: the first of the methods of one
name decides on them.
-/

namespace IslBindings

/-! ### Registries of permuted declarations -/

namespace Registry

/-- The C name that a text declares, if it is a declaration. -/
def cName? (text : String) : Option String :=
  (Declaration.ofText text).toOption.map (·.cName)

theorem cName?_of_made? {text : String} {m : Method} (h : made? text = some m) :
    cName? text = some m.cName := by
  obtain ⟨d, hd, -, hmakes⟩ := makes_of_methodOfText? (methodOfText?_of_made? h)
  obtain ⟨-, -, -, -, -⟩ := hmakes
  rw [cName?, hd, Method.cName_nameReceiver]
  rfl

theorem nodup_made {texts : List String} (h : (texts.filterMap cName?).Nodup) :
    ((texts.filterMap made?).map Method.cName).Nodup := by
  rw [List.map_filterMap]
  refine h.sublist (filterMap_sublist_filterMap fun text _ name hname => ?_)
  obtain ⟨m, hm, rfl⟩ := Option.map_eq_some_iff.mp hname
  exact cName?_of_made? hm

/-- Declarations with C names of their own are all registered. -/
theorem addAll_of_nodup {texts : List String} (hnames : (texts.filterMap cName?).Nodup)
    (herror : ∀ text ∈ texts, isError text = false) :
    Registry.empty.addAll texts = (⟨texts.filterMap made?⟩, none) := by
  have hempty : empty.methods = firstsBy Method.cName [] := rfl
  have hmethods : (empty.addAll texts).1.methods = texts.filterMap made? := by
    rw [addAll_eq_foldl, upToError_of_forall herror, methods_foldl_declare hempty, List.nil_append,
      firstsBy_of_nodup (nodup_made hnames)]
  refine Prod.ext ?_ (error_addAll_eq_none_iff.mpr herror)
  rw [← hmethods]

/-! ### Entries of permuted methods -/

variable {r s : Registry} {release : Option Nat}

theorem methodsOf_perm (h : r.methods.Perm s.methods) (cls : String) :
    (r.methodsOf cls).Perm (s.methodsOf cls) :=
  h.filter _

theorem offered_perm_of_methods (h : r.methods.Perm s.methods) (classes : List String) :
    (r.offered release classes).Perm (s.offered release classes) :=
  List.Perm.flatMap_left _ fun cls _ => methodsOf_perm h cls

theorem entries_perm (h : r.methods.Perm s.methods) (release : Option Nat) (classes : List String) :
    (r.entries release classes).Perm (s.entries release classes) := by
  have hsame : ∀ m, Entry.ofRegistered r m = Entry.ofRegistered s m := by
    intro m
    have hsuperseded : m.isSuperseded (r.methodsOf m.cls) = m.isSuperseded (s.methodsOf m.cls) :=
      (methodsOf_perm h m.cls).any_eq
    rw [Entry.ofRegistered, Entry.ofRegistered, Method.verdict_congr hsuperseded]
  rw [entries, entries, List.map_congr_left fun m _ => hsame m]
  exact (offered_perm_of_methods h classes).map _

end Registry

/-! ### Outputs in other orders -/

/-- The statements that register a wrapper: for the method and, if it reads an object from a
string, for the constructor. -/
def Registration.statements (m : Method) (w : Wrapper) : List String :=
  (ofWrapper m w).statement ::
    if makesConstructor m then [Code.print (Code.layout 0 (constructorSteps m.cls m.cName))] else []

theorem Registration.code_eq (m : Method) (w : Wrapper) :
    code m w = String.join (statements m w) := by
  rw [code, statements, String.join_cons]
  split
  · rw [String.join_cons, String.join_nil, String.append_empty]
  · rfl

namespace Part

def wrapperTexts (p : Part) : List String := p.blocks.map fun b => "\n" ++ b.2.code

/-- The statements of the part that are no upcasts. -/
def registrations (p : Part) : List String :=
  p.blocks.flatMap fun b => Registration.statements b.1 b.2

theorem exposers_eq (p : Part) : p.exposers = banner ++ String.join p.registrations ++
    String.join (p.folds.map Fold.code) := by
  have hcode : ∀ bs : List (Method × Wrapper),
      String.join (bs.map fun b => Registration.code b.1 b.2) =
        String.join (bs.flatMap fun b => Registration.statements b.1 b.2) := by
    intro bs
    induction bs with
    | nil => rfl
    | cons b bs ih =>
      rw [List.map_cons, List.flatMap_cons, String.join_cons, String.join_append,
        Registration.code_eq, ih]
  rw [registrations, ← hcode]
  rfl

end Part

namespace Output

/-- Two outputs differ in the order of methods only, and in upcasts. -/
structure IsReordered (o o' : Output) : Prop where
  partNames : o.parts.map (·.name) = o'.parts.map (·.name)
  texts : ∀ p ∈ o.parts ++ o'.parts, p.wrappers = banner ++ String.join p.wrapperTexts ∧
    p.exposers = banner ++ String.join p.registrations ++ String.join (p.folds.map Fold.code)
  wrappers : ∀ p ∈ o.parts, ∀ q ∈ o'.parts, p.name = q.name → p.wrapperTexts.Perm q.wrapperTexts
  registrations : ∀ p ∈ o.parts, ∀ q ∈ o'.parts, p.name = q.name →
    p.registrations.Perm q.registrations
  superseded : o.report.superseded.Perm o'.report.superseded
  undocumented : o.report.undocumented.Perm o'.report.undocumented
  unsupported : o.report.unsupported.Perm o'.report.unsupported

theorem isReordered_of_methods {r s : Registry} {release : Option Nat} {o o' : Output}
    (h : r.methods.Perm s.methods) (ho : ofRegistry r release = .ok o)
    (ho' : ofRegistry s release = .ok o') : o.IsReordered o' := by
  have hblocks : ∀ p ∈ o.parts, ∀ q ∈ o'.parts, p.name = q.name → p.blocks.Perm q.blocks := by
    intro p hp q hq hname
    obtain ⟨classes, hpentries, hqentries⟩ := exists_classes_of_name ho ho' hp hq hname
    rw [Part.blocks, Part.blocks, hpentries, hqentries]
    exact (Registry.entries_perm h release classes).filterMap _
  have hentries : o.entries.Perm o'.entries := by
    rw [entries_eq ho, entries_eq ho']
    exact Registry.entries_perm h release Catalogue.classes
  constructor
  case partNames => rw [names_parts ho, names_parts ho']
  case texts => exact fun p _ => ⟨rfl, p.exposers_eq⟩
  case wrappers => exact fun p hp q hq hname => (hblocks p hp q hq hname).map _
  case registrations => exact fun p hp q hq hname => (hblocks p hp q hq hname).flatMap_right _
  case superseded => exact hentries.filterMap Entry.superseded?
  case undocumented => exact hentries.filterMap Entry.undocumented?
  case unsupported => exact hentries.filterMap Entry.unsupported?

/-- The order in which declarations are added changes nothing but the order in the output. -/
theorem isReordered_of_perm (release : Option Nat) {texts texts' : List String}
    (hperm : texts.Perm texts') (hnames : (texts.filterMap Registry.cName?).Nodup)
    (herror : ∀ text ∈ texts, Registry.isError text = false) :
    ∃ r s o o', Registry.empty.addAll texts = (r, none) ∧
      Registry.empty.addAll texts' = (s, none) ∧ ofRegistry r release = .ok o ∧
      ofRegistry s release = .ok o' ∧ o.IsReordered o' := by
  have hnames' : (texts'.filterMap Registry.cName?).Nodup :=
    (hperm.filterMap _).nodup_iff.mp hnames
  have herror' : ∀ text ∈ texts', Registry.isError text = false :=
    fun text htext => herror text (hperm.mem_iff.mpr htext)
  have hr := Registry.addAll_of_nodup hnames herror
  have hs := Registry.addAll_of_nodup hnames' herror'
  obtain ⟨o, ho⟩ := succeeds_ofRegistry ⟨texts.filterMap Registry.made?⟩ release
  obtain ⟨o', ho'⟩ := succeeds_ofRegistry ⟨texts'.filterMap Registry.made?⟩ release
  exact ⟨_, _, o, o', hr, hs, ho, ho',
    isReordered_of_methods (hperm.filterMap Registry.made?) ho ho'⟩

/-- A method, an integer overload and the method that takes its place. -/
def overloadTexts : List String :=
  ["int isl_set_b(__isl_keep isl_set *set);", "int isl_set_a_si(__isl_keep isl_set *set, int v);",
    "int isl_set_a(__isl_keep isl_set *set);"]

theorem isReordered_reverse :
    overloadTexts.Perm overloadTexts.reverse ∧
      (overloadTexts.filterMap Registry.cName?).Nodup ∧
      (∀ text ∈ overloadTexts, Registry.isError text = false) ∧
      ∃ r s o o', Registry.empty.addAll overloadTexts = (r, none) ∧
        Registry.empty.addAll overloadTexts.reverse = (s, none) ∧ ofRegistry r none = .ok o ∧
        ofRegistry s none = .ok o' ∧ o.IsReordered o' ∧ o.blocks.map (·.1.name) = ["b", "a"] ∧
        o'.blocks.map (·.1.name) = ["a", "b"] ∧ o.report.superseded = ["<method isl_set_a_si>"] := by
  have hperm : overloadTexts.Perm overloadTexts.reverse := (List.reverse_perm _).symm
  have hnames : (overloadTexts.filterMap Registry.cName?).Nodup := by decide +kernel
  have herror : ∀ text ∈ overloadTexts, Registry.isError text = false := by decide +kernel
  obtain ⟨r, s, o, o', hr, hs, ho, ho', hreordered⟩ :=
    isReordered_of_perm none hperm hnames herror
  have hfirst : ofRegistry (Registry.empty.addAll overloadTexts).1 none = .ok o := by rwa [hr]
  have hsecond : ofRegistry (Registry.empty.addAll overloadTexts.reverse).1 none = .ok o' := by
    rwa [hs]
  have hrun : (o.blocks.map (·.1.name), o.report.superseded) =
      (["b", "a"], ["<method isl_set_a_si>"]) :=
    eq_of_map_toOption (fun o => (o.blocks.map (·.1.name), o.report.superseded)) hfirst
      (by decide +kernel)
  have hreverse : o'.blocks.map (·.1.name) = ["a", "b"] :=
    eq_of_map_toOption (fun o => o.blocks.map (·.1.name)) hsecond (by decide +kernel)
  rw [Prod.mk.injEq] at hrun
  exact ⟨hperm, hnames, herror, r, s, o, o', hr, hs, ho, ho', hreordered, hrun.1, hreverse, hrun.2⟩

end Output

end IslBindings
