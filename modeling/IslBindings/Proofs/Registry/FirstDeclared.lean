import IslBindings.Proofs.Registry.Table

/-!
# First declarations

Of the methods that declarations make, a registry keeps the first of each C name, and its classes
stand in the order of their first methods. So a declaration that has been added adds nothing when
it is added again, and a header that has been read to its end adds nothing when it is read again,
whatever has been read in between.
-/

namespace IslBindings.Registry

/-! ### What has been declared -/

/-- The method of a declaration. -/
def made? (text : String) : Option Method :=
  match methodOfText? text with
  | .ok m => m
  | .error _ => none

def isError (text : String) : Bool :=
  match methodOfText? text with
  | .ok _ => false
  | .error _ => true

/-- The declarations up to the first one that is an error. -/
def upToError : List String → List String
  | [] => []
  | text :: rest => text :: if isError text then [] else upToError rest

def Call.declarations : Call → List String
  | .declaration text => [text]
  | .header text => upToError (Header.prototypes text)

/-- The declarations that calls have tried to add. -/
def declared (calls : List Call) : List String := calls.flatMap Call.declarations

def made (calls : List Call) : List Method := (declared calls).filterMap made?

/-- Reads a header and tells how many methods it has added. -/
def read (r : Registry) (text : String) : Registry × Except PlacementError Nat :=
  match r.readHeader text with
  | (s, none) => (s, .ok (s.size - r.size))
  | (s, some e) => (s, .error e)

def Table.read (t : Table) (text : String) : Table × Except PlacementError Nat :=
  match t.addAll (Header.prototypes text) with
  | (u, none) => (u, .ok (u.size - t.size))
  | (u, some e) => (u, .error e)

def Table.methodsOf (t : Table) (cls : String) : List Method := (t.entries.lookup cls).getD []

/-! ### One declaration -/

section Declare

variable {r : Registry} {text : String}

/-- Adds a declaration; one that is an error adds nothing. -/
def declare (r : Registry) (text : String) : Registry := r.step (.declaration text)

theorem declare_eq (r : Registry) (text : String) :
    r.declare text = (made? text).elim r r.insert := by
  simp only [declare, step, add, made?]
  cases methodOfText? text with
  | error e => rfl
  | ok m => cases m <;> rfl

theorem add_of_not_isError (h : isError text = false) : r.add text = .ok (r.declare text) := by
  rw [declare_eq]
  simp only [isError] at h
  simp only [add, made?]
  cases hm : methodOfText? text with
  | error e =>
    rw [hm] at h
    cases h
  | ok m => cases m <;> rfl

theorem exists_add_of_isError (h : isError text = true) : ∃ e, r.add text = .error e := by
  simp only [isError] at h
  simp only [add]
  cases hm : methodOfText? text with
  | error e => exact ⟨e, rfl⟩
  | ok m =>
    rw [hm] at h
    cases h

theorem declare_of_isError (h : isError text = true) : r.declare text = r := by
  obtain ⟨e, he⟩ := exists_add_of_isError (r := r) h
  simp only [declare, step, he]

theorem methods_declare {ms : List Method} (h : r.methods = firstsBy Method.cName ms) :
    (r.declare text).methods = firstsBy Method.cName (ms ++ (made? text).toList) := by
  rw [declare_eq]
  cases made? text with
  | none => rw [Option.toList_none, List.append_nil, Option.elim_none, h]
  | some m =>
    have hname : r.hasName m.cName = (ms.map Method.cName).contains m.cName := by
      rw [Bool.eq_iff_iff, ← Table.contains_seen, List.contains_iff_mem, List.contains_iff_mem,
        Table.ofRegistry, h, mem_map_firstsBy]
    rw [Option.toList_some, Option.elim_some, methods_insert, firstsBy_concat, hname, h]

end Declare

/-! ### Sequences of declarations -/

theorem methods_foldl_declare {r : Registry} {ms : List Method}
    (h : r.methods = firstsBy Method.cName ms) (texts : List String) :
    (texts.foldl declare r).methods = firstsBy Method.cName (ms ++ texts.filterMap made?) := by
  induction texts generalizing r ms with
  | nil => rw [List.filterMap_nil, List.append_nil, List.foldl_nil, h]
  | cons text texts ih =>
    rw [List.foldl_cons, ih (methods_declare h), filterMap_cons_toList, List.append_assoc]

theorem addAll_eq_foldl (r : Registry) (texts : List String) :
    (r.addAll texts).1 = (upToError texts).foldl declare r := by
  induction texts generalizing r with
  | nil => rfl
  | cons text texts ih =>
    rw [addAll, upToError, List.foldl_cons]
    cases h : isError text with
    | true =>
      obtain ⟨e, he⟩ := exists_add_of_isError (r := r) h
      rw [he, declare_of_isError h]
      rfl
    | false =>
      rw [add_of_not_isError h]
      exact ih _

theorem step_eq_foldl (r : Registry) (c : Call) : r.step c = c.declarations.foldl declare r := by
  cases c with
  | declaration text => rfl
  | header text => exact addAll_eq_foldl r (Header.prototypes text)

/-- Calls come down to the declarations that they add, one after the other. -/
theorem after_eq_foldl (calls : List Call) : after calls = (declared calls).foldl declare .empty := by
  rw [after, declared, List.foldl_flatMap]
  congr 1
  funext r c
  exact step_eq_foldl r c

theorem methods_after (calls : List Call) :
    (after calls).methods = firstsBy Method.cName (made calls) := by
  have hempty : empty.methods = firstsBy Method.cName [] := rfl
  rw [after_eq_foldl, methods_foldl_declare hempty, List.nil_append, made]

/-! ### Classes -/

theorem methodOfText?_of_made? {text : String} {m : Method} (h : made? text = some m) :
    methodOfText? text = .ok (some m) := by
  simp only [made?] at h
  split at h
  · next heq => rw [heq, h]
  · cases h

theorem cls_eq_of_made {m n : Method} {s t : String} (hm : made? s = some m) (hn : made? t = some n)
    (h : m.cName = n.cName) : m.cls = n.cls := by
  obtain ⟨_, -, -, hm⟩ := makes_of_methodOfText? (methodOfText?_of_made? hm)
  obtain ⟨_, -, -, hn⟩ := makes_of_methodOfText? (methodOfText?_of_made? hn)
  obtain ⟨_, hplace, -⟩ := hm.placed
  obtain ⟨_, hplace', -⟩ := hn.placed
  rw [h, hplace', Except.ok.injEq, Placement.method.injEq] at hplace
  exact hplace.1.symm

theorem methodsOf_after (calls : List Call) (cls : String) :
    (after calls).methodsOf cls =
      firstsBy Method.cName ((made calls).filter (·.cls == cls)) := by
  rw [methodsOf, methods_after]
  refine filter_firstsBy fun m hm n hn h => ?_
  obtain ⟨s, -, hs⟩ := List.mem_filterMap.mp hm
  obtain ⟨t, -, ht⟩ := List.mem_filterMap.mp hn
  rw [cls_eq_of_made hs ht h]

theorem lookup_map_pair {β : Type} (g : String → β) (keys : List String) (k : String) :
    (keys.map fun c => (c, g c)).lookup k = if keys.contains k then some (g k) else none := by
  induction keys with
  | nil => rfl
  | cons c keys ih =>
    rw [List.map_cons, List.lookup_cons, List.contains_cons]
    by_cases hc : k = c
    · simp [hc]
    · rw [beq_eq_false_iff_ne.mpr hc, Bool.false_or]
      exact ih

theorem Table.methodsOf_ofRegistry (r : Registry) (cls : String) :
    (ofRegistry r).methodsOf cls = r.methodsOf cls := by
  rw [methodsOf, ofRegistry, lookup_map_pair]
  split
  · rfl
  · next h =>
    have hnone := methodsOf_of_not_mem fun hmem => h (List.contains_iff_mem.mpr hmem)
    rw [hnone]
    rfl

/-! ### What is added again -/

theorem declare_of_mem_declared {calls : List Call} {text : String} (h : text ∈ declared calls) :
    (after calls).declare text = after calls := by
  rw [declare_eq]
  cases hm : made? text with
  | none => rfl
  | some m =>
    have hname : (after calls).hasName m.cName = true := by
      rw [← Table.contains_seen, List.contains_iff_mem, Table.ofRegistry, methods_after,
        mem_map_firstsBy]
      exact List.mem_map_of_mem (List.mem_filterMap.mpr ⟨text, h, hm⟩)
    rw [Option.elim_some, insert, if_pos hname]

/-- Whether a header is read to its end depends on its declarations alone. -/
theorem error_addAll_eq_none_iff {r : Registry} {texts : List String} :
    (r.addAll texts).2 = none ↔ ∀ text ∈ texts, isError text = false := by
  induction texts generalizing r with
  | nil => simp [addAll]
  | cons text texts ih =>
    rw [addAll, List.forall_mem_cons]
    cases h : isError text with
    | true =>
      obtain ⟨e, he⟩ := exists_add_of_isError (r := r) h
      simp [he]
    | false =>
      rw [add_of_not_isError h]
      exact ih.trans (by simp)

theorem upToError_of_forall {texts : List String} (h : ∀ text ∈ texts, isError text = false) :
    upToError texts = texts := by
  induction texts with
  | nil => rfl
  | cons text texts ih =>
    obtain ⟨htext, hrest⟩ := List.forall_mem_cons.mp h
    rw [upToError, htext, ih hrest]
    rfl

theorem addAll_eq_self {r : Registry} {texts : List String}
    (herror : ∀ text ∈ texts, isError text = false)
    (hsame : ∀ text ∈ texts, r.declare text = r) : r.addAll texts = (r, none) := by
  induction texts with
  | nil => rfl
  | cons text texts ih =>
    obtain ⟨htext, hrest⟩ := List.forall_mem_cons.mp herror
    obtain ⟨hdeclare, hothers⟩ := List.forall_mem_cons.mp hsame
    rw [addAll, add_of_not_isError htext, hdeclare]
    exact ih hrest hothers

theorem readHeader_again {r : Registry} {text : String} {earlier later : List Call}
    (h : (r.readHeader text).2 = none) :
    (after (earlier ++ .header text :: later)).readHeader text =
      (after (earlier ++ .header text :: later), none) := by
  have herror := error_addAll_eq_none_iff.mp h
  refine addAll_eq_self herror fun decl hdecl => declare_of_mem_declared ?_
  have hcall : decl ∈ (Call.header text).declarations := by
    rw [Call.declarations, upToError_of_forall herror]
    exact hdecl
  exact List.mem_flatMap.mpr ⟨.header text, by simp, hcall⟩

theorem read_of_readHeader {r s : Registry} {text : String} (h : r.readHeader text = (s, none)) :
    r.read text = (s, .ok (s.size - r.size)) := by
  rw [read, h]

theorem Table.read_ofRegistry {r : Registry} (hr : r.Reachable) (text : String) :
    (ofRegistry r).read text = (ofRegistry (r.read text).1, (r.read text).2) := by
  rw [read, Registry.read, addAll_ofRegistry hr, readHeader]
  cases (r.addAll (Header.prototypes text)) with
  | mk s e =>
    cases e with
    | none => simp only [size_ofRegistry]
    | some e => rfl

/-! ### First declarations win -/

/-- The registry after some calls, and its table, hold the first methods of all C names. -/
structure KeepsFirst (calls : List Call) : Prop where
  methods : ∀ cls, (after calls).methodsOf cls =
    firstsBy Method.cName ((made calls).filter (·.cls == cls))
  tableMethods : ∀ cls, (Table.after calls).methodsOf cls =
    firstsBy Method.cName ((made calls).filter (·.cls == cls))
  classes : (after calls).classes =
    ((firstsBy Method.cName (made calls)).map (·.cls)).eraseDups
  tableClasses : (Table.after calls).classes =
    ((firstsBy Method.cName (made calls)).map (·.cls)).eraseDups
  seen : (Table.after calls).seen = (firstsBy Method.cName (made calls)).map (·.cName)
  /-- What has been declared adds nothing when it is declared again. -/
  again : ∀ text ∈ declared calls, (after calls).step (.declaration text) = after calls ∧
    (Table.after calls).step (.declaration text) = Table.after calls

theorem keepsFirst (calls : List Call) : KeepsFirst calls := by
  have htable := Table.after_eq calls
  have hclasses : (after calls).classes =
      ((firstsBy Method.cName (made calls)).map (·.cls)).eraseDups := by
    rw [classes, methods_after]
  constructor
  case methods => exact methodsOf_after calls
  case tableMethods =>
    intro cls
    rw [htable, Table.methodsOf_ofRegistry, methodsOf_after]
  case classes => exact hclasses
  case tableClasses => rw [htable, Table.classes_ofRegistry, hclasses]
  case seen => rw [htable, Table.ofRegistry, methods_after]
  case again =>
    intro text htext
    have hsame : (after calls).step (.declaration text) = after calls :=
      declare_of_mem_declared htext
    refine ⟨hsame, ?_⟩
    rw [htable, Table.step_ofRegistry (reachable_after calls), hsame]

/-- The first declaration of a C name that makes a method wins, and what has been read to its end
adds nothing when it is read again. -/
theorem first_declaration_wins :
    (∀ calls, KeepsFirst calls) ∧
      ∀ earlier text later n, ((after earlier).read text).2 = .ok n →
        let calls := earlier ++ .header text :: later
        (after calls).read text = (after calls, .ok 0) ∧
          (Table.after calls).read text = (Table.after calls, .ok 0) := by
  refine ⟨keepsFirst, ?_⟩
  intro earlier text later n h calls
  have hend : ((after earlier).readHeader text).2 = none := by
    rw [read] at h
    split at h
    · next heq => rw [heq]
    · cases h
  have hagain : (after calls).read text = (after calls, .ok 0) := by
    rw [read_of_readHeader (readHeader_again hend), Nat.sub_self]
  refine ⟨hagain, ?_⟩
  rw [Table.after_eq, Table.read_ofRegistry (reachable_after calls), hagain]

/-- A method is declared, declared otherwise in a header, and an error follows. -/
def redeclared : List Call :=
  [.declaration "int isl_set_f(__isl_keep isl_set *set);"] ++
    .header "int isl_map_g(int x);\nint isl_set_f(int y);\n" ::
      [.declaration "int isl_foo_f(int x);"]

theorem first_declaration_wins_redeclared :
    ((after [.declaration "int isl_set_f(__isl_keep isl_set *set);"]).read
        "int isl_map_g(int x);\nint isl_set_f(int y);\n").2 = .ok 1 ∧
      (after redeclared).read "int isl_map_g(int x);\nint isl_set_f(int y);\n" =
        (after redeclared, .ok 0) ∧
      "int isl_set_f(int y);" ∈ declared redeclared ∧
      (after redeclared).step (.declaration "int isl_set_f(int y);") = after redeclared := by
  have hread : ((after [.declaration "int isl_set_f(__isl_keep isl_set *set);"]).read
      "int isl_map_g(int x);\nint isl_set_f(int y);\n").2 = .ok 1 :=
    eq_ok_of_toOption (by decide +kernel)
  have hmem : "int isl_set_f(int y);" ∈ declared redeclared := by decide +kernel
  have hagain := first_declaration_wins.2 [.declaration "int isl_set_f(__isl_keep isl_set *set);"]
    "int isl_map_g(int x);\nint isl_set_f(int y);\n" [.declaration "int isl_foo_f(int x);"] 1 hread
  exact ⟨hread, hagain.1, hmem, ((first_declaration_wins.1 redeclared).again _ hmem).1⟩

end IslBindings.Registry
