import IslBindings.Proofs.Generation.Accounting
import IslBindings.Proofs.Generation.Retry

/-!
# Classes do not influence each other

A run decides the entries of each class from the methods of that class alone, and passes over the
classes that the release lacks; the upcasts pass over every pair with such a class. So the share
that a class has in the output is told from its own methods, and registries that have the same
methods for all classes of a release have the same output.
-/

namespace IslBindings

/-! ### The entries of a registry -/

/-- What becomes of a method; there is always something. -/
def Method.verdict (m : Method) (siblings : List Method) : Verdict :=
  (m.verdict? siblings).get (Option.isSome_iff_exists.mpr (m.exists_verdict siblings))

/-- The other methods count only as far as they supersede the method. -/
theorem Method.verdict_congr {m : Method} {siblings siblings' : List Method}
    (h : m.isSuperseded siblings = m.isSuperseded siblings') :
    m.verdict siblings = m.verdict siblings' := by
  simp only [verdict, verdict?, h]

def Entry.ofRegistered (r : Registry) (m : Method) : Entry where
  method := m
  verdict := m.verdict (r.methodsOf m.cls)

theorem Entry.eq_ofRegistered {r : Registry} {e : Entry} (h : e.IsDecided r) :
    e = ofRegistered r e.method := by
  have hverdict : e.method.verdict (r.methodsOf e.method.cls) = e.verdict :=
    Option.get_of_eq_some _ h
  rw [ofRegistered, hverdict]

namespace Registry

/-- The entries of those of some classes that a release has. -/
def entries (r : Registry) (release : Option Nat) (classes : List String) : List Entry :=
  (r.offered release classes).map (Entry.ofRegistered r)

/-- Two registries have the same methods of each class of a release. -/
def AgreesAt (release : Option Nat) (r s : Registry) : Prop :=
  ∀ cls ∈ Catalogue.classes, Catalogue.isAvailable cls release = true →
    r.methodsOf cls = s.methodsOf cls

variable {r s : Registry} {release : Option Nat} {cls : String} {classes : List String}

theorem eq_entries {es : List Entry} (hmethods : es.map (·.method) = r.offered release classes)
    (hdecided : ∀ e ∈ es, e.IsDecided r) : es = r.entries release classes := by
  rw [entries, ← hmethods, List.map_map]
  calc es = es.map id := (List.map_id es).symm
    _ = es.map (Entry.ofRegistered r ∘ (·.method)) :=
      List.map_congr_left fun e he => Entry.eq_ofRegistered (hdecided e he)

theorem offered_singleton : r.offered release [cls] =
    if Catalogue.isAvailable cls release then r.methodsOf cls else [] := by
  rw [offered, List.filter_cons]
  split
  · exact List.flatMap_singleton ..
  · rfl

theorem offered_eq_flatMap (r : Registry) (release : Option Nat) (classes : List String) :
    r.offered release classes = classes.flatMap fun cls => r.offered release [cls] := by
  induction classes with
  | nil => rfl
  | cons cls classes ih =>
    rw [List.flatMap_cons, ← ih, offered_singleton, offered, List.filter_cons]
    split
    · rfl
    · rfl

theorem entries_eq_flatMap (r : Registry) (release : Option Nat) (classes : List String) :
    r.entries release classes = classes.flatMap fun cls => r.entries release [cls] := by
  rw [entries, offered_eq_flatMap, List.map_flatMap]
  rfl

theorem cls_of_mem_entries {e : Entry} (h : e ∈ r.entries release [cls]) : e.method.cls = cls := by
  obtain ⟨m, hm, rfl⟩ := List.mem_map.mp h
  rw [offered_singleton] at hm
  split at hm
  · exact cls_of_mem_methodsOf hm
  · cases hm

/-- The entries of a class are told from its methods. -/
theorem entries_singleton_congr
    (h : Catalogue.isAvailable cls release = true → r.methodsOf cls = s.methodsOf cls) :
    r.entries release [cls] = s.entries release [cls] := by
  unfold entries
  rw [offered_singleton, offered_singleton]
  split
  · next havailable =>
    rw [h havailable]
    refine List.map_congr_left fun m hm => ?_
    have hcls : m.cls = cls := cls_of_mem_methodsOf hm
    rw [Entry.ofRegistered, Entry.ofRegistered, hcls, h havailable]
  · rfl

theorem entries_congr (h : ∀ cls ∈ classes, Catalogue.isAvailable cls release = true →
    r.methodsOf cls = s.methodsOf cls) : r.entries release classes = s.entries release classes := by
  rw [entries_eq_flatMap, entries_eq_flatMap s]
  exact flatMap_congr fun cls hcls => entries_singleton_congr (h cls hcls)

theorem filter_entries (h : classes.Nodup) :
    (r.entries release classes).filter (·.method.cls == cls) =
      if cls ∈ classes then r.entries release [cls] else [] := by
  rw [entries_eq_flatMap]
  exact filter_flatMap_key h fun c e he => cls_of_mem_entries he

end Registry

theorem Entry.ofClasses_eq (r : Registry) (release : Option Nat) (classes : List String) :
    ofClasses r release classes = .ok (r.entries release classes) := by
  obtain ⟨es, hes⟩ := succeeds_ofClasses r release classes
  obtain ⟨hmethods, hdecided⟩ := of_ofClasses hes
  rw [hes, ← Registry.eq_entries hmethods hdecided]

/-! ### Runs through registries that agree -/

section Agreement

variable {r s : Registry} {release : Option Nat}

theorem Fold.ofPair_congr {general specific : String}
    (hgeneral : r.methodsOf general = s.methodsOf general)
    (hspecific : r.methodsOf specific = s.methodsOf specific) (l : Ledger) :
    ofPair r l general specific = ofPair s l general specific := by
  rw [ofPair, ofPair, hgeneral, hspecific]

namespace Part

theorem foldPairs_congr (h : Registry.AgreesAt release r s) {pairs : List (String × String)}
    (hpairs : ∀ pair ∈ pairs, pair.1 ∈ Catalogue.classes ∧ pair.2 ∈ Catalogue.classes) (l : Ledger) :
    foldPairs r release l pairs = foldPairs s release l pairs := by
  induction pairs generalizing l with
  | nil => rfl
  | cons pair pairs ih =>
    obtain ⟨general, specific⟩ := pair
    obtain ⟨⟨hgeneral, hspecific⟩, hpairs⟩ := List.forall_mem_cons.mp hpairs
    rw [foldPairs, foldPairs]
    split
    · next hopen =>
      -- Both classes of an open pair are in the release, so their methods are the same.
      obtain ⟨hfirst, hsecond⟩ := Bool.and_eq_true_iff.mp hopen
      rw [Fold.ofPair_congr (h general hgeneral hfirst) (h specific hspecific hsecond)]
      simp only [ih hpairs]
    · exact ih hpairs l

theorem generate_congr (h : Registry.AgreesAt release r s) {spec : String × List String}
    (hspec : spec ∈ Catalogue.parts) (l : Ledger) :
    generate r release l spec.1 spec.2 = generate s release l spec.1 spec.2 := by
  have hclasses : ∀ cls ∈ spec.2, cls ∈ Catalogue.classes :=
    fun cls hcls => List.mem_flatMap.mpr ⟨spec, hspec, hcls⟩
  have hentries : r.entries release spec.2 = s.entries release spec.2 :=
    Registry.entries_congr fun cls hcls => h cls (hclasses cls hcls)
  have hpairs : ∀ pair ∈ Catalogue.upcasts spec.1,
      pair.1 ∈ Catalogue.classes ∧ pair.2 ∈ Catalogue.classes := by
    intro pair hpair
    obtain ⟨hgeneral, hspecific⟩ := Catalogue.upcasts_in_part hspec hpair
    exact ⟨hclasses _ hgeneral, hclasses _ hspecific⟩
  rw [generate, generate, Entry.ofClasses_eq, Entry.ofClasses_eq, hentries]
  simp only [foldPairs_congr h hpairs]

theorem generateAll_congr (h : Registry.AgreesAt release r s) {specs : List (String × List String)}
    (hspecs : ∀ spec ∈ specs, spec ∈ Catalogue.parts) (l : Ledger) :
    generateAll r release l specs = generateAll s release l specs := by
  induction specs generalizing l with
  | nil => rfl
  | cons spec specs ih =>
    obtain ⟨hspec, hrest⟩ := List.forall_mem_cons.mp hspecs
    obtain ⟨name, classes⟩ := spec
    rw [generateAll, generateAll, generate_congr h hspec]
    simp only [ih hrest]

end Part

theorem Output.ofRegistry_congr (h : Registry.AgreesAt release r s) :
    ofRegistry r release = ofRegistry s release := by
  rw [ofRegistry, ofRegistry, Part.generateAll_congr h fun _ hspec => hspec]

end Agreement

/-- The registry without the classes that a release lacks. -/
def Registry.availableAt (r : Registry) (release : Option Nat) : Registry :=
  ⟨r.methods.filter (Catalogue.isAvailable ·.cls release)⟩

theorem Registry.agreesAt_availableAt (r : Registry) (release : Option Nat) :
    AgreesAt release r (r.availableAt release) := by
  intro cls _ havailable
  rw [methodsOf, methodsOf, availableAt, List.filter_filter]
  refine List.filter_congr fun m _ => ?_
  by_cases hcls : m.cls = cls
  · rw [hcls, havailable, Bool.and_true]
  · rw [beq_eq_false_iff_ne.mpr hcls, Bool.false_and]

/-! ### The shares of the classes -/

/-- What a class has in the output, apart from upcasts. -/
structure Share where
  wrappers : List String
  registrations : List String
  report : Report
  deriving DecidableEq, Repr

def Share.ofEntries (es : List Entry) : Share where
  wrappers := (es.filterMap Entry.block?).map fun b => "\n" ++ b.2.code
  registrations := (es.filterMap Entry.block?).map fun b => Registration.code b.1 b.2
  report := .ofEntries es

namespace Output

def entriesOf (o : Output) (cls : String) : List Entry := o.entries.filter (·.method.cls == cls)

def share (o : Output) (cls : String) : Share := .ofEntries (o.entriesOf cls)

/-- The output is put together from the shares of the classes, in the order of the catalogue. -/
structure IsShared (o : Output) : Prop where
  partNames : o.parts.map (·.name) = Catalogue.parts.map (·.1)
  wrappers : ∀ p ∈ o.parts, ∀ spec ∈ Catalogue.parts, spec.1 = p.name →
    p.wrappers = banner ++ String.join (spec.2.flatMap fun cls => (o.share cls).wrappers)
  exposers : ∀ p ∈ o.parts, ∀ spec ∈ Catalogue.parts, spec.1 = p.name →
    p.exposers = banner ++ String.join (spec.2.flatMap fun cls => (o.share cls).registrations) ++
      String.join (p.folds.map Fold.code)
  undocumented : o.report.undocumented =
    Catalogue.classes.flatMap fun cls => (o.share cls).report.undocumented
  superseded : o.report.superseded =
    Catalogue.classes.flatMap fun cls => (o.share cls).report.superseded
  unsupported : o.report.unsupported =
    Catalogue.classes.flatMap fun cls => (o.share cls).report.unsupported

section Run

variable {r : Registry} {release : Option Nat} {o : Output}

theorem entries_eq (ho : ofRegistry r release = .ok o) :
    o.entries = r.entries release Catalogue.classes :=
  Registry.eq_entries (methods_entries ho) (isDecided_of_mem_entries ho)

theorem entriesOf_eq (ho : ofRegistry r release = .ok o) (cls : String) :
    o.entriesOf cls = if cls ∈ Catalogue.classes then r.entries release [cls] else [] := by
  rw [entriesOf, entries_eq ho, Registry.filter_entries Catalogue.classes_nodup]

theorem flatMap_entriesOf (ho : ofRegistry r release = .ok o) {classes : List String}
    (h : ∀ cls ∈ classes, cls ∈ Catalogue.classes) :
    classes.flatMap o.entriesOf = r.entries release classes := by
  rw [Registry.entries_eq_flatMap]
  refine flatMap_congr fun cls hcls => ?_
  rw [entriesOf_eq ho, if_pos (h cls hcls)]

theorem entries_eq_flatMap (ho : ofRegistry r release = .ok o) :
    o.entries = Catalogue.classes.flatMap o.entriesOf := by
  rw [flatMap_entriesOf ho fun _ h => h, entries_eq ho]

theorem exists_spec_entries (ho : ofRegistry r release = .ok o) {p : Part} (hp : p ∈ o.parts) :
    ∃ spec ∈ Catalogue.parts, spec.1 = p.name ∧ p.entries = r.entries release spec.2 := by
  obtain ⟨spec, hspec, hname, hmethods⟩ := exists_spec ho hp
  exact ⟨spec, hspec, hname, Registry.eq_entries hmethods ((of_ofRegistry ho).2 p hp)⟩

/-- Parts of one name in two outputs stand for the same classes. -/
theorem exists_classes_of_name {s : Registry} {o' : Output} (ho : ofRegistry r release = .ok o)
    (ho' : ofRegistry s release = .ok o') {p q : Part} (hp : p ∈ o.parts) (hq : q ∈ o'.parts)
    (hname : p.name = q.name) :
    ∃ classes, p.entries = r.entries release classes ∧ q.entries = s.entries release classes := by
  obtain ⟨spec, hspec, hpname, hpentries⟩ := exists_spec_entries ho hp
  obtain ⟨other, hother, hqname, hqentries⟩ := exists_spec_entries ho' hq
  have hsame : other = spec :=
    Catalogue.eq_of_name hother hspec (hqname.trans (hname.symm.trans hpname.symm))
  exact ⟨spec.2, hpentries, hsame ▸ hqentries⟩

theorem entries_of_name (ho : ofRegistry r release = .ok o) {p : Part} (hp : p ∈ o.parts)
    {spec : String × List String} (hspec : spec ∈ Catalogue.parts) (hname : spec.1 = p.name) :
    p.entries = spec.2.flatMap o.entriesOf := by
  obtain ⟨t, ht, htname, hentries⟩ := exists_spec_entries ho hp
  have hsame : t = spec := Catalogue.eq_of_name ht hspec (htname.trans hname.symm)
  have hclasses : ∀ cls ∈ spec.2, cls ∈ Catalogue.classes :=
    fun cls hcls => List.mem_flatMap.mpr ⟨spec, hspec, hcls⟩
  rw [flatMap_entriesOf ho hclasses, hentries, hsame]

theorem isShared_of_ofRegistry (ho : ofRegistry r release = .ok o) : o.IsShared := by
  have hentries := entries_eq_flatMap ho
  constructor
  case partNames => exact names_parts ho
  case wrappers =>
    intro p hp spec hspec hname
    show banner ++ String.join ((p.entries.filterMap Entry.block?).map _) = _
    rw [entries_of_name ho hp hspec hname, List.filterMap_flatMap, List.map_flatMap]
    rfl
  case exposers =>
    intro p hp spec hspec hname
    show banner ++ String.join ((p.entries.filterMap Entry.block?).map _) ++ _ = _
    rw [entries_of_name ho hp hspec hname, List.filterMap_flatMap, List.map_flatMap]
    rfl
  case undocumented =>
    show o.entries.filterMap Entry.undocumented? = _
    rw [hentries, List.filterMap_flatMap]
    rfl
  case superseded =>
    show o.entries.filterMap Entry.superseded? = _
    rw [hentries, List.filterMap_flatMap]
    rfl
  case unsupported =>
    show o.entries.filterMap Entry.unsupported? = _
    rw [hentries, List.filterMap_flatMap]
    rfl

theorem share_congr {s : Registry} {o' : Output} (ho : ofRegistry r release = .ok o)
    (ho' : ofRegistry s release = .ok o') {cls : String} (h : r.methodsOf cls = s.methodsOf cls) :
    o.share cls = o'.share cls := by
  rw [share, share, entriesOf_eq ho, entriesOf_eq ho', Registry.entries_singleton_congr fun _ => h]

end Run

/-- Classes that a release lacks have no influence on its output, and the share of a class does
not depend on the other classes. -/
theorem classes_independent (release : Option Nat) :
    (∀ r s, Registry.AgreesAt release r s → ofRegistry r release = ofRegistry s release) ∧
      ∀ r s, ∃ o o', ofRegistry r release = .ok o ∧ ofRegistry s release = .ok o' ∧
        o.IsShared ∧ o'.IsShared ∧
        ∀ cls, r.methodsOf cls = s.methodsOf cls → o.share cls = o'.share cls := by
  refine ⟨fun r s => ofRegistry_congr, fun r s => ?_⟩
  obtain ⟨o, ho⟩ := succeeds_ofRegistry r release
  obtain ⟨o', ho'⟩ := succeeds_ofRegistry s release
  exact ⟨o, o', ho, ho', isShared_of_ofRegistry ho, isShared_of_ofRegistry ho',
    fun _ => share_congr ho ho'⟩

/-- A method of a class that every release has, and one of a class that was added later and to
which the other converts. -/
def mixedRegistry : Registry :=
  (Registry.empty.addAll
    ["isl_bool isl_pw_aff_is_cst(__isl_keep isl_pw_aff *pa);",
      "isl_bool isl_union_pw_aff_involves_nan(__isl_keep isl_union_pw_aff *upa);"]).1

theorem classes_independent_mixed :
    let older := mixedRegistry.availableAt (some 14)
    mixedRegistry.AgreesAt (some 14) older ∧
      ofRegistry mixedRegistry (some 14) = ofRegistry older (some 14) ∧
      mixedRegistry.methodsOf "pw_aff" = older.methodsOf "pw_aff" ∧
      ∃ o o', ofRegistry mixedRegistry none = .ok o ∧ ofRegistry older none = .ok o' ∧
        o.share "pw_aff" = o'.share "pw_aff" ∧ (o.share "pw_aff").wrappers.length = 1 ∧
        (o.share "union_pw_aff").wrappers.length = 1 ∧ o'.share "union_pw_aff" = .ofEntries [] := by
  intro older
  have hagree : mixedRegistry.AgreesAt (some 14) older :=
    Registry.agreesAt_availableAt mixedRegistry (some 14)
  have hclass : mixedRegistry.methodsOf "pw_aff" = older.methodsOf "pw_aff" :=
    hagree "pw_aff" (by decide +kernel) (by decide)
  obtain ⟨o, o', ho, ho', -, -, hshare⟩ := (classes_independent none).2 mixedRegistry older
  have hmixed : (ofRegistry mixedRegistry none).toOption.map (fun o =>
      ((o.share "pw_aff").wrappers.length, (o.share "union_pw_aff").wrappers.length)) =
        some (1, 1) := by
    decide +kernel
  have holder : (ofRegistry older none).toOption.map (·.share "union_pw_aff") =
      some (.ofEntries []) := by
    decide +kernel
  rw [ho] at hmixed
  rw [ho'] at holder
  simp only [Except.toOption, Option.map_some, Option.some.injEq, Prod.mk.injEq] at hmixed holder
  exact ⟨hagree, (classes_independent (some 14)).1 _ _ hagree, hclass, o, o', ho, ho',
    hshare "pw_aff" hclass, hmixed.1, hmixed.2, holder⟩

end Output

end IslBindings
