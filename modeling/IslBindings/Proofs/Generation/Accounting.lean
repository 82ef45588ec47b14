import IslBindings.Proofs.Generation.Entries
import IslBindings.Proofs.Registry.Reachable
import IslBindings.Proofs.Wrapper.Undocumented

/-!
# No method is lost

Each registered method of a class that the release has stands in one place of the output,
and only once: it has a wrapper in the part of its class, or it is named in one list of the
report. Parts and lists keep the order of the catalogue and, in a class, the order of the
declarations.
-/

namespace IslBindings

/-! ### The methods of a run -/

namespace Registry

variable {r : Registry} {release : Option Nat}

/-- The catalogue offers each registered method of the release, once. -/
theorem Sound.offered_perm (h : Sound r) :
    (r.offered release Catalogue.classes).Perm
      (r.methods.filter (Catalogue.isAvailable ·.cls release)) := by
  have hnodup : (Catalogue.classes.filter (Catalogue.isAvailable · release)).Nodup :=
    Catalogue.classes_nodup.filter _
  have hsame : (r.methods.filter fun m =>
        (Catalogue.classes.filter (Catalogue.isAvailable · release)).contains m.cls) =
      r.methods.filter (Catalogue.isAvailable ·.cls release) := by
    refine List.filter_congr fun m hm => ?_
    rw [Bool.eq_iff_iff, List.contains_iff_mem, List.mem_filter]
    exact ⟨fun hc => hc.2, fun hc => ⟨h.placed m hm, hc⟩⟩
  -- The catalogue goes through the fibers of its classes, which are distinct.
  have hperm := flatMap_fibers_perm (f := Method.cls) (l := r.methods) hnodup
  rw [hsame] at hperm
  exact hperm

theorem Sound.countP_offered (h : Sound r) {m : Method} (hm : m ∈ r.methods) :
    (r.offered release Catalogue.classes).countP (·.cName == m.cName) =
      if Catalogue.isAvailable m.cls release then 1 else 0 := by
  rw [h.offered_perm.countP_eq]
  split
  · next ha =>
    have hsub : (r.methods.filter (Catalogue.isAvailable ·.cls release)).Sublist r.methods :=
      List.filter_sublist
    exact countP_key ((hsub.map _).nodup h.distinct) (List.mem_filter.mpr ⟨hm, ha⟩)
  · next ha =>
    rw [List.countP_eq_zero]
    intro n hn hname
    obtain ⟨hmem, hn⟩ := List.mem_filter.mp hn
    rw [eq_of_key h.distinct hmem hm (beq_iff_eq.mp hname)] at hn
    exact ha hn

end Registry

/-! ### The places of a method -/

namespace Output

def blocks (o : Output) : List (Method × Wrapper) := o.parts.flatMap Part.blocks

/-- How often a method stands in the output: with a wrapper, or in a list of the report. -/
def places (o : Output) (m : Method) : Nat :=
  o.blocks.countP (·.1.cName == m.cName) + o.report.superseded.count m.display +
    o.report.undocumented.count m.display + (o.report.unsupported.map Prod.fst).count m.display

def entries (o : Output) : List Entry := o.parts.flatMap Part.entries

end Output

theorem Method.display_beq (m n : Method) : (m.display == n.display) = (m.cName == n.cName) := by
  rw [Bool.eq_iff_iff, beq_iff_eq, beq_iff_eq]
  constructor
  · intro h
    have hchars := congrArg String.toList h
    simp only [display, String.toList_append, List.append_cancel_left_eq,
      List.append_cancel_right_eq] at hchars
    exact String.toList_inj.mp hchars
  · intro h
    rw [display, display, h]

namespace Entry

def block? (e : Entry) : Option (Method × Wrapper) := e.wrapper?.map fun w => (e.method, w)

def superseded? (e : Entry) : Option String :=
  match e.verdict with
  | .superseded => some e.method.display
  | _ => none

def undocumented? (e : Entry) : Option String :=
  match e.verdict with
  | .undocumented method => some method
  | _ => none

def unsupported? (e : Entry) : Option (String × String) :=
  match e.verdict with
  | .unsupported reason => some (e.method.display, reason.message)
  | _ => none

/-- An entry without an annotation is listed under its own name. -/
def NamesItself (e : Entry) : Prop :=
  ∀ name, e.verdict = .undocumented name → name = e.method.display

theorem IsDecided.namesItself {r : Registry} {e : Entry} (h : e.IsDecided r) : e.NamesItself := by
  intro name hname
  rw [IsDecided, hname] at h
  simp only [Method.verdict?] at h
  split at h
  · cases h
  · split at h
    · cases h
    · next hskip =>
      cases h
      exact Method.display_of_wrapOrVeto hskip
    · cases h
    · cases h

theorem IsDecided.wrapped {r : Registry} {e : Entry} (h : e.IsDecided r) {w : Wrapper}
    (hw : e.verdict = .wrapped w) : e.method.wrapOrVeto = .wrapped w := by
  rw [IsDecided, hw] at h
  simp only [Method.verdict?] at h
  split at h
  · cases h
  · split at h
    · next hwrap =>
      cases h
      exact hwrap
    · cases h
    · cases h
    · cases h

theorem count_place {e : Entry} (h : e.NamesItself) (m : Method) :
    e.block?.toList.countP (·.1.cName == m.cName) + e.superseded?.toList.count m.display +
        e.undocumented?.toList.count m.display + (e.unsupported?.toList.map Prod.fst).count m.display =
      if e.method.cName == m.cName then 1 else 0 := by
  have hdisplay := Method.display_beq e.method m
  cases hv : e.verdict with
  | wrapped w => simp [block?, wrapper?, superseded?, undocumented?, unsupported?, hv, List.countP_cons]
  | superseded =>
    simp [block?, wrapper?, superseded?, undocumented?, unsupported?, hv, List.count_cons, hdisplay]
  | undocumented name =>
    rw [h name hv] at hv
    simp [block?, wrapper?, superseded?, undocumented?, unsupported?, hv, List.count_cons, hdisplay]
  | unsupported reason =>
    simp [block?, wrapper?, superseded?, undocumented?, unsupported?, hv, List.count_cons, hdisplay]

theorem length_place (e : Entry) :
    e.block?.toList.length + e.superseded?.toList.length + e.undocumented?.toList.length +
      e.unsupported?.toList.length = 1 := by
  cases hv : e.verdict with
  | _ => simp [block?, wrapper?, superseded?, undocumented?, unsupported?, hv]

theorem count_places {es : List Entry} (h : ∀ e ∈ es, e.NamesItself) (m : Method) :
    (es.filterMap block?).countP (·.1.cName == m.cName) +
        (es.filterMap superseded?).count m.display + (es.filterMap undocumented?).count m.display +
        ((es.filterMap unsupported?).map Prod.fst).count m.display =
      es.countP (·.method.cName == m.cName) := by
  induction es with
  | nil => rfl
  | cons e es ih =>
    have hes := ih fun f hf => h f (List.mem_cons_of_mem _ hf)
    have he := count_place (h e (List.mem_cons_self ..)) m
    rw [filterMap_cons_toList, filterMap_cons_toList, filterMap_cons_toList, filterMap_cons_toList,
      List.map_append, List.countP_append, List.count_append, List.count_append, List.count_append,
      List.countP_cons]
    omega

theorem length_places (es : List Entry) :
    (es.filterMap block?).length + (es.filterMap superseded?).length +
        (es.filterMap undocumented?).length + (es.filterMap unsupported?).length = es.length := by
  induction es with
  | nil => rfl
  | cons e es ih =>
    have he := length_place e
    rw [filterMap_cons_toList, filterMap_cons_toList, filterMap_cons_toList, filterMap_cons_toList,
      List.length_append, List.length_append, List.length_append, List.length_append,
      List.length_cons]
    omega

theorem filterMap_sublist {β : Type} {f : Entry → Option β} {g : Method → β} {es : List Entry}
    (h : ∀ e ∈ es, ∀ b, f e = some b → b = g e.method) :
    (es.filterMap f).Sublist ((es.map (·.method)).map g) := by
  have hsub := filterMap_map_sublist (g := id) (k := fun e : Entry => g e.method) h
  rw [List.map_id] at hsub
  rw [List.map_map]
  exact hsub

end Entry

/-! ### The account of a run -/

theorem Catalogue.part_of_class {s t : String × List String} (hs : s ∈ parts) (ht : t ∈ parts)
    {cls : String} (hcs : cls ∈ s.2) : cls ∈ t.2 ↔ t.1 = s.1 := by
  have hall : ∀ s ∈ parts, ∀ t ∈ parts, ∀ cls ∈ s.2, cls ∈ t.2 ↔ t.1 = s.1 := by decide +kernel
  exact hall s hs t ht cls hcs

theorem Catalogue.eq_of_name {s t : String × List String} (hs : s ∈ parts) (ht : t ∈ parts)
    (h : s.1 = t.1) : s = t := by
  have hall : ∀ s ∈ parts, ∀ t ∈ parts, s.1 = t.1 → s = t := by decide +kernel
  exact hall s hs t ht h

theorem Catalogue.upcasts_in_part {s : String × List String} (hs : s ∈ parts)
    {pair : String × String} (hpair : pair ∈ upcasts s.1) : pair.1 ∈ s.2 ∧ pair.2 ∈ s.2 := by
  have hall : ∀ s ∈ parts, ∀ pair ∈ upcasts s.1, pair.1 ∈ s.2 ∧ pair.2 ∈ s.2 := by decide +kernel
  exact hall s hs pair hpair

namespace Output

structure Accounts (r : Registry) (release : Option Nat) (o : Output) : Prop where
  available : ∀ m ∈ r.methods, Catalogue.isAvailable m.cls release = true → o.places m = 1
  unavailable : ∀ m ∈ r.methods, Catalogue.isAvailable m.cls release = false → o.places m = 0
  total : o.blocks.length + o.report.superseded.length + o.report.undocumented.length +
      o.report.unsupported.length = r.methods.countP (Catalogue.isAvailable ·.cls release)
  /-- A wrapper stands in the part that lists the class of its method. -/
  listed : ∀ p ∈ o.parts, ∀ b ∈ p.blocks, ∀ s ∈ Catalogue.parts, b.1.cls ∈ s.2 ↔ s.1 = p.name
  wrapped : ∀ b ∈ o.blocks, b.1.wrapOrVeto = .wrapped b.2
  /-- The texts of a part hold its wrappers and their registrations, one after the other. -/
  texts : ∀ p ∈ o.parts,
    p.wrappers = banner ++ String.join (p.blocks.map fun b => "\n" ++ b.2.code) ∧
      p.exposers = banner ++ String.join (p.blocks.map fun b => Registration.code b.1 b.2) ++
        String.join (p.folds.map Fold.code)
  partNames : o.parts.map (·.name) = Catalogue.parts.map (·.1)
  blockOrder : ∀ p ∈ o.parts, ∀ s ∈ Catalogue.parts, s.1 = p.name →
    (p.blocks.map (·.1)).Sublist (r.offered release s.2)
  supersededOrder : o.report.superseded.Sublist
    ((r.offered release Catalogue.classes).map Method.display)
  undocumentedOrder : o.report.undocumented.Sublist
    ((r.offered release Catalogue.classes).map Method.display)
  unsupportedOrder : (o.report.unsupported.map (·.1)).Sublist
    ((r.offered release Catalogue.classes).map Method.display)

section Run

variable {r : Registry} {release : Option Nat} {o : Output}

theorem isDecided_of_mem_entries (ho : ofRegistry r release = .ok o) :
    ∀ e ∈ o.entries, e.IsDecided r := by
  intro e he
  obtain ⟨p, hp, hep⟩ := List.mem_flatMap.mp he
  exact (of_ofRegistry ho).2 p hp e hep

theorem methods_entries (ho : ofRegistry r release = .ok o) :
    o.entries.map (·.method) = r.offered release Catalogue.classes := by
  have hparts := congrArg (List.flatMap Prod.snd) (of_ofRegistry ho).1
  rw [List.flatMap_map, List.flatMap_map] at hparts
  rw [entries, List.map_flatMap, Registry.offered, Catalogue.classes, List.filter_flatMap,
    List.flatMap_assoc]
  exact hparts

theorem blocks_eq (o : Output) : o.blocks = o.entries.filterMap Entry.block? := by
  rw [entries, List.filterMap_flatMap]
  rfl

theorem exists_spec (ho : ofRegistry r release = .ok o) {p : Part} (hp : p ∈ o.parts) :
    ∃ s ∈ Catalogue.parts, s.1 = p.name ∧ p.entries.map (·.method) = r.offered release s.2 := by
  have hmem : (p.name, p.entries.map (·.method)) ∈
      o.parts.map (fun p => (p.name, p.entries.map (·.method))) := List.mem_map_of_mem hp
  rw [(of_ofRegistry ho).1] at hmem
  obtain ⟨s, hs, he⟩ := List.mem_map.mp hmem
  rw [Prod.mk.injEq] at he
  exact ⟨s, hs, he.1, he.2.symm⟩

theorem mem_block {e : Entry} {b : Method × Wrapper} (h : e.block? = some b) :
    b.1 = e.method ∧ e.verdict = .wrapped b.2 := by
  obtain ⟨w, hw, rfl⟩ := Option.map_eq_some_iff.mp h
  simp only [Entry.wrapper?] at hw
  split at hw
  · next hv =>
    cases hw
    exact ⟨rfl, hv⟩
  · cases hw

theorem blocks_sublist (ho : ofRegistry r release = .ok o) {p : Part} (hp : p ∈ o.parts) :
    ∃ s ∈ Catalogue.parts, s.1 = p.name ∧
      (p.blocks.map (·.1)).Sublist (r.offered release s.2) := by
  obtain ⟨s, hs, hname, hmethods⟩ := exists_spec ho hp
  refine ⟨s, hs, hname, ?_⟩
  have hsub : (p.entries.filterMap fun e => e.block?.map (·.1)).Sublist
      ((p.entries.map (·.method)).map id) := by
    refine Entry.filterMap_sublist fun e _ m hm => ?_
    obtain ⟨b, hb, rfl⟩ := Option.map_eq_some_iff.mp hm
    exact (mem_block hb).1
  rw [List.map_id, hmethods] at hsub
  rw [Part.blocks, List.map_filterMap]
  exact hsub

theorem mem_methods_of_mem_blocks (ho : ofRegistry r release = .ok o) {b : Method × Wrapper}
    (hb : b ∈ o.blocks) : b.1 ∈ r.methods := by
  obtain ⟨p, hp, hb⟩ := List.mem_flatMap.mp hb
  obtain ⟨s, -, -, hsub⟩ := blocks_sublist ho hp
  obtain ⟨c, -, hc⟩ := List.mem_flatMap.mp (hsub.mem (List.mem_map_of_mem hb))
  exact (List.mem_filter.mp hc).1

theorem report_sublist {β : Type} (ho : ofRegistry r release = .ok o) {f : Entry → Option β}
    {g : Method → β} (h : ∀ e ∈ o.entries, ∀ b, f e = some b → b = g e.method) :
    (o.entries.filterMap f).Sublist ((r.offered release Catalogue.classes).map g) := by
  rw [← methods_entries ho]
  exact Entry.filterMap_sublist h

theorem places_eq (hr : r.Reachable) (ho : ofRegistry r release = .ok o) {m : Method}
    (hm : m ∈ r.methods) :
    o.places m = if Catalogue.isAvailable m.cls release then 1 else 0 := by
  have hcount := Entry.count_places (fun e he => (isDecided_of_mem_entries ho e he).namesItself) m
  have hmethods : o.entries.countP (·.method.cName == m.cName) =
      (o.entries.map (·.method)).countP (·.cName == m.cName) := by
    rw [List.countP_map]
    rfl
  rw [hmethods, methods_entries ho, hr.sound.countP_offered hm] at hcount
  rw [places, blocks_eq]
  exact hcount

theorem length_places (hr : r.Reachable) (ho : ofRegistry r release = .ok o) :
    o.blocks.length + o.report.superseded.length + o.report.undocumented.length +
      o.report.unsupported.length = r.methods.countP (Catalogue.isAvailable ·.cls release) := by
  have hlength := Entry.length_places o.entries
  have hmethods : o.entries.length = (r.offered release Catalogue.classes).length := by
    rw [← methods_entries ho, List.length_map]
  rw [hmethods, hr.sound.offered_perm.length_eq, ← List.countP_eq_length_filter] at hlength
  rw [blocks_eq, ← hlength]
  show _ + (o.entries.filterMap Entry.superseded?).length +
    (o.entries.filterMap Entry.undocumented?).length +
    (o.entries.filterMap Entry.unsupported?).length = _
  rfl

theorem part_of_mem_blocks (ho : ofRegistry r release = .ok o) {p : Part} (hp : p ∈ o.parts)
    {b : Method × Wrapper} (hb : b ∈ p.blocks) {s : String × List String}
    (hs : s ∈ Catalogue.parts) : b.1.cls ∈ s.2 ↔ s.1 = p.name := by
  obtain ⟨t, ht, hname, hsub⟩ := blocks_sublist ho hp
  have hmem := hsub.mem (List.mem_map_of_mem hb)
  obtain ⟨c, hc, hbc⟩ := List.mem_flatMap.mp hmem
  have hcls : b.1.cls = c := Registry.cls_of_mem_methodsOf hbc
  have hct : b.1.cls ∈ t.2 := by
    rw [hcls]
    exact (List.mem_filter.mp hc).1
  rw [← hname]
  exact Catalogue.part_of_class ht hs hct

theorem wrapOrVeto_of_mem_blocks (ho : ofRegistry r release = .ok o) {b : Method × Wrapper}
    (hb : b ∈ o.blocks) : b.1.wrapOrVeto = .wrapped b.2 := by
  rw [blocks_eq] at hb
  obtain ⟨e, he, heb⟩ := List.mem_filterMap.mp hb
  obtain ⟨hmethod, hverdict⟩ := mem_block heb
  rw [hmethod]
  exact (isDecided_of_mem_entries ho e he).wrapped hverdict

theorem superseded_sublist (ho : ofRegistry r release = .ok o) :
    o.report.superseded.Sublist ((r.offered release Catalogue.classes).map Method.display) := by
  refine report_sublist ho fun e _ name h => ?_
  have h : e.superseded? = some name := h
  simp only [Entry.superseded?] at h
  split at h
  · cases h
    rfl
  · cases h

theorem undocumented_sublist (ho : ofRegistry r release = .ok o) :
    o.report.undocumented.Sublist ((r.offered release Catalogue.classes).map Method.display) := by
  refine report_sublist ho fun e he name h => ?_
  have h : e.undocumented? = some name := h
  simp only [Entry.undocumented?] at h
  split at h
  · next hv =>
    cases h
    exact (isDecided_of_mem_entries ho e he).namesItself _ hv
  · cases h

theorem unsupported_sublist (ho : ofRegistry r release = .ok o) :
    (o.report.unsupported.map (·.1)).Sublist
      ((r.offered release Catalogue.classes).map Method.display) := by
  have hsub : (o.entries.filterMap fun e => e.unsupported?.map (·.1)).Sublist
      ((r.offered release Catalogue.classes).map Method.display) := by
    refine report_sublist ho fun e _ name h => ?_
    obtain ⟨pair, hpair, rfl⟩ := Option.map_eq_some_iff.mp h
    simp only [Entry.unsupported?] at hpair
    split at hpair
    · cases hpair
      rfl
    · cases hpair
  rw [← List.map_filterMap] at hsub
  exact hsub

/-- Every method of a run is accounted for. -/
theorem accounts (hr : r.Reachable) (ho : ofRegistry r release = .ok o) : o.Accounts r release where
  available m hm ha := by rw [places_eq hr ho hm, if_pos ha]
  unavailable m hm ha := by rw [places_eq hr ho hm, if_neg (by rw [ha]; simp)]
  total := length_places hr ho
  listed p hp b hb s hs := part_of_mem_blocks ho hp hb hs
  wrapped b hb := wrapOrVeto_of_mem_blocks ho hb
  texts p _ := ⟨rfl, rfl⟩
  partNames := by
    have hnames := congrArg (List.map Prod.fst) (of_ofRegistry ho).1
    rwa [List.map_map, List.map_map] at hnames
  blockOrder p hp s hs hname := by
    obtain ⟨t, ht, htname, hsub⟩ := blocks_sublist ho hp
    have hst : s = t := Catalogue.eq_of_name hs ht (hname.trans htname.symm)
    rw [hst]
    exact hsub
  supersededOrder := superseded_sublist ho
  undocumentedOrder := undocumented_sublist ho
  unsupportedOrder := unsupported_sublist ho

end Run

def sampleRegistry : Registry :=
  (Registry.empty.addAll
    ["isl_bool isl_set_is_empty(__isl_keep isl_set *set);", "int isl_map_dim(isl_map *map);",
      "int isl_map_list_size(__isl_keep isl_map_list *list);"]).1

theorem accounts_sample :
    ∃ o, ofRegistry sampleRegistry (some 14) = .ok o ∧ o.Accounts sampleRegistry (some 14) ∧
      sampleRegistry.methods.length = 3 ∧ o.blocks.length = 1 ∧
      o.report.undocumented = ["<method isl_map_dim>"] := by
  have hrun : (ofRegistry sampleRegistry (some 14)).toOption.map
      (fun o => (sampleRegistry.methods.length, o.blocks.length, o.report.undocumented)) =
        some (3, 1, ["<method isl_map_dim>"]) := by
    decide +kernel
  cases ho : ofRegistry sampleRegistry (some 14) with
  | error e =>
    rw [ho] at hrun
    cases hrun
  | ok o =>
    rw [ho] at hrun
    simp only [Except.toOption, Option.map_some, Option.some.injEq, Prod.mk.injEq] at hrun
    have hr : sampleRegistry.Reachable := Registry.Reachable.empty.addAll _
    exact ⟨o, rfl, accounts hr ho, hrun.1, hrun.2.1, hrun.2.2⟩

end Output

end IslBindings
