import IslBindings.Proofs.Generation.Independence
import IslBindings.Proofs.Registry.WrapperName

/-!
# Superseded methods

An integer overload `x_si` or `x_ui` gives way to each method of its class that is named `x` or
`x_val`. Names alone decide that. Whether the other method gets a wrapper is decided by its shape
and, as `x` may be an integer overload too, by the names of third methods. So an overload may give
way to methods without wrappers; but a row of methods, each of which gives way to the next one,
ends in one that gives way to none.
-/

namespace IslBindings

/-! ### Names -/

/-- A text that ends in `l` is none that ends in `i`. -/
theorem Text.val_ne {s t ending : String} (h : ending.toList.getLast? = some 'i') :
    s ++ "_val" ≠ t ++ ending := by
  intro heq
  have hval : "_val".toList.getLast? = some 'l' := by decide
  have hlast := congrArg (·.toList.getLast?) heq
  simp only [String.toList_append, List.getLast?_append, h, hval, Option.some_or] at hlast
  cases hlast

theorem Text.ofList_take_append (stem ending : String) :
    String.ofList ((stem ++ ending).toList.take
      ((stem ++ ending).toList.length - ending.toList.length)) = stem := by
  rw [String.toList_append, List.length_append, Nat.add_sub_cancel, List.take_left,
    String.ofList_toList]

namespace Method

/-- The method has the name of an integer overload of its class less the ending, or with `_val`
for the ending. -/
def TakesPlaceOf (n m : Method) : Prop :=
  n.cls = m.cls ∧ ∃ stem, (m.name = stem ++ "_si" ∨ m.name = stem ++ "_ui") ∧
    (n.name = stem ∨ n.name = stem ++ "_val")

variable {m n : Method}

theorem isIntegerOverload_iff : m.isIntegerOverload = true ↔
    ∃ stem, m.name = stem ++ "_si" ∨ m.name = stem ++ "_ui" := by
  rw [isIntegerOverload, Bool.or_eq_true, Text.endsWith_iff_exists, Text.endsWith_iff_exists,
    exists_or]

theorem valueNames_eq {stem : String} (h : m.name = stem ++ "_si" ∨ m.name = stem ++ "_ui") :
    m.valueNames = [stem, stem ++ "_val"] := by
  have hstem : String.ofList (m.name.toList.take (m.name.toList.length - 3)) = stem := by
    rcases h with h | h
    · rw [h]
      exact Text.ofList_take_append stem "_si"
    · rw [h]
      exact Text.ofList_take_append stem "_ui"
  rw [valueNames, if_pos (isIntegerOverload_iff.mpr ⟨stem, h⟩), hstem]

theorem mem_valueNames_iff {name : String} : name ∈ m.valueNames ↔
    ∃ stem, (m.name = stem ++ "_si" ∨ m.name = stem ++ "_ui") ∧
      (name = stem ∨ name = stem ++ "_val") := by
  constructor
  · intro h
    by_cases hoverload : m.isIntegerOverload = true
    · obtain ⟨stem, hstem⟩ := isIntegerOverload_iff.mp hoverload
      rw [valueNames_eq hstem, List.mem_cons, List.mem_singleton] at h
      exact ⟨stem, hstem, h⟩
    · rw [valueNames, if_neg hoverload] at h
      cases h
  · rintro ⟨stem, hstem, h⟩
    rwa [valueNames_eq hstem, List.mem_cons, List.mem_singleton]

theorem takesPlaceOf_iff : n.TakesPlaceOf m ↔ n.cls = m.cls ∧ n.name ∈ m.valueNames :=
  and_congr_right fun _ => mem_valueNames_iff.symm

instance (n m : Method) : Decidable (n.TakesPlaceOf m) := decidable_of_iff' _ takesPlaceOf_iff

theorem isSuperseded_iff {siblings : List Method} :
    m.isSuperseded siblings = true ↔ ∃ n ∈ siblings, n.name ∈ m.valueNames := by
  simp only [isSuperseded, List.any_eq_true, List.contains_iff_mem]

/-- Nothing takes the place of a method that takes a value by its name. -/
theorem not_takesPlaceOf_val {stem : String} (h : m.name = stem ++ "_val") :
    ¬n.TakesPlaceOf m := by
  rintro ⟨-, other, hm | hm, -⟩
  · exact Text.val_ne (by decide) (h.symm.trans hm)
  · exact Text.val_ne (by decide) (h.symm.trans hm)

/-- What takes the place of another has a shorter name, or nothing takes its own place. -/
theorem TakesPlaceOf.length_lt {k : Method} (h : n.TakesPlaceOf m) (hk : k.TakesPlaceOf n) :
    n.name.length < m.name.length := by
  obtain ⟨-, stem, hm, hn | hn⟩ := h
  · rcases hm with hm | hm
    · rw [hm, hn, String.length_append]
      exact Nat.lt_add_of_pos_right (by decide)
    · rw [hm, hn, String.length_append]
      exact Nat.lt_add_of_pos_right (by decide)
  · exact absurd hk (not_takesPlaceOf_val hn)

theorem cls_of_transGen (h : Relation.TransGen TakesPlaceOf n m) : n.cls = m.cls := by
  induction h with
  | single h => exact h.1
  | tail _ h ih => exact ih.trans h.1

end Method

theorem Registry.isSuperseded_iff {r : Registry} {m : Method} :
    m.isSuperseded (r.methodsOf m.cls) = true ↔ ∃ n ∈ r.methods, n.TakesPlaceOf m := by
  simp only [Method.isSuperseded_iff, Method.takesPlaceOf_iff, methodsOf, List.mem_filter,
    beq_iff_eq, and_assoc]

/-! ### What becomes of a method -/

namespace Method

variable {m : Method} {siblings : List Method}

theorem verdict?_eq_superseded_iff :
    m.verdict? siblings = some .superseded ↔ m.isSuperseded siblings = true := by
  simp only [verdict?]
  split
  · next h => exact iff_of_true rfl h
  · next h =>
    refine iff_of_false (fun hv => ?_) h
    split at hv <;> cases hv

theorem verdict?_eq_wrapped_iff {w : Wrapper} : m.verdict? siblings = some (.wrapped w) ↔
    m.isSuperseded siblings = false ∧ m.wrapOrVeto = .wrapped w := by
  simp only [verdict?]
  split
  · next h => exact iff_of_false (fun hv => by cases hv) fun hw => by rw [h] at hw; cases hw.1
  · next h =>
    rw [Bool.not_eq_true] at h
    split <;> simp_all

end Method

/-! ### Runs -/

namespace Output

section Run

variable {r : Registry} {release : Option Nat} {o : Output} {m : Method}

theorem exists_entry_iff (hr : r.Reachable) (ho : ofRegistry r release = .ok o) :
    (∃ e ∈ o.entries, e.method = m) ↔
      m ∈ r.methods ∧ Catalogue.isAvailable m.cls release = true := by
  have hmap : (∃ e ∈ o.entries, e.method = m) ↔ m ∈ o.entries.map (·.method) :=
    List.mem_map.symm
  rw [hmap, methods_entries ho, hr.sound.offered_perm.mem_iff, List.mem_filter]

/-- A wrapper stands for each method of the release that fits and that no other supersedes. -/
theorem mem_blocks_iff (hr : r.Reachable) (ho : ofRegistry r release = .ok o) {w : Wrapper} :
    (m, w) ∈ o.blocks ↔ m ∈ r.methods ∧ Catalogue.isAvailable m.cls release = true ∧
      m.isSuperseded (r.methodsOf m.cls) = false ∧ m.wrapOrVeto = .wrapped w := by
  rw [← and_assoc, ← exists_entry_iff hr ho, blocks_eq, List.mem_filterMap]
  constructor
  · rintro ⟨e, he, hblock⟩
    obtain ⟨rfl, hverdict⟩ := mem_block hblock
    have hdecided := isDecided_of_mem_entries ho e he
    rw [Entry.IsDecided, hverdict] at hdecided
    exact ⟨⟨e, he, rfl⟩, Method.verdict?_eq_wrapped_iff.mp hdecided⟩
  · rintro ⟨⟨e, he, rfl⟩, hwrapped⟩
    have hdecided := isDecided_of_mem_entries ho e he
    rw [Entry.IsDecided, Method.verdict?_eq_wrapped_iff.mpr hwrapped, Option.some.injEq] at hdecided
    refine ⟨e, he, ?_⟩
    rw [Entry.block?, Entry.wrapper?, ← hdecided]
    rfl

theorem exists_wrapper_iff (hr : r.Reachable) (ho : ofRegistry r release = .ok o) :
    (∃ w, (m, w) ∈ o.blocks) ↔ m ∈ r.methods ∧ Catalogue.isAvailable m.cls release = true ∧
      m.isSuperseded (r.methodsOf m.cls) = false ∧ m.WellShaped := by
  simp only [mem_blocks_iff hr ho, exists_and_left, Method.wrapOrVeto_wrapped_iff]

theorem mem_superseded_iff (ho : ofRegistry r release = .ok o) {name : String} :
    name ∈ o.report.superseded ↔ ∃ e ∈ o.entries,
      e.method.isSuperseded (r.methodsOf e.method.cls) = true ∧ e.method.display = name := by
  have hreport : o.report.superseded = o.entries.filterMap Entry.superseded? := rfl
  rw [hreport, List.mem_filterMap]
  refine exists_congr fun e => and_congr_right fun he => ?_
  have hdecided := isDecided_of_mem_entries ho e he
  rw [Entry.IsDecided] at hdecided
  rw [← Method.verdict?_eq_superseded_iff, hdecided, Entry.superseded?]
  split
  · next hv => simp [hv]
  · next hv => exact iff_of_false (fun h => by cases h) fun h => hv (Option.some.inj h.1)

/-- An integer overload of the release is superseded by any method that takes its place. -/
theorem display_mem_superseded_iff (hr : r.Reachable) (ho : ofRegistry r release = .ok o)
    (hm : m ∈ r.methods) : m.display ∈ o.report.superseded ↔
      Catalogue.isAvailable m.cls release = true ∧ ∃ n ∈ r.methods, n.TakesPlaceOf m := by
  rw [mem_superseded_iff ho, ← Registry.isSuperseded_iff]
  constructor
  · rintro ⟨e, he, hsuperseded, hdisplay⟩
    obtain ⟨hmem, havailable⟩ := (exists_entry_iff hr ho).mp ⟨e, he, rfl⟩
    -- Methods of one name in the report are the same, as their C names are.
    have hcName : e.method.cName = m.cName := by
      have hbeq := Method.display_beq e.method m
      rw [hdisplay, beq_self_eq_true] at hbeq
      exact beq_iff_eq.mp hbeq.symm
    rw [← eq_of_key hr.sound.distinct hmem hm hcName]
    exact ⟨havailable, hsuperseded⟩
  · rintro ⟨havailable, hsuperseded⟩
    obtain ⟨e, he, rfl⟩ := (exists_entry_iff hr ho).mpr ⟨hm, havailable⟩
    exact ⟨e, he, hsuperseded, rfl⟩

theorem exists_wrapper_iff_display (hr : r.Reachable) (ho : ofRegistry r release = .ok o)
    (hm : m ∈ r.methods) (havailable : Catalogue.isAvailable m.cls release = true) :
    (∃ w, (m, w) ∈ o.blocks) ↔ m.WellShaped ∧ m.display ∉ o.report.superseded := by
  have hsuperseded : m.display ∈ o.report.superseded ↔
      m.isSuperseded (r.methodsOf m.cls) = true := by
    rw [display_mem_superseded_iff hr ho hm, Registry.isSuperseded_iff]
    exact and_iff_right havailable
  rw [exists_wrapper_iff hr ho, hsuperseded, Bool.not_eq_true]
  exact ⟨fun h => ⟨h.2.2.2, h.2.2.1⟩, fun h => ⟨hm, havailable, h.2, h.1⟩⟩

/-- A row of methods that take the place of one another ends, as their names get shorter. -/
theorem exists_last (hr : r.Reachable) (ho : ofRegistry r release = .ok o) (hm : m ∈ r.methods)
    (h : m.display ∈ o.report.superseded) : ∃ n ∈ r.methods,
      Relation.TransGen Method.TakesPlaceOf n m ∧ n.display ∉ o.report.superseded := by
  induction hlength : m.name.length using Nat.strongRecOn generalizing m with
  | ind length ih =>
    obtain ⟨-, n, hn, htakes⟩ := (display_mem_superseded_iff hr ho hm).mp h
    by_cases hagain : n.display ∈ o.report.superseded
    · obtain ⟨-, k, -, hk⟩ := (display_mem_superseded_iff hr ho hn).mp hagain
      have hlt : n.name.length < length := by
        rw [← hlength]
        exact htakes.length_lt hk
      obtain ⟨last, hlast, hrow, hkept⟩ := ih n.name.length hlt hn hagain rfl
      exact ⟨last, hlast, hrow.tail htakes, hkept⟩
    · exact ⟨n, hn, .single htakes, hagain⟩

end Run

/-- What a run makes of integer overloads and of the methods that take their place. -/
structure Supersedes (r : Registry) (release : Option Nat) (o : Output) : Prop where
  /-- Names decide which overloads are superseded. -/
  superseded : ∀ m ∈ r.methods, m.display ∈ o.report.superseded ↔
    Catalogue.isAvailable m.cls release = true ∧ ∃ n ∈ r.methods, n.TakesPlaceOf m
  /-- One of the methods that take the place of an overload has a wrapper if and only if one of
  them fits and is not superseded itself. -/
  wrapped : ∀ m ∈ r.methods, m.display ∈ o.report.superseded →
    ((∃ n ∈ r.methods, n.TakesPlaceOf m ∧ ∃ w, (n, w) ∈ o.blocks) ↔
      ∃ n ∈ r.methods, n.TakesPlaceOf m ∧ n.WellShaped ∧ n.display ∉ o.report.superseded)
  /-- A method named for a value is never superseded. -/
  kept : ∀ n ∈ r.methods, ∀ stem, n.name = stem ++ "_val" → n.display ∉ o.report.superseded
  /-- Behind each superseded overload stands, at the end of a row of methods that take the place
  of one another, one that is not superseded; it has a wrapper if and only if it fits. -/
  last : ∀ m ∈ r.methods, m.display ∈ o.report.superseded → ∃ n ∈ r.methods,
    Relation.TransGen Method.TakesPlaceOf n m ∧ n.display ∉ o.report.superseded ∧
      ((∃ w, (n, w) ∈ o.blocks) ↔ n.WellShaped)

theorem supersedes_of_reachable {r : Registry} (hr : r.Reachable) (release : Option Nat) :
    ∃ o, ofRegistry r release = .ok o ∧ o.Supersedes r release := by
  obtain ⟨o, ho⟩ := succeeds_ofRegistry r release
  refine ⟨o, ho, ?_⟩
  constructor
  case superseded => exact fun m hm => display_mem_superseded_iff hr ho hm
  case wrapped =>
    intro m hm h
    obtain ⟨havailable, -⟩ := (display_mem_superseded_iff hr ho hm).mp h
    refine exists_congr fun n => and_congr_right fun hn => and_congr_right fun htakes => ?_
    rw [← htakes.1] at havailable
    exact exists_wrapper_iff_display hr ho hn havailable
  case kept =>
    intro n hn stem hname h
    obtain ⟨-, k, -, hk⟩ := (display_mem_superseded_iff hr ho hn).mp h
    exact Method.not_takesPlaceOf_val hname hk
  case last =>
    intro m hm h
    obtain ⟨havailable, -⟩ := (display_mem_superseded_iff hr ho hm).mp h
    obtain ⟨n, hn, hrow, hkept⟩ := exists_last hr ho hm h
    rw [← Method.cls_of_transGen hrow] at havailable
    refine ⟨n, hn, hrow, hkept, ?_⟩
    rw [exists_wrapper_iff_display hr ho hn havailable]
    exact and_iff_left hkept

/-- An overload with a method that takes a value in its place. -/
def valuedRegistry : Registry :=
  (Registry.empty.addAll
    ["int isl_set_fix_si(__isl_keep isl_set *set, int v);",
      "int isl_set_fix_val(__isl_keep isl_set *set, __isl_take isl_val *v);"]).1

theorem supersedes_valued :
    valuedRegistry.Reachable ∧ ∃ o, ofRegistry valuedRegistry none = .ok o ∧
      o.Supersedes valuedRegistry none ∧ o.report.superseded = ["<method isl_set_fix_si>"] ∧
      o.blocks.map (·.1.name) = ["fix_val"] := by
  have hr : valuedRegistry.Reachable := Registry.Reachable.empty.addAll _
  obtain ⟨o, ho, hsupersedes⟩ := supersedes_of_reachable hr none
  have hrun : (o.report.superseded, o.blocks.map (·.1.name)) =
      (["<method isl_set_fix_si>"], ["fix_val"]) :=
    eq_of_map_toOption (fun o => (o.report.superseded, o.blocks.map (·.1.name))) ho
      (by decide +kernel)
  rw [Prod.mk.injEq] at hrun
  exact ⟨hr, o, ho, hsupersedes, hrun.1, hrun.2⟩

/-! ### Overloads that are lost -/

/-- A method fits and is superseded, and no method that takes its place has a wrapper. -/
def Loses (r : Registry) (o : Output) (cName : String) : Prop :=
  ∃ m ∈ r.methods, m.cName = cName ∧ (∃ w, m.wrapOrVeto = .wrapped w) ∧
    m.display ∈ o.report.superseded ∧
      ∀ n ∈ r.methods, n.TakesPlaceOf m → ∀ w, (n, w) ∉ o.blocks

/-- The method that takes a value has no annotations. -/
def unannotatedRegistry : Registry :=
  (Registry.empty.addAll
    ["int isl_set_fix_si(__isl_keep isl_set *set, int v);", "int isl_set_fix_val(isl_set *set);"]).1

/-- An integer overload takes the place of another and is superseded itself. -/
def rowRegistry : Registry :=
  (Registry.empty.addAll
    ["int isl_val_f(int a);", "int isl_val_f_si(int a);", "int isl_val_f_si_ui(int a);"]).1

theorem exists_loses_of_any {r : Registry} {cName : String}
    (h : (ofRegistry r none).toOption.any fun o => r.methods.any fun m =>
      m.cName == cName && (m.wrapOrVeto matches .wrapped _) &&
        o.report.superseded.contains m.display && r.methods.all fun n =>
          !decide (n.TakesPlaceOf m) || o.blocks.all (·.1.cName != n.cName)) :
    ∃ o, ofRegistry r none = .ok o ∧ Loses r o cName := by
  obtain ⟨o, ho⟩ := succeeds_ofRegistry r none
  rw [ho] at h
  obtain ⟨m, hm, hlost⟩ := List.any_eq_true.mp h
  simp only [Bool.and_eq_true, beq_iff_eq, List.contains_iff_mem, List.all_eq_true] at hlost
  obtain ⟨⟨⟨hname, hwrap⟩, hsuperseded⟩, hall⟩ := hlost
  refine ⟨o, ho, m, hm, hname, ?_, hsuperseded, fun n hn htakes w hw => ?_⟩
  · split at hwrap
    · next w hw => exact ⟨w, hw⟩
    · cases hwrap
  · have hblocks := hall n hn
    rw [decide_eq_true htakes, Bool.not_true, Bool.false_or, List.all_eq_true] at hblocks
    exact bne_iff_ne.mp (hblocks (n, w) hw) rfl

/-- An overload can be lost because no method that takes its place fits, and because the only one
is superseded itself. -/
theorem loses_superseded :
    (unannotatedRegistry.Reachable ∧ ∃ o, ofRegistry unannotatedRegistry none = .ok o ∧
        Loses unannotatedRegistry o "isl_set_fix_si") ∧
      rowRegistry.Reachable ∧ ∃ o, ofRegistry rowRegistry none = .ok o ∧
        Loses rowRegistry o "isl_val_f_si_ui" :=
  ⟨⟨Registry.Reachable.empty.addAll _, exists_loses_of_any (by decide +kernel)⟩,
    Registry.Reachable.empty.addAll _, exists_loses_of_any (by decide +kernel)⟩

end Output

end IslBindings
