import IslBindings.Proofs.Generation.Superseded
import IslBindings.Proofs.Registry.FirstDeclared

/-!
# Added declarations

A declaration adds at most one method, behind those that the registry has. Of the wrappers that
there were, an added method takes away those of the integer overloads whose place it takes. All
others stay, in their order, and no method but an added one gets a wrapper that it did not have.
-/

namespace IslBindings

/-! ### Methods that a registry gains -/

namespace Registry

/-- The second registry has the methods of the first and, behind them, others of new C names. -/
structure Gains (r s : Registry) (added : List Method) : Prop where
  methods : s.methods = r.methods ++ added
  fresh : ∀ n ∈ added, r.hasName n.cName = false

/-- The method that a declaration adds, unless it makes none or one of a known C name. -/
def added (r : Registry) (text : String) : List Method :=
  (made? text).toList.filter fun m => !r.hasName m.cName

theorem Gains.refl (r : Registry) : r.Gains r [] :=
  ⟨(List.append_nil _).symm, by simp⟩

theorem gains_declare (r : Registry) (text : String) : r.Gains (r.declare text) (r.added text) := by
  rw [declare_eq, added]
  cases made? text with
  | none => exact .refl r
  | some m =>
    rw [Option.elim_some, Option.toList_some, List.filter_cons, List.filter_nil, insert]
    cases hname : r.hasName m.cName with
    | true => exact .refl r
    | false => exact ⟨rfl, by simp [hname]⟩

theorem gains_of_add {r s : Registry} {text : String} (h : r.add text = .ok s) :
    r.Gains s (r.added text) := by
  cases herror : isError text with
  | true =>
    obtain ⟨e, he⟩ := exists_add_of_isError (r := r) herror
    rw [h] at he
    cases he
  | false =>
    rw [add_of_not_isError herror, Except.ok.injEq] at h
    rw [← h]
    exact gains_declare r text

section Gains

variable {r s : Registry} {added : List Method} {m : Method} {release : Option Nat}

theorem Gains.cName_ne (h : r.Gains s added) (hm : m ∈ r.methods) :
    ∀ n ∈ added, n.cName ≠ m.cName := by
  intro n hn heq
  have hfresh := h.fresh n hn
  rw [hasName, List.any_eq_false] at hfresh
  exact hfresh m hm (beq_iff_eq.mpr heq.symm)

theorem Gains.isSuperseded_iff (h : r.Gains s added) :
    m.isSuperseded (s.methodsOf m.cls) = true ↔
      m.isSuperseded (r.methodsOf m.cls) = true ∨ ∃ n ∈ added, n.TakesPlaceOf m := by
  simp only [Registry.isSuperseded_iff, h.methods, List.mem_append, or_and_right, exists_or]

theorem Gains.filter_methodsOf (h : r.Gains s added) (cls : String) :
    (s.methodsOf cls).filter (fun m => added.all (·.cName != m.cName)) = r.methodsOf cls := by
  have hold : ∀ m ∈ r.methodsOf cls, added.all (·.cName != m.cName) = true := fun m hm =>
    List.all_eq_true.mpr fun n hn =>
      bne_iff_ne.mpr (h.cName_ne ((List.mem_filter.mp hm).1) n hn)
  have hnew : ∀ m ∈ added.filter (·.cls == cls), ¬added.all (·.cName != m.cName) = true := by
    intro m hm hall
    exact bne_iff_ne.mp (List.all_eq_true.mp hall m ((List.mem_filter.mp hm).1)) rfl
  rw [methodsOf, h.methods, List.filter_append, List.filter_append, List.filter_eq_nil_iff.mpr hnew,
    List.append_nil]
  exact List.filter_eq_self.mpr hold

theorem Gains.filter_offered (h : r.Gains s added) (classes : List String) :
    (s.offered release classes).filter (fun m => added.all (·.cName != m.cName)) =
      r.offered release classes := by
  rw [offered, offered, List.filter_flatMap]
  exact flatMap_congr fun cls _ => h.filter_methodsOf cls

end Gains

/-! ### Wrappers of one method -/

/-- The wrapper that a run writes for a method. -/
def block? (r : Registry) (m : Method) : Option (Method × Wrapper) := (Entry.ofRegistered r m).block?

theorem fst_of_block? {r : Registry} {m : Method} {b : Method × Wrapper} (h : r.block? m = some b) :
    b.1 = m :=
  (Output.mem_block h).1

theorem filterMap_entries (r : Registry) (release : Option Nat) (classes : List String) :
    (r.entries release classes).filterMap Entry.block? =
      (r.offered release classes).filterMap r.block? := by
  rw [entries, List.filterMap_map]
  rfl

theorem block?_of_isSuperseded {r : Registry} {m : Method}
    (h : m.isSuperseded (r.methodsOf m.cls) = true) : r.block? m = none := by
  have hverdict : m.verdict (r.methodsOf m.cls) = .superseded :=
    Option.get_of_eq_some _ (Method.verdict?_eq_superseded_iff.mpr h)
  rw [block?, Entry.block?, Entry.wrapper?, Entry.ofRegistered, hverdict]
  rfl

/-- An added method takes away a wrapper or leaves it as it is. -/
theorem Gains.block?_eq {r s : Registry} {added : List Method} (h : r.Gains s added) (m : Method) :
    s.block? m = (r.block? m).filter fun b => added.all fun n => !decide (n.TakesPlaceOf b.1) := by
  by_cases hadded : ∃ n ∈ added, n.TakesPlaceOf m
  · obtain ⟨n, hn, htakes⟩ := hadded
    rw [block?_of_isSuperseded (h.isSuperseded_iff.mpr (.inr ⟨n, hn, htakes⟩)), eq_comm,
      Option.filter_eq_none_iff]
    intro b hb hall
    rw [fst_of_block? hb, List.all_eq_true] at hall
    simpa [htakes] using hall n hn
  · have hsame : m.isSuperseded (s.methodsOf m.cls) = m.isSuperseded (r.methodsOf m.cls) :=
      Bool.eq_iff_iff.mpr (h.isSuperseded_iff.trans (or_iff_left hadded))
    have hblock : s.block? m = r.block? m := by
      rw [block?, block?, Entry.ofRegistered, Entry.ofRegistered, Method.verdict_congr hsame]
    rw [hblock]
    cases hb : r.block? m with
    | none => rfl
    | some b =>
      have hkept : ∀ n ∈ added, (!decide (n.TakesPlaceOf b.1)) = true := by
        intro n hn
        rw [fst_of_block? hb, Bool.not_eq_true', decide_eq_false_iff_not]
        exact fun htakes => hadded ⟨n, hn, htakes⟩
      rw [Option.filter_some, if_pos (List.all_eq_true.mpr hkept)]

end Registry

/-! ### Wrappers of a run -/

namespace Output

/-- The second output has the wrappers of the first, less those of the methods whose place an
added method takes, and with those of the added methods. -/
structure Extends (added : List Method) (o o' : Output) : Prop where
  partNames : o'.parts.map (·.name) = o.parts.map (·.name)
  /-- Wrappers other than those of added methods stand in the order in which they stood. -/
  blocks : ∀ p ∈ o.parts, ∀ q ∈ o'.parts, p.name = q.name →
    q.blocks.filter (fun b => added.all (·.cName != b.1.cName)) =
      p.blocks.filter (fun b => added.all fun n => !decide (n.TakesPlaceOf b.1))
  kept : ∀ p ∈ o.parts, ∀ q ∈ o'.parts, p.name = q.name → ∀ b ∈ p.blocks,
    b ∈ q.blocks ↔ ∀ n ∈ added, ¬n.TakesPlaceOf b.1
  own : ∀ p ∈ o.parts, ∀ q ∈ o'.parts, p.name = q.name → ∀ b ∈ q.blocks,
    b ∈ p.blocks ↔ b.1 ∉ added

section Run

variable {r s : Registry} {release : Option Nat} {o o' : Output} {added : List Method}

theorem blocks_of_entries {p : Part} {classes : List String}
    (h : p.entries = r.entries release classes) :
    p.blocks = (r.offered release classes).filterMap r.block? := by
  rw [← Registry.filterMap_entries, ← h]
  rfl

theorem extends_of_gains (h : r.Gains s added) (ho : ofRegistry r release = .ok o)
    (ho' : ofRegistry s release = .ok o') : o.Extends added o' := by
  have hblocks : ∀ p ∈ o.parts, ∀ q ∈ o'.parts, p.name = q.name →
      q.blocks.filter (fun b => added.all (·.cName != b.1.cName)) =
        p.blocks.filter (fun b => added.all fun n => !decide (n.TakesPlaceOf b.1)) := by
    intro p hp q hq hname
    obtain ⟨classes, hpentries, hqentries⟩ := exists_classes_of_name ho ho' hp hq hname
    have hfresh : ∀ m, (s.block? m).filter (fun b => added.all (·.cName != b.1.cName)) =
        if added.all (·.cName != m.cName) then s.block? m else none := by
      intro m
      cases hb : s.block? m with
      | none => simp
      | some b => rw [Option.filter_some, Registry.fst_of_block? hb]
    rw [blocks_of_entries hqentries, blocks_of_entries hpentries, List.filter_filterMap,
      List.filter_filterMap]
    calc (s.offered release classes).filterMap (fun m =>
          (s.block? m).filter fun b => added.all (·.cName != b.1.cName))
        = ((s.offered release classes).filter fun m => added.all (·.cName != m.cName)).filterMap
            s.block? := by rw [List.filterMap_filter]; simp only [hfresh]
      _ = (r.offered release classes).filterMap s.block? := by rw [h.filter_offered]
      _ = (r.offered release classes).filterMap _ := by rw [funext h.block?_eq]
  have hmethods : ∀ p ∈ o.parts, ∀ b ∈ p.blocks, b.1 ∈ r.methods := fun p hp b hb =>
    mem_methods_of_mem_blocks ho (List.mem_flatMap.mpr ⟨p, hp, hb⟩)
  have hold : ∀ m ∈ r.methods, added.all (·.cName != m.cName) = true := fun m hm =>
    List.all_eq_true.mpr fun n hn => bne_iff_ne.mpr (h.cName_ne hm n hn)
  constructor
  case partNames => rw [names_parts ho, names_parts ho']
  case blocks => exact hblocks
  case kept =>
    intro p hp q hq hname b hb
    have hiff := congrArg (b ∈ ·) (hblocks p hp q hq hname)
    simpa [hb, hold b.1 (hmethods p hp b hb)] using hiff
  case own =>
    intro p hp q hq hname b hb
    constructor
    · intro hbp hadded
      exact h.cName_ne (hmethods p hp b hbp) b.1 hadded rfl
    · intro hadded
      have hmethod := mem_methods_of_mem_blocks ho' (List.mem_flatMap.mpr ⟨q, hq, hb⟩)
      rw [h.methods, List.mem_append, or_iff_left hadded] at hmethod
      have hmem : b ∈ q.blocks.filter (fun b => added.all (·.cName != b.1.cName)) :=
        List.mem_filter.mpr ⟨hb, hold b.1 hmethod⟩
      rw [hblocks p hp q hq hname] at hmem
      exact (List.mem_filter.mp hmem).1

end Run

/-- A declaration takes away no wrapper but those of the integer overloads whose place its method
takes, and adds none but that of its method. -/
theorem extends_of_add {r s : Registry} {text : String} (h : r.add text = .ok s)
    (release : Option Nat) : r.Gains s (r.added text) ∧
      ∃ o o', ofRegistry r release = .ok o ∧ ofRegistry s release = .ok o' ∧
        o.Extends (r.added text) o' := by
  have hgains := Registry.gains_of_add h
  obtain ⟨o, ho⟩ := succeeds_ofRegistry r release
  obtain ⟨o', ho'⟩ := succeeds_ofRegistry s release
  exact ⟨hgains, o, o', ho, ho', extends_of_gains hgains ho ho'⟩

/-- Two overloads and a method that stays. -/
def overloadRegistry : Registry :=
  (Registry.empty.addAll
    ["int isl_set_f_si(__isl_keep isl_set *set, int v);",
      "int isl_set_f_ui(__isl_keep isl_set *set, unsigned v);",
      "int isl_set_g(__isl_keep isl_set *set);"]).1

theorem extends_overload :
    ∃ s, overloadRegistry.add "int isl_set_f(__isl_keep isl_set *set);" = .ok s ∧
      ∃ o o', ofRegistry overloadRegistry none = .ok o ∧ ofRegistry s none = .ok o' ∧
        o.Extends (overloadRegistry.added "int isl_set_f(__isl_keep isl_set *set);") o' ∧
        o.blocks.map (·.1.name) = ["f_si", "f_ui", "g"] ∧ o'.blocks.map (·.1.name) = ["g", "f"] := by
  have hadd : overloadRegistry.add "int isl_set_f(__isl_keep isl_set *set);" =
      .ok (overloadRegistry.declare "int isl_set_f(__isl_keep isl_set *set);") :=
    Registry.add_of_not_isError (by decide +kernel)
  obtain ⟨-, o, o', ho, ho', hextends⟩ := extends_of_add hadd none
  have hrun : o.blocks.map (·.1.name) = ["f_si", "f_ui", "g"] :=
    eq_of_map_toOption (fun o => o.blocks.map (·.1.name)) ho (by decide +kernel)
  have hadded : o'.blocks.map (·.1.name) = ["g", "f"] :=
    eq_of_map_toOption (fun o => o.blocks.map (·.1.name)) ho' (by decide +kernel)
  exact ⟨_, hadd, o, o', ho, ho', hextends, hrun, hadded⟩

end Output

end IslBindings
