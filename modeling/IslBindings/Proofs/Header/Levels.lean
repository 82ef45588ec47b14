import IslBindings.Proofs.Header.Segments
import Mathlib.Data.List.Perm.Basic

/-!
# Levels of an expansion

An expansion goes into the levels that its segments open. Each level expands one name more, so
no name is expanded inside its own expansion, every chain of levels ends, and the limit on the
levels is never felt by a table with no more macros than levels.
-/

namespace IslBindings.Header

open Text

namespace Level

/-- The levels that a level opens. -/
def opened (t : MacroTable) (l : Level) : List Level :=
  (segments t l.active l.text).filterMap (Segment.level? l.active)

/-- The level itself and all that an expansion of `depth` levels goes into from there. -/
def visited (t : MacroTable) : Nat → Level → List Level
  | 0, l => [l]
  | depth + 1, l => l :: (l.opened t).flatMap (visited t depth)

/-- The names being expanded are names of macros, each once. -/
structure IsProper (t : MacroTable) (l : Level) : Prop where
  nodup : l.active.Nodup
  isName : ∀ name ∈ l.active, t.contains name = true

end Level

/-- What a text becomes where every invocation with the right number of arguments is expanded, at
whatever level it stands. -/
inductive ExpandsTo (t : MacroTable) : List String → List Segment → List Char → Prop
  | nil {active} : ExpandsTo t active [] []
  | kept {active segment rest out} : segment.level? active = none → ExpandsTo t active rest out →
      ExpandsTo t active (segment :: rest) (segment.source ++ out)
  | entered {active segment rest l inner out} : segment.level? active = some l →
      ExpandsTo t l.active (segments t l.active l.text) inner → ExpandsTo t active rest out →
      ExpandsTo t active (segment :: rest) (inner ++ out)

section Levels

variable {t : MacroTable} {active : List String} {s : List Char} {depth : Nat} {l k : Level}

/-! ### One level -/

theorem MacroTable.contains_iff {name : String} :
    t.contains name = true ↔ name ∈ t.macros.map Macro.name := by
  simp [MacroTable.contains, MacroTable.find?, List.find?_isSome]

theorem MacroTable.contains_of_find? {name : String} {m : Macro} (h : t.find? name = some m) :
    t.contains name = true := by
  rw [MacroTable.contains, h]
  rfl

/-- Only macros of the table that are not being expanded are invoked. -/
theorem of_mem_segments {m : Macro} {call : Invocation}
    (h : .invocation m call ∈ segments t active s) : m.name ∉ active ∧ t.contains m.name = true := by
  induction s using segmentInduction t active with
  | nil =>
    rw [segments_nil] at h
    cases h
  | mark c s hc ih =>
    rw [segments_mark t active s hc] at h
    rcases List.mem_cons.mp h with h | h
    · cases h
    · exact ih h
  | word w s hw hcall ih =>
    rw [segments_word hw hcall] at h
    rcases List.mem_cons.mp h with h | h
    · cases h
    · exact ih h
  | invocation w s m' call' hw hcall ih =>
    rw [segments_invoked hw hcall] at h
    rcases List.mem_cons.mp h with h | h
    · cases h
      obtain ⟨hm, -, hactive, -⟩ := invoked?_eq_some hcall
      refine ⟨hactive, ?_⟩
      rw [MacroTable.name_of_find? hm]
      exact MacroTable.contains_of_find? hm
    · exact ih h

/-- A level opens another one for a macro of the table that is not being expanded. -/
theorem Segment.of_level? {segment : Segment} (hmem : segment ∈ segments t active s)
    (h : segment.level? active = some l) :
    ∃ name, l.active = name :: active ∧ name ∉ active ∧ t.contains name = true := by
  cases segment with
  | copied copy => cases h
  | invocation m call =>
    rw [Segment.level?] at h
    split at h
    · cases h
      exact ⟨m.name, rfl, of_mem_segments hmem⟩
    · cases h

theorem Level.of_mem_opened (h : k ∈ l.opened t) :
    ∃ name, k.active = name :: l.active ∧ name ∉ l.active ∧ t.contains name = true := by
  obtain ⟨segment, hmem, hlevel⟩ := List.mem_filterMap.mp h
  exact Segment.of_level? hmem hlevel

theorem Level.IsProper.opened (h : l.IsProper t) (hk : k ∈ l.opened t) : k.IsProper t := by
  obtain ⟨name, hactive, hnot, hname⟩ := Level.of_mem_opened hk
  refine ⟨?_, ?_⟩
  · rw [hactive]
    exact List.nodup_cons.mpr ⟨hnot, h.nodup⟩
  · rw [hactive]
    exact List.forall_mem_cons.mpr ⟨hname, h.isName⟩

theorem Level.IsProper.length_le (h : l.IsProper t) : l.active.length ≤ t.size := by
  have hsubset : l.active ⊆ t.macros.map Macro.name := fun name hname =>
    MacroTable.contains_iff.mp (h.isName name hname)
  have hle := (List.subperm_of_subset h.nodup hsubset).length_le
  rwa [List.length_map] at hle

/-! ### All levels -/

theorem Level.of_mem_visited (h : l.IsProper t) (hk : k ∈ l.visited t depth) :
    k.IsProper t ∧ k.active.length ≤ l.active.length + depth := by
  induction depth generalizing l with
  | zero =>
    rw [List.mem_singleton.mp hk]
    exact ⟨h, Nat.le_refl _⟩
  | succ depth ih =>
    rcases List.mem_cons.mp hk with rfl | hk
    · exact ⟨h, Nat.le_add_right ..⟩
    · obtain ⟨inner, hinner, hk⟩ := List.mem_flatMap.mp hk
      obtain ⟨hproper, hlength⟩ := ih (h.opened hinner) hk
      obtain ⟨name, hactive, -⟩ := Level.of_mem_opened hinner
      rw [hactive, List.length_cons] at hlength
      exact ⟨hproper, by omega⟩

/-- How many macros of the table are not being expanded. -/
def Level.idle (t : MacroTable) (l : Level) : Nat :=
  ((t.macros.map Macro.name).filter (!l.active.contains ·)).length

theorem Level.idle_lt (h : k ∈ l.opened t) : k.idle t < l.idle t := by
  obtain ⟨name, hactive, hnot, hname⟩ := Level.of_mem_opened h
  have hfilter : (t.macros.map Macro.name).filter (!k.active.contains ·) =
      ((t.macros.map Macro.name).filter (!l.active.contains ·)).filter (· != name) := by
    rw [List.filter_filter, hactive]
    refine List.filter_congr fun other _ => ?_
    rw [List.contains_cons, Bool.not_or, bne]
  rw [Level.idle, Level.idle, hfilter, List.length_filter_lt_length_iff_exists]
  refine ⟨name, ?_, by simp⟩
  rw [List.mem_filter]
  exact ⟨MacroTable.contains_iff.mp hname, by simpa using hnot⟩

/-- No chain of levels is endless. -/
theorem Level.wellFounded_opened (t : MacroTable) :
    WellFounded fun inner outer : Level => inner ∈ outer.opened t :=
  Subrelation.wf (fun h => Level.idle_lt h) (measure (Level.idle t)).wf

/-! ### Without a limit -/

theorem ExpandsTo.unique {segs : List Segment} {out out' : List Char}
    (h : ExpandsTo t active segs out) (h' : ExpandsTo t active segs out') : out = out' := by
  induction h generalizing out' with
  | nil =>
    cases h'
    rfl
  | kept hlevel _ ih =>
    cases h' with
    | kept _ hrest => rw [ih hrest]
    | entered hlevel' _ _ =>
      rw [hlevel] at hlevel'
      cases hlevel'
  | entered hlevel _ _ ihinner ih =>
    cases h' with
    | kept hlevel' _ =>
      rw [hlevel] at hlevel'
      cases hlevel'
    | entered hlevel' hinner hrest =>
      rw [hlevel] at hlevel'
      cases hlevel'
      rw [ihinner hinner, ih hrest]

theorem expandsTo_flatMap {segs : List Segment}
    (h : ∀ segment ∈ segs, ∀ k, segment.level? active = some k → ∃ d, depth = d + 1 ∧
      ExpandsTo t k.active (segments t k.active k.text) (expandWith t d k.active k.text)) :
    ExpandsTo t active segs (segs.flatMap (Segment.expanded t active depth)) := by
  induction segs with
  | nil => exact .nil
  | cons segment rest ih =>
    obtain ⟨hsegment, hrest⟩ := List.forall_mem_cons.mp h
    rw [List.flatMap_cons]
    cases hlevel : segment.level? active with
    | none =>
      have hkept : segment.expanded t active depth = segment.source := by
        simp only [Segment.expanded, hlevel]
      rw [hkept]
      exact .kept hlevel (ih hrest)
    | some k =>
      obtain ⟨d, rfl, hk⟩ := hsegment k hlevel
      have hentered : segment.expanded t active (d + 1) = expandWith t d k.active k.text := by
        simp only [Segment.expanded, hlevel]
      rw [hentered]
      exact .entered hlevel hk (ih hrest)

/-- With as many levels as there are macros left, nothing is left unexpanded. -/
theorem expandsTo_expandWith (h : l.IsProper t) (hdepth : t.size ≤ l.active.length + depth) :
    ExpandsTo t l.active (segments t l.active l.text) (expandWith t depth l.active l.text) := by
  induction depth generalizing l with
  | zero =>
    rw [expandWith_eq]
    refine expandsTo_flatMap fun segment hmem k hk => ?_
    -- A level that is opened has one more name, but there is none left.
    have hopened : k ∈ l.opened t := List.mem_filterMap.mpr ⟨segment, hmem, hk⟩
    obtain ⟨name, hactive, -⟩ := Level.of_mem_opened hopened
    have hle := (h.opened hopened).length_le
    rw [hactive, List.length_cons] at hle
    omega
  | succ depth ih =>
    rw [expandWith_eq]
    refine expandsTo_flatMap fun segment hmem k hk => ⟨depth, rfl, ?_⟩
    have hopened : k ∈ l.opened t := List.mem_filterMap.mpr ⟨segment, hmem, hk⟩
    obtain ⟨name, hactive, -⟩ := Level.of_mem_opened hopened
    refine ih (h.opened hopened) ?_
    rw [hactive, List.length_cons]
    omega

/-! ### From the top -/

theorem Level.isProper_top (t : MacroTable) (s : List Char) :
    Level.IsProper t { active := [], text := s } where
  nodup := List.nodup_nil
  isName := nofun

end Levels

/-- An expansion goes on in the levels that its segments open. Every chain of such levels ends; in
each one, the names being expanded are names of macros, each once, and no more than there are levels
or macros; without a limit on the levels every text expands to just one, and a table with no more
macros than levels finds it. -/
theorem MacroTable.expansion_never_reenters (t : MacroTable) (s : List Char) :
    (∀ depth (l : Level), expandWith t (depth + 1) l.active l.text =
      (segments t l.active l.text).flatMap fun segment =>
        match segment.level? l.active with
        | some k => expandWith t depth k.active k.text
        | none => segment.source) ∧
    (WellFounded fun inner outer : Level => inner ∈ outer.opened t) ∧
    (∀ l ∈ Level.visited t depthLimit { active := [], text := s },
      l.active.Nodup ∧ (∀ name ∈ l.active, t.contains name = true) ∧
        l.active.length ≤ min depthLimit t.size) ∧
    (∃ out, ExpandsTo t [] (segments t [] s) out ∧
      ∀ out', ExpandsTo t [] (segments t [] s) out' → out' = out) ∧
    (t.size ≤ depthLimit → ExpandsTo t [] (segments t [] s) (t.expand s)) := by
  have htop := Level.isProper_top t s
  have hlimit : ∀ depth, t.size ≤ depth →
      ExpandsTo t [] (segments t [] s) (expandWith t depth [] s) := by
    intro depth hdepth
    exact expandsTo_expandWith htop (by rw [List.length_nil]; omega)
  refine ⟨?_, Level.wellFounded_opened t, ?_, ?_, hlimit depthLimit⟩
  · intro depth l
    rw [expandWith_eq]
    refine flatMap_congr fun segment _ => ?_
    cases hlevel : segment.level? l.active <;> simp only [Segment.expanded, hlevel]
  · intro l hl
    obtain ⟨hproper, hlength⟩ := Level.of_mem_visited htop hl
    rw [List.length_nil, Nat.zero_add] at hlength
    exact ⟨hproper.nodup, hproper.isName, Nat.le_min.mpr ⟨hlength, hproper.length_le⟩⟩
  · have hout := hlimit t.size (Nat.le_refl _)
    exact ⟨_, hout, fun out' h' => h'.unique hout⟩

/-- Two macros that invoke each other. -/
def mutualMacros : MacroTable :=
  (MacroTable.empty.insert { name := "PING", params := ["x"], body := "PONG(x)".toList }).insert
    { name := "PONG", params := ["x"], body := "PING(x) x".toList }

theorem expansion_never_reenters_mutual :
    ExpandsTo mutualMacros [] (segments mutualMacros [] "PING(1)".toList)
      "PING(1) 1".toList := by
  have hexpand : mutualMacros.expand "PING(1)".toList = "PING(1) 1".toList := by decide +kernel
  rw [← hexpand]
  exact (mutualMacros.expansion_never_reenters "PING(1)".toList).2.2.2.2 (by decide)

end IslBindings.Header
