/-!
# Searching a text

The first occurrence of a pattern, and what a text starts or ends with. The main
statement: a cut at an occurrence loses only the pattern.
-/

namespace IslBindings.Text

/-! ### Occurrences -/

/-- What stands before the first occurrence of `pattern`, and what follows it. -/
def cutAt? (pattern : List Char) : List Char → Option (List Char × List Char)
  | [] => if pattern.isEmpty then some ([], []) else none
  | c :: rest =>
    if pattern.isPrefixOf (c :: rest) then some ([], (c :: rest).drop pattern.length)
    else (cutAt? pattern rest).map fun (before, after) => (c :: before, after)

def occursIn (pattern s : List Char) : Bool := (cutAt? pattern s).isSome

theorem eq_append_of_cutAt? {pattern s before after : List Char}
    (h : cutAt? pattern s = some (before, after)) : s = before ++ (pattern ++ after) := by
  induction s generalizing before after with
  | nil =>
    simp only [cutAt?, List.isEmpty_iff] at h
    split at h
    · next hp =>
      simp only [Option.some.injEq, Prod.mk.injEq] at h
      rw [← h.1, ← h.2, hp]
      rfl
    · exact absurd h (by simp)
  | cons c rest ih =>
    simp only [cutAt?] at h
    split at h
    · next hp =>
      simp only [Option.some.injEq, Prod.mk.injEq] at h
      rw [← h.1, ← h.2, List.nil_append]
      exact List.prefix_iff_eq_append.mp (List.isPrefixOf_iff_prefix.mp hp) |>.symm
    · rcases hr : cutAt? pattern rest with - | ⟨b, a⟩
      · simp [hr] at h
      · simp only [hr, Option.map_some, Option.some.injEq, Prod.mk.injEq] at h
        rw [← h.1, ← h.2, List.cons_append, ← ih hr]

theorem length_le_of_cutAt? {pattern s before after : List Char}
    (h : cutAt? pattern s = some (before, after)) : after.length ≤ s.length := by
  rw [eq_append_of_cutAt? h]
  simp only [List.length_append]
  omega

/-- The pieces between the occurrences of `sep`; a text without one is a single piece. -/
def splitAtChar (sep : Char) : List Char → List (List Char)
  | [] => [[]]
  | c :: rest =>
    if c = sep then [] :: splitAtChar sep rest
    else match splitAtChar sep rest with
      | [] => [[c]]
      | piece :: more => (c :: piece) :: more

/-! ### Starts and ends -/

/-- What follows `start` in a text that starts with it. -/
def dropStart? (start s : List Char) : Option (List Char) :=
  if start.isPrefixOf s then some (s.drop start.length) else none

theorem dropStart?_eq_some_iff {start s rest : List Char} :
    dropStart? start s = some rest ↔ s = start ++ rest := by
  constructor
  · intro h
    simp only [dropStart?] at h
    split at h
    · next hp =>
      simp only [Option.some.injEq] at h
      rw [← h]
      exact List.prefix_iff_eq_append.mp (List.isPrefixOf_iff_prefix.mp hp) |>.symm
    · exact absurd h (by simp)
  · rintro rfl
    have hp : start.isPrefixOf (start ++ rest) :=
      List.isPrefixOf_iff_prefix.mpr (List.prefix_append ..)
    simp [dropStart?, hp]

def startsWith (s start : String) : Bool := start.toList.isPrefixOf s.toList

def endsWith (s ending : String) : Bool := ending.toList.isSuffixOf s.toList

def occursInString (pattern s : String) : Bool := occursIn pattern.toList s.toList

/-- What follows `start` in a string that starts with it. -/
def afterStart? (start s : String) : Option String :=
  (dropStart? start.toList s.toList).map String.ofList

theorem startsWith_iff {s start : String} :
    startsWith s start ↔ start.toList <+: s.toList :=
  List.isPrefixOf_iff_prefix

theorem afterStart?_eq_some_iff {start s rest : String} :
    afterStart? start s = some rest ↔ s = start ++ rest := by
  simp only [afterStart?, Option.map_eq_some_iff, dropStart?_eq_some_iff]
  constructor
  · rintro ⟨r, hr, rfl⟩
    rw [← String.toList_inj, String.toList_append, String.toList_ofList, hr]
  · rintro rfl
    exact ⟨rest.toList, String.toList_append, String.ofList_toList⟩

theorem afterStart?_append (start rest : String) :
    afterStart? start (start ++ rest) = some rest :=
  afterStart?_eq_some_iff.mpr rfl

end IslBindings.Text
