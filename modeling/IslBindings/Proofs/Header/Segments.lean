import IslBindings.Header.Expansion
import IslBindings.Proofs.Lists

/-!
# Segments of a text

A text is cut into the invocations of macros and the words and marks between them. What an
expansion makes of the text is made of its segments, one by one: invocations are replaced, all
else is copied.
-/

namespace IslBindings.Header

open Text

/-! ### Words -/

/-- A word of identifier characters with none on either side. -/
structure IsWholeWord (before word after : List Char) : Prop where
  ne_nil : word ≠ []
  isIdent : ∀ c ∈ word, isIdentChar c = true
  starts : ∀ c, before.getLast? = some c → isIdentChar c = false
  ends : ∀ c, after.head? = some c → isIdentChar c = false

theorem isIdentChar_of_head?_dropWhile {s : List Char} {c : Char}
    (h : (s.dropWhile isIdentChar).head? = some c) : isIdentChar c = false := by
  have hd := List.head?_dropWhile_not isIdentChar s
  rw [h] at hd
  exact hd

theorem isWholeWord_cut {c : Char} (s : List Char) (h : isIdentChar c = true) :
    IsWholeWord [] (c :: s.takeWhile isIdentChar) (s.dropWhile isIdentChar) where
  ne_nil := nofun
  isIdent := List.forall_mem_cons.mpr ⟨h, List.all_eq_true.mp List.all_takeWhile⟩
  starts := nofun
  ends _ hd := isIdentChar_of_head?_dropWhile hd

theorem cut_of_isWholeWord {before word after : List Char} (h : IsWholeWord before word after) :
    ∃ c rest, word = c :: rest ∧ isIdentChar c = true ∧
      c :: (rest ++ after).takeWhile isIdentChar = word ∧
      (rest ++ after).dropWhile isIdentChar = after := by
  cases word with
  | nil => exact absurd rfl h.ne_nil
  | cons c rest =>
    obtain ⟨hc, hrest⟩ := List.forall_mem_cons.mp h.isIdent
    obtain ⟨htake, hdrop⟩ := takeWhile_append_of_stop hrest h.ends
    exact ⟨c, rest, rfl, hc, by rw [htake], hdrop⟩

/-! ### Invocations -/

theorem MacroTable.name_of_find? {t : MacroTable} {name : String} {m : Macro}
    (h : t.find? name = some m) : m.name = name := by
  have hm := List.find?_some h
  simpa using hm

theorem invoked?_eq_some {t : MacroTable} {active : List String} {word after : List Char} {m : Macro}
    {call : Invocation} (h : invoked? t active word after = some (m, call)) :
    t.find? (String.ofList word) = some m ∧ m.name.toList = word ∧ m.name ∉ active ∧
      Invocation.ofText? after = some call := by
  rw [invoked?] at h
  split at h
  · next hstart =>
    obtain ⟨m', hm, h⟩ := Option.bind_eq_some_iff.mp h
    obtain ⟨call', hcall, heq⟩ := Option.map_eq_some_iff.mp h
    cases heq
    have hname := MacroTable.name_of_find? hm
    simp only [Bool.and_eq_true, Bool.not_eq_true', List.contains_eq_mem,
      decide_eq_false_iff_not] at hstart
    refine ⟨hm, ?_, ?_, hcall⟩
    · rw [hname, String.toList_ofList]
    · rw [hname]
      exact hstart.2
  · cases h

theorem Invocation.eq_source_append {s : List Char} {call : Invocation}
    (h : Invocation.ofText? s = some call) : s = call.source ++ call.rest := by
  obtain ⟨inside, hinside, h⟩ := Option.bind_eq_some_iff.mp h
  obtain ⟨⟨inner, rest⟩, hclose, rfl⟩ := Option.map_eq_some_iff.mp h
  obtain ⟨c, hc, rfl⟩ := Nesting.exists_append_of_close? charMark hclose
  obtain rfl := eq_of_charMark_eq_closes hc
  have hcut : s.takeWhile isAsciiBlank ++ s.dropWhile isAsciiBlank = s :=
    List.takeWhile_append_dropWhile
  rw [dropStart?_eq_some_iff.mp hinside] at hcut
  simpa using hcut.symm

theorem length_rest_lt_of_invoked? {t : MacroTable} {active : List String} {word s : List Char}
    {m : Macro} {call : Invocation}
    (h : invoked? t active word (s.dropWhile isIdentChar) = some (m, call)) :
    call.rest.length < s.length + 1 := by
  obtain ⟨-, -, -, hcall⟩ := invoked?_eq_some h
  have hrest := Invocation.length_rest_lt hcall
  have hdrop := (List.dropWhile_suffix (l := s) isIdentChar).length_le
  omega

/-! ### Cutting -/

inductive Segment where
  /-- A word, or a single character that is part of none. -/
  | copied (s : List Char)
  | invocation (m : Macro) (call : Invocation)

namespace Segment

def source : Segment → List Char
  | .copied s => s
  | .invocation m call => call.written m

/-- What stands in the place of a segment, given the results of invocations. -/
def replaced (result : Macro → Invocation → List Char) : Segment → List Char
  | .copied s => s
  | .invocation m call => result m call

end Segment

/-- The segments of a text in which the active names are not invoked. -/
def segments (t : MacroTable) (active : List String) : List Char → List Segment
  | [] => []
  | c :: rest =>
    if isIdentChar c then
      match _h : invoked? t active (c :: rest.takeWhile isIdentChar) (rest.dropWhile isIdentChar) with
      | some (m, call) => .invocation m call :: segments t active call.rest
      | none =>
        .copied (c :: rest.takeWhile isIdentChar) :: segments t active (rest.dropWhile isIdentChar)
    else .copied [c] :: segments t active rest
termination_by s => s.length
decreasing_by
  · exact length_rest_lt_of_invoked? _h
  · exact Nat.lt_succ_of_le (List.dropWhile_suffix _).length_le
  · exact Nat.lt_succ_self _

section Cutting

variable (t : MacroTable) (active : List String)

theorem segments_nil : segments t active [] = [] := by
  rw [segments]

theorem segments_mark {c : Char} (s : List Char) (h : isIdentChar c = false) :
    segments t active (c :: s) = .copied [c] :: segments t active s := by
  rw [segments, if_neg (by simp [h])]

variable {t active}

theorem segments_invoked {before word after : List Char} {m : Macro} {call : Invocation}
    (hw : IsWholeWord before word after) (h : invoked? t active word after = some (m, call)) :
    segments t active (word ++ after) = .invocation m call :: segments t active call.rest := by
  obtain ⟨c, rest, rfl, hc, htake, hdrop⟩ := cut_of_isWholeWord hw
  rw [List.cons_append, segments, if_pos hc, htake, hdrop]
  split
  · next m' call' h' =>
    rw [h] at h'
    cases h'
    rfl
  · next h' =>
    rw [h] at h'
    cases h'

theorem segments_word {before word after : List Char} (hw : IsWholeWord before word after)
    (h : invoked? t active word after = none) :
    segments t active (word ++ after) = .copied word :: segments t active after := by
  obtain ⟨c, rest, rfl, hc, htake, hdrop⟩ := cut_of_isWholeWord hw
  rw [List.cons_append, segments, if_pos hc, htake, hdrop]
  split
  · next m' call' h' =>
    rw [h] at h'
    cases h'
  · rfl

/-- Induction along the segments of a text. -/
@[elab_as_elim]
theorem segmentInduction (t : MacroTable) (active : List String) {P : List Char → Prop} (nil : P [])
    (mark : ∀ c s, isIdentChar c = false → P s → P (c :: s))
    (word : ∀ w s, IsWholeWord [] w s → invoked? t active w s = none → P s → P (w ++ s))
    (invocation : ∀ w s m call, IsWholeWord [] w s → invoked? t active w s = some (m, call) →
      P call.rest → P (w ++ s)) (s : List Char) : P s := by
  induction s using segments.induct t active with
  | case1 => exact nil
  | case2 c s hc m call hcall ih =>
    have hcut := List.takeWhile_append_dropWhile (p := isIdentChar) (l := s)
    have hP := invocation _ _ m call (isWholeWord_cut s hc) hcall ih
    rwa [List.cons_append, hcut] at hP
  | case3 c s hc hcall ih =>
    have hcut := List.takeWhile_append_dropWhile (p := isIdentChar) (l := s)
    have hP := word _ _ (isWholeWord_cut s hc) hcall ih
    rwa [List.cons_append, hcut] at hP
  | case4 c s hc ih => exact mark c s (by simpa using hc) ih

theorem flatMap_source_segments (t : MacroTable) (active : List String) (s : List Char) :
    (segments t active s).flatMap Segment.source = s := by
  induction s using segmentInduction t active with
  | nil =>
    rw [segments_nil]
    rfl
  | mark c s hc ih =>
    rw [segments_mark t active s hc, List.flatMap_cons, ih]
    rfl
  | word w s hw hcall ih =>
    rw [segments_word hw hcall, List.flatMap_cons, ih]
    rfl
  | invocation w s m call hw hcall ih =>
    obtain ⟨-, hname, -, hsource⟩ := invoked?_eq_some hcall
    rw [segments_invoked hw hcall, List.flatMap_cons, ih]
    show call.written m ++ call.rest = w ++ s
    rw [Invocation.written, hname, List.append_assoc, ← Invocation.eq_source_append hsource]

/-! ### Expanding -/

theorem expandEach_eq (t : MacroTable) (active : List String)
    (result : Macro → Invocation → List Char) (s : List Char) :
    expandEach t active result s = (segments t active s).flatMap (Segment.replaced result) := by
  induction s using segmentInduction t active with
  | nil =>
    rw [segments_nil, expandEach]
    rfl
  | mark c s hc ih =>
    rw [segments_mark t active s hc, List.flatMap_cons, ← ih, expandEach, if_neg (by simp [hc])]
    rfl
  | word w s hw hcall ih =>
    obtain ⟨c, rest, rfl, hc, htake, hdrop⟩ := cut_of_isWholeWord hw
    rw [segments_word hw hcall, List.flatMap_cons, ← ih, List.cons_append, expandEach, if_pos hc,
      htake, hdrop]
    split
    · next h' =>
      rw [hcall] at h'
      cases h'
    · rfl
  | invocation w s m call hw hcall ih =>
    obtain ⟨c, rest, rfl, hc, htake, hdrop⟩ := cut_of_isWholeWord hw
    rw [segments_invoked hw hcall, List.flatMap_cons, ← ih, List.cons_append, expandEach, if_pos hc,
      htake, hdrop]
    split
    · next h' =>
      rw [hcall] at h'
      cases h'
      rfl
    · next h' =>
      rw [hcall] at h'
      cases h'

end Cutting

/-! ### Levels -/

/-- What a level of an expansion works on: the names being expanded, and a text. -/
structure Level where
  active : List String
  text : List Char

/-- The level that a segment opens: an invocation with the right number of arguments is expanded
one level deeper. -/
def Segment.level? (active : List String) : Segment → Option Level
  | .copied _ => none
  | .invocation m call =>
    if m.accepts call.args then
      some { active := m.name :: active, text := m.substitute call.args }
    else none

/-- What an expansion of `depth` levels puts in the place of a segment. -/
def Segment.expanded (t : MacroTable) (active : List String) (depth : Nat) (segment : Segment) :
    List Char :=
  match depth, segment.level? active with
  | depth + 1, some l => expandWith t depth l.active l.text
  | _, _ => segment.source

/-- An expansion goes through a text segment by segment, and into the levels they open. -/
theorem expandWith_eq (t : MacroTable) (depth : Nat) (active : List String) (s : List Char) :
    expandWith t depth active s =
      (segments t active s).flatMap (Segment.expanded t active depth) := by
  cases depth with
  | zero =>
    rw [expandWith, expandEach_eq]
    refine flatMap_congr fun segment _ => ?_
    cases segment <;> rfl
  | succ depth =>
    rw [expandWith, expandEach_eq]
    refine flatMap_congr fun segment _ => ?_
    cases segment with
    | copied copy => rfl
    | invocation m call =>
      by_cases haccepts : m.accepts call.args = true
      · simp only [Segment.expanded, Segment.replaced, Segment.level?, if_pos haccepts]
      · simp only [Segment.expanded, Segment.replaced, Segment.level?, if_neg haccepts]
        rfl

end IslBindings.Header
