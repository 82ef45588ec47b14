import IslBindings.Header.MacroTable
import IslBindings.Nesting

/-!
# Macro expansion

An invocation is the name of a macro, as a whole word, and a parenthesised argument
list after it. Its substituted body is expanded again, but never by a macro whose
expansion it is part of, and only so deep. What is no invocation stays as it is.
-/

namespace IslBindings.Header

open Text

/-! ### Invocations -/

def charMark (c : Char) : Nesting.Mark :=
  if c = '(' then .opens
  else if c = ')' then .closes
  else if c = ',' then .separates
  else .plain

theorem eq_of_charMark_eq_closes {c : Char} (h : charMark c = .closes) : c = ')' := by
  simp only [charMark] at h
  grind

structure Invocation where
  /-- The trimmed pieces between the outermost commas. -/
  args : List (List Char)
  /-- The text of the list, with the blanks before it and its parentheses. -/
  source : List Char
  rest : List Char
  deriving DecidableEq, Repr

/-- The argument list that a text starts with, after ASCII blanks. -/
def Invocation.ofText? (s : List Char) : Option Invocation :=
  (dropStart? ['('] (s.dropWhile isAsciiBlank)).bind fun inside =>
    (Nesting.close? charMark 0 inside).map fun (inner, rest) =>
      { args := (Nesting.split charMark inner).map trim
        source := s.takeWhile isAsciiBlank ++ '(' :: inner ++ [')']
        rest }

theorem Invocation.length_rest_lt {s : List Char} {call : Invocation}
    (h : Invocation.ofText? s = some call) : call.rest.length < s.length := by
  simp only [Invocation.ofText?, Option.bind_eq_some_iff, Option.map_eq_some_iff] at h
  obtain ⟨inside, hs, ⟨inner, rest⟩, hc, rfl⟩ := h
  have h1 := Nesting.length_lt_of_close? charMark hc
  have h2 := congrArg List.length (dropStart?_eq_some_iff.mp hs)
  have h3 := (List.dropWhile_suffix (l := s) isAsciiBlank).length_le
  rw [List.length_append] at h2
  show rest.length < s.length
  omega

/-! ### Expansion -/

/-- The macro that a word invokes with the text after it; one that is being expanded is not
invoked. -/
def invoked? (t : MacroTable) (active : List String) (word after : List Char) :
    Option (Macro × Invocation) :=
  if word.head?.any isIdentStart && !active.contains (String.ofList word) then
    (t.find? (String.ofList word)).bind fun m => (Invocation.ofText? after).map fun call => (m, call)
  else none

/-- Copies a text with `result` in place of every invocation. -/
def expandEach (t : MacroTable) (active : List String) (result : Macro → Invocation → List Char) :
    List Char → List Char
  | [] => []
  | c :: rest =>
    if isIdentChar c then
      match _h : invoked? t active (c :: rest.takeWhile isIdentChar) (rest.dropWhile isIdentChar) with
      | some (m, call) => result m call ++ expandEach t active result call.rest
      | none =>
        c :: rest.takeWhile isIdentChar ++ expandEach t active result (rest.dropWhile isIdentChar)
    else c :: expandEach t active result rest
termination_by s => s.length
decreasing_by
  · simp only [invoked?] at _h
    split at _h
    · simp only [Option.bind_eq_some_iff, Option.map_eq_some_iff, Prod.mk.injEq] at _h
      obtain ⟨_, -, _, hc, -, rfl⟩ := _h
      exact Nat.lt_succ_of_lt (Nat.lt_of_lt_of_le (Invocation.length_rest_lt hc)
        (List.dropWhile_suffix _).length_le)
    · exact absurd _h (by simp)
  · exact Nat.lt_succ_of_le (List.dropWhile_suffix _).length_le
  · exact Nat.lt_succ_self _

def Invocation.written (m : Macro) (call : Invocation) : List Char :=
  m.name.toList ++ call.source

/-- Expands `depth` levels of macros in macros; `active` holds the names being expanded. -/
def expandWith (t : MacroTable) : Nat → List String → List Char → List Char
  | 0, active, s => expandEach t active Invocation.written s
  | depth + 1, active, s =>
    expandEach t active
      (fun m call =>
        if m.accepts call.args then
          expandWith t depth (m.name :: active) (m.substitute call.args)
        else call.written m) s

/-- How deep macros are expanded in macros. -/
def depthLimit : Nat := 32

/-- The text with every invocation of a macro of the table expanded. -/
def MacroTable.expand (t : MacroTable) (text : List Char) : List Char :=
  expandWith t depthLimit [] text

end IslBindings.Header
