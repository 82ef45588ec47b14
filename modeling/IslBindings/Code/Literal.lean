/-!
# String literals

A text as a C string literal, and the text of a literal. The main statement: a
literal has the text that it was made from.
-/

namespace IslBindings.Code

def escape (c : Char) : List Char :=
  if c = '"' then ['\\', '"']
  else if c = '\\' then ['\\', '\\']
  else if c = '\n' then ['\\', 'n']
  else [c]

def escapeAll (s : List Char) : List Char := s.flatMap escape

/-- The text of a spelling; `none` for a quote or a backslash that stands alone. -/
def unescapeAll? : List Char → Option (List Char)
  | [] => some []
  | '\\' :: '"' :: rest => (unescapeAll? rest).map ('"' :: ·)
  | '\\' :: '\\' :: rest => (unescapeAll? rest).map ('\\' :: ·)
  | '\\' :: 'n' :: rest => (unescapeAll? rest).map ('\n' :: ·)
  | c :: rest =>
    if c = '"' ∨ c = '\\' ∨ c = '\n' then none else (unescapeAll? rest).map (c :: ·)

def literal (s : String) : String := "\"" ++ String.ofList (escapeAll s.toList) ++ "\""

theorem unescapeAll?_escape_append (c : Char) (rest : List Char) :
    unescapeAll? (escape c ++ rest) = (unescapeAll? rest).map (c :: ·) := by
  by_cases hq : c = '"'
  · subst hq
    simp [escape, unescapeAll?]
  · by_cases hb : c = '\\'
    · subst hb
      simp [escape, unescapeAll?]
    · by_cases hn : c = '\n'
      · subst hn
        simp [escape, unescapeAll?]
      · simp [escape, unescapeAll?, hq, hb, hn]

theorem unescapeAll?_escapeAll (s : List Char) : unescapeAll? (escapeAll s) = some s := by
  induction s with
  | nil => rfl
  | cons c rest ih =>
    have h : escapeAll (c :: rest) = escape c ++ escapeAll rest := by
      simp [escapeAll]
    rw [h, unescapeAll?_escape_append, ih]
    rfl

end IslBindings.Code
