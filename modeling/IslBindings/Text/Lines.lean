/-!
# Lines

A text is cut at its line feeds; a carriage return directly before a line feed
belongs to the line end. Text after the last line feed is a line of its own
unless it is empty. The main statement: writing each line with a line feed and
cutting again gives the lines back.
-/

namespace IslBindings.Text

def lines : List Char → List (List Char)
  | [] => []
  | '\n' :: rest => [] :: lines rest
  | '\r' :: '\n' :: rest => [] :: lines rest
  | c :: rest =>
    match lines rest with
    | [] => [[c]]
    | line :: more => (c :: line) :: more

/-- Each line followed by a line feed. -/
def unlines (ls : List (List Char)) : List Char := ls.flatMap (· ++ ['\n'])

theorem unlines_nil : unlines [] = [] := rfl

theorem unlines_cons (l : List Char) (ls : List (List Char)) :
    unlines (l :: ls) = l ++ '\n' :: unlines ls := by
  simp [unlines]

theorem unlines_append (ls ms : List (List Char)) :
    unlines (ls ++ ms) = unlines ls ++ unlines ms := by
  simp [unlines]

theorem lines_line_feed (rest : List Char) : lines ('\n' :: rest) = [] :: lines rest := by
  simp [lines]

theorem lines_cons_of_ordinary {c : Char} (rest : List Char) (hn : c ≠ '\n') (hr : c ≠ '\r') :
    lines (c :: rest) =
      match lines rest with
      | [] => [[c]]
      | line :: more => (c :: line) :: more := by
  rw [lines.eq_def]
  split <;> simp_all

/-- A line of ordinary characters is cut off whole. -/
theorem lines_append_line_feed (l rest : List Char) (hn : '\n' ∉ l) (hr : '\r' ∉ l) :
    lines (l ++ '\n' :: rest) = l :: lines rest := by
  induction l with
  | nil => exact lines_line_feed rest
  | cons c cs ih =>
    simp only [List.mem_cons, not_or] at hn hr
    rw [List.cons_append, lines_cons_of_ordinary _ (Ne.symm hn.1) (Ne.symm hr.1),
      ih hn.2 hr.2]

theorem lines_unlines (ls : List (List Char)) (h : ∀ l ∈ ls, '\n' ∉ l ∧ '\r' ∉ l) :
    lines (unlines ls) = ls := by
  induction ls with
  | nil => rfl
  | cons l ls ih =>
    have hl := h l (List.mem_cons_self ..)
    rw [unlines_cons, lines_append_line_feed l _ hl.1 hl.2,
      ih fun m hm => h m (List.mem_cons_of_mem _ hm)]

end IslBindings.Text
