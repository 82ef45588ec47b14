import IslBindings.Proofs.Token.Layout

/-!
# What the lexer keeps of a text

The tokens of a text, spelt with a blank between neighbours, are read as the same tokens again.
Spelt without blanks they are the text less its blanks, unless two dots at the end of a stretch
of dots have been read as the three of an ellipsis.
-/

namespace IslBindings.Token

open Text

/-! ### Tokens read back -/

theorem text_ofMark (c : Char) : (ofMark c).text.toList = [c] := by
  have hstar : star.text.toList = ['*'] := rfl
  have hopen : openParen.text.toList = ['('] := rfl
  have hclose : closeParen.text.toList = [')'] := rfl
  have hcomma : comma.text.toList = [','] := rfl
  have hsemicolon : semicolon.text.toList = [';'] := rfl
  have hother : (other c).text.toList = [c] := String.toList_singleton c
  simp only [ofMark]
  grind

theorem takeWhile_isWordChar {c : Char} {s : List Char} (hc : isWordChar c = true) :
    ∀ d ∈ c :: s.takeWhile isWordChar, isWordChar d = true := by
  intro d hd
  rcases List.mem_cons.mp hd with rfl | hd
  · exact hc
  · exact List.all_eq_true.mp List.all_takeWhile d hd

/-- A token of a text is read back from its own text. -/
theorem lex_text_of_mem {t : Token} {s : List Char} (h : t ∈ lex s) : lex t.text.toList = [t] := by
  induction s using lexInduction with
  | nil => simp [lex_nil] at h
  | blank c s hc ih =>
    rw [lex_blank s hc] at h
    exact ih h
  | word c s hc ih =>
    rw [lex_word s hc, List.mem_cons] at h
    rcases h with rfl | h
    · have hword := lex_word_append (s := []) (List.cons_ne_nil _ _)
        (takeWhile_isWordChar (s := s) hc) (by simp)
      rw [List.append_nil, lex_nil] at hword
      rwa [text, String.toList_ofList]
    · exact ih h
  | dots s ih =>
    rw [lex_dots, List.mem_cons] at h
    rcases h with rfl | h
    · exact (lex_dots ['.']).trans (by rw [skipDot, if_pos rfl, lex_nil])
    · exact ih h
  | mark c s hb hw hdot ih =>
    rw [lex_mark s hb hw hdot, List.mem_cons] at h
    rcases h with rfl | h
    · rw [text_ofMark, lex_mark [] hb hw (.inr (by simp)), lex_nil]
    · exact ih h

/-- The blank between two tokens ends the first one. -/
theorem lex_spell {tokens : List Token} (h : ∀ t ∈ tokens, lex t.text.toList = [t]) :
    lex (spell tokens).toList = tokens := by
  induction tokens with
  | nil => exact lex_nil
  | cons t tokens ih =>
    obtain ⟨ht, hrest⟩ := List.forall_mem_cons.mp h
    cases tokens with
    | nil => simpa [spell] using ht
    | cons u tokens =>
      have hcut : (spell (t :: u :: tokens)).toList =
          t.text.toList ++ ' ' :: (spell (u :: tokens)).toList := by
        simp [spell, String.intercalate_cons_cons]
      rw [hcut, lex_append_blank _ _ (by decide), ht, ih hrest, List.singleton_append]

/-! ### Stretches of dots -/

/-- A stretch of `n` dots stands in the text, with no dot on either side of it. -/
def IsDotRun (n : Nat) (s : List Char) : Prop :=
  0 < n ∧ ∃ a b, s = a ++ (List.replicate n '.' ++ b) ∧ a.getLast? ≠ some '.' ∧ b.head? ≠ some '.'

/-- No stretch of dots ends in a pair that is read as an ellipsis. -/
def KeepsDots (s : List Char) : Prop := ∀ n, IsDotRun n s → n % 3 ≠ 2

variable {s t : List Char} {n k : Nat}

theorem head?_replicate_append (hn : 0 < n) (b : List Char) :
    (List.replicate n '.' ++ b).head? = some '.' := by
  obtain ⟨m, rfl⟩ := Nat.exists_eq_succ_of_ne_zero (Nat.ne_of_gt hn)
  rfl

theorem not_isDotRun_nil : ¬IsDotRun n [] := by
  rintro ⟨hn, a, b, h, -⟩
  have hhead := head?_replicate_append hn b
  rw [(List.append_eq_nil_iff.mp h.symm).2] at hhead
  cases hhead

theorem IsDotRun.append {a : List Char} (h : IsDotRun n t)
    (hcut : a.getLast? ≠ some '.' ∨ t.head? ≠ some '.') : IsDotRun n (a ++ t) := by
  obtain ⟨hn, x, b, rfl, hx, hb⟩ := h
  refine ⟨hn, a ++ x, b, by rw [List.append_assoc], ?_, hb⟩
  cases x with
  | nil =>
    rw [List.append_nil]
    exact hcut.resolve_right fun hhead => hhead (head?_replicate_append hn b)
  | cons d x => rwa [List.getLast?_append, Option.or_of_isSome (by simp)]

theorem isDotRun_cons {c : Char} (hc : c ≠ '.') : IsDotRun n (c :: s) ↔ IsDotRun n s := by
  constructor
  · rintro ⟨hn, a, b, h, ha, hb⟩
    cases a with
    | nil =>
      have hhead := head?_replicate_append hn b
      rw [← List.nil_append (List.replicate n '.' ++ b), ← h] at hhead
      exact absurd (Option.some.inj hhead) hc
    | cons d a =>
      obtain ⟨rfl, rfl⟩ := List.cons.inj h
      refine ⟨hn, a, b, rfl, ?_, hb⟩
      cases a with
      | nil => simp
      | cons e a => exact ha
  · intro h
    exact h.append (a := [c]) (.inl (by simpa using hc))

theorem dots_inj (hs : s.head? ≠ some '.') (ht : t.head? ≠ some '.')
    (h : List.replicate n '.' ++ s = List.replicate k '.' ++ t) : n = k := by
  induction n generalizing k with
  | zero =>
    rcases Nat.eq_zero_or_pos k with hk | hk
    · exact hk.symm
    · have hhead := head?_replicate_append hk t
      rw [← h] at hhead
      exact absurd hhead hs
  | succ n ih =>
    cases k with
    | zero =>
      have hhead := head?_replicate_append (Nat.succ_pos n) s
      rw [h] at hhead
      exact absurd hhead ht
    | succ k => rw [ih (List.cons.inj h).2]

theorem isDotRun_dots (ht : t.head? ≠ some '.') :
    IsDotRun n (List.replicate k '.' ++ t) ↔ (0 < n ∧ n = k) ∨ IsDotRun n t := by
  constructor
  · rintro ⟨hn, a, b, h, ha, hb⟩
    rcases List.append_eq_append_iff.mp h with ⟨x, rfl, rfl⟩ | ⟨x, hdots, hrest⟩
    · cases x with
      | nil => exact absurd (head?_replicate_append hn b) ht
      | cons d x =>
        rw [List.getLast?_append, Option.or_of_isSome (by simp)] at ha
        exact .inr ⟨hn, d :: x, b, rfl, ha, hb⟩
    · -- The stretch starts among the first dots, so it is all of them.
      have hnil : a = [] := by
        refine List.getLast?_eq_none_iff.mp (Option.eq_none_iff_forall_ne_some.mpr fun c hc => ?_)
        have hmem : c ∈ List.replicate k '.' := by
          rw [hdots]
          exact List.mem_append_left _ (List.mem_of_getLast? hc)
        rw [List.eq_of_mem_replicate hmem] at hc
        exact ha hc
      rw [hnil, List.nil_append] at h
      exact .inl ⟨hn, (dots_inj ht hb h).symm⟩
  · rintro (⟨hn, rfl⟩ | h)
    · exact ⟨hn, [], t, rfl, by simp, ht⟩
    · exact h.append (.inr ht)

theorem keepsDots_dots (ht : t.head? ≠ some '.') :
    KeepsDots (List.replicate k '.' ++ t) ↔ k % 3 ≠ 2 ∧ KeepsDots t := by
  simp only [KeepsDots, isDotRun_dots ht]
  constructor
  · intro h
    refine ⟨fun hk => ?_, fun n hn => h n (.inr hn)⟩
    exact h k (.inl ⟨by omega, rfl⟩) hk
  · rintro ⟨hk, h⟩ n (⟨-, rfl⟩ | hn)
    · exact hk
    · exact h n hn

theorem keepsDots_cons {c : Char} (hc : c ≠ '.') : KeepsDots (c :: s) ↔ KeepsDots s := by
  simp only [KeepsDots, isDotRun_cons hc]

theorem keepsDots_append {a : List Char} (ha : '.' ∉ a) : KeepsDots (a ++ s) ↔ KeepsDots s := by
  induction a with
  | nil => rfl
  | cons c a ih =>
    rw [List.mem_cons, not_or] at ha
    rw [List.cons_append, keepsDots_cons (Ne.symm ha.1), ih ha.2]

theorem exists_dots_append (s : List Char) :
    ∃ k t, s = List.replicate k '.' ++ t ∧ t.head? ≠ some '.' := by
  induction s with
  | nil => exact ⟨0, [], rfl, by simp⟩
  | cons c s ih =>
    by_cases hc : c = '.'
    · obtain ⟨k, t, rfl, ht⟩ := ih
      exact ⟨k + 1, t, by rw [hc]; rfl, ht⟩
    · exact ⟨0, c :: s, rfl, by simpa using hc⟩

/-- Three dots more make no difference. -/
theorem keepsDots_three (s : List Char) : KeepsDots ('.' :: '.' :: '.' :: s) ↔ KeepsDots s := by
  obtain ⟨k, t, rfl, ht⟩ := exists_dots_append s
  have hthree : '.' :: '.' :: '.' :: (List.replicate k '.' ++ t) =
      List.replicate (k + 3) '.' ++ t := rfl
  rw [hthree, keepsDots_dots ht, keepsDots_dots ht, Nat.add_mod_right]

/-! ### Tokens without blanks -/

/-- The tokens of a text with nothing between them. -/
def packed (s : List Char) : List Char := (lex s).flatMap (·.text.toList)

/-- The text less its blanks. -/
def visible (s : List Char) : List Char := s.filter (!isBlank ·)

/-- Nothing of the text is lost, and nothing is added to it but dots. -/
structure Keeps (s : List Char) : Prop where
  length : (visible s).length ≤ (packed s).length
  packed : packed s = visible s ↔ KeepsDots s

theorem visible_append (s t : List Char) : visible (s ++ t) = visible s ++ visible t :=
  List.filter_append ..

theorem visible_of_isWordChar {w : List Char} (hw : ∀ c ∈ w, isWordChar c = true) : visible w = w := by
  rw [visible, List.filter_eq_self]
  intro c hc
  rw [isBlank_eq_false_of_isWordChar (hw c hc)]
  rfl

theorem packed_of_lex {t : Token} {r : List Char} (h : lex s = t :: lex r) :
    packed s = t.text.toList ++ packed r := by
  rw [packed, h, List.flatMap_cons, packed]

/-- A token that is written as it stands in the text. -/
theorem Keeps.prepend {w r : List Char} (h : Keeps r) (hw : Token.packed (w ++ r) = w ++ Token.packed r)
    (hvisible : visible w = w) (hdots : KeepsDots (w ++ r) ↔ KeepsDots r) : Keeps (w ++ r) := by
  have hsplit : visible (w ++ r) = w ++ visible r := by rw [visible_append, hvisible]
  constructor
  · rw [hw, hsplit, List.length_append, List.length_append]
    exact Nat.add_le_add_left h.length _
  · rw [hw, hsplit, hdots, ← h.packed]
    exact List.append_right_inj w

theorem keeps (s : List Char) : Keeps s := by
  induction s using lexInduction with
  | nil => exact ⟨by simp [visible], by simp [packed, lex_nil, visible, KeepsDots, not_isDotRun_nil]⟩
  | blank c s hc ih =>
    have hpacked : packed (c :: s) = packed s := by rw [packed, lex_blank s hc, packed]
    have hvisible : visible (c :: s) = visible s := List.filter_cons_of_neg (by simp [hc])
    have hdots : KeepsDots (c :: s) ↔ KeepsDots s := keepsDots_cons (isBreak_of_isBlank hc).2
    exact ⟨by rw [hpacked, hvisible]; exact ih.length, by rw [hpacked, hvisible, hdots, ih.packed]⟩
  | word c s hc ih =>
    have hw := takeWhile_isWordChar (s := s) hc
    have hlex := lex_word s hc
    have hcut : c :: s = (c :: s.takeWhile isWordChar) ++ s.dropWhile isWordChar := by
      rw [List.cons_append, List.takeWhile_append_dropWhile]
    rw [hcut] at hlex ⊢
    refine ih.prepend ?_ (visible_of_isWordChar hw) (keepsDots_append fun hdot => ?_)
    · rw [packed_of_lex hlex, text, String.toList_ofList]
    · exact absurd (hw '.' hdot) (by decide)
  | dots s ih =>
    by_cases hs : s.head? = some '.'
    · obtain ⟨r, rfl⟩ : ∃ r, s = '.' :: r := List.head?_eq_some_iff.mp hs
      rw [skipDot, if_pos rfl] at ih
      refine ih.prepend (w := ['.', '.', '.']) ?_ (by decide) (keepsDots_three r)
      have hlex := lex_dots ('.' :: r)
      rw [skipDot, if_pos rfl] at hlex
      exact packed_of_lex hlex
    · -- A stretch of just two dots comes out as three.
      have hskip : skipDot s = s := by
        rcases skipDot_cases s with h | h
        · exact h
        · exact absurd (by rw [h]; rfl) hs
      have hlex := lex_dots s
      rw [hskip] at hlex ih
      have hpacked : packed ('.' :: '.' :: s) = ['.', '.', '.'] ++ packed s := packed_of_lex hlex
      have hvisible : visible ('.' :: '.' :: s) = ['.', '.'] ++ visible s := visible_append ['.', '.'] s
      have hlength := ih.length
      constructor
      · rw [hpacked, hvisible, List.length_append, List.length_append]
        exact Nat.add_le_add (by decide) hlength
      · refine iff_of_false (fun heq => ?_) fun h => ((keepsDots_dots (k := 2) hs).mp h).1 rfl
        have hcount := congrArg List.length heq
        rw [hpacked, hvisible, List.length_append, List.length_append] at hcount
        simp only [List.length_cons, List.length_nil] at hcount
        omega
  | mark c s hb hw hdot ih =>
    have hpacked := packed_of_lex (lex_mark s hb hw hdot)
    rw [text_ofMark] at hpacked
    refine ih.prepend (w := [c]) hpacked (by simp [visible, hb]) ?_
    by_cases hc : c = '.'
    · have hs := hdot.resolve_left (not_not_intro hc)
      rw [hc]
      exact (keepsDots_dots (k := 1) hs).trans (and_iff_right (by decide))
    · exact keepsDots_cons hc

/-! ### Texts -/

/-- Lexing keeps all of a text but its blanks, and can be repeated. -/
theorem ofText_keeps_text (s : String) :
    ofText (spell (ofText s)) = ofText s ∧
      (String.join ((ofText s).map text) = String.ofList (s.toList.filter (!isBlank ·)) ↔
        ∀ n, IsDotRun n s.toList → n % 3 ≠ 2) := by
  refine ⟨lex_spell fun t ht => lex_text_of_mem ht, ?_⟩
  have hpacked : (String.join ((ofText s).map text)).toList = packed s.toList := by
    rw [String.toList_join, List.flatMap_map]
    rfl
  rw [← String.toList_inj, hpacked, String.toList_ofList]
  exact (keeps s.toList).packed

example : String.join ((ofText "f(..)").map text) = "f(...)" := by decide +kernel

end IslBindings.Token
