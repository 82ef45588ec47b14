import IslBindings.Proofs.Lists
import IslBindings.Proofs.Text.Rows
import IslBindings.Token

/-!
# Tokens laid out with blanks

A layout is a list of tokens, each with the blanks that follow it. However the blanks are
chosen, as long as they keep words apart, the lexer finds the tokens of the layout in its
text.
-/

namespace IslBindings.Token

open Text

/-! ### Words -/

def IsWord (w : String) : Prop := w.toList ≠ [] ∧ ∀ c ∈ w.toList, isWordChar c = true

/-- A token of the declaration grammar: a proper word, or a mark of its own. -/
def IsPlain : Token → Prop
  | .word w => IsWord w
  | .other _ => False
  | _ => True

/-- The characters that separate words and are no part of an ellipsis. -/
def IsBreak (c : Char) : Prop := isWordChar c = false ∧ c ≠ '.'

theorem isBreak_of_isBlank {c : Char} (h : isBlank c = true) : IsBreak c := by
  refine ⟨isWordChar_eq_false_of_isBlank h, ?_⟩
  rintro rfl
  exact absurd h (by decide)

/-! ### The lexer at a break -/

theorem skipDot_cases (s : List Char) : skipDot s = s ∨ s = '.' :: skipDot s := by
  cases s with
  | nil => exact Or.inl rfl
  | cons c s =>
    simp only [skipDot]
    split
    · next hc => exact Or.inr (by rw [hc])
    · exact Or.inl rfl

/-- Induction along the steps of the lexer. -/
@[elab_as_elim]
theorem lexInduction {P : List Char → Prop} (nil : P [])
    (blank : ∀ c s, isBlank c = true → P s → P (c :: s))
    (word : ∀ c s, isWordChar c = true → P (s.dropWhile isWordChar) → P (c :: s))
    (dots : ∀ s, P (skipDot s) → P ('.' :: '.' :: s))
    (mark : ∀ c s, isBlank c = false → isWordChar c = false → (c ≠ '.' ∨ s.head? ≠ some '.') →
      P s → P (c :: s)) (s : List Char) : P s := by
  induction s using lex.induct with
  | case1 => exact nil
  | case2 c s hc ih => exact blank c s hc ih
  | case3 c s _ hc ih => exact word c s hc ih
  | case4 c s _ _ hdots ih =>
    obtain ⟨rfl, hhead⟩ := hdots
    cases s with
    | nil => simp at hhead
    | cons d s =>
      rw [List.head?_cons, Option.some.injEq] at hhead
      subst hhead
      exact dots s ih
  | case5 c s hblank hword hdots ih =>
    have hdot : c ≠ '.' ∨ s.head? ≠ some '.' := by
      by_cases hc : c = '.'
      · exact Or.inr fun hs => hdots ⟨hc, hs⟩
      · exact Or.inl hc
    exact mark c s (by simpa using hblank) (by simpa using hword) hdot ih

theorem lex_append_of_blank {g : List Char} (s : List Char) (h : AllBlank g) :
    lex (g ++ s) = lex s := by
  induction g with
  | nil => rfl
  | cons c g ih =>
    obtain ⟨hc, hg⟩ := h.of_cons
    rw [List.cons_append, lex_blank _ hc, ih hg]

theorem isWordChar_of_head?_dropWhile {s : List Char} {c : Char}
    (h : (s.dropWhile isWordChar).head? = some c) : isWordChar c = false := by
  have hd := List.head?_dropWhile_not isWordChar s
  rw [h] at hd
  exact hd

theorem lex_word_append {w s : List Char} (hne : w ≠ []) (hw : ∀ c ∈ w, isWordChar c = true)
    (hs : ∀ c, s.head? = some c → isWordChar c = false) :
    lex (w ++ s) = .word (String.ofList w) :: lex s := by
  cases w with
  | nil => exact absurd rfl hne
  | cons c w =>
    have hc := hw c (List.mem_cons_self ..)
    obtain ⟨htake, hdrop⟩ := takeWhile_append_of_stop
      (fun d hd => hw d (List.mem_cons_of_mem _ hd)) hs
    rw [List.cons_append, lex_word _ hc, htake, hdrop]

theorem skipDot_append_cons {c : Char} (s t : List Char) (hc : c ≠ '.') :
    skipDot (s ++ c :: t) = skipDot s ++ c :: t := by
  cases s with
  | nil => simp [skipDot, hc]
  | cons d s =>
    simp only [List.cons_append, skipDot]
    split
    · rfl
    · rfl

theorem lex_append_cons {c : Char} (s t : List Char) (hc : IsBreak c) :
    lex (s ++ c :: t) = lex s ++ lex (c :: t) := by
  induction s using lexInduction with
  | nil => rw [List.nil_append, lex_nil, List.nil_append]
  | blank d s hd ih => rw [List.cons_append, lex_blank _ hd, lex_blank _ hd, ih]
  | word d s hd ih =>
    -- The word ends inside `s` or at the break, so the break does not lengthen it.
    have hword : ∀ e ∈ d :: s.takeWhile isWordChar, isWordChar e = true := by
      intro e he
      rcases List.mem_cons.mp he with rfl | he
      · exact hd
      · exact List.all_eq_true.mp List.all_takeWhile e he
    have hrest : ∀ e, (s.dropWhile isWordChar ++ c :: t).head? = some e → isWordChar e = false := by
      intro e he
      cases hs : s.dropWhile isWordChar with
      | nil =>
        rw [hs, List.nil_append, List.head?_cons, Option.some.injEq] at he
        exact he ▸ hc.1
      | cons x xs =>
        rw [hs, List.cons_append, List.head?_cons] at he
        exact isWordChar_of_head?_dropWhile (s := s) (by rw [hs, List.head?_cons, he])
    have hcut : d :: s ++ c :: t =
        (d :: s.takeWhile isWordChar) ++ (s.dropWhile isWordChar ++ c :: t) := by
      rw [List.cons_append, List.cons_append, ← List.append_assoc,
        List.takeWhile_append_dropWhile]
    rw [hcut, lex_word_append (by simp) hword hrest, ih, lex_word _ hd, List.cons_append]
  | dots s ih =>
    rw [List.cons_append, List.cons_append, lex_dots, lex_dots, skipDot_append_cons _ _ hc.2, ih,
      List.cons_append]
  | mark d s hblank hword hdot ih =>
    -- A dot right before the break starts no ellipsis: the break is no dot.
    have hdot' : d ≠ '.' ∨ (s ++ c :: t).head? ≠ some '.' := by
      rcases hdot with hd | hs
      · exact Or.inl hd
      · cases s with
        | nil => exact Or.inr fun h => hc.2 (by simpa using h)
        | cons e s => exact Or.inr hs
    rw [List.cons_append, lex_mark _ hblank hword hdot', lex_mark _ hblank hword hdot, ih,
      List.cons_append]

theorem lex_append_blank (s t : List Char) {c : Char} (hc : isBlank c = true) :
    lex (s ++ c :: t) = lex s ++ lex t := by
  rw [lex_append_cons s t (isBreak_of_isBlank hc), lex_blank t hc]

theorem lex_append_of_allBlank (s : List Char) {g : List Char} (h : AllBlank g) :
    lex (s ++ g) = lex s := by
  cases g with
  | nil => rw [List.append_nil]
  | cons c g =>
    obtain ⟨hc, hg⟩ := h.of_cons
    have hnone := lex_append_of_blank [] hg
    rw [List.append_nil, lex_nil] at hnone
    rw [lex_append_blank s g hc, hnone, List.append_nil]

theorem lex_trim (s : List Char) : lex (trim s) = lex s := by
  obtain ⟨g, k, hg, hk, hs⟩ := exists_trim_append s
  calc lex (trim s) = lex (trim s ++ k) := (lex_append_of_allBlank _ hk).symm
    _ = lex (g ++ (trim s ++ k)) := (lex_append_of_blank _ hg).symm
    _ = lex s := by rw [← List.append_assoc, ← hs]

theorem exists_word_of_infix {m s : List Char} (hne : m ≠ []) (hm : ∀ c ∈ m, isWordChar c = true)
    (h : m <:+: s) : ∃ w, .word w ∈ lex s ∧ m <:+: w.toList := by
  -- What consists of word characters does not reach over a character that is none.
  have hskip : ∀ (a : List Char) (c : Char) (s : List Char), isWordChar c = false →
      m <:+: a ++ c :: s → m <:+: a ∨ m <:+: s := by
    intro a c s hc
    refine infix_of_infix_append_cons fun hmem => ?_
    rw [hm c hmem] at hc
    simp at hc
  have hcons : ∀ (c : Char) (s : List Char), isWordChar c = false → m <:+: c :: s → m <:+: s :=
    fun c s hc h => (hskip [] c s hc h).resolve_left fun hnil => hne (List.infix_nil.mp hnil)
  induction s using lexInduction with
  | nil => exact absurd (List.infix_nil.mp h) hne
  | blank d s hd ih =>
    rw [lex_blank _ hd]
    exact ih (hcons d s (isWordChar_eq_false_of_isBlank hd) h)
  | word d s hd ih =>
    rw [lex_word _ hd]
    have hcut : d :: s = (d :: s.takeWhile isWordChar) ++ s.dropWhile isWordChar := by
      rw [List.cons_append, List.takeWhile_append_dropWhile]
    have hsplit : m <:+: d :: s.takeWhile isWordChar ∨ m <:+: s.dropWhile isWordChar := by
      rw [hcut] at h
      cases hs : s.dropWhile isWordChar with
      | nil =>
        rw [hs, List.append_nil] at h
        exact Or.inl h
      | cons e t =>
        rw [hs] at h
        have he : isWordChar e = false := isWordChar_of_head?_dropWhile (s := s) (by rw [hs]; rfl)
        exact (hskip _ e t he h).imp_right fun ht => ht.trans (List.suffix_cons e t).isInfix
    rcases hsplit with h | h
    · exact ⟨_, List.mem_cons_self .., by rwa [String.toList_ofList]⟩
    · obtain ⟨w, hw, hmw⟩ := ih h
      exact ⟨w, List.mem_cons_of_mem _ hw, hmw⟩
  | dots s ih =>
    have hs : m <:+: s := hcons _ _ (by decide) (hcons _ _ (by decide) h)
    have hrest : m <:+: skipDot s := by
      rcases skipDot_cases s with heq | heq
      · rwa [heq]
      · rw [heq] at hs
        exact hcons _ _ (by decide) hs
    obtain ⟨w, hw, hmw⟩ := ih hrest
    rw [lex_dots]
    exact ⟨w, List.mem_cons_of_mem _ hw, hmw⟩
  | mark d s hblank hword hdot ih =>
    obtain ⟨w, hmem, hmw⟩ := ih (hcons d s hword h)
    rw [lex_mark _ hblank hword hdot]
    exact ⟨w, List.mem_cons_of_mem _ hmem, hmw⟩

/-! ### The text of a token -/

theorem exists_text_eq_cons {t : Token} (h : IsPlain t) (hw : ∀ w, t ≠ .word w) :
    ∃ c s, t.text.toList = c :: s ∧ isWordChar c = false := by
  cases t with
  | word w => exact absurd rfl (hw w)
  | star => exact ⟨'*', [], rfl, by decide⟩
  | openParen => exact ⟨'(', [], rfl, by decide⟩
  | closeParen => exact ⟨')', [], rfl, by decide⟩
  | comma => exact ⟨',', [], rfl, by decide⟩
  | semicolon => exact ⟨';', [], rfl, by decide⟩
  | ellipsis => exact ⟨'.', ['.', '.'], rfl, by decide⟩
  | other c => exact h.elim

theorem lex_text_append {t : Token} (s : List Char) (h : IsPlain t)
    (hs : (∃ w, t = .word w) → ∀ c, s.head? = some c → isWordChar c = false) :
    lex (t.text.toList ++ s) = t :: lex s := by
  cases t with
  | word w =>
    show lex (w.toList ++ s) = .word w :: lex s
    rw [lex_word_append h.1 h.2 (hs ⟨w, rfl⟩), String.ofList_toList]
  | star => exact lex_mark s (by decide) (by decide) (Or.inl (by decide))
  | openParen => exact lex_mark s (by decide) (by decide) (Or.inl (by decide))
  | closeParen => exact lex_mark s (by decide) (by decide) (Or.inl (by decide))
  | comma => exact lex_mark s (by decide) (by decide) (Or.inl (by decide))
  | semicolon => exact lex_mark s (by decide) (by decide) (Or.inl (by decide))
  | ellipsis => exact lex_dots ('.' :: s)
  | other c => exact h.elim

theorem isBlank_eq_false_of_mem_text {t : Token} (h : IsPlain t) {c : Char}
    (hc : c ∈ t.text.toList) : isBlank c = false := by
  have hdec : ∀ s : List Char, s.all (!isBlank ·) = true → c ∈ s → isBlank c = false :=
    fun s hs hm => by simpa using List.all_eq_true.mp hs c hm
  cases t with
  | word w => exact isBlank_eq_false_of_isWordChar (h.2 c hc)
  | star => exact hdec ['*'] (by decide) hc
  | openParen => exact hdec ['('] (by decide) hc
  | closeParen => exact hdec [')'] (by decide) hc
  | comma => exact hdec [','] (by decide) hc
  | semicolon => exact hdec [';'] (by decide) hc
  | ellipsis => exact hdec ['.', '.', '.'] (by decide) hc
  | other d => exact h.elim

theorem text_ne_nil {t : Token} (h : IsPlain t) : t.text.toList ≠ [] := by
  cases t with
  | word w => exact h.1
  | other c => exact h.elim
  | _ => decide

theorem isSolid_text {t : Token} (h : IsPlain t) : IsSolid t.text.toList := by
  have hne := text_ne_nil h
  refine ⟨hne, ?_, ?_⟩
  · rw [List.head?_eq_some_head hne]
    simpa using isBlank_eq_false_of_mem_text h (List.head_mem hne)
  · rw [List.getLast?_eq_some_getLast hne]
    simpa using isBlank_eq_false_of_mem_text h (List.getLast_mem hne)

/-! ### Layouts -/

/-- Tokens, each with the blanks that follow it. -/
abbrev Layout := List (Token × List Char)

namespace Layout

def text (p : Layout) : List Char := p.flatMap fun t => t.1.text.toList ++ t.2

def tokens (p : Layout) : List Token := p.map Prod.fst

/-- Blanks follow each token, at least one if it is a word with another word behind it. -/
def IsLaidOut : Layout → Prop
  | [] => True
  | (t, g) :: rest =>
    IsPlain t ∧ AllBlank g ∧
      ((∃ w, t = .word w) → g = [] → ∀ w, (tokens rest).head? ≠ some (.word w)) ∧ IsLaidOut rest

theorem text_cons (t : Token) (g : List Char) (p : Layout) :
    text ((t, g) :: p) = t.text.toList ++ (g ++ text p) := by
  simp [text]

theorem text_append (p q : Layout) : text (p ++ q) = text p ++ text q := by
  simp [text]

theorem tokens_cons (t : Token) (g : List Char) (p : Layout) :
    tokens ((t, g) :: p) = t :: tokens p := rfl

theorem tokens_append (p q : Layout) : tokens (p ++ q) = tokens p ++ tokens q :=
  List.map_append

theorem head?_text {p : Layout} (h : IsLaidOut p) (hw : ∀ w, (tokens p).head? ≠ some (.word w))
    (c : Char) (hc : (text p).head? = some c) : isWordChar c = false := by
  cases p with
  | nil => simp [text] at hc
  | cons tg p =>
    obtain ⟨t, g⟩ := tg
    obtain ⟨ht, -, -, -⟩ := h
    obtain ⟨d, s, hd, hword⟩ := exists_text_eq_cons ht fun w hword => hw w (by rw [hword]; rfl)
    rw [text_cons, hd, List.cons_append, List.head?_cons, Option.some.injEq] at hc
    rwa [← hc]

theorem IsLaidOut.behind {t : Token} {g : List Char} {p : Layout} (h : IsLaidOut ((t, g) :: p))
    (hword : ∃ w, t = .word w) (c : Char) (hc : (g ++ text p).head? = some c) :
    isWordChar c = false := by
  obtain ⟨-, hg, hsep, hp⟩ := h
  cases g with
  | nil => exact head?_text hp (hsep hword rfl) c hc
  | cons d g =>
    rw [List.cons_append, List.head?_cons, Option.some.injEq] at hc
    subst hc
    exact isWordChar_eq_false_of_isBlank (hg _ (List.mem_cons_self ..))

/-- The lexer finds the tokens of a layout in its text. -/
theorem lex_text {p : Layout} (h : IsLaidOut p) : lex (text p) = tokens p := by
  induction p with
  | nil => exact lex_nil
  | cons tg p ih =>
    obtain ⟨t, g⟩ := tg
    have hbehind := h.behind
    obtain ⟨ht, hg, -, hp⟩ := h
    rw [text_cons, lex_text_append _ ht hbehind, lex_append_of_blank _ hg, ih hp, tokens_cons]

theorem exists_word_of_prefix {p : Layout} (h : IsLaidOut p) {m : List Char} (hne : m ≠ [])
    (hm : ∀ c ∈ m, isWordChar c = true) (hp : m <+: text p) :
    ∃ w, (tokens p).head? = some (.word w) ∧ m <+: w.toList := by
  cases p with
  | nil => exact absurd (List.prefix_nil.mp hp) hne
  | cons tg p =>
    obtain ⟨t, g⟩ := tg
    rw [text_cons] at hp
    by_cases hword : ∃ w, t = .word w
    · have hbehind := h.behind hword
      obtain ⟨w, rfl⟩ := hword
      refine ⟨w, rfl, ?_⟩
      have hp : m <+: w.toList ++ (g ++ text p) := hp
      cases hs : g ++ text p with
      | nil =>
        rw [hs, List.append_nil] at hp
        exact hp
      | cons c s =>
        rw [hs] at hp hbehind
        refine prefix_of_prefix_append_cons (fun hc => ?_) hp
        have hfalse := hbehind c rfl
        rw [hm c hc] at hfalse
        exact absurd hfalse (by simp)
    · obtain ⟨c, s, hc, hfalse⟩ := exists_text_eq_cons h.1 fun w hw => hword ⟨w, hw⟩
      rw [hc, List.cons_append] at hp
      rcases List.prefix_cons_iff.mp hp with hnil | ⟨k, rfl, -⟩
      · exact absurd hnil hne
      · rw [hm c (List.mem_cons_self ..)] at hfalse
        exact absurd hfalse (by simp)

theorem IsLaidOut.isPlain {p : Layout} (h : IsLaidOut p) {t : Token} {g : List Char}
    (hm : (t, g) ∈ p) : IsPlain t ∧ AllBlank g := by
  induction p with
  | nil => simp at hm
  | cons u p ih =>
    obtain ⟨hu, hg, -, hp⟩ := h
    rcases List.mem_cons.mp hm with rfl | hm
    · exact ⟨hu, hg⟩
    · exact ih hp hm

theorem IsLaidOut.of_append {p q : Layout} (h : IsLaidOut (p ++ q)) : IsLaidOut p ∧ IsLaidOut q := by
  induction p with
  | nil => exact ⟨trivial, h⟩
  | cons tg p ih =>
    obtain ⟨t, g⟩ := tg
    obtain ⟨ht, hg, hsep, hpq⟩ := h
    obtain ⟨hp, hq⟩ := ih hpq
    refine ⟨⟨ht, hg, fun hword hnil w hw => hsep hword hnil w ?_, hp⟩, hq⟩
    show (tokens (p ++ q)).head? = some (.word w)
    rw [tokens_append, List.head?_append, hw]
    rfl

theorem isSolid_text_concat {p : Layout} {t : Token} (h : IsLaidOut (p ++ [(t, [])])) :
    IsSolid (text (p ++ [(t, [])])) := by
  have hlast : text (p ++ [(t, [])]) = text p ++ t.text.toList := by
    rw [text_append]
    simp [text]
  have ht := isSolid_text (h.of_append.2).1
  refine ⟨?_, ?_, ?_⟩
  · rw [hlast]
    exact List.append_ne_nil_of_right_ne_nil _ ht.ne_nil
  · cases p with
    | nil => simpa [text] using ht.2.1
    | cons ug p =>
      obtain ⟨u, g⟩ := ug
      have hu := isSolid_text h.1
      rw [List.cons_append, text_cons, List.head?_append,
        Option.or_of_isSome (List.isSome_head?.mpr hu.ne_nil)]
      exact hu.2.1
  · rw [hlast, List.getLast?_append, Option.or_of_isSome (List.getLast?_isSome.mpr ht.ne_nil)]
    exact ht.2.2

theorem exists_of_text_eq_append {p : Layout} (h : IsLaidOut p) {c : Char} (hc : isBlank c = true)
    {a b : List Char} (hp : text p = a ++ c :: b) :
    ∃ q t g k r, p = q ++ (t, g ++ c :: k) :: r ∧ a = text q ++ t.text.toList ++ g := by
  induction p generalizing a with
  | nil => simp [text] at hp
  | cons tg p ih =>
    obtain ⟨t, g⟩ := tg
    obtain ⟨ht, -, -, hlaid⟩ := h
    rw [text_cons] at hp
    rcases append_eq_append_cons hp with ⟨k, htext, -⟩ | ⟨x, rfl, hx⟩
    · have hmem : c ∈ t.text.toList := by
        rw [htext]
        exact List.mem_append_right _ (List.mem_cons_self ..)
      rw [isBlank_eq_false_of_mem_text ht hmem] at hc
      exact absurd hc (by simp)
    · rcases append_eq_append_cons hx with ⟨k, rfl, -⟩ | ⟨y, rfl, hy⟩
      · exact ⟨[], t, x, k, p, rfl, by simp [text]⟩
      · obtain ⟨q, u, f, k, r, rfl, rfl⟩ := ih hlaid hy
        exact ⟨(t, g) :: q, u, f, k, r, rfl, by simp [text_cons]⟩

/-! ### Marks in the text of a layout -/

theorem ofMark_ne_word (c : Char) (w : String) : ofMark c ≠ .word w := by
  simp only [ofMark]
  grind

theorem ofMark_ne_ellipsis (c : Char) : ofMark c ≠ .ellipsis := by
  simp only [ofMark]
  grind

theorem count_text_of_isPlain {t : Token} (h : IsPlain t) {c : Char} (hw : isWordChar c = false)
    (hdot : c ≠ '.') : t.text.toList.count c = [t].count (ofMark c) := by
  have hnone : c ∉ t.text.toList → ofMark c ≠ t →
      t.text.toList.count c = [t].count (ofMark c) := by
    intro hc hm
    rw [List.count_eq_zero.mpr hc, List.count_eq_zero.mpr (by rwa [List.mem_singleton])]
  have hone : ∀ (d : Char) (u : Token), (c = d ↔ ofMark c = u) → [d].count c = [u].count (ofMark c) := by
    intro d u hdu
    rw [List.count_singleton, List.count_singleton]
    by_cases hc : c = d
    · simp [hc, (hdu.mp hc).symm]
    · have hu : ofMark c ≠ u := fun he => hc (hdu.mpr he)
      simp [Ne.symm hc, Ne.symm hu]
  cases t with
  | word w =>
    refine hnone (fun hm => ?_) (ofMark_ne_word c w)
    rw [h.2 c hm] at hw
    exact absurd hw (by simp)
  | star => exact hone '*' .star (by simp only [ofMark]; grind)
  | openParen => exact hone '(' .openParen (by simp only [ofMark]; grind)
  | closeParen => exact hone ')' .closeParen (by simp only [ofMark]; grind)
  | comma => exact hone ',' .comma (by simp only [ofMark]; grind)
  | semicolon => exact hone ';' .semicolon (by simp only [ofMark]; grind)
  | ellipsis =>
    refine hnone (fun hm => hdot ?_) (ofMark_ne_ellipsis c)
    have hm : c ∈ ['.', '.', '.'] := hm
    simpa using hm
  | other d => exact h.elim

theorem count_text {p : Layout} (h : IsLaidOut p) {c : Char} (hb : isBlank c = false)
    (hw : isWordChar c = false) (hdot : c ≠ '.') :
    (text p).count c = (tokens p).count (ofMark c) := by
  induction p with
  | nil => rfl
  | cons tg p ih =>
    obtain ⟨t, g⟩ := tg
    obtain ⟨ht, hg, -, hp⟩ := h
    rw [text_cons, tokens_cons, List.count_append, List.count_append, count_of_allBlank hb hg,
      count_text_of_isPlain ht hw hdot, ih hp, Nat.zero_add, ← List.count_append,
      List.singleton_append]

theorem not_mem_text {p : Layout} (h : IsLaidOut p) {c : Char} (hb : isBlank c = false)
    (hw : isWordChar c = false) (hdot : c ≠ '.') (hmark : ofMark c = .other c) : c ∉ text p := by
  rw [← List.count_eq_zero, count_text h hb hw hdot, hmark, List.count_eq_zero]
  intro hm
  obtain ⟨⟨t, g⟩, htg, ht⟩ := List.mem_map.mp hm
  have hplain := (h.isPlain htg).1
  rw [show t = .other c from ht] at hplain
  exact hplain

end Layout

end IslBindings.Token
