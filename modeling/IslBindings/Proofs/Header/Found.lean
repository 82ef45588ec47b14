import IslBindings.Proofs.Header.Collected

/-!
# Prototypes are found

A prototype is a head without parentheses, a parenthesised list and a semicolon. While the
search collects it, there is a parenthesis open or none yet, up to the row that ends it.
-/

namespace IslBindings.Header

open Text Token

/-! ### Forward declarations -/

theorem mem_of_semicolon_mem_lex {s : List Char} (h : .semicolon ∈ lex s) : ';' ∈ s := by
  induction s using lexInduction with
  | nil =>
    rw [lex_nil] at h
    simp at h
  | blank c s hc ih =>
    rw [lex_blank s hc] at h
    exact List.mem_cons_of_mem _ (ih h)
  | word c s hc ih =>
    rw [lex_word s hc, List.mem_cons] at h
    have hm := ih (h.resolve_left (by simp))
    exact List.mem_cons_of_mem _ ((List.dropWhile_suffix _).mem hm)
  | dots s ih =>
    rw [lex_dots, List.mem_cons] at h
    have hm := ih (h.resolve_left (by simp))
    refine List.mem_cons_of_mem _ (List.mem_cons_of_mem _ ?_)
    rcases skipDot_cases s with heq | heq
    · rwa [heq] at hm
    · rw [heq]
      exact List.mem_cons_of_mem _ hm
  | mark c s hblank hword hdot ih =>
    rw [lex_mark s hblank hword hdot, List.mem_cons] at h
    rcases h with h | h
    · have hc : c = ';' := by
        simp only [ofMark] at h
        grind
      rw [hc]
      exact List.mem_cons_self ..
    · exact List.mem_cons_of_mem _ (ih h)

theorem forwardFrom_of_not_mem {state : ForwardState} {ts : List Token} (h : .semicolon ∉ ts) :
    forwardFrom state ts = false := by
  induction ts generalizing state with
  | nil => rw [forwardFrom]
  | cons t ts ih =>
    rw [List.mem_cons, not_or] at h
    cases t with
    | semicolon => exact absurd rfl h.1
    | word w => simpa [forwardFrom] using ih h.2
    | _ => simpa [forwardFrom] using ih h.2

theorem forwardFrom_append_close {state : ForwardState} {ts : List Token} (h : .semicolon ∉ ts) :
    forwardFrom state (ts ++ [.closeParen, .semicolon]) = false := by
  induction ts generalizing state with
  | nil => simp [forwardFrom]
  | cons t ts ih =>
    rw [List.mem_cons, not_or] at h
    cases t with
    | semicolon => exact absurd rfl h.1
    | word w => simpa [forwardFrom] using ih h.2
    | _ => simpa [forwardFrom] using ih h.2

theorem declaresStruct_of_not_mem {s : List Char} (h : ';' ∉ s) : declaresStruct s = false :=
  forwardFrom_of_not_mem fun hm => h (mem_of_semicolon_mem_lex hm)

/-! ### Prototypes -/

/-- Every closed parenthesis has been opened before, and every opened one is closed. -/
def IsNested (ts : List Token) : Prop :=
  ts.count .openParen = ts.count .closeParen ∧
    ∀ a b, ts = a ++ b → a.count .closeParen ≤ a.count .openParen

/-- The tokens of a prototype before its last two, as `head ( inner`. -/
structure Opening where
  head : Layout
  gap : List Char
  inner : Layout

def Opening.layout (o : Opening) : Layout := o.head ++ (.openParen, o.gap) :: o.inner

theorem Opening.tokens_layout (o : Opening) :
    o.layout.tokens = o.head.tokens ++ .openParen :: o.inner.tokens := by
  rw [Opening.layout, Layout.tokens_append]
  rfl

theorem Opening.open_of_prefix {o : Opening} (hopen : .openParen ∉ o.head.tokens)
    (hclose : .closeParen ∉ o.head.tokens) (hinner : IsNested o.inner.tokens) {a b : List Token}
    (h : o.layout.tokens = a ++ b) :
    a.count .openParen = 0 ∨ a.count .closeParen < a.count .openParen := by
  rw [o.tokens_layout] at h
  -- The cut lies in the list, after its parenthesis, or in the head.
  rcases append_eq_append_cons h.symm with ⟨k, rfl, hk⟩ | ⟨k, hhead, -⟩
  · have hle := hinner.2 k b hk
    have hzero : o.head.tokens.count .closeParen = 0 := List.count_eq_zero.mpr hclose
    rw [List.count_append, List.count_append, List.count_cons_self, hzero,
      List.count_cons_of_ne (by simp)]
    exact Or.inr (by omega)
  · refine Or.inl (List.count_eq_zero.mpr fun hm => hopen ?_)
    rw [hhead]
    exact List.mem_append_left _ hm

theorem isBalanced_of_lt {s : List Char} (h : s.count '(' = 0 ∨ s.count ')' < s.count '(') :
    isBalanced s = false := by
  rw [isBalanced, Bool.and_eq_false_iff, decide_eq_false_iff_not, beq_eq_false_iff_ne]
  omega

theorem isBalanced_gathered (s : List Char) : isBalanced (gathered s) = isBalanced s := by
  rw [isBalanced, isBalanced, count_gathered (by decide), count_gathered (by decide)]

/-- A laid out prototype `head ( inner ) ;`. The semicolon stands on the row of the last parenthesis. -/
structure IsPrototype (p : Layout) : Prop where
  isLaidOut : p.IsLaidOut
  shape : ∃ (o : Opening) (gap : List Char),
    p = o.layout ++ [(.closeParen, gap), (.semicolon, [])] ∧ '\n' ∉ gap ∧
      .openParen ∉ o.head.tokens ∧ .closeParen ∉ o.head.tokens ∧ .semicolon ∉ o.layout.tokens ∧
      IsNested o.inner.tokens
  noMarker : ∀ w, .word w ∈ p.tokens → ¬subclassMarker <:+: w.toList
  start : ∀ w, p.tokens.head? = some (.word w) →
    ¬externWord <+: w.toList ∧ ¬typedefWord <+: w.toList

namespace IsPrototype

variable {p : Layout}

theorem isUnbroken (h : IsPrototype p) : IsUnbroken p.text := by
  obtain ⟨o, gap, hp, -, -, -, hsemi, -⟩ := h.shape
  have htokens : p.tokens = (o.layout.tokens ++ [.closeParen]) ++ [.semicolon] := by
    rw [hp, Layout.tokens_append, List.append_assoc]
    rfl
  refine isUnbroken_text h.isLaidOut htokens ?_
  rw [List.mem_append, not_or]
  exact ⟨hsemi, by simp⟩

theorem isPlainText (h : IsPrototype p) : IsPlainText p.text where
  noMarker hm := by
    obtain ⟨w, hw, hmw⟩ :=
      exists_word_of_infix (by decide) (List.all_eq_true.mp (by decide)) hm
    rw [Layout.lex_text h.isLaidOut] at hw
    exact h.noMarker w hw hmw
  noDirective := Layout.not_mem_text h.isLaidOut (by decide) (by decide) (by decide) (by decide)
  noBackslash := Layout.not_mem_text h.isLaidOut (by decide) (by decide) (by decide) (by decide)

theorem pieceRows (h : IsPrototype p) : pieceRows p.text = (rows p.text).map trim := by
  have hrow : ∀ r ∈ rows p.text, pieces r = [trim r] := by
    intro r hr
    have hinfix := isInfix_of_mem_rows hr
    rw [(h.isPlainText.of_infix hinfix).pieces,
      breakAfterSemicolons_of_isUnbroken (h.isUnbroken.of_infix hinfix), List.map_singleton]
  rw [Header.pieceRows, List.map_eq_flatMap, List.flatMap_def, List.flatMap_def,
    List.map_congr_left hrow]

theorem before_line_feed (h : IsPrototype p) {a b : List Char} (hp : p.text = a ++ '\n' :: b) :
    ';' ∉ a ∧ isBalanced a = false := by
  obtain ⟨o, gap, hshape, hgap, hopen, hclose, hsemi, hinner⟩ := h.shape
  obtain ⟨q, t, g, k, r, hcut, ha⟩ := Layout.exists_of_text_eq_append h.isLaidOut (by decide) hp
  -- The token at the line feed is neither of the last two.
  have hfront : ∃ x, o.layout = q ++ (t, g ++ '\n' :: k) :: x := by
    rcases append_eq_append_cons (hshape.symm.trans hcut) with ⟨x, hx, -⟩ | ⟨x, -, hx⟩
    · exact ⟨x, hx⟩
    · have hm : (t, g ++ '\n' :: k) ∈ [(.closeParen, gap), (.semicolon, [])] := by
        rw [hx]
        exact List.mem_append_right _ (List.mem_cons_self ..)
      rcases List.mem_cons.mp hm with he | hm
      · rw [Prod.mk.injEq] at he
        rw [← he.2] at hgap
        simp at hgap
      · simp at hm
  obtain ⟨x, hx⟩ := hfront
  have htokens : o.layout.tokens = (q.tokens ++ [t]) ++ Layout.tokens x := by
    rw [hx, Layout.tokens_append, Layout.tokens_cons, List.append_assoc]
    rfl
  have hlaid : (q ++ [(t, g ++ '\n' :: k)]).IsLaidOut := by
    have hall := h.isLaidOut
    rw [hcut, ← List.singleton_append, ← List.append_assoc] at hall
    exact hall.of_append.1
  -- A mark stands before the line feed as often as among the tokens before it.
  have hcount : ∀ c, isBlank c = false → isWordChar c = false → c ≠ '.' →
      a.count c = (q.tokens ++ [t]).count (ofMark c) := by
    intro c hb hw hdot
    have hall := Layout.count_text hlaid hb hw hdot
    have htext : Layout.text (q ++ [(t, g ++ '\n' :: k)]) = a ++ '\n' :: k := by
      rw [ha, Layout.text_append]
      simp [Layout.text]
    have hblank : AllBlank ('\n' :: k) := (hlaid.of_append.2.2.1).of_append.2
    rw [htext, List.count_append, count_of_allBlank hb hblank, Layout.tokens_append] at hall
    exact hall
  refine ⟨?_, isBalanced_of_lt ?_⟩
  · rw [← List.count_eq_zero, hcount ';' (by decide) (by decide) (by decide), List.count_eq_zero]
    intro hm
    refine hsemi ?_
    rw [htokens]
    exact List.mem_append_left _ hm
  · rw [hcount '(' (by decide) (by decide) (by decide), hcount ')' (by decide) (by decide) (by decide)]
    exact Opening.open_of_prefix hopen hclose hinner htokens

theorem isBalanced_text (h : IsPrototype p) : isBalanced p.text = true := by
  obtain ⟨o, gap, hp, -, hopen, hclose, -, heq, -⟩ := h.shape
  have ho : p.text.count '(' = p.tokens.count .openParen :=
    Layout.count_text h.isLaidOut (by decide) (by decide) (by decide)
  have hc : p.text.count ')' = p.tokens.count .closeParen :=
    Layout.count_text h.isLaidOut (by decide) (by decide) (by decide)
  have htokens : p.tokens =
      o.head.tokens ++ .openParen :: (o.inner.tokens ++ [.closeParen, .semicolon]) := by
    rw [hp, Layout.tokens_append, o.tokens_layout, List.append_assoc]
    rfl
  have hcount : p.tokens.count .openParen = o.inner.tokens.count .openParen + 1 ∧
      p.tokens.count .closeParen = o.inner.tokens.count .closeParen + 1 := by
    rw [htokens]
    simp [List.count_append, List.count_eq_zero.mpr hopen, List.count_eq_zero.mpr hclose]
  rw [isBalanced, ho, hc, hcount.1, hcount.2, heq]
  simp

theorem before_last_row (h : IsPrototype p) {xs ys : List (List Char)} (hrows : rows p.text = xs ++ ys)
    (hx : xs ≠ []) (hy : ys ≠ []) :
    declaresStruct (collected (xs.map trim)) = false ∧
      isBalanced (collected (xs.map trim)) = false := by
  obtain ⟨a, b, hab, rfl, -⟩ := exists_of_rows_eq_append hrows hx hy
  obtain ⟨hsemi, hbalanced⟩ := h.before_line_feed hab
  refine ⟨declaresStruct_of_not_mem ?_, ?_⟩
  · rw [← List.count_eq_zero] at hsemi ⊢
    exact (count_gathered (by decide) a).trans hsemi
  · exact (isBalanced_gathered a).trans hbalanced

theorem collected_rows (h : IsPrototype p) :
    collected ((rows p.text).map trim) = (joined p).text ++ [' '] := by
  obtain ⟨o, gap, hp, -⟩ := h.shape
  have hcut : p = (o.layout ++ [(.closeParen, gap)]) ++ [(.semicolon, [])] := by
    rw [hp, List.append_assoc]
    rfl
  have hlaid := h.isLaidOut
  rw [hcut] at hlaid ⊢
  exact gathered_text hlaid

theorem isSolid_joined (h : IsPrototype p) : IsSolid (joined p).text := by
  obtain ⟨o, gap, hp, -⟩ := h.shape
  have hcut : joined p = joined (o.layout ++ [(.closeParen, gap)]) ++ [(.semicolon, [])] := by
    rw [hp]
    simp [joined, spread]
  have hlaid := isLaidOut_joined h.isLaidOut
  rw [hcut] at hlaid ⊢
  exact Layout.isSolid_text_concat hlaid

theorem declaresStruct_joined (h : IsPrototype p) :
    declaresStruct ((joined p).text ++ [' ']) = false := by
  obtain ⟨o, gap, hp, -, -, -, hsemi, -⟩ := h.shape
  have htokens : p.tokens = o.layout.tokens ++ [.closeParen, .semicolon] := by
    rw [hp, Layout.tokens_append]
    rfl
  rw [declaresStruct_append_of_blank _ allBlank_space, declaresStruct,
    Layout.lex_text (isLaidOut_joined h.isLaidOut), tokens_joined, htokens]
  exact forwardFrom_append_close hsemi

theorem exists_text_eq_cons (h : IsPrototype p) :
    ∃ c s, p.text = c :: s ∧ isBlank c = false := by
  obtain ⟨o, gap, hp, -⟩ := h.shape
  cases p with
  | nil => simp at hp
  | cons tg p =>
    obtain ⟨t, g⟩ := tg
    obtain ⟨c, hc, hblank⟩ := head?_text_cons (g := g) (p := p) h.isLaidOut.1
    obtain ⟨s, hs⟩ := List.head?_eq_some_iff.mp hc
    exact ⟨c, s, hs, hblank⟩

theorem step_first_row (h : IsPrototype p) {r : List Char} {rs : List (List Char)}
    (hr : rows p.text = r :: rs) (hstruct : declaresStruct (trim r ++ [' ']) = false) :
    Search.step .idle (trim r) = Search.collect [] (trim r) := by
  obtain ⟨c, s, htext, hc⟩ := h.exists_text_eq_cons
  have hn : c ≠ '\n' := by
    rintro rfl
    exact absurd hc (by decide)
  obtain ⟨q, qs, hq⟩ := exists_rows_eq_cons s
  have hrow : r = c :: q := by
    rw [htext, rows_cons hn hq, List.cons.injEq] at hr
    exact hr.1.symm
  have hstart : trimStart r = r := by rw [hrow, trimStart_cons_of_not_blank q hc]
  have hbegin : trim r <+: p.text := by
    rw [trim, hstart]
    exact (trimEnd_isPrefix r).trans (prefix_of_rows_eq_cons hr)
  have hhead : (trim r).head? = some c := by
    rw [head?_trim, hstart, hrow]
    rfl
  have hne : trim r ≠ [] := by
    intro he
    rw [he] at hhead
    simp at hhead
  -- Nothing by which the search knows noise stands in the first row.
  have hnot : ∀ d, ofMark d = .other d → isBlank d = false → isWordChar d = false → d ≠ '.' →
      d ∉ trim r := fun d hmark hb hw hdot hm =>
    Layout.not_mem_text h.isLaidOut hb hw hdot hmark (hbegin.mem hm)
  have hslash := hnot '/' (by decide) (by decide) (by decide) (by decide)
  have hopens := hnot '\x7b' (by decide) (by decide) (by decide) (by decide)
  have hcloses := hnot '\x7d' (by decide) (by decide) (by decide) (by decide)
  -- Nor does the row start with a word that noise starts with.
  have hword : externWord.isPrefixOf (trim r) = false := by
    rw [Bool.eq_false_iff]
    intro hp
    obtain ⟨w, hw, hwp⟩ := Layout.exists_word_of_prefix h.isLaidOut (by decide)
      (List.all_eq_true.mp (by decide)) ((List.isPrefixOf_iff_prefix.mp hp).trans hbegin)
    exact (h.start w hw).1 hwp
  have htypedef : typedefWord.isPrefixOf (trim r) = false := by
    rw [Bool.eq_false_iff]
    intro hp
    obtain ⟨w, hw, hwp⟩ := Layout.exists_word_of_prefix h.isLaidOut (by decide)
      (List.all_eq_true.mp (by decide)) ((List.isPrefixOf_iff_prefix.mp hp).trans hbegin)
    exact (h.start w hw).2 hwp
  have hbrace : (trim r == ['\x7d']) = false := by
    rw [beq_eq_false_iff_ne]
    intro he
    rw [he] at hcloses
    simp at hcloses
  have hsame : declaresStruct (trim r) = false := by
    rwa [declaresStruct_append_of_blank _ allBlank_space] at hstruct
  rw [step_idle_of_closed hne (fun hi => hslash (hi.mem (by decide)))
    (fun hl => hopens (List.mem_of_getLast? hl)), hword, htypedef, hbrace, hsame]
  simp

theorem finds (h : IsPrototype p) : Finds (Header.pieceRows p.text) [(joined p).text] := by
  obtain ⟨r, rs, hr⟩ := exists_rows_eq_cons p.text
  -- Up to the last row no parentheses are closed and no semicolon is seen, and the last row
  -- completes the prototype.
  have hstruct : ∀ a b, (rows p.text).map trim = a ++ b → a ≠ [] →
      declaresStruct ([] ++ collected a) = false := by
    intro a b hab ha
    rw [List.nil_append]
    by_cases hb : b = []
    · rw [hb, List.append_nil] at hab
      rw [← hab, h.collected_rows]
      exact h.declaresStruct_joined
    · obtain ⟨xs, ys, hrows, rfl, rfl⟩ := List.map_eq_append_iff.mp hab
      exact (h.before_last_row hrows (by simpa using ha) (by simpa using hb)).1
  have hopen : ∀ a b, (rows p.text).map trim = a ++ b → a ≠ [] → b ≠ [] →
      isBalanced ([] ++ collected a) = false := by
    intro a b hab ha hb
    obtain ⟨xs, ys, hrows, rfl, rfl⟩ := List.map_eq_append_iff.mp hab
    exact (h.before_last_row hrows (by simpa using ha) (by simpa using hb)).2
  have hclosed : isBalanced ([] ++ collected ((rows p.text).map trim)) = true :=
    (isBalanced_gathered p.text).trans h.isBalanced_text
  obtain ⟨hout, hrest⟩ := collecting_run (by rw [hr]; simp) hstruct hopen hclosed
  rw [List.nil_append, h.collected_rows, trim_append_right_of_blank _ allBlank_space,
    h.isSolid_joined.trim] at hout
  have hfirst := hstruct [trim r] (rs.map trim) (by rw [hr]; rfl) (by simp)
  have hstep := h.step_first_row hr (by rwa [List.nil_append, collected_cons, collected_nil,
    List.append_nil] at hfirst)
  -- From rest, the first row is collected as if the search had been collecting nothing.
  obtain ⟨hsearch, hstate⟩ := search_congr_first .idle (.collecting []) (rs.map trim) hstep
  rw [← List.map_cons, ← hr] at hsearch hstate
  rw [h.pieceRows, Finds, hsearch, hstate]
  exact ⟨hout, hrest⟩

end IsPrototype

end IslBindings.Header
