import IslBindings.Proofs.Header.Search

/-!
# What the search leaves out

The items of a header that declare no function: directives, `extern` lines, typedefs,
forward declarations, comments and blocks. The search finds nothing in them and is idle
when they end.
-/

namespace IslBindings.Header

open Text Token

/-! ### Terminators -/

/-- Behind every place where the terminator stands, no word follows a semicolon. -/
def IsUnbrokenAfter (terminator s : List Char) : Prop :=
  ∀ u v, s = u ++ terminator ++ v → IsUnbroken v

theorem closes_breakAfterSemicolons {t s : List Char} (hne : t ≠ []) (hsemi : ';' ∉ t)
    (hmem : t <:+: s) (h : IsUnbrokenAfter t s) : Closes t (breakAfterSemicolons s) := by
  induction s with
  | nil => exact absurd (List.infix_nil.mp hmem) hne
  | cons c s ih =>
    -- Behind the first place of the terminator the line is whole, so that the last piece holds it.
    by_cases hstart : t <+: c :: s
    · obtain ⟨v, hv⟩ := hstart
      have hu : IsUnbroken (c :: s) := by
        rw [← hv]
        exact isUnbroken_append hsemi (h [] v hv.symm)
      rw [breakAfterSemicolons_of_isUnbroken hu]
      exact ⟨[], c :: s, rfl, by simp, hmem⟩
    · have hs : t <:+: s := (List.infix_cons_iff.mp hmem).resolve_left hstart
      have hafter : IsUnbrokenAfter t s := fun u v huv => h (c :: u) v (by rw [huv]; rfl)
      obtain ⟨init, last, hbreak, hinit, hlast⟩ := ih hs hafter
      rcases semicolon_cases c s with ⟨rfl, hw⟩ | hc
      · refine ⟨[';'] :: init, last, ?_, ?_, hlast⟩
        · rw [breakAfterSemicolons_semicolon hw, hbreak, List.cons_append]
        · intro l hl
          rcases List.mem_cons.mp hl with rfl | hl
          · intro hi
            rcases infix_of_infix_append_cons (x := []) hsemi hi with hi | hi
            · exact hne (List.infix_nil.mp hi)
            · exact hne (List.infix_nil.mp hi)
          · exact hinit l hl
      · cases init with
        | nil =>
          exact ⟨[], c :: last, breakAfterSemicolons_cons hc hbreak, by simp,
            hlast.trans (List.suffix_cons c last).isInfix⟩
        | cons p init =>
          have hcut := breakAfterSemicolons_cons hc hbreak
          refine ⟨(c :: p) :: init, last, hcut, ?_, hlast⟩
          -- The first piece grows by a character, and the line does not start with the terminator.
          intro l hl
          rcases List.mem_cons.mp hl with rfl | hl
          · intro hi
            rcases List.infix_cons_iff.mp hi with hi | hi
            · exact hstart (hi.trans (prefix_of_breakAfterSemicolons hcut))
            · exact hinit p (List.mem_cons_self ..) hi
          · exact hinit l (List.mem_cons_of_mem _ hl)

theorem not_infix_of_mem_pieces {t row piece : List Char} (h : ¬t <:+: seen row)
    (hp : piece ∈ pieces row) : ¬t <:+: piece := by
  by_cases hd : IsDirective row
  · rw [pieces_of_isDirective hd] at hp
    simp at hp
  · rw [pieces_of_not_isDirective hd] at hp
    obtain ⟨q, hq, rfl⟩ := List.mem_map.mp hp
    intro ht
    exact h ((ht.trans (trim_isInfix q)).trans (isInfix_of_mem_breakAfterSemicolons hq))

theorem closes_pieces {t row : List Char} (ht : IsSolid t) (hsemi : ';' ∉ t)
    (hmem : t <:+: seen row) (hd : ¬IsDirective row) (h : IsUnbrokenAfter t (seen row)) :
    Closes t (pieces row) := by
  obtain ⟨init, last, hbreak, hinit, hlast⟩ := closes_breakAfterSemicolons ht.ne_nil hsemi hmem h
  rw [pieces_of_not_isDirective hd, hbreak, List.map_append]
  refine ⟨init.map trim, trim last, rfl, ?_, ht.infix_trim hlast⟩
  intro l hl
  obtain ⟨q, hq, rfl⟩ := List.mem_map.mp hl
  exact fun hi => hinit q hq (hi.trans (trim_isInfix q))

/-- Rows that run to the first one with the terminator. -/
def RunsTo (terminator : List Char) (ls : List (List Char)) : Prop :=
  ∃ init last, ls = init ++ [last] ∧ (∀ l ∈ init, ¬terminator <:+: seen l) ∧
    terminator <:+: seen last ∧ ¬IsDirective last ∧ IsUnbrokenAfter terminator (seen last)

theorem RunsTo.closes {t : List Char} {ls : List (List Char)} (ht : IsSolid t) (hsemi : ';' ∉ t)
    (h : RunsTo t ls) : Closes t (ls.flatMap pieces) := by
  obtain ⟨init, last, rfl, hinit, hmem, hd, hafter⟩ := h
  obtain ⟨ps, p, hpieces, hps, hp⟩ := closes_pieces ht hsemi hmem hd hafter
  refine ⟨init.flatMap pieces ++ ps, p, ?_, ?_, hp⟩
  · rw [List.flatMap_append, List.flatMap_singleton, hpieces, List.append_assoc]
  · intro l hl
    rcases List.mem_append.mp hl with hl | hl
    · obtain ⟨r, hr, hlr⟩ := List.mem_flatMap.mp hl
      exact not_infix_of_mem_pieces (hinit r hr) hlr
    · exact hps l hl

/-! ### Forward declarations -/

/-- The tokens of `struct NAME;`, which `__isl_export` may stand in front of or inside. -/
def forwardTokens (m n : Nat) (name : String) : List Token :=
  List.replicate m (.word "__isl_export") ++
    .word "struct" :: (List.replicate n (.word "__isl_export") ++ [.word name, .semicolon])

theorem forwardFrom_forwardTokens (m n : Nat) {name : String} (h : name ≠ "__isl_export") :
    forwardFrom .nothing (forwardTokens m n name) = true := by
  have hname : forwardFrom .structWord
      (List.replicate n (.word "__isl_export") ++ [.word name, .semicolon]) = true := by
    induction n with
    | zero => simp [forwardFrom, ForwardState.afterWord, h]
    | succ n ih => simpa [List.replicate_succ, forwardFrom, ForwardState.afterWord] using ih
  induction m with
  | zero => simpa [forwardTokens, forwardFrom, ForwardState.afterWord] using hname
  | succ m ih =>
    simpa [forwardTokens, List.replicate_succ, forwardFrom, ForwardState.afterWord] using ih

theorem forwardTokens_eq_concat (m n : Nat) (name : String) :
    ∃ ts, forwardTokens m n name = ts ++ [.semicolon] ∧ .semicolon ∉ ts := by
  refine ⟨List.replicate m (.word "__isl_export") ++
    .word "struct" :: (List.replicate n (.word "__isl_export") ++ [.word name]), ?_, ?_⟩
  · simp [forwardTokens]
  · simp

theorem isUnbroken_text {p : Layout} (h : p.IsLaidOut) {ts : List Token}
    (hp : p.tokens = ts ++ [.semicolon]) (hts : .semicolon ∉ ts) : IsUnbroken p.text := by
  obtain ⟨q, r, rfl, hq, hr⟩ := List.map_eq_append_iff.mp hp
  obtain ⟨⟨t, g⟩, rfl, ht⟩ := List.map_eq_singleton_iff.mp hr
  have ht : t = .semicolon := ht
  subst ht
  obtain ⟨hlq, -, hg, -⟩ := h.of_append
  have hsemi : ';' ∉ Layout.text q := by
    rw [← List.count_eq_zero, Layout.count_text hlq (by decide) (by decide) (by decide),
      List.count_eq_zero]
    rw [show Layout.tokens q = ts from hq]
    exact hts
  have htext : Layout.text (q ++ [(.semicolon, g)]) = Layout.text q ++ ';' :: g := by
    rw [Layout.text_append, Layout.text_cons]
    simp [Layout.text, Token.text]
  rw [htext]
  exact isUnbroken_append_semicolon hsemi hg

/-! ### Noise -/

/-- The rows of an item that declares no function. -/
inductive Noise : List (List Char) → Prop
  | blank {l} : seen l = [] → Noise [l]
  | directive {l} : IsDirective l → Noise [l]
  | externLine {l} : externWord <+: seen l → IsUnbroken (seen l) → Noise [l]
  | forward {l} {p : Layout} {m n : Nat} {name : String} : seen l = p.text → p.IsLaidOut →
      p.tokens = forwardTokens m n name → name ≠ "__isl_export" → Noise [l]
  | typedef {l s} : typedefWord <+: seen l → ¬commentStart <:+: seen l → seen l = s ++ [';'] →
      ';' ∉ s → Noise [l]
  | brace {l} : seen l = ['\x7d'] → Noise [l]
  | comment {l ls} : commentStart <+: seen l → RunsTo commentEnd (l :: ls) → Noise (l :: ls)
  | block {l ls} : (seen l).getLast? = some '\x7b' → ¬externWord <+: seen l →
      ¬commentStart <:+: seen l → ¬IsDirective l → IsUnbroken (seen l) →
      RunsTo ['\x7d'] (l :: ls) → Noise (l :: ls)

theorem finds_row {l : List Char} (hd : ¬IsDirective l) (hu : IsUnbroken (seen l))
    (h : Search.step .idle (seen l) = ([], .idle)) : Finds ([l].flatMap pieces) [] := by
  rw [List.flatMap_singleton, pieces_of_isUnbroken hd hu]
  exact finds_of_step h

theorem not_isDirective_of_start {t l : List Char} (h : t <+: seen l) (hne : t ≠ [])
    (ht : t.head? ≠ some '#') : ¬IsDirective l := by
  intro hd
  obtain ⟨s, hs⟩ := h
  rw [IsDirective, ← hs, List.head?_append, Option.or_of_isSome (List.isSome_head?.mpr hne)] at hd
  exact ht hd

theorem finds_forward {l : List Char} {p : Layout} {m n : Nat} {name : String}
    (hl : seen l = p.text) (hp : p.IsLaidOut) (htokens : p.tokens = forwardTokens m n name)
    (hname : name ≠ "__isl_export") : Finds ([l].flatMap pieces) [] := by
  have hhash : '#' ∉ p.text :=
    Layout.not_mem_text hp (by decide) (by decide) (by decide) (by decide)
  have hslash : '/' ∉ p.text :=
    Layout.not_mem_text hp (by decide) (by decide) (by decide) (by decide)
  have hbrace : '\x7b' ∉ p.text :=
    Layout.not_mem_text hp (by decide) (by decide) (by decide) (by decide)
  have hd : ¬IsDirective l := by
    intro hd
    rw [IsDirective, hl] at hd
    exact hhash (List.mem_of_head? hd)
  have hu : IsUnbroken (seen l) := by
    rw [hl]
    obtain ⟨ts, hts, hsemi⟩ := forwardTokens_eq_concat m n name
    exact isUnbroken_text hp (htokens.trans hts) hsemi
  refine finds_row hd hu ?_
  have hstruct : declaresStruct p.text = true := by
    rw [declaresStruct, Layout.lex_text hp, htokens]
    exact forwardFrom_forwardTokens m n hname
  have hne : p.text ≠ [] := by
    intro he
    rw [he] at hstruct
    exact absurd hstruct (by simp [declaresStruct, Token.lex_nil, forwardFrom])
  rw [hl, step_idle_of_closed hne (fun hi => hslash (hi.mem (by decide)))
    (fun hlast => hbrace (List.mem_of_getLast? hlast)), hstruct]
  simp

/-- Only the row that a typedef starts on is left out, unless a block opens on it. -/
theorem finds_typedefRow {l : List Char} (hbegin : typedefWord <+: seen l)
    (hcomment : ¬commentStart <:+: seen l) (hopen : (seen l).getLast? ≠ some '\x7b')
    (hu : IsUnbroken (seen l)) : Finds ([l].flatMap pieces) [] := by
  have hd : ¬IsDirective l := not_isDirective_of_start hbegin (by decide) (by decide)
  have hne : seen l ≠ [] := by
    intro he
    rw [he] at hbegin
    exact absurd (List.prefix_nil.mp hbegin) (by decide)
  refine finds_row hd hu ?_
  rw [step_idle_of_closed hne hcomment hopen, List.isPrefixOf_iff_prefix.mpr hbegin]
  simp

theorem finds_typedef {l s : List Char} (hbegin : typedefWord <+: seen l)
    (hcomment : ¬commentStart <:+: seen l) (hl : seen l = s ++ [';']) (hs : ';' ∉ s) :
    Finds ([l].flatMap pieces) [] := by
  refine finds_typedefRow hbegin hcomment ?_ ?_
  · rw [hl, List.getLast?_concat]
    decide
  · rw [hl]
    exact isUnbroken_append_semicolon hs allBlank_nil

theorem finds_comment {l : List Char} {ls : List (List Char)} (hbegin : commentStart <+: seen l)
    (h : RunsTo commentEnd (l :: ls)) : Finds ((l :: ls).flatMap pieces) [] := by
  have hcloses := h.closes (by decide) (by decide)
  have hd : ¬IsDirective l := not_isDirective_of_start hbegin (by decide) (by decide)
  obtain ⟨s, hs⟩ := hbegin
  obtain ⟨q, qs, hq⟩ := exists_breakAfterSemicolons_eq_cons s
  have hbreak : breakAfterSemicolons (commentStart ++ s) = (commentStart ++ q) :: qs :=
    breakAfterSemicolons_cons (fun h => absurd h (by decide))
      (breakAfterSemicolons_cons (fun h => absurd h (by decide)) hq)
  -- However the line is broken, its first piece starts the comment.
  have hstart : commentStart <:+: trim (commentStart ++ q) :=
    IsSolid.infix_trim (by decide) (List.prefix_append ..).isInfix
  have hhead : (trim (commentStart ++ q)).head? = some '/' := by
    rw [head?_trim]
    rfl
  have hne : (trim (commentStart ++ q)).isEmpty = false := by
    rw [List.isEmpty_eq_false_iff]
    intro he
    rw [he] at hhead
    simp at hhead
  have he : externWord.isPrefixOf (trim (commentStart ++ q)) = false := by
    rw [Bool.eq_false_iff]
    intro hp
    obtain ⟨t, ht⟩ := List.isPrefixOf_iff_prefix.mp hp
    rw [← ht] at hhead
    exact absurd hhead (by simp [externWord])
  rw [List.flatMap_cons, pieces_of_not_isDirective hd, ← hs, hbreak, List.map_cons,
    List.cons_append] at hcloses ⊢
  refine hcloses.finds ?_
  simp [Search.step, hne, he, occursIn_iff.mpr hstart]

theorem finds_block {l : List Char} {ls : List (List Char)}
    (hopen : (seen l).getLast? = some '\x7b') (hword : ¬externWord <+: seen l)
    (hcomment : ¬commentStart <:+: seen l) (hd : ¬IsDirective l) (hu : IsUnbroken (seen l))
    (h : RunsTo ['\x7d'] (l :: ls)) : Finds ((l :: ls).flatMap pieces) [] := by
  have hcloses := h.closes (isSolid_singleton (by decide)) (by decide)
  rw [List.flatMap_cons, pieces_of_isUnbroken hd hu, List.singleton_append] at hcloses ⊢
  have hne : (seen l).isEmpty = false := by
    rw [List.isEmpty_eq_false_iff]
    intro he
    rw [he] at hopen
    simp at hopen
  have he : externWord.isPrefixOf (seen l) = false := by
    rw [Bool.eq_false_iff]
    exact fun hp => hword (List.isPrefixOf_iff_prefix.mp hp)
  have hc : occursIn commentStart (seen l) = false := occursIn_eq_false_iff.mpr hcomment
  refine hcloses.finds ?_
  simp [Search.step, hne, he, hc, hopen]

theorem Noise.finds {ls : List (List Char)} (h : Noise ls) : Finds (ls.flatMap pieces) [] := by
  cases h with
  | @blank l hl =>
    refine finds_row ?_ ?_ ?_
    · simp [IsDirective, hl]
    · rw [hl]
      exact isUnbroken_of_not_mem (by simp)
    · rw [hl]
      rfl
  | directive hd =>
    rw [List.flatMap_singleton, pieces_of_isDirective hd]
    exact finds_nil
  | externLine hbegin hu =>
    exact finds_row (not_isDirective_of_start hbegin (by decide) (by decide)) hu
      (step_idle_of_externWord hbegin)
  | forward hl hp htokens hname => exact finds_forward hl hp htokens hname
  | typedef hbegin hcomment hl hs => exact finds_typedef hbegin hcomment hl hs
  | @brace l hl =>
    refine finds_row ?_ ?_ ?_
    · simp [IsDirective, hl]
    · rw [hl]
      exact isUnbroken_of_not_mem (by decide)
    · rw [hl]
      rfl
  | comment hbegin hruns => exact finds_comment hbegin hruns
  | block hopen hword hcomment hd hu hruns => exact finds_block hopen hword hcomment hd hu hruns

end IslBindings.Header
