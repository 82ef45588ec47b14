import IslBindings.Header.Prototype
import IslBindings.Proofs.Token.Layout

/-!
# The logical lines of a row

A text without backslashes has the logical lines of its rows, one row after the other. A
row is cut behind a semicolon that a word follows, as if a line feed stood there.
-/

namespace IslBindings.Header

open Text

/-! ### Markers -/

theorem withoutMarkers_of_some {s tail : List Char} (h : afterMarker? s = some tail) :
    withoutMarkers s = withoutMarkers tail := by
  rw [withoutMarkers]
  split
  · next t ht =>
    rw [h, Option.some.injEq] at ht
    rw [ht]
  · next hn =>
    rw [h] at hn
    exact absurd hn (by simp)

theorem withoutMarkers_nil : withoutMarkers [] = [] := by
  have h : afterMarker? [] = none := by decide
  rw [withoutMarkers]
  split
  · next t ht =>
    rw [h] at ht
    exact absurd ht (by simp)
  · rfl

theorem withoutMarkers_cons {c : Char} {s : List Char} (h : afterMarker? (c :: s) = none) :
    withoutMarkers (c :: s) = c :: withoutMarkers s := by
  rw [withoutMarkers]
  split
  · next t ht =>
    rw [h] at ht
    exact absurd ht (by simp)
  · rfl

theorem afterMarker?_eq_none {s : List Char} (h : ¬subclassMarker <+: s) : afterMarker? s = none := by
  have hp : subclassMarker.isPrefixOf s = false := by
    rw [Bool.eq_false_iff]
    intro hp
    exact h (List.isPrefixOf_iff_prefix.mp hp)
  simp [afterMarker?, hp]

theorem withoutMarkers_of_not_infix {s : List Char} (h : ¬subclassMarker <:+: s) :
    withoutMarkers s = s := by
  induction s with
  | nil => exact withoutMarkers_nil
  | cons c s ih =>
    have hp : ¬subclassMarker <+: c :: s := fun hp => h hp.isInfix
    have hs : ¬subclassMarker <:+: s := fun hs => h (hs.trans (List.suffix_cons c s).isInfix)
    rw [withoutMarkers_cons (afterMarker?_eq_none hp), ih hs]

theorem isSuffix_of_afterMarker? {s tail : List Char} (h : afterMarker? s = some tail) :
    tail <:+ s := by
  simp only [afterMarker?, afterArgument?] at h
  split at h
  · split at h
    · next rest hrest =>
      obtain ⟨⟨before, after⟩, hcut, rfl⟩ := Option.map_eq_some_iff.mp h
      have h1 : after <:+ rest :=
        ⟨before ++ [')'], by rw [eq_append_of_cutAt? hcut, List.append_assoc]⟩
      have h2 : rest <:+ trimStart (s.drop subclassMarker.length) := by
        rw [hrest]
        exact List.suffix_cons ..
      exact h1.trans (h2.trans ((trimStart_isSuffix _).trans (List.drop_suffix ..)))
    · exact absurd h (by simp)
  · exact absurd h (by simp)

theorem mem_of_mem_withoutMarkers {s : List Char} {c : Char} (h : c ∈ withoutMarkers s) : c ∈ s := by
  induction s using withoutMarkers.induct with
  | case1 s tail ht ih =>
    rw [withoutMarkers_of_some ht] at h
    exact (isSuffix_of_afterMarker? ht).mem (ih h)
  | case2 hn =>
    rwa [withoutMarkers_nil] at h
  | case3 d s hn ih =>
    rw [withoutMarkers_cons hn] at h
    rcases List.mem_cons.mp h with rfl | h
    · exact List.mem_cons_self ..
    · exact List.mem_cons_of_mem _ (ih h)

/-! ### Rows -/

/-- A row as the search sees it: without markers and trimmed. -/
def seen (row : List Char) : List Char := trim (withoutMarkers (trim row))

def pieces (row : List Char) : List (List Char) := piecesOf (withoutMarkers (trim row))

def pieceRows (s : List Char) : List (List Char) := (rows s).flatMap pieces

theorem pieces_congr {r s : List Char} (h : trim r = trim s) : pieces r = pieces s := by
  rw [pieces, pieces, h]

theorem seen_of_blank {r : List Char} (h : AllBlank r) : seen r = [] := by
  rw [seen, trim_of_blank h, withoutMarkers_of_not_infix (by decide)]
  rfl

theorem seen_of_not_infix {r : List Char} (h : ¬subclassMarker <:+: trim r) : seen r = trim r := by
  rw [seen, withoutMarkers_of_not_infix h, trim_trim]

theorem pieceRows_append (a b : List Char) :
    pieceRows (a ++ '\n' :: b) = pieceRows a ++ pieceRows b := by
  rw [pieceRows, rows_append_line_feed, List.flatMap_append]
  rfl

theorem endsWithBackslash_of_not_mem {r : List Char} (h : '\\' ∉ r) :
    endsWithBackslash (withoutMarkers (trim r)) = false := by
  rw [endsWithBackslash, beq_eq_false_iff_ne]
  intro hl
  have hm : '\\' ∈ withoutMarkers (trim r) := List.mem_of_getLast? hl
  exact h ((trim_isInfix r).mem (mem_of_mem_withoutMarkers hm))

theorem logicalFrom_eq_flatMap {ls : List (List Char)} (h : ∀ l ∈ ls, '\\' ∉ l) :
    logicalFrom none ls = ls.flatMap pieces := by
  induction ls with
  | nil => rw [logicalFrom_none_nil, List.flatMap_nil]
  | cons l ls ih =>
    have hl := endsWithBackslash_of_not_mem (h l (List.mem_cons_self ..))
    rw [logicalFrom_closed ls hl, ih fun m hm => h m (List.mem_cons_of_mem _ hm), List.flatMap_cons]
    rfl

/-! ### Breaks -/

theorem wordFollows_spaceOrTab {c : Char} (s : List Char) (h : isSpaceOrTab c = true) :
    wordFollows (c :: s) = wordFollows s := by
  simp [wordFollows, h]

theorem wordFollows_of_blank {g : List Char} (h : AllBlank g) : wordFollows g = false := by
  rw [wordFollows]
  split
  · rfl
  · next c s hs =>
    have hm : c ∈ g := (List.dropWhile_suffix _).mem (hs ▸ List.mem_cons_self ..)
    exact isWordChar_eq_false_of_isBlank (h c hm)

/-- No word follows a semicolon of the text. -/
def IsUnbroken (s : List Char) : Prop := ∀ a b, s = a ++ ';' :: b → wordFollows b = false

theorem IsUnbroken.of_append {a s : List Char} (h : IsUnbroken (a ++ s)) : IsUnbroken s := by
  intro b c hs
  exact h (a ++ b) c (by rw [hs, List.append_assoc])

theorem wordFollows_append_of_wordFollows {b : List Char} (c : List Char)
    (h : wordFollows b = true) : wordFollows (b ++ c) = true := by
  induction b with
  | nil => exact absurd h (by decide)
  | cons d b ih =>
    by_cases hd : isSpaceOrTab d = true
    · rw [wordFollows_spaceOrTab b hd] at h
      rw [List.cons_append, wordFollows_spaceOrTab _ hd, ih h]
    · simp only [wordFollows, List.cons_append, List.dropWhile_cons, if_neg hd] at h ⊢
      exact h

theorem IsUnbroken.of_infix {r s : List Char} (h : IsUnbroken s) (hr : r <:+: s) :
    IsUnbroken r := by
  intro b c hs
  obtain ⟨u, v, huv⟩ := hr
  rw [Bool.eq_false_iff]
  intro hw
  have hfalse := h (u ++ b) (c ++ v) (by rw [← huv, hs]; simp)
  rw [wordFollows_append_of_wordFollows v hw] at hfalse
  exact absurd hfalse (by simp)

theorem isUnbroken_append {a s : List Char} (ha : ';' ∉ a) (h : IsUnbroken s) :
    IsUnbroken (a ++ s) := by
  intro b c hs
  rcases List.append_eq_append_iff.mp hs with ⟨k, -, hk⟩ | ⟨k, rfl, hk⟩
  · exact h k c hk
  · cases k with
    | nil => exact h [] c hk.symm
    | cons d k =>
      rw [List.cons_append, List.cons.injEq] at hk
      rw [hk.1] at ha
      exact absurd (List.mem_append_right _ (List.mem_cons_self ..)) ha

theorem isUnbroken_of_not_mem {s : List Char} (h : ';' ∉ s) : IsUnbroken s := by
  intro a b hs
  rw [hs] at h
  exact absurd (List.mem_append_right _ (List.mem_cons_self ..)) h

theorem isUnbroken_append_semicolon {s g : List Char} (h : ';' ∉ s) (hg : AllBlank g) :
    IsUnbroken (s ++ ';' :: g) := by
  refine isUnbroken_append h fun a b hs => ?_
  cases a with
  | nil =>
    rw [List.nil_append, List.cons.injEq] at hs
    rw [← hs.2]
    exact wordFollows_of_blank hg
  | cons c a =>
    rw [List.cons_append, List.cons.injEq] at hs
    have hm : ';' ∈ g := by
      rw [hs.2]
      exact List.mem_append_right _ (List.mem_cons_self ..)
    exact absurd (hg _ hm) (by decide)

theorem semicolon_cases (c : Char) (s : List Char) :
    (c = ';' ∧ wordFollows s = true) ∨ (c = ';' → wordFollows s = false) := by
  by_cases hc : c = ';'
  · cases hw : wordFollows s with
    | true => exact Or.inl ⟨hc, rfl⟩
    | false => exact Or.inr fun _ => rfl
  · exact Or.inr fun h => absurd h hc

theorem breakAfterSemicolons_ne_nil (s : List Char) : breakAfterSemicolons s ≠ [] := by
  cases s with
  | nil => simp [breakAfterSemicolons]
  | cons c s =>
    simp only [breakAfterSemicolons]
    split
    · simp
    · split <;> simp

theorem exists_breakAfterSemicolons_eq_cons (s : List Char) :
    ∃ p ps, breakAfterSemicolons s = p :: ps := by
  cases h : breakAfterSemicolons s with
  | nil => exact absurd h (breakAfterSemicolons_ne_nil s)
  | cons p ps => exact ⟨p, ps, rfl⟩

theorem breakAfterSemicolons_semicolon {s : List Char} (h : wordFollows s = true) :
    breakAfterSemicolons (';' :: s) = [';'] :: breakAfterSemicolons s := by
  simp [breakAfterSemicolons, h]

theorem breakAfterSemicolons_cons {c : Char} {s p : List Char} {ps : List (List Char)}
    (hc : c = ';' → wordFollows s = false) (h : breakAfterSemicolons s = p :: ps) :
    breakAfterSemicolons (c :: s) = (c :: p) :: ps := by
  have hbreak : ¬(c = ';' ∧ wordFollows s = true) := by
    intro ⟨h1, h2⟩
    rw [hc h1] at h2
    simp at h2
  simp [breakAfterSemicolons, hbreak, h]

theorem prefix_of_breakAfterSemicolons {s p : List Char} {ps : List (List Char)}
    (h : breakAfterSemicolons s = p :: ps) : p <+: s := by
  induction s generalizing p ps with
  | nil =>
    rw [breakAfterSemicolons, List.cons.injEq] at h
    exact h.1 ▸ List.nil_prefix
  | cons c s ih =>
    rcases semicolon_cases c s with ⟨rfl, hw⟩ | hf
    · rw [breakAfterSemicolons_semicolon hw, List.cons.injEq] at h
      rw [← h.1]
      exact ⟨s, rfl⟩
    · obtain ⟨q, qs, hq⟩ := exists_breakAfterSemicolons_eq_cons s
      rw [breakAfterSemicolons_cons hf hq, List.cons.injEq] at h
      rw [← h.1]
      exact (List.prefix_cons_inj c).mpr (ih hq)

theorem isInfix_of_mem_breakAfterSemicolons {s q : List Char} (h : q ∈ breakAfterSemicolons s) :
    q <:+: s := by
  induction s with
  | nil =>
    rw [breakAfterSemicolons, List.mem_singleton] at h
    exact h ▸ List.infix_refl _
  | cons c s ih =>
    have hs : s <:+: c :: s := (List.suffix_cons c s).isInfix
    obtain ⟨p, ps, hp⟩ := exists_breakAfterSemicolons_eq_cons (c :: s)
    have hstart := prefix_of_breakAfterSemicolons hp
    rw [hp, List.mem_cons] at h
    rcases h with rfl | h
    · exact hstart.isInfix
    · refine (ih ?_).trans hs
      rcases semicolon_cases c s with ⟨rfl, hw⟩ | hf
      · rw [breakAfterSemicolons_semicolon hw, List.cons.injEq] at hp
        rw [hp.2]
        exact h
      · obtain ⟨r, rs, hr⟩ := exists_breakAfterSemicolons_eq_cons s
        rw [breakAfterSemicolons_cons hf hr, List.cons.injEq] at hp
        rw [hr, hp.2]
        exact List.mem_cons_of_mem _ h

theorem breakAfterSemicolons_of_isUnbroken {s : List Char} (h : IsUnbroken s) :
    breakAfterSemicolons s = [s] := by
  induction s with
  | nil => rfl
  | cons c s ih =>
    have hs : IsUnbroken s := h.of_append (a := [c])
    exact breakAfterSemicolons_cons (fun hc => h [] s (by rw [hc]; rfl)) (ih hs)

theorem wordFollows_append (a : List Char) {b : List Char} (hb : wordFollows b = false) :
    wordFollows (a ++ b) = wordFollows a := by
  induction a with
  | nil => exact hb
  | cons c a ih =>
    by_cases hc : isSpaceOrTab c = true
    · rw [List.cons_append, wordFollows_spaceOrTab _ hc, wordFollows_spaceOrTab _ hc, ih]
    · simp [wordFollows, hc]

theorem wordFollows_append_semicolon (a b : List Char) :
    wordFollows (a ++ ';' :: b) = wordFollows a := by
  refine wordFollows_append a ?_
  have hs : isSpaceOrTab ';' = false := by decide
  have hw : isWordChar ';' = false := by decide
  simp [wordFollows, hs, hw]

theorem breakAfterSemicolons_append (a : List Char) {b : List Char} (h : wordFollows b = true) :
    breakAfterSemicolons (a ++ ';' :: b) =
      breakAfterSemicolons (a ++ [';']) ++ breakAfterSemicolons b := by
  induction a with
  | nil => exact breakAfterSemicolons_semicolon h
  | cons c a ih =>
    obtain ⟨p, ps, hp⟩ := exists_breakAfterSemicolons_eq_cons (a ++ [';'])
    have hb := wordFollows_append_semicolon a b
    have he := wordFollows_append_semicolon a []
    rw [List.cons_append, List.cons_append]
    rcases semicolon_cases c a with ⟨rfl, ha⟩ | hw
    · rw [breakAfterSemicolons_semicolon (hb.trans ha), breakAfterSemicolons_semicolon (he.trans ha),
        ih, List.cons_append]
    · rw [hp, List.cons_append] at ih
      rw [breakAfterSemicolons_cons (fun hcs => hb.trans (hw hcs)) ih,
        breakAfterSemicolons_cons (fun hcs => he.trans (hw hcs)) hp, List.cons_append]

theorem map_trim_breakAfterSemicolons_blank_append {g : List Char} (s : List Char)
    (h : AllBlank g) :
    (breakAfterSemicolons (g ++ s)).map trim = (breakAfterSemicolons s).map trim := by
  induction g with
  | nil => rfl
  | cons c g ih =>
    obtain ⟨hc, hg⟩ := h.of_cons
    obtain ⟨p, ps, hp⟩ := exists_breakAfterSemicolons_eq_cons (g ++ s)
    have hne : c ≠ ';' := by
      rintro rfl
      exact absurd hc (by decide)
    have hblank : AllBlank [c] := fun d hd => by rw [List.mem_singleton.mp hd]; exact hc
    have ih := ih hg
    rw [hp, List.map_cons] at ih
    have htrim : trim (c :: p) = trim p := trim_append_left_of_blank p hblank
    rw [List.cons_append, breakAfterSemicolons_cons (fun h => absurd h hne) hp, List.map_cons, htrim,
      ih]

theorem map_trim_breakAfterSemicolons_append_blank (s : List Char) {g : List Char}
    (h : AllBlank g) :
    (breakAfterSemicolons (s ++ g)).map trim = (breakAfterSemicolons s).map trim := by
  have hg : breakAfterSemicolons g = [g] := by
    refine breakAfterSemicolons_of_isUnbroken (isUnbroken_of_not_mem fun hm => ?_)
    exact absurd (h _ hm) (by decide)
  -- The blanks lengthen the last piece only.
  suffices hs : ∃ ps p, breakAfterSemicolons s = ps ++ [p] ∧
      breakAfterSemicolons (s ++ g) = ps ++ [p ++ g] by
    obtain ⟨ps, p, hs, hsg⟩ := hs
    rw [hs, hsg, List.map_append, List.map_append, List.map_singleton, List.map_singleton,
      trim_append_right_of_blank p h]
  induction s with
  | nil => exact ⟨[], [], rfl, hg⟩
  | cons c s ih =>
    obtain ⟨ps, p, hs, hsg⟩ := ih
    have hw := wordFollows_append s (wordFollows_of_blank h)
    rcases semicolon_cases c s with ⟨rfl, hf⟩ | hf
    · refine ⟨[';'] :: ps, p, ?_, ?_⟩
      · rw [breakAfterSemicolons_semicolon hf, hs, List.cons_append]
      · rw [List.cons_append, breakAfterSemicolons_semicolon (hw.trans hf), hsg, List.cons_append]
    · cases ps with
      | nil =>
        exact ⟨[], c :: p, breakAfterSemicolons_cons hf hs,
          breakAfterSemicolons_cons (fun hcs => hw.trans (hf hcs)) hsg⟩
      | cons q ps =>
        exact ⟨(c :: q) :: ps, p, breakAfterSemicolons_cons hf hs,
          breakAfterSemicolons_cons (fun hcs => hw.trans (hf hcs)) hsg⟩

theorem map_trim_breakAfterSemicolons_trim (s : List Char) :
    (breakAfterSemicolons (trim s)).map trim = (breakAfterSemicolons s).map trim := by
  obtain ⟨g, k, hg, hk, hs⟩ := exists_trim_append s
  calc (breakAfterSemicolons (trim s)).map trim
      = (breakAfterSemicolons (trim s ++ k)).map trim :=
        (map_trim_breakAfterSemicolons_append_blank _ hk).symm
    _ = (breakAfterSemicolons (g ++ (trim s ++ k))).map trim :=
        (map_trim_breakAfterSemicolons_blank_append _ hg).symm
    _ = (breakAfterSemicolons s).map trim := by rw [← List.append_assoc, ← hs]

/-! ### The pieces of a row -/

def IsDirective (row : List Char) : Prop := (seen row).head? = some '#'

theorem piecesOf_trim (s : List Char) : piecesOf (trim s) = piecesOf s := by
  have hhead : (trimStart (trim s)).head? = (trimStart s).head? := by rw [trimStart_trim, head?_trim]
  rw [piecesOf, piecesOf, hhead, map_trim_breakAfterSemicolons_trim]

theorem pieces_eq (r : List Char) : pieces r = piecesOf (seen r) := (piecesOf_trim _).symm

theorem pieces_nil : pieces [] = [[]] := by
  rw [pieces_eq, seen_of_blank allBlank_nil]
  rfl

theorem pieces_of_isDirective {r : List Char} (h : IsDirective r) : pieces r = [] := by
  have hd : ((trimStart (seen r)).head? == some '#') = true := by
    rw [beq_iff_eq, seen, trimStart_trim]
    exact h
  rw [pieces_eq, piecesOf, if_pos hd]

theorem pieces_of_not_isDirective {r : List Char} (h : ¬IsDirective r) :
    pieces r = (breakAfterSemicolons (seen r)).map trim := by
  have hd : ((trimStart (seen r)).head? == some '#') = false := by
    rw [beq_eq_false_iff_ne, seen, trimStart_trim]
    exact h
  rw [pieces_eq, piecesOf, if_neg (by rw [hd]; simp)]

theorem pieces_of_isUnbroken {r : List Char} (h : ¬IsDirective r) (hu : IsUnbroken (seen r)) :
    pieces r = [seen r] := by
  rw [pieces_of_not_isDirective h, breakAfterSemicolons_of_isUnbroken hu, List.map_singleton, seen,
    trim_trim]

/-! ### Plain texts -/

/-- A text without markers, directives and backslashes. -/
structure IsPlainText (s : List Char) : Prop where
  noMarker : ¬subclassMarker <:+: s
  noDirective : '#' ∉ s
  noBackslash : '\\' ∉ s

theorem IsPlainText.of_infix {r s : List Char} (h : IsPlainText s) (hr : r <:+: s) :
    IsPlainText r where
  noMarker hm := h.noMarker (hm.trans hr)
  noDirective hm := h.noDirective (hr.mem hm)
  noBackslash hm := h.noBackslash (hr.mem hm)

theorem IsPlainText.seen {r : List Char} (h : IsPlainText r) : seen r = trim r :=
  seen_of_not_infix (h.of_infix (trim_isInfix r)).noMarker

theorem IsPlainText.not_isDirective {r : List Char} (h : IsPlainText r) : ¬IsDirective r := by
  intro hd
  rw [IsDirective, h.seen] at hd
  exact h.noDirective ((trim_isInfix r).mem (List.mem_of_head? hd))

theorem IsPlainText.pieces {r : List Char} (h : IsPlainText r) :
    pieces r = (breakAfterSemicolons r).map trim := by
  rw [pieces_of_not_isDirective h.not_isDirective, h.seen, map_trim_breakAfterSemicolons_trim]

theorem exists_rows_append (a : List Char) :
    ∃ xs l, rows a = xs ++ [l] ∧ ∀ b y ys, rows b = y :: ys → rows (a ++ b) = xs ++ (l ++ y) :: ys := by
  induction a with
  | nil => exact ⟨[], [], rfl, fun b y ys h => h⟩
  | cons c a ih =>
    obtain ⟨xs, l, ha, hb⟩ := ih
    by_cases hc : c = '\n'
    · subst hc
      refine ⟨[] :: xs, l, by rw [rows_line_feed, ha, List.cons_append], fun b y ys h => ?_⟩
      rw [List.cons_append, rows_line_feed, hb b y ys h, List.cons_append]
    · cases xs with
      | nil =>
        exact ⟨[], c :: l, rows_cons hc ha, fun b y ys h => rows_cons hc (hb b y ys h)⟩
      | cons x xs =>
        exact ⟨(c :: x) :: xs, l, rows_cons hc ha, fun b y ys h => rows_cons hc (hb b y ys h)⟩

theorem wordFollows_of_rows_eq_cons {b y : List Char} {ys : List (List Char)}
    (hy : rows b = y :: ys) (h : wordFollows b = true) : wordFollows y = true := by
  induction b generalizing y ys with
  | nil => exact absurd h (by decide)
  | cons c b ih =>
    obtain ⟨r, rs, hr⟩ := exists_rows_eq_cons b
    by_cases hc : isSpaceOrTab c = true
    · have hne : c ≠ '\n' := by
        rintro rfl
        exact absurd hc (by decide)
      rw [rows_cons hne hr, List.cons.injEq] at hy
      rw [wordFollows_spaceOrTab b hc] at h
      rw [← hy.1, wordFollows_spaceOrTab r hc]
      exact ih hr h
    · have hkeep : ∀ s : List Char, wordFollows (c :: s) = isWordChar c := by
        intro s
        simp [wordFollows, hc]
      rw [hkeep] at h
      have hne : c ≠ '\n' := by
        rintro rfl
        exact absurd h (by decide)
      rw [rows_cons hne hr, List.cons.injEq] at hy
      rw [← hy.1, hkeep]
      exact h

/-- A semicolon with a word behind it ends a row as a line feed does. -/
theorem pieceRows_append_of_wordFollows {a b : List Char} (hp : IsPlainText (a ++ ';' :: b))
    (h : wordFollows b = true) :
    pieceRows (a ++ ';' :: b) = pieceRows (a ++ [';']) ++ pieceRows b := by
  obtain ⟨xs, l, -, hrows⟩ := exists_rows_append a
  obtain ⟨y, ys, hy⟩ := exists_rows_eq_cons b
  have hsemi : rows [';'] = [[';']] := rfl
  have hb : rows (';' :: b) = (';' :: y) :: ys := rows_cons (by decide) hy
  have hw : wordFollows y = true := wordFollows_of_rows_eq_cons hy h
  have hmem : l ++ ';' :: y ∈ rows (a ++ ';' :: b) := by
    rw [hrows _ _ _ hb]
    exact List.mem_append_right _ (List.mem_cons_self ..)
  have hl : IsPlainText (l ++ ';' :: y) := hp.of_infix (isInfix_of_mem_rows hmem)
  have hsuffix : y <:+: l ++ ';' :: y := ⟨l ++ [';'], [], by simp⟩
  have hstart : l ++ [';'] <:+: l ++ ';' :: y := ⟨[], y, by simp⟩
  -- Only the row with the semicolon matters: the rows around it are the same on both sides.
  have hbreak : pieces (l ++ ';' :: y) = pieces (l ++ [';']) ++ pieces y := by
    rw [hl.pieces, (hl.of_infix hstart).pieces, (hl.of_infix hsuffix).pieces,
      breakAfterSemicolons_append l hw, List.map_append]
  rw [pieceRows, pieceRows, pieceRows, hrows _ _ _ hb, hrows _ _ _ hsemi, hy, List.flatMap_append,
    List.flatMap_append, List.flatMap_cons, List.flatMap_cons, List.flatMap_cons, hbreak]
  simp

end IslBindings.Header
