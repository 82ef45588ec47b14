import IslBindings.Proofs.Header.Found

/-!
# Extraction

A header is put together from prototypes and noise. The search finds its prototypes, all
of them, in order and with the tokens that they are written with, whatever noise stands
between them and however they are laid out.
-/

namespace IslBindings.Header

open Text Token

/-! ### Plain texts -/

theorem isPlainText_of_blank {g : List Char} (h : AllBlank g) : IsPlainText g where
  noMarker hm := absurd (h '_' (hm.mem (by decide))) (by decide)
  noDirective hm := absurd (h _ hm) (by decide)
  noBackslash hm := absurd (h _ hm) (by decide)

theorem IsPlainText.append_cons {a b : List Char} {c : Char} (ha : IsPlainText a)
    (hb : IsPlainText b) (hc : c ∉ subclassMarker) (hhash : c ≠ '#') (hslash : c ≠ '\\') :
    IsPlainText (a ++ c :: b) where
  noMarker := not_infix_append_cons hc ha.noMarker hb.noMarker
  noDirective := by
    rw [List.mem_append, List.mem_cons, not_or, not_or]
    exact ⟨ha.noDirective, hhash.symm, hb.noDirective⟩
  noBackslash := by
    rw [List.mem_append, List.mem_cons, not_or, not_or]
    exact ⟨ha.noBackslash, hslash.symm, hb.noBackslash⟩

theorem IsPlainText.blank_append {g s : List Char} (h : IsPlainText s) (hg : AllBlank g) :
    IsPlainText (g ++ s) := by
  induction g with
  | nil => exact h
  | cons c g ih =>
    obtain ⟨hc, hg⟩ := hg.of_cons
    have hmarker : c ∉ subclassMarker := by
      intro hm
      have hword : subclassMarker.all isWordChar = true := by decide
      rw [isBlank_eq_false_of_isWordChar (List.all_eq_true.mp hword c hm)] at hc
      exact absurd hc (by simp)
    refine (isPlainText_of_blank allBlank_nil).append_cons (ih hg) hmarker ?_ ?_
    · rintro rfl
      exact absurd hc (by decide)
    · rintro rfl
      exact absurd hc (by decide)

theorem IsPrototype.exists_text_eq_concat {p : Layout} (h : IsPrototype p) :
    ∃ s, p.text = s ++ [';'] := by
  obtain ⟨o, gap, hp, -⟩ := h.shape
  refine ⟨o.layout.text ++ (')' :: gap), ?_⟩
  rw [hp, Layout.text_append, List.append_assoc]
  simp [Layout.text, Token.text]

theorem IsPrototype.isPlainText_append {p : Layout} (h : IsPrototype p) {s : List Char}
    (hs : IsPlainText s) : IsPlainText (p.text ++ s) := by
  obtain ⟨t, ht⟩ := h.exists_text_eq_concat
  have hplain := h.isPlainText
  rw [ht] at hplain ⊢
  rw [List.append_assoc]
  exact (hplain.of_infix (List.prefix_append t [';']).isInfix).append_cons hs (by decide) (by decide)
    (by decide)

/-! ### Blanks around a row -/

theorem pieceRows_blank_append {g : List Char} (s : List Char) (hg : AllBlank g) (hn : '\n' ∉ g) :
    pieceRows (g ++ s) = pieceRows s := by
  obtain ⟨r, rs, hr⟩ := exists_rows_eq_cons s
  rw [pieceRows, pieceRows, rows_append g hn hr, hr, List.flatMap_cons, List.flatMap_cons,
    pieces_congr (trim_append_left_of_blank r hg)]

theorem pieceRows_append_blank (s : List Char) {g : List Char} (hg : AllBlank g) (hn : '\n' ∉ g) :
    pieceRows (s ++ g) = pieceRows s := by
  obtain ⟨xs, l, hs, hrows⟩ := exists_rows_append s
  rw [pieceRows, pieceRows, hrows g g [] (rows_of_not_mem hn), hs, List.flatMap_append,
    List.flatMap_append, List.flatMap_singleton, List.flatMap_singleton,
    pieces_congr (trim_append_right_of_blank l hg)]

theorem finds_blank {g : List Char} (hg : AllBlank g) (hn : '\n' ∉ g) : Finds (pieceRows g) [] := by
  have hrows := pieceRows_blank_append [] hg hn
  have hnil : pieceRows [] = [[]] := by
    rw [pieceRows, rows_nil, List.flatMap_singleton, pieces_nil]
  rw [List.append_nil, hnil] at hrows
  rw [hrows]
  exact finds_of_step rfl

/-! ### Prototypes one behind the other -/

/-- Prototypes with blanks around them. The flag says that a prototype ends where the text
starts, on the same row. -/
inductive Paragraph : Bool → List Char → List Layout → Prop
  | done {behind g} : AllBlank g → '\n' ∉ g → Paragraph behind g []
  | lineFeed {behind g s ps} : AllBlank g → '\n' ∉ g → Paragraph false s ps →
      Paragraph behind (g ++ '\n' :: s) ps
  | first {g p s ps} : AllBlank g → '\n' ∉ g → IsPrototype p → Paragraph true s ps →
      Paragraph false (g ++ (p.text ++ s)) (p :: ps)
  /-- What follows on the row of a semicolon starts with a word. -/
  | next {g p w s ps} : (∀ c ∈ g, isSpaceOrTab c = true) → IsPrototype p →
      p.tokens.head? = some (.word w) → Paragraph true s ps →
      Paragraph true (g ++ (p.text ++ s)) (p :: ps)

theorem allBlank_of_isSpaceOrTab {g : List Char} (h : ∀ c ∈ g, isSpaceOrTab c = true) :
    AllBlank g ∧ '\n' ∉ g :=
  ⟨fun c hc => isBlank_of_isSpaceOrTab (h c hc), fun hm => absurd (h _ hm) (by decide)⟩

theorem Paragraph.isPlainText {behind : Bool} {s : List Char} {ps : List Layout}
    (h : Paragraph behind s ps) : IsPlainText s := by
  induction h with
  | done hg _ => exact isPlainText_of_blank hg
  | lineFeed hg _ _ ih =>
    exact (isPlainText_of_blank hg).append_cons ih (by decide) (by decide) (by decide)
  | first hg _ hp _ ih => exact (hp.isPlainText_append ih).blank_append hg
  | next hg hp _ _ ih =>
    exact (hp.isPlainText_append ih).blank_append (allBlank_of_isSpaceOrTab hg).1

theorem Paragraph.isPrototype {behind : Bool} {s : List Char} {ps : List Layout}
    (h : Paragraph behind s ps) : ∀ p ∈ ps, IsPrototype p := by
  induction h with
  | done _ _ => simp
  | lineFeed _ _ _ ih => exact ih
  | first _ _ hp _ ih => exact List.forall_mem_cons.mpr ⟨hp, ih⟩
  | next _ hp _ _ ih => exact List.forall_mem_cons.mpr ⟨hp, ih⟩

theorem wordFollows_text {g s : List Char} {p : Layout} {w : String}
    (hg : ∀ c ∈ g, isSpaceOrTab c = true) (hp : p.IsLaidOut)
    (hw : p.tokens.head? = some (.word w)) : wordFollows (g ++ (p.text ++ s)) = true := by
  induction g with
  | cons c g ih =>
    rw [List.cons_append, wordFollows_spaceOrTab _ (hg c (List.mem_cons_self ..))]
    exact ih fun d hd => hg d (List.mem_cons_of_mem _ hd)
  | nil =>
    cases p with
    | nil => simp [Layout.tokens] at hw
    | cons tk p =>
      obtain ⟨t, k⟩ := tk
      rw [Layout.tokens_cons, List.head?_cons, Option.some.injEq] at hw
      subst hw
      obtain ⟨hne, hword⟩ := hp.1
      obtain ⟨c, r, hcr⟩ := List.exists_cons_of_ne_nil hne
      have hc : isWordChar c = true := hword c (by rw [hcr]; exact List.mem_cons_self ..)
      have hspace : ¬isSpaceOrTab c = true := by
        intro hs
        rw [isWordChar_eq_false_of_isBlank (isBlank_of_isSpaceOrTab hs)] at hc
        exact absurd hc (by simp)
      have htext : [] ++ (Layout.text ((.word w, k) :: p) ++ s) =
          c :: (r ++ (k ++ (Layout.text p ++ s))) := by
        rw [Layout.text_cons, show (Token.word w).text.toList = c :: r from hcr]
        simp
      rw [htext]
      simpa [wordFollows, hspace] using hc

theorem Paragraph.finds {behind : Bool} {s : List Char} {ps : List Layout}
    (h : Paragraph behind s ps) :
    (behind = false → Finds (pieceRows s) (ps.map fun p => (joined p).text)) ∧
      (behind = true → ∀ q, IsPrototype q →
        Finds (pieceRows (q.text ++ s)) ((q :: ps).map fun p => (joined p).text)) := by
  -- A prototype in front of the text is carried along, as its last row goes on in the text.
  induction h with
  | done hg hn =>
    refine ⟨fun _ => finds_blank hg hn, fun _ q hq => ?_⟩
    rw [pieceRows_append_blank _ hg hn]
    exact hq.finds
  | @lineFeed behind g s ps hg hn _ ih =>
    have hrest := ih.1 rfl
    refine ⟨fun _ => ?_, fun _ q hq => ?_⟩
    · rw [pieceRows_append]
      exact (finds_blank hg hn).append hrest
    · rw [← List.append_assoc, pieceRows_append, pieceRows_append_blank _ hg hn]
      exact hq.finds.append hrest
  | @first g p s ps hg hn hp _ ih =>
    refine ⟨fun _ => ?_, fun hfalse => absurd hfalse (by simp)⟩
    rw [pieceRows_blank_append _ hg hn]
    exact ih.2 rfl p hp
  | @next g p w s ps hg hp hw hs ih =>
    refine ⟨fun hfalse => absurd hfalse (by simp), fun _ q hq => ?_⟩
    obtain ⟨hblank, hn⟩ := allBlank_of_isSpaceOrTab hg
    have hplain := hq.isPlainText_append ((hp.isPlainText_append hs.isPlainText).blank_append hblank)
    have hfound := hq.finds
    obtain ⟨t, ht⟩ := hq.exists_text_eq_concat
    rw [ht] at hplain hfound
    rw [List.append_assoc, List.singleton_append] at hplain
    rw [ht, List.append_assoc, List.singleton_append,
      pieceRows_append_of_wordFollows hplain (wordFollows_text hg hp.isLaidOut hw),
      pieceRows_blank_append _ hblank hn]
    exact hfound.append (ih.2 rfl p hp)

/-! ### Headers -/

/-- A header of paragraphs and noise, each on rows of its own, with its prototypes. -/
inductive IsHeader : List Char → List Layout → Prop
  | paragraph {s ps} : Paragraph false s ps → IsHeader s ps
  | noise {ls} : (∀ l ∈ ls, '\n' ∉ l ∧ '\\' ∉ l) → Noise ls → IsHeader (['\n'].intercalate ls) []
  | append {a b ps qs} : IsHeader a ps → IsHeader b qs → IsHeader (a ++ '\n' :: b) (ps ++ qs)

theorem Noise.ne_nil {ls : List (List Char)} (h : Noise ls) : ls ≠ [] := by
  cases h <;> simp

theorem IsHeader.not_mem {s : List Char} {ps : List Layout} (h : IsHeader s ps) : '\\' ∉ s := by
  induction h with
  | paragraph hs => exact hs.isPlainText.noBackslash
  | noise hrows _ => exact not_mem_intercalate (by decide) fun l hl => (hrows l hl).2
  | append _ _ iha ihb =>
    rw [List.mem_append, List.mem_cons, not_or, not_or]
    exact ⟨iha, by decide, ihb⟩

theorem IsHeader.finds {s : List Char} {ps : List Layout} (h : IsHeader s ps) :
    Finds (pieceRows s) (ps.map fun p => (joined p).text) := by
  induction h with
  | paragraph hs => exact hs.finds.1 rfl
  | noise hrows hnoise =>
    rw [pieceRows, rows_intercalate hnoise.ne_nil fun l hl => (hrows l hl).1]
    exact hnoise.finds
  | append _ _ iha ihb =>
    rw [pieceRows_append, List.map_append]
    exact iha.append ihb

theorem IsHeader.isPrototype {s : List Char} {ps : List Layout} (h : IsHeader s ps) :
    ∀ p ∈ ps, IsPrototype p := by
  induction h with
  | paragraph hs => exact hs.isPrototype
  | noise _ _ => simp
  | append _ _ iha ihb =>
    intro p hp
    rcases List.mem_append.mp hp with hp | hp
    · exact iha p hp
    · exact ihb p hp

/-- The prototypes that a header declares are found, whatever stands between them, and read
as the tokens that they are written with. -/
theorem prototypes_of_isHeader {text : String} {ps : List Layout} (h : IsHeader text.toList ps) :
    prototypes text = ps.map (fun p => String.ofList (joined p).text) ∧
      (prototypes text).map Token.ofText = ps.map Layout.tokens := by
  have hfound : prototypes text = ps.map (fun p => String.ofList (joined p).text) := by
    rw [prototypes, searchFrom_logicalLines h.not_mem h.finds, List.map_map]
    rfl
  refine ⟨hfound, ?_⟩
  rw [hfound, List.map_map]
  refine List.map_congr_left fun p hp => ?_
  have hlaid := isLaidOut_joined (h.isPrototype p hp).isLaidOut
  show Token.lex (String.ofList (joined p).text).toList = p.tokens
  rw [String.toList_ofList, Layout.lex_text hlaid, tokens_joined]

/-- A word behind a semicolon starts a line of its own, in noise as elsewhere, markers go
before comments are seen, and only a word starts a line of its own. -/
theorem prototypes_between_breaks :
    prototypes "/* one */ two; three\nint isl_a_f(int x);\n" = ["three int isl_a_f(int x);"] ∧
      prototypes "extern int isl_x; int isl_a_f(int x);\n" = ["int isl_a_f(int x);"] ∧
      prototypes "int x; struct s \x7b\n\x7d;\nint isl_a_f(int x);\n" =
        ["int x; struct s \x7b \x7d; int isl_a_f(int x);"] ∧
      prototypes "/* __isl_subclass(*/ x)\nint isl_a_f(int x);\n" = [] ∧
      prototypes "int isl_a_f(int x); *isl_a_g(int y);\n" =
        ["int isl_a_f(int x); *isl_a_g(int y);"] ∧
      prototypes "struct __isl_export;\nint isl_a_f(int x);\n" =
        ["struct __isl_export; int isl_a_f(int x);"] := by
  decide +kernel

/-! ### A header -/

def sampleOpening : Opening where
  head := [(.word "int", [' ']), (.word "isl_a_f", [])]
  gap := []
  inner := [(.word "int", [' ']), (.word "x", []), (.comma, ['\n', '\t']), (.word "int", [' ']),
    (.word "y", [])]

def sample : Layout := sampleOpening.layout ++ [(.closeParen, []), (.semicolon, [])]

theorem isPrototype_sample : IsPrototype sample where
  isLaidOut := by
    simp [sample, sampleOpening, Opening.layout, Layout.IsLaidOut, IsPlain, IsWord, AllBlank,
      Layout.tokens]
    decide
  shape := by
    refine ⟨sampleOpening, [], rfl, by simp, by decide, by decide, by decide, by decide, ?_⟩
    intro a b hab
    have ha : .closeParen ∉ a := by
      intro hm
      have hm : Token.closeParen ∈ sampleOpening.inner.tokens := by
        rw [hab]
        exact List.mem_append_left _ hm
      exact absurd hm (by decide)
    rw [List.count_eq_zero.mpr ha]
    exact Nat.zero_le _
  noMarker := by
    intro w hw
    simp [sample, sampleOpening, Opening.layout, Layout.tokens] at hw
    rcases hw with rfl | rfl | rfl | rfl | rfl | rfl <;> rw [← occursIn_iff] <;> decide
  start := by
    intro w hw
    simp [sample, sampleOpening, Opening.layout, Layout.tokens] at hw
    subst hw
    constructor <;> rw [← List.isPrefixOf_iff_prefix] <;> decide

theorem noise_sampleComment : Noise ["/* one;".toList, " two */".toList] := by
  have hfirst : seen "/* one;".toList = "/* one;".toList :=
    seen_of_not_infix (by rw [← occursIn_iff]; decide)
  have hlast : seen " two */".toList = "two */".toList :=
    seen_of_not_infix (by rw [← occursIn_iff]; decide)
  refine Noise.comment ?_ ⟨["/* one;".toList], " two */".toList, rfl, ?_, ?_, ?_, ?_⟩
  · rw [hfirst, ← List.isPrefixOf_iff_prefix]
    decide
  · intro l hl
    rw [List.mem_singleton.mp hl, hfirst, ← occursIn_iff]
    decide
  · rw [hlast, ← occursIn_iff]
    decide
  · rw [IsDirective, hlast]
    decide
  · intro u v hv
    rw [hlast] at hv
    refine isUnbroken_of_not_mem fun hm => ?_
    have hsemi : ';' ∈ "two */".toList := by
      rw [hv]
      exact List.mem_append_right _ hm
    exact absurd hsemi (by decide)

theorem isHeader_sample :
    IsHeader "/* one;\n two */\n\nint isl_a_f(int x,\n\tint y);\n".toList [sample] := by
  have hcomment : IsHeader "/* one;\n two */".toList [] :=
    IsHeader.noise (by decide) noise_sampleComment
  have hend : Paragraph true ['\n'] [] :=
    Paragraph.lineFeed allBlank_nil (by simp) (Paragraph.done allBlank_nil (by simp))
  have hrows : IsHeader "\nint isl_a_f(int x,\n\tint y);\n".toList [sample] :=
    IsHeader.paragraph (Paragraph.lineFeed allBlank_nil (by simp)
      (Paragraph.first allBlank_nil (by simp) isPrototype_sample hend))
  exact hcomment.append hrows

theorem prototypes_sample :
    prototypes "/* one;\n two */\n\nint isl_a_f(int x,\n\tint y);\n" =
        ["int isl_a_f(int x, int y);"] ∧
      (prototypes "/* one;\n two */\n\nint isl_a_f(int x,\n\tint y);\n").map Token.ofText =
        [sample.tokens] :=
  prototypes_of_isHeader isHeader_sample

end IslBindings.Header
