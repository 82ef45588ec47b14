import IslBindings.Proofs.Header.Extraction

/-!
# Definitions of types

A typedef on one row is left out whole, and so is a definition whose opening brace ends a row
and whose closing one stands on its last row. Of any other typedef only the first row is left
out, and what follows is read like the rest of the header.
-/

namespace IslBindings.Header

open Text Token

/-! ### Texts one behind the other -/

theorem prototypes_append {a b : String} {out : List (List Char)} (hrow : EndsRow a.toList)
    (hplain : '\\' ∉ a.toList) (h : Finds (pieceRows a.toList) out) :
    prototypes (a ++ b) = prototypes a ++ prototypes b := by
  have hlines : ∀ l ∈ lines a.toList, endsWithBackslash (withoutMarkers (trim l)) = false := by
    intro l hl
    exact endsWithBackslash_of_not_mem fun hm => hplain (mem_of_mem_lines hl hm)
  exact prototypes_append_of_idle hrow hlines (finds_logicalLines hplain h).2 b

theorem prototypes_of_finds_nil {a : String} (hplain : '\\' ∉ a.toList)
    (h : Finds (pieceRows a.toList) []) : prototypes a = [] := by
  rw [prototypes, (finds_logicalLines hplain h).1, List.map_nil]

/-! ### Rows of definitions -/

/-- A row without comments, directives, continuations and markers. -/
structure IsPlainRow (l : List Char) : Prop where
  isPlainText : IsPlainText l
  noComment : ¬commentStart <:+: l
  noLineFeed : '\n' ∉ l

instance (l : List Char) : Decidable (IsPlainRow l) :=
  decidable_of_iff ((occursIn subclassMarker l = false ∧ '#' ∉ l ∧ '\\' ∉ l) ∧
      occursIn commentStart l = false ∧ '\n' ∉ l) <| by
    rw [occursIn_eq_false_iff, occursIn_eq_false_iff]
    exact ⟨fun ⟨⟨hm, hd, hb⟩, hc, hn⟩ => ⟨⟨hm, hd, hb⟩, hc, hn⟩,
      fun ⟨⟨hm, hd, hb⟩, hc, hn⟩ => ⟨⟨hm, hd, hb⟩, hc, hn⟩⟩

/-- A row that ends in the brace with which a definition opens. -/
structure OpensBlock (l : List Char) : Prop where
  brace : (trim l).getLast? = some '\x7b'
  noClose : '\x7d' ∉ l
  noSemicolon : ';' ∉ l
  noExtern : ¬externWord <+: trim l

/-- A row with the first closing brace of a definition, which ends in the semicolon. -/
inductive ClosesBlock : List Char → Prop
  | mk {body name gap : List Char} : '\x7d' ∉ body → '\x7d' ∉ name → ';' ∉ name → AllBlank gap →
      ClosesBlock (body ++ '\x7d' :: (name ++ ';' :: gap))

/-- The rows of a definition with one level of braces. -/
inductive IsBlock : List (List Char) → Prop
  | mk {first last : List Char} {inner : List (List Char)} : OpensBlock first →
      (∀ l ∈ inner, '\x7d' ∉ l) → ClosesBlock last → IsBlock (first :: (inner ++ [last]))

/-- The rows of a typedef or of a definition, in the layouts that are left out whole. -/
inductive IsLeftOut : List (List Char) → Prop
  | row {l : List Char} : typedefWord <+: trim l → (trim l).getLast? = some ';' → IsUnbroken l →
      IsLeftOut [l]
  | block {ls : List (List Char)} : IsBlock ls → IsLeftOut ls
  /-- The brace stands on the second row of a typedef. -/
  | typedefBlock {l : List Char} {ls : List (List Char)} : typedefWord <+: trim l →
      (trim l).getLast? ≠ some '\x7b' → IsUnbroken l → IsBlock ls → IsLeftOut (l :: ls)

theorem IsPlainRow.noComment_seen {l : List Char} (h : IsPlainRow l) :
    ¬commentStart <:+: seen l := by
  rw [h.isPlainText.seen]
  exact fun hm => h.noComment (hm.trans (trim_isInfix l))

theorem IsPlainRow.isUnbroken_seen {l : List Char} (h : IsPlainRow l) (hu : IsUnbroken l) :
    IsUnbroken (seen l) := by
  rw [h.isPlainText.seen]
  exact hu.of_infix (trim_isInfix l)

theorem IsPlainRow.finds_typedef {l : List Char} (h : IsPlainRow l) (hbegin : typedefWord <+: trim l)
    (hopen : (trim l).getLast? ≠ some '\x7b') (hu : IsUnbroken l) :
    Finds ([l].flatMap pieces) [] := by
  refine finds_typedefRow ?_ h.noComment_seen ?_ (h.isUnbroken_seen hu)
  · rw [h.isPlainText.seen]
    exact hbegin
  · rw [h.isPlainText.seen]
    exact hopen

theorem IsUnbrokenAfter.of_infix {t r s : List Char} (h : IsUnbrokenAfter t s) (hr : r <:+: s) :
    IsUnbrokenAfter t r := by
  obtain ⟨x, y, rfl⟩ := hr
  rintro u v rfl
  have hv : IsUnbroken (v ++ y) := h (x ++ u) (v ++ y) (by simp)
  exact hv.of_infix (List.prefix_append v y).isInfix

theorem ClosesBlock.brace_isInfix {l : List Char} (h : ClosesBlock l) : ['\x7d'] <:+: l := by
  obtain @⟨body, name, gap, -, -, -, -⟩ := h
  exact ⟨body, name ++ ';' :: gap, by simp⟩

theorem ClosesBlock.isUnbrokenAfter {l : List Char} (h : ClosesBlock l) :
    IsUnbrokenAfter ['\x7d'] l := by
  obtain @⟨body, name, gap, hbody, hname, hsemi, hgap⟩ := h
  have hrest : '\x7d' ∉ name ++ ';' :: gap := by
    rw [List.mem_append, List.mem_cons, not_or, not_or]
    exact ⟨hname, by decide, fun hm => absurd (hgap _ hm) (by decide)⟩
  intro u v huv
  rw [List.append_assoc] at huv
  -- There is one closing brace on the row, so that what stands behind it is the rest of the row.
  rcases append_eq_append_cons huv with ⟨k, hk, -⟩ | ⟨k, -, hk⟩
  · rw [hk] at hbody
    exact absurd (List.mem_append_right u (List.mem_cons_self ..)) hbody
  · cases k with
    | nil =>
      obtain ⟨-, rfl⟩ := List.cons.inj hk
      exact isUnbroken_append_semicolon hsemi hgap
    | cons d k =>
      rw [List.cons_append, List.cons.injEq] at hk
      rw [hk.2] at hrest
      exact absurd (List.mem_append_right k (List.mem_cons_self ..)) hrest

theorem IsBlock.noise {ls : List (List Char)} (h : IsBlock ls) (hplain : ∀ l ∈ ls, IsPlainRow l) :
    Noise ls := by
  obtain @⟨first, last, inner, hopens, hinner, hcloses⟩ := h
  obtain ⟨hfirst, hrest⟩ := List.forall_mem_cons.mp hplain
  have hlast : IsPlainRow last := hrest last (by simp)
  have hseen : ∀ l, IsPlainRow l → '\x7d' ∉ l → ¬['\x7d'] <:+: seen l := by
    intro l hl hclose hm
    rw [hl.isPlainText.seen] at hm
    exact hclose ((trim_isInfix l).mem (hm.mem (List.mem_singleton_self _)))
  have hruns : RunsTo ['\x7d'] (first :: (inner ++ [last])) := by
    refine ⟨first :: inner, last, rfl, ?_, ?_, hlast.isPlainText.not_isDirective, ?_⟩
    · refine List.forall_mem_cons.mpr ⟨hseen first hfirst hopens.noClose, fun l hl => ?_⟩
      exact hseen l (hrest l (List.mem_append_left _ hl)) (hinner l hl)
    · rw [hlast.isPlainText.seen]
      exact (isSolid_singleton (by decide)).infix_trim hcloses.brace_isInfix
    · rw [hlast.isPlainText.seen]
      exact hcloses.isUnbrokenAfter.of_infix (trim_isInfix last)
  refine Noise.block ?_ ?_ hfirst.noComment_seen hfirst.isPlainText.not_isDirective
    (hfirst.isUnbroken_seen (isUnbroken_of_not_mem hopens.noSemicolon)) hruns
  · rw [hfirst.isPlainText.seen]
    exact hopens.brace
  · rw [hfirst.isPlainText.seen]
    exact hopens.noExtern

theorem IsLeftOut.finds {ls : List (List Char)} (h : IsLeftOut ls)
    (hplain : ∀ l ∈ ls, IsPlainRow l) : Finds (ls.flatMap pieces) [] := by
  cases h with
  | @row l hbegin hlast hu =>
    refine (hplain l (List.mem_cons_self ..)).finds_typedef hbegin ?_ hu
    rw [hlast]
    decide
  | block hblock => exact (hblock.noise hplain).finds
  | @typedefBlock l ls hbegin hopen hu hblock =>
    obtain ⟨hl, hls⟩ := List.forall_mem_cons.mp hplain
    rw [← List.singleton_append, List.flatMap_append]
    exact (hl.finds_typedef hbegin hopen hu).append (hblock.noise hls).finds

/-! ### Definitions between other rows -/

/-- The rows of a text; the last one may lack its line feed if nothing follows. -/
def HasRows (ls : List (List Char)) (s rest : List Char) : Prop :=
  s = unlines ls ∨ rest = [] ∧ s ++ ['\n'] = unlines ls

theorem HasRows.finds {ls : List (List Char)} {s rest : List Char} (hs : HasRows ls s rest)
    (hplain : ∀ l ∈ ls, IsPlainRow l) (h : Finds (ls.flatMap pieces) []) :
    Finds (pieceRows s) [] := by
  have hrows := rows_unlines fun l hl => (hplain l hl).noLineFeed
  rcases hs with rfl | ⟨-, hs⟩
  · rw [pieceRows, hrows, List.flatMap_append, List.flatMap_singleton, pieces_nil]
    exact h.append (finds_of_step rfl)
  · rw [← hs, rows_append_line_feed, rows_nil] at hrows
    rw [pieceRows, List.append_cancel_right hrows]
    exact h

theorem HasRows.not_mem {ls : List (List Char)} {s rest : List Char} (hs : HasRows ls s rest)
    (hplain : ∀ l ∈ ls, IsPlainRow l) : '\\' ∉ s := by
  have hunlines : '\\' ∉ unlines ls := by
    rw [unlines, List.mem_flatMap]
    rintro ⟨l, hl, hm⟩
    rcases List.mem_append.mp hm with hm | hm
    · exact (hplain l hl).isPlainText.noBackslash hm
    · exact absurd hm (by decide)
  rcases hs with rfl | ⟨-, hs⟩
  · exact hunlines
  · intro hm
    rw [← hs] at hunlines
    exact hunlines (List.mem_append_left _ hm)

/-- A text in which nothing is found changes nothing of what is found around it. -/
theorem prototypes_skip {before item : String} {ps : List Layout} (hbefore : IsHeader before.toList ps)
    (hrow : EndsRow before.toList) (hends : EndsRow item.toList) (hmem : '\\' ∉ item.toList)
    (hfinds : Finds (pieceRows item.toList) []) (after : String) :
    prototypes (before ++ (item ++ after)) = prototypes before ++ prototypes after := by
  have hnone : prototypes item = [] := prototypes_of_finds_nil hmem hfinds
  rw [prototypes_append hrow hbefore.not_mem hbefore.finds, prototypes_append hends hmem hfinds,
    hnone, List.nil_append]

/-- A definition that is left out whole changes nothing of what is found around it. -/
theorem prototypes_around_definition {before item after : String} {ps : List Layout}
    {ls : List (List Char)} (hbefore : IsHeader before.toList ps) (hrow : EndsRow before.toList)
    (hplain : ∀ l ∈ ls, IsPlainRow l) (hls : IsLeftOut ls)
    (hitem : HasRows ls item.toList after.toList) :
    prototypes (before ++ item ++ after) = prototypes before ++ prototypes after := by
  have hfinds := hitem.finds hplain (hls.finds hplain)
  have hmem := hitem.not_mem hplain
  rw [String.append_assoc]
  rcases hitem with hs | ⟨hafter, -⟩
  · have hends : EndsRow item.toList := by
      rw [hs]
      exact endsRow_unlines ls
    exact prototypes_skip hbefore hrow hends hmem hfinds after
  · -- Without its last line feed the definition ends no row, but nothing stands behind it.
    have hempty : after = "" := String.toList_inj.mp hafter
    rw [hempty, String.append_empty, prototypes_append hrow hbefore.not_mem hbefore.finds,
      prototypes_of_finds_nil hmem hfinds]
    rfl

def sampleEnum : List (List Char) :=
  ["typedef enum \x7b".toList, "\tisl_stat_error = -1,".toList, "\tisl_stat_ok = 0".toList,
    "\x7d isl_stat;".toList]

theorem isLeftOut_sampleEnum : IsLeftOut sampleEnum := by
  have hopens : OpensBlock "typedef enum \x7b".toList := by
    refine ⟨by decide, by decide, by decide, ?_⟩
    rw [← List.isPrefixOf_iff_prefix]
    decide
  have hcloses : ClosesBlock "\x7d isl_stat;".toList :=
    @ClosesBlock.mk [] " isl_stat".toList [] (by decide) (by decide) (by decide) allBlank_nil
  have hinner : ∀ l ∈ ["\tisl_stat_error = -1,".toList, "\tisl_stat_ok = 0".toList], '\x7d' ∉ l := by
    decide
  exact IsLeftOut.block (IsBlock.mk hopens hinner hcloses)

theorem prototypes_around_sampleEnum :
    prototypes ("/* one;\n two */\n\nint isl_a_f(int x,\n\tint y);\n" ++
        "typedef enum \x7b\n\tisl_stat_error = -1,\n\tisl_stat_ok = 0\n\x7d isl_stat;\n" ++
        "int isl_a_g(int x);\n") =
      prototypes "/* one;\n two */\n\nint isl_a_f(int x,\n\tint y);\n" ++
        prototypes "int isl_a_g(int x);\n" :=
  prototypes_around_definition isHeader_sample (.inr (by decide)) (by decide : ∀ l ∈ sampleEnum, _)
    isLeftOut_sampleEnum (.inl (by decide))

/-- A brace that ends no row, a brace on a row of its own, and a typedef that goes on. -/
theorem prototypes_around_other_layouts :
    prototypes ("" ++ "enum isl_x \x7b isl_a, isl_b \x7d;\n" ++ "int isl_a_f(int x);\n") ≠
        prototypes "" ++ prototypes "int isl_a_f(int x);\n" ∧
      prototypes ("" ++ "struct isl_x\n\x7b\n\tint a;\n\x7d;\n" ++ "int isl_a_f(int x);\n") ≠
        prototypes "" ++ prototypes "int isl_a_f(int x);\n" ∧
      prototypes ("" ++ "typedef int (*isl_fn)(int x,\n\tint y);\n" ++ "int isl_a_f(int x);\n") ≠
        prototypes "" ++ prototypes "int isl_a_f(int x);\n" := by
  decide +kernel

end IslBindings.Header
