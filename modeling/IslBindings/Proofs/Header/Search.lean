import IslBindings.Proofs.Header.Pieces

/-!
# Runs of the search

What the search makes of the lines of one item: it starts idle, finds the texts of the
item and comes back to rest. The lines of several items, one after the other, then give
the texts of all of them.
-/

namespace IslBindings.Header

open Text

/-! ### Items -/

/-- From rest, the search finds the texts in the lines and comes back to rest. -/
def Finds (ls out : List (List Char)) : Prop :=
  searchFrom .idle ls = out ∧ stateAfter .idle ls = .idle

theorem stateAfter_cons (state : Search) (l : List Char) (ls : List (List Char)) :
    stateAfter state (l :: ls) = stateAfter (state.step l).2 ls := rfl

theorem stateAfter_append (state : Search) (ls ms : List (List Char)) :
    stateAfter state (ls ++ ms) = stateAfter (stateAfter state ls) ms :=
  List.foldl_append

theorem search_congr_first (state state' : Search) {l : List Char} (rest : List (List Char))
    (h : state.step l = state'.step l) :
    searchFrom state (l :: rest) = searchFrom state' (l :: rest) ∧
      stateAfter state (l :: rest) = stateAfter state' (l :: rest) := by
  rw [searchFrom_cons, searchFrom_cons, stateAfter_cons, stateAfter_cons, h]
  exact ⟨rfl, rfl⟩

theorem finds_nil : Finds [] [] := ⟨rfl, rfl⟩

theorem Finds.append {ls ms out more : List (List Char)} (h : Finds ls out) (hm : Finds ms more) :
    Finds (ls ++ ms) (out ++ more) := by
  obtain ⟨hout, hrest⟩ := h
  refine ⟨?_, ?_⟩
  · rw [searchFrom_append _ _ _ hrest, hout, hm.1]
  · rw [stateAfter_append, hrest, hm.2]

theorem finds_of_step {l : List Char} (h : Search.step .idle l = ([], .idle)) : Finds [l] [] := by
  refine ⟨?_, ?_⟩
  · rw [searchFrom_cons, h]
    rfl
  · rw [stateAfter_cons, h]
    rfl

theorem step_idle_of_externWord {l : List Char} (h : externWord <+: l) :
    Search.step .idle l = ([], .idle) := by
  have hp : externWord.isPrefixOf l = true := List.isPrefixOf_iff_prefix.mpr h
  simp [Search.step, hp]

theorem step_idle_of_closed {l : List Char} (hne : l ≠ []) (hcomment : ¬commentStart <:+: l)
    (hblock : l.getLast? ≠ some '\x7b') :
    Search.step .idle l =
      if externWord.isPrefixOf l || (typedefWord.isPrefixOf l || l == ['\x7d'] || declaresStruct l)
      then ([], .idle) else Search.collect [] l := by
  have hempty : l.isEmpty = false := List.isEmpty_eq_false_iff.mpr hne
  have hc : occursIn commentStart l = false := occursIn_eq_false_iff.mpr hcomment
  have hb : (l.getLast? == some '\x7b') = false := beq_eq_false_iff_ne.mpr hblock
  by_cases he : externWord.isPrefixOf l = true
  · simp [Search.step, he]
  · simp [Search.step, hempty, he, hc, hb]

/-! ### Skipping -/

/-- The last of the lines, and no other, contains the terminator. -/
def Closes (terminator : List Char) (ls : List (List Char)) : Prop :=
  ∃ init last, ls = init ++ [last] ∧ (∀ l ∈ init, ¬terminator <:+: l) ∧ terminator <:+: last

theorem step_skipping (terminator l : List Char) :
    Search.step (.skipping terminator) l = ([], .skip terminator l) := rfl

theorem skip_of_infix {terminator l : List Char} (h : terminator <:+: l) :
    Search.skip terminator l = .idle := by
  rw [Search.skip, if_pos (occursIn_iff.mpr h)]

theorem skip_of_not_infix {terminator l : List Char} (h : ¬terminator <:+: l) :
    Search.skip terminator l = .skipping terminator := by
  rw [Search.skip, if_neg (by rwa [occursIn_iff])]

/-- Lines without the terminator are skipped. -/
theorem skipping_open {terminator : List Char} {ls : List (List Char)} (ms : List (List Char))
    (h : ∀ l ∈ ls, ¬terminator <:+: l) :
    searchFrom (.skipping terminator) (ls ++ ms) = searchFrom (.skipping terminator) ms ∧
      stateAfter (.skipping terminator) ls = .skipping terminator := by
  induction ls with
  | nil => exact ⟨rfl, rfl⟩
  | cons l ls ih =>
    obtain ⟨hl, hls⟩ := List.forall_mem_cons.mp h
    rw [List.cons_append, searchFrom_cons, stateAfter_cons, step_skipping, skip_of_not_infix hl]
    exact ih hls

theorem Closes.skips {terminator : List Char} {ls : List (List Char)} (h : Closes terminator ls) :
    searchFrom (.skipping terminator) ls = [] ∧ stateAfter (.skipping terminator) ls = .idle := by
  obtain ⟨init, last, rfl, hinit, hlast⟩ := h
  obtain ⟨hskipped, hskipping⟩ := skipping_open [last] hinit
  rw [hskipped, stateAfter_append, hskipping, searchFrom_cons, stateAfter_cons, step_skipping,
    skip_of_infix hlast]
  exact ⟨rfl, rfl⟩

theorem Closes.finds {terminator l : List Char} {ls : List (List Char)}
    (h : Closes terminator (l :: ls)) (hstep : Search.step .idle l = ([], .skip terminator l)) :
    Finds (l :: ls) [] := by
  obtain ⟨hout, hrest⟩ := h.skips
  rw [searchFrom_cons, step_skipping] at hout
  rw [stateAfter_cons, step_skipping] at hrest
  refine ⟨?_, ?_⟩
  · rw [searchFrom_cons, hstep, hout]
  · rw [stateAfter_cons, hstep, hrest]

/-! ### Collecting -/

def collected (ls : List (List Char)) : List Char := ls.flatMap (· ++ [' '])

theorem collected_nil : collected [] = [] := rfl

theorem collected_cons (l : List Char) (ls : List (List Char)) :
    collected (l :: ls) = l ++ [' '] ++ collected ls := by
  rw [collected, List.flatMap_cons]
  rfl

theorem collected_append (ls ms : List (List Char)) :
    collected (ls ++ ms) = collected ls ++ collected ms := by
  rw [collected, List.flatMap_append]
  rfl

/-- Lines of which no beginning ends a declaration are collected. -/
theorem collecting_open {start : List Char} {ls : List (List Char)} (ms : List (List Char))
    (h : ∀ p q, ls = p ++ q → p ≠ [] → declaresStruct (start ++ collected p) = false ∧
      isBalanced (start ++ collected p) = false) :
    searchFrom (.collecting start) (ls ++ ms) =
        searchFrom (.collecting (start ++ collected ls)) ms ∧
      stateAfter (.collecting start) ls = .collecting (start ++ collected ls) := by
  induction ls generalizing start with
  | nil =>
    rw [collected_nil, List.append_nil]
    exact ⟨rfl, rfl⟩
  | cons l ls ih =>
    have hnext : ∀ p, start ++ l ++ [' '] ++ collected p = start ++ collected (l :: p) := by
      intro p
      rw [collected_cons]
      simp
    have hfirst := h [l] ls rfl nofun
    rw [← hnext, collected_nil, List.append_nil] at hfirst
    have hstep : Search.step (.collecting start) l = ([], .collecting (start ++ l ++ [' '])) := by
      simp only [Search.step, Search.collect, hfirst.1, hfirst.2]
      simp
    obtain ⟨hsearch, hstate⟩ := @ih (start ++ l ++ [' ']) fun p q hpq _ => by
      rw [hnext]
      exact h (l :: p) q (by rw [hpq, List.cons_append]) nofun
    rw [List.cons_append, searchFrom_cons, stateAfter_cons, hstep, ← hnext]
    exact ⟨hsearch, hstate⟩

/-- Only the last line may end the declaration, and it decides what is found. -/
theorem collecting_concat {start : List Char} {init : List (List Char)} (last : List Char)
    (h : ∀ p q, init = p ++ q → p ≠ [] → declaresStruct (start ++ collected p) = false ∧
      isBalanced (start ++ collected p) = false) :
    searchFrom (.collecting start) (init ++ [last]) =
        (if declaresStruct (start ++ collected (init ++ [last])) then []
        else [trim (start ++ collected (init ++ [last]))]) ∧
      (stateAfter (.collecting start) (init ++ [last]) = .idle ↔
        declaresStruct (start ++ collected (init ++ [last])) = true ∨
          isBalanced (start ++ collected (init ++ [last])) = true) := by
  obtain ⟨hcollected, hcollecting⟩ := collecting_open [last] h
  have hall : start ++ collected init ++ last ++ [' '] = start ++ collected (init ++ [last]) := by
    rw [collected_append, collected_cons, collected_nil]
    simp
  rw [hcollected, stateAfter_append, hcollecting, searchFrom_cons, stateAfter_cons, Search.step,
    Search.collect, hall]
  cases declaresStruct (start ++ collected (init ++ [last])) with
  | true => simp [searchFrom_nil, Search.rest, stateAfter]
  | false =>
    cases isBalanced (start ++ collected (init ++ [last])) <;>
      simp [searchFrom_nil, Search.rest, stateAfter]

/-- Lines are collected up to the first one that closes as many parentheses as are open. -/
theorem collecting_run {start : List Char} {ls : List (List Char)} (hne : ls ≠ [])
    (hstruct : ∀ a b, ls = a ++ b → a ≠ [] → declaresStruct (start ++ collected a) = false)
    (hopen : ∀ a b, ls = a ++ b → a ≠ [] → b ≠ [] → isBalanced (start ++ collected a) = false)
    (hclosed : isBalanced (start ++ collected ls) = true) :
    searchFrom (.collecting start) ls = [trim (start ++ collected ls)] ∧
      stateAfter (.collecting start) ls = .idle := by
  obtain ⟨init, last, rfl⟩ : ∃ init last, ls = init ++ [last] :=
    ⟨ls.dropLast, ls.getLast hne, (List.dropLast_concat_getLast hne).symm⟩
  have hinit : ∀ p q, init = p ++ q → p ≠ [] → declaresStruct (start ++ collected p) = false ∧
      isBalanced (start ++ collected p) = false := by
    intro p q hpq hp
    have hsplit : init ++ [last] = p ++ (q ++ [last]) := by rw [hpq, List.append_assoc]
    exact ⟨hstruct p _ hsplit hp, hopen p _ hsplit hp (by simp)⟩
  obtain ⟨hout, hrest⟩ := collecting_concat last hinit
  have hnone := hstruct _ [] (List.append_nil _).symm (by simp)
  rw [hnone, if_neg Bool.false_ne_true] at hout
  exact ⟨hout, hrest.mpr (.inr hclosed)⟩

/-! ### A last empty line -/

/-- What is being collected is no forward declaration and has a parenthesis open, or none yet. -/
def IsOpen : Search → Prop
  | .idle => True
  | .skipping terminator => terminator ≠ []
  | .collecting start => declaresStruct start = false ∧ isBalanced start = false

theorem isOpen_skip {terminator : List Char} (h : terminator ≠ []) (l : List Char) :
    IsOpen (.skip terminator l) := by
  rw [Search.skip]
  split
  · trivial
  · exact h

theorem isOpen_collect (start l : List Char) : IsOpen (Search.collect start l).2 := by
  simp only [Search.collect]
  split
  · trivial
  · next hs =>
    split
    · trivial
    · next hb => exact ⟨by simpa using hs, by simpa using hb⟩

theorem isOpen_step {state : Search} (h : IsOpen state) (l : List Char) : IsOpen (state.step l).2 := by
  cases state with
  | skipping terminator => exact isOpen_skip h l
  | collecting start => exact isOpen_collect start l
  | idle =>
    rw [Search.step]
    split
    · trivial
    · split
      · exact isOpen_skip (by decide) l
      · split
        · exact isOpen_skip (by decide) l
        · split
          · trivial
          · exact isOpen_collect [] l

theorem isOpen_stateAfter {state : Search} (h : IsOpen state) (ls : List (List Char)) :
    IsOpen (stateAfter state ls) := by
  induction ls generalizing state with
  | nil => exact h
  | cons l ls ih => exact ih (isOpen_step h l)

theorem isBalanced_append_of_blank (s : List Char) {g : List Char} (h : AllBlank g) :
    isBalanced (s ++ g) = isBalanced s := by
  rw [isBalanced, isBalanced, List.count_append, List.count_append,
    count_of_allBlank (by decide) h, count_of_allBlank (by decide) h]
  rfl

theorem declaresStruct_append_of_blank (s : List Char) {g : List Char} (h : AllBlank g) :
    declaresStruct (s ++ g) = declaresStruct s := by
  rw [declaresStruct, Token.lex_append_of_allBlank s h, declaresStruct]

theorem step_nil_ne_idle {state : Search} (h : IsOpen state) (hne : state ≠ .idle) :
    (state.step []).2 ≠ .idle := by
  cases state with
  | idle => exact absurd rfl hne
  | skipping terminator =>
    have hn : ¬terminator <:+: [] := fun hi => h (List.infix_nil.mp hi)
    rw [step_skipping, skip_of_not_infix hn]
    simp
  | collecting start =>
    obtain ⟨hstruct, hbalanced⟩ := h
    have hs : declaresStruct (start ++ [] ++ [' ']) = false := by
      rw [List.append_nil, declaresStruct_append_of_blank start allBlank_space]
      exact hstruct
    have hb : isBalanced (start ++ [] ++ [' ']) = false := by
      rw [List.append_nil, isBalanced_append_of_blank start allBlank_space]
      exact hbalanced
    simp only [Search.step, Search.collect, hs, hb]
    simp

theorem finds_of_append_nil {ls out : List (List Char)} (h : Finds (ls ++ [[]]) out) :
    Finds ls out := by
  obtain ⟨hout, hrest⟩ := h
  -- The empty line brings no open search to rest, so the search is at rest before it.
  have hidle : stateAfter .idle ls = .idle := by
    by_cases hne : stateAfter .idle ls = .idle
    · exact hne
    · rw [stateAfter_append] at hrest
      have hstart : IsOpen .idle := trivial
      exact absurd hrest (step_nil_ne_idle (isOpen_stateAfter hstart ls) hne)
  have hblank : searchFrom .idle [[]] = [] := by decide
  rw [searchFrom_append _ _ _ hidle, hblank, List.append_nil] at hout
  exact ⟨hout, hidle⟩

/-- What is found in the rows of a text is found in its lines. -/
theorem finds_logicalLines {s : List Char} {out : List (List Char)} (h : '\\' ∉ s)
    (hf : Finds (pieceRows s) out) : Finds (logicalLines s) out := by
  have hlines : ∀ l ∈ lines s, '\\' ∉ l := fun l hl hm => h (mem_of_mem_lines hl hm)
  have hmap : ∀ ls : List (List Char), ls.flatMap pieces = (ls.map trim).flatMap pieces := by
    intro ls
    have hfun : (fun l => pieces (trim l)) = pieces := funext fun l => pieces_congr (trim_trim l)
    rw [List.flatMap_map, hfun]
  rw [logicalLines, logicalFrom_eq_flatMap hlines, hmap]
  rw [pieceRows, hmap] at hf
  rcases map_trim_rows s with hr | hr
  · rw [hr] at hf
    exact hf
  · rw [hr, List.flatMap_append, List.flatMap_singleton, pieces_nil] at hf
    exact finds_of_append_nil hf

/-- The search through the lines of a text is the search through its rows. -/
theorem searchFrom_logicalLines {s : List Char} {out : List (List Char)} (h : '\\' ∉ s)
    (hf : Finds (pieceRows s) out) : searchFrom .idle (logicalLines s) = out :=
  (finds_logicalLines h hf).1

/-! ### Texts one behind the other -/

/-- Behind a text that leaves no line open and the search at rest, another is read as if it stood
alone. -/
theorem prototypes_append_of_idle {a : String} (hrow : EndsRow a.toList)
    (hlines : ∀ l ∈ lines a.toList, endsWithBackslash (withoutMarkers (trim l)) = false)
    (hrest : stateAfter .idle (logicalLines a.toList) = .idle) (b : String) :
    prototypes (a ++ b) = prototypes a ++ prototypes b := by
  rw [logicalLines] at hrest
  rw [prototypes, prototypes, prototypes, String.toList_append, logicalLines, logicalLines,
    logicalLines, lines_append hrow, logicalFrom_append _ _ hlines, searchFrom_append _ _ _ hrest,
    List.map_append]

end IslBindings.Header
