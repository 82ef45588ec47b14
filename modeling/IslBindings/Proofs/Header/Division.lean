import IslBindings.Proofs.Header.Search
import IslBindings.Proofs.Lists

/-!
# The runs of a header

The search reads the logical lines of a header run by run. A run is a line that is left out by
itself, a comment or a block up to the line with its terminator, or a declaration up to the line
that closes as many parentheses as are open. Only the last run may lack its end. Whatever the
lines are, there is such a division of them, and it says what the search finds.
-/

namespace IslBindings.Header

open Text Token

/-! ### Kinds of runs -/

/-- Neither blank nor one of the `extern` lines, which are left out before anything else. -/
def IsRead (l : List Char) : Prop := l ≠ [] ∧ ¬externWord <+: l

/-- Neither a comment nor a block starts on the line. -/
def IsOutside (l : List Char) : Prop := ¬commentStart <:+: l ∧ l.getLast? ≠ some '\x7b'

/-- A typedef, a lone closing brace or a forward declaration. -/
def IsAside (l : List Char) : Prop := typedefWord <+: l ∨ l = ['\x7d'] ∨ declaresStruct l = true

inductive RunKind where
  /-- A line that is left out by itself. -/
  | passed
  | skipped (terminator : List Char)
  | declaration

namespace RunKind

/-- A run of the kind begins with the line. -/
inductive Begins : RunKind → List Char → Prop
  | blank : Begins .passed []
  | externLine {l : List Char} : externWord <+: l → Begins .passed l
  | aside {l : List Char} : IsRead l → IsOutside l → IsAside l → Begins .passed l
  | comment {l : List Char} : IsRead l → commentStart <:+: l → Begins (.skipped commentEnd) l
  | block {l : List Char} : IsRead l → ¬commentStart <:+: l → l.getLast? = some '\x7b' →
      Begins (.skipped ['\x7d']) l
  | declaration {l : List Char} : IsRead l → IsOutside l → ¬IsAside l → Begins .declaration l

/-- A run of the kind has its end in the lines. -/
def Ends : RunKind → List (List Char) → Prop
  | .passed, _ => True
  | .skipped terminator, ls => ∃ l ∈ ls, terminator <:+: l
  | .declaration, ls =>
    declaresStruct (collected ls) = true ∨ isBalanced (collected ls) = true

theorem exists_begins (l : List Char) : ∃ kind : RunKind, kind.Begins l := by
  by_cases hread : IsRead l
  · by_cases hcomment : commentStart <:+: l
    · exact ⟨_, .comment hread hcomment⟩
    by_cases hblock : l.getLast? = some '\x7b'
    · exact ⟨_, .block hread hcomment hblock⟩
    by_cases haside : IsAside l
    · exact ⟨_, .aside hread ⟨hcomment, hblock⟩ haside⟩
    · exact ⟨_, .declaration hread ⟨hcomment, hblock⟩ haside⟩
  · by_cases hblank : l = []
    · rw [hblank]
      exact ⟨_, .blank⟩
    · exact ⟨_, .externLine (Decidable.of_not_not fun h => hread ⟨hblank, h⟩)⟩

end RunKind

def RunKind.start (kind : RunKind) (l : List Char) : List (List Char) × Search :=
  match kind with
  | .passed => ([], .idle)
  | .skipped terminator => ([], .skip terminator l)
  | .declaration => Search.collect [] l

theorem IsRead.not_left_out {l : List Char} (h : IsRead l) :
    (l.isEmpty || externWord.isPrefixOf l) = false := by
  rw [Bool.or_eq_false_iff, List.isEmpty_eq_false_iff, Bool.eq_false_iff]
  exact ⟨h.1, fun hextern => h.2 (List.isPrefixOf_iff_prefix.mp hextern)⟩

theorem isAside_iff {l : List Char} : IsAside l ↔
    (typedefWord.isPrefixOf l || l == ['\x7d'] || declaresStruct l) = true := by
  rw [IsAside, Bool.or_eq_true, Bool.or_eq_true, List.isPrefixOf_iff_prefix, beq_iff_eq, or_assoc]

theorem RunKind.Begins.step {kind : RunKind} {l : List Char} (h : kind.Begins l) :
    Search.step .idle l = kind.start l := by
  cases h with
  | blank => rfl
  | externLine hextern => exact step_idle_of_externWord hextern
  | comment hread hcomment =>
    rw [Search.step, if_neg (Bool.eq_false_iff.mp hread.not_left_out),
      if_pos (occursIn_iff.mpr hcomment), start]
  | block hread hcomment hblock =>
    rw [Search.step, if_neg (Bool.eq_false_iff.mp hread.not_left_out),
      if_neg (fun h => hcomment (occursIn_iff.mp h)), if_pos (beq_iff_eq.mpr hblock), start]
  | aside hread houtside haside =>
    rw [step_idle_of_closed hread.1 houtside.1 houtside.2, isAside_iff.mp haside, Bool.or_true]
    rfl
  | declaration hread houtside haside =>
    rw [isAside_iff, Bool.not_eq_true] at haside
    have hextern := (Bool.or_eq_false_iff.mp hread.not_left_out).2
    rw [step_idle_of_closed hread.1 houtside.1 houtside.2, haside, hextern]
    rfl

/-! ### Runs -/

/-- No shorter beginning of the list has the property. -/
def IsShortest {α : Type} (P : List α → Prop) (ls : List α) : Prop :=
  ∀ p q, ls = p ++ q → p ≠ [] → q ≠ [] → ¬P p

/-- Lines that the search reads together. -/
structure Run where
  kind : RunKind
  lines : List (List Char)

namespace Run

/-- The run begins as its kind does, and no shorter one has an end. -/
structure IsRun (r : Run) : Prop where
  begins : ∃ l rest, r.lines = l :: rest ∧ r.kind.Begins l
  shortest : IsShortest r.kind.Ends r.lines

def IsFinished (r : Run) : Prop := r.kind.Ends r.lines

/-- What is found in the run. A forward declaration is left out. -/
def found? (r : Run) : Option (List Char) :=
  match r.kind with
  | .declaration =>
    if declaresStruct (collected r.lines) then none else some (trim (collected r.lines))
  | _ => none

theorem IsRun.lines_ne_nil {r : Run} (h : r.IsRun) : r.lines ≠ [] := by
  obtain ⟨l, rest, hlines, -⟩ := h.begins
  rw [hlines]
  exact nofun

end Run

/-- The lines are divided into runs, of which only the last may lack its end. -/
inductive IsDivision : List Run → List (List Char) → Prop
  | nil : IsDivision [] []
  | last {r : Run} : r.IsRun → IsDivision [r] r.lines
  | cons {r : Run} {runs : List Run} {ls : List (List Char)} : r.IsRun → r.IsFinished →
      IsDivision runs ls → IsDivision (r :: runs) (r.lines ++ ls)

theorem isShortest_singleton {α : Type} (P : List α → Prop) (a : α) : IsShortest P [a] := by
  intro p q hpq hp hq
  rcases List.append_eq_singleton_iff.mp hpq.symm with ⟨rfl, -⟩ | ⟨-, rfl⟩
  · exact absurd rfl hp
  · exact absurd rfl hq

/-- A list begins with its shortest beginning with the property, or is itself short of it. -/
theorem exists_isShortest {α : Type} (P : List α → Prop) {ls : List α} (hne : ls ≠ []) :
    ∃ p q, ls = p ++ q ∧ p ≠ [] ∧ IsShortest P p ∧ (P p ∨ q = []) := by
  induction ls generalizing P with
  | nil => exact absurd rfl hne
  | cons a ls ih =>
    by_cases ha : P [a]
    · exact ⟨[a], ls, rfl, nofun, isShortest_singleton P a, .inl ha⟩
    cases ls with
    | nil => exact ⟨[a], [], rfl, nofun, isShortest_singleton P a, .inr rfl⟩
    | cons b ls =>
      obtain ⟨p, q, hpq, hp, hshortest, hend⟩ := ih (fun p => P (a :: p)) nofun
      refine ⟨a :: p, q, by rw [hpq, List.cons_append], nofun, ?_, hend⟩
      -- A shorter beginning is the first member alone, or goes on as one of the rest.
      intro p' q' hsplit hp' hq'
      obtain ⟨c, p', rfl⟩ := List.exists_cons_of_ne_nil hp'
      rw [List.cons_append, List.cons.injEq] at hsplit
      obtain ⟨rfl, hsplit⟩ := hsplit
      cases p' with
      | nil => exact ha
      | cons d p' => exact hshortest _ _ hsplit nofun hq'

theorem exists_isDivision (ls : List (List Char)) : ∃ runs, IsDivision runs ls := by
  induction hlength : ls.length using Nat.strongRecOn generalizing ls with
  | ind n ih =>
    by_cases hne : ls = []
    · exact ⟨[], hne ▸ .nil⟩
    obtain ⟨l, rest, hls⟩ := List.exists_cons_of_ne_nil hne
    obtain ⟨kind, hbegins⟩ := RunKind.exists_begins l
    obtain ⟨p, q, hpq, hp, hshortest, hend⟩ := exists_isShortest kind.Ends hne
    obtain ⟨c, p', rfl⟩ := List.exists_cons_of_ne_nil hp
    have hhead : l = c := by
      rw [hls, List.cons_append, List.cons.injEq] at hpq
      exact hpq.1
    have hrun : (Run.mk kind (c :: p')).IsRun := ⟨⟨c, p', rfl, hhead ▸ hbegins⟩, hshortest⟩
    rcases hend with hend | rfl
    · have hlt : q.length < n := by
        rw [← hlength, hpq, List.length_append, List.length_cons]
        omega
      obtain ⟨runs, hruns⟩ := ih _ hlt q rfl
      rw [hpq]
      exact ⟨_, .cons hrun hend hruns⟩
    · rw [List.append_nil] at hpq
      rw [hpq]
      exact ⟨_, .last hrun⟩

/-! ### The search in a run -/

namespace Run.IsRun

variable {r : Run}

theorem exists_concat (h : r.IsRun) : ∃ init last, r.lines = init ++ [last] := by
  rcases List.eq_nil_or_concat r.lines with hnil | ⟨init, last, hconcat⟩
  · exact absurd hnil h.lines_ne_nil
  · exact ⟨init, last, by rw [hconcat, List.concat_eq_append]⟩

theorem not_ends_init (h : r.IsRun) {init : List (List Char)} {last : List Char}
    (hlines : r.lines = init ++ [last]) : ∀ p q, init = p ++ q → p ≠ [] → ¬r.kind.Ends p := by
  intro p q hpq hp
  refine h.shortest p (q ++ [last]) ?_ hp (by simp)
  rw [hlines, hpq, List.append_assoc]

theorem search_passed (h : r.IsRun) (hkind : r.kind = .passed) :
    searchFrom .idle r.lines = [] ∧ stateAfter .idle r.lines = .idle := by
  obtain ⟨l, rest, hlines, hbegins⟩ := h.begins
  have hstep := hbegins.step
  have hrest : rest = [] := by
    refine Classical.byContradiction fun hrest => h.shortest [l] rest hlines nofun hrest ?_
    rw [hkind]
    trivial
  rw [hkind] at hstep
  rw [hlines, hrest]
  exact finds_of_step hstep

theorem search_skipped {terminator : List Char} (h : r.IsRun)
    (hkind : r.kind = .skipped terminator) :
    searchFrom .idle r.lines = [] ∧ (stateAfter .idle r.lines = .idle ↔ r.IsFinished) := by
  obtain ⟨l, rest, hlines, hbegins⟩ := h.begins
  have hstep := hbegins.step
  rw [hkind] at hstep
  obtain ⟨hsearch, hstate⟩ :=
    search_congr_first .idle (.skipping terminator) rest (by rw [hstep]; rfl)
  rw [← hlines] at hsearch hstate
  rw [hsearch, hstate, IsFinished, hkind]
  by_cases hends : ∃ l ∈ r.lines, terminator <:+: l
  · obtain ⟨init, last, hconcat⟩ := h.exists_concat
    have hinit : ∀ l ∈ init, ¬terminator <:+: l := by
      intro l hl hmem
      refine h.not_ends_init hconcat init [] (List.append_nil _).symm (List.ne_nil_of_mem hl) ?_
      rw [hkind]
      exact ⟨l, hl, hmem⟩
    have hcloses : Closes terminator r.lines := by
      obtain ⟨l, hl, hmem⟩ := hends
      rw [hconcat, List.mem_append, List.mem_singleton] at hl
      exact ⟨init, last, hconcat, hinit, hl.elim (fun hl => absurd hmem (hinit l hl)) (· ▸ hmem)⟩
    obtain ⟨hout, hrest⟩ := hcloses.skips
    exact ⟨hout, iff_of_true hrest hends⟩
  · have hnone : ∀ l ∈ r.lines, ¬terminator <:+: l := fun l hl hmem => hends ⟨l, hl, hmem⟩
    obtain ⟨hout, hrest⟩ := skipping_open [] hnone
    rw [List.append_nil, searchFrom_nil] at hout
    rw [hrest]
    exact ⟨hout, iff_of_false nofun hends⟩

theorem search_declaration (h : r.IsRun) (hkind : r.kind = .declaration) :
    searchFrom .idle r.lines = r.found?.toList ∧
      (stateAfter .idle r.lines = .idle ↔ r.IsFinished) := by
  obtain ⟨l, rest, hlines, hbegins⟩ := h.begins
  have hstep := hbegins.step
  rw [hkind] at hstep
  obtain ⟨hsearch, hstate⟩ := search_congr_first .idle (.collecting []) rest (by rw [hstep]; rfl)
  rw [← hlines] at hsearch hstate
  obtain ⟨init, last, hconcat⟩ := h.exists_concat
  have hinit : ∀ p q, init = p ++ q → p ≠ [] → declaresStruct ([] ++ collected p) = false ∧
      isBalanced ([] ++ collected p) = false := by
    intro p q hpq hp
    have hends := h.not_ends_init hconcat p q hpq hp
    rw [hkind, RunKind.Ends, not_or, Bool.not_eq_true, Bool.not_eq_true] at hends
    exact hends
  obtain ⟨hout, hrest⟩ := collecting_concat last hinit
  rw [← hconcat, List.nil_append] at hout hrest
  rw [hsearch, hstate, hout, hrest, found?, IsFinished, hkind, RunKind.Ends]
  refine ⟨?_, Iff.rfl⟩
  cases declaresStruct (collected r.lines) <;> rfl

/-- A run gives what is found in it, and the search is at rest behind it if it has an end. -/
theorem search (h : r.IsRun) : searchFrom .idle r.lines = r.found?.toList ∧
    (stateAfter .idle r.lines = .idle ↔ r.IsFinished) := by
  cases hkind : r.kind with
  | passed =>
    obtain ⟨hout, hrest⟩ := h.search_passed hkind
    rw [hout, hrest, found?, IsFinished, hkind]
    exact ⟨rfl, iff_of_true rfl trivial⟩
  | skipped terminator =>
    obtain ⟨hout, hrest⟩ := h.search_skipped hkind
    rw [hout, found?, hkind]
    exact ⟨rfl, hrest⟩
  | declaration => exact h.search_declaration hkind

end Run.IsRun

/-! ### The search in all runs -/

namespace IsDivision

variable {runs : List Run} {ls : List (List Char)}

theorem isRun (h : IsDivision runs ls) {r : Run} (hr : r ∈ runs) : r.IsRun := by
  induction h with
  | nil => cases hr
  | last hrun =>
    rw [List.mem_singleton] at hr
    exact hr ▸ hrun
  | cons hrun _ _ ih =>
    rcases List.mem_cons.mp hr with rfl | hr
    · exact hrun
    · exact ih hr

theorem flatMap_lines (h : IsDivision runs ls) : runs.flatMap Run.lines = ls := by
  induction h with
  | nil => rfl
  | last _ => rw [List.flatMap_singleton]
  | cons _ _ _ ih => rw [List.flatMap_cons, ih]

theorem finds_of_finished {r : Run} (hrun : r.IsRun) (hfinished : r.IsFinished) :
    Finds r.lines r.found?.toList :=
  ⟨hrun.search.1, hrun.search.2.mpr hfinished⟩

theorem searchFrom_eq (h : IsDivision runs ls) :
    searchFrom .idle ls = runs.filterMap Run.found? := by
  induction h with
  | nil => rfl
  | @last r hrun =>
    rw [hrun.search.1, filterMap_cons_toList]
    exact (List.append_nil _).symm
  | cons hrun hfinished _ ih =>
    obtain ⟨hout, hrest⟩ := finds_of_finished hrun hfinished
    rw [searchFrom_append _ _ _ hrest, hout, ih, filterMap_cons_toList]

/-- The search comes to rest exactly if every run has an end. -/
theorem stateAfter_eq_idle_iff (h : IsDivision runs ls) :
    stateAfter .idle ls = .idle ↔ ∀ r ∈ runs, r.IsFinished := by
  induction h with
  | nil => exact iff_of_true rfl nofun
  | last hrun => rw [hrun.search.2, List.forall_mem_singleton]
  | cons hrun hfinished _ ih =>
    rw [stateAfter_append, (finds_of_finished hrun hfinished).2, ih, List.forall_mem_cons]
    exact (and_iff_right hfinished).symm

end IsDivision

end IslBindings.Header
