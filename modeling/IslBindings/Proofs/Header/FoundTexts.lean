import IslBindings.Proofs.Header.Division
import IslBindings.Proofs.Token.Layout

/-!
# What found texts look like

Whatever a header looks like, each text that is found joins the lines of a run of its own, the
runs stand one behind the other, and every text but the last closes as many parentheses as it
opens. No text holds a forward declaration, unless the `struct` of that stands directly behind
another one.
-/

namespace IslBindings.Header

open Text Token

/-! ### Forward declarations in a text -/

namespace ForwardState

def step (state : ForwardState) : Token → ForwardState
  | .word w => state.afterWord w
  | _ => .nothing

/-- How the tokens end in a state. -/
def Ends : ForwardState → List Token → Prop
  | .nothing, _ => True
  | .structWord, ts =>
    ∃ before n, ts = before ++ .word "struct" :: List.replicate n (.word "__isl_export")
  | .named, ts => ∃ before n name,
    ts = before ++ .word "struct" :: (List.replicate n (.word "__isl_export") ++ [.word name])

theorem Ends.step {state : ForwardState} {ts : List Token} (h : state.Ends ts) (t : Token) :
    (state.step t).Ends (ts ++ [t]) := by
  cases t with
  | word w =>
    cases state with
    | nothing =>
      rw [ForwardState.step, afterWord]
      split
      · next hw => exact ⟨ts, 0, by rw [hw]; rfl⟩
      · trivial
    | structWord =>
      obtain ⟨before, n, rfl⟩ := h
      rw [ForwardState.step, afterWord]
      split
      · next hw =>
        refine ⟨before, n + 1, ?_⟩
        rw [hw, List.replicate_succ', List.append_assoc, List.cons_append]
      · exact ⟨before, n, w, by rw [List.append_assoc, List.cons_append]⟩
    | named => trivial
  | _ => trivial

theorem Ends.foldl {state : ForwardState} {before : List Token} (h : state.Ends before)
    (ts : List Token) : (ts.foldl ForwardState.step state).Ends (before ++ ts) := by
  induction ts generalizing state before with
  | nil =>
    rw [List.append_nil]
    exact h
  | cons t ts ih =>
    have hnext := ih (h.step t)
    rw [List.append_assoc, List.singleton_append] at hnext
    exact hnext

end ForwardState

theorem forwardFrom_step {state : ForwardState} {t : Token} {ts : List Token}
    (h : forwardFrom state (t :: ts) = false) : forwardFrom (state.step t) ts = false := by
  cases t with
  | semicolon =>
    cases state with
    | named => simp [forwardFrom] at h
    | _ => simpa [forwardFrom, ForwardState.step] using h
  | _ => simpa [forwardFrom, ForwardState.step] using h

theorem forwardFrom_foldl {state : ForwardState} {before after : List Token}
    (h : forwardFrom state (before ++ after) = false) :
    forwardFrom (before.foldl ForwardState.step state) after = false := by
  induction before generalizing state with
  | nil => exact h
  | cons t before ih => exact ih (forwardFrom_step h)

theorem forwardFrom_struct (n : Nat) {name : String} (after : List Token)
    (h : name ≠ "__isl_export") : forwardFrom .nothing (.word "struct" ::
      (List.replicate n (.word "__isl_export") ++ .word name :: .semicolon :: after)) = true := by
  have hname : forwardFrom .structWord
      (List.replicate n (.word "__isl_export") ++ .word name :: .semicolon :: after) = true := by
    induction n with
    | zero => simp [forwardFrom, ForwardState.afterWord, h]
    | succ n ih => simpa [List.replicate_succ, forwardFrom, ForwardState.afterWord] using ih
  simpa [forwardFrom, ForwardState.afterWord] using hname

/-- The tokens end in `struct`, with or without a name behind it. -/
def EndsInStruct (ts : List Token) : Prop :=
  ForwardState.structWord.Ends ts ∨ ForwardState.named.Ends ts

theorem endsInStruct_of_forwardFrom {before after : List Token} {n : Nat} {name : String}
    (hname : name ≠ "__isl_export")
    (h : forwardFrom .nothing (before ++ .word "struct" ::
      (List.replicate n (.word "__isl_export") ++ .word name :: .semicolon :: after)) = false) :
    EndsInStruct before := by
  have hstart : ForwardState.nothing.Ends [] := trivial
  have hends := hstart.foldl before
  have hrest := forwardFrom_foldl h
  cases hstate : before.foldl ForwardState.step .nothing with
  | nothing =>
    rw [hstate, forwardFrom_struct n after hname] at hrest
    cases hrest
  | structWord =>
    rw [hstate] at hends
    exact .inl hends
  | named =>
    rw [hstate] at hends
    exact .inr hends

theorem declaresStruct_trim (s : List Char) : declaresStruct (trim s) = declaresStruct s := by
  rw [declaresStruct, lex_trim, declaresStruct]

theorem isBalanced_trim (s : List Char) : isBalanced (trim s) = isBalanced s := by
  rw [isBalanced, isBalanced, count_trim (by decide), count_trim (by decide)]

/-! ### Lines put together -/

theorem mem_piecesOf {line l : List Char} (h : l ∈ piecesOf line) : trim l = l := by
  rw [piecesOf] at h
  split at h
  · cases h
  · obtain ⟨p, -, rfl⟩ := List.mem_map.mp h
    exact trim_trim p

theorem trim_of_mem_logicalFrom {pending : Option (List Char)} {ls : List (List Char)}
    {l : List Char} (h : l ∈ logicalFrom pending ls) : trim l = l := by
  fun_induction logicalFrom pending ls with
  | case1 => cases h
  | case2 line => exact mem_piecesOf h
  | case3 pending raw rest line hopen ih => exact ih h
  | case4 pending raw rest line hclosed ih =>
    rcases List.mem_append.mp h with h | h
    · exact mem_piecesOf h
    · exact ih h

theorem collected_eq_intercalate {ls : List (List Char)} (h : ls ≠ []) :
    collected ls = [' '].intercalate ls ++ [' '] := by
  induction ls with
  | nil => exact absurd rfl h
  | cons l ls ih =>
    rw [collected_cons]
    cases ls with
    | nil => rw [collected_nil, List.append_nil, List.intercalate_singleton]
    | cons m ls => rw [ih nofun, List.intercalate_cons_cons, List.append_assoc, List.append_assoc,
        List.append_assoc]

theorem trim_collected {ls : List (List Char)} (h : ls ≠ []) :
    trim (collected ls) = trim ([' '].intercalate ls) := by
  rw [collected_eq_intercalate h, trim_append_right_of_blank _ allBlank_space]

theorem trim_intercalate {ls : List (List Char)} (hne : ls ≠ []) (h : ∀ l ∈ ls, IsSolid l) :
    trim ([' '].intercalate ls) = [' '].intercalate ls ∧ [' '].intercalate ls ≠ [] := by
  induction ls with
  | nil => exact absurd rfl hne
  | cons l ls ih =>
    obtain ⟨hl, hls⟩ := List.forall_mem_cons.mp h
    cases ls with
    | nil =>
      rw [List.intercalate_singleton]
      exact ⟨hl.trim, hl.ne_nil⟩
    | cons m ls =>
      obtain ⟨htrim, hrest⟩ := ih nofun hls
      have hstart := trimStart_trim ([' '].intercalate (m :: ls))
      rw [htrim] at hstart
      rw [List.intercalate_cons_cons, hl.trim_append (by rwa [htrim]) [' '] hstart, htrim]
      exact ⟨rfl, by simp⟩

theorem isBalanced_collected {ls : List (List Char)} (h : ls ≠ []) :
    isBalanced (collected ls) = isBalanced ([' '].intercalate ls) := by
  rw [← isBalanced_trim, trim_collected h, isBalanced_trim]

/-! ### Found texts -/

/-- How a text is read off the lines of its run. -/
structure IsReadFrom (s : List Char) (ls : List (List Char)) : Prop where
  joined : s = trim ([' '].intercalate ls)
  single : [] ∉ ls → s = [' '].intercalate ls
  shortest : ∀ p q, ls = p ++ q → q ≠ [] → isBalanced ([' '].intercalate p) = false
  noForward : ∀ before n name after, lex s = before ++ .word "struct" ::
    (List.replicate n (.word "__isl_export") ++ .word name :: .semicolon :: after) →
      name = "__isl_export" ∨ EndsInStruct before

/-- What is found in a text, run by run. -/
structure IsFoundIn (runs : List Run) (text : String) : Prop where
  partition : runs.flatMap Run.lines = logicalLines text.toList
  trimmed : ∀ l ∈ logicalLines text.toList, trim l = l
  nonempty : ∀ r ∈ runs, r.lines ≠ []
  found : prototypes text = (runs.filterMap Run.found?).map String.ofList
  readFrom : ∀ r ∈ runs, ∀ s, r.found? = some s → IsReadFrom s r.lines
  balanced : ∀ s ∈ (prototypes text).dropLast,
    s.toList.count '(' = s.toList.count ')' ∧ 0 < s.toList.count '('

namespace Run.IsRun

variable {r : Run} {s : List Char}

theorem of_found? (hfound : r.found? = some s) : r.kind = .declaration ∧
    declaresStruct (collected r.lines) = false ∧ s = trim (collected r.lines) := by
  rw [found?] at hfound
  split at hfound
  · next hkind =>
    split at hfound
    · cases hfound
    · next hstruct =>
      cases hfound
      exact ⟨hkind, Bool.eq_false_iff.mpr hstruct, rfl⟩
  · cases hfound

theorem isReadFrom (h : r.IsRun) (htrim : ∀ l ∈ r.lines, trim l = l) (hfound : r.found? = some s) :
    IsReadFrom s r.lines := by
  obtain ⟨hkind, hstruct, rfl⟩ := of_found? hfound
  have hjoined := trim_collected h.lines_ne_nil
  constructor
  case joined => exact hjoined
  case single =>
    intro hblank
    have hsolid : ∀ l ∈ r.lines, IsSolid l := by
      intro l hl
      have hne : trim l ≠ [] := by
        rw [htrim l hl]
        exact fun he => hblank (he ▸ hl)
      exact htrim l hl ▸ isSolid_trim hne
    rw [hjoined, (trim_intercalate h.lines_ne_nil hsolid).1]
  case shortest =>
    intro p q hpq hq
    by_cases hp : p = []
    · rw [hp]
      rfl
    · have hends := h.shortest p q hpq hp hq
      rw [hkind, RunKind.Ends, not_or, isBalanced_collected hp] at hends
      exact Bool.eq_false_iff.mpr hends.2
  case noForward =>
    intro before n name after hlex
    rw [← declaresStruct_trim, declaresStruct, hlex] at hstruct
    by_cases hname : name = "__isl_export"
    · exact .inl hname
    · exact .inr (endsInStruct_of_forwardFrom hname hstruct)

theorem isBalanced_of_found? (hfinished : r.IsFinished) (hfound : r.found? = some s) :
    isBalanced s = true := by
  obtain ⟨hkind, hstruct, rfl⟩ := of_found? hfound
  rw [IsFinished, hkind, RunKind.Ends, hstruct] at hfinished
  rw [isBalanced_trim]
  exact hfinished.resolve_left Bool.false_ne_true

end Run.IsRun

theorem IsDivision.isBalanced_dropLast {runs : List Run} {ls : List (List Char)}
    (h : IsDivision runs ls) :
    ∀ s ∈ (runs.filterMap Run.found?).dropLast, isBalanced s = true := by
  induction h with
  | nil => exact nofun
  | @last r hrun =>
    rw [filterMap_cons_toList]
    cases r.found? <;> exact nofun
  | @cons r runs ls hrun hfinished _ ih =>
    rw [filterMap_cons_toList]
    cases hfound : r.found? with
    | none => exact ih
    | some s =>
      rw [Option.toList_some, List.singleton_append]
      by_cases hrest : runs.filterMap Run.found? = []
      · rw [hrest]
        exact nofun
      · rw [List.dropLast_cons_of_ne_nil hrest, List.forall_mem_cons]
        exact ⟨Run.IsRun.isBalanced_of_found? hfinished hfound, ih⟩

theorem exists_isFoundIn (text : String) : ∃ runs, IsFoundIn runs text := by
  obtain ⟨runs, hruns⟩ := exists_isDivision (logicalLines text.toList)
  have htrim : ∀ l ∈ logicalLines text.toList, trim l = l := fun l hl => trim_of_mem_logicalFrom hl
  have hfound : prototypes text = (runs.filterMap Run.found?).map String.ofList := by
    rw [prototypes, hruns.searchFrom_eq]
  refine ⟨runs, hruns.flatMap_lines, htrim, fun r hr => (hruns.isRun hr).lines_ne_nil, hfound,
    fun r hr s hs => (hruns.isRun hr).isReadFrom (fun l hl => htrim l ?_) hs, fun s hs => ?_⟩
  · rw [← hruns.flatMap_lines]
    exact List.mem_flatMap.mpr ⟨r, hr, hl⟩
  · rw [hfound, ← List.map_dropLast] at hs
    obtain ⟨t, ht, rfl⟩ := List.mem_map.mp hs
    have hbalanced := hruns.isBalanced_dropLast t ht
    rw [isBalanced, Bool.and_eq_true, decide_eq_true_iff, beq_iff_eq] at hbalanced
    rw [String.toList_ofList]
    exact ⟨hbalanced.2, hbalanced.1⟩

/-- A second `struct` starts no forward declaration, and an annotation is no name. -/
theorem mem_prototypes_struct :
    (∃ s ∈ prototypes "struct a struct b;\n", ofText s =
      [.word "struct", .word "a"] ++ [.word "struct", .word "b", .semicolon]) ∧
      ∃ s ∈ prototypes "struct __isl_export;\n",
        ofText s = [.word "struct", .word "__isl_export", .semicolon] := by
  refine ⟨⟨"struct a struct b;", by decide +kernel, by decide +kernel⟩,
    "struct __isl_export;", by decide +kernel, by decide +kernel⟩

end IslBindings.Header
