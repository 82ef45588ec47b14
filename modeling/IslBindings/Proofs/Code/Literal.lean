import IslBindings.Code.Literal
import IslBindings.Proofs.Nesting
import IslBindings.Proofs.Text.Trimming

/-!
# Literals in code

A scan of C++ text tells what stands in a string literal from what is code. The spelling of a
text has no quote and no line feed in it that would end the literal, and is read back as the
text. The arguments of a call are cut at the commas that stand in code, so that a literal is
found whole whatever its text.
-/

namespace IslBindings.Code

/-! ### Places -/

/-- Where a character of a text stands. -/
inductive Place where
  | code
  | literal
  /-- In a literal, behind a backslash that makes it part of the text. -/
  | escaped
  deriving DecidableEq, Repr

namespace Place

/-- The place behind a character. -/
def next : Place → Char → Place
  | .code, c => if c = '"' then .literal else .code
  | .literal, c => if c = '"' then .code else if c = '\\' then .escaped else .literal
  | .escaped, _ => .literal

def after (p : Place) (s : List Char) : Place := s.foldl next p

theorem after_append (p : Place) (s t : List Char) : p.after (s ++ t) = (p.after s).after t :=
  List.foldl_append

end Place

/-- Each character with the place where it stands. -/
def placed : Place → List Char → List (Place × Char)
  | _, [] => []
  | p, c :: rest => (p, c) :: placed (p.next c) rest

theorem placed_append (p : Place) (s t : List Char) :
    placed p (s ++ t) = placed p s ++ placed (p.after s) t := by
  induction s generalizing p with
  | nil => rfl
  | cons c s ih =>
    rw [List.cons_append, placed, placed, ih, List.cons_append]
    rfl

theorem map_snd_placed (p : Place) (s : List Char) : (placed p s).map Prod.snd = s := by
  induction s generalizing p with
  | nil => rfl
  | cons c s ih => rw [placed, List.map_cons, ih]

/-! ### Spellings -/

/-- What stands between the quotes of a literal: no quote ends it and no backslash is left over
for the closing one, there is no line feed in it, and the escapes stand for the text. -/
structure Spells (body text : List Char) : Prop where
  unquoted : (.literal, '"') ∉ placed .literal body
  complete : Place.literal.after body = .literal
  noLineFeed : '\n' ∉ body
  text : unescapeAll? body = some text

theorem Spells.cons {body text : List Char} (h : Spells body text) (c : Char) :
    Spells (escape c ++ body) (c :: text) := by
  have hescape : (.literal, '"') ∉ placed .literal (escape c) ∧
      Place.literal.after (escape c) = .literal ∧ '\n' ∉ escape c := by
    by_cases hq : c = '"'
    · subst hq
      decide
    · by_cases hb : c = '\\'
      · subst hb
        decide
      · by_cases hn : c = '\n'
        · subst hn
          decide
        · simp [escape, placed, Place.after, Place.next, hq, hb, hn, Ne.symm hq, Ne.symm hn]
  obtain ⟨hunquoted, hcomplete, hline⟩ := hescape
  constructor
  case unquoted =>
    rw [placed_append, hcomplete, List.mem_append, not_or]
    exact ⟨hunquoted, h.unquoted⟩
  case complete => rw [Place.after_append, hcomplete, h.complete]
  case noLineFeed =>
    rw [List.mem_append, not_or]
    exact ⟨hline, h.noLineFeed⟩
  case text => rw [unescapeAll?_escape_append, h.text, Option.map_some]

theorem spells_escapeAll (s : List Char) : Spells (escapeAll s) s := by
  induction s with
  | nil => exact ⟨List.not_mem_nil, rfl, List.not_mem_nil, rfl⟩
  | cons c s ih =>
    rw [escapeAll, List.flatMap_cons, ← escapeAll]
    exact ih.cons c

theorem toList_literal (s : String) : (literal s).toList = '"' :: (escapeAll s.toList ++ ['"']) := by
  simp [literal]

/-- Text without quotes, backslashes and line feeds is its own spelling. -/
theorem escapeAll_of_plain {s : List Char} (h : ∀ c ∈ s, c ∉ ['"', '\\', '\n']) :
    escapeAll s = s := by
  induction s with
  | nil => rfl
  | cons c s ih =>
    obtain ⟨hc, hs⟩ := List.forall_mem_cons.mp h
    simp only [List.mem_cons, List.not_mem_nil, or_false, not_or] at hc
    have hescape : escape c = [c] := by simp [escape, hc]
    rw [escapeAll, List.flatMap_cons, ← escapeAll, ih hs, hescape]
    rfl

/-- The text of a literal; `none` for what is no literal. -/
def ofLiteral? : List Char → Option (List Char)
  | '"' :: rest => if rest.getLast? = some '"' then unescapeAll? rest.dropLast else none
  | _ => none

theorem ofLiteral?_literal (s : String) : ofLiteral? (literal s).toList = some s.toList := by
  rw [toList_literal, ofLiteral?, List.getLast?_concat, if_pos rfl, List.dropLast_concat,
    (spells_escapeAll s.toList).text]

/-! ### Arguments of a call -/

/-- Parentheses and commas count where they stand in code. -/
def mark : Place × Char → Nesting.Mark
  | (.code, c) =>
    if c = '(' then .opens else if c = ')' then .closes else if c = ',' then .separates else .plain
  | _ => .plain

/-- The arguments of the first call of a statement, without the blanks around them. -/
def callArguments? (statement : List Char) : Option (List (List Char)) :=
  match (placed .code statement).dropWhile (mark · != .opens) with
  | [] => none
  | _ :: inside =>
    (Nesting.close? mark 0 inside).map fun (inner, _) =>
      (Nesting.split mark inner).map fun arg => Text.trim (arg.map Prod.snd)

/-- The text of the last argument of the first call of a statement, if that is a literal. -/
def lastText? (statement : List Char) : Option (List Char) := do
  let args ← callArguments? statement
  let last ← args.getLast?
  ofLiteral? last

theorem placed_cons (p : Place) (c : Char) (s : List Char) :
    placed p (c :: s) = (p, c) :: placed (p.next c) s := rfl

theorem mark_eq_plain {x : Place × Char} (h : x.1 = .code → x.2 ∉ ['(', ')', ',']) :
    mark x = .plain := by
  obtain ⟨p, c⟩ := x
  cases p with
  | code =>
    have hc := h rfl
    simp only [List.mem_cons, List.not_mem_nil, or_false, not_or] at hc
    simp only [mark, if_neg hc.1, if_neg hc.2.1, if_neg hc.2.2]
  | literal => rfl
  | escaped => rfl

theorem eq_of_mark_eq_opens {c : Char} (h : mark (.code, c) = .opens) : c = '(' := by
  simp only [mark] at h
  grind

/-- Text without quotes is code all along. -/
theorem placed_of_unquoted {s : List Char} (h : '"' ∉ s) :
    placed .code s = s.map (Place.code, ·) ∧ Place.code.after s = .code := by
  induction s with
  | nil => exact ⟨rfl, rfl⟩
  | cons c s ih =>
    rw [List.mem_cons, not_or] at h
    have hnext : Place.code.next c = .code := if_neg (Ne.symm h.1)
    obtain ⟨hplaced, hafter⟩ := ih h.2
    refine ⟨by rw [placed_cons, hnext, hplaced, List.map_cons], ?_⟩
    rw [Place.after, List.foldl_cons, hnext]
    exact hafter

theorem not_code_of_unquoted {p : Place} (hp : p ≠ .code) {body : List Char}
    (h : (.literal, '"') ∉ placed p body) : ∀ x ∈ placed p body, x.1 ≠ .code := by
  induction body generalizing p with
  | nil => simp [placed]
  | cons c body ih =>
    rw [placed_cons, List.mem_cons, not_or] at h
    rw [placed_cons, List.forall_mem_cons]
    have hnext : p.next c ≠ .code := by
      cases p with
      | code => exact absurd rfl hp
      | literal =>
        have hc : c ≠ '"' := fun hc => h.1 (by rw [hc])
        simp only [Place.next, if_neg hc]
        split <;> simp
      | escaped => simp [Place.next]
    exact ⟨hp, ih hnext h.2⟩

/-- What can stand between two commas of a call. -/
structure IsArgument (s : List Char) : Prop where
  after : Place.code.after s = .code
  balanced : Nesting.Balanced mark false (placed .code s)

theorem IsArgument.append {s t : List Char} (hs : IsArgument s) (ht : IsArgument t) :
    IsArgument (s ++ t) where
  after := by rw [Place.after_append, hs.after, ht.after]
  balanced := by
    rw [placed_append, hs.after]
    exact hs.balanced.append ht.balanced

theorem isArgument_of_plain {s : List Char} (h : ∀ c ∈ s, c ∉ ['"', '(', ')', ',']) :
    IsArgument s := by
  obtain ⟨hplaced, hafter⟩ := placed_of_unquoted (s := s) fun hq => h '"' hq (by simp)
  refine ⟨hafter, hplaced ▸ Nesting.balanced_of_forall_plain fun x hx => ?_⟩
  obtain ⟨c, hc, rfl⟩ := List.mem_map.mp hx
  exact mark_eq_plain fun _ hmem => h c hc (List.mem_cons_of_mem _ hmem)

theorem Spells.isArgument {body text : List Char} (h : Spells body text) :
    IsArgument ('"' :: (body ++ ['"'])) := by
  have hafter : Place.code.after ['"'] = .literal := rfl
  have hcut : '"' :: (body ++ ['"']) = ['"'] ++ body ++ ['"'] := rfl
  have hlast : Place.code.after (['"'] ++ body) = .literal := by
    rw [Place.after_append, hafter, h.complete]
  refine ⟨by rw [hcut, Place.after_append, hlast]; rfl, ?_⟩
  rw [hcut, placed_append, placed_append, hlast, hafter]
  refine Nesting.balanced_of_forall_plain fun x hx => mark_eq_plain fun hcode => ?_
  rcases List.mem_append.mp hx with hx | hx
  · rcases List.mem_append.mp hx with hx | hx
    · rw [List.mem_singleton.mp hx]
      decide
    · exact absurd hcode (not_code_of_unquoted (by simp) h.unquoted x hx)
  · rw [List.mem_singleton.mp hx]
    decide

theorem IsArgument.inParentheses {s : List Char} (h : IsArgument s) :
    IsArgument ('(' :: (s ++ [')'])) := by
  have hnext : Place.code.next '(' = .code := rfl
  constructor
  case after =>
    show Place.code.after (s ++ [')']) = .code
    rw [Place.after_append, h.after]
    rfl
  case balanced =>
    rw [placed_cons, hnext, placed_append, h.after]
    exact .group rfl h.balanced.outside rfl .nil

theorem placed_intercalate {args : List (List Char)} (h : ∀ a ∈ args, IsArgument a) :
    placed .code ([','].intercalate args) =
        [(.code, ',')].intercalate (args.map (placed .code)) ∧
      Place.code.after ([','].intercalate args) = .code := by
  induction args with
  | nil => exact ⟨rfl, rfl⟩
  | cons a args ih =>
    obtain ⟨ha, hargs⟩ := List.forall_mem_cons.mp h
    cases args with
    | nil =>
      rw [List.map_singleton, List.intercalate_singleton, List.intercalate_singleton]
      exact ⟨rfl, ha.after⟩
    | cons b args =>
      obtain ⟨hplaced, hafter⟩ := ih hargs
      have hcomma : Place.code.after [','] = .code := rfl
      rw [List.map_cons] at hplaced
      rw [List.map_cons, List.map_cons, List.intercalate_cons_cons, List.intercalate_cons_cons,
        placed_append, placed_append, Place.after_append, Place.after_append, Place.after_append,
        ha.after, hcomma, hplaced, hafter]
      exact ⟨rfl, rfl⟩

theorem callArguments?_call {front rest : List Char} {args : List (List Char)}
    (hfront : '"' ∉ front ∧ '(' ∉ front) (hne : args ≠ []) (hargs : ∀ a ∈ args, IsArgument a) :
    callArguments? (front ++ '(' :: ([','].intercalate args ++ ')' :: rest)) =
      some (args.map Text.trim) := by
  obtain ⟨hplaced, hafter⟩ := placed_of_unquoted hfront.1
  obtain ⟨hinner, hclose⟩ := placed_intercalate hargs
  have hnext : Place.code.next '(' = .code := rfl
  have hbalanced : ∀ g ∈ args.map (placed .code), Nesting.Balanced mark false g := by
    intro g hg
    obtain ⟨a, ha, rfl⟩ := List.mem_map.mp hg
    exact (hargs a ha).balanced
  have hpass : ∀ x ∈ front.map (Place.code, ·), (mark x != .opens) = true := by
    intro x hx
    obtain ⟨c, hc, rfl⟩ := List.mem_map.mp hx
    rw [bne_iff_ne]
    intro hopens
    exact hfront.2 (eq_of_mark_eq_opens hopens ▸ hc)
  have hstop : (placed .code (front ++ '(' :: ([','].intercalate args ++ ')' :: rest))).dropWhile
      (mark · != .opens) = (.code, '(') :: ([(.code, ',')].intercalate (args.map (placed .code)) ++
        (.code, ')') :: placed .code rest) := by
    rw [placed_append, hafter, hplaced, List.dropWhile_append_of_pos hpass, placed_cons, hnext,
      placed_append, hclose, hinner]
    rfl
  rw [callArguments?, hstop]
  simp only
  rw [Nesting.close?_balanced (Nesting.balanced_intercalate rfl hbalanced) rfl, Option.map_some,
    Nesting.split_intercalate rfl (by simpa using hne) hbalanced, List.map_map]
  refine congrArg some (List.map_congr_left fun a _ => ?_)
  rw [Function.comp_apply, map_snd_placed]

end IslBindings.Code
