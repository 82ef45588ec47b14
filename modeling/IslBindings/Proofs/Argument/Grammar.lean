import IslBindings.Declaration
import IslBindings.Proofs.Argument.RoundTrip
import IslBindings.Proofs.Lists

/-!
# The grammar of arguments

An argument is `words stars name`, or `words stars (*name)(list)` with a list of arguments. The
arguments that are read are those of a dialect of the documented grammar: the list of a callback
may have empty places, and anything may follow it, but it may not be `void`.
-/

namespace IslBindings

/-! ### Types -/

/-- The words that name a type, without annotations and tags. -/
def typeWords (words : List String) : List String :=
  (words.filter fun w => (Ownership.ofWord? w).isNone).filter (!isTag ·)

/-- There is at most one annotation. -/
def IsOwnedOnce (words : List String) : Prop := (words.filterMap Ownership.ofWord?).length ≤ 1

def withoutConst (words : List String) : List String :=
  if words.head? = some "const" then words.drop 1 else words

def NamesValueType (words : List String) : Prop :=
  IsOwnedOnce words ∧ withoutConst (typeWords words) ≠ []

def NamesResultType (words : List String) : Prop :=
  IsOwnedOnce words ∧ (typeWords words).filter (· != "const") ≠ []

instance (words : List String) : Decidable (NamesValueType words) :=
  inferInstanceAs (Decidable ((words.filterMap Ownership.ofWord?).length ≤ 1 ∧ _))

instance (words : List String) : Decidable (NamesResultType words) :=
  inferInstanceAs (Decidable ((words.filterMap Ownership.ofWord?).length ≤ 1 ∧ _))

/-! ### Dialects -/

/-- What a dialect of the grammar lets pass. -/
structure Dialect where
  /-- The list of a callback may be the word `void`. -/
  void : Bool
  /-- Places between the commas of a list may be empty. -/
  gaps : Bool
  /-- Tokens may follow the list of a callback. -/
  tail : Bool
  deriving DecidableEq, Repr

namespace Dialect

/-- The grammar as it is documented. -/
def documented : Dialect := { void := true, gaps := false, tail := false }

/-- What is read. -/
def read : Dialect := { void := false, gaps := true, tail := true }

/-- What both have. -/
def strict : Dialect := { void := false, gaps := false, tail := false }

/-- What stands behind an argument; it has no ellipsis. -/
def Allows (d : Dialect) (tail : List Token) : Prop :=
  tail = [] ∨ d.tail = true ∧ .ellipsis ∉ tail

end Dialect

/-- The tokens `(*name)(list)`. -/
def callbackTokens (name : String) (list : List Token) : List Token :=
  .openParen :: .star :: .word name :: .closeParen :: .openParen :: (list ++ [.closeParen])

inductive IsArgument (d : Dialect) : List Token → Prop
  | value {words : List String} {depth : Depth} {name : String} (type : NamesValueType words) :
      IsArgument d (front words depth ++ [.word name])
  /-- Where anything may follow a callback, a place of the list is still bounded by its commas. -/
  | callback {words : List String} {depth : Depth} {name : String} {groups : List (List Token)}
      {tail : List Token} (type : NamesResultType words)
      (args : ∀ g ∈ groups, g ≠ [] → IsArgument d g) (gaps : d.gaps = true ∨ [] ∉ groups)
      (bounded : d.tail = true → ∀ g ∈ groups, Nesting.Balanced Token.mark false g)
      (allowed : d.Allows tail) :
      IsArgument d (front words depth ++ callbackTokens name (commaSeparated groups) ++ tail)
  | callbackOfVoid {words : List String} {depth : Depth} {name : String} {tail : List Token}
      (void : d.void = true) (type : NamesResultType words) (allowed : d.Allows tail) :
      IsArgument d (front words depth ++ callbackTokens name [.word "void"] ++ tail)

/-! ### Reading words -/

section Words

variable {words : List String} {name text : String} {depth : Depth}

theorem splitOwnership_of_isOwnedOnce (h : IsOwnedOnce words) (context : String) :
    ∃ o rest, splitOwnership words context = .ok (o, rest) ∧
      rest.filter (!isTag ·) = typeWords words := by
  rw [IsOwnedOnce] at h
  rw [splitOwnership]
  cases hwords : words.filterMap Ownership.ofWord? with
  | nil =>
    have hall : (words.filter fun w => (Ownership.ofWord? w).isNone) = words := by
      rw [List.filter_eq_self]
      intro w hw
      rw [List.filterMap_eq_nil_iff.mp hwords w hw]
      rfl
    exact ⟨none, words, rfl, by rw [typeWords, hall]⟩
  | cons o os =>
    rw [hwords] at h
    cases os with
    | nil => exact ⟨some o, _, rfl, rfl⟩
    | cons o' os => simp at h

theorem splitOwnership_of_not_isOwnedOnce (h : ¬IsOwnedOnce words) (context : String) :
    splitOwnership words context = .error (.conflictingAnnotations context) := by
  rw [IsOwnedOnce] at h
  rw [splitOwnership]
  cases hwords : words.filterMap Ownership.ofWord? with
  | nil => simp [hwords] at h
  | cons o os =>
    cases os with
    | nil => simp [hwords] at h
    | cons o' os => rfl

theorem succeeds_ofWords_iff :
    Succeeds (ValueArgument.ofWords name words depth text) ↔ NamesValueType words := by
  rw [NamesValueType, ValueArgument.ofWords]
  by_cases howned : IsOwnedOnce words
  · obtain ⟨o, rest, hsplit, hrest⟩ := splitOwnership_of_isOwnedOnce howned text
    rw [hsplit]
    simp only [bind, Except.bind, hrest, beq_iff_eq]
    rw [show (if (typeWords words).head? = some "const" then (typeWords words).drop 1
      else typeWords words) = withoutConst (typeWords words) from rfl]
    cases withoutConst (typeWords words) with
    | nil => simp [Succeeds, throw, throwThe, MonadExceptOf.throw]
    | cons w ws => simp [Succeeds, howned, pure, Except.pure]
  · rw [splitOwnership_of_not_isOwnedOnce howned]
    exact ⟨fun h => absurd h (not_succeeds_error _), fun h => absurd h.1 howned⟩

theorem succeeds_result_iff {inner : List Token} :
    Succeeds (CallbackHead.result { name, words, depth, inner } text) ↔ NamesResultType words := by
  rw [NamesResultType, CallbackHead.result]
  by_cases howned : IsOwnedOnce words
  · obtain ⟨o, rest, hsplit, hrest⟩ := splitOwnership_of_isOwnedOnce howned text
    have hkept : (rest.filter fun w => !isTag w && w != "const") =
        (typeWords words).filter (· != "const") := by
      rw [← hrest, List.filter_filter]
      exact List.filter_congr fun w _ => Bool.and_comm ..
    rw [hsplit]
    simp only [bind, Except.bind, hkept]
    cases (typeWords words).filter (· != "const") with
    | nil => simp [Succeeds, throw, throwThe, MonadExceptOf.throw]
    | cons w ws => simp [Succeeds, howned, pure, Except.pure]
  · rw [splitOwnership_of_not_isOwnedOnce howned]
    exact ⟨fun h => absurd h (not_succeeds_error _), fun h => absurd h.1 howned⟩

theorem eq_of_wordsThenStars? {tokens : List Token} {stars : Nat}
    (h : wordsThenStars? tokens = some (words, stars)) :
    tokens = words.map .word ++ List.replicate stars .star := by
  induction tokens generalizing words stars with
  | nil =>
    cases h
    rfl
  | cons t tokens ih =>
    cases t with
    | word w =>
      obtain ⟨⟨ws, n⟩, hrest, heq⟩ := Option.map_eq_some_iff.mp h
      cases heq
      rw [ih hrest, List.map_cons, List.cons_append]
    | star =>
      rw [wordsThenStars?] at h
      split at h
      · next hall =>
        cases h
        have hstars : ∀ t ∈ tokens, t = .star := fun t ht =>
          beq_iff_eq.mp (List.all_eq_true.mp hall t ht)
        rw [List.map_nil, List.nil_append, List.replicate_succ, ← List.eq_replicate_of_mem hstars]
      · cases h
    | _ => cases h

theorem eq_front_of_wordsThenDepth? {tokens : List Token}
    (h : wordsThenDepth? tokens = some (words, depth)) : tokens = front words depth := by
  obtain ⟨⟨ws, stars⟩, hstars, h⟩ := Option.bind_eq_some_iff.mp h
  obtain ⟨d, hd, heq⟩ := Option.map_eq_some_iff.mp h
  cases heq
  rw [eq_of_wordsThenStars? hstars, Depth.ofStars?_eq_some_iff.mp hd, front]

end Words

/-! ### Reading values -/

section Tokens

variable {words : List String} {depth : Depth} {name text : String} {inner tail tokens : List Token}

theorem eq_of_succeeds_ofTokens (h : Succeeds (ValueArgument.ofTokens tokens)) :
    ∃ words depth name, tokens = front words depth ++ [.word name] := by
  simp only [ValueArgument.ofTokens] at h
  split at h
  · next name hlast =>
    split at h
    · next words depth hfront =>
      obtain ⟨head, rfl⟩ := List.getLast?_eq_some_iff.mp hlast
      rw [List.dropLast_concat] at hfront
      exact ⟨words, depth, name, by rw [eq_front_of_wordsThenDepth? hfront]⟩
    · exact absurd h (not_succeeds_error _)
  · exact absurd h (not_succeeds_error _)

/-! ### Reading callbacks -/

theorem eq_of_cutAtCallback? {before after : List Token}
    (h : cutAtCallback? tokens = some (before, after)) :
    tokens = before ++ .openParen :: .star :: after := by
  induction tokens using cutAtCallback?.induct generalizing before with
  | case1 => cases h
  | case2 rest =>
    cases h
    rfl
  | case3 t rest hno ih =>
    rw [cutAtCallback?.eq_3 t rest hno] at h
    obtain ⟨⟨b, a⟩, hrest, heq⟩ := Option.map_eq_some_iff.mp h
    cases heq
    rw [ih hrest, List.cons_append]

theorem mark_eq_separates {t : Token} (h : t.mark = .separates) : t = .comma := by
  cases t <;> first | rfl | cases h

theorem mark_eq_closes {t : Token} (h : t.mark = .closes) : t = .closeParen := by
  cases t <;> first | rfl | cases h

theorem eq_of_ofParts? {before after : List Token} {head : CallbackHead}
    (h : CallbackHead.ofParts? before after = some head) :
    ∃ tail, before = front head.words head.depth ∧
      after = .word head.name :: .closeParen :: .openParen :: (head.inner ++ .closeParen :: tail) ∧
      Nesting.Balanced Token.mark true head.inner := by
  unfold CallbackHead.ofParts? at h
  split at h
  · next name rest =>
    obtain ⟨⟨inner, tail⟩, hclose, h⟩ := Option.bind_eq_some_iff.mp h
    obtain ⟨⟨words, depth⟩, hfront, heq⟩ := Option.map_eq_some_iff.mp h
    cases heq
    obtain ⟨c, hc, rfl⟩ := Nesting.exists_append_of_close? Token.mark hclose
    rw [mark_eq_closes hc]
    exact ⟨tail, eq_front_of_wordsThenDepth? hfront, rfl, Nesting.balanced_of_close? hclose⟩
  · cases h

theorem cutAtCallback?_callbackTokens (words : List String) (depth : Depth) (name : String)
    (inner tail : List Token) :
    cutAtCallback? (front words depth ++ callbackTokens name inner ++ tail) =
      some (front words depth,
        .word name :: .closeParen :: .openParen :: (inner ++ .closeParen :: tail)) := by
  have hopen : .openParen ∉ front words depth := not_mem_front (by simp) (by simp) _ _
  have hcut := cutAtCallback?_append hopen
    (.word name :: .closeParen :: .openParen :: (inner ++ .closeParen :: tail))
  rw [← hcut]
  simp [callbackTokens]

end Tokens

/-! ### Reading arguments -/

section Within

variable {words : List String} {depth : Depth} {name : String} {inner tail tokens : List Token}
  {fuel : Nat}

theorem contains_ellipsis (h : .ellipsis ∉ tokens) : tokens.contains .ellipsis = false :=
  Bool.eq_false_iff.mpr fun hc => h (List.contains_iff_mem.mp hc)

theorem succeeds_within_value_iff :
    Succeeds (Argument.ofTokensWithin (fuel + 1) (front words depth ++ [.word name])) ↔
      NamesValueType words := by
  have hno : ∀ t : Token, (∀ w, t ≠ .word w) → t ≠ .star →
      t ∉ front words depth ++ [.word name] := by
    intro t hword hstar hmem
    rcases List.mem_append.mp hmem with hmem | hmem
    · exact not_mem_front hword hstar words depth hmem
    · exact hword name (List.mem_singleton.mp hmem)
  have hellipsis := contains_ellipsis (hno .ellipsis (by simp) (by simp))
  have hopen := hno .openParen (by simp) (by simp)
  rw [Argument.ofTokensWithin, hellipsis, cutAtCallback?_of_not_mem hopen,
    ValueArgument.ofTokens_front, ← succeeds_ofWords_iff]
  exact succeeds_map_iff

theorem succeeds_within_callback_iff (hinner : Nesting.Balanced Token.mark true inner)
    (hellipsis : .ellipsis ∉ front words depth ++ callbackTokens name inner ++ tail) :
    Succeeds (Argument.ofTokensWithin (fuel + 1)
        (front words depth ++ callbackTokens name inner ++ tail)) ↔
      NamesResultType words ∧ ∀ g ∈ Nesting.split Token.mark inner, g ≠ [] →
        Succeeds (Argument.ofTokensWithin fuel g) := by
  have hgroups : (∀ g ∈ CallbackHead.groups { name, words, depth, inner },
      Succeeds (Argument.ofTokensWithin fuel g)) ↔
      ∀ g ∈ Nesting.split Token.mark inner, g ≠ [] → Succeeds (Argument.ofTokensWithin fuel g) := by
    simp [CallbackHead.groups]
  rw [Argument.ofTokensWithin, contains_ellipsis hellipsis, cutAtCallback?_callbackTokens,
    if_neg (by simp), ← hgroups, ← succeeds_mapM_iff]
  simp only [CallbackHead.ofParts?_front hinner]
  rw [succeeds_bind_iff]
  constructor
  · rintro ⟨result, hresult, h⟩
    obtain ⟨args, hargs, -⟩ := succeeds_bind_iff.mp h
    exact ⟨succeeds_result_iff.mp ⟨result, hresult⟩, args, hargs⟩
  · rintro ⟨htype, hargs⟩
    obtain ⟨result, hresult⟩ := succeeds_result_iff.mpr htype
    obtain ⟨args, hargs⟩ := hargs
    exact ⟨result, hresult, succeeds_bind_iff.mpr ⟨args, hargs, succeeds_ok _⟩⟩

theorem shape_of_succeeds_within (h : Succeeds (Argument.ofTokensWithin fuel tokens)) :
    .ellipsis ∉ tokens ∧ ((∃ words depth name, tokens = front words depth ++ [.word name]) ∨
      ∃ words depth name inner tail, Nesting.Balanced Token.mark true inner ∧
        tokens = front words depth ++ callbackTokens name inner ++ tail) := by
  cases fuel with
  | zero => exact absurd h (not_succeeds_error _)
  | succ fuel =>
    rw [Argument.ofTokensWithin] at h
    split at h
    · exact absurd h (not_succeeds_error _)
    · next hellipsis =>
      refine ⟨fun hmem => hellipsis (List.contains_iff_mem.mpr hmem), ?_⟩
      split at h
      · exact .inl (eq_of_succeeds_ofTokens (succeeds_map_iff.mp h))
      · next before after hcut =>
        split at h
        · exact absurd h (not_succeeds_error _)
        · next head hparts =>
          obtain ⟨tail, rfl, rfl, hbalanced⟩ := eq_of_ofParts? hparts
          refine .inr ⟨head.words, head.depth, head.name, head.inner, tail, hbalanced, ?_⟩
          rw [eq_of_cutAtCallback? hcut]
          simp [callbackTokens]

end Within

/-! ### Dialects and tokens -/

section Dialect

variable {d e : Dialect} {words : List String} {depth : Depth} {name : String}
  {inner tail tokens : List Token} {groups : List (List Token)}

theorem Dialect.Allows.not_mem_ellipsis (h : d.Allows tail) : .ellipsis ∉ tail := by
  rcases h with rfl | h
  · exact List.not_mem_nil
  · exact h.2

theorem Dialect.Allows.eq_nil (h : d.Allows tail) (hd : d.tail = false) : tail = [] := by
  rcases h with h | h
  · exact h
  · exact absurd (h.1.symm.trans hd) (by simp)

theorem Dialect.Allows.mono (h : d.Allows tail) (htail : d.tail = true → e.tail = true) :
    e.Allows tail :=
  h.imp_right fun h => ⟨htail h.1, h.2⟩

theorem not_mem_ellipsis_front (words : List String) (depth : Depth) :
    .ellipsis ∉ front words depth :=
  not_mem_front (by simp) (by simp) words depth

theorem not_mem_ellipsis_callback (hinner : .ellipsis ∉ inner) (htail : .ellipsis ∉ tail) :
    .ellipsis ∉ front words depth ++ callbackTokens name inner ++ tail := by
  simp [callbackTokens, not_mem_ellipsis_front, hinner, htail]

theorem IsArgument.not_mem_ellipsis (h : IsArgument d tokens) : .ellipsis ∉ tokens := by
  induction h with
  | value type => simp [not_mem_ellipsis_front]
  | @callback words depth name groups tail type args gaps bounded allowed ih =>
    refine not_mem_ellipsis_callback (Text.not_mem_intercalate (by simp) fun g hg => ?_)
      allowed.not_mem_ellipsis
    by_cases hnil : g = []
    · rw [hnil]
      exact List.not_mem_nil
    · exact ih g hg hnil
  | callbackOfVoid void type allowed =>
    exact not_mem_ellipsis_callback (by simp) allowed.not_mem_ellipsis

theorem balanced_callback (h : Nesting.Balanced Token.mark true inner) :
    Nesting.Balanced Token.mark false (front words depth ++ callbackTokens name inner ++ []) := by
  have hname : Nesting.Balanced Token.mark true [.star, .word name] := .plain rfl (.plain rfl .nil)
  rw [List.append_nil]
  exact (balanced_front words depth).append (.group rfl hname rfl (.group rfl h rfl .nil))

/-- Where nothing follows a callback, all commas of an argument stand in parentheses. -/
theorem IsArgument.balanced (h : IsArgument d tokens) (hd : d.tail = false) :
    Nesting.Balanced Token.mark false tokens := by
  induction h with
  | @value words depth name type => exact (balanced_front words depth).append (.plain rfl .nil)
  | @callback words depth name groups tail type args gaps bounded allowed ih =>
    rw [allowed.eq_nil hd]
    refine balanced_callback (Nesting.balanced_intercalate rfl fun g hg => ?_)
    by_cases hnil : g = []
    · rw [hnil]
      exact .nil
    · exact ih g hg hnil
  | callbackOfVoid void type allowed =>
    rw [allowed.eq_nil hd]
    exact balanced_callback (.plain rfl .nil)

theorem balanced_places (args : ∀ g ∈ groups, g ≠ [] → IsArgument d g)
    (bounded : d.tail = true → ∀ g ∈ groups, Nesting.Balanced Token.mark false g) :
    ∀ g ∈ groups, Nesting.Balanced Token.mark false g := by
  intro g hg
  cases hd : d.tail with
  | true => exact bounded hd g hg
  | false =>
    by_cases hnil : g = []
    · rw [hnil]
      exact .nil
    · exact (args g hg hnil).balanced hd

theorem IsArgument.mono (hvoid : d.void = true → e.void = true)
    (hgaps : d.gaps = true → e.gaps = true) (htail : d.tail = true → e.tail = true)
    (h : IsArgument d tokens) : IsArgument e tokens := by
  induction h with
  | value type => exact .value type
  | callback type args gaps bounded allowed ih =>
    exact .callback type ih (gaps.imp_left hgaps) (fun _ => balanced_places args bounded)
      (allowed.mono htail)
  | callbackOfVoid void type allowed => exact .callbackOfVoid (hvoid void) type (allowed.mono htail)

theorem mem_split_commaSeparated (h : ∀ g ∈ groups, Nesting.Balanced Token.mark false g)
    {g : List Token} (hg : g ≠ []) :
    g ∈ Nesting.split Token.mark (commaSeparated groups) ↔ g ∈ groups := by
  by_cases hnil : groups = []
  · subst hnil
    simpa [commaSeparated, Nesting.split, Nesting.splitFrom] using hg
  · rw [commaSeparated, Nesting.split_intercalate rfl hnil h]

end Dialect

/-! ### What is read -/

section Read

variable {tokens : List Token} {fuel : Nat}

theorem IsArgument.succeeds (h : IsArgument .read tokens) (hfuel : tokens.length < fuel) :
    Succeeds (Argument.ofTokensWithin fuel tokens) := by
  induction h generalizing fuel with
  | value type =>
    obtain ⟨fuel, rfl⟩ := Nat.exists_eq_add_one_of_ne_zero (Nat.ne_of_gt (Nat.zero_lt_of_lt hfuel))
    exact succeeds_within_value_iff.mpr type
  | @callback words depth name groups tail type args gaps bounded allowed ih =>
    obtain ⟨fuel, rfl⟩ := Nat.exists_eq_add_one_of_ne_zero (Nat.ne_of_gt (Nat.zero_lt_of_lt hfuel))
    have hbalanced := bounded rfl
    have hinner : Nesting.Balanced Token.mark true (commaSeparated groups) :=
      Nesting.balanced_intercalate rfl hbalanced
    have hellipsis : .ellipsis ∉ front words depth ++
        callbackTokens name (commaSeparated groups) ++ tail :=
      (IsArgument.callback type args gaps bounded allowed).not_mem_ellipsis
    refine (succeeds_within_callback_iff hinner hellipsis).mpr ⟨type, fun g hg hnil => ?_⟩
    have hmem := (mem_split_commaSeparated hbalanced hnil).mp hg
    refine ih g hmem hnil ?_
    have hlength := Prints.length_le hbalanced hmem
    simp only [callbackTokens, List.length_append, List.length_cons] at hfuel
    omega
  | callbackOfVoid void => cases void

theorem isArgument_of_succeeds (h : Succeeds (Argument.ofTokensWithin fuel tokens)) :
    IsArgument .read tokens := by
  induction fuel generalizing tokens with
  | zero => exact absurd h (not_succeeds_error _)
  | succ fuel ih =>
    obtain ⟨hellipsis, hshape⟩ := shape_of_succeeds_within h
    rcases hshape with ⟨words, depth, name, rfl⟩ | ⟨words, depth, name, inner, tail, hinner, rfl⟩
    · exact .value (succeeds_within_value_iff.mp h)
    · obtain ⟨type, hargs⟩ := (succeeds_within_callback_iff hinner hellipsis).mp h
      obtain ⟨g, gs, rfl, hbalanced⟩ := hinner.exists_groups fun _ => mark_eq_separates
      have htail : .ellipsis ∉ tail := fun hmem => hellipsis (List.mem_append_right _ hmem)
      refine .callback type (fun k hk hnil => ih (hargs k ?_ hnil)) (.inl rfl) (fun _ => hbalanced)
        (.inr ⟨rfl, htail⟩)
      exact (mem_split_commaSeparated hbalanced hnil).mpr hk

theorem not_succeeds_word (w : String) : ¬Succeeds (Argument.ofTokensWithin fuel [.word w]) := by
  intro h
  cases fuel with
  | zero => exact not_succeeds_error _ h
  | succ fuel =>
    have hfront : [.word w] = front [] .value ++ [.word w] := rfl
    rw [hfront, succeeds_within_value_iff] at h
    exact h.2 rfl

/-- What is documented and read has no `void`. -/
theorem IsArgument.strict (h : IsArgument .documented tokens)
    (hread : Succeeds (Argument.ofTokensWithin fuel tokens)) : IsArgument .strict tokens := by
  induction h generalizing fuel with
  | value type => exact .value type
  | @callback words depth name groups tail type args gaps bounded allowed ih =>
    have hbalanced := balanced_places args bounded
    have hinner : Nesting.Balanced Token.mark true (commaSeparated groups) :=
      Nesting.balanced_intercalate rfl hbalanced
    have hellipsis := (shape_of_succeeds_within hread).1
    cases fuel with
    | zero => exact absurd hread (not_succeeds_error _)
    | succ fuel =>
      obtain ⟨-, hargs⟩ := (succeeds_within_callback_iff hinner hellipsis).mp hread
      refine .callback type (fun g hg hnil => ih g hg hnil (hargs g ?_ hnil))
        (gaps.imp_left nofun) nofun (.inl (allowed.eq_nil rfl))
      exact (mem_split_commaSeparated hbalanced hnil).mpr hg
  | @callbackOfVoid words depth name tail void type allowed =>
    have hellipsis := (shape_of_succeeds_within hread).1
    cases fuel with
    | zero => exact absurd hread (not_succeeds_error _)
    | succ fuel =>
      have hinner : Nesting.Balanced Token.mark true [.word "void"] := .plain rfl .nil
      obtain ⟨-, hargs⟩ := (succeeds_within_callback_iff hinner hellipsis).mp hread
      exact absurd (hargs [.word "void"] (by decide) nofun) (not_succeeds_word "void")

end Read

/-- What is read is an argument of the dialect `read`, and what is documented besides is one of the
strict dialect. So reading goes by the documentation exactly where what either of the two takes for
an argument is a strict one. -/
theorem succeeds_ofTokens_iff (tokens : List Token) :
    (Succeeds (Argument.ofTokens tokens) ↔ IsArgument .read tokens) ∧
      (IsArgument .documented tokens ∧ Succeeds (Argument.ofTokens tokens) ↔
        IsArgument .strict tokens) ∧
      ((Succeeds (Argument.ofTokens tokens) ↔ IsArgument .documented tokens) ↔
        (IsArgument .documented tokens ∨ IsArgument .read tokens → IsArgument .strict tokens)) := by
  have hread : Succeeds (Argument.ofTokens tokens) ↔ IsArgument .read tokens :=
    ⟨isArgument_of_succeeds, fun h => h.succeeds (Nat.lt_succ_self _)⟩
  have hstrict : IsArgument .documented tokens ∧ Succeeds (Argument.ofTokens tokens) ↔
      IsArgument .strict tokens := by
    refine ⟨fun h => h.1.strict h.2, fun h => ⟨?_, hread.mpr ?_⟩⟩
    · exact h.mono (by decide) (by decide) (by decide)
    · exact h.mono (by decide) (by decide) (by decide)
  refine ⟨hread, hstrict, fun hsame => ?_, fun hboth => ⟨fun h => ?_, fun h => ?_⟩⟩
  · rintro (h | h)
    · exact hstrict.mp ⟨h, hsame.mpr h⟩
    · exact hstrict.mp ⟨hsame.mp (hread.mpr h), hread.mpr h⟩
  · exact (hstrict.mpr (hboth (.inr (hread.mp h)))).1
  · exact (hstrict.mpr (hboth (.inl h))).2

/-! ### What the documented grammar has, and what it has not -/

section Documented

variable {words words' : List String} {depth depth' : Depth} {name name' : String}
  {inner inner' tail tail' : List Token}

theorem callback_inj (hinner : Nesting.Balanced Token.mark true inner)
    (hinner' : Nesting.Balanced Token.mark true inner')
    (h : front words depth ++ callbackTokens name inner ++ tail =
      front words' depth' ++ callbackTokens name' inner' ++ tail') :
    inner = inner' ∧ tail = tail' := by
  have hcut := congrArg cutAtCallback? h
  rw [cutAtCallback?_callbackTokens, cutAtCallback?_callbackTokens, Option.some.injEq,
    Prod.mk.injEq] at hcut
  simp only [List.cons.injEq, true_and] at hcut
  have hclose := congrArg (Nesting.close? Token.mark 0) hcut.2.2
  rw [Nesting.close?_balanced hinner rfl, Nesting.close?_balanced hinner' rfl, Option.some.injEq,
    Prod.mk.injEq] at hclose
  exact hclose

theorem IsArgument.of_callback (hinner : Nesting.Balanced Token.mark true inner)
    (h : IsArgument .documented (front words depth ++ callbackTokens name inner ++ tail)) :
    tail = [] ∧ (inner = [.word "void"] ∨ ∃ groups, inner = commaSeparated groups ∧ [] ∉ groups ∧
      ∀ g ∈ groups, Nesting.Balanced Token.mark false g) := by
  generalize htokens : front words depth ++ callbackTokens name inner ++ tail = tokens at h
  cases h with
  | @value words' depth' name' type =>
    have hopen : .openParen ∉ front words' depth' ++ [.word name'] := by
      have hfront : .openParen ∉ front words' depth' := not_mem_front (by simp) (by simp) _ _
      simp [hfront]
    exact absurd (by simp [← htokens, callbackTokens]) hopen
  | callback type args gaps bounded allowed =>
    have hbalanced := balanced_places args bounded
    obtain ⟨rfl, rfl⟩ := callback_inj hinner (Nesting.balanced_intercalate rfl hbalanced) htokens
    exact ⟨allowed.eq_nil rfl, .inr ⟨_, rfl, gaps.resolve_left nofun, hbalanced⟩⟩
  | callbackOfVoid void type allowed =>
    obtain ⟨rfl, rfl⟩ := callback_inj hinner (.plain rfl .nil) htokens
    exact ⟨allowed.eq_nil rfl, .inl rfl⟩

/-- A documented callback without arguments is refused, though a declaration without arguments is
read, and callbacks are read that are not documented. -/
theorem documented_not_read :
    (IsArgument .documented (Token.ofText "int (*f)(void)") ∧
      ¬Succeeds (Argument.ofTokens (Token.ofText "int (*f)(void)")) ∧
      ∃ d, Declaration.ofText "int isl_set_f(void);" = .ok d ∧ d.args = []) ∧
    (¬IsArgument .documented (Token.ofText "int (*f)(int x) y") ∧
      Succeeds (Argument.ofTokens (Token.ofText "int (*f)(int x) y"))) ∧
    ¬IsArgument .documented (Token.ofText "int (*f)(int x,,int y)") ∧
      Succeeds (Argument.ofTokens (Token.ofText "int (*f)(int x,,int y)")) := by
  have hvoid : Token.ofText "int (*f)(void)" =
      front ["int"] .value ++ callbackTokens "f" [.word "void"] ++ [] := by
    decide +kernel
  have htail : Token.ofText "int (*f)(int x) y" =
      front ["int"] .value ++ callbackTokens "f" [.word "int", .word "x"] ++ [.word "y"] := by
    decide +kernel
  have hgap : Token.ofText "int (*f)(int x,,int y)" = front ["int"] .value ++ callbackTokens "f"
      (commaSeparated [[.word "int", .word "x"], [], [.word "int", .word "y"]]) ++ [] := by
    decide +kernel
  have hplain : ∀ w w', Nesting.Balanced Token.mark false [.word w, .word w'] := fun w w' =>
    .plain rfl (.plain rfl .nil)
  refine ⟨⟨?_, by decide +kernel, ?_⟩, ⟨?_, by decide +kernel⟩, ?_, by decide +kernel⟩
  · rw [hvoid]
    exact .callbackOfVoid rfl (by decide) (.inl rfl)
  · exact ⟨⟨["int"], .value, "isl_set_f", []⟩, eq_ok_of_toOption (by decide +kernel), rfl⟩
  · rw [htail]
    intro h
    obtain ⟨hnil, -⟩ := h.of_callback (hplain "int" "x").outside
    cases hnil
  · rw [hgap]
    intro h
    have hplaces : ∀ g ∈ [[.word "int", .word "x"], [], [.word "int", .word "y"]],
        Nesting.Balanced Token.mark false g := by
      simp only [List.forall_mem_cons]
      exact ⟨hplain "int" "x", .nil, hplain "int" "y", by simp⟩
    obtain ⟨-, heq | ⟨groups, hgroups, hfull, hbalanced⟩⟩ :=
      h.of_callback (Nesting.balanced_intercalate rfl hplaces)
    · exact absurd heq (by decide)
    · have hne : groups ≠ [] := by
        rintro rfl
        exact absurd hgroups (by decide)
      -- The places are found again, the empty one among them.
      have hsplit := congrArg (Nesting.split Token.mark) hgroups
      simp only [commaSeparated] at hsplit
      rw [Nesting.split_intercalate rfl (by simp) hplaces,
        Nesting.split_intercalate rfl hne hbalanced] at hsplit
      exact hfull (hsplit ▸ by simp)

end Documented

end IslBindings
