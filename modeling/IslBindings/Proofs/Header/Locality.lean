import IslBindings.Proofs.Header.Segments
import IslBindings.Proofs.Nesting

/-!
# Expansion is local

What stands behind a text does not change how the text is expanded, as long as no word goes over
its end and behind every name of a macro the text itself says whether the name is invoked.
-/

namespace IslBindings.Header

open Text

/-! ### Names of macros in a text -/

/-- No word goes from one text over into the other. -/
def PartsWords (a b : List Char) : Prop :=
  ∀ c d, a.getLast? = some c → b.head? = some d →
    ¬(isIdentChar c = true ∧ isIdentChar d = true)

namespace MacroTable

/-- The word is the name of a macro and stands by itself. -/
def Names (t : MacroTable) (before word after : List Char) : Prop :=
  IsWholeWord before word after ∧ t.contains (String.ofList word) = true

/-- What follows a name of a macro in the text is always of the given kind. -/
def FollowedBy (t : MacroTable) (kind : List Char → Prop) (s : List Char) : Prop :=
  ∀ before word after, s = before ++ word ++ after → t.Names before word after → kind after

/-- No name of a macro stands in the text. -/
def IsFree (t : MacroTable) (s : List Char) : Prop := t.FollowedBy (fun _ => False) s

end MacroTable

/-- The text starts, behind blanks, with another character, and if that opens a list, the list
is closed. -/
def Settles (s : List Char) : Prop :=
  ∃ c rest, s.dropWhile isAsciiBlank = c :: rest ∧
    (c = '(' → ∃ inner behind, Nesting.Balanced charMark true inner ∧ rest = inner ++ ')' :: behind)

section Words

variable {t : MacroTable} {kind : List Char → Prop} {a b p s before word after : List Char} {c : Char}

theorem PartsWords.of_append (h : PartsWords (p ++ s) b) : PartsWords s b := by
  intro c d hc hd
  refine h c d ?_ hd
  rw [List.getLast?_append, hc]
  rfl

theorem partsWords_of_getLast? (h : a.getLast? = some c) (hc : isIdentChar c = false) (b : List Char) :
    PartsWords a b := by
  intro d e hd _ hident
  rw [h] at hd
  cases hd
  rw [hc] at hident
  exact absurd hident.1 (by simp)

theorem IsWholeWord.exists_getLast? (h : IsWholeWord before word after) (p : List Char) :
    ∃ c, (p ++ word).getLast? = some c ∧ isIdentChar c = true := by
  have hlast := List.getLast?_eq_some_getLast h.ne_nil
  refine ⟨word.getLast h.ne_nil, ?_, h.isIdent _ (List.getLast_mem h.ne_nil)⟩
  rw [List.getLast?_append, hlast]
  rfl

theorem IsWholeWord.exists_head? (h : IsWholeWord before word after) (s : List Char) :
    ∃ c, (word ++ s).head? = some c ∧ isIdentChar c = true := by
  have hhead := List.head?_eq_some_head h.ne_nil
  refine ⟨word.head h.ne_nil, ?_, h.isIdent _ (List.head_mem h.ne_nil)⟩
  rw [List.head?_append, hhead]
  rfl

theorem IsWholeWord.append_right (h : IsWholeWord before word after)
    (hb : PartsWords (word ++ after) b) : IsWholeWord before word (after ++ b) where
  ne_nil := h.ne_nil
  isIdent := h.isIdent
  starts := h.starts
  ends := by
    intro d hd
    cases after with
    | cons e after => exact h.ends d hd
    | nil =>
      obtain ⟨c, hc, hident⟩ := h.exists_getLast? []
      have hnot := hb c d (by rw [List.append_nil]; exact hc) hd
      simpa [hident] using hnot

theorem IsWholeWord.append_left (h : IsWholeWord before word after)
    (hp : PartsWords p (before ++ word ++ after)) : IsWholeWord (p ++ before) word after where
  ne_nil := h.ne_nil
  isIdent := h.isIdent
  ends := h.ends
  starts := by
    intro c hc
    rw [List.getLast?_append] at hc
    cases hlast : before.getLast? with
    | some d =>
      rw [hlast] at hc
      cases hc
      exact h.starts _ hlast
    | none =>
      rw [List.getLast?_eq_none_iff.mp hlast, List.nil_append] at hp
      obtain ⟨d, hd, hident⟩ := h.exists_head? after
      rw [hlast] at hc
      have hnot := hp c d hc hd
      simpa [hident] using hnot

theorem IsWholeWord.of_append_left (h : IsWholeWord (p ++ before) word after) :
    IsWholeWord before word after where
  ne_nil := h.ne_nil
  isIdent := h.isIdent
  ends := h.ends
  starts := by
    intro c hc
    refine h.starts c ?_
    rw [List.getLast?_append, hc]
    rfl

/-! ### Words one by one -/

theorem followedBy_nil : t.FollowedBy kind [] := by
  intro before word after heq hnames
  have hword : word = [] := by
    have hnil := (List.append_eq_nil_iff.mp heq.symm).1
    exact (List.append_eq_nil_iff.mp hnil).2
  exact absurd hword hnames.1.ne_nil

theorem MacroTable.FollowedBy.of_append (h : t.FollowedBy kind (p ++ s)) (hp : PartsWords p s) :
    t.FollowedBy kind s := by
  intro before word after heq hnames
  rw [heq] at hp
  refine h (p ++ before) word after ?_ ⟨hnames.1.append_left hp, hnames.2⟩
  rw [heq]
  simp

theorem followedBy_mark (hc : isIdentChar c = false) (s : List Char) :
    t.FollowedBy kind (c :: s) ↔ t.FollowedBy kind s := by
  constructor
  · intro h
    exact h.of_append (p := [c]) (partsWords_of_getLast? rfl hc s)
  · intro h before word after heq hnames
    cases before with
    | nil =>
      obtain ⟨d, hd, hident⟩ := hnames.1.exists_head? after
      rw [List.nil_append] at heq
      rw [← heq, List.head?_cons, Option.some.injEq] at hd
      rw [hd, hident] at hc
      cases hc
    | cons d before =>
      have htail : s = before ++ word ++ after := (List.cons.inj heq).2
      exact h before word after htail ⟨hnames.1.of_append_left (p := [d]), hnames.2⟩

theorem followedBy_word (hw : IsWholeWord [] word after) :
    t.FollowedBy kind (word ++ after) ↔
      (t.contains (String.ofList word) = true → kind after) ∧ t.FollowedBy kind after := by
  have hparts : PartsWords word after := by
    intro c d _ hd hident
    rw [hw.ends d hd] at hident
    exact absurd hident.2 (by simp)
  constructor
  · intro h
    exact ⟨fun ht => h [] word after rfl ⟨hw, ht⟩, h.of_append hparts⟩
  · rintro ⟨hword, hafter⟩ before name behind heq hnames
    rw [List.append_assoc] at heq
    rcases List.append_eq_append_iff.mp heq with ⟨k, rfl, hk⟩ | ⟨k, rfl, hk⟩
    · refine hafter k name behind ?_ ⟨hnames.1.of_append_left, hnames.2⟩
      rw [hk, List.append_assoc]
    · cases before with
      | cons d before =>
        -- A name cannot start inside the word.
        cases k with
        | nil =>
          obtain ⟨e, he, hident⟩ := hnames.1.exists_head? behind
          rw [List.nil_append] at hk
          rw [hk] at he
          rw [hw.ends e he] at hident
          cases hident
        | cons e k =>
          obtain ⟨l, hl⟩ := Option.isSome_iff_exists.mp (List.getLast?_isSome.mpr (List.cons_ne_nil d before))
          have hident := hw.isIdent l (List.mem_append_left _ (List.mem_of_getLast? hl))
          rw [hnames.1.starts l hl] at hident
          cases hident
      | nil =>
        rw [List.nil_append] at heq hw hword
        have hsame : k = name ∧ after = behind := by
          have hword := takeWhile_append_of_stop hw.isIdent hw.ends
          have hname := takeWhile_append_of_stop hnames.1.isIdent hnames.1.ends
          rw [List.nil_append] at heq
          rw [← heq] at hname
          exact ⟨hword.1.symm.trans hname.1, hword.2.symm.trans hname.2⟩
        obtain ⟨rfl, rfl⟩ := hsame
        exact hword hnames.2

end Words

/-! ### Texts one behind the other -/

section Append

variable {t : MacroTable} {active : List String} {a b s word after : List Char}

/-- The invocation with more text behind it. -/
def Invocation.extended (b : List Char) (call : Invocation) : Invocation :=
  { call with rest := call.rest ++ b }

theorem Invocation.ofText?_append (h : Settles s) (b : List Char) :
    Invocation.ofText? (s ++ b) = (Invocation.ofText? s).map (Invocation.extended b) := by
  obtain ⟨c, rest, hdrop, hclosed⟩ := h
  have hblank : ∀ d ∈ s.takeWhile isAsciiBlank, isAsciiBlank d = true :=
    List.all_eq_true.mp List.all_takeWhile
  have hc : ∀ d, (c :: rest ++ b).head? = some d → isAsciiBlank d = false := by
    intro d hd
    have hstop := List.head?_dropWhile_not isAsciiBlank s
    rw [hdrop] at hstop
    cases hd
    exact hstop
  have hs : s = s.takeWhile isAsciiBlank ++ c :: rest := by
    rw [← hdrop, List.takeWhile_append_dropWhile]
  have hcut := takeWhile_append_of_stop hblank hc
  rw [← List.append_assoc, ← hs] at hcut
  rw [Invocation.ofText?, Invocation.ofText?, hdrop, hcut.1, hcut.2]
  by_cases hparen : c = '('
  · obtain ⟨inner, behind, hinner, rfl⟩ := hclosed hparen
    subst hparen
    have hopen : ∀ r, dropStart? ['('] ('(' :: r) = some r := fun r =>
      dropStart?_eq_some_iff.mpr rfl
    rw [List.cons_append, List.append_assoc, List.cons_append, hopen, hopen, Option.bind_some,
      Option.bind_some, Nesting.close?_balanced hinner rfl, Nesting.close?_balanced hinner rfl]
    rfl
  · have hnone : ∀ r, dropStart? ['('] (c :: r) = none := by
      intro r
      rw [Option.eq_none_iff_forall_ne_some]
      intro inside hinside
      exact hparen (List.cons.inj (dropStart?_eq_some_iff.mp hinside)).1
    rw [List.cons_append, hnone, hnone]
    rfl

theorem invoked?_append (h : t.contains (String.ofList word) = true → Settles after)
    (b : List Char) :
    invoked? t active word (after ++ b) =
      (invoked? t active word after).map fun (m, call) => (m, call.extended b) := by
  rw [invoked?, invoked?]
  split
  · cases hm : t.find? (String.ofList word) with
    | none => rfl
    | some m =>
      have hsettles := h (by rw [MacroTable.contains, hm]; rfl)
      rw [Option.bind_some, Option.bind_some, Invocation.ofText?_append hsettles, Option.map_map,
        Option.map_map]
      rfl
  · rfl

/-- The segment with more text behind it. -/
def Segment.extended (b : List Char) : Segment → Segment
  | .copied s => .copied s
  | .invocation m call => .invocation m (call.extended b)

theorem Segment.expanded_extended (b : List Char) (depth : Nat) (segment : Segment) :
    (segment.extended b).expanded t active depth = segment.expanded t active depth := by
  cases segment <;> rfl

theorem getLast?_source {call : Invocation} (h : Invocation.ofText? s = some call) :
    call.source.getLast? = some ')' := by
  obtain ⟨inside, -, h⟩ := Option.bind_eq_some_iff.mp h
  obtain ⟨⟨inner, rest⟩, -, rfl⟩ := Option.map_eq_some_iff.mp h
  show (s.takeWhile isAsciiBlank ++ '(' :: inner ++ [')']).getLast? = some ')'
  rw [List.getLast?_concat]

/-- Words and invocations of the first text stay what they are. -/
theorem segments_append (hparts : PartsWords a b) (hsettled : t.FollowedBy Settles a) :
    segments t active (a ++ b) =
      (segments t active a).map (Segment.extended b) ++ segments t active b := by
  induction a using segmentInduction t active with
  | nil =>
    rw [segments_nil]
    rfl
  | mark c s hc ih =>
    have ih := ih (hparts.of_append (p := [c])) ((followedBy_mark hc s).mp hsettled)
    rw [List.cons_append, segments_mark t active _ hc, segments_mark t active _ hc, ih]
    rfl
  | word w s hw hcall ih =>
    obtain ⟨hname, hs⟩ := (followedBy_word hw).mp hsettled
    have hcall' : invoked? t active w (s ++ b) = none := by
      rw [invoked?_append hname, hcall]
      rfl
    rw [List.append_assoc, segments_word (hw.append_right hparts) hcall', segments_word hw hcall,
      ih hparts.of_append hs]
    rfl
  | invocation w s m call hw hcall ih =>
    obtain ⟨hname, hs⟩ := (followedBy_word hw).mp hsettled
    have hcall' : invoked? t active w (s ++ b) = some (m, call.extended b) := by
      rw [invoked?_append hname, hcall]
      rfl
    obtain ⟨-, -, -, hsource⟩ := invoked?_eq_some hcall
    have hrest := Invocation.eq_source_append hsource
    have hclosed : PartsWords call.source call.rest :=
      partsWords_of_getLast? (getLast?_source hsource) (by decide) _
    have hparts' : PartsWords call.rest b := by
      refine PartsWords.of_append (p := w ++ call.source) ?_
      rwa [List.append_assoc, ← hrest]
    rw [hrest] at hs
    rw [List.append_assoc, segments_invoked (hw.append_right hparts) hcall',
      segments_invoked hw hcall, List.map_cons, List.cons_append]
    exact congrArg _ (ih hparts' (hs.of_append hclosed))

theorem expandWith_append (hparts : PartsWords a b) (hsettled : t.FollowedBy Settles a)
    (depth : Nat) :
    expandWith t depth active (a ++ b) = expandWith t depth active a ++ expandWith t depth active b := by
  rw [expandWith_eq, expandWith_eq, expandWith_eq, segments_append hparts hsettled,
    List.flatMap_append, List.flatMap_map]
  exact congrArg (· ++ _) (flatMap_congr fun segment _ => Segment.expanded_extended b depth segment)

/-! ### Texts without names -/

theorem MacroTable.IsFree.followedBy (h : t.IsFree s) (kind : List Char → Prop) :
    t.FollowedBy kind s :=
  fun before word after heq hnames => (h before word after heq hnames).elim

theorem segments_of_isFree (h : t.IsFree s) :
    ∀ segment ∈ segments t active s, ∃ copy, segment = .copied copy := by
  induction s using segmentInduction t active with
  | nil =>
    rw [segments_nil]
    exact nofun
  | mark c s hc ih =>
    rw [segments_mark t active s hc]
    exact List.forall_mem_cons.mpr ⟨⟨_, rfl⟩, ih ((followedBy_mark hc s).mp h)⟩
  | word w s hw hcall ih =>
    rw [segments_word hw hcall]
    exact List.forall_mem_cons.mpr ⟨⟨_, rfl⟩, ih ((followedBy_word hw).mp h).2⟩
  | invocation w s m call hw hcall ih =>
    obtain ⟨hm, -⟩ := invoked?_eq_some hcall
    have hcontains : t.contains (String.ofList w) = true := by
      rw [MacroTable.contains, hm]
      rfl
    exact (((followedBy_word hw).mp h).1 hcontains).elim

theorem expandWith_of_isFree (h : t.IsFree s) (depth : Nat) : expandWith t depth active s = s := by
  have hsource := flatMap_source_segments t active s
  rw [expandWith_eq, ← flatMap_congr, hsource]
  intro segment hsegment
  obtain ⟨copy, rfl⟩ := segments_of_isFree h segment hsegment
  cases depth <;> rfl

end Append

/-! ### Invocations -/

/-- The name of a macro and a list in parentheses behind it, with blanks between them. -/
structure MacroTable.IsInvocation (t : MacroTable) (word gap inner : List Char) : Prop where
  isName : t.contains (String.ofList word) = true
  isIdent : ∀ c ∈ word, isIdentChar c = true
  starts : word.head?.any isIdentStart = true
  blank : ∀ c ∈ gap, isAsciiBlank c = true
  balanced : Nesting.Balanced charMark true inner

section Invocations

variable {t : MacroTable} {a b word gap inner : List Char}

/-- The characters of an invocation. -/
def invocationText (word gap inner : List Char) : List Char :=
  word ++ (gap ++ '(' :: (inner ++ [')']))

theorem MacroTable.IsInvocation.isWholeWord (h : t.IsInvocation word gap inner) (s : List Char) :
    IsWholeWord [] word (gap ++ '(' :: s) where
  ne_nil := by
    rintro rfl
    exact absurd h.starts (by simp)
  isIdent := h.isIdent
  starts := nofun
  ends := by
    intro c hc
    cases gap with
    | nil =>
      cases hc
      decide
    | cons d gap =>
      cases hc
      have hblank := h.blank c (List.mem_cons_self ..)
      simp only [isAsciiBlank, Bool.or_eq_true, beq_iff_eq] at hblank
      rcases hblank with (((rfl | rfl) | rfl) | rfl) | rfl <;> decide

/-- The argument list in parentheses behind blanks, and what follows it. -/
def Invocation.ofParts (gap inner rest : List Char) : Invocation where
  args := (Nesting.split charMark inner).map trim
  source := gap ++ '(' :: inner ++ [')']
  rest := rest

theorem Invocation.ofText?_balanced (hgap : ∀ c ∈ gap, isAsciiBlank c = true)
    (hinner : Nesting.Balanced charMark true inner) (b : List Char) :
    Invocation.ofText? (gap ++ '(' :: (inner ++ ')' :: b)) = some (.ofParts gap inner b) := by
  have hparen : ∀ c, ('(' :: (inner ++ ')' :: b)).head? = some c → isAsciiBlank c = false := by
    intro c hc
    cases hc
    decide
  obtain ⟨htake, hdrop⟩ := takeWhile_append_of_stop hgap hparen
  have hopen : dropStart? ['('] ('(' :: (inner ++ ')' :: b)) = some (inner ++ ')' :: b) :=
    dropStart?_eq_some_iff.mpr rfl
  rw [Invocation.ofText?, htake, hdrop, hopen, Option.bind_some, Nesting.close?_balanced hinner rfl]
  rfl

/-- An invocation is a segment of its own, whatever stands behind it. -/
theorem segments_invocationText (h : t.IsInvocation word gap inner) :
    ∃ m, ∀ b, segments t [] (invocationText word gap inner ++ b) =
      .invocation m (.ofParts gap inner b) :: segments t [] b := by
  obtain ⟨m, hm⟩ := Option.isSome_iff_exists.mp h.isName
  refine ⟨m, fun b => ?_⟩
  have hcall := Invocation.ofText?_balanced h.blank h.balanced b
  have hinvoked : invoked? t [] word (gap ++ '(' :: (inner ++ ')' :: b)) =
      some (m, .ofParts gap inner b) := by
    rw [invoked?, h.starts, hm, hcall]
    rfl
  have htext : invocationText word gap inner ++ b = word ++ (gap ++ '(' :: (inner ++ ')' :: b)) := by
    simp [invocationText]
  rw [htext, segments_invoked (h.isWholeWord _) hinvoked]
  rfl

theorem expandWith_invocationText (h : t.IsInvocation word gap inner) (depth : Nat) (b : List Char) :
    expandWith t depth [] (invocationText word gap inner ++ b) =
      expandWith t depth [] (invocationText word gap inner) ++ expandWith t depth [] b := by
  obtain ⟨m, hsegments⟩ := segments_invocationText h
  have halone := hsegments []
  rw [List.append_nil, segments_nil] at halone
  rw [expandWith_eq, expandWith_eq, expandWith_eq, hsegments, halone, List.flatMap_cons,
    List.flatMap_singleton]
  cases depth <;> rfl

end Invocations

/-! ### Locality -/

/-- A text in which every name of a macro is settled is expanded by itself, whatever follows it; a
text without such a name stays as it is, and so does what stands around an invocation. -/
theorem MacroTable.expansion_is_local (t : MacroTable) :
    (∀ a b, PartsWords a b → t.FollowedBy Settles a →
      t.expand (a ++ b) = t.expand a ++ t.expand b) ∧
    (∀ s, t.IsFree s → t.expand s = s) ∧
    ∀ word gap inner a b, t.IsInvocation word gap inner → PartsWords a word →
      t.FollowedBy Settles a →
      t.expand (a ++ invocationText word gap inner ++ b) =
          t.expand a ++ t.expand (invocationText word gap inner) ++ t.expand b ∧
        (t.IsFree a → t.IsFree b →
          t.expand (a ++ invocationText word gap inner ++ b) =
            a ++ t.expand (invocationText word gap inner) ++ b) := by
  refine ⟨fun a b hparts hsettled => expandWith_append hparts hsettled depthLimit,
    fun s hfree => expandWith_of_isFree hfree depthLimit, ?_⟩
  intro word gap inner a b hinvocation hparts hsettled
  have hword : PartsWords a (invocationText word gap inner ++ b) := by
    intro c d hc hd
    cases word with
    | nil => exact absurd hinvocation.starts (by simp)
    | cons e word => exact hparts c d hc hd
  have hexpand : t.expand (a ++ invocationText word gap inner ++ b) =
      t.expand a ++ t.expand (invocationText word gap inner) ++ t.expand b :=
    calc t.expand (a ++ invocationText word gap inner ++ b)
        = t.expand a ++ t.expand (invocationText word gap inner ++ b) := by
          rw [List.append_assoc]
          exact expandWith_append hword hsettled depthLimit
      _ = t.expand a ++ t.expand (invocationText word gap inner) ++ t.expand b := by
          rw [List.append_assoc]
          exact congrArg _ (expandWith_invocationText hinvocation depthLimit b)
  refine ⟨hexpand, fun ha hb => ?_⟩
  have ha' : t.expand a = a := expandWith_of_isFree ha depthLimit
  have hb' : t.expand b = b := expandWith_of_isFree hb depthLimit
  rw [hexpand, ha', hb']

/-- A table with the macro `F(x)`. -/
def sampleMacros : MacroTable :=
  MacroTable.empty.insert { name := "F", params := ["x"], body := "int isl_##x##_f(void);".toList }

theorem followedBy_sample :
    sampleMacros.FollowedBy Settles ['F', ' ', '(', 'a', ',', '(', ')', ')', ';'] := by
  have hname : IsWholeWord [] ['F'] [' ', '(', 'a', ',', '(', ')', ')', ';'] :=
    isWholeWord_cut [' ', '(', 'a', ',', '(', ')', ')', ';'] (by decide)
  have harg : IsWholeWord [] ['a'] [',', '(', ')', ')', ';'] :=
    isWholeWord_cut [',', '(', ')', ')', ';'] (by decide)
  have hempty : Nesting.Balanced charMark true ('(' :: ([] ++ ')' :: [])) :=
    .group (by decide) .nil (by decide) .nil
  have hclosed : Nesting.Balanced charMark true ['a', ',', '(', ')'] :=
    .plain (by decide) (.separator (by decide) hempty)
  refine (followedBy_word hname).mpr ⟨fun _ => ?_, ?_⟩
  · exact ⟨'(', ['a', ',', '(', ')', ')', ';'], by decide, fun _ => ⟨_, [';'], hclosed, rfl⟩⟩
  · refine (followedBy_mark (by decide) _).mpr ((followedBy_mark (by decide) _).mpr
      ((followedBy_word harg).mpr ⟨fun ha => absurd ha (by decide), ?_⟩))
    exact (followedBy_mark (by decide) _).mpr ((followedBy_mark (by decide) _).mpr
      ((followedBy_mark (by decide) _).mpr ((followedBy_mark (by decide) _).mpr
        ((followedBy_mark (by decide) _).mpr followedBy_nil))))

theorem isInvocation_sample : sampleMacros.IsInvocation ['F'] [' '] ['a'] where
  isName := by decide
  isIdent := List.all_eq_true.mp (by decide)
  starts := by decide
  blank := List.all_eq_true.mp (by decide)
  balanced := .plain (by decide) .nil

/-- An invocation with one argument too many stays as it is, and the next one is expanded. -/
theorem expansion_is_local_sample :
    sampleMacros.expand (['F', ' ', '(', 'a', ',', '(', ')', ')', ';'] ++ "F(set)".toList) =
        "F (a,());int isl_set_f(void);".toList ∧
      sampleMacros.expand ['(', ';'] = ['(', ';'] ∧
      sampleMacros.expand (['('] ++ invocationText ['F'] [' '] ['a'] ++ [';']) =
        "(int isl_a_f(void);;".toList := by
  have hmarks : ∀ c, isIdentChar c = false → sampleMacros.IsFree [c] := fun c hc =>
    (followedBy_mark hc _).mpr followedBy_nil
  obtain ⟨happend, hfree, haround⟩ := sampleMacros.expansion_is_local
  refine ⟨?_, ?_, ?_⟩
  · have hparts := partsWords_of_getLast? (a := ['F', ' ', '(', 'a', ',', '(', ')', ')', ';'])
      (c := ';') rfl (by decide)
    rw [happend _ _ (hparts _) followedBy_sample]
    decide +kernel
  · exact hfree _ ((followedBy_mark (by decide) _).mpr (hmarks ';' (by decide)))
  · have hparts := partsWords_of_getLast? (a := ['(']) (c := '(') rfl (by decide)
    have hopen := hmarks '(' (by decide)
    rw [(haround _ _ _ _ _ isInvocation_sample (hparts _) (hopen.followedBy _)).2 hopen
      (hmarks ';' (by decide))]
    decide +kernel

end IslBindings.Header
