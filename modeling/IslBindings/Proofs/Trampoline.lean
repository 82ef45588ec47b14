import IslBindings.Proofs.Argument.Wording
import IslBindings.Proofs.Declaration
import IslBindings.Proofs.Wrapper.WellShaped
import IslBindings.Text.Lines
import Mathlib.Data.List.Forall2

/-!
# Signatures of trampolines

The first line of a trampoline declares a function with the result and the arguments of the
callback. The signature is the text of a layout, so its tokens are known, and what is read from
them is what was written.
-/

namespace IslBindings

open Token

/-! ### Layouts of spellings -/

/-- Words with a blank behind each of them, then the stars. -/
def frontLayout (words : List String) (depth : Depth) : Layout :=
  words.map (fun w => (.word w, [' '])) ++ List.replicate depth.count (.star, [])

theorem tokens_frontLayout (words : List String) (depth : Depth) :
    (frontLayout words depth).tokens = front words depth := by
  simp [frontLayout, front, Layout.tokens]

theorem text_frontLayout {words : List String} (hne : words ≠ []) (depth : Depth) :
    (frontLayout words depth).text = (joinWords words).toList ++ ' ' :: depth.stars.toList := by
  induction words with
  | nil => exact absurd rfl hne
  | cons w words ih =>
    cases words with
    | nil =>
      cases depth <;>
        simp [frontLayout, Layout.text, joinWords, Depth.count, Depth.stars, Token.text]
    | cons v words =>
      have hrest := ih (by simp)
      have hcut : (frontLayout (w :: v :: words) depth).text =
          w.toList ++ ' ' :: (frontLayout (v :: words) depth).text := by
        simp [frontLayout, Layout.text, Token.text]
      rw [hcut, hrest]
      simp [joinWords]

theorem isLaidOut_frontLayout {words : List String} (hwords : ∀ w ∈ words, IsWord w) (depth : Depth)
    {p : Layout} (hp : p.IsLaidOut) : (frontLayout words depth ++ p).IsLaidOut := by
  rw [frontLayout, List.append_assoc]
  induction words with
  | nil => cases depth <;> simp [Depth.count, Layout.IsLaidOut, IsPlain, Text.allBlank_nil, hp]
  | cons w words ih =>
    obtain ⟨hw, hwords⟩ := List.forall_mem_cons.mp hwords
    exact ⟨hw, Text.allBlank_space, by simp, ih hwords⟩

/-- The only blanks of a layout are single spaces. -/
theorem eq_space_of_mem_frontLayout {words : List String} {depth : Depth} {u : Token × List Char}
    (hu : u ∈ frontLayout words depth) {c : Char} (hc : c ∈ u.2) : c = ' ' := by
  rcases List.mem_append.mp hu with hu | hu
  · obtain ⟨w, -, rfl⟩ := List.mem_map.mp hu
    exact List.mem_singleton.mp hc
  · rw [(List.mem_replicate.mp hu).2] at hc
    cases hc

/-! ### Parameters -/

namespace ValueArgument

/-- The value as an argument of a trampoline, where ownership is not spelt. -/
def parameter (a : ValueArgument) : ValueArgument :=
  { name := "c_arg_" ++ a.name, isConst := a.isConst, type := { a.type with ownership := none } }

def parameterTokens (a : ValueArgument) : List Token :=
  front (qualifiedWords a.isConst a.type.words) a.type.depth ++ [.word ("c_arg_" ++ a.name)]

def parameterLayout (a : ValueArgument) : Layout :=
  frontLayout (qualifiedWords a.isConst a.type.words) a.type.depth ++
    [(.word ("c_arg_" ++ a.name), [])]

variable {a : ValueArgument}

theorem IsWorded.isSpelt (h : a.IsWorded) : a.type.IsSpelt a.type.words := by
  obtain ⟨ws, hws, -⟩ := h.type
  rwa [hws.words_eq]

theorem IsWorded.head?_words (h : a.IsWorded) (hconst : a.isConst = false) :
    a.type.words.head? ≠ some "const" := by
  obtain ⟨ws, hws, hhead⟩ := h.type
  rw [hws.words_eq]
  exact hhead hconst

theorem IsWorded.isWord_qualified (h : a.IsWorded) :
    ∀ w ∈ qualifiedWords a.isConst a.type.words, IsWord w := by
  have hwords := h.isSpelt.isWord
  rw [qualifiedWords]
  split
  · exact List.forall_mem_cons.mpr ⟨⟨by decide, List.all_eq_true.mp (by decide)⟩, hwords⟩
  · exact hwords

theorem IsWorded.isWord_parameter (h : a.IsWorded) : IsWord ("c_arg_" ++ a.name) := by
  refine ⟨by simp, fun c hc => ?_⟩
  rw [String.toList_append, List.mem_append] at hc
  rcases hc with hc | hc
  · exact List.all_eq_true.mp (by decide : "c_arg_".toList.all Text.isWordChar = true) c hc
  · exact h.name.2 c hc

theorem tokens_parameterLayout : a.parameterLayout.tokens = a.parameterTokens := by
  rw [parameterLayout, Layout.tokens_append, tokens_frontLayout]
  rfl

theorem IsWorded.text_parameterLayout (h : a.IsWorded) :
    a.parameterLayout.text = (a.spelling ++ "c_arg_" ++ a.name).toList := by
  have hne := h.isSpelt.nonempty
  have hjoin : joinWords (qualifiedWords a.isConst a.type.words) = a.qualifier ++ a.type.base := by
    rw [qualifiedWords, qualifier, h.isSpelt.base]
    cases a.isConst with
    | false => exact String.empty_append.symm
    | true =>
      obtain ⟨w, ws, hws⟩ := List.exists_cons_of_ne_nil hne
      rw [if_pos rfl, if_pos rfl, hws, joinWords, joinWords, String.intercalate_cons_cons]
      rfl
  have hqualified : qualifiedWords a.isConst a.type.words ≠ [] := by
    rw [qualifiedWords]
    split
    · simp
    · exact hne
  rw [parameterLayout, Layout.text_append, text_frontLayout hqualified, hjoin, spelling,
    CType.spelling]
  simp [Layout.text, Token.text]

theorem IsWorded.isLaidOut_append (h : a.IsWorded) {p : Layout} (hp : p.IsLaidOut)
    (hhead : ∀ w, p.tokens.head? ≠ some (.word w)) : (a.parameterLayout ++ p).IsLaidOut := by
  rw [parameterLayout, List.append_assoc]
  exact isLaidOut_frontLayout h.isWord_qualified _
    ⟨h.isWord_parameter, Text.allBlank_nil, fun _ _ => hhead, hp⟩

theorem IsWorded.ofTokens_parameterTokens (h : a.IsWorded) :
    Argument.ofTokens a.parameterTokens = .ok (.value a.parameter) := by
  have hspelt := h.isSpelt
  rw [Argument.ofTokens, parameterTokens, Argument.ofTokensWithin_value _ hspelt.nonempty
    hspelt.isTypeWord h.head?_words (Decorated.refl _), ← hspelt.base]
  rfl

end ValueArgument

def parametersLayout (inputs : List ValueArgument) : Layout :=
  [(.comma, [' '])].intercalate (inputs.map ValueArgument.parameterLayout)

theorem tokens_parametersLayout (inputs : List ValueArgument) :
    (parametersLayout inputs).tokens = commaSeparated (inputs.map ValueArgument.parameterTokens) := by
  induction inputs with
  | nil => rfl
  | cons a inputs ih =>
    cases inputs with
    | nil => simp [parametersLayout, commaSeparated, ValueArgument.tokens_parameterLayout]
    | cons b inputs =>
      rw [parametersLayout, commaSeparated, List.map_cons, List.map_cons] at ih ⊢
      rw [List.map_cons, List.map_cons, List.intercalate_cons_cons, List.intercalate_cons_cons,
        Layout.tokens_append, Layout.tokens_append, ih, ValueArgument.tokens_parameterLayout]
      rfl

theorem text_parametersLayout {inputs : List ValueArgument} (h : ∀ a ∈ inputs, a.IsWorded) :
    (parametersLayout inputs).text =
      (", ".intercalate (inputs.map fun a => a.spelling ++ "c_arg_" ++ a.name)).toList := by
  induction inputs with
  | nil => rfl
  | cons a inputs ih =>
    obtain ⟨ha, hinputs⟩ := List.forall_mem_cons.mp h
    cases inputs with
    | nil => simp [parametersLayout, ha.text_parameterLayout]
    | cons b inputs =>
      have hrest := ih hinputs
      rw [parametersLayout, List.map_cons] at hrest ⊢
      rw [List.map_cons, List.intercalate_cons_cons, Layout.text_append, Layout.text_append, hrest,
        ha.text_parameterLayout]
      simp only [List.map_cons, String.intercalate_cons_cons, String.toList_append]
      simp [Layout.text, Token.text]

theorem isLaidOut_parametersLayout {inputs : List ValueArgument} (h : ∀ a ∈ inputs, a.IsWorded) :
    (parametersLayout inputs ++ [(Token.closeParen, [])]).IsLaidOut := by
  have hclose : Layout.IsLaidOut [(Token.closeParen, [])] :=
    ⟨trivial, Text.allBlank_nil, by simp, trivial⟩
  induction inputs with
  | nil => exact hclose
  | cons a inputs ih =>
    obtain ⟨ha, hinputs⟩ := List.forall_mem_cons.mp h
    cases inputs with
    | nil =>
      rw [parametersLayout, List.map_singleton, List.intercalate_singleton]
      exact ha.isLaidOut_append hclose (by simp [Layout.tokens])
    | cons b inputs =>
      have hrest := ih hinputs
      rw [parametersLayout, List.map_cons] at hrest ⊢
      rw [List.map_cons, List.intercalate_cons_cons, List.append_assoc, List.append_assoc]
      exact ha.isLaidOut_append ⟨trivial, Text.allBlank_space, by simp, hrest⟩
        (by simp [Layout.tokens])

theorem eq_space_of_mem_parametersLayout {inputs : List ValueArgument} {u : Token × List Char}
    (hu : u ∈ parametersLayout inputs) {c : Char} (hc : c ∈ u.2) : c = ' ' := by
  refine Decidable.byContradiction fun hne => Text.not_mem_intercalate ?_ (fun l hl hul => ?_) hu
  · rintro rfl
    exact hne (List.mem_singleton.mp hc)
  · obtain ⟨a, -, rfl⟩ := List.mem_map.mp hl
    rcases List.mem_append.mp hul with hul | hul
    · exact hne (eq_space_of_mem_frontLayout hul hc)
    · rw [List.mem_singleton.mp hul] at hc
      cases hc

/-! ### Signatures -/

namespace Trampoline

/-- The names and the types of the signature are made of words. -/
structure IsWorded (t : Trampoline) : Prop where
  name : IsWord t.name
  result : t.result.IsSpelt t.result.words
  inputs : ∀ a ∈ t.inputs, a.IsWorded

def signatureLayout (t : Trampoline) : Layout :=
  frontLayout ("static" :: t.result.words) t.result.depth ++ (.word t.name, []) ::
    (.openParen, []) :: (parametersLayout t.inputs ++ [(.closeParen, [])])

variable {t : Trampoline}

theorem tokens_signatureLayout (t : Trampoline) : t.signatureLayout.tokens =
    front ("static" :: t.result.words) t.result.depth ++ .word t.name :: .openParen ::
      (commaSeparated (t.inputs.map ValueArgument.parameterTokens) ++ .closeParen :: []) := by
  rw [signatureLayout, Layout.tokens_append, tokens_frontLayout, Layout.tokens_cons,
    Layout.tokens_cons, Layout.tokens_append, tokens_parametersLayout]
  rfl

theorem IsWorded.text_signatureLayout (h : t.IsWorded) :
    t.signatureLayout.text = t.signature.toList := by
  have hjoin : joinWords ("static" :: t.result.words) = "static " ++ t.result.base := by
    obtain ⟨w, ws, hws⟩ := List.exists_cons_of_ne_nil h.result.nonempty
    rw [h.result.base, hws, joinWords, joinWords, String.intercalate_cons_cons]
    rfl
  rw [signatureLayout, Layout.text_append, text_frontLayout (by simp), hjoin, Layout.text_cons,
    Layout.text_cons, Layout.text_append, text_parametersLayout h.inputs, signature, CType.spelling]
  simp [Layout.text, Token.text]

theorem IsWorded.isLaidOut_signatureLayout (h : t.IsWorded) : t.signatureLayout.IsLaidOut := by
  have hwords : ∀ w ∈ "static" :: t.result.words, IsWord w :=
    List.forall_mem_cons.mpr ⟨⟨by decide, List.all_eq_true.mp (by decide)⟩, h.result.isWord⟩
  refine isLaidOut_frontLayout hwords _ ⟨h.name, Text.allBlank_nil, by simp [Layout.tokens], ?_⟩
  exact ⟨trivial, Text.allBlank_nil, by simp, isLaidOut_parametersLayout h.inputs⟩

theorem IsWorded.ofText_signature (h : t.IsWorded)
    (hsilent : ∀ w ∈ t.result.words, Declaration.isSilentWord w = false) :
    Declaration.ofText t.signature = .ok {
      returnWords := "static" :: t.result.words, returnDepth := t.result.depth, cName := t.name,
      args := t.inputs.map ValueArgument.parameterTokens } := by
  have htokens : Token.ofText t.signature = t.signatureLayout.tokens := by
    rw [Token.ofText, ← h.text_signatureLayout, Layout.lex_text h.isLaidOut_signatureLayout]
  have hkept : ("static" :: t.result.words).filter (!Declaration.isSilentWord ·) =
      "static" :: t.result.words := by
    rw [List.filter_eq_self]
    refine List.forall_mem_cons.mpr ⟨by decide, fun w hw => ?_⟩
    rw [hsilent w hw]
    rfl
  have hbalanced : ∀ g ∈ t.inputs.map ValueArgument.parameterTokens,
      Nesting.Balanced Token.mark false g := by
    intro g hg
    obtain ⟨a, -, rfl⟩ := List.mem_map.mp hg
    exact (balanced_front _ _).append (.plain rfl .nil)
  have hlen : ∀ g ∈ t.inputs.map ValueArgument.parameterTokens, 2 ≤ g.length := by
    intro g hg
    obtain ⟨a, ha, rfl⟩ := List.mem_map.mp hg
    have hpos := List.length_pos_iff.mpr (h.inputs a ha).isSpelt.nonempty
    simp only [ValueArgument.parameterTokens, front, qualifiedWords, List.length_append,
      List.length_map, List.length_singleton]
    split
    · rw [List.length_cons]
      omega
    · omega
  rw [Declaration.ofText, htokens, tokens_signatureLayout, commaSeparated,
    Declaration.ofTokens?_front (Nesting.balanced_intercalate rfl hbalanced), hkept,
    ← commaSeparated, Declaration.argumentGroups_commaSeparated hlen hbalanced]

theorem eq_space_of_mem_signatureLayout {u : Token × List Char} (hu : u ∈ t.signatureLayout)
    {c : Char} (hc : c ∈ u.2) : c = ' ' := by
  have hspaces : ∀ u ∈ t.signatureLayout, ∀ c ∈ u.2, c = ' ' := by
    simp only [signatureLayout, List.forall_mem_append, List.forall_mem_cons]
    exact ⟨fun _ hu _ => eq_space_of_mem_frontLayout hu, by simp, by simp,
      fun _ hu _ => eq_space_of_mem_parametersLayout hu, by simp⟩
  exact hspaces u hu c hc

/-- A signature has no other blanks than single spaces. -/
theorem IsWorded.not_mem_signature (h : t.IsWorded) {c : Char} (hc : Text.isBlank c = true)
    (hne : c ≠ ' ') : c ∉ t.signature.toList := by
  intro hmem
  rw [← h.text_signatureLayout] at hmem
  obtain ⟨⟨u, g⟩, hu, hmem⟩ := List.mem_flatMap.mp hmem
  have hplain := (h.isLaidOut_signatureLayout.isPlain hu).1
  rcases List.mem_append.mp hmem with hmem | hmem
  · rw [isBlank_eq_false_of_mem_text hplain hmem] at hc
    cases hc
  · exact hne (eq_space_of_mem_signatureLayout hu hmem)

theorem IsWorded.lines_code (h : t.IsWorded) :
    ∃ rest, Text.lines t.code.toList = t.signature.toList :: rest := by
  have hcode : t.code = t.signature ++ "\n" ++ Code.print (Code.layout 0 t.steps.tail) := by
    rw [code, steps, Code.layout, Code.indent_zero, List.tail_cons, Code.print, Code.print,
      List.map_cons, String.join_cons]
  rw [hcode, String.toList_append, String.toList_append, List.append_assoc]
  exact ⟨_, Text.lines_append_line_feed _ _ (h.not_mem_signature (by decide) (by decide))
    (h.not_mem_signature (by decide) (by decide))⟩

/-! ### Callbacks -/

/-- A trampoline has values only, one for each argument of its callback. -/
theorem args_of_ofCallback {name : String} {c : Callback} (h : ofCallback name c = .ok t) :
    c.args = t.inputs.map .value := by
  have hvalues : ∀ l : List Argument, (∀ a ∈ l, ∃ v, a = .value v) →
      l = (l.filterMap Argument.value?).map .value := by
    intro l hl
    induction l with
    | nil => rfl
    | cons a l ih =>
      obtain ⟨⟨v, rfl⟩, hrest⟩ := List.forall_mem_cons.mp hl
      rw [List.filterMap_cons_some (show Argument.value? (.value v) = some v from rfl),
        List.map_cons, ← ih hrest]
  obtain ⟨objects, user, hargs, -, hobjects⟩ := (succeeds_iff.mp ⟨t, h⟩).arguments
  rw [(fields_of_ofCallback h).2.2]
  refine hvalues c.args fun a ha => ?_
  rw [hargs, List.mem_append, List.mem_singleton] at ha
  rcases ha with ha | rfl
  · obtain ⟨_, _, _⟩ := hobjects a ha
    exact ⟨_, rfl⟩
  · exact ⟨user, rfl⟩

theorem isWorded_of_ofCallback {name : String} {c : Callback} (hname : IsWord name)
    (hc : (Argument.callback c.name c.result c.args).IsWorded) (h : ofCallback name c = .ok t) :
    t.IsWorded := by
  obtain ⟨htname, htresult, -⟩ := fields_of_ofCallback h
  cases hc with
  | callback _ hresult hargs =>
    obtain ⟨ws, hresult⟩ := hresult
    refine ⟨htname ▸ hname, ?_, fun a ha => ?_⟩
    · rw [htresult, hresult.words_eq]
      exact hresult
    · rw [args_of_ofCallback h] at hargs
      cases hargs (.value a) (List.mem_map_of_mem ha) with
      | value ha => exact ha

end Trampoline

/-- The tokens are read as a value of the same type, with `c_arg_` before the name. -/
inductive IsReadAsParameter (group : List Token) : Argument → Prop
  | value {v u : ValueArgument} : Argument.ofTokens group = .ok (.value u) →
      u.name = "c_arg_" ++ v.name → u.isConst = v.isConst → u.type.base = v.type.base →
      u.type.depth = v.type.depth → IsReadAsParameter group (.value v)

/-- The declaration has the name, and the result and the arguments of the callback. -/
structure Callback.IsDeclaredBy (c : Callback) (name : String) (d : Declaration) : Prop where
  returnWords : d.returnWords = "static" :: c.result.words
  returnDepth : d.returnDepth = c.result.depth
  cName : d.cName = name
  args : List.Forall₂ IsReadAsParameter d.args c.args

/-- The first line of a trampoline is read as a declaration with the signature of its callback. -/
theorem Trampoline.first_line_declares_callback {tokens : List Token} {c : Callback} {name : String}
    {t : Trampoline} (htokens : ∀ w, .word w ∈ tokens → IsWord w)
    (hread : Argument.ofTokens tokens = .ok (.callback c.name c.result c.args))
    (hsilent : ∀ w ∈ c.result.words, Declaration.isSilentWord w = false) (hname : IsWord name)
    (h : ofCallback name c = .ok t) :
    ∃ first rest d, Text.lines t.code.toList = first :: rest ∧
      Declaration.ofText (String.ofList first) = .ok d ∧ c.IsDeclaredBy name d := by
  have hworded := isWorded_of_ofCallback hname (Argument.isWorded_of_ofTokens htokens hread) h
  obtain ⟨rest, hlines⟩ := hworded.lines_code
  obtain ⟨htname, htresult, -⟩ := fields_of_ofCallback h
  have hdeclared := hworded.ofText_signature (by rwa [htresult])
  rw [htname, htresult, ← String.ofList_toList (s := t.signature)] at hdeclared
  refine ⟨_, rest, _, hlines, hdeclared, rfl, rfl, rfl, ?_⟩
  rw [args_of_ofCallback h, List.forall₂_map_left_iff, List.forall₂_map_right_iff,
    List.forall₂_same]
  exact fun a ha => .value (hworded.inputs a ha).ofTokens_parameterTokens rfl rfl rfl rfl

/-- The callback `isl_stat (*fn)(__isl_take isl_set *set, const void *user)`. -/
def sampleSetCallback : Callback where
  name := "fn"
  result := { ownership := none, base := "isl_stat", depth := .value }
  args := [
    .value { name := "set", isConst := false,
             type := { ownership := some .take, base := "isl_set", depth := .pointer } },
    .value { name := "user", isConst := true,
             type := { ownership := none, base := "void", depth := .pointer } }]

theorem first_line_declares_callback_sample :
    ∃ t, Trampoline.ofCallback "cb_set_foreach_set_fn" sampleSetCallback = .ok t ∧
      ∃ first rest d, Text.lines t.code.toList = first :: rest ∧
        Declaration.ofText (String.ofList first) = .ok d ∧
        sampleSetCallback.IsDeclaredBy "cb_set_foreach_set_fn" d := by
  have htokens : Token.ofText "isl_stat (*fn)(__isl_take isl_set *set, const void *user)" =
      [.word "isl_stat", .openParen, .star, .word "fn", .closeParen, .openParen, .word "__isl_take",
        .word "isl_set", .star, .word "set", .comma, .word "const", .word "void", .star,
        .word "user", .closeParen] := by decide +kernel
  have hread : Argument.ofTokens
      (Token.ofText "isl_stat (*fn)(__isl_take isl_set *set, const void *user)") =
      .ok (.callback sampleSetCallback.name sampleSetCallback.result sampleSetCallback.args) := by
    rw [htokens]
    rfl
  obtain ⟨t, ht⟩ : Succeeds (Trampoline.ofCallback "cb_set_foreach_set_fn" sampleSetCallback) :=
    ⟨_, rfl⟩
  have hname : IsWord "cb_set_foreach_set_fn" :=
    ⟨by decide, List.all_eq_true.mp (by decide +kernel)⟩
  exact ⟨t, ht, Trampoline.first_line_declares_callback
    (fun w hw => Token.isWord_of_mem_lex hw) hread (by decide +kernel) hname ht⟩

end IslBindings
