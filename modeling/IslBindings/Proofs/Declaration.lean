import IslBindings.Declaration
import IslBindings.Proofs.Argument.RoundTrip

/-!
# Declarations are read back

A declaration that is written as words, stars, a name and printed arguments is read with
the same words, depth and name, and each of its groups is read as the argument it prints.
-/

namespace IslBindings

/-! ### Printed declarations -/

/-- The tokens that a declaration may be written as. What follows its arguments is left open. -/
inductive PrintsDeclaration (words : List String) (depth : Depth) (name : String) :
    List Argument → List Token → Prop
  | arguments {args : List (Argument × List Token)} {after} : (∀ a ∈ args, Prints a.1 a.2) →
      PrintsDeclaration words depth name (args.map Prod.fst)
        (front words depth ++ .word name :: .openParen ::
          (commaSeparated (args.map Prod.snd) ++ .closeParen :: after))
  | void {after} :
      PrintsDeclaration words depth name []
        (front words depth ++ .word name :: .openParen ::
          ([.word "void"] ++ .closeParen :: after))

namespace Declaration

/-! ### Reading -/

theorem cut_at_openParen {head : List Token} (h : .openParen ∉ head) (rest : List Token) :
    (head ++ .openParen :: rest).takeWhile (· != .openParen) = head ∧
      (head ++ .openParen :: rest).dropWhile (· != .openParen) = .openParen :: rest := by
  have hne : ∀ t ∈ head, (t != .openParen) = true := by
    intro t ht
    rw [bne_iff_ne]
    rintro rfl
    exact h ht
  rw [List.takeWhile_append_of_pos hne, List.dropWhile_append_of_pos hne]
  simp

theorem ofTokens?_front {words : List String} {depth : Depth} {name : String}
    {inner after : List Token} (h : Nesting.Balanced Token.mark true inner) :
    ofTokens? (front words depth ++ .word name :: .openParen :: (inner ++ .closeParen :: after)) =
      some { returnWords := words.filter (!isSilentWord ·), returnDepth := depth, cName := name,
             args := argumentGroups inner } := by
  have hopen : .openParen ∉ front words depth ++ [Token.word name] := by
    rw [List.mem_append, not_or]
    exact ⟨not_mem_front (by simp) (by simp) _ _, by simp⟩
  have hhead : front words depth ++ .word name :: .openParen :: (inner ++ .closeParen :: after) =
      (front words depth ++ [.word name]) ++ .openParen :: (inner ++ .closeParen :: after) := by
    simp
  obtain ⟨htake, hdrop⟩ := cut_at_openParen hopen (inner ++ .closeParen :: after)
  rw [hhead, ofTokens?, htake, hdrop]
  simp only [List.getLast?_concat, List.dropLast_concat]
  rw [Nesting.close?_balanced h rfl, Option.bind_some, wordsThenDepth?_front]
  rfl

theorem argumentGroups_commaSeparated {groups : List (List Token)}
    (hlen : ∀ g ∈ groups, 2 ≤ g.length)
    (hbalanced : ∀ g ∈ groups, Nesting.Balanced Token.mark false g) :
    argumentGroups (commaSeparated groups) = groups := by
  by_cases hnil : groups = []
  · subst hnil
    rfl
  · rw [argumentGroups, commaSeparated, Nesting.split_intercalate rfl hnil hbalanced]
    split
    · have h := hlen [] (List.mem_cons_self ..)
      simp at h
    · have h := hlen _ (List.mem_cons_self ..)
      simp at h
    · rfl

theorem ofTokens?_of_prints {words : List String} {depth : Depth} {name : String}
    {args : List Argument} {ts : List Token} (hwords : ∀ w ∈ words, isSilentWord w = false)
    (h : PrintsDeclaration words depth name args ts) :
    ∃ groups, ofTokens? ts = some { returnWords := words, returnDepth := depth, cName := name,
                                    args := groups } ∧
      groups.length = args.length ∧ groups.mapM Argument.ofTokens = .ok args := by
  have hkept : words.filter (!isSilentWord ·) = words := by
    rw [List.filter_eq_self]
    intro w hw
    rw [hwords w hw]
    rfl
  cases h with
  | @arguments args after hargs =>
    have hbalanced : ∀ g ∈ args.map Prod.snd, Nesting.Balanced Token.mark false g := by
      intro g hg
      obtain ⟨p, hp, rfl⟩ := List.mem_map.mp hg
      exact (hargs p hp).balanced
    have hlen : ∀ g ∈ args.map Prod.snd, 2 ≤ g.length := by
      intro g hg
      obtain ⟨p, hp, rfl⟩ := List.mem_map.mp hg
      exact (hargs p hp).two_le_length
    refine ⟨args.map Prod.snd, ?_, ?_, ?_⟩
    · rw [commaSeparated, ofTokens?_front (Nesting.balanced_intercalate rfl hbalanced), hkept,
        ← commaSeparated, argumentGroups_commaSeparated hlen hbalanced]
    · rw [List.length_map, List.length_map]
    · exact mapM_map_snd fun p hp => Argument.ofTokens_of_prints (hargs p hp)
  | void =>
    refine ⟨[], ?_, rfl, rfl⟩
    have hvoid : Nesting.Balanced Token.mark true [.word "void"] := .plain rfl .nil
    rw [ofTokens?_front hvoid, hkept]
    rfl

end Declaration

/-! ### Texts -/

/-- Reading undoes printing, for arguments and for declarations, whatever blanks stand between
the tokens. -/
theorem reading_undoes_printing {g : List Char} {p : Token.Layout} (hg : Text.AllBlank g)
    (hp : p.IsLaidOut) :
    (∀ a, Prints a p.tokens →
      Argument.ofTokens (Token.ofText (String.ofList (g ++ p.text))) = .ok a) ∧
    ∀ words depth name args, (∀ w ∈ words, Declaration.isSilentWord w = false) →
      PrintsDeclaration words depth name args p.tokens →
      ∃ groups, Declaration.ofText (String.ofList (g ++ p.text)) =
          .ok { returnWords := words, returnDepth := depth, cName := name, args := groups } ∧
        groups.length = args.length ∧ groups.mapM Argument.ofTokens = .ok args := by
  have htokens : Token.ofText (String.ofList (g ++ p.text)) = p.tokens := by
    rw [Token.ofText, String.toList_ofList, Token.lex_append_of_blank _ hg, Token.Layout.lex_text hp]
  refine ⟨fun a ha => ?_, fun words depth name args hwords hprints => ?_⟩
  · rw [htokens]
    exact Argument.ofTokens_of_prints ha
  · obtain ⟨groups, hread, hargs⟩ := Declaration.ofTokens?_of_prints hwords hprints
    refine ⟨groups, ?_, hargs⟩
    rw [Declaration.ofText, htokens, hread]

/-! ### A declaration -/

def sampleSet : Argument :=
  .value { name := "set", isConst := false,
           type := { ownership := some .take, base := joinWords ["isl_set"], depth := .pointer } }

def sampleText : Argument :=
  .value { name := "s", isConst := true,
           type := { ownership := none, base := joinWords ["char"], depth := .pointer } }

def sampleCallback : Argument :=
  .callback "fn" { ownership := none, base := joinWords ["int"], depth := .value } [sampleText]

/-- The layout of `int (*fn)(const char *s)`. -/
def callbackLayout : Token.Layout := [
  (.word "int", [' ']), (.openParen, []), (.star, []), (.word "fn", []), (.closeParen, []),
  (.openParen, []), (.word "const", [' ']), (.word "char", [' ']), (.star, []), (.word "s", []),
  (.closeParen, [])]

/-- The layout of `isl_set *f(struct __isl_take isl_set *set, int (*fn)(const char *s));`. -/
def declarationLayout : Token.Layout := [
    (.word "isl_set", [' ']), (.star, []), (.word "f", []), (.openParen, []),
    (.word "struct", [' ']), (.word "__isl_take", ['\n']), (.word "isl_set", [' ']), (.star, []),
    (.word "set", []), (.comma, [' '])] ++
  callbackLayout ++ [(.closeParen, []), (.semicolon, ['\n'])]

theorem prints_sampleSet :
    Prints sampleSet (front ["struct", "__isl_take", "isl_set"] .pointer ++ [.word "set"]) :=
  .value (by simp) (by decide) (by simp) (.tag (by decide) (.owned .take (.word _ .nil)))

theorem prints_sampleCallback : Prints sampleCallback callbackLayout.tokens := by
  have htext : Prints sampleText (front ["const", "char"] .pointer ++ [.word "s"]) :=
    .value (by simp) (by decide) (by simp) (.word _ (.word _ .nil))
  have hargs : ∀ a ∈ [(sampleText, front ["const", "char"] .pointer ++ [.word "s"])],
      Prints a.1 a.2 := by
    intro a ha
    rw [List.mem_singleton.mp ha]
    exact htext
  have hwords : ∀ w ∈ ["int"], IsTypeWord w ∧ w ≠ "const" := by decide
  exact .callback (by simp) hwords (.word _ .nil) hargs

theorem isLaidOut_callbackLayout : callbackLayout.IsLaidOut := by
  simp [callbackLayout, Token.Layout.IsLaidOut, Token.IsPlain, Token.IsWord, Text.AllBlank,
    Token.Layout.tokens]
  decide

theorem isLaidOut_declarationLayout : declarationLayout.IsLaidOut := by
  simp [declarationLayout, callbackLayout, Token.Layout.IsLaidOut, Token.IsPlain, Token.IsWord,
    Text.AllBlank, Token.Layout.tokens]
  decide

theorem printsDeclaration_sample :
    PrintsDeclaration ["isl_set"] .pointer "f" [sampleSet, sampleCallback]
      declarationLayout.tokens := by
  have hargs : ∀ a ∈ [(sampleSet, front ["struct", "__isl_take", "isl_set"] .pointer ++ [.word "set"]),
      (sampleCallback, callbackLayout.tokens)], Prints a.1 a.2 := by
    intro a ha
    rcases List.mem_cons.mp ha with rfl | ha
    · exact prints_sampleSet
    · rw [List.mem_singleton.mp ha]
      exact prints_sampleCallback
  exact .arguments hargs

theorem reading_undoes_printing_sample :
    Argument.ofTokens (Token.ofText " int (*fn)(const char *s)") = .ok sampleCallback ∧
    ∃ groups, Declaration.ofText
          "isl_set *f(struct __isl_take\nisl_set *set, int (*fn)(const char *s));\n" =
          .ok { returnWords := ["isl_set"], returnDepth := .pointer, cName := "f", args := groups } ∧
        groups.length = 2 ∧ groups.mapM Argument.ofTokens = .ok [sampleSet, sampleCallback] :=
  ⟨(reading_undoes_printing (g := [' ']) (by simp [Text.AllBlank]; decide) isLaidOut_callbackLayout).1 _
      prints_sampleCallback,
    (reading_undoes_printing Text.allBlank_nil isLaidOut_declarationLayout).2 _ _ _ _ (by decide)
      printsDeclaration_sample⟩

end IslBindings
