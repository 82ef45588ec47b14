import IslBindings.Proofs.Argument.Grammar
import IslBindings.Proofs.Registry.Contents

/-!
# The words of what is read

The names and the type words of an argument that is read are words of its tokens. None of the
type words is an annotation or a tag, and a leading `const` is one of them only behind another
one.
-/

namespace IslBindings

/-! ### Arguments made of words -/

/-- The type is spelt with these words, none of which is an annotation or a tag. -/
structure CType.IsSpelt (t : CType) (ws : List String) : Prop where
  nonempty : ws ≠ []
  isWord : ∀ w ∈ ws, Token.IsWord w
  isTypeWord : ∀ w ∈ ws, IsTypeWord w
  base : t.base = joinWords ws

structure ValueArgument.IsWorded (a : ValueArgument) : Prop where
  name : Token.IsWord a.name
  /-- What starts with `const` is a constant, so that `const` comes twice. -/
  type : ∃ ws, a.type.IsSpelt ws ∧ (a.isConst = false → ws.head? ≠ some "const")

inductive Argument.IsWorded : Argument → Prop
  | value {arg} : arg.IsWorded → IsWorded (.value arg)
  | callback {name result args} : Token.IsWord name → (∃ ws, result.IsSpelt ws) →
      (∀ a ∈ args, IsWorded a) → IsWorded (.callback name result args)

theorem CType.IsSpelt.words_eq {t : CType} {ws : List String} (h : t.IsSpelt ws) : t.words = ws := by
  rw [CType.words, h.base]
  exact splitAtChar_joinWords h.nonempty h.isWord

/-! ### Types -/

section Read

variable {words : List String} {depth : Depth} {name text : String} {tokens : List Token}

theorem ValueArgument.isWorded_of_ofWords {a : ValueArgument} (hname : Token.IsWord name)
    (hwords : ∀ w ∈ words, Token.IsWord w) (h : ofWords name words depth text = .ok a) :
    a.IsWorded := by
  obtain ⟨⟨o, rest⟩, hsplit, h⟩ := exists_of_bind_ok h
  have hkept : ∀ w ∈ rest.filter (!isTag ·), Token.IsWord w ∧ IsTypeWord w := by
    intro w hw
    obtain ⟨hw, htag⟩ := List.mem_filter.mp hw
    obtain ⟨hmem, hnone⟩ := mem_of_splitOwnership hsplit w hw
    exact ⟨hwords w hmem, hnone, by simpa using htag⟩
  -- The words of the type are those that are kept, or all of them but the first.
  have hmade : ∀ ws isConst, ws ⊆ rest.filter (!isTag ·) → ws.isEmpty ≠ true →
      (isConst = false → ws.head? ≠ some "const") →
      IsWorded { name, isConst, type := { ownership := o, base := joinWords ws, depth } } :=
    fun ws isConst hsub hne hconst => ⟨hname, ws, ⟨fun hnil => hne (by rw [hnil]; rfl),
      fun w hw => (hkept w (hsub hw)).1, fun w hw => (hkept w (hsub hw)).2, rfl⟩, hconst⟩
  simp only at h
  split at h
  · next hconst =>
    split at h
    · cases h
    · next hne =>
      cases h
      exact hmade _ _ (List.drop_subset 1 _) hne fun hfalse =>
        absurd (hconst.symm.trans hfalse) (by simp)
  · split at h
    · cases h
    · next hne =>
      cases h
      exact hmade _ _ (List.Subset.refl _) hne fun hfalse => beq_eq_false_iff_ne.mp hfalse

theorem CallbackHead.isSpelt_of_result {head : CallbackHead} {t : CType}
    (hwords : ∀ w ∈ head.words, Token.IsWord w) (h : head.result text = .ok t) :
    ∃ ws, t.IsSpelt ws := by
  obtain ⟨⟨o, rest⟩, hsplit, h⟩ := exists_of_bind_ok h
  simp only at h
  split at h
  · cases h
  · next hne =>
    cases h
    have hkept : ∀ w ∈ rest.filter (fun w => !isTag w && w != "const"),
        Token.IsWord w ∧ IsTypeWord w := by
      intro w hw
      obtain ⟨hw, htag⟩ := List.mem_filter.mp hw
      obtain ⟨hmem, hnone⟩ := mem_of_splitOwnership hsplit w hw
      rw [Bool.and_eq_true, Bool.not_eq_true'] at htag
      exact ⟨hwords w hmem, hnone, htag.1⟩
    exact ⟨_, fun hnil => hne (by rw [hnil]; rfl), fun w hw => (hkept w hw).1,
      fun w hw => (hkept w hw).2, rfl⟩

/-! ### Arguments -/

theorem ValueArgument.isWorded_of_ofTokens {a : ValueArgument}
    (htokens : ∀ w, .word w ∈ tokens → Token.IsWord w) (h : ofTokens tokens = .ok a) :
    a.IsWorded := by
  obtain ⟨words, depth, name, rfl⟩ := eq_of_succeeds_ofTokens ⟨a, h⟩
  rw [ofTokens_front] at h
  refine isWorded_of_ofWords (htokens name (by simp)) (fun w hw => htokens w ?_) h
  rw [front]
  simp [hw]

/-- An argument is read from words of its tokens. -/
theorem Argument.isWorded_of_within {fuel : Nat} {a : Argument}
    (htokens : ∀ w, .word w ∈ tokens → Token.IsWord w) (h : ofTokensWithin fuel tokens = .ok a) :
    a.IsWorded := by
  induction fuel generalizing tokens a with
  | zero => cases h
  | succ fuel ih =>
    simp only [ofTokensWithin] at h
    split at h
    · cases h
    · split at h
      · obtain ⟨arg, harg, rfl⟩ := exists_of_map_ok h
        exact .value (ValueArgument.isWorded_of_ofTokens htokens harg)
      · next before after hcut =>
        split at h
        · cases h
        · next head hparts =>
          obtain ⟨result, hresult, h⟩ := exists_of_bind_ok h
          obtain ⟨args, hargs, h⟩ := exists_of_bind_ok h
          cases h
          obtain ⟨tail, rfl, rfl, -⟩ := eq_of_ofParts? hparts
          obtain rfl := eq_of_cutAtCallback? hcut
          have hwords : ∀ w ∈ head.words, Token.IsWord w := fun w hw => htokens w (by simp [front, hw])
          refine .callback (htokens _ (by simp)) (CallbackHead.isSpelt_of_result hwords hresult)
            fun b hb => ?_
          obtain ⟨group, hgroup, hread⟩ := exists_of_mem_mapM hargs hb
          obtain ⟨hgroup, -⟩ := List.mem_filter.mp hgroup
          refine ih (fun w hw => htokens w ?_) hread
          have hinner := (Nesting.sublist_of_mem_split Token.mark hgroup).subset hw
          simp [hinner]

end Read

theorem Argument.isWorded_of_ofTokens {tokens : List Token} {a : Argument}
    (htokens : ∀ w, .word w ∈ tokens → Token.IsWord w) (h : ofTokens tokens = .ok a) : a.IsWorded :=
  isWorded_of_within htokens h

end IslBindings
