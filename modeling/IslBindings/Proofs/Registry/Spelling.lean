import IslBindings.Proofs.Argument.Wording

/-!
# How names are spelt

The names of a registered method and of its arguments are made of the characters of words, so
that they can stand in code and in a literal as they are.
-/

namespace IslBindings

/-! ### Names made of word characters -/

def Text.AllWordChars (s : String) : Prop := ∀ c ∈ s.toList, isWordChar c = true

namespace Text

instance (s : String) : Decidable (AllWordChars s) :=
  decidable_of_iff (s.toList.all isWordChar = true) List.all_eq_true

theorem allWordChars_append {s t : String} :
    AllWordChars (s ++ t) ↔ AllWordChars s ∧ AllWordChars t := by
  rw [AllWordChars, String.toList_append, List.forall_mem_append]
  rfl

theorem not_mem_of_all {s others : List Char} (h : s.all (!others.contains ·) = true) :
    ∀ c ∈ s, c ∉ others := by
  simpa using h

theorem AllWordChars.not_mem {s : String} (h : AllWordChars s) {c : Char}
    (hc : isWordChar c = false) : c ∉ s.toList := by
  intro hmem
  rw [h c hmem] at hc
  cases hc

end Text

open Text

namespace Placement

theorem allWordChars_optionMethod {name : String} (h : AllWordChars name) :
    AllWordChars (optionMethod name) := by
  simp only [optionMethod]
  split
  · next rest hget =>
    rw [afterStart?_eq_some_iff.mp hget, allWordChars_append] at h
    exact allWordChars_append.mpr ⟨by decide, h.2⟩
  · split
    · next rest hset =>
      rw [afterStart?_eq_some_iff.mp hset, allWordChars_append] at h
      exact allWordChars_append.mpr ⟨by decide, h.2⟩
    · exact h

theorem allWordChars_of_special? {name cls method : String} (hname : AllWordChars name)
    (h : special? name = some (.method cls method)) : AllWordChars method := by
  simp only [special?] at h
  split at h
  · next rest hrest =>
    cases h
    rw [afterStart?_eq_some_iff.mp hrest, allWordChars_append] at hname
    exact allWordChars_optionMethod hname.2
  · split at h
    · cases h
      exact hname
    · split at h
      · cases h
        exact hname
      · split at h <;> cases h

theorem allWordChars_of_ofName {cName cls name : String} (hname : AllWordChars cName)
    (h : ofName cName = .ok (.method cls name)) : AllWordChars name := by
  simp only [ofName] at h
  split at h
  · cases h
  · next full hfull =>
    rw [afterStart?_eq_some_iff.mp hfull, allWordChars_append] at hname
    split at h
    · next hspecial =>
      cases h
      exact allWordChars_of_special? hname.2 hspecial
    · simp only [byClass] at h
      split at h
      · cases h
      · split at h
        · next rest hrest =>
          split at h
          · cases h
          · cases h
            rw [afterStart?_eq_some_iff.mp hrest, allWordChars_append] at hname
            exact hname.2.2
        · cases h

end Placement

theorem Catalogue.allWordChars_of_publicName? {name other : String} (hname : AllWordChars name)
    (h : publicName? name = some other) : AllWordChars other := by
  rcases publicName?_cases h with ⟨-, rfl⟩ | ⟨-, rfl⟩ | ⟨-, rfl, -⟩
  · exact allWordChars_append.mpr ⟨hname, by decide⟩
  · decide
  · exact hname

theorem Catalogue.allWordChars_of_mem_classes {cls : String} (h : cls ∈ classes) :
    AllWordChars cls := by
  have hall : ∀ c ∈ classes, AllWordChars c := by decide +kernel
  exact hall cls h

/-! ### Methods -/

theorem Argument.IsWorded.allWordChars {a : Argument} (h : a.IsWorded) : AllWordChars a.name := by
  cases h with
  | value h => exact h.name.2
  | callback h _ _ => exact h.2

/-- The names that the registration of a method is made of. -/
structure Method.IsSpelt (m : Method) : Prop where
  cls : AllWordChars m.cls
  name : AllWordChars m.name
  args : ∀ a ∈ m.args, AllWordChars a.name

theorem Method.IsSpelt.wrapperName {m : Method} (h : m.IsSpelt) : AllWordChars m.wrapperName := by
  rw [Method.wrapperName, allWordChars_append, allWordChars_append]
  exact ⟨⟨h.cls, by decide⟩, h.name⟩

theorem Method.isSpelt_nameReceiver {m : Method} (h : m.IsSpelt) : m.nameReceiver.IsSpelt := by
  refine ⟨m.cls_nameReceiver ▸ h.cls, m.name_nameReceiver ▸ h.name, ?_⟩
  rcases m.nameReceiver_cases with ⟨-, heq⟩ | ⟨arg, rest, hargs, -, heq⟩
  · rw [heq]
    exact h.args
  · have hrest := h.args
    rw [hargs, List.forall_mem_cons] at hrest
    rw [heq]
    exact List.forall_mem_cons.mpr ⟨(by decide : AllWordChars "self"), hrest.2⟩

theorem Registry.Makes.isSpelt {text : String} {d : Declaration} {m : Method}
    (hd : Declaration.ofText text = .ok d) (h : Makes d m) : m.IsSpelt := by
  have hfrom := Declaration.isFrom_of_ofText hd
  obtain ⟨placed, -, named, read, -⟩ := h
  have hword : ∀ w, .word w ∈ Token.ofText text → Token.IsWord w :=
    fun w hw => Token.isWord_of_mem_lex hw
  have hname := Placement.allWordChars_of_ofName (hword _ hfrom.cName).2 placed
  refine Method.isSpelt_nameReceiver ⟨?_, ?_, fun a ha => ?_⟩
  · exact Catalogue.allWordChars_of_mem_classes (Placement.mem_classes_of_ofName placed)
  · exact Catalogue.allWordChars_of_publicName? hname named
  · obtain ⟨group, hgroup, hread⟩ := exists_of_mem_mapM read ha
    have hworded := Argument.isWorded_of_ofTokens
      (fun w hw => hword w (hfrom.args group hgroup _ hw)) hread
    exact hworded.allWordChars

theorem Registry.Reachable.isSpelt {r : Registry} (h : r.Reachable) :
    ∀ m ∈ r.methods, m.IsSpelt :=
  h.forall_methods fun _ _ _ hd hmakes => hmakes.isSpelt hd

end IslBindings
