import IslBindings.Proofs.Receiver
import IslBindings.Registry

/-!
# Reachable registries

What holds of every registry that declarations have been added to, one by one: a C name is
registered once, and every method has its place in a class of the catalogue.
-/

namespace IslBindings

/-! ### Placement -/

namespace Placement

theorem foldl_longer_eq_some {best : Option String} {names : List String} {cls : String}
    (h : names.foldl Catalogue.longer best = some cls) : best = some cls ∨ cls ∈ names := by
  induction names generalizing best with
  | nil => exact Or.inl h
  | cons name names ih =>
    rcases ih h with hb | hm
    · cases best with
      | none =>
        rw [Catalogue.longer, Option.some.injEq] at hb
        rw [← hb]
        exact Or.inr (List.mem_cons_self ..)
      | some b =>
        simp only [Catalogue.longer] at hb
        split at hb
        · exact Or.inl hb
        · rw [Option.some.injEq] at hb
          rw [← hb]
          exact Or.inr (List.mem_cons_self ..)
    · exact Or.inr (List.mem_cons_of_mem _ hm)

theorem mem_classes_of_longestClass? {name cls : String}
    (h : Catalogue.longestClass? name = some cls) : cls ∈ Catalogue.classes := by
  rcases foldl_longer_eq_some h with hn | hm
  · exact absurd hn (by simp)
  · exact (List.mem_filter.mp hm).1

theorem mem_classes_of_special? {name cls method : String}
    (h : special? name = some (.method cls method)) : cls ∈ Catalogue.classes := by
  simp only [special?] at h
  split at h
  · cases h
    decide +kernel
  · split at h
    · cases h
      decide +kernel
    · split at h
      · cases h
        decide +kernel
      · split at h
        · cases h
        · cases h

theorem mem_classes_of_byClass {cName name cls method : String}
    (h : byClass cName name = .ok (.method cls method)) : cls ∈ Catalogue.classes := by
  simp only [byClass] at h
  split at h
  · cases h
  · next c hc =>
    split at h
    · split at h
      · cases h
      · cases h
        exact mem_classes_of_longestClass? hc
    · cases h

theorem mem_classes_of_ofName {cName cls name : String} (h : ofName cName = .ok (.method cls name)) :
    cls ∈ Catalogue.classes := by
  simp only [ofName] at h
  split at h
  · cases h
  · split at h
    · next hs =>
      cases h
      exact mem_classes_of_special? hs
    · exact mem_classes_of_byClass h

end Placement

/-! ### Methods of declarations -/

namespace Registry

/-- What a declaration makes of its place, its name, its arguments and its result. -/
inductive Makes (d : Declaration) : Method → Prop where
  | intro {cls name other : String} {args : List Argument} {result : CType}
      (placed : Placement.ofName d.cName = .ok (.method cls name))
      (kept : isExcluded cls name = false)
      (named : Catalogue.publicName? name = some other)
      (read : d.args.mapM Argument.ofTokens = .ok args)
      (typed : result? d = some result) :
    Makes d (Method.nameReceiver
      { cls, name := other, cName := d.cName, result, args
        isExported := d.returnWords.contains "__isl_export"
        isConstructor := d.returnWords.contains "__isl_constructor"
        mutatorVeto := false })

theorem makes_of_methodOfText? {text : String} {m : Method}
    (h : methodOfText? text = .ok (some m)) :
    ∃ d, Declaration.ofText text = .ok d ∧ isSkipped d.cName = false ∧ Makes d m := by
  simp only [methodOfText?] at h
  split at h
  · cases h
  · next d hd =>
    split at h
    · cases h
    · next hskip =>
      split at h
      · cases h
      · cases h
      · next cls name hplace =>
        rw [Except.ok.injEq] at h
        split at h
        · cases h
        · next hkept =>
          simp only [method?] at h
          split at h
          · next args other result hargs hname hresult =>
            cases h
            exact ⟨d, hd, Bool.eq_false_iff.mpr hskip,
              .intro hplace (Bool.eq_false_iff.mpr hkept) hname hargs hresult⟩
          · cases h

theorem Makes.placed {d : Declaration} {m : Method} (h : Makes d m) :
    ∃ name, Placement.ofName m.cName = .ok (.method m.cls name) ∧ isExcluded m.cls name = false ∧
      Catalogue.publicName? name = some m.name := by
  obtain ⟨hplace, hkept, hname, -, -⟩ := h
  rw [Method.cName_nameReceiver, Method.cls_nameReceiver, Method.name_nameReceiver]
  exact ⟨_, hplace, hkept, hname⟩

theorem mem_classes_of_methodOfText? {text : String} {m : Method}
    (h : methodOfText? text = .ok (some m)) : m.cls ∈ Catalogue.classes := by
  obtain ⟨d, -, -, hmakes⟩ := makes_of_methodOfText? h
  obtain ⟨name, hplace, -⟩ := hmakes.placed
  exact Placement.mem_classes_of_ofName hplace

/-! ### Reachable registries -/

/-- Declarations have been added to the empty registry. One that is an error adds nothing. -/
inductive Reachable : Registry → Prop
  | empty : Reachable .empty
  | add {r s text} : Reachable r → r.add text = .ok s → Reachable s

/-- What every addition preserves. -/
structure Sound (r : Registry) : Prop where
  distinct : (r.methods.map (·.cName)).Nodup
  placed : ∀ m ∈ r.methods, m.cls ∈ Catalogue.classes

theorem sound_empty : Sound .empty where
  distinct := List.nodup_nil
  placed := by simp [empty]

theorem Sound.insert {r : Registry} (h : Sound r) {m : Method} (hm : m.cls ∈ Catalogue.classes) :
    Sound (r.insert m) := by
  rw [Registry.insert]
  split
  · exact h
  · next hname =>
    have hnew : m.cName ∉ r.methods.map (·.cName) := by
      intro hmem
      obtain ⟨n, hn, he⟩ := List.mem_map.mp hmem
      exact hname (List.any_eq_true.mpr ⟨n, hn, beq_iff_eq.mpr he⟩)
    refine ⟨?_, ?_⟩
    · show ((r.methods ++ [m]).map (·.cName)).Nodup
      rw [List.map_append, List.map_singleton, List.nodup_append]
      refine ⟨h.distinct, by simp, ?_⟩
      intro a ha b hb hab
      rw [List.mem_singleton] at hb
      rw [hab, hb] at ha
      exact hnew ha
    · intro n hn
      rcases List.mem_append.mp hn with hn | hn
      · exact h.placed n hn
      · rw [List.mem_singleton.mp hn]
        exact hm

theorem Sound.add {r s : Registry} (h : Sound r) {text : String} (ha : r.add text = .ok s) :
    Sound s := by
  simp only [Registry.add] at ha
  split at ha
  · cases ha
  · cases ha
    exact h
  · next m hm =>
    cases ha
    exact h.insert (mem_classes_of_methodOfText? hm)

theorem Reachable.addAll {r : Registry} (h : Reachable r) (texts : List String) :
    Reachable (r.addAll texts).1 := by
  induction texts generalizing r with
  | nil => exact h
  | cons text texts ih =>
    rw [Registry.addAll]
    split
    · next s hs => exact ih (.add h hs)
    · exact h

theorem Reachable.sound {r : Registry} (h : Reachable r) : Sound r := by
  induction h with
  | empty => exact sound_empty
  | add _ ha ih => exact ih.add ha

end Registry

end IslBindings
