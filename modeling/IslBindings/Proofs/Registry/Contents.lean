import IslBindings.Proofs.Registry.Origin

/-!
# What is registered

The name of a registered method is one that the bindings can use, the type of its result is
bare of annotations and markers, and its receiver is called `self`.
-/

namespace IslBindings

/-! ### Names -/

/-- A name that no word of the host language and no function of the bindings' own takes. -/
structure Method.IsNamed (m : Method) : Prop where
  notReserved : m.name ∉ Catalogue.reservedWords
  noDigit : ∀ c, m.name.toList.head? = some c → Text.isAsciiDigit c = false
  notCounting : m.name ∉ Catalogue.excludedMethods
  context : m.cls = "ctx" →
    m.name ∉ ["alloc", "ref", "deref", "set_error", "reset_error"] ∧
      ¬"last_error".toList <:+: m.name.toList

theorem Registry.isExcluded_eq_false_iff {cls name : String} :
    isExcluded cls name = false ↔ name ∉ Catalogue.excludedMethods ∧
      (cls = "ctx" → name ∉ ["alloc", "ref", "deref", "set_error", "reset_error"] ∧
        ¬"last_error".toList <:+: name.toList) := by
  simp only [isExcluded, Text.occursInString, Bool.or_eq_false_iff, Bool.and_eq_false_iff,
    beq_eq_false_iff_ne, Text.occursIn_eq_false_iff, List.contains_eq_mem, decide_eq_false_iff_not,
    ne_eq, Decidable.imp_iff_not_or]

theorem Method.isNamed_of_mem {m : Method}
    (h : m.name ∈ "two_exp" :: Catalogue.reservedWords.map (· ++ "_")) : m.IsNamed := by
  have hreserved : ∀ w ∈ "two_exp" :: Catalogue.reservedWords.map (· ++ "_"),
      w ∉ Catalogue.reservedWords := by decide +kernel
  have hdigit : ∀ w ∈ "two_exp" :: Catalogue.reservedWords.map (· ++ "_"),
      w.toList.head?.any Text.isAsciiDigit = false := by decide +kernel
  have hkept : ∀ w ∈ "two_exp" :: Catalogue.reservedWords.map (· ++ "_"),
      Registry.isExcluded "ctx" w = false := by decide +kernel
  obtain ⟨hcounting, hcontext⟩ := Registry.isExcluded_eq_false_iff.mp (hkept m.name h)
  refine ⟨hreserved m.name h, fun c hc => ?_, hcounting, fun _ => hcontext rfl⟩
  have hd := hdigit m.name h
  rwa [hc] at hd

theorem Registry.Makes.isNamed {d : Declaration} {m : Method} (h : Makes d m) : m.IsNamed := by
  obtain ⟨name, -, hkept, hname⟩ := h.placed
  rcases Catalogue.publicName?_cases hname with ⟨hmem, heq⟩ | ⟨-, heq⟩ | ⟨hmem, heq, hdigit⟩
  · refine Method.isNamed_of_mem (List.mem_cons_of_mem _ ?_)
    rw [heq]
    exact List.mem_map_of_mem hmem
  · refine Method.isNamed_of_mem ?_
    rw [heq]
    exact List.mem_cons_self ..
  · obtain ⟨hcounting, hcontext⟩ := isExcluded_eq_false_iff.mp hkept
    rw [← heq] at hmem hdigit hcounting hcontext
    refine ⟨hmem, fun c hc => ?_, hcounting, hcontext⟩
    rwa [hc] at hdigit

/-! ### Results -/

def CType.words (t : CType) : List String :=
  (Text.splitAtChar ' ' t.base.toList).map String.ofList

/-- The type words hold no annotation, no tag and no marker. -/
structure CType.IsBare (t : CType) : Prop where
  nonempty : t.base ≠ ""
  noOwnership : ∀ w ∈ t.words, ∀ o : Ownership, w ≠ o.word
  noTag : ∀ w ∈ t.words, w ≠ "struct" ∧ w ≠ "enum"
  noMarker : ∀ w ∈ t.words, w ≠ "__isl_export" ∧ w ≠ "__isl_constructor"

theorem Token.IsWord.not_mem {w : String} (h : IsWord w) {c : Char}
    (hc : Text.isWordChar c = false) : c ∉ w.toList := by
  intro hmem
  rw [h.2 c hmem] at hc
  cases hc

theorem splitAtChar_joinWords {ws : List String} (hne : ws ≠ []) (h : ∀ w ∈ ws, Token.IsWord w) :
    (Text.splitAtChar ' ' (joinWords ws).toList).map String.ofList = ws := by
  have hblank : ∀ l ∈ ws.map String.toList, ' ' ∉ l := by
    intro l hl
    obtain ⟨w, hw, rfl⟩ := List.mem_map.mp hl
    exact (h w hw).not_mem (by decide)
  rw [joinWords, String.toList_intercalate, show " ".toList = [' '] from rfl,
    Text.splitAtChar_intercalate (by simpa using hne) hblank, List.map_map]
  simp [Function.comp_def]

theorem mem_of_splitOwnership {words ws : List String} {context : String} {o : Option Ownership}
    (h : splitOwnership words context = .ok (o, ws)) :
    ∀ w ∈ ws, w ∈ words ∧ Ownership.ofWord? w = none := by
  intro w hw
  simp only [splitOwnership] at h
  split at h
  · next hnone =>
    cases h
    exact ⟨hw, List.filterMap_eq_nil_iff.mp hnone w hw⟩
  · cases h
    obtain ⟨hmem, hword⟩ := List.mem_filter.mp hw
    exact ⟨hmem, Option.isNone_iff_eq_none.mp hword⟩
  · cases h

namespace Registry

/-- The words of a result are those before the C name that say nothing else. -/
theorem exists_words_of_result? {d : Declaration} {t : CType} (h : result? d = some t) :
    ∃ ws, ws ≠ [] ∧ t.base = joinWords ws ∧ ∀ w ∈ ws, w ∈ d.returnWords ∧
      Ownership.ofWord? w = none ∧ isTag w = false ∧ w ≠ "__isl_export" ∧
      w ≠ "__isl_constructor" := by
  simp only [result?] at h
  split at h
  · cases h
  · next o words hsplit =>
    split at h
    · cases h
    · next hne =>
      cases h
      refine ⟨_, fun hnil => hne (by rw [hnil]; rfl), rfl, fun w hw => ?_⟩
      obtain ⟨hmem, htag⟩ := List.mem_filter.mp hw
      obtain ⟨hmem, hword⟩ := mem_of_splitOwnership hsplit w hmem
      obtain ⟨hmem, hmarker⟩ := List.mem_filter.mp hmem
      rw [Bool.and_eq_true, bne_iff_ne, bne_iff_ne] at hmarker
      exact ⟨hmem, hword, Bool.not_eq_true' _ ▸ htag, hmarker⟩

theorem isBare_of_result? {text : String} {d : Declaration} {t : CType}
    (hd : Declaration.ofText text = .ok d) (h : result? d = some t) : t.IsBare := by
  obtain ⟨ws, hne, hbase, hws⟩ := exists_words_of_result? h
  have hword : ∀ w ∈ ws, Token.IsWord w := fun w hw =>
    Declaration.isWord_of_mem_returnWords hd (hws w hw).1
  have hwords : t.words = ws := by
    rw [CType.words, hbase]
    exact splitAtChar_joinWords hne hword
  refine ⟨fun hempty => ?_, fun w hw o heq => ?_, fun w hw => ?_, fun w hw => ?_⟩
  · rw [CType.words, hempty] at hwords
    have hmem : "" ∈ ws := by
      rw [← hwords]
      exact List.mem_cons_self ..
    exact (hword "" hmem).1 rfl
  · rw [hwords] at hw
    obtain ⟨-, hnone, -⟩ := hws w hw
    rw [heq, Ownership.ofWord?_word] at hnone
    cases hnone
  · rw [hwords] at hw
    obtain ⟨-, -, htag, -⟩ := hws w hw
    rwa [isTag, Bool.or_eq_false_iff, beq_eq_false_iff_ne, beq_eq_false_iff_ne] at htag
  · rw [hwords] at hw
    exact (hws w hw).2.2.2

theorem Makes.isBare {text : String} {d : Declaration} {m : Method}
    (hd : Declaration.ofText text = .ok d) (h : Makes d m) : m.result.IsBare := by
  obtain ⟨-, -, -, -, hresult⟩ := h
  rw [Method.result_nameReceiver]
  exact isBare_of_result? hd hresult

/-! ### Receivers -/

theorem Makes.first_of_not_isStatic {d : Declaration} {m : Method} (h : Makes d m)
    (hm : m.isStatic = false) : ∃ arg rest, m.args = .value arg :: rest ∧ arg.name = "self" := by
  obtain ⟨arg, harg⟩ : ∃ arg, m.receiver? = some arg := by
    rw [Method.isStatic, Option.isNone_eq_false_iff] at hm
    exact Option.isSome_iff_exists.mp hm
  obtain ⟨rest, hargs, -⟩ := m.receiver?_eq_some_iff.mp harg
  obtain ⟨-, -, -, -, -⟩ := h
  exact ⟨arg, rest, hargs, Method.name_of_receiver _ harg⟩

end Registry

end IslBindings
