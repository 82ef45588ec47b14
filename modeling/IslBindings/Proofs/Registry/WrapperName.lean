import IslBindings.Proofs.Registry.Origin

/-!
# Names of wrappers

The name of a wrapper is the class, an underscore and the name of the method. The class is the
longest one that the name starts with, so the name tells the class and the method apart. Behind
one more underscore stands the argument of a callback, which is not told apart in that way.
-/

namespace IslBindings

/-! ### Two cuts of one text -/

namespace Text

theorem append_eq_append {s t u v : String} (h : s ++ t = u ++ v) :
    (∃ w, u = s ++ w ∧ t = w ++ v) ∨ ∃ w, s = u ++ w ∧ v = w ++ t := by
  have hchars : s.toList ++ t.toList = u.toList ++ v.toList := by
    rw [← String.toList_append, h, String.toList_append]
  rcases List.append_eq_append_iff.mp hchars with ⟨w, hu, ht⟩ | ⟨w, hs, hv⟩
  · refine .inl ⟨String.ofList w, ?_, ?_⟩ <;> rw [← String.toList_inj] <;> simpa
  · refine .inr ⟨String.ofList w, ?_, ?_⟩ <;> rw [← String.toList_inj] <;> simpa

theorem append_inj {s t u v : String} (h : s ++ t = u ++ v) (hlength : s.length = u.length) :
    s = u ∧ t = v := by
  have hchars : s.toList ++ t.toList = u.toList ++ v.toList := by
    rw [← String.toList_append, h, String.toList_append]
  rw [← String.length_toList, ← String.length_toList] at hlength
  obtain ⟨hs, ht⟩ := List.append_inj hchars hlength
  exact ⟨String.toList_inj.mp hs, String.toList_inj.mp ht⟩

/-- A text that starts with an underscore is cut in front of it or behind it. -/
theorem underscore_append_cases {t u v : String} (h : "_" ++ t = u ++ v) :
    u = "" ∨ ∃ w, u = "_" ++ w ∧ t = w ++ v := by
  have hchars : '_' :: t.toList = u.toList ++ v.toList := by
    rw [← String.toList_append, ← h, String.toList_append]
    rfl
  rcases List.cons_eq_append_iff.mp hchars with ⟨hu, -⟩ | ⟨w, hu, ht⟩
  · exact .inl (String.toList_inj.mp hu)
  · refine .inr ⟨String.ofList w, ?_, ?_⟩ <;> rw [← String.toList_inj] <;> simpa

/-- Of two cuts of one text, the second is in the words before the underscore of the first, or
behind the underscore. -/
theorem prefix_cases {s t u v : String} (h : s ++ "_" ++ t = u ++ v) :
    (∃ w, s = u ++ w) ∨ ∃ w, u = s ++ "_" ++ w ∧ t = w ++ v := by
  rw [String.append_assoc] at h
  rcases append_eq_append h with ⟨w, rfl, hw⟩ | ⟨w, rfl, -⟩
  · rcases underscore_append_cases hw with rfl | ⟨w, rfl, ht⟩
    · exact .inl ⟨"", by simp⟩
    · exact .inr ⟨w, String.append_assoc.symm, ht⟩
  · exact .inl ⟨w, rfl⟩

theorem startsWith_iff_exists {s start : String} :
    startsWith s start = true ↔ ∃ rest, s = start ++ rest := by
  rw [startsWith_iff]
  constructor
  · rintro ⟨rest, h⟩
    refine ⟨String.ofList rest, ?_⟩
    rw [← String.toList_inj, String.toList_append, String.toList_ofList, h]
  · rintro ⟨rest, rfl⟩
    rw [String.toList_append]
    exact List.prefix_append ..

theorem endsWith_append (s ending : String) : endsWith (s ++ ending) ending = true := by
  rw [endsWith, String.toList_append]
  exact List.isSuffixOf_iff_suffix.mpr (List.suffix_append ..)

theorem endsWith_iff_exists {s ending : String} :
    endsWith s ending = true ↔ ∃ stem, s = stem ++ ending := by
  constructor
  · intro h
    obtain ⟨stem, hstem⟩ := List.isSuffixOf_iff_suffix.mp h
    refine ⟨String.ofList stem, ?_⟩
    rw [← String.toList_inj, String.toList_append, String.toList_ofList, hstem]
  · rintro ⟨stem, rfl⟩
    exact endsWith_append stem ending

def cutsAt (sep : Char) : List Char → List (List Char × List Char)
  | [] => []
  | c :: rest =>
    (if c = sep then [([], rest)] else []) ++
      (cutsAt sep rest).map fun cut => (c :: cut.1, cut.2)

theorem mem_cutsAt (sep : Char) (before after : List Char) :
    (before, after) ∈ cutsAt sep (before ++ sep :: after) := by
  induction before with
  | nil => simp [cutsAt]
  | cons c before ih =>
    refine List.mem_append_right _ (List.mem_map.mpr ⟨_, ih, rfl⟩)

end Text

/-! ### Longest classes -/

namespace Catalogue

theorem length_le_of_foldl_longer {best : Option String} {names : List String} {cls : String}
    (h : names.foldl longer best = some cls) :
    (∀ b, best = some b → b.length ≤ cls.length) ∧ ∀ c ∈ names, c.length ≤ cls.length := by
  induction names generalizing best with
  | nil =>
    refine ⟨fun b hb => ?_, by simp⟩
    rw [hb] at h
    cases h
    exact Nat.le_refl _
  | cons name names ih =>
    obtain ⟨hbest, hnames⟩ := ih h
    cases best with
    | none => exact ⟨by simp, List.forall_mem_cons.mpr ⟨hbest name rfl, hnames⟩⟩
    | some b =>
      simp only [longer] at hbest
      split at hbest
      · next hle =>
        have hb := hbest b rfl
        exact ⟨fun c hc => by cases hc; exact hb,
          List.forall_mem_cons.mpr ⟨Nat.le_trans hle hb, hnames⟩⟩
      · next hlt =>
        have hname := hbest name rfl
        refine ⟨fun c hc => ?_, List.forall_mem_cons.mpr ⟨hname, hnames⟩⟩
        cases hc
        omega

theorem length_le_of_longestClass? {name cls c rest : String}
    (h : longestClass? name = some cls) (hc : c ∈ classes) (hname : name = c ++ rest) :
    c.length ≤ cls.length := by
  refine (length_le_of_foldl_longer h).2 c (List.mem_filter.mpr ⟨hc, ?_⟩)
  exact Text.startsWith_iff_exists.mpr ⟨rest, hname⟩

/-- No class of the catalogue that is longer starts the name of the wrapper. -/
structure IsLongest (cls name : String) : Prop where
  mem : cls ∈ classes
  longest : ∀ c ∈ classes, ∀ rest, cls ++ "_" ++ name = c ++ rest → c.length ≤ cls.length

/-- A class that is longer would go on behind the underscore. -/
theorem isLongest_of_words {cls name : String} (hmem : cls ∈ classes)
    (h : ∀ w rest, cls ++ "_" ++ w ∈ classes → name ≠ w ++ rest) : IsLongest cls name where
  mem := hmem
  longest c hc rest heq := by
    rcases Text.prefix_cases heq with ⟨w, rfl⟩ | ⟨w, rfl, hname⟩
    · rw [String.length_append]
      omega
    · exact absurd hname (h w rest hc)

theorem IsLongest.inj {cls name cls' name' : String} (h : IsLongest cls name)
    (h' : IsLongest cls' name') (heq : cls ++ "_" ++ name = cls' ++ "_" ++ name') :
    cls = cls' ∧ name = name' := by
  have hle := h'.longest cls h.mem ("_" ++ name) (by rw [← heq, String.append_assoc])
  have hle' := h.longest cls' h'.mem ("_" ++ name') (by rw [heq, String.append_assoc])
  rw [String.append_assoc, String.append_assoc] at heq
  obtain ⟨hcls, hname⟩ := Text.append_inj heq (Nat.le_antisymm hle hle')
  exact ⟨hcls, (String.append_right_inj _).mp hname⟩

theorem IsLongest.words_behind {cls name c w : String} (h : IsLongest cls name)
    (hc : c ∈ classes) (heq : c = cls ++ "_" ++ name ++ "_" ++ w) :
    cls = "id" ∧ c = "id_to_ast_expr" := by
  have hall : ∀ c ∈ classes, ∀ cut ∈ Text.cutsAt '_' c.toList,
      ∀ cut' ∈ Text.cutsAt '_' cut.2, String.ofList cut.1 ∈ classes →
        (∃ d ∈ classes, cut.1.length < d.length ∧
          Text.startsWith (String.ofList (cut.1 ++ '_' :: cut'.1)) d = true) ∨
        (String.ofList cut.1 = "id" ∧ c = "id_to_ast_expr") := by
    decide +kernel
  -- Both underscores are places where the class is cut in the table.
  have hchars : c.toList = cls.toList ++ '_' :: (name.toList ++ '_' :: w.toList) := by
    rw [heq]
    simp [String.toList_append]
  have hcut := Text.mem_cutsAt '_' cls.toList (name.toList ++ '_' :: w.toList)
  rw [← hchars] at hcut
  have hmem : String.ofList cls.toList ∈ classes := by
    rw [String.ofList_toList]
    exact h.mem
  have hcut' := Text.mem_cutsAt '_' name.toList w.toList
  rcases hall c hc _ hcut _ hcut' hmem with ⟨d, hd, hlt, hstarts⟩ | hfound
  · obtain ⟨rest, hrest⟩ := Text.startsWith_iff_exists.mp hstarts
    have hle := h.longest d hd rest (by
      rw [← hrest, ← String.toList_inj]
      simp [String.toList_append])
    rw [String.length_toList] at hlt
    omega
  · rwa [String.ofList_toList] at hfound

/-! ### Places of names -/

theorem not_ends_of_words {c w : String} (hc : c ∈ classes) :
    ∀ tail ∈ ["", "t", "tw", "two", "two_", "two_e", "two_ex", "two_exp"],
      c ≠ w ++ "_" ++ tail := by
  have hall : ∀ c ∈ classes, ∀ tail ∈ ["", "t", "tw", "two", "two_", "two_e", "two_ex", "two_exp"],
      Text.endsWith c ("_" ++ tail) = false := by
    decide +kernel
  rintro tail htail rfl
  have hends := hall _ hc tail htail
  rw [String.append_assoc, Text.endsWith_append] at hends
  cases hends

theorem mem_heads_of_two_exp {w rest : String} (h : "two_exp" = w ++ rest) :
    w ∈ ["", "t", "tw", "two", "two_", "two_e", "two_ex", "two_exp"] := by
  have hheads : ∀ n < 8, String.ofList ("two_exp".toList.take n) ∈
      ["", "t", "tw", "two", "two_", "two_e", "two_ex", "two_exp"] := by
    decide
  have hlength : w.length < 8 := by
    have hlengths := congrArg String.length h
    rw [String.length_append] at hlengths
    have hseven : "two_exp".length = 7 := by decide
    omega
  have hw : w = String.ofList ("two_exp".toList.take w.length) := by
    rw [← String.toList_inj, String.toList_ofList, h, String.toList_append, ← String.length_toList,
      List.take_left]
  rw [hw]
  exact hheads _ hlength

theorem isLongest_of_publicName? {cls name other : String} (hmem : cls ∈ classes)
    (hlongest : longestClass? (cls ++ "_" ++ name) = some cls)
    (h : publicName? name = some other) : IsLongest cls other := by
  refine isLongest_of_words hmem fun w rest hw hother => ?_
  -- A longer class would start the C name as well, unless it ends in what the public name adds.
  have hplain : ∀ v, name ≠ w ++ v := by
    rintro v rfl
    have hname : cls ++ "_" ++ (w ++ v) = cls ++ "_" ++ w ++ v := String.append_assoc.symm
    have hle := length_le_of_longestClass? hlongest hw hname
    have hone : "_".length = 1 := by decide
    rw [String.length_append, String.length_append] at hle
    omega
  rcases publicName?_cases h with ⟨-, rfl⟩ | ⟨rfl, rfl⟩ | ⟨-, rfl, -⟩
  · rcases Text.append_eq_append hother with ⟨v, rfl, hv⟩ | ⟨v, rfl, -⟩
    · rw [← String.append_empty (s := "_")] at hv
      rcases Text.underscore_append_cases hv with rfl | ⟨u, rfl, hu⟩
      · exact hplain "" (by simp)
      · obtain ⟨rfl, -⟩ := String.append_eq_empty_iff.mp hu.symm
        refine not_ends_of_words hw "" (by simp) (w := cls ++ "_" ++ name) ?_
        simp only [String.append_assoc]
    · exact hplain v rfl
  · exact not_ends_of_words hw w (mem_heads_of_two_exp hother) rfl
  · exact hplain rest hother

end Catalogue

namespace Placement

open Catalogue

theorem special?_cases {name cls other : String} (h : special? name = some (.method cls other)) :
    cls ∈ ["ctx", "printer"] ∨ (cls = "constraint" ∧ other = name ∧
      (Text.startsWith name "equality_" || Text.startsWith name "inequality_") = true) := by
  simp only [special?] at h
  split at h
  · cases h
    exact .inl (by simp)
  · split at h
    · next hstarts =>
      cases h
      exact .inr ⟨rfl, rfl, hstarts⟩
    · split at h
      · cases h
        exact .inl (by simp)
      · split at h <;> cases h

theorem isLongest_constraint {name other : String}
    (h : (Text.startsWith name "equality_" || Text.startsWith name "inequality_") = true)
    (hpublic : publicName? name = some other) : IsLongest "constraint" other := by
  have hall : ∀ c ∈ classes, Text.startsWith c "constraint_" = true → c = "constraint_list" := by
    decide +kernel
  have hstarts : ∃ c ∈ ['e', 'i'], other.toList.head? = some c := by
    have hname : ∃ c ∈ ['e', 'i'], name.toList.head? = some c := by
      rcases Bool.or_eq_true_iff.mp h with h | h <;>
        obtain ⟨v, rfl⟩ := Text.startsWith_iff_exists.mp h <;> simp
    rcases publicName?_cases hpublic with ⟨-, rfl⟩ | ⟨rfl, -⟩ | ⟨-, rfl, -⟩
    · obtain ⟨c, hc, hhead⟩ := hname
      exact ⟨c, hc, by rw [String.toList_append, List.head?_append, hhead]; rfl⟩
    · exact absurd h (by decide)
    · exact hname
  refine isLongest_of_words (by decide +kernel) fun w rest hw hother => ?_
  have hlist := hall _ hw (Text.startsWith_iff_exists.mpr ⟨w, rfl⟩)
  have hw : w = "list" := (String.append_right_inj "constraint_").mp hlist
  obtain ⟨c, hc, hhead⟩ := hstarts
  rw [hother, hw, String.toList_append] at hhead
  simp at hhead
  subst hhead
  simp at hc

/-- The class of a method is the longest one that the name of its wrapper starts with. -/
theorem isLongest_of_ofName {cName cls name other : String}
    (h : ofName cName = .ok (.method cls name)) (hpublic : publicName? name = some other) :
    IsLongest cls other := by
  have hmem := mem_classes_of_ofName h
  simp only [ofName] at h
  split at h
  · cases h
  · next full _ =>
    split at h
    · next hspecial =>
      cases h
      rcases special?_cases hspecial with halone | ⟨rfl, rfl, hstarts⟩
      · have hall : ∀ c ∈ classes, ∀ cls ∈ ["ctx", "printer"],
            Text.startsWith c (cls ++ "_") = false := by
          decide +kernel
        refine isLongest_of_words hmem fun w rest hw _ => ?_
        have hstarts := hall _ hw cls halone
        rw [Text.startsWith_iff_exists.mpr ⟨w, rfl⟩] at hstarts
        cases hstarts
      · exact isLongest_constraint hstarts hpublic
    · simp only [byClass] at h
      split at h
      · cases h
      · next c hc =>
        split at h
        · next rest hrest =>
          split at h
          · cases h
          · cases h
            rw [Text.afterStart?_eq_some_iff] at hrest
            rw [hrest] at hc
            exact isLongest_of_publicName? hmem hc hpublic
        · cases h

end Placement

end IslBindings
