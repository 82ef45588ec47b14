import IslBindings.Proofs.Registry.WrapperName

/-!
# Places of names

A name that no special rule catches goes to the longest class that it starts with, and has a place
only if it goes on there with an underscore and the name of a method. A shorter class with an
underscore behind it does not count, where a longer class starts the name.
-/

namespace IslBindings

/-! ### Longest starts -/

namespace Catalogue

theorem eq_of_startsWith {name c d : String} (hc : Text.startsWith name c = true)
    (hd : Text.startsWith name d = true) (hlength : c.length = d.length) : c = d := by
  obtain ⟨rest, hrest⟩ := Text.startsWith_iff_exists.mp hc
  obtain ⟨rest', hrest'⟩ := Text.startsWith_iff_exists.mp hd
  exact (Text.append_inj (hrest.symm.trans hrest') hlength).1

theorem foldl_longer_ne_none {names : List String} {best : String} :
    names.foldl longer (some best) ≠ none := by
  induction names generalizing best with
  | nil => simp
  | cons name names ih =>
    rw [List.foldl_cons, longer]
    split
    · exact ih
    · exact ih

theorem longestClass?_eq_none_iff {name : String} :
    longestClass? name = none ↔ ∀ c ∈ classes, Text.startsWith name c = false := by
  rw [longestClass?]
  constructor
  · intro h c hc
    rw [Bool.eq_false_iff]
    intro hstarts
    have hmem : c ∈ classes.filter (Text.startsWith name ·) := List.mem_filter.mpr ⟨hc, hstarts⟩
    obtain ⟨first, rest, hnames⟩ := List.exists_cons_of_ne_nil (List.ne_nil_of_mem hmem)
    rw [hnames] at h
    exact foldl_longer_ne_none h
  · intro h
    have hnil : classes.filter (Text.startsWith name ·) = [] :=
      List.filter_eq_nil_iff.mpr fun c hc => Bool.eq_false_iff.mp (h c hc)
    rw [hnil]
    rfl

theorem startsWith_of_longestClass? {name cls : String} (h : longestClass? name = some cls) :
    Text.startsWith name cls = true := by
  rcases Placement.foldl_longer_eq_some h with hnone | hmem
  · cases hnone
  · exact (List.mem_filter.mp hmem).2

/-- No class that starts the name is longer. -/
structure IsLongestStart (name cls : String) : Prop where
  mem : cls ∈ classes
  starts : Text.startsWith name cls = true
  longest : ∀ c ∈ classes, Text.startsWith name c = true → c.length ≤ cls.length

theorem longestClass?_eq_some_iff {name cls : String} :
    longestClass? name = some cls ↔ IsLongestStart name cls := by
  have hlongest : ∀ d, longestClass? name = some d → IsLongestStart name d := by
    intro d hd
    refine ⟨Placement.mem_classes_of_longestClass? hd, startsWith_of_longestClass? hd, ?_⟩
    intro c hc hstarts
    obtain ⟨rest, hrest⟩ := Text.startsWith_iff_exists.mp hstarts
    exact length_le_of_longestClass? hd hc hrest
  constructor
  · exact hlongest cls
  · intro h
    cases hfound : longestClass? name with
    | none =>
      have hno := longestClass?_eq_none_iff.mp hfound cls h.mem
      rw [h.starts] at hno
      cases hno
    | some d =>
      -- Two longest classes start the same name, so they are one.
      have hd := hlongest d hfound
      have hle := h.longest d hd.mem hd.starts
      have hge := hd.longest cls h.mem h.starts
      rw [eq_of_startsWith hd.starts h.starts (Nat.le_antisymm hle hge)]

end Catalogue

/-! ### Classes with a method -/

namespace Placement

open Catalogue

/-- The name is that of a class, an underscore and the name of a method. -/
structure Divides (name cls method : String) : Prop where
  mem : cls ∈ classes
  eq : name = cls ++ "_" ++ method
  named : method ≠ ""

section Divides

variable {name cls method : String}

theorem Divides.starts (h : Divides name cls method) : Text.startsWith name cls = true := by
  rw [Text.startsWith_iff_exists]
  exact ⟨"_" ++ method, by rw [h.eq, String.append_assoc]⟩

theorem Divides.isLongestStart (h : Divides name cls method)
    (hlongest : ∀ c ∈ classes, Text.startsWith name c = true → c.length ≤ cls.length) :
    IsLongestStart name cls :=
  ⟨h.mem, h.starts, hlongest⟩

end Divides

/-! ### Places -/

section ByClass

variable {cName name cls method : String}

theorem byClass_eq_ok_iff {p : Placement} :
    byClass cName name = .ok p ↔
      ∃ cls method, p = .method cls method ∧ IsLongestStart name cls ∧ Divides name cls method := by
  constructor
  · intro h
    simp only [byClass] at h
    split at h
    · cases h
    · next cls hcls =>
      have hlongest := longestClass?_eq_some_iff.mp hcls
      split at h
      · next method hmethod =>
        split at h
        · cases h
        · next hne =>
          cases h
          exact ⟨cls, method, rfl, hlongest, hlongest.mem,
            Text.afterStart?_eq_some_iff.mp hmethod, hne⟩
      · cases h
  · rintro ⟨cls, method, rfl, hlongest, hdivides⟩
    have hafter : Text.afterStart? (cls ++ "_") name = some method :=
      Text.afterStart?_eq_some_iff.mpr hdivides.eq
    simp only [byClass, longestClass?_eq_some_iff.mpr hlongest, hafter, if_neg hdivides.named]

theorem byClass_eq_noMethod (h : IsLongestStart name cls)
    (hno : ∀ method, ¬Divides name cls method) :
    byClass cName name = .error (.noMethod cName cls) := by
  simp only [byClass, longestClass?_eq_some_iff.mpr h]
  split
  · next rest hrest =>
    rw [Text.afterStart?_eq_some_iff] at hrest
    split
    · rfl
    · next hne => exact absurd ⟨h.mem, hrest, hne⟩ (hno rest)
  · rfl

theorem exists_isLongestStart_of_divides (h : Divides name cls method) :
    ∃ c, IsLongestStart name c := by
  cases hfound : longestClass? name with
  | none =>
    have hno := longestClass?_eq_none_iff.mp hfound cls h.mem
    rw [h.starts] at hno
    cases hno
  | some c => exact ⟨c, longestClass?_eq_some_iff.mp hfound⟩

end ByClass

section OfName

variable {name : String}

theorem ofName_append (h : special? name = none) :
    ofName ("isl_" ++ name) = byClass ("isl_" ++ name) name := by
  simp only [ofName, Text.afterStart?_append, h]

theorem ofName_eq_noMethod {cls : String} (h : special? name = none)
    (hstart : IsLongestStart name cls) (hno : Text.startsWith name (cls ++ "_") = false) :
    ofName ("isl_" ++ name) = .error (.noMethod ("isl_" ++ name) cls) := by
  rw [ofName_append h]
  refine byClass_eq_noMethod hstart fun method hdivides => ?_
  rw [Text.startsWith_iff_exists.mpr ⟨method, hdivides.eq⟩] at hno
  cases hno

/-- What becomes of an isl name. -/
structure GoesByClass (name : String) : Prop where
  /-- The class is the longest one with a method, and no longer one starts the name. -/
  placed : ∀ cls method, ofName ("isl_" ++ name) = .ok (.method cls method) ↔
    Divides name cls method ∧
      (∀ c rest, Divides name c rest → c.length ≤ cls.length) ∧
      ∀ c ∈ classes, Text.startsWith name c = true → c.length ≤ cls.length
  refused : (∃ e, ofName ("isl_" ++ name) = .error e) ↔
    (∀ cls method, ¬Divides name cls method) ∨
      ∃ c ∈ classes, Text.startsWith name c = true ∧
        ∀ cls method, Divides name cls method → cls.length < c.length
  notIgnored : ofName ("isl_" ++ name) ≠ .ok .ignored

theorem goesByClass_of_ordinary (h : special? name = none) : GoesByClass name := by
  have hof := ofName_append h
  constructor
  case placed =>
    intro cls method
    rw [hof, byClass_eq_ok_iff]
    constructor
    · rintro ⟨c, m, hp, hlongest, hdivides⟩
      cases hp
      exact ⟨hdivides, fun d _ hd => hlongest.longest d hd.mem hd.starts, hlongest.longest⟩
    · rintro ⟨hdivides, -, hlongest⟩
      exact ⟨cls, method, rfl, hdivides.isLongestStart hlongest, hdivides⟩
  case refused =>
    rw [hof]
    constructor
    · rintro ⟨e, he⟩
      by_cases hsome : ∃ cls method, Divides name cls method
      · obtain ⟨cls, method, hdivides⟩ := hsome
        obtain ⟨c, hc⟩ := exists_isLongestStart_of_divides hdivides
        refine .inr ⟨c, hc.mem, hc.starts, fun d rest hd => ?_⟩
        -- The longest class itself has no method, for then the name would have a place.
        refine Nat.lt_of_le_of_ne (hc.longest d hd.mem hd.starts) fun hlength => ?_
        obtain rfl := eq_of_startsWith hd.starts hc.starts hlength
        rw [byClass_eq_ok_iff.mpr ⟨d, rest, rfl, hc, hd⟩] at he
        cases he
      · exact .inl fun cls method hdivides => hsome ⟨cls, method, hdivides⟩
    · intro hno
      cases hfound : byClass ("isl_" ++ name) name with
      | error e => exact ⟨e, rfl⟩
      | ok p =>
        obtain ⟨cls, method, -, hlongest, hdivides⟩ := byClass_eq_ok_iff.mp hfound
        rcases hno with hno | ⟨c, hc, hstarts, hlonger⟩
        · exact absurd hdivides (hno cls method)
        · have hle := hlongest.longest c hc hstarts
          have hlt := hlonger cls method hdivides
          omega
  case notIgnored =>
    rw [hof]
    intro hp
    obtain ⟨cls, method, hignored, -⟩ := byClass_eq_ok_iff.mp hp
    cases hignored

theorem goesByClass_of_ordinary_list :
    special? "set_list_add" = none ∧ Divides "set_list_add" "set_list" "add" ∧
      Divides "set_list_add" "set" "list_add" ∧
      ofName "isl_set_list_add" = .ok (.method "set_list" "add") := by
  have hspecial : special? "set_list_add" = none := by decide
  have hdivides : Divides "set_list_add" "set_list" "add" :=
    ⟨by decide +kernel, by decide, by decide⟩
  have hshorter : Divides "set_list_add" "set" "list_add" :=
    ⟨by decide +kernel, by decide, by decide⟩
  have hlongest : ∀ c ∈ classes, Text.startsWith "set_list_add" c = true → c.length ≤ 8 := by
    decide +kernel
  refine ⟨hspecial, hdivides, hshorter, ?_⟩
  exact ((goesByClass_of_ordinary hspecial).placed "set_list" "add").mpr
    ⟨hdivides, fun c _ hc => hlongest c hc.mem hc.starts, hlongest⟩

/-- The class `set` with a method is the longest one of both names, but `set_list` starts them. -/
theorem refused_of_longer_start :
    (special? "set_lists" = none ∧ Divides "set_lists" "set" "lists" ∧
      (∀ c method, Divides "set_lists" c method → c.length ≤ "set".length) ∧
      ofName "isl_set_lists" = .error (.noMethod "isl_set_lists" "set_list")) ∧
    special? "set_list" = none ∧ Divides "set_list" "set" "list" ∧
      (∀ c method, Divides "set_list" c method → c.length ≤ "set".length) ∧
      ofName "isl_set_list" = .error (.noMethod "isl_set_list" "set_list") := by
  have hset : ∀ name ∈ ["set_lists", "set_list"], ∀ c ∈ classes,
      Text.startsWith name (c ++ "_") = true → c.length ≤ "set".length := by
    decide +kernel
  have hlongest : ∀ name ∈ ["set_lists", "set_list"], ∀ c method,
      Divides name c method → c.length ≤ "set".length := fun name hname c method h =>
    hset name hname c h.mem (Text.startsWith_iff_exists.mpr ⟨method, h.eq⟩)
  have hstart : ∀ name ∈ ["set_lists", "set_list"], "set_list" ∈ classes ∧
      Text.startsWith name "set_list" = true ∧
      ∀ c ∈ classes, Text.startsWith name c = true → c.length ≤ "set_list".length := by
    decide +kernel
  have hrefused : ∀ name ∈ ["set_lists", "set_list"],
      ofName ("isl_" ++ name) = .error (.noMethod ("isl_" ++ name) "set_list") := by
    intro name hname
    have hordinary : ∀ n ∈ ["set_lists", "set_list"],
        special? n = none ∧ Text.startsWith n ("set_list" ++ "_") = false := by
      decide
    obtain ⟨hspecial, hno⟩ := hordinary name hname
    obtain ⟨hmem, hstarts, hle⟩ := hstart name hname
    exact ofName_eq_noMethod hspecial ⟨hmem, hstarts, hle⟩ hno
  exact ⟨⟨by decide, ⟨by decide +kernel, by decide, by decide⟩, hlongest _ (by simp),
      hrefused "set_lists" (by simp)⟩,
    by decide, ⟨by decide +kernel, by decide, by decide⟩, hlongest _ (by simp),
    hrefused "set_list" (by simp)⟩

end OfName

end Placement

end IslBindings
