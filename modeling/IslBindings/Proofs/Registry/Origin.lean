import IslBindings.Proofs.Registry.Reachable
import IslBindings.Proofs.Token.Layout

/-!
# Where methods come from

The words of a declaration are words of its text, and a name is public as it is unless the
bindings have to call it otherwise. What holds of each method that a declaration makes holds of
all methods that are registered.
-/

namespace IslBindings

/-! ### Words of a declaration -/

theorem Token.isWord_of_mem_lex {w : String} {s : List Char} (h : .word w ∈ lex s) : IsWord w := by
  induction s using lexInduction with
  | nil => simp [lex_nil] at h
  | blank c s hc ih =>
    rw [lex_blank s hc] at h
    exact ih h
  | word c s hc ih =>
    rw [lex_word s hc, List.mem_cons] at h
    rcases h with heq | h
    · cases heq
      rw [IsWord, String.toList_ofList]
      refine ⟨by simp, fun d hd => ?_⟩
      rcases List.mem_cons.mp hd with rfl | hd
      · exact hc
      · exact List.all_eq_true.mp List.all_takeWhile d hd
    · exact ih h
  | dots s ih =>
    rw [lex_dots, List.mem_cons] at h
    rcases h with heq | h
    · cases heq
    · exact ih h
  | mark c s hb hw hdot ih =>
    rw [lex_mark s hb hw hdot, List.mem_cons] at h
    rcases h with heq | h
    · exact absurd heq.symm (Layout.ofMark_ne_word c w)
    · exact ih h

theorem mem_of_mem_wordsThenStars? {tokens : List Token} {words : List String} {stars : Nat}
    (h : wordsThenStars? tokens = some (words, stars)) {w : String} (hw : w ∈ words) :
    .word w ∈ tokens := by
  induction tokens generalizing words stars with
  | nil =>
    cases h
    simp at hw
  | cons t tokens ih =>
    cases t with
    | word v =>
      obtain ⟨⟨vs, n⟩, hvs, heq⟩ := Option.map_eq_some_iff.mp h
      cases heq
      rcases List.mem_cons.mp hw with rfl | hw
      · exact List.mem_cons_self ..
      · exact List.mem_cons_of_mem _ (ih hvs hw)
    | star =>
      simp only [wordsThenStars?] at h
      split at h
      · cases h
        simp at hw
      · cases h
    | _ => cases h

theorem mem_of_mem_wordsThenDepth? {tokens : List Token} {words : List String} {depth : Depth}
    (h : wordsThenDepth? tokens = some (words, depth)) {w : String} (hw : w ∈ words) :
    .word w ∈ tokens := by
  obtain ⟨⟨ws, stars⟩, hstars, hdepth⟩ := Option.bind_eq_some_iff.mp h
  obtain ⟨e, -, heq⟩ := Option.map_eq_some_iff.mp hdepth
  cases heq
  exact mem_of_mem_wordsThenStars? hstars hw

namespace Declaration

/-- The words and the arguments of a declaration are made of its tokens. -/
structure IsFrom (d : Declaration) (tokens : List Token) : Prop where
  returnWords : ∀ w ∈ d.returnWords, .word w ∈ tokens
  cName : .word d.cName ∈ tokens
  args : ∀ group ∈ d.args, ∀ t ∈ group, t ∈ tokens

theorem mem_of_mem_argumentGroups {inner group : List Token} (h : group ∈ argumentGroups inner)
    {t : Token} (ht : t ∈ group) : t ∈ inner := by
  have hgroups : group ∈ Nesting.split Token.mark inner := by
    rw [argumentGroups] at h
    split at h
    · simp at h
    · next heq =>
      split at h
      · simp at h
      · rwa [heq]
    · exact h
  exact (Nesting.sublist_of_mem_split Token.mark hgroups).subset ht

theorem isFrom_of_ofText {text : String} {d : Declaration} (h : ofText text = .ok d) :
    d.IsFrom (Token.ofText text) := by
  rw [ofText] at h
  split at h
  · next d' hd =>
    cases h
    simp only [ofTokens?] at hd
    split at hd
    · next rest cName hrest hlast =>
      obtain ⟨⟨inner, after⟩, hclose, hd⟩ := Option.bind_eq_some_iff.mp hd
      obtain ⟨⟨words, depth⟩, hwords, rfl⟩ := Option.map_eq_some_iff.mp hd
      refine ⟨fun w hw => ?_, ?_, fun group hgroup t ht => ?_⟩
      · have hmem := mem_of_mem_wordsThenDepth? hwords (List.mem_filter.mp hw).1
        exact List.takeWhile_subset _ (List.dropLast_subset _ hmem)
      · exact List.takeWhile_subset _ (List.mem_of_getLast? hlast)
      · obtain ⟨close, -, hinner⟩ := Nesting.exists_append_of_close? Token.mark hclose
        have hmem : t ∈ rest := by
          rw [hinner]
          exact List.mem_append_left _ (mem_of_mem_argumentGroups hgroup ht)
        refine (List.dropWhile_suffix (· != .openParen)).subset ?_
        rw [hrest]
        exact List.mem_cons_of_mem _ hmem
    · cases hd
  · cases h

theorem isWord_of_mem_returnWords {text : String} {d : Declaration} (h : ofText text = .ok d)
    {w : String} (hw : w ∈ d.returnWords) : Token.IsWord w :=
  Token.isWord_of_mem_lex ((isFrom_of_ofText h).returnWords w hw)

end Declaration

/-! ### Names in the bindings -/

namespace Catalogue

/-- A name stays as it is, unless it is a reserved word or the one name that is spelt out. -/
theorem publicName?_cases {name other : String} (h : publicName? name = some other) :
    (name ∈ reservedWords ∧ other = name ++ "_") ∨ (name = "2exp" ∧ other = "two_exp") ∨
      (name ∉ reservedWords ∧ other = name ∧ name.toList.head?.any Text.isAsciiDigit = false) := by
  have hspelt : ∀ w ∈ reservedWords, w ++ "_" ≠ "2exp" := by decide
  simp only [publicName?, renamed?, List.contains_iff_mem] at h
  by_cases hreserved : name ∈ reservedWords
  · rw [if_pos hreserved, if_neg (hspelt name hreserved), Option.getD_none] at h
    split at h
    · cases h
    · exact .inl ⟨hreserved, (Option.some.inj h).symm⟩
  · rw [if_neg hreserved] at h
    by_cases htwo : name = "2exp"
    · rw [if_pos htwo, Option.getD_some] at h
      split at h
      · cases h
      · exact .inr (.inl ⟨htwo, (Option.some.inj h).symm⟩)
    · rw [if_neg htwo, Option.getD_none] at h
      split at h
      · cases h
      · next hdigit =>
        exact .inr (.inr ⟨hreserved, (Option.some.inj h).symm, Bool.eq_false_iff.mpr hdigit⟩)

end Catalogue

/-! ### Registries of declarations -/

namespace Registry

theorem add_cases {r s : Registry} {text : String} (h : r.add text = .ok s) :
    s = r ∨ ∃ m, methodOfText? text = .ok (some m) ∧ s = r.insert m := by
  simp only [add] at h
  split at h
  · cases h
  · cases h
    exact .inl rfl
  · next m hm =>
    cases h
    exact .inr ⟨m, hm, rfl⟩

theorem mem_insert {r : Registry} {m n : Method} (h : n ∈ (r.insert m).methods) :
    n ∈ r.methods ∨ n = m := by
  rw [methods_insert] at h
  split at h
  · exact .inl h
  · rcases List.mem_append.mp h with h | h
    · exact .inl h
    · exact .inr (List.mem_singleton.mp h)

/-- Declarations of one kind have been added to the empty registry. -/
inductive ReachableFrom (P : String → Prop) : Registry → Prop
  | empty : ReachableFrom P .empty
  | add {r s text} : ReachableFrom P r → P text → r.add text = .ok s → ReachableFrom P s

theorem Reachable.reachableFrom {r : Registry} (h : r.Reachable) :
    ReachableFrom (fun _ => True) r := by
  induction h with
  | empty => exact .empty
  | add _ ha ih => exact .add ih trivial ha

theorem ReachableFrom.addAll {P : String → Prop} {r : Registry} (h : ReachableFrom P r)
    {texts : List String} (htexts : ∀ text ∈ texts, P text) :
    ReachableFrom P (r.addAll texts).1 := by
  induction texts generalizing r with
  | nil => exact h
  | cons text texts ih =>
    obtain ⟨htext, hrest⟩ := List.forall_mem_cons.mp htexts
    rw [Registry.addAll]
    split
    · next s hs => exact ih (.add h htext hs) hrest
    · exact h

/-- What holds of each method that a declaration makes holds of each registered method. -/
theorem ReachableFrom.forall_methods {P : String → Prop} {Q : Method → Prop}
    (hQ : ∀ text d m, P text → Declaration.ofText text = .ok d → Makes d m → Q m) {r : Registry}
    (h : ReachableFrom P r) : ∀ m ∈ r.methods, Q m := by
  induction h with
  | empty =>
    intro m hm
    cases hm
  | @add r s text _ htext ha ih =>
    rcases add_cases ha with rfl | ⟨n, hn, rfl⟩
    · exact ih
    · intro m hm
      rcases mem_insert hm with hm | rfl
      · exact ih m hm
      · obtain ⟨d, hd, -, hmakes⟩ := makes_of_methodOfText? hn
        exact hQ text d m htext hd hmakes

theorem Reachable.forall_methods {Q : Method → Prop}
    (hQ : ∀ text d m, Declaration.ofText text = .ok d → Makes d m → Q m) {r : Registry}
    (h : r.Reachable) : ∀ m ∈ r.methods, Q m :=
  h.reachableFrom.forall_methods fun text d m _ => hQ text d m

end Registry

end IslBindings
