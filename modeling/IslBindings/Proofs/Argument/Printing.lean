import IslBindings.Argument.OfTokens
import IslBindings.Proofs.Nesting
import IslBindings.Proofs.Token.Layout

/-!
# Printed arguments

The token lists that an argument is written as. Tags may stand anywhere among the words of
a type, and so may its annotation; the groups of a callback are the printed arguments of
that callback.
-/

namespace IslBindings

/-! ### Words -/

def IsTypeWord (w : String) : Prop := Ownership.ofWord? w = none ∧ isTag w = false

instance (w : String) : Decidable (IsTypeWord w) := inferInstanceAs (Decidable (_ ∧ _))

/-- Type words with tags and the annotation, if there is one, anywhere among them. -/
inductive Decorated : Option Ownership → List String → List String → Prop
  | nil : Decorated none [] []
  | word {o ws printed} (w : String) : Decorated o ws printed → Decorated o (w :: ws) (w :: printed)
  | tag {o ws printed t} : isTag t = true → Decorated o ws printed → Decorated o ws (t :: printed)
  | owned {ws printed} (o : Ownership) : Decorated none ws printed →
      Decorated (some o) ws (o.word :: printed)

theorem ofWord?_of_isTag {w : String} (h : isTag w = true) : Ownership.ofWord? w = none := by
  simp only [isTag, Bool.or_eq_true, beq_iff_eq] at h
  rcases h with rfl | rfl
  · decide
  · decide

theorem Decorated.refl (ws : List String) : Decorated none ws ws := by
  induction ws with
  | nil => exact .nil
  | cons w ws ih => exact .word w ih

section Decorated

variable {o : Option Ownership} {ws printed : List String}

theorem Decorated.annotations (h : Decorated o ws printed) (hws : ∀ w ∈ ws, IsTypeWord w) :
    printed.filterMap Ownership.ofWord? = o.toList := by
  induction h with
  | nil => rfl
  | word w _ ih =>
    rw [List.filterMap_cons_none (hws w (List.mem_cons_self ..)).1]
    exact ih fun v hv => hws v (List.mem_cons_of_mem _ hv)
  | tag ht _ ih =>
    rw [List.filterMap_cons_none (ofWord?_of_isTag ht)]
    exact ih hws
  | owned o _ ih =>
    rw [List.filterMap_cons_some (Ownership.ofWord?_word o), ih hws]
    rfl

theorem Decorated.filter (h : Decorated o ws printed) (hws : ∀ w ∈ ws, IsTypeWord w) :
    (printed.filter fun w => (Ownership.ofWord? w).isNone).filter (!isTag ·) = ws := by
  induction h with
  | nil => rfl
  | word w _ ih =>
    obtain ⟨hw, htag⟩ := hws w (List.mem_cons_self ..)
    rw [List.filter_cons_of_pos (by rw [hw]; rfl), List.filter_cons_of_pos (by rw [htag]; rfl),
      ih fun v hv => hws v (List.mem_cons_of_mem _ hv)]
  | tag ht _ ih =>
    rw [List.filter_cons_of_pos (by rw [ofWord?_of_isTag ht]; rfl),
      List.filter_cons_of_neg (by rw [ht]; simp), ih hws]
  | owned o _ ih =>
    rw [List.filter_cons_of_neg (by rw [Ownership.ofWord?_word]; simp), ih hws]

theorem Decorated.splitOwnership (h : Decorated o ws printed) (hws : ∀ w ∈ ws, IsTypeWord w)
    (context : String) :
    ∃ rest, splitOwnership printed context = .ok (o, rest) ∧ rest.filter (!isTag ·) = ws := by
  have hannotations := h.annotations hws
  have hfilter := h.filter hws
  cases o with
  | none =>
    have hnone : printed.filterMap Ownership.ofWord? = [] := hannotations
    have hall : (printed.filter fun w => (Ownership.ofWord? w).isNone) = printed := by
      rw [List.filter_eq_self]
      intro w hw
      rw [List.filterMap_eq_nil_iff.mp hnone w hw]
      rfl
    rw [hall] at hfilter
    exact ⟨printed, by rw [IslBindings.splitOwnership, hnone], hfilter⟩
  | some o =>
    have hone : printed.filterMap Ownership.ofWord? = [o] := hannotations
    exact ⟨_, by rw [IslBindings.splitOwnership, hone], hfilter⟩

end Decorated

/-! ### Words and stars -/

def front (words : List String) (depth : Depth) : List Token :=
  words.map .word ++ List.replicate depth.count .star

theorem wordsThenStars?_front (words : List String) (depth : Depth) :
    wordsThenStars? (front words depth) = some (words, depth.count) := by
  induction words with
  | nil => cases depth <;> rfl
  | cons w words ih =>
    rw [front, List.map_cons, List.cons_append, wordsThenStars?]
    rw [front] at ih
    rw [ih]
    rfl

theorem wordsThenDepth?_front (words : List String) (depth : Depth) :
    wordsThenDepth? (front words depth) = some (words, depth) := by
  rw [wordsThenDepth?, wordsThenStars?_front, Option.bind_some]
  show (Depth.ofStars? depth.count).map (fun d => (words, d)) = _
  rw [Depth.ofStars?_count]
  rfl

theorem not_mem_front {t : Token} (hword : ∀ w, t ≠ .word w) (hstar : t ≠ .star)
    (words : List String) (depth : Depth) : t ∉ front words depth := by
  intro hm
  rcases List.mem_append.mp hm with hm | hm
  · obtain ⟨w, -, hw⟩ := List.mem_map.mp hm
    exact hword w hw.symm
  · exact hstar (List.mem_replicate.mp hm).2

theorem balanced_front (words : List String) (depth : Depth) :
    Nesting.Balanced Token.mark false (front words depth) := by
  refine Nesting.balanced_of_forall_plain fun t ht => ?_
  rcases List.mem_append.mp ht with ht | ht
  · obtain ⟨w, -, rfl⟩ := List.mem_map.mp ht
    rfl
  · rw [(List.mem_replicate.mp ht).2]
    rfl

/-! ### Arguments -/

def commaSeparated (groups : List (List Token)) : List Token := [.comma].intercalate groups

def qualifiedWords (isConst : Bool) (words : List String) : List String :=
  if isConst then "const" :: words else words

/-- The argument may be written as these tokens. -/
inductive Prints : Argument → List Token → Prop
  | value {name isConst ownership words depth printed} : words ≠ [] → (∀ w ∈ words, IsTypeWord w) →
      words.head? ≠ some "const" → Decorated ownership (qualifiedWords isConst words) printed →
      Prints (.value { name, isConst, type := { ownership, base := joinWords words, depth } })
        (front printed depth ++ [.word name])
  /-- Each argument stands with the tokens that it is written as. -/
  | callback {name ownership words depth printed} {args : List (Argument × List Token)} :
      words ≠ [] → (∀ w ∈ words, IsTypeWord w ∧ w ≠ "const") → Decorated ownership words printed →
      (∀ a ∈ args, Prints a.1 a.2) →
      Prints (.callback name { ownership, base := joinWords words, depth } (args.map Prod.fst))
        (front printed depth ++ .openParen :: .star :: .word name :: .closeParen :: .openParen ::
          (commaSeparated (args.map Prod.snd) ++ [.closeParen]))

section Prints

variable {a : Argument} {ts : List Token}

theorem Decorated.ne_nil {o : Option Ownership} {ws printed : List String}
    (h : Decorated o ws printed) (hws : ws ≠ []) : printed ≠ [] := by
  cases h with
  | nil => exact absurd rfl hws
  | _ => simp

theorem Prints.two_le_length (h : Prints a ts) : 2 ≤ ts.length := by
  cases h with
  | @value name isConst ownership words depth printed hne _ _ hprinted =>
    have hp : printed ≠ [] := by
      refine hprinted.ne_nil ?_
      rw [qualifiedWords]
      split
      · simp
      · exact hne
    have hpos := List.length_pos_iff.mpr hp
    rw [List.length_append, front, List.length_append, List.length_map, List.length_singleton]
    omega
  | callback hne _ hprinted hargs =>
    rw [List.length_append]
    simp only [List.length_cons]
    omega

theorem Prints.ne_nil (h : Prints a ts) : ts ≠ [] := by
  intro he
  have hlen := h.two_le_length
  rw [he] at hlen
  simp at hlen

theorem Prints.not_mem_ellipsis (h : Prints a ts) : .ellipsis ∉ ts := by
  have hfront := not_mem_front (t := .ellipsis) (by simp) (by simp)
  induction h with
  | value _ _ _ _ =>
    rw [List.mem_append, not_or]
    exact ⟨hfront _ _, by simp⟩
  | @callback name ownership words depth printed args _ _ _ _ ih =>
    have hgroups : .ellipsis ∉ commaSeparated (args.map Prod.snd) := by
      refine Text.not_mem_intercalate (by simp) fun g hg => ?_
      obtain ⟨p, hp, rfl⟩ := List.mem_map.mp hg
      exact ih p hp
    rw [List.mem_append, not_or]
    refine ⟨hfront _ _, ?_⟩
    simpa using hgroups

theorem Prints.balanced (h : Prints a ts) : Nesting.Balanced Token.mark false ts := by
  induction h with
  | value _ _ _ _ => exact (balanced_front _ _).append (.plain rfl .nil)
  | @callback name ownership words depth printed args _ _ _ _ ih =>
    have hgroups : ∀ g ∈ args.map Prod.snd, Nesting.Balanced Token.mark false g := by
      intro g hg
      obtain ⟨p, hp, rfl⟩ := List.mem_map.mp hg
      exact ih p hp
    have hname : Nesting.Balanced Token.mark true [.star, .word name] := .plain rfl (.plain rfl .nil)
    exact (balanced_front _ _).append (.group rfl hname rfl
      (.group rfl (Nesting.balanced_intercalate rfl hgroups) rfl .nil))

end Prints

end IslBindings
