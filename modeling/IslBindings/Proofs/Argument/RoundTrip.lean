import IslBindings.Proofs.Argument.Printing

/-!
# Arguments are read back

Reading undoes printing: from every token list that an argument may be written as, exactly
that argument is read, callbacks in callbacks included.
-/

namespace IslBindings

/-! ### Values -/

theorem ValueArgument.ofWords_printed {name : String} {isConst : Bool} {o : Option Ownership}
    {words printed : List String} (depth : Depth) (hne : words ≠ [])
    (hwords : ∀ w ∈ words, IsTypeWord w) (hconst : isConst = false → words.head? ≠ some "const")
    (h : Decorated o (qualifiedWords isConst words) printed) (text : String) :
    ValueArgument.ofWords name printed depth text =
      .ok { name, isConst, type := { ownership := o, base := joinWords words, depth } } := by
  have hall : ∀ w ∈ qualifiedWords isConst words, IsTypeWord w := by
    intro w hw
    rw [qualifiedWords] at hw
    split at hw
    · rcases List.mem_cons.mp hw with rfl | hw
      · exact ⟨by decide, by decide⟩
      · exact hwords w hw
    · exact hwords w hw
  obtain ⟨rest, hsplit, hrest⟩ := h.splitOwnership hall text
  have hempty : words.isEmpty = false := List.isEmpty_eq_false_iff.mpr hne
  rw [ValueArgument.ofWords, hsplit]
  cases isConst with
  | true =>
    have hrest : rest.filter (!isTag ·) = "const" :: words := hrest
    simp [bind, Except.bind, pure, Except.pure, hrest, hempty]
  | false =>
    have hrest : rest.filter (!isTag ·) = words := hrest
    simp [bind, Except.bind, pure, Except.pure, hrest, hconst rfl, hempty]

theorem ValueArgument.ofTokens_front {name : String} {printed : List String} {depth : Depth} :
    ValueArgument.ofTokens (front printed depth ++ [.word name]) =
      ofWords name printed depth (Token.spell (front printed depth ++ [.word name])) := by
  simp only [ValueArgument.ofTokens, List.getLast?_concat, List.dropLast_concat,
    wordsThenDepth?_front]

/-! ### Callbacks -/

theorem cutAtCallback?_cons {t : Token} (h : t ≠ .openParen) (ts : List Token) :
    cutAtCallback? (t :: ts) =
      (cutAtCallback? ts).map fun (before, after) => (t :: before, after) := by
  cases t with
  | openParen => exact absurd rfl h
  | _ => rfl

theorem cutAtCallback?_of_not_mem {ts : List Token} (h : .openParen ∉ ts) :
    cutAtCallback? ts = none := by
  induction ts with
  | nil => rfl
  | cons t ts ih =>
    rw [List.mem_cons, not_or] at h
    rw [cutAtCallback?_cons (Ne.symm h.1), ih h.2]
    rfl

theorem cutAtCallback?_append {before : List Token} (h : .openParen ∉ before) (after : List Token) :
    cutAtCallback? (before ++ .openParen :: .star :: after) = some (before, after) := by
  induction before with
  | nil => rfl
  | cons t before ih =>
    rw [List.mem_cons, not_or] at h
    rw [List.cons_append, cutAtCallback?_cons (Ne.symm h.1), ih h.2]
    rfl

theorem CallbackHead.ofParts?_front {name : String} {words : List String} {depth : Depth}
    {inner tail : List Token} (h : Nesting.Balanced Token.mark true inner) :
    ofParts? (front words depth)
        (.word name :: .closeParen :: .openParen :: (inner ++ .closeParen :: tail)) =
      some { name, words, depth, inner } := by
  rw [ofParts?, Nesting.close?_balanced h rfl, Option.bind_some, wordsThenDepth?_front]
  rfl

theorem CallbackHead.result_printed {name : String} {depth : Depth} {inner : List Token}
    {o : Option Ownership} {words printed : List String} (hne : words ≠ [])
    (hwords : ∀ w ∈ words, IsTypeWord w ∧ w ≠ "const") (h : Decorated o words printed)
    (text : String) :
    result { name, words := printed, depth, inner } text =
      .ok { ownership := o, base := joinWords words, depth } := by
  obtain ⟨rest, hsplit, hrest⟩ := h.splitOwnership (fun w hw => (hwords w hw).1) text
  have hempty : words.isEmpty = false := List.isEmpty_eq_false_iff.mpr hne
  have hkept : words.filter (· != "const") = words := by
    rw [List.filter_eq_self]
    intro w hw
    simpa using (hwords w hw).2
  have hfilter : (rest.filter fun w => !isTag w && w != "const") = words := by
    rw [← hrest, List.filter_filter] at hkept
    rw [← hrest, ← hkept]
    exact List.filter_congr fun w _ => Bool.and_comm ..
  rw [CallbackHead.result, hsplit]
  simp [bind, Except.bind, pure, Except.pure, hfilter, hempty]

theorem CallbackHead.groups_commaSeparated {name : String} {words : List String} {depth : Depth}
    {args : List (List Token)} (hne : ∀ g ∈ args, g ≠ [])
    (hbalanced : ∀ g ∈ args, Nesting.Balanced Token.mark false g) :
    groups { name, words, depth, inner := commaSeparated args } = args := by
  have hfilter : args.filter (!·.isEmpty) = args := by
    rw [List.filter_eq_self]
    intro g hg
    simpa using hne g hg
  by_cases hnil : args = []
  · subst hnil
    rfl
  · rw [CallbackHead.groups, commaSeparated, Nesting.split_intercalate rfl hnil hbalanced, hfilter]

theorem mapM_map_snd {α β ε : Type} {f : β → Except ε α} {pairs : List (α × β)}
    (h : ∀ p ∈ pairs, f p.2 = .ok p.1) :
    (pairs.map Prod.snd).mapM f = .ok (pairs.map Prod.fst) := by
  induction pairs with
  | nil => rfl
  | cons p pairs ih =>
    rw [List.map_cons, List.mapM_cons, h p (List.mem_cons_self ..),
      ih fun q hq => h q (List.mem_cons_of_mem _ hq)]
    rfl

/-! ### Arguments -/

theorem Prints.contains_ellipsis {a : Argument} {ts : List Token} (h : Prints a ts) :
    ts.contains .ellipsis = false := by
  rw [Bool.eq_false_iff, ne_eq, List.contains_iff_mem]
  exact h.not_mem_ellipsis

theorem Prints.length_le {groups : List (List Token)}
    (h : ∀ g ∈ groups, Nesting.Balanced Token.mark false g) {g : List Token} (hg : g ∈ groups) :
    g.length ≤ (commaSeparated groups).length := by
  refine (Nesting.sublist_of_mem_split Token.mark ?_).length_le
  rw [commaSeparated, Nesting.split_intercalate rfl (List.ne_nil_of_mem hg) h]
  exact hg

theorem Argument.ofTokensWithin_value {name : String} {isConst : Bool} {o : Option Ownership}
    {words printed : List String} {depth : Depth} (fuel : Nat) (hne : words ≠ [])
    (hwords : ∀ w ∈ words, IsTypeWord w) (hconst : isConst = false → words.head? ≠ some "const")
    (h : Decorated o (qualifiedWords isConst words) printed) :
    ofTokensWithin (fuel + 1) (front printed depth ++ [.word name]) =
      .ok (.value { name, isConst, type := { ownership := o, base := joinWords words, depth } }) := by
  have hno : ∀ t : Token, (∀ w, t ≠ .word w) → t ≠ .star →
      t ∉ front printed depth ++ [.word name] := by
    intro t hword hstar
    rw [List.mem_append, not_or]
    exact ⟨not_mem_front hword hstar _ _, by simpa using hword name⟩
  have hellipsis : (front printed depth ++ [Token.word name]).contains .ellipsis = false :=
    Bool.eq_false_iff.mpr fun hc =>
      hno .ellipsis (by simp) (by simp) (List.contains_iff_mem.mp hc)
  rw [ofTokensWithin, hellipsis, cutAtCallback?_of_not_mem (hno .openParen (by simp) (by simp)),
    ValueArgument.ofTokens_front, ValueArgument.ofWords_printed depth hne hwords hconst h]
  rfl

theorem Argument.ofTokensWithin_of_prints {a : Argument} {ts : List Token} (h : Prints a ts)
    {fuel : Nat} (hfuel : ts.length < fuel) : ofTokensWithin fuel ts = .ok a := by
  induction h generalizing fuel with
  | @value name isConst ownership words depth printed hne hwords hconst hprinted =>
    obtain ⟨fuel, rfl⟩ := Nat.exists_eq_add_one_of_ne_zero (Nat.ne_of_gt (Nat.zero_lt_of_lt hfuel))
    exact ofTokensWithin_value fuel hne hwords (fun _ => hconst) hprinted
  | @callback name ownership words depth printed args hne hwords hprinted hargs ih =>
    obtain ⟨fuel, rfl⟩ := Nat.exists_eq_add_one_of_ne_zero (Nat.ne_of_gt (Nat.zero_lt_of_lt hfuel))
    have hbalanced : ∀ g ∈ args.map Prod.snd, Nesting.Balanced Token.mark false g := by
      intro g hg
      obtain ⟨p, hp, rfl⟩ := List.mem_map.mp hg
      exact (hargs p hp).balanced
    have hnonempty : ∀ g ∈ args.map Prod.snd, g ≠ [] := by
      intro g hg
      obtain ⟨p, hp, rfl⟩ := List.mem_map.mp hg
      exact (hargs p hp).ne_nil
    have hinner : Nesting.Balanced Token.mark true (commaSeparated (args.map Prod.snd)) :=
      Nesting.balanced_intercalate rfl hbalanced
    have hopen : .openParen ∉ front printed depth := not_mem_front (by simp) (by simp) _ _
    -- The fuel covers every group, for a group is shorter than the argument it stands in.
    have hread : (args.map Prod.snd).mapM (ofTokensWithin fuel) = .ok (args.map Prod.fst) := by
      refine mapM_map_snd fun p hp => ih p hp ?_
      have hlen := Prints.length_le hbalanced (List.mem_map_of_mem hp)
      simp only [List.length_append, List.length_cons] at hfuel
      omega
    rw [ofTokensWithin, (Prints.callback hne hwords hprinted hargs).contains_ellipsis,
      cutAtCallback?_append hopen, if_neg (by simp)]
    simp only [CallbackHead.ofParts?_front hinner, CallbackHead.result_printed hne hwords hprinted,
      CallbackHead.groups_commaSeparated hnonempty hbalanced, bind, Except.bind, hread]
    rfl

/-- Exactly the argument that was written is read. -/
theorem Argument.ofTokens_of_prints {a : Argument} {ts : List Token} (h : Prints a ts) :
    ofTokens ts = .ok a :=
  ofTokensWithin_of_prints h (Nat.lt_succ_self _)

end IslBindings
