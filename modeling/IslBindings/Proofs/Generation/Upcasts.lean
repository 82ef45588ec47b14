import IslBindings.Proofs.Generation.Accounting
import IslBindings.Proofs.Generation.Ledger
import IslBindings.Proofs.Generation.Retry

/-!
# The upcasts of a run

A name that a class lacks is forwarded to it once, from the first of its specific classes that
has a method to forward. Beside a method of its own a class gets those of its specific classes
whose arguments differ.
-/

namespace IslBindings

/-! ### What a run wraps -/

def Catalogue.openPairs (release : Option Nat) (pairs : List (String × String)) :
    List (String × String) :=
  pairs.filter fun pair => isAvailable pair.1 release && isAvailable pair.2 release

namespace Part

/-- Some method of the class and the name has a wrapper in the part. -/
def wraps (p : Part) (cls name : String) : Bool :=
  p.blocks.any fun b => b.1.cls == cls && b.1.name == name

theorem isWrapped_recordEntries (l : Ledger) (es : List Entry) (cls name : String) :
    (recordEntries l es).isWrapped cls name =
      (l.isWrapped cls name ||
        (es.filterMap Entry.block?).any fun b => b.1.cls == cls && b.1.name == name) := by
  induction es generalizing l with
  | nil => exact (Bool.or_false _).symm
  | cons e es ih =>
    have hcons : recordEntries l (e :: es) =
        recordEntries (if e.wrapper?.isSome then l.recordWrapped e.method else l) es := rfl
    rw [hcons, ih, filterMap_cons_toList, List.any_append, ← Bool.or_assoc, Entry.block?]
    cases e.wrapper? with
    | none => simp
    | some w => simp [Ledger.isWrapped_recordWrapped]

theorem forwarded_recordEntries (l : Ledger) (es : List Entry) :
    (recordEntries l es).forwarded = l.forwarded := by
  induction es generalizing l with
  | nil => rfl
  | cons e es ih =>
    refine (ih (if e.wrapper?.isSome then l.recordWrapped e.method else l)).trans ?_
    split <;> rfl

end Part

namespace Output

def wraps (o : Output) (cls name : String) : Bool := o.parts.any (·.wraps cls name)

def upcasts (o : Output) : List Upcast := o.parts.flatMap Part.upcasts

end Output

/-! ### Pieces of a run -/

section Run

variable {r : Registry} {release : Option Nat} {wraps : String → String → Bool}
  {cls name : String}

namespace Part

theorem wrapped_foldPairs (l : Ledger) (pairs : List (String × String)) :
    (foldPairs r release l pairs).2.wrapped = l.wrapped := by
  induction pairs generalizing l with
  | nil => rfl
  | cons pair pairs ih =>
    obtain ⟨general, specific⟩ := pair
    rw [foldPairs]
    split
    · exact (ih _).trans (Fold.wrapped_select ..)
    · exact ih l

theorem passes_foldPairs {l : Ledger} {pairs : List (String × String)}
    (h : ∀ pair ∈ pairs, l.AgreesOn wraps pair.1 ∧ l.AgreesOn wraps pair.2) :
    Passes r wraps cls name l (Upcast.offered r (Catalogue.openPairs release pairs))
      ((foldPairs r release l pairs).1.flatMap Fold.upcasts) (foldPairs r release l pairs).2 := by
  induction pairs generalizing l with
  | nil => exact passes_nil rfl
  | cons pair pairs ih =>
    obtain ⟨general, specific⟩ := pair
    obtain ⟨⟨hgeneral, hspecific⟩, hpairs⟩ := List.forall_mem_cons.mp h
    rw [foldPairs, Catalogue.openPairs]
    split
    · next hopen =>
      have hwrapped : (Fold.ofPair r l general specific).2.wrapped = l.wrapped :=
        Fold.wrapped_select ..
      have hrest := ih fun pair hpair =>
        ⟨(hpairs pair hpair).1.congr hwrapped, (hpairs pair hpair).2.congr hwrapped⟩
      rw [List.filter_cons, if_pos hopen, Upcast.offered_cons]
      exact (passes_ofPair hgeneral hspecific).append hrest
    · next hclosed =>
      rw [List.filter_cons, if_neg hclosed]
      exact ih hpairs

theorem passes_generateAll {l : Ledger} {specs : List (String × List String)} {ps : List Part}
    (h : generateAll r release l specs = .ok ps)
    (hsound : ∀ c n, l.isWrapped c n = true → wraps c n = true)
    (hparts : ∀ p ∈ ps, ∀ c n, p.wraps c n = true → wraps c n = true)
    (hhome : ∀ p ∈ ps, ∀ pair ∈ Catalogue.upcasts p.name, ∀ c, c = pair.1 ∨ c = pair.2 →
      ∀ n, wraps c n = true → p.wraps c n = true) :
    ∃ l', Passes r wraps cls name l
      (Upcast.offered r (Catalogue.openPairs release (specs.flatMap (Catalogue.upcasts ·.1))))
      (ps.flatMap Part.upcasts) l' := by
  induction specs generalizing l ps with
  | nil =>
    cases h
    exact ⟨l, passes_nil rfl⟩
  | cons s specs ih =>
    obtain ⟨part, classes⟩ := s
    obtain ⟨⟨p, l'⟩, hp, h⟩ := exists_of_bind_ok h
    obtain ⟨rest, hrest, h⟩ := exists_of_bind_ok h
    cases h
    obtain ⟨es, -, hp⟩ := exists_of_bind_ok hp
    cases hp
    obtain ⟨hpart, hlater⟩ := List.forall_mem_cons.mp hparts
    obtain ⟨hown, hothers⟩ := List.forall_mem_cons.mp hhome
    -- On the classes of the part the ledger has what the whole run wraps: it was right so far,
    -- and no other part wraps a method of them.
    have hrecorded : ∀ c n, (recordEntries l es).isWrapped c n = true → wraps c n = true := by
      intro c n hc
      rw [isWrapped_recordEntries, Bool.or_eq_true] at hc
      exact hc.elim (hsound c n) (hpart c n)
    have hagrees : ∀ pair ∈ Catalogue.upcasts part, ∀ c, c = pair.1 ∨ c = pair.2 →
        (recordEntries l es).AgreesOn wraps c := by
      intro pair hpair c hc n
      rw [Bool.eq_iff_iff]
      refine ⟨hrecorded c n, fun hn => ?_⟩
      rw [isWrapped_recordEntries, Bool.or_eq_true]
      exact .inr (hown pair hpair c hc n hn)
    have hfolds : Passes r wraps cls name _
        (Upcast.offered r (Catalogue.openPairs release (Catalogue.upcasts part))) _ _ :=
      passes_foldPairs fun pair hpair =>
        ⟨hagrees pair hpair _ (.inl rfl), hagrees pair hpair _ (.inr rfl)⟩
    have hstart := (passes_nil (forwarded_recordEntries l es)).append hfolds
    obtain ⟨l'', hrun⟩ := ih hrest (fun c n hc => hrecorded c n (by
      rwa [Ledger.isWrapped, wrapped_foldPairs] at hc)) hlater hothers
    refine ⟨l'', ?_⟩
    rw [List.flatMap_cons, Catalogue.openPairs, List.filter_append, Upcast.offered,
      List.flatMap_append, List.flatMap_cons]
    exact hstart.append hrun

end Part

namespace Output

variable {o : Output}

theorem part_eq_of_name (ho : ofRegistry r release = .ok o) {p q : Part} (hp : p ∈ o.parts)
    (hq : q ∈ o.parts) (h : p.name = q.name) : p = q := by
  have hnodup : (o.parts.map (·.name)).Nodup := by
    rw [names_parts ho]
    decide
  exact eq_of_key hnodup hp hq h

/-- A part has all wrappers of the classes that it forwards between. -/
theorem wraps_of_pair (ho : ofRegistry r release = .ok o) {p : Part} (hp : p ∈ o.parts)
    {pair : String × String} (hpair : pair ∈ Catalogue.upcasts p.name)
    (hcls : cls = pair.1 ∨ cls = pair.2) (h : o.wraps cls name = true) :
    p.wraps cls name = true := by
  obtain ⟨q, hq, hwraps⟩ := List.any_eq_true.mp h
  obtain ⟨b, hb, hfor⟩ := List.any_eq_true.mp hwraps
  obtain ⟨s, hs, hname, -⟩ := exists_spec ho hp
  rw [← hname] at hpair
  obtain ⟨hgeneral, hspecific⟩ := Catalogue.upcasts_in_part hs hpair
  have hmem : b.1.cls ∈ s.2 := by
    rw [beq_iff_eq.mp (Bool.and_eq_true_iff.mp hfor).1]
    rcases hcls with rfl | rfl
    · exact hgeneral
    · exact hspecific
  have hsame := (part_of_mem_blocks ho hq hb hs).mp hmem
  rwa [part_eq_of_name ho hp hq (hname.symm.trans hsame)]

theorem passes_ofRegistry (cls name : String) (ho : ofRegistry r release = .ok o) :
    ∃ l', Passes r o.wraps cls name .empty
      (Upcast.offered r (Catalogue.openPairs release
        (Catalogue.parts.flatMap (Catalogue.upcasts ·.1)))) o.upcasts l' := by
  obtain ⟨ps, hps, h⟩ := exists_of_bind_ok ho
  cases h
  refine Part.passes_generateAll hps ?_ ?_ ?_
  · intro c n hc
    simp [Ledger.isWrapped, Ledger.empty] at hc
  · exact fun p hp c n hc => List.any_eq_true.mpr ⟨p, hp, hc⟩
  · exact fun p hp pair hpair c hc n hn => wraps_of_pair ho hp hpair hc hn

end Output

end Run

/-! ### The law of upcasts -/

namespace Output

/-- The upcasts of a method name to a class that a release could have: one for each method of
that name that can be forwarded, in the order of the pairs and of the declarations. -/
def candidates (o : Output) (r : Registry) (release : Option Nat) (cls name : String) :
    List Upcast :=
  (Upcast.offered r (Catalogue.openPairs release
    (Catalogue.parts.flatMap (Catalogue.upcasts ·.1)))).filter
      (Upcast.isCandidate o.wraps cls name)

theorem mem_candidates_of_mem_upcasts {r : Registry} {release : Option Nat} {o : Output}
    (ho : ofRegistry r release = .ok o) {u : Upcast} (hu : u ∈ o.upcasts) :
    u ∈ o.candidates r release u.general u.method.name := by
  obtain ⟨l, hpasses⟩ := passes_ofRegistry u.general u.method.name ho
  have hmem : u ∈ o.upcasts.filter (·.isFor u.general u.method.name) :=
    List.mem_filter.mpr ⟨hu, by simp [Upcast.isFor]⟩
  rw [hpasses.made] at hmem
  exact mem_of_mem_admitted hmem

structure Forwards (r : Registry) (release : Option Nat) (o : Output) : Prop where
  missing : ∀ cls name, (∀ m ∈ r.methodsOf cls, m.name ≠ name) →
    o.upcasts.filter (·.isFor cls name) = (o.candidates r release cls name).take 1
  beside : ∀ cls name own, (r.methodsOf cls).find? (·.name == name) = some own →
    o.upcasts.filter (·.isFor cls name) = (o.candidates r release cls name).filter fun u =>
      own.isForwardable o.wraps && own.overloadTypes != u.method.overloadTypes
  wrapped : ∀ b ∈ o.blocks, o.wraps b.1.cls b.1.name = true
  /-- A method with a name of its own counts as wrapped if and only if it has a wrapper. -/
  unwrapped : ∀ m ∈ r.methods, (∀ n ∈ r.methods, n.cls = m.cls → n.name = m.name → n = m) →
    o.wraps m.cls m.name = true → ∃ w, (m, w) ∈ o.blocks
  /-- An upcast makes the wrapper of the specific class a method of the general one. -/
  spelt : ∀ p ∈ o.parts, ∀ f ∈ p.folds, ∀ u ∈ f.upcasts, u.general = f.general ∧
    u.specific = f.specific ∧ u.statement =
      "wrap_" ++ u.general ++ ".def(\"" ++ u.method.name ++ "\", isl::" ++ u.specific ++ "_" ++
        u.method.name ++ ", " ++ Code.literal ("\n\nUpcast from " ++
          Catalogue.classRole u.general ++ " to " ++ Catalogue.classRole u.specific ++ "\n") ++
        ");\n"
  texts : ∀ p ∈ o.parts,
    p.exposers = banner ++ String.join (p.blocks.map fun b => Registration.code b.1 b.2) ++
      String.join (p.folds.map fun f =>
        "\n// \x7b\x7b\x7b Upcasts from " ++ f.general ++ " to " ++ f.specific ++ "\n\n" ++
          String.join (f.upcasts.map Upcast.statement) ++ "\n// \x7d\x7d\x7d\n\n")

theorem exists_block_of_wraps {o : Output} {cls name : String} (h : o.wraps cls name = true) :
    ∃ b ∈ o.blocks, b.1.cls = cls ∧ b.1.name = name := by
  obtain ⟨p, hp, hwraps⟩ := List.any_eq_true.mp h
  obtain ⟨b, hb, hfor⟩ := List.any_eq_true.mp hwraps
  obtain ⟨hcls, hname⟩ := Bool.and_eq_true_iff.mp hfor
  exact ⟨b, List.mem_flatMap.mpr ⟨p, hp, hb⟩, beq_iff_eq.mp hcls, beq_iff_eq.mp hname⟩

/-- Every run forwards by one law, whatever its registry. -/
theorem forwards_ofRegistry (r : Registry) (release : Option Nat) :
    ∃ o, ofRegistry r release = .ok o ∧ o.Forwards r release := by
  obtain ⟨o, ho⟩ := succeeds_ofRegistry r release
  refine ⟨o, ho, ?_⟩
  constructor
  case missing =>
    intro cls name hnone
    obtain ⟨l, hpasses⟩ := passes_ofRegistry cls name ho
    have hfind : (r.methodsOf cls).find? (·.name == name) = none :=
      List.find?_eq_none.mpr fun m hm => by simp [hnone m hm]
    have hmade := hpasses.made
    rw [hfind] at hmade
    exact hmade
  case beside =>
    intro cls name own hown
    obtain ⟨l, hpasses⟩ := passes_ofRegistry cls name ho
    have hmade := hpasses.made
    rw [hown] at hmade
    exact hmade
  case wrapped =>
    intro b hb
    obtain ⟨p, hp, hb⟩ := List.mem_flatMap.mp hb
    exact List.any_eq_true.mpr ⟨p, hp, List.any_eq_true.mpr ⟨b, hb, by simp⟩⟩
  case unwrapped =>
    intro m hm halone hwraps
    obtain ⟨b, hb, hcls, hname⟩ := exists_block_of_wraps hwraps
    have hsame := halone b.1 (mem_methods_of_mem_blocks ho hb) hcls hname
    exact ⟨b.2, by rw [← hsame]; exact hb⟩
  case spelt =>
    intro p hp f hf u hu
    have hmem : u ∈ o.upcasts :=
      List.mem_flatMap.mpr ⟨p, hp, List.mem_flatMap.mpr ⟨f, hf, hu⟩⟩
    have hcls : u.method.cls = u.specific :=
      Upcast.cls_of_mem_offered (List.mem_filter.mp (mem_candidates_of_mem_upcasts ho hmem)).1
    have hpair : u.general = f.general ∧ u.specific = f.specific := by
      obtain ⟨m, -, rfl⟩ := List.mem_map.mp hu
      exact ⟨rfl, rfl⟩
    exact ⟨hpair.1, hpair.2, u.statement_eq hcls⟩
  case texts =>
    intro p _
    rw [Part.exposers, List.map_congr_left fun (f : Fold) _ => f.code_eq]

/-- Two methods of one name, of which only the one without a receiver has a wrapper. -/
def homonyms : Registry :=
  (Registry.empty.addAll
    ["isl_set *isl_set_from(isl_set *set);",
      "__isl_give isl_set *isl_set_from_(__isl_keep isl_ctx *ctx);"]).1

theorem upcasts_homonyms :
    homonyms.Reachable ∧ ∃ o, ofRegistry homonyms none = .ok o ∧
      homonyms.methodsOf "basic_set" = [] ∧ (∀ b ∈ o.blocks, b.1.isStatic = true) ∧
      o.upcasts.map Upcast.statement =
        ["wrap_basic_set.def(\"from_\", isl::set_from_, " ++
          "\"\\n\\nUpcast from :class:`BasicSet` to :class:`Set`\\n\");\n"] := by
  refine ⟨Registry.Reachable.empty.addAll _, ?_⟩
  have hrun : (ofRegistry homonyms none).toOption.map (fun o =>
      ((homonyms.methodsOf "basic_set").isEmpty, o.blocks.all (·.1.isStatic),
        o.upcasts.map Upcast.statement)) =
        some (true, true, ["wrap_basic_set.def(\"from_\", isl::set_from_, " ++
          "\"\\n\\nUpcast from :class:`BasicSet` to :class:`Set`\\n\");\n"]) := by
    decide +kernel
  cases ho : ofRegistry homonyms none with
  | error e =>
    rw [ho] at hrun
    cases hrun
  | ok o =>
    rw [ho] at hrun
    simp only [Except.toOption, Option.map_some, Option.some.injEq, Prod.mk.injEq] at hrun
    exact ⟨o, rfl, List.isEmpty_iff.mp hrun.1, List.all_eq_true.mp hrun.2.1, hrun.2.2⟩

end Output

end IslBindings
