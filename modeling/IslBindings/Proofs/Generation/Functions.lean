import IslBindings.Proofs.Generation.Bindings
import IslBindings.Proofs.Registry.WrapperName
import IslBindings.Proofs.Trampoline.Unbroken

/-!
# The functions of a part

A part defines the wrappers of its methods and a trampoline for each of their callbacks. Two of
them have one name only if their methods share a class and a name, or if the name of a method and
the callback of another run together.
-/

namespace IslBindings

/-! ### Callbacks -/

/-- The names of the callbacks of a signature, each of which takes the slot after it. -/
def Argument.callbackNames : List Argument → List String
  | .value _ :: rest => callbackNames rest
  | .callback name _ _ :: _ :: rest => name :: callbackNames rest
  | _ => []

namespace Argument

theorem callbackNames_sublist (args : List Argument) :
    (callbackNames args).Sublist (args.map name) := by
  induction args using callbackNames.induct with
  | case1 arg rest ih => exact ih.cons _
  | case2 name result inner next rest ih => exact (ih.cons _).cons_cons _
  | case3 args => simp [callbackNames]

end Argument

namespace ArgShape

def callback? : ArgShape → Option String
  | .callback c => some c.name
  | _ => none

theorem callback?_of_ofValue {arg : ValueArgument} {index : Nat} {s : ArgShape}
    (h : ofValue arg index = .ok s) : s.callback? = none := by
  simp only [ofValue] at h
  repeat' split at h
  all_goals cases h
  all_goals rfl

theorem Shapes.callbackNames {index : Nat} {args : List Argument}
    {shapes : List (Nat × ArgShape)} (h : Shapes index args shapes) :
    shapes.filterMap (·.2.callback?) = Argument.callbackNames args := by
  induction h with
  | nil => rfl
  | value hs _ ih =>
    refine (List.filterMap_cons_none ?_).trans ih
    exact callback?_of_ofValue hs
  | callback _ ih =>
    show _ :: List.filterMap _ _ = _ :: _
    rw [ih]

theorem Shapes.mem_of_callback {index : Nat} {args : List Argument}
    {shapes : List (Nat × ArgShape)} (h : Shapes index args shapes) {i : Nat} {c : Callback}
    (hp : (i, .callback c) ∈ shapes) : .callback c.name c.result c.args ∈ args := by
  induction h with
  | nil => cases hp
  | value hs _ ih =>
    rcases List.mem_cons.mp hp with heq | hp
    · cases heq
      cases callback?_of_ofValue hs
    · exact List.mem_cons_of_mem _ (ih hp)
  | callback _ ih =>
    rcases List.mem_cons.mp hp with heq | hp
    · cases heq
      exact List.mem_cons_self ..
    · exact List.mem_cons_of_mem _ (List.mem_cons_of_mem _ (ih hp))

end ArgShape

theorem Contribution.trampoline_of_ofShape {m : Method} {p : Nat × ArgShape} {c : Contribution}
    (h : ofShape m p = .ok c) :
    c.trampoline.map (·.name) = p.2.callback?.map (Trampoline.nameFor m.cls m.name) := by
  obtain ⟨index, s⟩ := p
  cases s with
  | callback cb =>
    obtain ⟨t, ht, h⟩ := exists_of_bind_ok h
    cases h
    exact congrArg some (Trampoline.fields_of_ofCallback ht).1
  | valueOrInt arg =>
    simp only [ofShape, ofValueOrInt] at h
    split at h
    · cases h
    · cases h
      rfl
  | handle arg cls =>
    rcases of_ofHandle h with ⟨-, -, rfl⟩ | ⟨-, -, rfl⟩ | ⟨-, -, rfl⟩ | ⟨-, rfl⟩
    all_goals rfl
  | handleOut arg cls =>
    simp only [ofShape, ofHandleOut] at h
    split at h
    · cases h
      rfl
    · cases h
  | _ =>
    cases h
    rfl

namespace Method

variable {m : Method} {w : Wrapper}

theorem trampolines_of_wrap (h : m.wrap = .wrapped w) :
    w.trampolines.map (·.name) =
      (Argument.callbackNames m.args).map (Trampoline.nameFor m.cls m.name) := by
  obtain ⟨shapes, extras, shape, hshapes, hrun, -⟩ := exists_of_wrap h
  have hnames := map_of_mapM (fun p _ c hc => Contribution.trampoline_of_ofShape (p := p) hc) hrun
  rw [← (ArgShape.shapes_of_ofArguments hshapes).callbackNames, Wrapper.trampolines,
    List.map_filterMap, List.map_filterMap]
  have hall := congrArg (List.filterMap id) hnames
  rwa [List.filterMap_map, List.filterMap_map] at hall

theorem trampolines_of_wrapOrVeto (h : m.wrapOrVeto = .wrapped w) :
    w.trampolines.map (·.name) =
      (Argument.callbackNames m.args).map (Trampoline.nameFor m.cls m.name) := by
  simp only [wrapOrVeto] at h
  split at h
  · exact trampolines_of_wrap (m := m.veto) h
  · exact trampolines_of_wrap h

/-- A trampoline belongs to a callback of the method. -/
theorem exists_callback_of_wrap (h : m.wrap = .wrapped w) {t : Trampoline} (ht : t ∈ w.trampolines) :
    ∃ c : Callback, .callback c.name c.result c.args ∈ m.args ∧
      Trampoline.ofCallback (Trampoline.nameFor m.cls m.name c.name) c = .ok t := by
  obtain ⟨shapes, extras, shape, hshapes, hrun, -⟩ := exists_of_wrap h
  obtain ⟨contribution, hmem, ht⟩ := List.mem_filterMap.mp ht
  obtain ⟨⟨i, s⟩, hp, hof⟩ := exists_of_mem_mapM hrun hmem
  have hname := Contribution.trampoline_of_ofShape hof
  rw [ht] at hname
  cases s with
  | callback c =>
    obtain ⟨t', ht', hof⟩ := exists_of_bind_ok hof
    cases hof
    cases ht
    exact ⟨c, (ArgShape.shapes_of_ofArguments hshapes).mem_of_callback hp, ht'⟩
  | _ => cases hname

theorem exists_callback_of_wrapOrVeto (h : m.wrapOrVeto = .wrapped w) {t : Trampoline}
    (ht : t ∈ w.trampolines) :
    ∃ c : Callback, .callback c.name c.result c.args ∈ m.args ∧
      Trampoline.ofCallback (Trampoline.nameFor m.cls m.name c.name) c = .ok t := by
  simp only [wrapOrVeto] at h
  split at h
  · exact exists_callback_of_wrap (m := m.veto) h ht
  · exact exists_callback_of_wrap h ht

def functionNames (m : Method) : List String :=
  (Argument.callbackNames m.args).map (Trampoline.nameFor m.cls m.name) ++ [m.wrapperName]

theorem functionNames_of_wrapOrVeto (h : m.wrapOrVeto = .wrapped w) :
    w.trampolines.map (·.name) ++ [w.name] = m.functionNames := by
  rw [functionNames, trampolines_of_wrapOrVeto h, name_of_wrapOrVeto h]

end Method

/-! ### Names that run together -/

namespace Method

/-- The callback `a` of one method starts with what the name of the other method, or its class,
has behind the first one's name. There is one class that can start so. -/
inductive Merges (m : Method) (a : String) (n : Method) (b : String) : Prop where
  | name (s : String) : m.cls = n.cls → n.name = m.name ++ "_" ++ s → a = s ++ "_" ++ b →
      Merges m a n b
  | cls (s : String) : m.cls = "id" → n.cls = "id_to_ast_expr" →
      n.cls = m.cls ++ "_" ++ m.name ++ "_" ++ s → a = s ++ "_" ++ (n.name ++ "_" ++ b) →
      Merges m a n b

/-- The wrappers of the methods bring two functions of one name. -/
def Clashes (m n : Method) : Prop :=
  (m.cls = n.cls ∧ m.name = n.name) ∨
    ∃ a ∈ Argument.callbackNames m.args, ∃ b ∈ Argument.callbackNames n.args,
      Merges m a n b ∨ Merges n b m a

def IsPlaced (m : Method) : Prop := Catalogue.IsLongest m.cls m.name

variable {m n : Method} {a b : String}

theorem Merges.nameFor_eq (h : Merges m a n b) :
    Trampoline.nameFor m.cls m.name a = Trampoline.nameFor n.cls n.name b := by
  cases h with
  | name s hcls hname ha =>
    rw [Trampoline.nameFor, Trampoline.nameFor, hcls, hname, ha]
    simp only [String.append_assoc]
  | cls s _ _ hcls ha =>
    rw [Trampoline.nameFor, Trampoline.nameFor, hcls, ha]
    simp only [String.append_assoc]

theorem merges_of_cls_eq (hcls : m.cls = n.cls)
    (h : m.name ++ "_" ++ a = n.name ++ "_" ++ b) :
    (m.name = n.name ∧ a = b) ∨ Merges m a n b ∨ Merges n b m a := by
  rcases Text.prefix_cases (h.trans String.append_assoc) with ⟨w, hm⟩ | ⟨w, hn, ha⟩
  · rcases Text.prefix_cases (h.symm.trans String.append_assoc) with ⟨v, hn⟩ | ⟨v, hm, hb⟩
    · have hlength := congrArg String.length hm
      have hlength' := congrArg String.length hn
      rw [String.length_append] at hlength hlength'
      rw [String.append_assoc, String.append_assoc] at h
      obtain ⟨hname, hrest⟩ := Text.append_inj h (by omega)
      exact .inl ⟨hname, (String.append_right_inj "_").mp hrest⟩
    · refine .inr (.inr (.name v hcls.symm hm ?_))
      rw [hb, String.append_assoc]
  · refine .inr (.inl (.name w hcls hn ?_))
    rw [ha, String.append_assoc]

theorem merges_of_cls_lt (hm : m.IsPlaced) (hn : n.IsPlaced) (hlt : m.cls.length < n.cls.length)
    (h : m.cls ++ "_" ++ (m.name ++ "_" ++ a) = n.cls ++ "_" ++ (n.name ++ "_" ++ b)) :
    Merges m a n b := by
  -- The longer class is cut behind the shorter one, and not inside the name of the method: there
  -- it would be the longest of that method. So it holds the whole name.
  rcases Text.prefix_cases (h.trans String.append_assoc) with ⟨w, hw⟩ | ⟨w, hcls, hrest⟩
  · rw [hw, String.length_append] at hlt
    omega
  · rcases Text.prefix_cases hrest with ⟨x, hx⟩ | ⟨v, hv, ha⟩
    · have hstarts : m.cls ++ "_" ++ m.name = n.cls ++ x := by
        rw [hx, hcls]
        exact String.append_assoc.symm
      have hle := hm.longest n.cls hn.mem x hstarts
      omega
    · have hbehind : n.cls = m.cls ++ "_" ++ m.name ++ "_" ++ v := by
        rw [hcls, hv]
        simp only [String.append_assoc]
      obtain ⟨hid, hwords⟩ := hm.words_behind hn.mem hbehind
      exact .cls v hid hwords hbehind (ha.trans String.append_assoc.symm)

theorem nameFor_eq_iff (hm : m.IsPlaced) (hn : n.IsPlaced) :
    Trampoline.nameFor m.cls m.name a = Trampoline.nameFor n.cls n.name b ↔
      (m.cls = n.cls ∧ m.name = n.name ∧ a = b) ∨ Merges m a n b ∨ Merges n b m a := by
  constructor
  · intro h
    have h : m.cls ++ "_" ++ (m.name ++ "_" ++ a) = n.cls ++ "_" ++ (n.name ++ "_" ++ b) := by
      simp only [Trampoline.nameFor, String.append_assoc, String.append_right_inj] at h
      simpa only [String.append_assoc] using h
    rcases Nat.lt_trichotomy m.cls.length n.cls.length with hlt | heq | hgt
    · exact .inr (.inl (merges_of_cls_lt hm hn hlt h))
    · have hcut : m.cls ++ ("_" ++ (m.name ++ "_" ++ a)) = n.cls ++ ("_" ++ (n.name ++ "_" ++ b)) := by
        rw [← String.append_assoc, h, String.append_assoc]
      obtain ⟨hcls, hrest⟩ := Text.append_inj hcut heq
      rcases merges_of_cls_eq hcls ((String.append_right_inj "_").mp hrest) with hsame | hmerges
      · exact .inl ⟨hcls, hsame⟩
      · exact .inr hmerges
    · exact .inr (.inr (merges_of_cls_lt hn hm hgt h.symm))
  · rintro (⟨hcls, hname, rfl⟩ | h | h)
    · rw [hcls, hname]
    · exact h.nameFor_eq
    · exact h.nameFor_eq.symm

theorem wrapperName_ne_nameFor (hm : m.IsPlaced) (cls method arg : String) :
    m.wrapperName ≠ Trampoline.nameFor cls method arg := by
  intro h
  have hall : ∀ c ∈ Catalogue.classes,
      Text.startsWith c "cb_" = false ∧ Text.startsWith "cb_" c = false := by
    decide +kernel
  obtain ⟨hstarts, hstarts'⟩ := hall m.cls hm.mem
  simp only [wrapperName, Trampoline.nameFor, String.append_assoc] at h
  rcases Text.append_eq_append h with ⟨w, hw, -⟩ | ⟨w, hw, -⟩
  · rw [Text.startsWith_iff_exists.mpr ⟨w, hw⟩] at hstarts'
    cases hstarts'
  · rw [Text.startsWith_iff_exists.mpr ⟨w, hw⟩] at hstarts
    cases hstarts

theorem nodup_functionNames (hm : m.IsPlaced) (h : (Argument.callbackNames m.args).Nodup) :
    m.functionNames.Nodup := by
  refine List.nodup_append.mpr ⟨?_, by simp, ?_⟩
  · refine List.pairwise_map.mpr (h.imp fun hne heq => hne ?_)
    exact (String.append_right_inj _).mp heq
  · intro f hf g hg hfg
    obtain ⟨a, -, rfl⟩ := List.mem_map.mp hf
    rw [List.mem_singleton.mp hg] at hfg
    exact wrapperName_ne_nameFor hm _ _ _ hfg.symm

theorem disjoint_functionNames_iff (hm : m.IsPlaced) (hn : n.IsPlaced) :
    (∀ f ∈ m.functionNames, ∀ g ∈ n.functionNames, f ≠ g) ↔ ¬Clashes m n := by
  constructor
  · rintro h (⟨hcls, hname⟩ | ⟨a, ha, b, hb, hmerges⟩)
    · refine h m.wrapperName (by simp [functionNames]) n.wrapperName (by simp [functionNames]) ?_
      rw [wrapperName, wrapperName, hcls, hname]
    · exact h _ (List.mem_append_left _ (List.mem_map_of_mem ha)) _
        (List.mem_append_left _ (List.mem_map_of_mem hb))
        ((nameFor_eq_iff hm hn).mpr (.inr hmerges))
  · intro h f hf g hg heq
    rcases List.mem_append.mp hf with hf | hf <;> rcases List.mem_append.mp hg with hg | hg
    · obtain ⟨a, ha, rfl⟩ := List.mem_map.mp hf
      obtain ⟨b, hb, rfl⟩ := List.mem_map.mp hg
      rcases (nameFor_eq_iff hm hn).mp heq with ⟨hcls, hname, -⟩ | hmerges
      · exact h (.inl ⟨hcls, hname⟩)
      · exact h (.inr ⟨a, ha, b, hb, hmerges⟩)
    · obtain ⟨a, -, rfl⟩ := List.mem_map.mp hf
      rw [List.mem_singleton.mp hg] at heq
      exact wrapperName_ne_nameFor hn _ _ _ heq.symm
    · obtain ⟨b, -, rfl⟩ := List.mem_map.mp hg
      rw [List.mem_singleton.mp hf] at heq
      exact wrapperName_ne_nameFor hm _ _ _ heq
    · rw [List.mem_singleton.mp hf, List.mem_singleton.mp hg] at heq
      exact h (.inl (hm.inj hn heq))

end Method

/-! ### Declarations with distinct names -/

/-- The names of the arguments of a declaration that can be read. -/
def Declaration.argNames? (text : String) : Option (List String) :=
  match ofText text with
  | .ok d => (d.args.mapM Argument.ofTokens).toOption.map (·.map Argument.name)
  | .error _ => none

def Declaration.HasDistinctNames (text : String) : Prop :=
  ∀ names ∈ argNames? text, names.Nodup

instance (text : String) : Decidable (Declaration.HasDistinctNames text) :=
  inferInstanceAs (Decidable (∀ names ∈ Declaration.argNames? text, names.Nodup))

namespace Method

theorem callbackNames_nameReceiver (m : Method) :
    Argument.callbackNames m.nameReceiver.args = Argument.callbackNames m.args := by
  rcases m.nameReceiver_cases with ⟨-, h⟩ | ⟨arg, rest, hargs, -, h⟩
  · rw [h]
  · rw [h, hargs]
    rfl

end Method

namespace Registry

theorem Makes.nodup_callbackNames {text : String} {d : Declaration} {m : Method}
    (hd : Declaration.ofText text = .ok d) (h : Makes d m)
    (hdistinct : Declaration.HasDistinctNames text) :
    (Argument.callbackNames m.args).Nodup := by
  obtain ⟨-, -, -, hread, -⟩ := h
  rw [Method.callbackNames_nameReceiver]
  refine (Argument.callbackNames_sublist _).nodup (hdistinct _ ?_)
  rw [Declaration.argNames?, hd]
  simp only [hread]
  rfl

theorem Makes.isPlaced {d : Declaration} {m : Method} (h : Makes d m) : m.IsPlaced := by
  obtain ⟨name, hplace, -, hpublic⟩ := h.placed
  exact Placement.isLongest_of_ofName hplace hpublic

end Registry

/-! ### The text of a wrapper and its trampolines -/

theorem Method.isWorded_nameReceiver {m : Method} (h : ∀ a ∈ m.args, a.IsWorded) :
    ∀ a ∈ m.nameReceiver.args, a.IsWorded := by
  rcases m.nameReceiver_cases with ⟨-, heq⟩ | ⟨arg, rest, hargs, -, heq⟩
  · rw [heq]
    exact h
  · rw [hargs, List.forall_mem_cons] at h
    obtain ⟨hfirst, hrest⟩ := h
    have hself : Token.IsWord "self" := ⟨by decide, List.all_eq_true.mp (by decide)⟩
    cases hfirst with
    | value harg =>
      rw [heq]
      exact List.forall_mem_cons.mpr ⟨.value ⟨hself, harg.type⟩, hrest⟩

/-- The arguments of a declared method are made of words. -/
theorem Registry.Makes.isWorded {text : String} {d : Declaration} {m : Method}
    (hd : Declaration.ofText text = .ok d) (h : Makes d m) : ∀ a ∈ m.args, a.IsWorded := by
  have hfrom := Declaration.isFrom_of_ofText hd
  obtain ⟨-, -, -, read, -⟩ := h
  refine Method.isWorded_nameReceiver fun a ha => ?_
  obtain ⟨group, hgroup, hread⟩ := exists_of_mem_mapM read ha
  exact Argument.isWorded_of_ofTokens
    (fun w hw => Token.isWord_of_mem_lex (hfrom.args group hgroup _ hw)) hread

namespace Method

variable {m : Method} {w : Wrapper}

/-- The trampolines stand before the function of the wrapper as they are. -/
theorem code_of_wrapOrVeto (hspelt : m.IsSpelt) (hworded : ∀ a ∈ m.args, a.IsWorded)
    (h : m.wrapOrVeto = .wrapped w) :
    w.code = String.join (w.trampolines.map fun t => t.text ++ "\n") ++ w.text := by
  have hprint : ∀ t ∈ w.trampolines,
      Code.print ((Text.lines t.code.toList).map String.ofList ++ [""]) = t.text ++ "\n" := by
    intro t ht
    obtain ⟨c, hc, hof⟩ := exists_callback_of_wrapOrVeto h ht
    have hname : Token.IsWord (Trampoline.nameFor m.cls m.name c.name) := by
      have hchars : Text.AllWordChars (Trampoline.nameFor m.cls m.name c.name) := by
        have hcallback : Text.AllWordChars c.name := (hworded _ hc).allWordChars
        simp only [Trampoline.nameFor, Text.allWordChars_append]
        exact ⟨⟨⟨⟨⟨by decide, hspelt.cls⟩, by decide⟩, hspelt.name⟩, by decide⟩, hcallback⟩
      exact ⟨by simp [Trampoline.nameFor], hchars⟩
    rw [Code.print_append, Trampoline.print_lines_code hname (hworded _ hc) hof, t.code_eq_text]
    rfl
  have htrampolines : Code.print w.trampolineLines =
      String.join (w.trampolines.map fun t => t.text ++ "\n") := by
    rw [← List.map_congr_left hprint, Wrapper.trampolineLines, Code.print_flatMap]
  rw [w.code_eq_text, htrampolines]

end Method

/-! ### The functions of a run -/

namespace Part

def functionNames (p : Part) : List String :=
  p.blocks.flatMap fun b => b.2.trampolines.map (·.name) ++ [b.2.name]

/-- The text that defines these functions, each under its name. -/
def definitions (p : Part) : String :=
  banner ++ String.join (p.blocks.map fun b => "\n" ++
    String.join (b.2.trampolines.map fun t =>
      Code.functionText ("static " ++ t.result.spelling) t.name t.inputText t.body ++ "\n") ++
    Code.functionText (b.2.conversion.cppType ++ " ") b.2.name b.2.inputs
      (b.2.body.flatMap Statement.lines))

theorem wrappers_eq_definitions (p : Part)
    (h : ∀ b ∈ p.blocks,
      b.2.code = String.join (b.2.trampolines.map fun t => t.text ++ "\n") ++ b.2.text) :
    p.wrappers = p.definitions := by
  rw [wrappers, definitions]
  refine congrArg (fun texts => banner ++ String.join texts) (List.map_congr_left fun b hb => ?_)
  show "\n" ++ b.2.code = _
  rw [h b hb, ← String.append_assoc]
  rfl

end Part

namespace Output

/-- In every run a part defines no function twice if and only if no two of its methods clash. The
functions stand in its wrappers in their order. -/
theorem nodup_functionNames_iff {r : Registry} (release : Option Nat)
    (hr : r.ReachableFrom Declaration.HasDistinctNames) :
    ∃ o, ofRegistry r release = .ok o ∧ ∀ p ∈ o.parts,
      p.wrappers = p.definitions ∧
        p.functionNames = p.blocks.flatMap (fun b => b.1.functionNames) ∧
          (p.functionNames.Nodup ↔ p.blocks.Pairwise fun b c => ¬b.1.Clashes c.1) := by
  obtain ⟨o, ho⟩ := succeeds_ofRegistry r release
  refine ⟨o, ho, fun p hp => ?_⟩
  have hplaced : ∀ m ∈ r.methods, m.IsPlaced ∧ (Argument.callbackNames m.args).Nodup :=
    hr.forall_methods fun text d m htext hd hmakes =>
      ⟨hmakes.isPlaced, hmakes.nodup_callbackNames hd htext⟩
  have hspelt : ∀ m ∈ r.methods, m.IsSpelt ∧ ∀ a ∈ m.args, a.IsWorded :=
    hr.forall_methods fun text d m _ hd hmakes => ⟨hmakes.isSpelt hd, hmakes.isWorded hd⟩
  have hmem : ∀ b ∈ p.blocks, b.1 ∈ r.methods ∧ b.1.wrapOrVeto = .wrapped b.2 := by
    intro b hb
    have hb := List.mem_flatMap.mpr ⟨p, hp, hb⟩
    exact ⟨mem_methods_of_mem_blocks ho hb, wrapOrVeto_of_mem_blocks ho hb⟩
  have hblocks : ∀ b ∈ p.blocks, b.1.IsPlaced ∧ (Argument.callbackNames b.1.args).Nodup :=
    fun b hb => hplaced b.1 (hmem b hb).1
  have hnames : p.functionNames = p.blocks.flatMap fun b => b.1.functionNames := by
    rw [Part.functionNames, List.flatMap_def, List.flatMap_def]
    exact congrArg List.flatten (List.map_congr_left fun b hb =>
      Method.functionNames_of_wrapOrVeto (hmem b hb).2)
  refine ⟨p.wrappers_eq_definitions fun b hb => ?_, hnames, ?_⟩
  · obtain ⟨hmethod, hwrapped⟩ := hmem b hb
    exact Method.code_of_wrapOrVeto (hspelt b.1 hmethod).1 (hspelt b.1 hmethod).2 hwrapped
  have hclash := List.Pairwise.iff_of_mem (R := fun b c => ¬b.1.Clashes c.1) fun {b c} hb hc =>
    (Method.disjoint_functionNames_iff (hblocks b hb).1 (hblocks c hc).1).symm
  rw [hnames, List.Nodup, List.pairwise_flatMap, hclash]
  exact and_iff_right fun b hb => Method.nodup_functionNames (hblocks b hb).1 (hblocks b hb).2

/-- Two methods, one of them with a callback, and no clash. -/
def apart : Registry :=
  (Registry.empty.addAll
    ["int isl_id_a(int (*b)(void *user), void *user);", "int isl_id_c(int a);"]).1

theorem nodup_functionNames_apart :
    (∀ text ∈ ["int isl_id_a(int (*b)(void *user), void *user);", "int isl_id_c(int a);"],
      Declaration.HasDistinctNames text) ∧
    ∃ o, ofRegistry apart none = .ok o ∧
      o.parts.map Part.functionNames = [["cb_id_a_b", "id_a", "id_c"], [], []] ∧
      ∀ p ∈ o.parts, p.wrappers = p.definitions ∧
        p.functionNames = p.blocks.flatMap (fun b => b.1.functionNames) ∧
          (p.functionNames.Nodup ↔ p.blocks.Pairwise fun b c => ¬b.1.Clashes c.1) := by
  have hnames : ∀ text ∈ ["int isl_id_a(int (*b)(void *user), void *user);",
      "int isl_id_c(int a);"], Declaration.HasDistinctNames text := by
    decide +kernel
  have hr : apart.ReachableFrom Declaration.HasDistinctNames :=
    Registry.ReachableFrom.empty.addAll hnames
  obtain ⟨o, ho, hfunctions⟩ := nodup_functionNames_iff none hr
  refine ⟨hnames, o, ho, ?_, hfunctions⟩
  have hrun : (ofRegistry apart none).toOption.map (·.parts.map Part.functionNames) =
      some [["cb_id_a_b", "id_a", "id_c"], [], []] := by
    decide +kernel
  rw [ho] at hrun
  exact Option.some.inj hrun

/-- Declarations with distinct names whose methods clash: two share a class and a name, and in
the other pairs the name of a method and a callback run together. -/
def clashing : List String := [
  "int isl_id_or(int a);",
  "int isl_id_or_(int a);",
  "int isl_id_a(int (*b_c)(void *user), void *user);",
  "int isl_id_a_b(int (*c)(void *user), void *user);",
  "int isl_id_to(int (*ast_expr_a_b)(void *user), void *user);",
  "int isl_id_to_ast(int (*expr_a_b)(void *user), void *user);",
  "int isl_id_to_ast_expr_a(int (*b)(void *user), void *user);"]

theorem functionNames_clashing :
    (Registry.empty.addAll clashing).1.ReachableFrom Declaration.HasDistinctNames ∧
    ∃ o, ofRegistry (Registry.empty.addAll clashing).1 none = .ok o ∧
      o.parts.map Part.functionNames =
        [["cb_id_to_ast_expr_a_b", "id_to_ast_expr_a", "id_or_", "id_or_", "cb_id_a_b_c", "id_a",
          "cb_id_a_b_c", "id_a_b", "cb_id_to_ast_expr_a_b", "id_to", "cb_id_to_ast_expr_a_b",
          "id_to_ast"], [], []] ∧
      ∃ p ∈ o.parts, ¬p.functionNames.Nodup := by
  have hnames : ∀ text ∈ clashing, Declaration.HasDistinctNames text := by decide +kernel
  refine ⟨Registry.ReachableFrom.empty.addAll hnames, ?_⟩
  have hrun : (ofRegistry (Registry.empty.addAll clashing).1 none).toOption.map
      (·.parts.map Part.functionNames) =
        some [["cb_id_to_ast_expr_a_b", "id_to_ast_expr_a", "id_or_", "id_or_", "cb_id_a_b_c",
          "id_a", "cb_id_a_b_c", "id_a_b", "cb_id_to_ast_expr_a_b", "id_to",
          "cb_id_to_ast_expr_a_b", "id_to_ast"], [], []] := by
    decide +kernel
  obtain ⟨o, ho⟩ := succeeds_ofRegistry (Registry.empty.addAll clashing).1 none
  rw [ho] at hrun
  have hfunctions := Option.some.inj hrun
  refine ⟨o, ho, hfunctions, ?_⟩
  have htwice : ∃ names ∈ o.parts.map Part.functionNames, ¬names.Nodup := by
    rw [show o.parts.map Part.functionNames = _ from hfunctions]
    decide
  obtain ⟨names, hmem, htwice⟩ := htwice
  obtain ⟨p, hp, rfl⟩ := List.mem_map.mp hmem
  exact ⟨p, hp, htwice⟩

end Output

end IslBindings
