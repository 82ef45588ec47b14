import IslBindings.Proofs.Code.Literal
import IslBindings.Proofs.Registration
import IslBindings.Proofs.Registry.Spelling

/-!
# Documentation in registrations

The statement that registers a wrapper is one line of code, and its last argument is a literal
of the documentation, which is read back from it whatever its text.
-/

namespace IslBindings

open Text

theorem Argument.exists_of_mem_inputs {name : String} {args : List Argument}
    (h : name ∈ inputs args) : ∃ a ∈ args, a.name = name := by
  induction args using inputs.induct with
  | case1 arg rest hout ih =>
    rw [inputs, if_pos hout] at h
    obtain ⟨a, ha, heq⟩ := ih h
    exact ⟨a, List.mem_cons_of_mem _ ha, heq⟩
  | case2 arg rest hout ih =>
    rw [inputs, if_neg hout, List.mem_cons] at h
    rcases h with rfl | h
    · exact ⟨_, List.mem_cons_self .., rfl⟩
    · obtain ⟨a, ha, heq⟩ := ih h
      exact ⟨a, List.mem_cons_of_mem _ ha, heq⟩
  | case3 name' result args user rest ih =>
    rw [inputs, List.mem_cons] at h
    rcases h with rfl | h
    · exact ⟨_, List.mem_cons_self .., rfl⟩
    · obtain ⟨a, ha, heq⟩ := ih h
      exact ⟨a, List.mem_cons_of_mem _ (List.mem_cons_of_mem _ ha), heq⟩
  | case4 args hvalue hcallback =>
    rw [inputs.eq_3 _ hvalue hcallback] at h
    cases h

namespace Registration

/-! ### Statements as calls -/

def quoted (name : String) : List Char := '"' :: (name.toList ++ ['"'])

/-- The arguments of the call that registers a method, each with the blank in front of it. -/
def callArguments (r : Registration) : List (List Char) :=
  [quoted r.publicName, " isl::".toList ++ r.wrapper.toList] ++
    r.argNames.map (fun name => " py::arg".toList ++ '(' :: (quoted name ++ [')'])) ++
    [' ' :: (Code.literal r.doc).toList]

def callee (r : Registration) : List Char :=
  ("wrap_" ++ r.cls ++ ".def" ++ (if r.isStatic then "_static" else "")).toList

theorem intercalate_cons_eq {α : Type} (sep : α) (l : List α) (ls : List (List α)) :
    [sep].intercalate (l :: ls) = l ++ ls.flatMap (sep :: ·) := by
  induction ls generalizing l with
  | nil => simp
  | cons k ks ih =>
    rw [List.intercalate_cons_cons, ih, List.flatMap_cons, List.append_assoc]
    rfl

theorem statement_eq_call (r : Registration) :
    r.statement.toList = r.callee ++
      '(' :: ([','].intercalate r.callArguments ++ ')' :: [';', '\n']) := by
  have hargs : (String.join (r.argNames.map fun name => ", py::arg(\"" ++ name ++ "\")")).toList =
      (r.argNames.map fun name => " py::arg".toList ++ '(' :: (quoted name ++ [')'])).flatMap
        (',' :: ·) := by
    rw [String.toList_join, List.flatMap_map, List.flatMap_map]
    refine flatMap_congr fun name _ => ?_
    simp [quoted]
  rw [callArguments, List.cons_append, List.cons_append, intercalate_cons_eq, List.flatMap_append,
    List.flatMap_append, ← hargs, callee]
  unfold statement
  simp [quoted, Code.toList_literal]

/-! ### Names in statements -/

theorem not_mem_of_allWordChars {name : String} (h : AllWordChars name) {others : List Char}
    (hothers : others.all (!isWordChar ·) = true) : ∀ c ∈ name.toList, c ∉ others := by
  intro c hc hmem
  have hother := List.all_eq_true.mp hothers c hmem
  rw [h c hc] at hother
  cases hother

theorem spells_of_allWordChars {name : String} (h : AllWordChars name) :
    Code.Spells name.toList name.toList := by
  have hspells := Code.spells_escapeAll name.toList
  rwa [Code.escapeAll_of_plain (not_mem_of_allWordChars h (by decide))] at hspells

theorem isArgument_quoted {name : String} (h : AllWordChars name) : Code.IsArgument (quoted name) :=
  (spells_of_allWordChars h).isArgument

theorem lineFeed_not_mem_quoted {name : String} (h : AllWordChars name) : '\n' ∉ quoted name := by
  have hname := (spells_of_allWordChars h).noLineFeed
  simpa [quoted] using hname

/-- The names of the statement are made of word characters. -/
structure IsSpelt (r : Registration) : Prop where
  cls : AllWordChars r.cls
  publicName : AllWordChars r.publicName
  wrapper : AllWordChars r.wrapper
  argNames : ∀ name ∈ r.argNames, AllWordChars name

namespace IsSpelt

variable {r : Registration}

theorem callee (h : r.IsSpelt) : ∀ c ∈ r.callee, c ∉ ['"', '(', '\n'] := by
  have hcls : ∀ c ∈ r.cls.toList, c ∉ ['"', '(', '\n'] :=
    not_mem_of_allWordChars h.cls (by decide)
  rw [Registration.callee]
  simp only [String.toList_append, List.forall_mem_append]
  refine ⟨⟨⟨not_mem_of_all (by decide), hcls⟩, not_mem_of_all (by decide)⟩, ?_⟩
  split
  · exact not_mem_of_all (by decide)
  · exact not_mem_of_all (by decide)

theorem isArgument (h : r.IsSpelt) : ∀ a ∈ r.callArguments, Code.IsArgument a ∧ '\n' ∉ a := by
  have hspace : Code.IsArgument [' '] := Code.isArgument_of_plain (not_mem_of_all (by decide))
  have hspells := Code.spells_escapeAll r.doc.toList
  rw [callArguments, List.forall_mem_append, List.forall_mem_append, List.forall_mem_singleton,
    List.forall_mem_cons, List.forall_mem_singleton]
  refine ⟨⟨⟨⟨isArgument_quoted h.publicName, lineFeed_not_mem_quoted h.publicName⟩, ?_⟩, ?_⟩, ?_⟩
  · constructor
    · refine Code.isArgument_of_plain (List.forall_mem_append.mpr ⟨not_mem_of_all (by decide), ?_⟩)
      exact not_mem_of_allWordChars h.wrapper (by decide)
    · have hwrapper : '\n' ∉ r.wrapper.toList := h.wrapper.not_mem (by decide)
      simpa using hwrapper
  · intro a ha
    obtain ⟨name, hname, rfl⟩ := List.mem_map.mp ha
    have hword := h.argNames name hname
    constructor
    · have hcallee : Code.IsArgument " py::arg".toList :=
        Code.isArgument_of_plain (not_mem_of_all (by decide))
      exact hcallee.append (isArgument_quoted hword).inParentheses
    · have hquoted := lineFeed_not_mem_quoted hword
      simpa using hquoted
  · rw [Code.toList_literal]
    refine ⟨hspace.append hspells.isArgument, ?_⟩
    have hbody := hspells.noLineFeed
    simpa using hbody

theorem lastText?_statement (h : r.IsSpelt) : ∃ line, r.statement.toList = line ++ ['\n'] ∧
    '\n' ∉ line ∧ Code.lastText? line = some r.doc.toList := by
  have hargs := h.isArgument
  have hcallee := h.callee
  refine ⟨r.callee ++ '(' :: ([','].intercalate r.callArguments ++ ')' :: [';']), ?_, ?_, ?_⟩
  · rw [statement_eq_call]
    simp
  · have hfront : '\n' ∉ r.callee := fun hmem => hcallee _ hmem (by simp)
    have hinner : '\n' ∉ [','].intercalate r.callArguments :=
      not_mem_intercalate (by decide) fun a ha => (hargs a ha).2
    simp [hfront, hinner]
  · have hfront : '"' ∉ r.callee ∧ '(' ∉ r.callee :=
      ⟨fun hmem => hcallee _ hmem (by simp), fun hmem => hcallee _ hmem (by simp)⟩
    have hsolid : IsSolid (Code.literal r.doc).toList := by
      rw [Code.toList_literal, ← List.cons_append]
      exact ⟨by simp, by simpa using (by decide : isBlank '"' = false), by
        rw [List.getLast?_concat]
        decide⟩
    have htrim : trim (' ' :: (Code.literal r.doc).toList) = (Code.literal r.doc).toList := by
      have hblank := trim_append_left_of_blank (Code.literal r.doc).toList allBlank_space
      rwa [hsolid.trim] at hblank
    have hcall : Code.callArguments? (r.callee ++ '(' ::
        ([','].intercalate r.callArguments ++ ')' :: [';'])) = some (r.callArguments.map trim) :=
      Code.callArguments?_call hfront (by simp [callArguments]) fun a ha => (hargs a ha).1
    rw [Code.lastText?, hcall]
    simp only [Option.bind_eq_bind, Option.bind_some, callArguments, List.map_append,
      List.map_cons, List.map_nil, List.getLast?_concat, htrim, Code.ofLiteral?_literal]

end IsSpelt

/-! ### Registrations of a registry -/

theorem allWordChars_nameFor {m : Method} (h : m.IsSpelt) : AllWordChars (nameFor m) := by
  simp only [nameFor]
  split
  · decide
  · split
    · decide
    · exact h.name

theorem isSpelt_ofWrapper {m : Method} (h : m.IsSpelt) {w : Wrapper}
    (hw : m.wrapOrVeto = .wrapped w) : (ofWrapper m w).IsSpelt := by
  have hnames : ∀ name ∈ w.argNames, AllWordChars name := by
    intro name hname
    rw [Wrapper.argNames, (Method.parameters_of_wrapOrVeto hw).1] at hname
    obtain ⟨a, ha, rfl⟩ := Argument.exists_of_mem_inputs hname
    exact h.args a ha
  refine ⟨h.cls, allWordChars_nameFor h, h.wrapperName, fun name hname => ?_⟩
  simp only [ofWrapper] at hname
  split at hname
  · exact hnames name hname
  · exact hnames name (List.mem_of_mem_drop hname)

/-- The code of a registration starts with a statement of one line, and the text of its last
argument is the documentation of the wrapper. -/
structure Documents (m : Method) (w : Wrapper) (line : List Char) : Prop where
  starts : line ++ ['\n'] <+: (code m w).toList
  statement : (ofWrapper m w).statement.toList = line ++ ['\n']
  noLineFeed : '\n' ∉ line
  documentation : (Code.lastText? line).map String.ofList =
    some (if m.isExported then w.doc else w.doc ++ unofficialWarning)

theorem documentation_survives :
    (∀ s : String, ∃ body, (Code.literal s).toList = '"' :: (body ++ ['"']) ∧
      Code.Spells body s.toList) ∧
    Function.Injective Code.literal ∧
    ∀ r : Registry, r.Reachable → ∀ m ∈ r.methods, ∀ w, m.wrapOrVeto = .wrapped w →
      ∃ line, Documents m w line := by
  refine ⟨fun s => ⟨_, Code.toList_literal s, Code.spells_escapeAll s.toList⟩, ?_, ?_⟩
  · intro s t heq
    have hread := Code.ofLiteral?_literal s
    rw [heq, Code.ofLiteral?_literal t, Option.some.injEq] at hread
    exact String.toList_inj.mp hread.symm
  · intro r hr m hm w hw
    obtain ⟨line, hstatement, hline, htext⟩ :=
      (isSpelt_ofWrapper (hr.isSpelt m hm) hw).lastText?_statement
    refine ⟨line, ?_, hstatement, hline, ?_⟩
    · rw [code, String.toList_append, hstatement]
      exact List.prefix_append _ _
    · rw [htext, Option.map_some, String.ofList_toList]
      rfl

/-- Documentation of more than one line. -/
theorem documentation_survives_withReceiver :
    withReceiver.Reachable ∧ ∃ m ∈ withReceiver.methods, ∃ w, m.wrapOrVeto = .wrapped w ∧
      m.isExported = false ∧ '\n' ∈ w.doc.toList ∧ ∃ line, Documents m w line := by
  have hr : withReceiver.Reachable := Registry.Reachable.empty.addAll _
  have hsubset : ∃ m ∈ withReceiver.methods, ∃ w, m.wrapOrVeto = .wrapped w ∧
      m.isExported = false ∧ '\n' ∈ w.doc.toList :=
    Registry.exists_wrapped_of_any (by decide +kernel)
  obtain ⟨m, hm, w, hw, hexported, hline⟩ := hsubset
  exact ⟨hr, m, hm, w, hw, hexported, hline, documentation_survives.2.2 _ hr m hm w hw⟩

end Registration

end IslBindings
