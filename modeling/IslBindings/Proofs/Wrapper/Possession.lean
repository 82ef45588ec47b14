import IslBindings.Proofs.Text.Occurrence
import IslBindings.Proofs.Wrapper.Returned

/-!
# Who owns the result

A receiver takes possession of a result, or a new object is made of it. Each of the two is printed
in a way of its own, and where no name of the method is taken for that it is printed by one
statement only.
-/

namespace IslBindings

open Text

/-! ### Names -/

/-- The text has none of the signs in front of what makes an owner. -/
def Text.IsUnmarked (s : String) : Prop := ∀ c ∈ s.toList, c ∉ ['.', '=', '>', '(']

namespace Text

instance (s : String) : Decidable (IsUnmarked s) :=
  List.decidableBAll (· ∉ ['.', '=', '>', '(']) s.toList

theorem isUnmarked_append {s t : String} : IsUnmarked (s ++ t) ↔ IsUnmarked s ∧ IsUnmarked t := by
  rw [IsUnmarked, String.toList_append, List.forall_mem_append]
  rfl

end Text

/-- How a line makes an owner of an object. -/
def ownerMarks : List String :=
  [".take_possession_of(", "> uptr_result(", "= handle_from_new_ptr(", "(handle_from_new_ptr("]

/-- What each of the marks starts with. -/
def ownerStarts : List (List Char) :=
  [['.', 't'], ['>', ' ', 'u', 'p'], ['=', ' ', 'h'], ['(', 'h']]

theorem Text.IsUnmarked.avoids {s : String} (h : IsUnmarked s) : Avoids ownerStarts s := by
  refine avoids_of_not_mem ?_
  simp only [ownerStarts, List.forall_mem_cons]
  refine ⟨⟨'.', rfl, ?_⟩, ⟨'>', rfl, ?_⟩, ⟨'=', rfl, ?_⟩, ⟨'(', rfl, ?_⟩, List.forall_mem_nil _⟩
  all_goals exact fun hmem => h _ hmem (by decide)

theorem Text.Avoids.not_occursIn_ownerMarks {line : String} (h : Avoids ownerStarts line) :
    ∀ mark ∈ ownerMarks, ¬OccursIn mark line := by
  intro mark hmark
  obtain ⟨start, hstart, hprefix⟩ : ∃ start ∈ ownerStarts, start <+: mark.toList := by
    have hall : ∀ mark ∈ ownerMarks, ∃ start ∈ ownerStarts, start <+: mark.toList := by decide
    exact hall mark hmark
  refine h.not_occursIn hstart hprefix fun hnil => ?_
  subst hnil
  exact absurd hmark (by decide)

/-- The names in an argument. -/
def Argument.words : Argument → List String
  | .value arg => [arg.name, arg.type.base]
  | .callback name _ _ => [name]

/-- The names that the code of a method is printed with. -/
def Method.words (m : Method) : List String :=
  [m.cls, m.name, m.cName, m.result.base] ++ m.args.flatMap Argument.words

theorem Method.isUnmarked_wrapperName {m : Method} (hm : ∀ word ∈ m.words, IsUnmarked word) :
    IsUnmarked m.wrapperName := by
  rw [wrapperName, isUnmarked_append, isUnmarked_append]
  exact ⟨⟨hm _ (by simp [words]), by decide⟩, hm _ (by simp [words])⟩

namespace ArgShape

def words : ArgShape → List String
  | .flag arg => [arg.name, arg.type.base]
  | .handle arg cls => [arg.name, cls]
  | .handleOut arg cls => [arg.name, cls]
  | s => [s.name]

theorem words_of_ofValue {arg : ValueArgument} {index : Nat} {s : ArgShape}
    (h : ofValue arg index = .ok s) (harg : ∀ t ∈ (Argument.value arg).words, IsUnmarked t) :
    ∀ t ∈ s.words, IsUnmarked t := by
  obtain ⟨hname, hbase⟩ : IsUnmarked arg.name ∧ IsUnmarked arg.type.base := by
    simpa [Argument.words] using harg
  cases suits_of_ofValue h with
  | flag _ _ _ => simp [words, hname, hbase]
  | handle _ heq _ _ =>
    rw [heq, isUnmarked_append] at hbase
    simp [words, hname, hbase.2]
  | handleOut _ heq =>
    rw [heq, isUnmarked_append] at hbase
    simp [words, hname, hbase.2]
  | _ => simp [words, name, hname]

theorem Shapes.words {index : Nat} {args : List Argument} {shapes : List (Nat × ArgShape)}
    (h : Shapes index args shapes) (hargs : ∀ t ∈ args.flatMap Argument.words, IsUnmarked t) :
    ∀ p ∈ shapes, ∀ t ∈ p.2.words, IsUnmarked t := by
  induction h with
  | nil => exact List.forall_mem_nil _
  | value hs _ ih =>
    rw [List.flatMap_cons, List.forall_mem_append] at hargs
    exact List.forall_mem_cons.mpr ⟨words_of_ofValue hs hargs.1, ih hargs.2⟩
  | callback _ ih =>
    rw [List.flatMap_cons, List.flatMap_cons, List.forall_mem_append, List.forall_mem_append]
      at hargs
    exact List.forall_mem_cons.mpr ⟨hargs.1, ih hargs.2.2⟩

end ArgShape

def Actual.name : Actual → String
  | .handle h => h.name
  | .scalar name => name
  | .text name _ => name
  | .flagAddress name => name
  | .objectAddress name => name
  | .trampoline name => name
  | .callable name => name

def Auxiliary.name : Auxiliary → String
  | .flag _ name => name
  | .object _ name => name
  | .callback name => name

/-- The names in a statement around the call. -/
def Statement.words : Statement → List String
  | .bindReceiver cls name => [cls, name]
  | .requireValid label name => [label, name]
  | .copyHandle label cls name => [label, cls, name]
  | .takeValue name => [name]
  | .setContext cls name => [cls, name]
  | .declareFlag base name => [base, name]
  | .declareObject cls name => [cls, name]
  | .invalidate h => [h.name]
  | .wrapObject cls name => [cls, name]
  | _ => []

def Statement.IsPlain (t : Statement) : Prop := ∀ word ∈ t.words, IsUnmarked word

namespace Contribution

variable {m : Method} {p : Nat × ArgShape} {c : Contribution}

/-- What an argument adds is printed with unmarked names. -/
structure IsPlain (c : Contribution) : Prop where
  checks : ∀ t ∈ c.checks, t.IsPlain
  locals : ∀ t ∈ c.locals, t.IsPlain
  fixups : ∀ t ∈ c.fixups, t.IsPlain
  actuals : ∀ a ∈ c.actuals, IsUnmarked a.name
  auxiliary : ∀ a, c.auxiliary = some a → IsUnmarked a.name

theorem isPlain_letGo (arg : ValueArgument) {h : Held} (hh : IsUnmarked h.name) :
    ∀ t ∈ letGo arg h, t.IsPlain := by
  rw [letGo]
  split <;> simp [Statement.IsPlain, Statement.words, hh]

theorem isPlain_ofHandle {index : Nat} {arg : ValueArgument} {cls : String}
    (h : ofHandle m index arg cls = .ok c) (hlabel : IsUnmarked m.wrapperName)
    (harg : IsUnmarked arg.name) (hcls : IsUnmarked cls) : c.IsPlain := by
  have hbind : (Statement.bindReceiver cls arg.name).IsPlain := by
    simp [Statement.IsPlain, Statement.words, harg, hcls]
  have hvalid : (Statement.requireValid m.wrapperName arg.name).IsPlain := by
    simp [Statement.IsPlain, Statement.words, hlabel, harg]
  have hcopy : (Statement.copyHandle m.wrapperName cls arg.name).IsPlain := by
    simp [Statement.IsPlain, Statement.words, hlabel, harg, hcls]
  have hcontext : ∀ t ∈ contextFrom index cls arg.name, t.IsPlain := by
    rw [contextFrom]
    split <;> simp [Statement.IsPlain, Statement.words, harg, hcls]
  have hnone := List.forall_mem_nil Statement.IsPlain
  have hbare : ∀ a : Auxiliary, none = some a → IsUnmarked a.name := by simp
  have hactual : ∀ {h : Held}, h.name = arg.name → ∀ a ∈ [Actual.handle h], IsUnmarked a.name := by
    intro h hname a ha
    rw [List.mem_singleton.mp ha, Actual.name, hname]
    exact harg
  rcases of_ofHandle h with ⟨-, -, rfl⟩ | ⟨-, -, rfl⟩ | ⟨-, -, rfl⟩ | ⟨-, rfl⟩
  · refine ⟨List.forall_mem_append.mpr ⟨?_, hcontext⟩, hnone, ?_, hactual rfl, hbare⟩
    · exact List.forall_mem_cons.mpr ⟨hbind, List.forall_mem_singleton.mpr hvalid⟩
    · exact List.forall_mem_singleton.mpr (List.forall_mem_singleton.mpr harg)
  · refine ⟨List.forall_mem_append.mpr ⟨?_, hcontext⟩, hnone, isPlain_letGo arg harg, hactual rfl,
      hbare⟩
    exact List.forall_mem_cons.mpr ⟨hvalid, List.forall_mem_singleton.mpr hcopy⟩
  · exact ⟨List.forall_mem_cons.mpr ⟨hvalid, hcontext⟩, hnone, isPlain_letGo arg harg, hactual rfl,
      hbare⟩
  · exact ⟨List.forall_mem_cons.mpr ⟨hvalid, hcontext⟩, hnone, hnone, hactual rfl, hbare⟩

theorem isPlain_of_ofShape (h : ofShape m p = .ok c) (hm : ∀ word ∈ m.words, IsUnmarked word)
    (hp : ∀ word ∈ p.2.words, IsUnmarked word) : c.IsPlain := by
  obtain ⟨index, s⟩ := p
  obtain ⟨hcls, hname⟩ : IsUnmarked m.cls ∧ IsUnmarked m.name :=
    ⟨hm _ (by simp [Method.words]), hm _ (by simp [Method.words])⟩
  cases s with
  | callback cb =>
    obtain ⟨t, ht, h⟩ := exists_of_bind_ok h
    cases h
    have hcallback : IsUnmarked cb.name := hp _ (List.mem_singleton_self _)
    have htrampoline : IsUnmarked t.name := by
      rw [(Trampoline.fields_of_ofCallback ht).1, Trampoline.nameFor]
      simp only [isUnmarked_append]
      exact ⟨⟨⟨⟨⟨by decide, hcls⟩, by decide⟩, hname⟩, by decide⟩, hcallback⟩
    constructor
    case auxiliary =>
      intro a ha
      simp only at ha
      split at ha
      · cases ha
        exact hcallback
      · cases ha
    all_goals simp [Actual.name, htrampoline, hcallback]
  | valueOrInt arg =>
    have harg : IsUnmarked arg.name := hp _ (List.mem_singleton_self _)
    obtain ⟨hactuals, hchecks, hlocals, hfixups⟩ := of_ofValueOrInt h
    constructor
    · simp [hchecks, Statement.IsPlain, Statement.words, harg]
    · simp [hlocals]
    · exact hfixups ▸ isPlain_letGo arg harg
    · simp [hactuals, Actual.name, Held.name, harg]
    · simp [auxiliary_of_ofValueOrInt h]
  | handle arg cls =>
    obtain ⟨harg, hcls⟩ : IsUnmarked arg.name ∧ IsUnmarked cls := by simpa [ArgShape.words] using hp
    exact isPlain_ofHandle h (Method.isUnmarked_wrapperName hm) harg hcls
  | handleOut arg cls =>
    obtain ⟨harg, hcls⟩ : IsUnmarked arg.name ∧ IsUnmarked cls := by simpa [ArgShape.words] using hp
    obtain ⟨hactuals, hchecks, hlocals, hfixups⟩ := of_ofHandleOut h
    constructor <;>
      simp [hactuals, hchecks, hlocals, hfixups, auxiliary_of_ofHandleOut h, Statement.IsPlain,
        Statement.words, Actual.name, Auxiliary.name, harg, hcls]
  | flag arg =>
    obtain ⟨harg, hbase⟩ : IsUnmarked arg.name ∧ IsUnmarked arg.type.base := by
      simpa [ArgShape.words] using hp
    cases h
    constructor <;> simp [ofFlag, Statement.IsPlain, Statement.words, Actual.name,
      Auxiliary.name, harg, hbase]
  | scalar arg =>
    have harg : IsUnmarked arg.name := hp _ (List.mem_singleton_self _)
    cases h
    constructor <;> simp [ofScalar, Actual.name, harg]
  | text arg =>
    have harg : IsUnmarked arg.name := hp _ (List.mem_singleton_self _)
    cases h
    constructor <;> simp [ofText, Actual.name, harg]

end Contribution

/-! ### Printed statements -/

namespace Statement

variable {t : Statement}

/-- No statement before the call makes an owner. -/
theorem avoids_of_preparation (ht : t.stage = .preparation) (hplain : t.IsPlain) :
    ∀ line ∈ t.lines, Avoids ownerStarts line := by
  have hwords : ∀ word ∈ t.words, Avoids ownerStarts word := fun word hword =>
    (hplain word hword).avoids
  cases t with
  | declareContext => exact List.forall_mem_singleton.mpr (avoids_ofList rfl)
  | resetError => exact List.forall_mem_singleton.mpr (avoids_ofList rfl)
  | takeValue name =>
    have hname := hwords name (List.mem_singleton_self _)
    simp (disch := first | assumption | exact avoids_ofList rfl) only [Statement.lines,
      takeValueLines, List.forall_mem_cons, List.not_mem_nil, false_imp_iff, implies_true, and_true,
      String.append_assoc, avoids_append_iff]
    and_intros
    all_goals exact avoids_ofList rfl
  | copyHandle label cls name =>
    simp only [words, List.forall_mem_cons] at hwords
    obtain ⟨hlabel, hcls, hname, -⟩ := hwords
    simp (disch := first | assumption | exact avoids_ofList rfl) only [Statement.lines,
      copyHandleLines, List.forall_mem_cons, List.not_mem_nil, false_imp_iff, implies_true,
      and_true, String.append_assoc, avoids_append_iff]
    and_intros
    all_goals exact avoids_ofList rfl
  | setContext cls name =>
    simp only [words, List.forall_mem_cons] at hwords
    obtain ⟨hcls, hname, -⟩ := hwords
    rw [Statement.lines]
    split
    all_goals
      simp (disch := first | assumption | exact avoids_ofList rfl) only
        [List.forall_mem_singleton, String.append_assoc, avoids_append_iff]
      exact avoids_ofList rfl
  | bindReceiver cls name | requireValid cls name | declareFlag cls name | declareObject cls name =>
    simp only [words, List.forall_mem_cons] at hwords
    obtain ⟨hcls, hname, -⟩ := hwords
    simp (disch := first | assumption | exact avoids_ofList rfl) only [Statement.lines,
      List.forall_mem_cons, List.not_mem_nil, false_imp_iff, implies_true, and_true,
      String.append_assoc, avoids_append_iff]
    and_intros
    all_goals exact avoids_ofList rfl
  | _ => cases ht

theorem avoids_invalidate {h : Held} (hh : IsUnmarked h.name) :
    ∀ line ∈ (invalidate h).lines, Avoids ownerStarts line := by
  cases h with
  | own name | copy name | temporary name =>
    have hname : Avoids ownerStarts name := hh.avoids
    simp (disch := first | assumption | exact avoids_ofList rfl) only [Statement.lines,
      Held.invalidation, List.forall_mem_singleton, String.append_assoc, avoids_append_iff]
    exact avoids_ofList rfl

/-- No statement between the call and the conversion makes an owner of the result. -/
theorem avoids_of_release (ht : t.stage = .release) (hplain : t.IsPlain) :
    ∀ line ∈ t.lines, Avoids [['.', 't'], ['>', ' ', 'u', 'p']] line := by
  have hwords : ∀ word ∈ t.words, Avoids [['.', 't'], ['>', ' ', 'u', 'p']] word :=
    fun word hword => (hplain word hword).avoids.mono (by decide)
  cases t with
  | invalidate h =>
    have hlines := avoids_invalidate (hplain h.name (List.mem_singleton_self _))
    exact fun line hline => (hlines line hline).mono (by decide)
  | wrapObject cls name =>
    simp only [words, List.forall_mem_cons] at hwords
    obtain ⟨hcls, hname, -⟩ := hwords
    simp (disch := first | assumption | exact avoids_ofList rfl) only [Statement.lines,
      List.forall_mem_cons, List.not_mem_nil, false_imp_iff, implies_true, and_true,
      String.append_assoc, avoids_append_iff]
    and_intros
    all_goals exact avoids_ofList rfl
  | _ => cases ht

end Statement

theorem Actual.avoids_expression {a : Actual} (ha : IsUnmarked a.name) :
    Avoids [['.', 't']] a.expression := by
  have hname : Avoids [['.', 't']] a.name := ha.avoids.mono (by decide)
  cases a with
  | handle h =>
    cases h with
    | own name | copy name | temporary name =>
      replace hname : Avoids [['.', 't']] name := hname
      simp (disch := first | assumption | exact avoids_ofList rfl) only [expression,
        Held.expression, String.append_assoc, avoids_append_iff]
      exact avoids_ofList rfl
  | text name isCopied =>
    rw [expression]
    split
    · exact (Avoids.append (avoids_ofList rfl) hname).append (avoids_ofList rfl)
    · exact Avoids.append (avoids_ofList rfl) hname
  | scalar name | flagAddress name | objectAddress name =>
    exact Avoids.append (avoids_ofList rfl) hname
  | trampoline name => exact hname
  | callable name => exact (Avoids.append (avoids_ofList rfl) hname).append (avoids_ofList rfl)

theorem Auxiliary.avoids_expression {a : Auxiliary} (ha : IsUnmarked a.name) :
    Avoids [['.', 't']] a.expression := by
  have hname : Avoids [['.', 't']] a.name := ha.avoids.mono (by decide)
  cases a with
  | flag base name =>
    rw [expression]
    split <;> exact Avoids.append (avoids_ofList rfl) hname
  | object cls name | callback name => exact Avoids.append (avoids_ofList rfl) hname

namespace Answer

theorem avoids_expressions {a : Answer} (h : ∀ b ∈ a.extras, IsUnmarked b.name) :
    ∀ e ∈ a.expressions, Avoids [['.', 't']] e := by
  refine List.forall_mem_append.mpr ⟨?_, List.forall_mem_map.mpr fun b hb =>
    Auxiliary.avoids_expression (h b hb)⟩
  cases a.primary with
  | none => exact List.forall_mem_nil _
  | some p => cases p <;> exact List.forall_mem_singleton.mpr (avoids_ofList rfl)

theorem avoids_expression {a : Answer} (h : ∀ b ∈ a.extras, IsUnmarked b.name) :
    Avoids [['.', 't']] a.expression := by
  have hparts := avoids_expressions h
  have htuple : Avoids [['.', 't']] ("py::make_tuple(" ++ ", ".intercalate a.expressions ++ ")") :=
    (Avoids.append (avoids_ofList rfl) (avoids_intercalate (avoids_ofList rfl) hparts)).append
      (avoids_ofList rfl)
  obtain ⟨primary, extras⟩ := a
  match primary, extras with
  | none, [only] =>
    exact (Avoids.append (avoids_ofList rfl) (hparts _ (List.mem_singleton_self _))).append
      (avoids_ofList rfl)
  | some primary, [] => exact hparts _ (List.mem_singleton_self _)
  | none, [] => exact htuple
  | none, first :: second :: rest => exact htuple
  | some primary, first :: rest => exact htuple

end Answer

namespace Statement

theorem avoids_raise {label : String} (hlabel : IsUnmarked label) :
    Avoids [['.', 't']] ("  " ++ raise label) :=
  Avoids.append (avoids_ofList rfl) ((Avoids.append (avoids_ofList rfl)
    (hlabel.avoids.mono (by decide))).append (avoids_ofList rfl))

theorem avoids_failIf {condition label : String} (hcondition : Avoids [['.', 't']] condition)
    (hlabel : IsUnmarked label) :
    ∀ line ∈ (failIf condition label).lines, Avoids [['.', 't']] line := by
  rw [Statement.lines, List.forall_mem_cons, List.forall_mem_singleton]
  exact ⟨(Avoids.append (avoids_ofList rfl) hcondition).append (avoids_ofList rfl),
    avoids_raise hlabel⟩

theorem avoids_give {a : Answer} (ha : Avoids [['.', 't']] a.expression) :
    ∀ line ∈ (give a).lines, Avoids [['.', 't']] line :=
  List.forall_mem_singleton.mpr
    ((Avoids.append (avoids_ofList rfl) ha).append (avoids_ofList rfl))

theorem avoids_giveObject {cls label : String} {a : Answer} (hcls : IsUnmarked cls)
    (hlabel : IsUnmarked label) (ha : Avoids [['.', 't']] a.expression) :
    ∀ line ∈ (giveObject cls label a).lines, Avoids [['.', 't']] line := by
  have hcls : Avoids [['.', 't']] cls := hcls.avoids.mono (by decide)
  have hraise := avoids_raise hlabel
  rw [Statement.lines]
  generalize "  " ++ raise label = failure at hraise ⊢
  simp (disch := first | assumption | exact avoids_ofList rfl) only [List.forall_mem_cons,
    List.not_mem_nil, false_imp_iff, implies_true, and_true, String.append_assoc,
    avoids_append_iff]
  and_intros
  all_goals first | exact hraise | exact avoids_ofList rfl

end Statement

/-! ### Conversions and wrappers -/

namespace Conversion

variable {m : Method} {extras : List Auxiliary} {c : Conversion} {s : ResultShape}

theorem eq_ofObject_of_ofHandle {cls : String} (hmut : m.isMutator = false)
    (h : ofHandle m cls extras = .ok c) : c = ofObject m.wrapperName cls extras := by
  rw [ofHandle, hmut] at h
  simp only [Bool.false_eq_true, if_false] at h
  split at h
  · cases h
    rfl
  · split at h <;> cases h

/-- Only a receiver that is changed in place takes possession of the result. -/
theorem avoids_of_ofShape (hs : ResultShape.Suits m s) (hmut : m.isMutator = false)
    (h : ofShape m extras s = .ok c) (hm : ∀ word ∈ m.words, IsUnmarked word)
    (hextras : ∀ a ∈ extras, IsUnmarked a.name) :
    ∀ t ∈ c.statements, ∀ line ∈ t.lines, Avoids [['.', 't']] line := by
  have hlabel := Method.isUnmarked_wrapperName hm
  have hfail : ∀ {condition : String}, Avoids [['.', 't']] condition →
      ∀ t ∈ [Statement.failIf condition m.wrapperName], ∀ line ∈ t.lines,
        Avoids [['.', 't']] line := fun hcondition =>
    List.forall_mem_singleton.mpr (Statement.avoids_failIf hcondition hlabel)
  have hanswer : ∀ {checks : List Statement} {primary : Option Primary},
      (∀ t ∈ checks, ∀ line ∈ t.lines, Avoids [['.', 't']] line) →
        ∀ t ∈ (ofAnswer checks { primary, extras }).statements, ∀ line ∈ t.lines,
          Avoids [['.', 't']] line := fun hchecks =>
    List.forall_mem_append.mpr ⟨hchecks, List.forall_mem_singleton.mpr
      (Statement.avoids_give (Answer.avoids_expression hextras))⟩
  have hchecks := List.forall_mem_nil
    fun t : Statement => ∀ line ∈ t.lines, Avoids [['.', 't']] line
  have hnone : ∀ line ∈ Statement.noneUnlessResult.lines, Avoids [['.', 't']] line :=
    List.forall_mem_cons.mpr ⟨avoids_ofList rfl, List.forall_mem_singleton.mpr (avoids_ofList rfl)⟩
  have hcast : ∀ line ∈ Statement.castText.lines, Avoids [['.', 't']] line :=
    List.forall_mem_singleton.mpr (avoids_ofList rfl)
  cases hs with
  | nothing =>
    cases h
    rw [ofNothing]
    split
    · exact hchecks
    · exact hanswer hchecks
  | status =>
    cases h
    simp only [ofStatus]
    split
    · refine List.forall_mem_cons.mpr ⟨Statement.avoids_failIf (avoids_ofList rfl) hlabel, ?_⟩
      exact List.forall_mem_singleton.mpr (List.forall_mem_singleton.mpr (avoids_ofList rfl))
    · exact hanswer (hfail (avoids_ofList rfl))
  | int =>
    cases hpredicate : m.isPredicate with
    | true =>
      rw [hpredicate] at h
      cases h
      exact hanswer (hfail (avoids_ofList rfl))
    | false =>
      rw [hpredicate] at h
      cases h
      exact hanswer hchecks
  | size =>
    cases h
    exact hanswer (hfail (avoids_ofList rfl))
  | bool =>
    cases h
    exact hanswer (hfail (avoids_ofList rfl))
  | scalar =>
    obtain ⟨-, rfl⟩ := extras_of_alone h
    exact List.forall_mem_singleton.mpr (List.forall_mem_singleton.mpr (avoids_ofList rfl))
  | text =>
    obtain ⟨-, rfl⟩ := extras_of_alone h
    refine List.forall_mem_append.mpr ⟨List.forall_mem_append.mpr ⟨?_, ?_⟩, ?_⟩
    · exact List.forall_mem_cons.mpr ⟨hnone, List.forall_mem_singleton.mpr hcast⟩
    · split
      · exact List.forall_mem_singleton.mpr (List.forall_mem_singleton.mpr (avoids_ofList rfl))
      · exact hchecks
    · exact List.forall_mem_singleton.mpr (List.forall_mem_singleton.mpr (avoids_ofList rfl))
  | userObject =>
    obtain ⟨-, rfl⟩ := extras_of_alone h
    refine List.forall_mem_cons.mpr ⟨hnone, ?_⟩
    exact List.forall_mem_singleton.mpr (List.forall_mem_singleton.mpr (avoids_ofList rfl))
  | @handle cls hdepth hbase =>
    have hcls : IsUnmarked cls := by
      have hresult := hm m.result.base (by simp [Method.words])
      rw [hbase, isUnmarked_append] at hresult
      exact hresult.2
    rw [eq_ofObject_of_ofHandle hmut h]
    exact List.forall_mem_singleton.mpr
      (Statement.avoids_giveObject hcls hlabel (Answer.avoids_expression hextras))

end Conversion

namespace Wrapper

variable {m : Method} {w : Wrapper}

theorem isPlain_of_wrap (h : m.wrap = .wrapped w) (hm : ∀ word ∈ m.words, IsUnmarked word) :
    ∀ c ∈ w.contributions, c.IsPlain := by
  obtain ⟨shapes, extras, s, hargs, hrun, -⟩ := Method.exists_of_wrap h
  have hshapes := ArgShape.shapes_of_ofArguments hargs
  have hwords := hshapes.words fun word hword => hm word (List.mem_append_right _ hword)
  intro c hc
  obtain ⟨p, hp, hof⟩ := exists_of_mem_mapM hrun hc
  exact Contribution.isPlain_of_ofShape hof hm (hwords p hp)

theorem avoids_linesBefore (h : m.wrap = .wrapped w) (hm : ∀ word ∈ m.words, IsUnmarked word) :
    ∀ line ∈ w.linesBefore, Avoids ownerStarts line := by
  have hplain := isPlain_of_wrap h hm
  have hnone : ∀ {t : Statement}, t.words = [] → t.IsPlain := fun ht word hword =>
    absurd hword (ht ▸ List.not_mem_nil)
  intro line hline
  obtain ⟨t, ht, hline⟩ := List.mem_flatMap.mp hline
  have hstage := (Method.isStaged_of_wrap h).preparation t ht
  refine Statement.avoids_of_preparation hstage ?_ line hline
  rw [beforeCall] at ht
  simp only [List.mem_append, List.mem_singleton] at ht
  rcases ht with ((rfl | ht) | ht) | rfl
  · exact hnone rfl
  · obtain ⟨c, hc, ht⟩ := List.mem_flatMap.mp ht
    exact (hplain c hc).checks t ht
  · obtain ⟨c, hc, ht⟩ := List.mem_flatMap.mp ht
    exact (hplain c hc).locals t ht
  · exact hnone rfl

theorem avoids_linesBetween (h : m.wrap = .wrapped w) (hm : ∀ word ∈ m.words, IsUnmarked word) :
    ∀ line ∈ w.linesBetween, Avoids [['.', 't'], ['>', ' ', 'u', 'p']] line := by
  intro line hline
  obtain ⟨t, ht, hline⟩ := List.mem_flatMap.mp hline
  obtain ⟨c, hc, htc⟩ := List.mem_flatMap.mp ht
  exact Statement.avoids_of_release ((Method.isStaged_of_wrap h).release t ht)
    ((isPlain_of_wrap h hm c hc).fixups t htc) line hline

theorem avoids_capture (captured : Option CType)
    (h : ∀ t, captured = some t → Avoids [['.', 't']] t.base) :
    Avoids [['.', 't']] (Statement.capture captured) := by
  cases captured with
  | none => exact avoids_ofList rfl
  | some t =>
    have hstars : Avoids [['.', 't']] t.depth.stars := by
      cases t.depth <;> exact avoids_ofList rfl
    exact (((h t rfl).append (avoids_ofList rfl)).append hstars).append (avoids_ofList rfl)

theorem avoids_callLine (h : m.wrap = .wrapped w) (hm : ∀ word ∈ m.words, IsUnmarked word) :
    Avoids [['.', 't']] w.callLine := by
  obtain ⟨cs, s, conversion, -, -, -, hw⟩ := Method.exists_assemble_of_wrap h
  have hword : ∀ {word : String}, word ∈ m.words → Avoids [['.', 't']] word := fun hmem =>
    (hm _ hmem).avoids.mono (by decide)
  have hfunction : Avoids [['.', 't']] w.function := by
    have hmem : m.cName ∈ m.words := by simp [Method.words]
    rw [hw]
    exact hword hmem
  have hcapture : Avoids [['.', 't']] (Statement.capture w.captured) := by
    refine avoids_capture _ fun t ht => ?_
    have hresult : t = m.result := by
      rw [hw] at ht
      cases s <;> cases ht <;> rfl
    rw [hresult]
    exact hword (by simp [Method.words])
  have hpassed : ∀ e ∈ w.passed, Avoids [['.', 't']] e := by
    refine List.forall_mem_map.mpr fun a ha => ?_
    obtain ⟨c, hc, ha⟩ := List.mem_flatMap.mp ha
    exact Actual.avoids_expression ((isPlain_of_wrap h hm c hc).actuals a ha)
  exact (((hcapture.append hfunction).append (avoids_ofList rfl)).append
    (avoids_intercalate (avoids_ofList rfl) hpassed)).append (avoids_ofList rfl)

theorem avoids_linesAfter (h : m.wrap = .wrapped w) (hmut : m.isMutator = false)
    (hm : ∀ word ∈ m.words, IsUnmarked word) :
    ∀ line ∈ w.linesAfter, Avoids [['.', 't']] line := by
  obtain ⟨cs, s, conversion, -, hs, hconversion, hw⟩ := Method.exists_assemble_of_wrap h
  have hplain := isPlain_of_wrap h hm
  subst hw
  intro line hline
  obtain ⟨t, ht, hline⟩ := List.mem_flatMap.mp hline
  refine Conversion.avoids_of_ofShape (ResultShape.suits_of_resultShape hs) hmut hconversion hm
    (fun a ha => ?_) t ht line hline
  obtain ⟨c, hc, ha⟩ := List.mem_filterMap.mp ha
  exact (hplain c hc).auxiliary a ha

end Wrapper

end IslBindings
