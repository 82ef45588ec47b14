import IslBindings.Proofs.Registry.Spelling
import IslBindings.Proofs.Trampoline
import IslBindings.Proofs.Trampoline.Ownership

/-!
# Unbroken lines

The names and the types of a callback hold no line break, so no line of its trampoline does. The
code of the trampoline is cut into lines and printed again as it is.
-/

namespace IslBindings

/-! ### Texts without a line break -/

def Text.IsUnbroken (s : String) : Prop := ∀ c ∈ s.toList, c ≠ '\n' ∧ c ≠ '\r'

namespace Text

instance (s : String) : Decidable (IsUnbroken s) :=
  List.decidableBAll (fun c => c ≠ '\n' ∧ c ≠ '\r') s.toList

variable {s t : String}

theorem isUnbroken_append : IsUnbroken (s ++ t) ↔ IsUnbroken s ∧ IsUnbroken t := by
  rw [IsUnbroken, String.toList_append, List.forall_mem_append]
  rfl

theorem AllWordChars.isUnbroken (h : AllWordChars s) : IsUnbroken s := by
  intro c hc
  constructor
  · rintro rfl
    exact h.not_mem (by decide) hc
  · rintro rfl
    exact h.not_mem (by decide) hc

theorem isUnbroken_intercalate {l : List String} (hs : IsUnbroken s) (hl : ∀ t ∈ l, IsUnbroken t) :
    IsUnbroken (s.intercalate l) := by
  induction l with
  | nil =>
    rw [String.intercalate_nil]
    decide
  | cons t l ih =>
    obtain ⟨ht, hl⟩ := List.forall_mem_cons.mp hl
    cases l with
    | nil => rwa [String.intercalate_singleton]
    | cons u l =>
      rw [String.intercalate_cons_cons, isUnbroken_append, isUnbroken_append]
      exact ⟨⟨ht, hs⟩, ih hl⟩

/-- Lines that are printed are found again. -/
theorem lines_print {lines : List String} (h : ∀ line ∈ lines, IsUnbroken line) :
    (Text.lines (Code.print lines).toList).map String.ofList = lines := by
  have hunlines : (Code.print lines).toList = unlines (lines.map String.toList) := by
    rw [Code.print, String.toList_join, unlines, List.flatMap_map, List.flatMap_map]
    exact flatMap_congr fun line _ => String.toList_append
  rw [hunlines, lines_unlines, List.map_map]
  · simp
  · intro line hline
    obtain ⟨text, htext, rfl⟩ := List.mem_map.mp hline
    exact ⟨fun hmem => (h text htext _ hmem).1 rfl, fun hmem => (h text htext _ hmem).2 rfl⟩

end Text

open Text

namespace Code

def Step.text : Step → String
  | .line text => text
  | .opening text => text
  | .closing text => text

theorem isUnbroken_indent {text : String} (h : IsUnbroken text) (depth : Nat) :
    IsUnbroken (indent depth text) := by
  have hblanks : IsUnbroken (String.join (List.replicate depth "  ")) := by
    intro c hc
    obtain ⟨blanks, hblanks, hc⟩ : ∃ blanks ∈ List.replicate depth "  ", c ∈ blanks.toList := by
      simpa [String.toList_join] using hc
    rw [(List.mem_replicate.mp hblanks).2] at hc
    exact (by decide : IsUnbroken "  ") c hc
  rw [indent]
  split
  · decide
  · exact isUnbroken_append.mpr ⟨hblanks, h⟩

theorem isUnbroken_layout {steps : List Step} (h : ∀ s ∈ steps, IsUnbroken s.text) (depth : Nat) :
    ∀ line ∈ layout depth steps, IsUnbroken line := by
  induction steps generalizing depth with
  | nil => exact List.forall_mem_nil _
  | cons s steps ih =>
    obtain ⟨hs, hsteps⟩ := List.forall_mem_cons.mp h
    cases s with
    | line text => exact List.forall_mem_cons.mpr ⟨isUnbroken_indent hs _, ih hsteps _⟩
    | opening text => exact List.forall_mem_cons.mpr ⟨isUnbroken_indent hs _, ih hsteps _⟩
    | closing text => exact List.forall_mem_cons.mpr ⟨isUnbroken_indent hs _, ih hsteps _⟩

end Code

/-! ### Statements -/

structure CallbackObject.IsUnbroken (o : CallbackObject) : Prop where
  name : Text.IsUnbroken o.name
  cls : Text.IsUnbroken o.cls

/-- The type that the conversion names. -/
def CallbackResult.named : CallbackResult → String
  | .scalar base => base
  | .handle cls => cls
  | _ => ""

namespace CallbackAct

variable {o : CallbackObject} {r : CallbackResult}

/-- No line of a statement is broken if no name in it is. -/
theorem isUnbroken_about (ho : o.IsUnbroken) :
    ∀ a ∈ [declare o, wrap o, release o, releaseIfHeld o], ∀ line ∈ a.lines,
      Text.IsUnbroken line := by
  have hname := ho.name
  have hcls := ho.cls
  simp only [lines, List.forall_mem_cons, isUnbroken_append, hname, hcls]
  decide

theorem isUnbroken_call {objects : List CallbackObject} (h : ∀ o ∈ objects, o.IsUnbroken) :
    ∀ line ∈ (call objects).lines, Text.IsUnbroken line := by
  have hargs : Text.IsUnbroken (", ".intercalate (objects.map ("arg_" ++ ·.name))) := by
    refine isUnbroken_intercalate (by decide) fun arg harg => ?_
    obtain ⟨o, ho, rfl⟩ := List.mem_map.mp harg
    exact isUnbroken_append.mpr ⟨by decide, (h o ho).name⟩
  refine List.forall_mem_singleton.mpr ?_
  exact isUnbroken_append.mpr ⟨isUnbroken_append.mpr ⟨by decide, hargs⟩, by decide⟩

theorem isUnbroken_convert (h : Text.IsUnbroken r.named) :
    ∀ line ∈ (convert r).lines, Text.IsUnbroken line := by
  cases r with
  | status => decide
  | bool => decide
  | scalar base =>
    have hbase : Text.IsUnbroken base := h
    simp only [lines, conversionLines, noneIsError, List.forall_mem_append, List.forall_mem_cons,
      isUnbroken_append, hbase]
    decide
  | handle cls =>
    have hcls : Text.IsUnbroken cls := h
    simp only [lines, conversionLines, List.forall_mem_cons, isUnbroken_append, hcls]
    decide

theorem isUnbroken_fail (h : Text.IsUnbroken r.named) :
    ∀ line ∈ (fail r).lines, Text.IsUnbroken line := by
  cases r with
  | scalar base =>
    have hbase : Text.IsUnbroken base := h
    simp only [lines, CallbackResult.errorValue, List.forall_mem_singleton, isUnbroken_append,
      hbase]
    decide
  | handle cls =>
    show ∀ line ∈ ["return " ++ "nullptr" ++ ";"], Text.IsUnbroken line
    decide
  | _ => decide

end CallbackAct

/-! ### Callbacks -/

theorem CType.IsSpelt.isUnbroken {t : CType} {ws : List String} (h : t.IsSpelt ws) :
    Text.IsUnbroken t.base := by
  rw [h.base, joinWords]
  refine isUnbroken_intercalate (by decide) fun w hw => ?_
  have hchars : AllWordChars w := (h.isWord w hw).2
  exact hchars.isUnbroken

theorem CallbackResult.isUnbroken_named {t : CType} {r : CallbackResult} (h : ofType t = .ok r)
    (ht : Text.IsUnbroken t.base) : Text.IsUnbroken r.named := by
  have hnone : Text.IsUnbroken "" := by decide
  simp only [ofType] at h
  split at h
  · split at h
    · cases h
      exact hnone
    · split at h
      · cases h
        exact hnone
      · split at h
        · cases h
          exact ht
        · cases h
  · split at h
    · next cls hcls _ =>
      cases h
      rw [Text.afterStart?_eq_some_iff.mp hcls, isUnbroken_append] at ht
      exact ht.2
    all_goals cases h
  · cases h

theorem CallbackObject.IsFor.isUnbroken {o : CallbackObject} {arg : ValueArgument} (h : o.IsFor arg)
    (harg : arg.IsWorded) : o.IsUnbroken := by
  obtain ⟨ws, hspelt, -⟩ := harg.type
  have hname : AllWordChars arg.name := harg.name.2
  have hbase := hspelt.isUnbroken
  rw [h.base, isUnbroken_append] at hbase
  exact ⟨h.name ▸ hname.isUnbroken, hbase.2⟩

theorem CallbackObject.exists_of_forall₂ {os : List CallbackObject} {args : List ValueArgument}
    (h : List.Forall₂ IsFor os args) {o : CallbackObject} (ho : o ∈ os) :
    ∃ arg ∈ args, o.IsFor arg := by
  induction h with
  | nil => cases ho
  | cons hfirst _ ih =>
    rcases List.mem_cons.mp ho with rfl | ho
    · exact ⟨_, List.mem_cons_self .., hfirst⟩
    · obtain ⟨arg, harg, hfor⟩ := ih ho
      exact ⟨arg, List.mem_cons_of_mem _ harg, hfor⟩

namespace Trampoline

variable {t : Trampoline} {name : String} {c : Callback}

theorem isUnbroken_steps (hsignature : Text.IsUnbroken t.signature)
    (hobjects : ∀ o ∈ t.objects, o.IsUnbroken) (hresult : Text.IsUnbroken t.conversion.named) :
    ∀ s ∈ t.steps, Text.IsUnbroken s.text := by
  have habout := fun o ho => CallbackAct.isUnbroken_about (hobjects o ho)
  have hborrowed : ∀ o ∈ t.borrowed, o ∈ t.objects := fun o ho => List.mem_of_mem_filter ho
  have hacts : ∀ acts, (∀ a ∈ acts, ∀ line ∈ CallbackAct.lines a, Text.IsUnbroken line) →
      ∀ s ∈ actSteps acts, Text.IsUnbroken s.text := by
    intro acts hacts s hs
    obtain ⟨line, hline, rfl⟩ := List.mem_map.mp hs
    obtain ⟨a, ha, hline⟩ := List.mem_flatMap.mp hline
    exact hacts a ha line hline
  have hsetup : ∀ s ∈ actSteps t.setup, Text.IsUnbroken s.text := by
    refine hacts _ (List.forall_mem_cons.mpr ⟨by decide, List.forall_mem_map.mpr ?_⟩)
    exact fun o ho => habout o ho _ (by simp)
  have hreturn : ∀ s ∈ actSteps t.onReturn, Text.IsUnbroken s.text := by
    refine hacts _ ?_
    simp only [onReturn, List.forall_mem_append, List.forall_mem_singleton, List.forall_mem_map]
    exact ⟨⟨⟨fun o ho => habout o ho _ (by simp), CallbackAct.isUnbroken_call hobjects⟩,
      fun o ho => habout o (hborrowed o ho) _ (by simp)⟩, CallbackAct.isUnbroken_convert hresult⟩
  have hguarded : ∀ o ∈ t.borrowed, ∀ line ∈ (CallbackAct.releaseIfHeld o).lines,
      Text.IsUnbroken line := fun o ho => habout o (hborrowed o ho) _ (by simp)
  have hfail := CallbackAct.isUnbroken_fail hresult
  have hexception : ∀ s ∈ actSteps t.onException, Text.IsUnbroken s.text := by
    refine hacts _ ?_
    simp only [onException, List.forall_mem_append, List.forall_mem_cons, List.forall_mem_map]
    exact ⟨⟨⟨by decide, List.forall_mem_nil _⟩, hguarded⟩, by decide, hfail, List.forall_mem_nil _⟩
  have herror : ∀ s ∈ actSteps t.onError, Text.IsUnbroken s.text := by
    refine hacts _ ?_
    simp only [onError, List.forall_mem_append, List.forall_mem_cons, List.forall_mem_map]
    exact ⟨⟨⟨by decide, List.forall_mem_nil _⟩, hguarded⟩, hfail, List.forall_mem_nil _⟩
  have hblock : ∀ l : List Code.Step, (∀ s ∈ l, Text.IsUnbroken s.text) →
      ∀ s ∈ Code.braced l, Text.IsUnbroken s.text := by
    intro l hl
    rw [Code.braced, List.forall_mem_append, List.forall_mem_cons, List.forall_mem_singleton]
    exact ⟨⟨by decide, hl⟩, by decide⟩
  refine List.forall_mem_cons.mpr ⟨hsignature, hblock _ ?_⟩
  simp only [List.forall_mem_append, List.forall_mem_singleton]
  exact ⟨⟨⟨⟨⟨⟨hsetup, by decide⟩, hblock _ hreturn⟩, by decide⟩, hblock _ hexception⟩, by decide⟩,
    hblock _ herror⟩

theorem IsWorded.isUnbroken_signature (h : t.IsWorded) : Text.IsUnbroken t.signature := by
  intro c hc
  constructor
  · rintro rfl
    exact h.not_mem_signature (by decide) (by decide) hc
  · rintro rfl
    exact h.not_mem_signature (by decide) (by decide) hc

theorem conversion_of_ofCallback (h : ofCallback name c = .ok t) :
    CallbackResult.ofType c.result = .ok t.conversion := by
  rw [ofCallback] at h
  split at h
  · cases h
  · obtain ⟨objects, -, h⟩ := exists_of_bind_ok h
    obtain ⟨conversion, hconversion, h⟩ := exists_of_bind_ok h
    cases h
    exact hconversion

/-- The trampoline of a callback that is made of words is cut into lines and printed again. -/
theorem print_lines_code (hname : Token.IsWord name)
    (hc : (Argument.callback c.name c.result c.args).IsWorded) (h : ofCallback name c = .ok t) :
    Code.print ((Text.lines t.code.toList).map String.ofList) = t.code := by
  have hworded := isWorded_of_ofCallback hname hc h
  obtain ⟨⟨args, user, hargs, -, hfor⟩, -⟩ := parts_of_ofCallback h
  cases hc with
  | callback _ hresult hinner =>
    obtain ⟨ws, hspelt⟩ := hresult
    have hobjects : ∀ o ∈ t.objects, o.IsUnbroken := by
      intro o ho
      obtain ⟨arg, harg, hofor⟩ := CallbackObject.exists_of_forall₂ hfor ho
      cases hinner (.value arg) (by simp [hargs, harg]) with
      | value hworded => exact hofor.isUnbroken hworded
    have hnamed : Text.IsUnbroken t.conversion.named :=
      CallbackResult.isUnbroken_named (conversion_of_ofCallback h) hspelt.isUnbroken
    have hsteps := isUnbroken_steps hworded.isUnbroken_signature hobjects hnamed
    rw [code, Text.lines_print (Code.isUnbroken_layout hsteps 0)]

end Trampoline

end IslBindings
