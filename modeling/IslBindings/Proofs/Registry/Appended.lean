import IslBindings.Proofs.Registry.FirstDeclared

/-!
# Appended methods

A declaration that is read into a table either is an error and changes nothing, or changes nothing,
or puts one method of a new C name behind those of its class. A header that stops at an error keeps
what the declarations before that one have added, and one that is read to its end tells how many
methods it has added.

Reading is stated here step by step, with a table that is changed in place: an error does not take
back what has been done before it.
-/

namespace IslBindings.Registry.Table

/-! ### Reading in place -/

/-- Changes a table and may stop with an error. -/
abbrev Action (α : Type) : Type := ExceptT PlacementError (StateM Table) α

/-- What comes out of an action, and the table that it leaves. -/
def outcome {α : Type} (act : Action α) (t : Table) : Except PlacementError α × Table :=
  act.run.run t

/-- Makes the entry of the class, then looks at the C name, then puts the method there. -/
def place (m : Method) : Action Unit := do
  modify fun t => { t with entries := withClass m.cls t.entries }
  if (← get).seen.contains m.cName then
    return
  modify fun t => { t with seen := t.seen ++ [m.cName] }
  modify fun t => { t with entries := push m t.entries }

def register (text : String) : Action Unit := do
  match Declaration.ofText text with
  | .error _ => return
  | .ok d =>
    if isSkipped d.cName then
      return
    match ← (Placement.ofName d.cName : Except PlacementError Placement) with
    | .ignored => return
    | .method cls name =>
      if isExcluded cls name then
        return
      match method? d cls name with
      | none => return
      | some m => place m

/-- Registers the declarations of a header and tells how many methods there are more than before. -/
def registerHeader (text : String) : Action Nat := do
  let before := (← get).size
  (Header.prototypes text).forM register
  return (← get).size - before

section Outcome

variable {t : Table}

theorem outcome_bind {α β : Type} (act : Action α) (next : α → Action β) (t : Table) :
    outcome (act >>= next) t =
      match outcome act t with
      | (.ok a, u) => outcome (next a) u
      | (.error e, u) => (.error e, u) := by
  show ((act.run.run t).1 |> ExceptT.bindCont next).run (act.run.run t).2 = _
  rw [outcome]
  rcases act.run.run t with ⟨a | e, u⟩ <;> rfl

theorem outcome_place (m : Method) (t : Table) : outcome (place m) t = (.ok (), t.insert m) := by
  rw [insert]
  show outcome (if t.seen.contains m.cName then pure () else _) { t with entries := _ } = _
  split <;> rfl

theorem outcome_register (text : String) (t : Table) :
    outcome (register text) t =
      match t.add text with
      | .ok u => (.ok (), u)
      | .error e => (.error e, t) := by
  rw [register, add, methodOfText?]
  cases Declaration.ofText text with
  | error _ => rfl
  | ok d =>
    dsimp only
    split
    · rfl
    · cases Placement.ofName d.cName with
      | error e => rfl
      | ok p =>
        cases p with
        | ignored => rfl
        | method cls name =>
          show outcome (if isExcluded cls name then pure () else _) t = _
          dsimp only
          split
          · rfl
          · cases method? d cls name with
            | none => rfl
            | some m => exact outcome_place m t

theorem outcome_forM_register (texts : List String) (t : Table) :
    outcome (texts.forM register) t =
      match t.addAll texts with
      | (u, none) => (.ok (), u)
      | (u, some e) => (.error e, u) := by
  induction texts generalizing t with
  | nil => rfl
  | cons text texts ih =>
    show outcome (register text >>= fun _ => texts.forM register) t = _
    rw [outcome_bind, outcome_register, addAll]
    cases t.add text with
    | error e => rfl
    | ok u => exact ih u

theorem outcome_registerHeader (text : String) (t : Table) :
    outcome (registerHeader text) t = ((t.read text).2, (t.read text).1) := by
  have hforM := outcome_forM_register (Header.prototypes text) t
  show outcome ((Header.prototypes text).forM register >>= _) t = _
  rw [outcome_bind, hforM, read]
  rcases t.addAll (Header.prototypes text) with ⟨u, none | e⟩ <;> rfl

end Outcome

/-! ### One method more -/

/-- The method stands behind those of its class, which has an entry or gets one at the end. -/
inductive Appends (m : Method) :
    List (String × List Method) → List (String × List Method) → Prop
  | newClass {entries : List (String × List Method)} (new : m.cls ∉ entries.map (·.1)) :
      Appends m entries (entries ++ [(m.cls, [m])])
  | knownClass (front back : List (String × List Method)) (ms : List Method) :
      Appends m (front ++ (m.cls, ms) :: back) (front ++ (m.cls, ms ++ [m]) :: back)

/-- The second table has, beside what the first one has, one method of a new C name. -/
structure Registers (t : Table) (m : Method) (u : Table) : Prop where
  unseen : m.cName ∉ t.seen
  unregistered : ∀ n ∈ t.methods, n.cName ≠ m.cName
  entries : Appends m t.entries u.entries
  seen : u.seen = t.seen ++ [m.cName]

section Appends

variable {m : Method} {entries : List (String × List Method)}

theorem push_append (m : Method) (front back : List (String × List Method)) :
    push m (front ++ back) = push m front ++ push m back :=
  List.map_append

theorem push_of_not_mem (h : m.cls ∉ entries.map (·.1)) : push m entries = entries := by
  have hkeep : ∀ e ∈ entries, (if e.1 = m.cls then (e.1, e.2 ++ [m]) else e) = e := fun e he =>
    if_neg fun heq => h (List.mem_map.mpr ⟨e, he, heq⟩)
  rw [push, List.map_congr_left hkeep, List.map_id']

theorem push_entry (m : Method) (ms : List Method) :
    push m [(m.cls, ms)] = [(m.cls, ms ++ [m])] := by
  simp [push]

theorem appends_push (h : (entries.map (·.1)).Nodup) :
    Appends m entries (push m (withClass m.cls entries)) := by
  by_cases hmem : m.cls ∈ entries.map (·.1)
  · obtain ⟨⟨cls, ms⟩, he, hcls⟩ := List.mem_map.mp hmem
    obtain rfl : cls = m.cls := hcls
    obtain ⟨front, back, rfl⟩ := List.append_of_mem he
    -- The class is the key of this entry alone.
    rw [List.map_append, List.map_cons, List.nodup_append] at h
    obtain ⟨-, hback, hfront⟩ := h
    have hnotFront : m.cls ∉ front.map (·.1) := fun hc =>
      hfront m.cls hc m.cls List.mem_cons_self rfl
    rw [withClass, if_pos (List.contains_iff_mem.mpr hmem), push_append, push_of_not_mem hnotFront,
      ← List.singleton_append, push_append, push_entry,
      push_of_not_mem (List.nodup_cons.mp hback).1]
    exact .knownClass front back ms
  · have hnot : (entries.map (·.1)).contains m.cls = false :=
      Bool.eq_false_iff.mpr fun hc => hmem (List.contains_iff_mem.mp hc)
    rw [withClass, hnot, if_neg (by simp), push_append, push_of_not_mem hmem, push_entry]
    exact .newClass hmem

end Appends

theorem registers_insert {t : Table} {m : Method} (ht : t.IsWellKept) (h : m.cName ∉ t.seen) :
    t.Registers m (t.insert m) := by
  have hseen : t.seen.contains m.cName = false :=
    Bool.eq_false_iff.mpr fun hc => h (List.contains_iff_mem.mp hc)
  have hinsert : t.insert m =
      ⟨push m (withClass m.cls t.entries), t.seen ++ [m.cName]⟩ := by
    rw [insert, hseen]
    rfl
  rw [hinsert]
  exact
    { unseen := h
      unregistered := fun n hn heq => h ((ht.seen _).mpr (List.mem_map.mpr ⟨n, hn, heq⟩))
      entries := appends_push ht.keys
      seen := rfl }

/-! ### Declarations one after another -/

/-- Registers the declarations without an error; the methods are those that they append. -/
inductive Adds : Table → List String → List Method → Table → Prop
  | nil (t : Table) : Adds t [] [] t
  | same {t u : Table} {text : String} {texts : List String} {ms : List Method}
      (registered : outcome (register text) t = (.ok (), t)) (rest : Adds t texts ms u) :
      Adds t (text :: texts) ms u
  | append {t s u : Table} {text : String} {texts : List String} {m : Method} {ms : List Method}
      (registered : outcome (register text) t = (.ok (), s)) (appended : t.Registers m s)
      (rest : Adds s texts ms u) : Adds t (text :: texts) (m :: ms) u

section OfRegistry

variable {r : Registry}

theorem add_cases (r : Registry) (text : String) :
    (∃ e, r.add text = .error e) ∨ r.add text = .ok r ∨
      ∃ m, methodOfText? text = .ok (some m) ∧ r.hasName m.cName = false ∧
        r.add text = .ok ⟨r.methods ++ [m]⟩ := by
  rw [Registry.add]
  cases methodOfText? text with
  | error e => exact .inl ⟨e, rfl⟩
  | ok m? =>
    cases m? with
    | none => exact .inr (.inl rfl)
    | some m =>
      dsimp only
      rw [Registry.insert]
      cases hname : r.hasName m.cName with
      | true => exact .inr (.inl rfl)
      | false => exact .inr (.inr ⟨m, rfl, hname, rfl⟩)

theorem registers_concat (hr : r.Reachable) {text : String} {m : Method}
    (hm : methodOfText? text = .ok (some m)) (hname : r.hasName m.cName = false) :
    (ofRegistry r).Registers m (ofRegistry ⟨r.methods ++ [m]⟩) := by
  have hinsert : (ofRegistry r).insert m = ofRegistry ⟨r.methods ++ [m]⟩ := by
    rw [insert_ofRegistry r m (cls_eq_of_cName hr hm), Registry.insert, hname]
    rfl
  rw [← hinsert]
  refine registers_insert (isWellKept_ofRegistry hr) ?_
  rw [← List.contains_iff_mem, contains_seen, hname]
  exact Bool.false_ne_true

theorem outcome_register_ofRegistry (hr : r.Reachable) (text : String) :
    outcome (register text) (ofRegistry r) =
      match r.add text with
      | .ok s => (.ok (), ofRegistry s)
      | .error e => (.error e, ofRegistry r) := by
  rw [outcome_register, add_ofRegistry hr]
  cases r.add text <;> rfl

/-- What a declaration does to a registry and to its table. -/
inductive Declares (r : Registry) (t : Table) (text : String) : Prop
  | refused {e : PlacementError} (outcome : outcome (register text) t = (.error e, t))
      (add : r.add text = .error e)
  | left (outcome : outcome (register text) t = (.ok (), t)) (add : r.add text = .ok r)
  | appended {m : Method} {u : Table} (outcome : outcome (register text) t = (.ok (), u))
      (registers : t.Registers m u) (add : r.add text = .ok ⟨r.methods ++ [m]⟩)
      (table : u = ofRegistry ⟨r.methods ++ [m]⟩)

theorem declares (hr : r.Reachable) (text : String) : Declares r (ofRegistry r) text := by
  have houtcome := outcome_register_ofRegistry hr text
  rcases add_cases r text with ⟨e, he⟩ | hsame | ⟨m, hm, hname, hadd⟩
  · rw [he] at houtcome
    exact .refused houtcome he
  · rw [hsame] at houtcome
    exact .left houtcome hsame
  · rw [hadd] at houtcome
    exact .appended houtcome (registers_concat hr hm hname) hadd rfl

end OfRegistry

/-! ### Up to an error -/

/-- Reading comes to its end, or to a declaration that is an error. -/
inductive Stops (s : Registry) : List String → Option PlacementError → Prop
  | done : Stops s [] none
  | failed {failing : String} {later : List String} {e : PlacementError}
      (error : s.add failing = .error e) : Stops s (failing :: later) (some e)

/-- The declarations that are read are registered, and those behind an error are not. -/
structure Reads (r : Registry) (texts before rest : List String) (ms : List Method) : Prop where
  split : texts = before ++ rest
  adds : (ofRegistry r).Adds before ms (ofRegistry ⟨r.methods ++ ms⟩)
  left : (r.addAll texts).1 = ⟨r.methods ++ ms⟩
  stops : Stops ⟨r.methods ++ ms⟩ rest (r.addAll texts).2

section Reads

variable {r : Registry} {text : String} {texts before rest : List String} {m : Method}
  {ms : List Method}

theorem addAll_cons_of_add {s : Registry} (h : r.add text = .ok s) (texts : List String) :
    r.addAll (text :: texts) = s.addAll texts := by
  rw [Registry.addAll, h]

theorem Reads.nil (r : Registry) : Reads r [] [] [] [] where
  split := rfl
  adds := by
    rw [List.append_nil]
    exact .nil _
  left := by
    rw [List.append_nil]
    rfl
  stops := .done

theorem Reads.failed {e : PlacementError} (h : r.add text = .error e) :
    Reads r (text :: texts) [] (text :: texts) [] := by
  have hall : r.addAll (text :: texts) = (r, some e) := by
    rw [Registry.addAll, h]
  constructor
  case split => rfl
  case adds =>
    rw [List.append_nil]
    exact .nil _
  case left => rw [hall, List.append_nil]
  case stops =>
    rw [hall, List.append_nil]
    exact .failed h

theorem Reads.same (hsame : r.add text = .ok r)
    (houtcome : outcome (register text) (ofRegistry r) = (.ok (), ofRegistry r))
    (h : Reads r texts before rest ms) : Reads r (text :: texts) (text :: before) rest ms := by
  have hall := addAll_cons_of_add hsame texts
  constructor
  case split => rw [h.split, List.cons_append]
  case adds => exact .same houtcome h.adds
  case left => rw [hall, h.left]
  case stops =>
    rw [hall]
    exact h.stops

theorem Reads.append (hadd : r.add text = .ok ⟨r.methods ++ [m]⟩)
    (houtcome : outcome (register text) (ofRegistry r) =
      (.ok (), ofRegistry ⟨r.methods ++ [m]⟩))
    (hregisters : (ofRegistry r).Registers m (ofRegistry ⟨r.methods ++ [m]⟩))
    (h : Reads ⟨r.methods ++ [m]⟩ texts before rest ms) :
    Reads r (text :: texts) (text :: before) rest (m :: ms) := by
  have hall := addAll_cons_of_add hadd texts
  have hmethods : r.methods ++ m :: ms = (r.methods ++ [m]) ++ ms := List.append_cons ..
  constructor
  case split => rw [h.split, List.cons_append]
  case adds =>
    rw [hmethods]
    exact .append houtcome hregisters h.adds
  case left => rw [hall, hmethods, h.left]
  case stops =>
    rw [hall, hmethods]
    exact h.stops

theorem exists_reads (hr : r.Reachable) (texts : List String) :
    ∃ before rest ms, Reads r texts before rest ms := by
  induction texts generalizing r with
  | nil => exact ⟨[], [], [], .nil r⟩
  | cons text texts ih =>
    cases declares hr text with
    | refused _ hadd => exact ⟨[], text :: texts, [], .failed hadd⟩
    | left houtcome hadd =>
      obtain ⟨before, rest, ms, h⟩ := ih hr
      exact ⟨text :: before, rest, ms, .same hadd houtcome h⟩
    | appended houtcome hregisters hadd htable =>
      subst htable
      obtain ⟨before, rest, ms, h⟩ := ih (.add hr hadd)
      exact ⟨text :: before, rest, _ :: ms, .append hadd houtcome hregisters h⟩

theorem Reads.read (h : Reads r (Header.prototypes text) before rest ms) :
    (rest = [] ∧ r.read text = (⟨r.methods ++ ms⟩, .ok ms.length)) ∨
      ∃ failing later e, rest = failing :: later ∧
        Registry.add ⟨r.methods ++ ms⟩ failing = .error e ∧
        r.read text = (⟨r.methods ++ ms⟩, .error e) := by
  have hleft := h.left
  have hstops := h.stops
  rw [Registry.read, readHeader]
  generalize r.addAll (Header.prototypes text) = result at hleft hstops ⊢
  obtain ⟨s, e?⟩ := result
  obtain rfl : s = ⟨r.methods ++ ms⟩ := hleft
  cases hstops with
  | done =>
    refine .inl ⟨rfl, ?_⟩
    have hsize : (Registry.mk (r.methods ++ ms)).size - r.size = ms.length := by
      rw [Registry.size, List.length_append, Registry.size, Nat.add_sub_cancel_left]
    dsimp only
    rw [hsize]
  | failed error => exact .inr ⟨_, _, _, rfl, error, rfl⟩

end Reads

/-! ### Appending -/

/-- A declaration and a header append to a registry, and to its table, or leave them. -/
structure AppendsOnly (r : Registry) (t : Table) : Prop where
  declaration : ∀ text, Declares r t text
  /-- Either all declarations are added, and the methods are counted, or those before an error. -/
  header : ∀ text, ∃ before ms u, t.Adds before ms u ∧ u = ofRegistry ⟨r.methods ++ ms⟩ ∧
    ((before = Header.prototypes text ∧
        outcome (registerHeader text) t = (.ok ms.length, u) ∧
        r.read text = (⟨r.methods ++ ms⟩, .ok ms.length)) ∨
      ∃ failing later e, Header.prototypes text = before ++ failing :: later ∧
        outcome (register failing) u = (.error e, u) ∧
        outcome (registerHeader text) t = (.error e, u) ∧
        r.read text = (⟨r.methods ++ ms⟩, .error e))

theorem appendsOnly_ofRegistry {r : Registry} (hr : r.Reachable) :
    AppendsOnly r (ofRegistry r) := by
  constructor
  case declaration => exact declares hr
  case header =>
    intro text
    obtain ⟨before, rest, ms, h⟩ := exists_reads hr (Header.prototypes text)
    have houtcome := outcome_registerHeader text (ofRegistry r)
    rw [read_ofRegistry hr] at houtcome
    have hreachable : Reachable ⟨r.methods ++ ms⟩ := h.left ▸ hr.addAll (Header.prototypes text)
    refine ⟨before, ms, _, h.adds, rfl, ?_⟩
    rcases h.read with ⟨rfl, hread⟩ | ⟨failing, later, e, rfl, herror, hread⟩
    · rw [hread] at houtcome
      exact .inl ⟨by rw [h.split, List.append_nil], houtcome, hread⟩
    · have hfailing := outcome_register_ofRegistry hreachable failing
      rw [hread] at houtcome
      rw [herror] at hfailing
      exact .inr ⟨failing, later, e, h.split, hfailing, houtcome, hread⟩

/-- Whatever has been declared and read before, with or without errors, what comes next appends
methods or changes nothing. -/
theorem appendsOnly_after (calls : List Call) :
    Table.after calls = ofRegistry (Registry.after calls) ∧
      AppendsOnly (Registry.after calls) (Table.after calls) := by
  rw [after_eq]
  exact ⟨rfl, appendsOnly_ofRegistry (reachable_after calls)⟩

end IslBindings.Registry.Table
