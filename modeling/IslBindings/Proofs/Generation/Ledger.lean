import IslBindings.Proofs.Generation.Entries

/-!
# The ledger of upcasts

The ledger passes through all pairs of classes of a run. What a piece of the run forwards to a
class under a name is told from the methods that it goes through, and from whether the name has
been forwarded to the class before; such pieces compose. The ledger also records which names
have wrappers, and only the wrappers of a part change that.
-/

namespace IslBindings

/-! ### Upcasts -/

/-- A method of a specific class that is forwarded to a general one. -/
structure Upcast where
  general : String
  specific : String
  method : Method
  deriving Repr

namespace Upcast

/-- The upcasts that a list of pairs offers, forwarded or not. -/
def offered (r : Registry) (pairs : List (String × String)) : List Upcast :=
  pairs.flatMap fun pair => (r.methodsOf pair.2).map fun m => ⟨pair.1, pair.2, m⟩

theorem offered_cons (r : Registry) (pair : String × String) (pairs : List (String × String)) :
    offered r (pair :: pairs) = offered r [pair] ++ offered r pairs := by
  rw [offered, List.flatMap_cons, offered, List.flatMap_singleton, offered]

def isFor (u : Upcast) (cls name : String) : Bool := u.general == cls && u.method.name == name

def statement (u : Upcast) : String := Fold.statement ⟨u.general, u.specific, []⟩ u.method

end Upcast

def Fold.upcasts (f : Fold) : List Upcast := f.methods.map fun m => ⟨f.general, f.specific, m⟩

def Part.upcasts (p : Part) : List Upcast := p.folds.flatMap Fold.upcasts

theorem Fold.statement_upcast (f : Fold) (m : Method) :
    Upcast.statement ⟨f.general, f.specific, m⟩ = f.statement m := by
  unfold Upcast.statement statement doc
  rfl

theorem Fold.map_statement_upcasts (f : Fold) :
    f.upcasts.map Upcast.statement = f.methods.map f.statement := by
  rw [upcasts, List.map_map]
  exact List.map_congr_left fun m _ => f.statement_upcast m

theorem Fold.code_eq (f : Fold) :
    f.code = "\n// \x7b\x7b\x7b Upcasts from " ++ f.general ++ " to " ++ f.specific ++ "\n\n" ++
      String.join (f.upcasts.map Upcast.statement) ++ "\n// \x7d\x7d\x7d\n\n" := by
  unfold code
  rw [map_statement_upcasts]

theorem Upcast.cls_of_mem_offered {r : Registry} {pairs : List (String × String)} {u : Upcast}
    (h : u ∈ offered r pairs) : u.method.cls = u.specific := by
  obtain ⟨pair, -, h⟩ := List.mem_flatMap.mp h
  obtain ⟨m, hm, rfl⟩ := List.mem_map.mp h
  exact Registry.cls_of_mem_methodsOf hm

theorem Upcast.statement_eq (u : Upcast) (hcls : u.method.cls = u.specific) :
    u.statement = "wrap_" ++ u.general ++ ".def(\"" ++ u.method.name ++ "\", isl::" ++ u.specific ++
      "_" ++ u.method.name ++ ", " ++ Code.literal ("\n\nUpcast from " ++
        Catalogue.classRole u.general ++ " to " ++ Catalogue.classRole u.specific ++ "\n") ++
      ");\n" := by
  unfold statement Fold.statement Fold.doc Method.wrapperName
  rw [hcls]
  simp only [String.append_assoc]

/-! ### What a ledger records -/

namespace Ledger

theorem contains_insert (pairs : List (String × String)) (cls' name' cls name : String) :
    (pairs.insert (cls', name')).contains (cls, name) =
      (pairs.contains (cls, name) || (cls' == cls && name' == name)) := by
  rw [Bool.eq_iff_iff, List.contains_iff_mem, List.mem_insert_iff, Bool.or_eq_true,
    List.contains_iff_mem, Bool.and_eq_true, beq_iff_eq, beq_iff_eq, Prod.mk.injEq, or_comm,
    @eq_comm _ cls, @eq_comm _ name]

theorem isWrapped_recordWrapped (l : Ledger) (m : Method) (cls name : String) :
    (l.recordWrapped m).isWrapped cls name =
      (l.isWrapped cls name || (m.cls == cls && m.name == name)) :=
  contains_insert ..

theorem isForwarded_recordForwarded (l : Ledger) (general other cls name : String) :
    (l.recordForwarded general other).isForwarded cls name =
      (l.isForwarded cls name || (general == cls && other == name)) :=
  contains_insert ..

end Ledger

/-- The method has a receiver and is no integer overload, and its name has a wrapper. -/
def Method.isForwardable (m : Method) (wraps : String → String → Bool) : Bool :=
  !m.isIntegerOverload && !m.isStatic && wraps m.cls m.name

/-! ### Pieces of a run -/

/-- What is forwarded of the upcasts of one name to one class: all whose arguments differ from
those of the class's own method, or the first if the class has no such method. -/
def admitted (wraps : String → String → Bool) (isDone : Bool) :
    Option Method → List Upcast → List Upcast
  | some own, us =>
    us.filter fun u => own.isForwardable wraps && own.overloadTypes != u.method.overloadTypes
  | none, us => if isDone then [] else us.take 1

theorem admitted_append (wraps : String → String → Bool) (isDone : Bool) (own : Option Method)
    (us vs : List Upcast) :
    admitted wraps isDone own (us ++ vs) =
      admitted wraps isDone own us ++ admitted wraps (isDone || !us.isEmpty) own vs := by
  cases own with
  | some own => exact List.filter_append ..
  | none =>
    cases isDone with
    | true => rfl
    | false =>
      cases us with
      | nil => rfl
      | cons u us => simp [admitted]

theorem mem_of_mem_admitted {wraps : String → String → Bool} {isDone : Bool}
    {own : Option Method} {us : List Upcast} {u : Upcast}
    (h : u ∈ admitted wraps isDone own us) : u ∈ us := by
  cases own with
  | some own => exact (List.mem_filter.mp h).1
  | none =>
    cases isDone with
    | true => simp [admitted] at h
    | false => exact List.mem_of_mem_take h

section Pieces

variable {r : Registry} {wraps : String → String → Bool} {cls name : String}

/-- The upcast is one for the class and the name, of a method that can be forwarded. -/
def Upcast.isCandidate (wraps : String → String → Bool) (cls name : String) (u : Upcast) : Bool :=
  u.isFor cls name && u.method.isForwardable wraps

/-- A piece of a run goes from one ledger to the next through the upcasts that it is offered,
and makes some of them. -/
structure Passes (r : Registry) (wraps : String → String → Bool) (cls name : String)
    (l : Ledger) (offered made : List Upcast) (l' : Ledger) : Prop where
  made : made.filter (·.isFor cls name) =
    admitted wraps (l.isForwarded cls name) ((r.methodsOf cls).find? (·.name == name))
      (offered.filter (Upcast.isCandidate wraps cls name))
  marked : (r.methodsOf cls).find? (·.name == name) = none →
    l'.isForwarded cls name =
      (l.isForwarded cls name || !(offered.filter (Upcast.isCandidate wraps cls name)).isEmpty)

theorem passes_nil {l l' : Ledger} (h : l'.forwarded = l.forwarded) :
    Passes r wraps cls name l [] [] l' where
  made := by cases (r.methodsOf cls).find? (·.name == name) <;> simp [admitted]
  marked _ := by simp [Ledger.isForwarded, h]

theorem Passes.append {l l' l'' : Ledger} {us vs made made' : List Upcast}
    (h : Passes r wraps cls name l us made l') (h' : Passes r wraps cls name l' vs made' l'') :
    Passes r wraps cls name l (us ++ vs) (made ++ made') l'' where
  made := by
    rw [List.filter_append, List.filter_append, h.made, h'.made, admitted_append]
    cases hown : (r.methodsOf cls).find? (·.name == name) with
    | some own => rfl
    | none => rw [h.marked hown]
  marked hown := by
    rw [h'.marked hown, h.marked hown, List.filter_append]
    cases us.filter (Upcast.isCandidate wraps cls name) <;> simp

end Pieces

/-! ### One method -/

namespace Fold

section Choose

variable {general : String} {own : List Method} {l : Ledger} {m : Method}

theorem choose_unforwardable (h : l.isForwardable m = false) :
    choose general own l m = (false, l) := by
  rw [choose, h]
  rfl

theorem choose_beside {other : Method} (h : l.isForwardable m = true)
    (hown : own.find? (·.name == m.name) = some other) :
    choose general own l m =
      (l.isForwardable other && other.overloadTypes != m.overloadTypes, l) := by
  rw [choose, h, hown]
  rfl

theorem choose_missing (h : l.isForwardable m = true)
    (hown : own.find? (·.name == m.name) = none) :
    choose general own l m =
      (!l.isForwarded general m.name, l.recordForwarded general m.name) := by
  rw [choose, h, hown, if_pos rfl]
  cases hdone : l.isForwarded general m.name with
  | true => simp [Ledger.recordForwarded, List.insert_of_mem, List.contains_iff_mem.mp hdone]
  | false => rfl

end Choose

theorem wrapped_choose (general : String) (own : List Method) (l : Ledger) (m : Method) :
    (choose general own l m).2.wrapped = l.wrapped := by
  cases h : l.isForwardable m with
  | false => rw [choose_unforwardable h]
  | true =>
    cases hown : own.find? (·.name == m.name) with
    | some other => rw [choose_beside h hown]
    | none => rw [choose_missing h hown, Ledger.recordForwarded]

theorem wrapped_select (general : String) (own : List Method) (l : Ledger) (ms : List Method) :
    (select general own l ms).2.wrapped = l.wrapped := by
  induction ms generalizing l with
  | nil => rfl
  | cons m ms ih => exact (ih _).trans (wrapped_choose general own l m)

end Fold

def Ledger.AgreesOn (l : Ledger) (wraps : String → String → Bool) (cls : String) : Prop :=
  ∀ name, l.isWrapped cls name = wraps cls name

theorem Ledger.AgreesOn.isForwardable {l : Ledger} {wraps : String → String → Bool} {m : Method}
    (h : l.AgreesOn wraps m.cls) : l.isForwardable m = m.isForwardable wraps := by
  rw [Ledger.isForwardable, Method.isForwardable, h m.name]

theorem Ledger.AgreesOn.congr {l l' : Ledger} {wraps : String → String → Bool} {cls : String}
    (h : l.AgreesOn wraps cls) (hw : l'.wrapped = l.wrapped) : l'.AgreesOn wraps cls := by
  intro name
  rw [← h name, isWrapped, isWrapped, hw]

section Pass

variable {r : Registry} {wraps : String → String → Bool} {cls name general specific : String}
  {l : Ledger}

theorem passes_other {u : Upcast} {made : List Upcast} {l' : Ledger}
    (hu : u.isCandidate wraps cls name = false) (hmade : made.filter (·.isFor cls name) = [])
    (hl : l'.isForwarded cls name = l.isForwarded cls name) :
    Passes r wraps cls name l [u] made l' where
  made := by
    rw [hmade, List.filter_cons_of_neg (by simp [hu]), List.filter_nil]
    cases (r.methodsOf cls).find? (·.name == name) <;> simp [admitted]
  marked _ := by simp [hu, hl]

theorem passes_missing {u : Upcast} (hu : u.isCandidate wraps cls name = true)
    (hown : (r.methodsOf cls).find? (·.name == name) = none) :
    Passes r wraps cls name l [u] (if !l.isForwarded cls name then [u] else [])
      (l.recordForwarded cls name) where
  made := by
    have hfor : u.isFor cls name = true := (Bool.and_eq_true_iff.mp hu).1
    rw [hown, List.filter_cons_of_pos hu, List.filter_nil, admitted]
    cases l.isForwarded cls name with
    | true => rfl
    | false => exact List.filter_cons_of_pos hfor
  marked _ := by
    rw [Ledger.isForwarded_recordForwarded, List.filter_cons_of_pos hu]
    simp

theorem passes_beside {u : Upcast} {own : Method} (hu : u.isCandidate wraps cls name = true)
    (hown : (r.methodsOf cls).find? (·.name == name) = some own) :
    Passes r wraps cls name l [u]
      (if own.isForwardable wraps && own.overloadTypes != u.method.overloadTypes then [u] else [])
      l where
  made := by
    have hfor : u.isFor cls name = true := (Bool.and_eq_true_iff.mp hu).1
    rw [hown, List.filter_cons_of_pos hu, List.filter_nil, admitted, List.filter_cons,
      List.filter_nil]
    split
    · exact List.filter_cons_of_pos hfor
    · rfl
  marked hnone := by
    rw [hown] at hnone
    cases hnone

theorem passes_choose (specific : String) {m : Method} (hgeneral : l.AgreesOn wraps general)
    (hm : l.AgreesOn wraps m.cls) :
    Passes r wraps cls name l [⟨general, specific, m⟩]
      (if (Fold.choose general (r.methodsOf general) l m).1 then [⟨general, specific, m⟩] else [])
      (Fold.choose general (r.methodsOf general) l m).2 := by
  let u : Upcast := ⟨general, specific, m⟩
  show Passes r wraps cls name l [u] (if _ then [u] else []) _
  have hforwardable : l.isForwardable m = u.method.isForwardable wraps := hm.isForwardable
  cases hu : u.isCandidate wraps cls name with
  | true =>
    obtain ⟨hfor, hl⟩ := Bool.and_eq_true_iff.mp hu
    obtain ⟨hcls, hname⟩ := Bool.and_eq_true_iff.mp hfor
    rw [← hforwardable] at hl
    rw [beq_iff_eq] at hcls hname
    subst hcls hname
    cases hown : (r.methodsOf general).find? (·.name == m.name) with
    | some own =>
      have hsame : l.AgreesOn wraps own.cls := by
        rw [Registry.cls_of_mem_methodsOf (List.mem_of_find?_eq_some hown)]
        exact hgeneral
      rw [Fold.choose_beside hl hown, hsame.isForwardable]
      exact passes_beside hu hown
    | none =>
      rw [Fold.choose_missing hl hown]
      exact passes_missing hu hown
  | false =>
    -- The upcast may be made all the same, but then it is one for another class or name.
    cases hl : l.isForwardable m with
    | false =>
      rw [Fold.choose_unforwardable hl]
      exact passes_other hu rfl rfl
    | true =>
      have hfor : u.isFor cls name = false := by
        rwa [Upcast.isCandidate, ← hforwardable, hl, Bool.and_true] at hu
      have hmade : ∀ b : Bool, (if b then [u] else []).filter (·.isFor cls name) = [] := by
        intro b
        cases b <;> simp [hfor]
      cases hown : (r.methodsOf general).find? (·.name == m.name) with
      | some own =>
        rw [Fold.choose_beside hl hown]
        exact passes_other hu (hmade _) rfl
      | none =>
        rw [Fold.choose_missing hl hown]
        refine passes_other hu (hmade _) ?_
        rw [Ledger.isForwarded_recordForwarded]
        exact (congrArg _ hfor).trans (Bool.or_false _)

theorem passes_select (hgeneral : l.AgreesOn wraps general) (hspecific : l.AgreesOn wraps specific)
    {ms : List Method} (hms : ∀ m ∈ ms, m.cls = specific) :
    Passes r wraps cls name l (ms.map fun m => ⟨general, specific, m⟩)
      ((Fold.select general (r.methodsOf general) l ms).1.map fun m => ⟨general, specific, m⟩)
      (Fold.select general (r.methodsOf general) l ms).2 := by
  induction ms generalizing l with
  | nil => exact passes_nil rfl
  | cons m ms ih =>
    have hm : l.AgreesOn wraps m.cls := by
      rw [hms m (List.mem_cons_self ..)]
      exact hspecific
    have hwrapped := Fold.wrapped_choose general (r.methodsOf general) l m
    have hrest := ih (hgeneral.congr hwrapped) (hspecific.congr hwrapped)
      fun n hn => hms n (List.mem_cons_of_mem _ hn)
    have hall := (passes_choose specific hgeneral hm).append hrest
    rw [Fold.select]
    cases hchoose : Fold.choose general (r.methodsOf general) l m with
    | mk isForwarded l' =>
      rw [hchoose] at hall
      cases isForwarded <;> exact hall

theorem passes_ofPair (hgeneral : l.AgreesOn wraps general)
    (hspecific : l.AgreesOn wraps specific) :
    Passes r wraps cls name l (Upcast.offered r [(general, specific)])
      (Fold.ofPair r l general specific).1.upcasts (Fold.ofPair r l general specific).2 := by
  rw [Upcast.offered, List.flatMap_singleton]
  exact passes_select hgeneral hspecific fun m hm => Registry.cls_of_mem_methodsOf hm

end Pass

end IslBindings
