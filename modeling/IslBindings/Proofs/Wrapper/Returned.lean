import IslBindings.Proofs.Wrapper.Acceptance
import IslBindings.Proofs.Wrapper.Positions

/-!
# What a wrapper returns

The caller gets the result of the function and, behind it, what the function has returned through
its arguments, in the order of the signature. A single value is returned on its own, several are
packed into a tuple, and the documentation describes the same values in the same order.
-/

namespace IslBindings

/-! ### Values for the caller -/

/-- A value for the caller, and what the documentation says it is. -/
structure Item where
  expression : String
  description : String

/-- What the function returns through a value argument. -/
def ValueArgument.item? (arg : ValueArgument) : Option Item :=
  match arg.type.depth with
  | .value => none
  | .pointer =>
    if arg.name = "exact" ∨ arg.name = "tight" then
      if arg.type.base = "isl_bool" then some ⟨"(bool) arg_" ++ arg.name, arg.name ++ " (bool)"⟩
      else if arg.type.base = "int" then some ⟨"arg_" ++ arg.name, arg.name ++ " (int)"⟩
      else none
    else none
  | .pointerToPointer =>
    arg.islClass?.map fun cls =>
      ⟨"py_ret_" ++ arg.name, arg.name ++ " (" ++ Catalogue.classRole cls ++ ")"⟩

instance (m : Method) : Decidable m.HoldsCallbacks := inferInstanceAs (Decidable (_ ∧ _))

/-- What comes back through the arguments. A callback that the object holds on to comes back, so
that the caller can keep it alive. -/
def Argument.items (m : Method) : List Argument → List Item
  | .value arg :: rest => arg.item?.toList ++ items m rest
  | .callback name _ _ :: _ :: rest =>
    if m.HoldsCallbacks then
      ⟨"py_" ++ name, "(opaque handle to manage callback lifetime)"⟩ :: items m rest
    else items m rest
  | _ => []

namespace Method

def items (m : Method) : List Item := Argument.items m m.args

/-- The result of the function as a value for the caller. A status is none. -/
def primary? (m : Method) : Option Item :=
  let base := m.result.base
  match m.result.depth with
  | .value =>
    if base = "void" ∨ base = "isl_stat" then none
    else if base = "isl_bool" ∨ (base = "int" ∧ m.isPredicate) then some ⟨"(bool) result", "bool"⟩
    else if base = "int" ∨ base = "isl_size" then some ⟨"result", "int"⟩
    else some ⟨"result", base⟩
  | _ =>
    if base = "char" ∨ base = "const char" then some ⟨"py_result", "string"⟩
    else if base = "void" then
      some ⟨"py::borrow<py::object>((PyObject *) result)", "a user-specified python object"⟩
    else (Text.afterStart? "isl_" base).map fun cls =>
      match m.receiver?, m.isMutator with
      | some receiver, true => ⟨"py_" ++ receiver.name, Catalogue.classRole cls ++ " (self)"⟩
      | _, _ => ⟨"handle_from_new_ptr(uptr_result.release())", Catalogue.classRole cls⟩

end Method

/-- The primary value and the items behind it as one value. -/
inductive Packs : Option Item → List Item → Item → Prop where
  | bare {primary : Item} : Packs (some primary) [] primary
  | single {only : Item} :
    Packs none [only] ⟨"py::cast(" ++ only.expression ++ ")", only.description⟩
  | tuple {primary? : Option Item} {items parts : List Item} :
      parts = primary?.toList ++ items → 2 ≤ parts.length →
        Packs primary? items
          ⟨"py::make_tuple(" ++ ", ".intercalate (parts.map Item.expression) ++ ")",
            "tuple: (" ++ ", ".intercalate (parts.map Item.description) ++ ")"⟩

/-- What a caller gets after a successful call. -/
inductive Method.Delivers (m : Method) : Option Item → Prop where
  | packed {item : Item} : Packs m.primary? m.items item → Delivers m (some item)
  | status : m.result.depth = .value → m.result.base = "isl_stat" → m.items = [] →
      Delivers m (some ⟨"result", "None"⟩)
  | nothing : m.result.depth = .value → m.result.base = "void" → m.items = [] → Delivers m none

/-! ### Answers -/

namespace Statement

/-- What a statement returns to the caller if the call has succeeded. -/
def answer? : Statement → Option String
  | .give a => some a.expression
  | .giveResult => some "result"
  | .repoint receiver _ => some ("py_" ++ receiver)
  | .giveObject _ _ a => some a.expression
  | .giveText => some "py_result"
  | .giveUserObject => some "py::borrow<py::object>((PyObject *) result)"
  | _ => none

theorem stage_of_answer? {t : Statement} {value : String} (h : t.answer? = some value) :
    t.stage = .conversion := by
  cases t <;> first | rfl | cases h

theorem answer?_of_allIn {stage : Stage} {l : List Statement} (hl : AllIn stage l)
    (hstage : stage ≠ .conversion) : ∀ t ∈ l, t.answer? = none := by
  intro t ht
  cases h : t.answer? with
  | none => rfl
  | some value => exact absurd ((hl t ht).symm.trans (stage_of_answer? h)) hstage

end Statement

/-- The statements end in returning the item, and return nothing before. -/
def Gives (statements : List Statement) (item : Item) : Prop :=
  ∃ before last, statements = before ++ [last] ∧ last.answer? = some item.expression ∧
    ("return " ++ item.expression ++ ";" ∈ last.lines ∨
      "  return " ++ item.expression ++ ";" ∈ last.lines) ∧
    ∀ t ∈ before, t.answer? = none

theorem Gives.append {before statements : List Statement} {item : Item}
    (h : Gives statements item) (hbefore : ∀ t ∈ before, t.answer? = none) :
    Gives (before ++ statements) item := by
  obtain ⟨between, last, rfl, hlast, hline, hbetween⟩ := h
  exact ⟨before ++ between, last, (List.append_assoc ..).symm, hlast, hline,
    List.forall_mem_append.mpr ⟨hbefore, hbetween⟩⟩

def Primary.item (p : Primary) : Item := ⟨p.expression, p.description⟩

def Auxiliary.item (a : Auxiliary) : Item := ⟨a.expression, a.description⟩

namespace Answer

def item (a : Answer) : Item := ⟨a.expression, a.description⟩

def primaryItem? (a : Answer) : Option Item := a.primary.map Primary.item

def extraItems (a : Answer) : List Item := a.extras.map Auxiliary.item

def parts (a : Answer) : List Item := a.primaryItem?.toList ++ a.extraItems

end Answer

/-! ### What comes back through the arguments -/

namespace Contribution

variable {m : Method} {index : Nat} {arg : ValueArgument} {s : ArgShape} {c : Contribution}

theorem auxiliary_of_ofCallback {cb : Callback} (h : ofCallback m cb = .ok c) :
    c.auxiliary = if m.HoldsCallbacks then some (.callback cb.name) else none := by
  obtain ⟨t, -, h⟩ := exists_of_bind_ok h
  cases h
  simp only [keepsCallback_iff]

theorem auxiliary_of_ofValueOrInt (h : ofValueOrInt m arg = .ok c) : c.auxiliary = none := by
  rw [ofValueOrInt] at h
  split at h
  · cases h
  · cases h
    rfl

theorem auxiliary_of_ofHandleOut {cls : String} (h : ofHandleOut arg cls = .ok c) :
    c.auxiliary = some (.object cls arg.name) := by
  rw [ofHandleOut] at h
  split at h
  · cases h
    rfl
  · cases h

theorem auxiliary_of_suits (hs : ArgShape.Suits index arg s) (hc : ofShape m (index, s) = .ok c) :
    c.auxiliary.map Auxiliary.item = arg.item? := by
  unfold ValueArgument.item?
  cases hs with
  | scalar hdepth _ =>
    cases hc
    rw [hdepth]
    rfl
  | text hdepth hbase =>
    cases hc
    rw [hdepth]
    simp [hbase, ofText]
  | flag hdepth hbase hname =>
    cases hc
    have hname : arg.name = "exact" ∨ arg.name = "tight" := by
      simpa [Catalogue.flagNames] using hname
    rw [hdepth]
    rcases hbase with hbase | hbase
    · simp [hname, hbase, ofFlag, Auxiliary.item, Auxiliary.expression, Auxiliary.description]
    · simp [hname, hbase, ofFlag, Auxiliary.item, Auxiliary.expression, Auxiliary.description]
  | valueOrInt hdepth hbase hindex =>
    rw [auxiliary_of_ofValueOrInt hc, hdepth]
    simp [hbase]
  | handle hdepth hbase hbool hval =>
    have hint : arg.type.base ≠ "int" := hbase ▸ isl_append_ne (by decide)
    rw [auxiliary_of_ofHandle hc, hdepth]
    simp [hint, hbool]
  | handleOut hdepth hbase =>
    rw [auxiliary_of_ofHandleOut hc, hdepth, ValueArgument.islClass?_eq_some_iff.mpr hbase]
    rfl

theorem items_of_shapes {args : List Argument} {shapes : List (Nat × ArgShape)}
    {cs : List Contribution} (h : ArgShape.Shapes index args shapes)
    (hrun : shapes.mapM (ofShape m) = .ok cs) :
    (cs.filterMap (·.auxiliary)).map Auxiliary.item = Argument.items m args := by
  induction h generalizing cs with
  | nil =>
    cases hrun
    rfl
  | value hs _ ih =>
    obtain ⟨c, cs, hc, hcs, rfl⟩ := exists_of_mapM_cons hrun
    rw [filterMap_cons_toList, List.map_append, ih hcs, Argument.items,
      ← auxiliary_of_suits (ArgShape.suits_of_ofValue hs) hc]
    cases c.auxiliary <;> rfl
  | callback _ ih =>
    obtain ⟨c, cs, hc, hcs, rfl⟩ := exists_of_mapM_cons hrun
    rw [filterMap_cons_toList, List.map_append, ih hcs, Argument.items, auxiliary_of_ofCallback hc]
    split <;> rfl

end Contribution

/-! ### Conversions -/

/-- The result as a value for the caller, by its shape. -/
def ResultShape.primary? (m : Method) : ResultShape → Option Item
  | .nothing => none
  | .status => none
  | .int isPredicate => some (if isPredicate then Primary.bool.item else Primary.int.item)
  | .size => some Primary.int.item
  | .bool => some Primary.bool.item
  | .scalar => some ⟨"result", m.result.base⟩
  | .text => some ⟨"py_result", "string"⟩
  | .userObject =>
    some ⟨"py::borrow<py::object>((PyObject *) result)", "a user-specified python object"⟩
  | .handle cls =>
    match m.receiver?, m.isMutator with
    | some receiver, true => some ⟨"py_" ++ receiver.name, Catalogue.classRole cls ++ " (self)"⟩
    | _, _ => some (Primary.object cls).item

namespace Conversion

structure Returns (c : Conversion) (delivered : Option Item) : Prop where
  statements : match delivered with
    | some item => Gives c.statements item
    | none => ∀ t ∈ c.statements, t.answer? = none
  description : c.description = (delivered.map Item.description).getD "None"

variable {m : Method} {extras : List Auxiliary} {c : Conversion}

/-- What is given comes from the signature. -/
def Suits (c : Conversion) (m : Method) : Prop :=
  ∃ delivered, m.Delivers delivered ∧ c.Returns delivered

theorem extras_of_alone {refusal : Unsupported} {d : Conversion}
    (h : alone extras refusal d = .ok c) : extras = [] ∧ c = d := by
  rw [alone] at h
  split at h
  · next hempty =>
    cases h
    exact ⟨List.isEmpty_iff.mp hempty, rfl⟩
  · cases h

end Conversion

/-! ### Wrappers -/

namespace Wrapper

/-- On success the body returns an item and nothing else, and the documentation describes it. -/
structure Returns (w : Wrapper) (delivered : Option Item) : Prop where
  body : match delivered with
    | some item => Gives w.body item
    | none => ∀ t ∈ w.body, t.answer? = none
  doc : w.docLines.getLast? = some (":return: " ++ (delivered.map Item.description).getD "None")

theorem IsStaged.returns {w : Wrapper} (hw : w.IsStaged) {delivered : Option Item}
    (h : w.conversion.Returns delivered) : w.Returns delivered := by
  have hcall : AllIn .call [w.callStatement] := allIn_cons rfl allIn_nil
  have hbefore : ∀ t ∈ w.beforeCall ++ [w.callStatement] ++ w.fixups, t.answer? = none :=
    List.forall_mem_append.mpr ⟨List.forall_mem_append.mpr
      ⟨Statement.answer?_of_allIn hw.preparation (by decide),
        Statement.answer?_of_allIn hcall (by decide)⟩,
      Statement.answer?_of_allIn hw.release (by decide)⟩
  have hstatements := h.statements
  constructor
  case body =>
    cases delivered with
    | some item => exact hstatements.append hbefore
    | none => exact List.forall_mem_append.mpr ⟨hbefore, hstatements⟩
  case doc => rw [docLines, List.getLast?_concat, h.description]

end Wrapper

namespace Method

variable {m : Method} {w : Wrapper}

end Method

end IslBindings
