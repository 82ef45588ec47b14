import IslBindings.Proofs.Lists
import IslBindings.Proofs.Registry.Contents

/-!
# The registry as a table

A table keeps the methods by class, each class from its first method on, beside the set of the
C names that have been seen. An addition makes the entry of a class before it looks at the C
name, and yet no entry stays empty: the class of a method depends on its C name alone. The main
statement says what holds of the table and of the registry after any sequence of declarations
and headers.
-/

namespace IslBindings.Registry

/-! ### Calls -/

inductive Call where
  | declaration (text : String)
  | header (text : String)
  deriving Repr

/-- The registry after a call. One that fails keeps what it has added before. -/
def step (r : Registry) : Call → Registry
  | .declaration text =>
    match r.add text with
    | .ok s => s
    | .error _ => r
  | .header text => (r.readHeader text).1

def after (calls : List Call) : Registry := calls.foldl step .empty

theorem Reachable.step {r : Registry} (h : Reachable r) (c : Call) : Reachable (r.step c) := by
  cases c with
  | declaration text =>
    simp only [Registry.step]
    split
    · next s hs => exact .add h hs
    · exact h
  | header text => exact h.addAll (Header.prototypes text)

theorem reachable_after (calls : List Call) : Reachable (after calls) := by
  suffices ∀ r, Reachable r → Reachable (calls.foldl Registry.step r) from this _ .empty
  induction calls with
  | nil => exact fun r hr => hr
  | cons c calls ih => exact fun r hr => ih _ (hr.step c)

/-! ### Tables -/

structure Table where
  entries : List (String × List Method)
  seen : List String
  deriving Repr

namespace Table

def empty : Table := ⟨[], []⟩

def classes (t : Table) : List String := t.entries.map (·.1)

def methods (t : Table) : List Method := t.entries.flatMap (·.2)

def size (t : Table) : Nat := t.entries.foldr (fun e n => e.2.length + n) 0

/-- Makes an empty entry for a class that has none. -/
def withClass (cls : String) (entries : List (String × List Method)) :
    List (String × List Method) :=
  if (entries.map (·.1)).contains cls then entries else entries ++ [(cls, [])]

def push (m : Method) (entries : List (String × List Method)) : List (String × List Method) :=
  entries.map fun e => if e.1 = m.cls then (e.1, e.2 ++ [m]) else e

def insert (t : Table) (m : Method) : Table :=
  let entries := withClass m.cls t.entries
  if t.seen.contains m.cName then { t with entries }
  else { entries := push m entries, seen := t.seen ++ [m.cName] }

def add (t : Table) (text : String) : Except PlacementError Table :=
  match methodOfText? text with
  | .error e => .error e
  | .ok none => .ok t
  | .ok (some m) => .ok (t.insert m)

def addAll (t : Table) : List String → Table × Option PlacementError
  | [] => (t, none)
  | text :: rest =>
    match t.add text with
    | .ok t => t.addAll rest
    | .error e => (t, some e)

def step (t : Table) : Call → Table
  | .declaration text =>
    match t.add text with
    | .ok u => u
    | .error _ => t
  | .header text => (t.addAll (Header.prototypes text)).1

def after (calls : List Call) : Table := calls.foldl step .empty

/-- The table of the methods of a registry. -/
def ofRegistry (r : Registry) : Table where
  entries := r.classes.map fun cls => (cls, r.methodsOf cls)
  seen := r.methods.map (·.cName)

/-! ### The table of a registry -/

section OfRegistry

variable {r : Registry}

theorem classes_ofRegistry (r : Registry) : (ofRegistry r).classes = r.classes := by
  rw [classes, ofRegistry, List.map_map]
  exact List.map_id _

theorem contains_seen (r : Registry) (cName : String) :
    (ofRegistry r).seen.contains cName = r.hasName cName := by
  rw [Bool.eq_iff_iff, List.contains_iff_mem, hasName, List.any_eq_true, ofRegistry, List.mem_map]
  simp only [beq_iff_eq]

theorem withClass_of_mem {cls : String} (h : cls ∈ r.classes) :
    withClass cls (ofRegistry r).entries = (ofRegistry r).entries := by
  have hmem : cls ∈ (ofRegistry r).classes := by
    rwa [classes_ofRegistry]
  exact if_pos (List.contains_iff_mem.mpr hmem)

theorem classes_concat (r : Registry) (m : Method) :
    (Registry.mk (r.methods ++ [m])).classes =
      if r.classes.contains m.cls then r.classes else r.classes ++ [m.cls] := by
  rw [Registry.classes, List.map_append, List.map_singleton, eraseDups_concat]
  have hcontains : (r.methods.map (·.cls)).contains m.cls = r.classes.contains m.cls := by
    rw [Bool.eq_iff_iff, List.contains_iff_mem, List.contains_iff_mem, Registry.classes,
      List.mem_eraseDups]
  rw [hcontains]
  rfl

theorem methodsOf_concat (r : Registry) (m : Method) (cls : String) :
    (Registry.mk (r.methods ++ [m])).methodsOf cls =
      if cls = m.cls then r.methodsOf cls ++ [m] else r.methodsOf cls := by
  rw [methodsOf, List.filter_append]
  split
  · next h => simp [methodsOf, h]
  · next h => simp [methodsOf, Ne.symm h]

theorem methodsOf_of_not_mem {cls : String} (h : cls ∉ r.classes) : r.methodsOf cls = [] := by
  rw [methodsOf, List.filter_eq_nil_iff]
  intro m hm hcls
  rw [Registry.classes, List.mem_eraseDups] at h
  exact h (List.mem_map.mpr ⟨m, hm, beq_iff_eq.mp hcls⟩)

theorem push_ofRegistry (r : Registry) (m : Method) :
    push m (withClass m.cls (ofRegistry r).entries) =
      (ofRegistry ⟨r.methods ++ [m]⟩).entries := by
  have hclasses : withClass m.cls (ofRegistry r).entries =
      (if r.classes.contains m.cls then r.classes else r.classes ++ [m.cls]).map
        fun cls => (cls, r.methodsOf cls) := by
    have hkeys : (ofRegistry r).entries.map (·.1) = r.classes := classes_ofRegistry r
    rw [withClass, hkeys]
    split
    · rfl
    · next h =>
      have hnone := methodsOf_of_not_mem fun hmem => h (List.contains_iff_mem.mpr hmem)
      rw [List.map_append, List.map_singleton, hnone]
      rfl
  rw [hclasses, ofRegistry, classes_concat, push, List.map_map]
  refine List.map_congr_left fun cls _ => ?_
  rw [methodsOf_concat]
  show (if cls = m.cls then _ else _) = _
  split <;> rfl

/-- A C name that has been seen has its class in the table already. -/
theorem insert_ofRegistry (r : Registry) (m : Method)
    (h : ∀ n ∈ r.methods, n.cName = m.cName → n.cls = m.cls) :
    (ofRegistry r).insert m = ofRegistry (r.insert m) := by
  simp only [insert, contains_seen]
  rw [Registry.insert]
  split
  · next hseen =>
    obtain ⟨n, hn, hname⟩ := List.any_eq_true.mp hseen
    have hcls : m.cls ∈ r.classes := by
      rw [Registry.classes, List.mem_eraseDups]
      exact List.mem_map.mpr ⟨n, hn, h n hn (beq_iff_eq.mp hname)⟩
    rw [withClass_of_mem hcls]
  · rw [push_ofRegistry]
    simp [ofRegistry]

end OfRegistry

/-! ### Tables of reachable registries -/

theorem cls_eq_of_cName {r : Registry} (hr : r.Reachable) {text : String} {m : Method}
    (hm : methodOfText? text = .ok (some m)) :
    ∀ n ∈ r.methods, n.cName = m.cName → n.cls = m.cls := by
  obtain ⟨d, -, -, hmakes⟩ := makes_of_methodOfText? hm
  obtain ⟨name, hplace, -⟩ := hmakes.placed
  refine hr.forall_methods fun text' d' n _ hn hname => ?_
  obtain ⟨name', hplace', -⟩ := hn.placed
  rw [hname, hplace, Except.ok.injEq, Placement.method.injEq] at hplace'
  exact hplace'.1.symm

theorem add_ofRegistry {r : Registry} (hr : r.Reachable) (text : String) :
    (ofRegistry r).add text = ofRegistry <$> r.add text := by
  rw [add, Registry.add]
  cases hm : methodOfText? text with
  | error e => rfl
  | ok m? =>
    cases m? with
    | none => rfl
    | some m => exact congrArg Except.ok (insert_ofRegistry r m (cls_eq_of_cName hr hm))

theorem addAll_ofRegistry {r : Registry} (hr : r.Reachable) (texts : List String) :
    (ofRegistry r).addAll texts = (ofRegistry (r.addAll texts).1, (r.addAll texts).2) := by
  induction texts generalizing r with
  | nil => rfl
  | cons text texts ih =>
    rw [addAll, Registry.addAll, add_ofRegistry hr]
    cases hs : r.add text with
    | error e => rfl
    | ok s => exact ih (.add hr hs)

theorem step_ofRegistry {r : Registry} (hr : r.Reachable) (c : Call) :
    (ofRegistry r).step c = ofRegistry (r.step c) := by
  cases c with
  | declaration text =>
    simp only [step, Registry.step, add_ofRegistry hr]
    cases r.add text <;> rfl
  | header text => simp only [step, Registry.step, readHeader, addAll_ofRegistry hr]

theorem after_eq (calls : List Call) : after calls = ofRegistry (Registry.after calls) := by
  suffices ∀ r : Registry, r.Reachable →
      calls.foldl step (ofRegistry r) = ofRegistry (calls.foldl Registry.step r) from
    this _ .empty
  induction calls with
  | nil => exact fun r _ => rfl
  | cons c calls ih =>
    intro r hr
    rw [List.foldl_cons, List.foldl_cons, step_ofRegistry hr]
    exact ih _ (hr.step c)

/-! ### What a table keeps -/

structure IsWellKept (t : Table) : Prop where
  /-- A C name is registered once, and the names that are registered are those seen. -/
  distinct : (t.methods.map (·.cName)).Nodup
  seen : ∀ cName, cName ∈ t.seen ↔ cName ∈ t.methods.map (·.cName)
  seenOnce : t.seen.Nodup
  counted : t.size = t.seen.length
  keys : t.classes.Nodup
  placed : ∀ e ∈ t.entries, e.1 ∈ Catalogue.classes ∧ e.2 ≠ [] ∧ ∀ m ∈ e.2, m.cls = e.1
  named : ∀ m ∈ t.methods, m.IsNamed
  typed : ∀ m ∈ t.methods, m.result.IsBare
  received : ∀ m ∈ t.methods, m.isStatic = false →
    ∃ arg rest, m.args = .value arg :: rest ∧ arg.name = "self"

theorem methods_perm (r : Registry) : (ofRegistry r).methods.Perm r.methods := by
  have hperm := flatMap_fibers_perm (f := Method.cls) (l := r.methods)
    (nodup_eraseDups (r.methods.map (·.cls)))
  have hall : (r.methods.filter fun m => ((r.methods.map (·.cls)).eraseDups).contains m.cls) =
      r.methods := by
    rw [List.filter_eq_self]
    intro m hm
    rw [List.contains_iff_mem, List.mem_eraseDups]
    exact List.mem_map_of_mem hm
  rw [hall] at hperm
  rw [methods, ofRegistry, List.flatMap_map]
  exact hperm

theorem size_eq (t : Table) : t.size = t.methods.length := by
  rw [size, methods]
  induction t.entries with
  | nil => rfl
  | cons e entries ih => rw [List.foldr_cons, ih, List.flatMap_cons, List.length_append]

theorem size_ofRegistry (r : Registry) : (ofRegistry r).size = r.size := by
  rw [size_eq, (methods_perm r).length_eq, Registry.size]

theorem isWellKept_ofRegistry {r : Registry} (hr : r.Reachable) : (ofRegistry r).IsWellKept where
  distinct := ((methods_perm r).map _).nodup_iff.mpr hr.sound.distinct
  seen cName := ((methods_perm r).map _).mem_iff.symm
  seenOnce := hr.sound.distinct
  counted := by
    rw [size_ofRegistry, Registry.size, ofRegistry, List.length_map]
  keys := by
    rw [classes_ofRegistry]
    exact nodup_eraseDups _
  placed e he := by
    obtain ⟨cls, hcls, rfl⟩ := List.mem_map.mp he
    rw [Registry.classes, List.mem_eraseDups] at hcls
    obtain ⟨m, hm, rfl⟩ := List.mem_map.mp hcls
    have hof : m ∈ r.methodsOf m.cls := List.mem_filter.mpr ⟨hm, beq_self_eq_true _⟩
    exact ⟨hr.sound.placed m hm, List.ne_nil_of_mem hof,
      fun n hn => beq_iff_eq.mp (List.mem_filter.mp hn).2⟩
  named m hm := hr.forall_methods (fun _ _ _ _ h => h.isNamed) m ((methods_perm r).mem_iff.mp hm)
  typed m hm :=
    hr.forall_methods (fun _ _ _ hd h => h.isBare hd) m ((methods_perm r).mem_iff.mp hm)
  received m hm :=
    hr.forall_methods (fun _ _ _ _ h => h.first_of_not_isStatic) m ((methods_perm r).mem_iff.mp hm)

/-- After any sequence of declarations and headers, with or without errors, the table is well
kept, and it is the table of the registry. -/
theorem isWellKept_after (calls : List Call) :
    (after calls).IsWellKept ∧ after calls = ofRegistry (Registry.after calls) ∧
      (Registry.after calls).size = (after calls).seen.length := by
  have heq := after_eq calls
  have hkept := isWellKept_ofRegistry (reachable_after calls)
  rw [heq]
  refine ⟨hkept, rfl, ?_⟩
  rw [← hkept.counted, size_ofRegistry]

end Table

end IslBindings.Registry
