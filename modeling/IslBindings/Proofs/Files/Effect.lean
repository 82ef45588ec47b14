import IslBindings.Proofs.Files.Target
import IslBindings.Proofs.Lists

/-!
# What operations change

An operation on a tree changes the nodes at the targets of its paths and no others. What
every step of a run keeps, the run keeps.
-/

namespace IslBindings.Files

namespace Tree

/-! ### Single operations -/

variable {t t' : Tree} {p q : String}

theorem node?_of_read {bytes : ByteArray} (h : t.read p = .ok bytes) :
    t.node? (t.target p) = some (.file bytes) := by
  obtain ⟨node, hnode, h⟩ := exists_of_bind_ok h
  obtain ⟨place, hplace, hnode⟩ := exists_of_bind_ok hnode
  rw [← eq_of_locate hplace]
  split at hnode
  · next hn =>
    cases hnode
    cases node with
    | directory => cases h
    | file bs =>
      cases h
      exact hn
  · cases hnode

theorem node?_of_readText {text : String} (h : t.readText p = .ok text) :
    ∃ bytes, t.node? (t.target p) = some (.file bytes) ∧ String.fromUTF8? bytes = some text := by
  obtain ⟨bytes, hread, h⟩ := exists_of_bind_ok h
  refine ⟨bytes, node?_of_read hread, ?_⟩
  split at h
  · next htext =>
    cases h
    exact htext
  · cases h

theorem of_writeText {text : String} (h : t.writeText p text = .ok t') :
    t' = t.put (t.target p) (.file text.toUTF8) := by
  obtain ⟨place, hplace, h⟩ := exists_of_bind_ok h
  rw [← eq_of_locate hplace]
  split at h
  · cases h
  · cases h
    rfl

theorem of_createDirectory (h : t.createDirectory p = .ok t') :
    ∃ place, t.node? place = none ∧ t' = t.put place .directory := by
  obtain ⟨place, -, h⟩ := exists_of_bind_ok h
  split at h
  · cases h
  · next hnone =>
    cases h
    exact ⟨place, by simpa using hnone, rfl⟩

theorem of_rename (h : t.rename p q = .ok t') :
    ∃ bytes, t.node? (t.target p) = some (.file bytes) ∧
      t' = (t.erase (t.target p)).put (t.target q) (.file bytes) := by
  obtain ⟨source, hsource, h⟩ := exists_of_bind_ok h
  obtain ⟨bytes, hread, h⟩ := exists_of_bind_ok h
  obtain ⟨target, htarget, h⟩ := exists_of_bind_ok h
  rw [eq_of_locate hsource, eq_of_locate htarget] at h
  refine ⟨bytes, node?_of_read hread, ?_⟩
  split at h
  · cases h
  · cases h
    rfl

theorem run_change_ok {f : Tree → Except FileError Tree} (h : f t = .ok t') :
    (change f).run t = (.ok (), t') := by
  simp only [change, StateT.run, h]

theorem run_change_error {f : Tree → Except FileError Tree} {e : FileError} (h : f t = .error e) :
    (change f).run t = (.error e, t) := by
  simp only [change, StateT.run, h]

end Tree

/-! ### Runs -/

/-- Every run leads from a tree to one that is related to it. -/
def Moves (R : Tree → Tree → Prop) {α : Type} (x : StateM Tree α) : Prop :=
  ∀ t, R t (x.run t).2

section Moves

variable {R : Tree → Tree → Prop} {α β : Type}

theorem moves_pure (hrefl : ∀ t, R t t) (a : α) : Moves R (pure a) := hrefl

theorem moves_bind (htrans : ∀ t u v, R t u → R u v → R t v) {x : StateM Tree α}
    {f : α → StateM Tree β} (hx : Moves R x) (hf : ∀ a, Moves R (f a)) : Moves R (x >>= f) :=
  fun t => htrans t _ _ (hx t) (hf _ _)

theorem moves_change (hrefl : ∀ t, R t t) {f : Tree → Except FileError Tree}
    (hf : ∀ t t', f t = .ok t' → R t t') : Moves R (Tree.change f) := by
  intro t
  cases h : f t with
  | ok t' =>
    rw [Tree.run_change_ok h]
    exact hf t t' h
  | error e =>
    rw [Tree.run_change_error h]
    exact hrefl t

end Moves

/-! ### Runs that may fail -/

section RunOn

variable {ε α β : Type} {x : ExceptT ε (StateM Tree) α} {t t' : Tree}

def runOn (x : ExceptT ε (StateM Tree) α) (t : Tree) : Except ε α × Tree := x.run.run t

theorem runOn_bind_ok {f : α → ExceptT ε (StateM Tree) β} {a : α} (h : runOn x t = (.ok a, t')) :
    runOn (x >>= f) t = runOn (f a) t' := by
  have hx : x.run.run t = (.ok a, t') := h
  rw [runOn, ExceptT.run_bind, StateT.run_bind, hx]
  rfl

theorem runOn_bind_error {f : α → ExceptT ε (StateM Tree) β} {e : ε}
    (h : runOn x t = (.error e, t')) : runOn (x >>= f) t = (.error e, t') := by
  have hx : x.run.run t = (.error e, t') := h
  rw [runOn, ExceptT.run_bind, StateT.run_bind, hx]
  rfl

theorem runOn_map (f : α → β) (x : ExceptT ε (StateM Tree) α) (t : Tree) :
    runOn (f <$> x) t = ((runOn x t).1.map f, (runOn x t).2) := by
  obtain ⟨result, t', h⟩ : ∃ result t', runOn x t = (result, t') := ⟨_, _, rfl⟩
  rw [h, map_eq_pure_bind]
  cases result with
  | ok a =>
    rw [runOn_bind_ok h]
    rfl
  | error e =>
    rw [runOn_bind_error h]
    rfl

theorem of_runOn_bind_ok {f : α → ExceptT ε (StateM Tree) β} {b : β}
    (h : runOn (x >>= f) t = (.ok b, t')) :
    ∃ a u, runOn x t = (.ok a, u) ∧ runOn (f a) u = (.ok b, t') := by
  obtain ⟨result, u, hx⟩ : ∃ result u, runOn x t = (result, u) := ⟨_, _, rfl⟩
  cases result with
  | ok a => exact ⟨a, u, hx, (runOn_bind_ok hx).symm.trans h⟩
  | error e =>
    rw [runOn_bind_error hx] at h
    cases h

theorem of_runOn_bind_error {f : α → ExceptT ε (StateM Tree) β} {e : ε}
    (h : runOn (x >>= f) t = (.error e, t')) : runOn x t = (.error e, t') ∨
      ∃ a u, runOn x t = (.ok a, u) ∧ runOn (f a) u = (.error e, t') := by
  obtain ⟨result, u, hx⟩ : ∃ result u, runOn x t = (result, u) := ⟨_, _, rfl⟩
  cases result with
  | ok a => exact .inr ⟨a, u, hx, (runOn_bind_ok hx).symm.trans h⟩
  | error e' =>
    rw [runOn_bind_error hx] at h
    cases h
    exact .inl hx

theorem runOn_adapt {ε' : Type} (f : ε → ε') (x : ExceptT ε (StateM Tree) α) (t : Tree) :
    runOn (x.adapt f) t = ((runOn x t).1.mapError f, (runOn x t).2) := rfl

theorem of_runOn_adapt_error {ε' : Type} {f : ε → ε'} {e : ε'}
    (h : runOn (x.adapt f) t = (.error e, t')) : ∃ cause, e = f cause := by
  rw [runOn_adapt, Prod.mk.injEq] at h
  cases hx : (runOn x t).1 with
  | ok a =>
    rw [hx] at h
    cases h.1
  | error cause =>
    rw [hx] at h
    cases h.1
    exact ⟨cause, rfl⟩

/-- A run ends where it fails, or goes on from the tree of the step before. -/
theorem runOn_bind_cases {P : Tree → Prop} {f : α → ExceptT ε (StateM Tree) β}
    (herror : ∀ e t', runOn x t = (.error e, t') → P t')
    (hok : ∀ a t', runOn x t = (.ok a, t') → P (runOn (f a) t').2) :
    P (runOn (x >>= f) t).2 := by
  obtain ⟨result, t', h⟩ : ∃ result t', runOn x t = (result, t') := ⟨_, _, rfl⟩
  cases result with
  | ok a =>
    rw [runOn_bind_ok h]
    exact hok a t' h
  | error e =>
    rw [runOn_bind_error h]
    exact herror e t' h

theorem runOn_attempt (access : StateM Tree (Except FileError α)) (error : FileError → ε) (t : Tree) :
    runOn (attempt access error) t = ((access.run t).1.mapError error, (access.run t).2) := rfl

theorem of_runOn_attempt_error {access : StateM Tree (Except FileError α)} {error : FileError → ε}
    {e : ε} (h : runOn (attempt access error) t = (.error e, t')) : ∃ cause, e = error cause := by
  rw [runOn_attempt, Prod.mk.injEq] at h
  cases hx : (access.run t).1 with
  | ok a =>
    rw [hx] at h
    cases h.1
  | error cause =>
    rw [hx] at h
    cases h.1
    exact ⟨cause, rfl⟩

theorem of_runOn_change {f : Tree → Except FileError Tree} {error : FileError → ε} {u : Unit}
    (h : runOn (attempt (Tree.change f) error) t = (.ok u, t')) : f t = .ok t' := by
  rw [runOn_attempt] at h
  cases hf : f t with
  | ok s =>
    rw [Tree.run_change_ok hf] at h
    cases h
    rfl
  | error e =>
    rw [Tree.run_change_error hf] at h
    cases h

theorem of_runOn_change_error {f : Tree → Except FileError Tree} {error : FileError → ε} {e : ε}
    (h : runOn (attempt (Tree.change f) error) t = (.error e, t')) : t' = t := by
  rw [runOn_attempt] at h
  cases hf : f t with
  | ok s =>
    rw [Tree.run_change_ok hf] at h
    cases h
  | error e =>
    rw [Tree.run_change_error hf] at h
    cases h
    rfl

theorem runOn_change_cases {P : Tree → Prop} {f : Tree → Except FileError Tree}
    {error : FileError → ε} (herror : P t) (hok : ∀ t', f t = .ok t' → P t') :
    P (runOn (attempt (Tree.change f) error) t).2 := by
  rw [runOn_attempt]
  cases hf : f t with
  | ok t' =>
    rw [Tree.run_change_ok hf]
    exact hok t' hf
  | error e =>
    rw [Tree.run_change_error hf]
    exact herror

end RunOn

/-! ### What stays as it is -/

/-- Outside of some places the nodes stay as they are, and nothing but directories is new. -/
structure KeepsNodes (isOpen : Place → Prop) (t t' : Tree) : Prop where
  here : t'.here = t.here
  nodes : ∀ place, ¬isOpen place → t'.node? place = t.node? place ∨
    t.node? place = none ∧ t'.node? place = some .directory

namespace KeepsNodes

variable {isOpen isOpen' : Place → Prop} {t u v : Tree} {place : Place}

theorem refl (isOpen : Place → Prop) (t : Tree) : KeepsNodes isOpen t t :=
  ⟨rfl, fun _ _ => .inl rfl⟩

theorem trans (h : KeepsNodes isOpen t u) (h' : KeepsNodes isOpen u v) : KeepsNodes isOpen t v := by
  refine ⟨h'.here.trans h.here, fun place hclosed => ?_⟩
  rcases h.nodes place hclosed with hu | ⟨hnone, hu⟩
  · rcases h'.nodes place hclosed with hv | ⟨hnone, hv⟩
    · exact .inl (hv.trans hu)
    · exact .inr ⟨hu.symm.trans hnone, hv⟩
  · rcases h'.nodes place hclosed with hv | ⟨hnone', -⟩
    · exact .inr ⟨hnone, hv.trans hu⟩
    · rw [hu] at hnone'
      cases hnone'

theorem mono (h : KeepsNodes isOpen t u) (himp : ∀ place, isOpen place → isOpen' place) :
    KeepsNodes isOpen' t u :=
  ⟨h.here, fun place hclosed => h.nodes place (mt (himp place) hclosed)⟩

/-- In a closed place there is a file if and only if there was the same file before. -/
theorem file_iff (h : KeepsNodes isOpen t u) (hclosed : ¬isOpen place) {bytes : ByteArray} :
    u.node? place = some (.file bytes) ↔ t.node? place = some (.file bytes) := by
  rcases h.nodes place hclosed with hu | ⟨hnone, hu⟩
  · rw [hu]
  · rw [hu, hnone]
    exact iff_of_false (fun he => by cases he) fun he => by cases he

theorem put (t : Tree) (place : Place) (node : Node) : KeepsNodes (· = place) t (t.put place node) :=
  ⟨rfl, fun _ hne => .inl (Tree.node?_put_of_ne t node hne)⟩

theorem erase (t : Tree) (place : Place) : KeepsNodes (· = place) t (t.erase place) :=
  ⟨rfl, fun _ hne => .inl (Tree.node?_erase_of_ne t hne)⟩

theorem createDirectory {p : String} (h : t.createDirectory p = .ok u) :
    KeepsNodes (fun _ => False) t u := by
  obtain ⟨place, hnone, rfl⟩ := Tree.of_createDirectory h
  refine ⟨rfl, fun other _ => ?_⟩
  by_cases hother : other = place
  · subst hother
    by_cases hroot : other = []
    · subst hroot
      cases hnone
    · exact .inr ⟨hnone, Tree.node?_put_self _ _ hroot⟩
  · exact .inl (Tree.node?_put_of_ne _ _ hother)

end KeepsNodes

/-! ### New directories -/

theorem moves_ensureDirectory (p : String) :
    Moves (KeepsNodes fun _ => False) (ensureDirectory p : StateM Tree _) := by
  have htrans : ∀ t u v, KeepsNodes (fun _ => False) t u → KeepsNodes (fun _ => False) u v →
      KeepsNodes (fun _ => False) t v := fun _ _ _ => KeepsNodes.trans
  have hcreate : Moves (KeepsNodes fun _ => False) (createDirectory p : StateM Tree _) :=
    moves_change (KeepsNodes.refl _) fun _ _ => KeepsNodes.createDirectory
  refine moves_bind htrans hcreate fun result => ?_
  cases result with
  | ok u => exact moves_pure (KeepsNodes.refl _) _
  | error e =>
    have hlook : Moves (KeepsNodes fun _ => False) (isDirectory p : StateM Tree Bool) :=
      KeepsNodes.refl _
    refine moves_bind htrans hlook fun isThere => ?_
    cases isThere with
    | true => exact moves_pure (KeepsNodes.refl _) _
    | false => exact moves_pure (KeepsNodes.refl _) _

theorem moves_ensureLineage (ps : List String) :
    Moves (KeepsNodes fun _ => False) (ensureLineage ps : StateM Tree _) := by
  have htrans : ∀ t u v, KeepsNodes (fun _ => False) t u → KeepsNodes (fun _ => False) u v →
      KeepsNodes (fun _ => False) t v := fun _ _ _ => KeepsNodes.trans
  induction ps with
  | nil => exact moves_pure (KeepsNodes.refl _) _
  | cons p above ih =>
    refine moves_bind htrans (moves_ensureDirectory p) fun result => ?_
    split
    · refine moves_bind htrans ih fun result => ?_
      split
      · exact moves_ensureDirectory p
      · exact moves_pure (KeepsNodes.refl _) _
    · exact moves_pure (KeepsNodes.refl _) _

theorem moves_createDirectories (p : String) :
    Moves (KeepsNodes fun _ => False) (createDirectories p : StateM Tree _) :=
  moves_ensureLineage _

end IslBindings.Files
