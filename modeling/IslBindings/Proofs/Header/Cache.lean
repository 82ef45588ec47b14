import IslBindings.Proofs.Digest
import IslBindings.Proofs.Header.Sources

/-!
# The cache of expanded headers

What a call does to its cache directory and what it answers. It reads the file that the
digest of its sources names, or puts the expansion of its sources there; no other file that
a digest names is new.
-/

namespace IslBindings.Header

open Files

/-! ### Keys -/

namespace Sources

theorem mem_key {p : Sources} {c : Char} (h : c ∈ p.key.toList) : c ∈ Digest.hexDigits :=
  Digest.mem_sha256 h

theorem isName_key (p : Sources) : Path.IsName p.key := by
  refine Path.isName_of_length (fun h => absurd (mem_key h) (by decide)) ?_
  rw [key, Digest.length_sha256]
  decide

end Sources

/-- The name under which a file is written before it is moved to its place. -/
def passingName (name : String) : String := name ++ ".tmp"

theorem isName_passingName {name : String} (h : Path.IsName name) : Path.IsName (passingName name) := by
  refine Path.isName_of_length ?_ ?_
  · rw [passingName, String.toList_append, List.mem_append, not_or]
    exact ⟨h.noSlash, by decide⟩
  · rw [passingName, String.toList_append, List.length_append]
    have hending : 2 < ".tmp".toList.length := by decide
    omega

/-- No digest is a passing name. -/
theorem Sources.key_ne_passingName (p : Sources) (name : String) : p.key ≠ passingName name := by
  intro he
  have hdot : '.' ∈ p.key.toList := by
    rw [he, passingName, String.toList_append]
    exact List.mem_append_right _ (by decide)
  exact absurd (mem_key hdot) (by decide)

/-! ### Storing -/

/-- In a directory no file is new but one of a name with a text, and passing ones. -/
def Stores (cache : Place) (name text : String) (t t' : Tree) : Prop :=
  ∀ other bytes, other ≠ passingName name → t'.node? (other :: cache) = some (.file bytes) →
    t.node? (other :: cache) = some (.file bytes) ∨ other = name ∧ bytes = text.toUTF8

/-- The trees in which the storing of a file can end: directories are made, the file is written
under its passing name, and it is moved. -/
inductive StoreEnds (cache : Place) (name text : String) (t : Tree) : Tree → Prop
  | created {u : Tree} : KeepsNodes (fun _ => False) t u → StoreEnds cache name text t u
  | passed {u : Tree} : KeepsNodes (fun _ => False) t u →
      StoreEnds cache name text t (u.put (passingName name :: cache) (.file text.toUTF8))
  | moved {u : Tree} : KeepsNodes (fun _ => False) t u → StoreEnds cache name text t
      (((u.put (passingName name :: cache) (.file text.toUTF8)).erase (passingName name :: cache)).put
        (name :: cache) (.file text.toUTF8))

theorem storeEnds_store (dir : String) {name : String} (hname : Path.IsName name) (text : String)
    (t : Tree) : StoreEnds (t.target dir) name text t
      (runOn (SearchPath.store dir (Path.join dir name) text) t).2 := by
  have hjoin : Path.join dir name ++ ".tmp" = Path.join dir (passingName name) :=
    Path.join_append hname
  have hdirs : ∀ result u, runOn (attempt (createDirectories dir) (ReadError.cacheNotCreated dir)) t =
      (result, u) → KeepsNodes (fun _ => False) t u := by
    intro result u h
    rw [runOn_attempt, Prod.mk.injEq] at h
    rw [← h.2]
    exact moves_createDirectories dir t
  rw [SearchPath.store, hjoin]
  refine runOn_bind_cases (fun e u h => .created (hdirs _ u h)) fun _ u h => ?_
  have hu := hdirs _ u h
  have hpassing : u.target (Path.join dir (passingName name)) = passingName name :: t.target dir := by
    rw [Tree.target_join u dir (isName_passingName hname), Tree.target_congr hu.here]
  refine runOn_bind_cases (fun e v h => ?_) fun _ v h => ?_
  · rw [of_runOn_change_error h]
    exact .created hu
  have hv := Tree.of_writeText (of_runOn_change h)
  rw [hpassing] at hv
  subst hv
  refine runOn_change_cases (.passed hu) fun w hrename => ?_
  obtain ⟨bytes, hbytes, rfl⟩ := Tree.of_rename hrename
  have hhere : ∀ p, (u.put (passingName name :: t.target dir) (.file text.toUTF8)).target p =
      u.target p := fun p => Tree.target_congr (Tree.here_put ..) p
  rw [hhere, hpassing, Tree.node?_put_self _ _ (by simp), Option.some.injEq,
    Node.file.injEq] at hbytes
  rw [hhere, hhere, hpassing, Tree.target_join u dir hname, Tree.target_congr hu.here, ← hbytes]
  exact .moved hu

theorem stores_of_storeEnds {cache : Place} {name text : String} {t t' : Tree}
    (h : StoreEnds cache name text t t') : Stores cache name text t t' := by
  intro other bytes hne hfile
  have hpassing : other :: cache ≠ passingName name :: cache := fun he => hne (List.cons.inj he).1
  cases h with
  | created hu => exact .inl ((hu.file_iff not_false).mp hfile)
  | passed hu =>
    rw [Tree.node?_put_of_ne _ _ hpassing] at hfile
    exact .inl ((hu.file_iff not_false).mp hfile)
  | moved hu =>
    by_cases hother : other = name
    · subst hother
      rw [Tree.node?_put_self _ _ (by simp), Option.some.injEq, Node.file.injEq] at hfile
      exact .inr ⟨rfl, hfile.symm⟩
    · rw [Tree.node?_put_of_ne _ _ fun he => hother (List.cons.inj he).1,
        Tree.node?_erase_of_ne _ hpassing, Tree.node?_put_of_ne _ _ hpassing] at hfile
      exact .inl ((hu.file_iff not_false).mp hfile)

/-- The storing of a file leaves all as it is but that file and the passing one. -/
theorem StoreEnds.keepsNodes {cache : Place} {name text : String} {t t' : Tree}
    (h : StoreEnds cache name text t t') : KeepsNodes
      (fun place => place = name :: cache ∨ place = passingName name :: cache) t t' := by
  have hdirs : ∀ {u}, KeepsNodes (fun _ => False) t u → KeepsNodes
      (fun place => place = name :: cache ∨ place = passingName name :: cache) t u :=
    fun hu => hu.mono fun _ => False.elim
  cases h with
  | created hu => exact hdirs hu
  | passed hu => exact (hdirs hu).trans ((KeepsNodes.put _ _ _).mono fun _ => .inr)
  | moved hu =>
    have hpassed := (hdirs hu).trans ((KeepsNodes.put _ (passingName name :: cache)
      (.file text.toUTF8)).mono fun _ => .inr)
    exact (hpassed.trans ((KeepsNodes.erase _ _).mono fun _ => .inr)).trans
      ((KeepsNodes.put _ _ _).mono fun _ => .inl)

/-! ### Calls -/

/-- A request for an expanded header, in the tree that it finds. -/
structure Call where
  path : SearchPath
  header : String
  tree : Tree

namespace Call

variable {c : Call} {dir text : String} {p : Sources}

def result (c : Call) : Except ReadError String := (runOn (c.path.preprocessed c.header) c.tree).1

/-- The tree that the call leaves. -/
def after (c : Call) : Tree := (runOn (c.path.preprocessed c.header) c.tree).2

/-- What the call answers without a cache. -/
def uncached (c : Call) : Except ReadError String :=
  (runOn (c.path.uncached.preprocessed c.header) c.tree).1

def sources (c : Call) : Except ReadError Sources := (runOn (c.path.sources c.header) c.tree).1

theorem runOn_sources (c : Call) : runOn (c.path.sources c.header) c.tree = (c.sources, c.tree) :=
  Prod.ext rfl (SearchPath.reads_sources c.path c.header c.tree)

theorem runOn_expanded (c : Call) : runOn (c.path.expanded c.header) c.tree =
    (c.sources.map Sources.expansion, c.tree) := by
  rw [SearchPath.expanded_eq, runOn_map, runOn_sources]

theorem runOn_cacheKey (c : Call) : runOn (c.path.cacheKey c.header) c.tree =
    (c.sources.map Sources.key, c.tree) := by
  rw [SearchPath.cacheKey_eq, runOn_map, runOn_sources]

theorem uncached_eq (c : Call) : c.uncached = c.sources.map Sources.expansion := by
  have hexpanded : c.path.uncached.preprocessed c.header =
      (c.path.uncached.expanded c.header : ExceptT ReadError (StateM Tree) String) := rfl
  rw [uncached, hexpanded, SearchPath.expanded_eq, SearchPath.sources_uncached,
    ← SearchPath.expanded_eq, runOn_expanded]

theorem uncached_of_sources (h : c.sources = .ok p) : c.uncached = .ok p.expansion := by
  rw [uncached_eq, h]
  rfl

theorem exists_sources_of_uncached (h : c.uncached = .ok text) :
    ∃ p, c.sources = .ok p ∧ text = p.expansion := by
  rw [uncached_eq] at h
  exact exists_of_map_ok h

/-- Without a cache directory a call answers as without a cache and changes nothing. -/
theorem run_of_none (hdir : c.path.cacheDir = none) : c.result = c.uncached ∧ c.after = c.tree := by
  have hpath : c.path.uncached = c.path := by
    rw [SearchPath.uncached, ← hdir]
  have hexpanded : c.path.preprocessed c.header =
      (c.path.expanded c.header : ExceptT ReadError (StateM Tree) String) := by
    rw [SearchPath.preprocessed, hdir]
  refine ⟨by rw [result, uncached, hpath], ?_⟩
  rw [after, hexpanded, runOn_expanded]

section Cached

/-- The text at the key of the sources, or else their expansion, which is stored. -/
def orStored (c : Call) (dir : String) (p : Sources) :
    Except FileError String → Except ReadError String × Tree
  | .ok text => (.ok text, c.tree)
  | .error _ =>
    match runOn (SearchPath.store dir (Path.join dir p.key) p.expansion) c.tree with
    | (.ok (), t) => (.ok p.expansion, t)
    | (.error e, t) => (.error e, t)

theorem run_eq (hdir : c.path.cacheDir = some dir) (h : c.sources = .ok p) :
    runOn (c.path.preprocessed c.header) c.tree =
      c.orStored dir p (c.tree.readText (Path.join dir p.key)) := by
  have hkey : runOn (c.path.cacheKey c.header) c.tree = (.ok p.key, c.tree) := by
    rw [runOn_cacheKey, h]
    rfl
  have hread : runOn (liftM (readText (Path.join dir p.key) : StateM Tree _) :
      ExceptT ReadError (StateM Tree) _) c.tree =
        (.ok (c.tree.readText (Path.join dir p.key)), c.tree) := rfl
  rw [SearchPath.preprocessed, hdir]
  refine (runOn_bind_ok hkey).trans ((runOn_bind_ok hread).trans ?_)
  cases c.tree.readText (Path.join dir p.key) with
  | ok text => rfl
  | error e =>
    have hexpanded : runOn (c.path.expanded c.header) c.tree = (.ok p.expansion, c.tree) := by
      rw [runOn_expanded, h]
      rfl
    refine (runOn_bind_ok hexpanded).trans ?_
    simp only [orStored]
    split
    · next hstore => rw [runOn_bind_ok hstore]; rfl
    · next hstore => rw [runOn_bind_error hstore]

theorem run_error (hdir : c.path.cacheDir = some dir) {e : ReadError} (h : c.sources = .error e) :
    runOn (c.path.preprocessed c.header) c.tree = (.error e, c.tree) := by
  have hkey : runOn (c.path.cacheKey c.header) c.tree = (.error e, c.tree) := by
    rw [runOn_cacheKey, h]
    rfl
  rw [SearchPath.preprocessed, hdir]
  exact runOn_bind_error hkey

/-- A call answers with the text at the key of its sources, or with their expansion. -/
theorem exists_of_result (hdir : c.path.cacheDir = some dir) (h : c.result = .ok text) :
    ∃ p, c.sources = .ok p ∧
      (c.tree.readText (Path.join dir p.key) = .ok text ∨ text = p.expansion) := by
  rw [result] at h
  cases hp : c.sources with
  | error e =>
    rw [run_error hdir hp] at h
    cases h
  | ok p =>
    refine ⟨p, rfl, ?_⟩
    rw [run_eq hdir hp] at h
    cases hread : c.tree.readText (Path.join dir p.key) with
    | ok found =>
      rw [hread] at h
      cases h
      exact .inl rfl
    | error e =>
      rw [hread] at h
      simp only [orStored] at h
      split at h
      · cases h
        exact .inr rfl
      · cases h

theorem after_of_error (hdir : c.path.cacheDir = some dir) {e : ReadError}
    (h : c.sources = .error e) : c.after = c.tree := by
  rw [after, run_error hdir h]

theorem storeEnds_or_eq_after (hdir : c.path.cacheDir = some dir) (h : c.sources = .ok p) :
    c.after = c.tree ∨ StoreEnds (c.tree.target dir) p.key p.expansion c.tree c.after := by
  rw [after, run_eq hdir h]
  cases c.tree.readText (Path.join dir p.key) with
  | ok found => exact .inl rfl
  | error e =>
    have hends := storeEnds_store dir p.isName_key p.expansion c.tree
    simp only [orStored]
    split
    · next hstore =>
      rw [hstore] at hends
      exact .inr hends
    · next hstore =>
      rw [hstore] at hends
      exact .inr hends

theorem stores_after (hdir : c.path.cacheDir = some dir) (h : c.sources = .ok p) :
    Stores (c.tree.target dir) p.key p.expansion c.tree c.after := by
  rcases storeEnds_or_eq_after hdir h with hafter | hends
  · rw [hafter]
    exact fun _ _ _ hfile => .inl hfile
  · exact stores_of_storeEnds hends

end Cached

end Call

end IslBindings.Header
