import IslBindings.Proofs.Generation.Entries
import IslBindings.Proofs.Header.Cache
import IslBindings.Run

/-!
# What a run writes

Until the last part is generated, a run writes nothing but files of the cache. So a run that fails
before leaves every other file as it was. A run that comes to its end has then written the two
files of each part, and no others.
-/

namespace IslBindings

open Files Header

/-! ### Reading headers -/

/-- A place in the cache directory that is named by a digest, or by its passing name. -/
def Header.SearchPath.IsCacheEntry (s : SearchPath) (t : Tree) (place : Place) : Prop :=
  ∃ dir, s.cacheDir = some dir ∧ ∃ p : Sources,
    place = p.key :: t.target dir ∨ place = passingName p.key :: t.target dir

theorem Header.SearchPath.isCacheEntry_congr {s : SearchPath} {t t' : Tree} (h : t'.here = t.here) :
    s.IsCacheEntry t' = s.IsCacheEntry t := by
  funext place
  simp only [IsCacheEntry, Tree.target_congr h]

theorem Header.Call.keepsNodes_after (c : Call) :
    KeepsNodes (c.path.IsCacheEntry c.tree) c.tree c.after := by
  cases hdir : c.path.cacheDir with
  | none =>
    rw [(run_of_none hdir).2]
    exact .refl _ _
  | some dir =>
    cases hp : c.sources with
    | error e =>
      rw [after_of_error hdir hp]
      exact .refl _ _
    | ok p =>
      rcases storeEnds_or_eq_after hdir hp with hafter | hends
      · rw [hafter]
        exact .refl _ _
      · exact hends.keepsNodes.mono fun place hplace => ⟨dir, hdir, p, hplace⟩

/-- The failure is one of the output, so that all parts have been generated. -/
def Failure.isOfOutput : Failure → Bool
  | .outputNotCreated .. => true
  | .outputNotWritten .. => true
  | _ => false

namespace Registry

variable {path : SearchPath} {headers : List String} {r : Registry} {t u : Tree}

theorem keepsNodes_readFiles (path : SearchPath) (headers : List String) (r : Registry) (t : Tree) :
    KeepsNodes (path.IsCacheEntry t) t (runOn (r.readFiles path headers) t).2 := by
  induction headers generalizing r t with
  | nil => exact .refl _ _
  | cons header rest ih =>
    have hcall : ∀ result u, runOn ((path.preprocessed header).adapt (Failure.reading header)) t =
        (result, u) → KeepsNodes (path.IsCacheEntry t) t u := by
      intro result u h
      rw [runOn_adapt, Prod.mk.injEq] at h
      rw [← h.2]
      exact Call.keepsNodes_after { path, header, tree := t }
    rw [readFiles]
    refine runOn_bind_cases (fun e u h => hcall _ u h) fun text u h => ?_
    have hu := hcall _ u h
    refine hu.trans ?_
    rw [← SearchPath.isCacheEntry_congr hu.here]
    split
    · exact ih _ u
    · exact .refl _ _

theorem isOfOutput_of_readFiles {e : Failure}
    (h : runOn (r.readFiles path headers) t = (.error e, u)) : e.isOfOutput = false := by
  induction headers generalizing r t with
  | nil => cases h
  | cons header rest ih =>
    rcases of_runOn_bind_error h with h | ⟨text, v, -, h⟩
    · obtain ⟨cause, rfl⟩ := of_runOn_adapt_error h
      rfl
    · split at h
      · exact ih h
      · cases h
        rfl

end Registry

/-! ### Generating -/

namespace Settings

variable {s : Settings} {base path : String} {t u : Tree} {e : Failure}

theorem keepsNodes_generate (s : Settings) (base : String) (t : Tree) :
    KeepsNodes ((s.searchPath base).IsCacheEntry t) t (runOn (s.generate base) t).2 := by
  have hread := Registry.keepsNodes_readFiles (s.searchPath base) s.headerList .empty t
  refine runOn_bind_cases (fun e u h => ?_) fun r u h => ?_
  · rw [h] at hread
    exact hread
  · rw [h] at hread
    split
    · exact hread
    · exact hread

theorem exists_of_generate {o : Output} (h : runOn (s.generate base) t = (.ok o, u)) :
    ∃ r, Output.ofRegistry r s.release = .ok o := by
  obtain ⟨r, v, -, h⟩ := of_runOn_bind_ok h
  split at h
  · next ho =>
    cases h
    exact ⟨r, ho⟩
  · cases h

theorem isOfOutput_of_generate (h : runOn (s.generate base) t = (.error e, u)) :
    e.isOfOutput = false := by
  rcases of_runOn_bind_error h with h | ⟨r, v, -, h⟩
  · exact Registry.isOfOutput_of_readFiles h
  · split at h
    · cases h
    · cases h
      rfl

theorem reads_load (path : String) :
    SearchPath.Reads (load path : ExceptT LoadError (StateM Tree) Settings) := by
  have hread : SearchPath.Reads (attempt (readText path) (LoadError.unreadable path) :
      ExceptT LoadError (StateM Tree) String) := fun _ => rfl
  refine SearchPath.reads_bind hread fun text => ?_
  cases ofText? text with
  | none => exact SearchPath.reads_throw _
  | some s => exact SearchPath.reads_pure s

theorem eq_of_loadFor {result : Except Failure Settings} (h : runOn (loadFor path) t = (result, u)) :
    u = t := by
  rw [loadFor, runOn_adapt, Prod.mk.injEq] at h
  exact h.2.symm.trans (reads_load path t)

end Settings

/-! ### Writing -/

/-- The tree with files in a directory. -/
def Files.Tree.putAll (t : Tree) (dir : Place) (files : List (String × String)) : Tree :=
  files.foldl (fun t f => t.put (f.1 :: dir) (.file f.2.toUTF8)) t

namespace Files.Tree

variable {dir : Place} {files : List (String × String)}

theorem keepsNodes_putAll (t : Tree) (dir : Place) (files : List (String × String)) :
    KeepsNodes (fun place => ∃ f ∈ files, place = f.1 :: dir) t (t.putAll dir files) := by
  induction files generalizing t with
  | nil => exact .refl _ t
  | cons f files ih =>
    have hfirst := (KeepsNodes.put t (f.1 :: dir) (.file f.2.toUTF8)).mono fun place h =>
      show ∃ g ∈ f :: files, place = g.1 :: dir from ⟨f, List.mem_cons_self, h⟩
    refine hfirst.trans ((ih _).mono ?_)
    rintro place ⟨g, hg, h⟩
    exact ⟨g, List.mem_cons_of_mem f hg, h⟩

/-- Each of the files is there, as no later one has its name. -/
theorem node?_putAll (hnames : (files.map (·.1)).Nodup) (t : Tree) :
    ∀ f ∈ files, (t.putAll dir files).node? (f.1 :: dir) = some (.file f.2.toUTF8) := by
  induction files generalizing t with
  | nil => simp
  | cons f files ih =>
    rw [List.map_cons, List.nodup_cons] at hnames
    intro g hg
    rcases List.mem_cons.mp hg with rfl | hg
    · have hother : ¬∃ f ∈ files, g.1 :: dir = f.1 :: dir := by
        rintro ⟨f, hf, he⟩
        exact hnames.1 (List.mem_map.mpr ⟨f, hf, (List.cons.inj he).1.symm⟩)
      exact ((keepsNodes_putAll _ dir files).file_iff hother).mpr
        (node?_put_self _ _ (by simp))
    · exact ih hnames.2 _ g hg

end Files.Tree

namespace Output

variable {dir : String} {fs : List (String × String)} {o : Output} {t u : Tree}

theorem of_writeFiles (hnames : ∀ f ∈ fs, Path.IsName f.1)
    (h : runOn (writeFiles dir fs) t = (.ok (), u)) : u = t.putAll (t.target dir) fs := by
  induction fs generalizing t with
  | nil =>
    cases h
    rfl
  | cons f fs ih =>
    obtain ⟨hname, hnames⟩ := List.forall_mem_cons.mp hnames
    obtain ⟨_, v, hwrite, h⟩ := of_runOn_bind_ok h
    have hv := Tree.of_writeText (of_runOn_change hwrite)
    rw [Tree.target_join t dir hname] at hv
    have hhere : v.here = t.here := by rw [hv, Tree.here_put]
    rw [ih hnames h, Tree.target_congr hhere, hv]
    rfl

theorem isOfOutput_of_writeFiles {e : Failure} (h : runOn (writeFiles dir fs) t = (.error e, u)) :
    e.isOfOutput = true := by
  induction fs generalizing t with
  | nil => cases h
  | cons f fs ih =>
    rcases of_runOn_bind_error h with h | ⟨_, v, -, h⟩
    · obtain ⟨cause, rfl⟩ := of_runOn_attempt_error h
      rfl
    · exact ih h

theorem isOfOutput_of_write {e : Failure} (h : runOn (o.write dir) t = (.error e, u)) :
    e.isOfOutput = true := by
  rcases of_runOn_bind_error h with h | ⟨_, v, -, h⟩
  · obtain ⟨cause, rfl⟩ := of_runOn_attempt_error h
    rfl
  · exact isOfOutput_of_writeFiles h

/-- The names and the texts of the files of all parts. -/
def files (o : Output) : List (String × String) := o.parts.flatMap Part.files

theorem names_files {r : Registry} {release : Option Nat} (ho : ofRegistry r release = .ok o) :
    o.files.map (·.1) = (Catalogue.parts.map (·.1)).flatMap fun name =>
      ["gen-wrap-" ++ name ++ ".inc", "gen-expose-" ++ name ++ ".inc"] := by
  rw [files, List.map_flatMap, ← names_parts ho, List.flatMap_map]
  rfl

theorem isName_of_mem_files {r : Registry} {release : Option Nat} (ho : ofRegistry r release = .ok o) :
    ∀ f ∈ o.files, Path.IsName f.1 := by
  have hnames : ∀ name ∈ (Catalogue.parts.map (·.1)).flatMap fun name =>
      ["gen-wrap-" ++ name ++ ".inc", "gen-expose-" ++ name ++ ".inc"],
      '/' ∉ name.toList ∧ 2 < name.toList.length := by
    decide
  intro f hf
  obtain ⟨hslash, hlength⟩ := hnames f.1 (names_files ho ▸ List.mem_map_of_mem hf)
  exact Path.isName_of_length hslash hlength

/-- The files of an output are written into a directory, two for each part, and nothing else. -/
structure IsWritten (o : Output) (dir : Place) (t t' : Tree) : Prop where
  names : (o.files.map (·.1)).Nodup
  length : o.files.length = 2 * o.parts.length
  files : ∀ f ∈ o.files, t'.node? (f.1 :: dir) = some (.file f.2.toUTF8)
  others : KeepsNodes (fun place => ∃ f ∈ o.files, place = f.1 :: dir) t t'

theorem isWritten_of_write {r : Registry} {release : Option Nat} (ho : ofRegistry r release = .ok o)
    (h : runOn (o.write dir) t = (.ok (), u)) : o.IsWritten (t.target dir) t u := by
  have hnodup : (o.files.map (·.1)).Nodup := by
    rw [names_files ho]
    decide
  obtain ⟨_, v, hcreate, h⟩ := of_runOn_bind_ok h
  have hdirs : KeepsNodes (fun _ => False) t v := by
    rw [runOn_attempt, Prod.mk.injEq] at hcreate
    rw [← hcreate.2]
    exact moves_createDirectories dir t
  have hu : u = v.putAll (t.target dir) o.files := by
    rw [← Tree.target_congr hdirs.here]
    exact of_writeFiles (isName_of_mem_files ho) h
  constructor
  case names => exact hnodup
  case length => simp [Output.files, List.length_flatMap, Part.files, List.map_const', Nat.mul_comm]
  case files =>
    rw [hu]
    exact Tree.node?_putAll hnodup v
  case others =>
    rw [hu]
    exact (hdirs.mono fun _ => False.elim).trans (Tree.keepsNodes_putAll v _ _)

end Output

/-! ### Running -/

namespace Settings

variable {s : Settings} {base path dir : String} {output : Option String} {t u : Tree} {e : Failure}

theorem of_run_error (h : runOn (s.run base output) t = (.error e, u)) :
    runOn (s.generate base) t = (.error e, u) ∨
      ∃ o v, runOn (s.generate base) t = (.ok o, v) ∧ e.isOfOutput = true := by
  rcases of_runOn_bind_error h with h | ⟨o, v, hgenerate, h⟩
  · exact .inl h
  · rcases of_runOn_bind_error h with h | ⟨_, w, -, h⟩
    · exact .inr ⟨o, v, hgenerate, Output.isOfOutput_of_write h⟩
    · cases h

theorem exists_of_runFile_ok (h : runOn (runFile path output) t = (.ok dir, u)) : ∃ s o v,
    runOn (loadFor path) t = (.ok s, t) ∧ dir = output.getD (Path.join (baseOf path) s.outputDir) ∧
      runOn (s.generate (baseOf path)) t = (.ok o, v) ∧ runOn (o.write dir) v = (.ok (), u) := by
  obtain ⟨s, t', hload, hrun⟩ := of_runOn_bind_ok h
  obtain rfl := eq_of_loadFor hload
  obtain ⟨o, v, hgenerate, hrun⟩ := of_runOn_bind_ok hrun
  obtain ⟨_, w, hwrite, hrun⟩ := of_runOn_bind_ok hrun
  cases hrun
  exact ⟨s, o, v, hload, rfl, hgenerate, hwrite⟩

/-- What the ending of a run says about the files. -/
structure RunsCleanly (path : String) (output : Option String) (t : Tree) : Prop where
  /-- A run that fails before its output changes nothing but entries of the cache. -/
  failing : ∀ e u, runOn (runFile path output) t = (.error e, u) → e.isOfOutput = false →
    runOn (loadFor path) t = (.error e, t) ∧ u = t ∨
      ∃ s, runOn (loadFor path) t = (.ok s, t) ∧ runOn (s.generate (baseOf path)) t = (.error e, u) ∧
        KeepsNodes ((s.searchPath (baseOf path)).IsCacheEntry t) t u
  /-- A run that fails at its output has loaded the settings and generated all parts. -/
  ofOutput : ∀ e u, runOn (runFile path output) t = (.error e, u) → e.isOfOutput = true →
    ∃ s o v, runOn (loadFor path) t = (.ok s, t) ∧ runOn (s.generate (baseOf path)) t = (.ok o, v)
  /-- A run that comes to its end has changed nothing but entries of the cache before it writes
  the files of its parts, and then nothing else. -/
  succeeding : ∀ dir u, runOn (runFile path output) t = (.ok dir, u) → ∃ s o v,
    runOn (loadFor path) t = (.ok s, t) ∧ dir = output.getD (Path.join (baseOf path) s.outputDir) ∧
      runOn (s.generate (baseOf path)) t = (.ok o, v) ∧
      KeepsNodes ((s.searchPath (baseOf path)).IsCacheEntry t) t v ∧ o.IsWritten (t.target dir) v u

theorem runsCleanly (path : String) (output : Option String) (t : Tree) :
    RunsCleanly path output t := by
  constructor
  case failing =>
    intro e u h hearly
    rcases of_runOn_bind_error h with hload | ⟨s, v, hload, hrun⟩
    · obtain rfl := eq_of_loadFor hload
      exact .inl ⟨hload, rfl⟩
    · obtain rfl := eq_of_loadFor hload
      rcases of_run_error hrun with hgenerate | ⟨o, w, -, hlate⟩
      · refine .inr ⟨s, hload, hgenerate, ?_⟩
        have hkeeps := keepsNodes_generate s (baseOf path) v
        rwa [hgenerate] at hkeeps
      · rw [hearly] at hlate
        cases hlate
  case ofOutput =>
    intro e u h hlate
    rcases of_runOn_bind_error h with hload | ⟨s, v, hload, hrun⟩
    · obtain ⟨cause, rfl⟩ := of_runOn_adapt_error hload
      cases hlate
    · obtain rfl := eq_of_loadFor hload
      rcases of_run_error hrun with hgenerate | ⟨o, w, hgenerate, -⟩
      · rw [isOfOutput_of_generate hgenerate] at hlate
        cases hlate
      · exact ⟨s, o, w, hload, hgenerate⟩
  case succeeding =>
    intro dir u h
    obtain ⟨s, o, v, hload, hdir, hgenerate, hwrite⟩ := exists_of_runFile_ok h
    obtain ⟨r, ho⟩ := exists_of_generate hgenerate
    have hkeeps := keepsNodes_generate s (baseOf path) t
    rw [hgenerate] at hkeeps
    have hwritten := Output.isWritten_of_write ho hwrite
    rw [Tree.target_congr hkeeps.here] at hwritten
    exact ⟨s, o, v, hload, hdir, hgenerate, hkeeps, hwritten⟩

def sharedHeader : String := "int isl_set_f(__isl_keep isl_set *set);\n"

/-- Settings that have the cache in the directory of the output. -/
def sharedTree : Tree :=
  ((Tree.empty []).put ["isl-wrapgen.toml"] (.file
    "headers = [\"a.h\"]\nmacro_headers = []\ncache_dir = \".\"\n".toUTF8)).put ["a.h"]
      (.file sharedHeader.toUTF8)

def sharedEntry : String := "daa90c9d6060cb5d44a55c6bf83323c1d45713d9790a2471e3a49788dc481a02"

theorem runFile_sharedTree : ∃ u,
    runOn (runFile "isl-wrapgen.toml" none) sharedTree = (.ok ".", u) ∧
      u.node? [sharedEntry] = some (.file sharedHeader.toUTF8) := by
  have hended : (runOn (runFile "isl-wrapgen.toml" none) sharedTree).1.toOption = some "." ∧
      (runOn (runFile "isl-wrapgen.toml" none) sharedTree).2.node? [sharedEntry] =
        some (.file sharedHeader.toUTF8) := by
    decide +kernel
  -- The run is a variable from here on, so that nothing evaluates it again.
  generalize runOn (runFile "isl-wrapgen.toml" none) sharedTree = ending at hended
  obtain ⟨result, u⟩ := ending
  obtain ⟨hresult, hentry⟩ := hended
  obtain rfl := eq_ok_of_toOption hresult
  exact ⟨u, rfl, hentry⟩

/-- Entries of the cache come on top of the files of the parts, if they share a directory. -/
theorem new_entry_in_output : ∃ s o v u,
    runOn (loadFor "isl-wrapgen.toml") sharedTree = (.ok s, sharedTree) ∧
      runOn (s.generate (baseOf "isl-wrapgen.toml")) sharedTree = (.ok o, v) ∧
      runOn (runFile "isl-wrapgen.toml" none) sharedTree = (.ok ".", u) ∧
      sharedEntry ∉ o.files.map (·.1) ∧
      sharedTree.node? (sharedEntry :: sharedTree.target ".") = none ∧
      u.node? (sharedEntry :: sharedTree.target ".") = some (.file sharedHeader.toUTF8) := by
  obtain ⟨u, hrun, hentry⟩ := runFile_sharedTree
  obtain ⟨s, o, v, hload, -, hgenerate, -⟩ := exists_of_runFile_ok hrun
  obtain ⟨r, ho⟩ := exists_of_generate hgenerate
  have hplace : sharedTree.target "." = [] := by decide
  have hother : sharedEntry ∉ o.files.map (·.1) := by
    rw [Output.names_files ho]
    decide
  rw [hplace]
  exact ⟨s, o, v, u, hload, hgenerate, hrun, hother, by decide +kernel, hentry⟩

end Settings

end IslBindings
