import IslBindings.Header.SearchPath
import IslBindings.Proofs.Files.Effect

/-!
# Sources of an expanded header

An expanded header and its key in the cache are functions of the same texts: those of the
macro headers that are there, and that of the header. Reading them changes nothing.
-/

namespace IslBindings.Header

open Files

/-! ### Texts -/

/-- The texts that an expanded header is made from. -/
structure Sources where
  /-- Those of the macro headers that are there. -/
  macros : List String
  header : String
  deriving DecidableEq

namespace Sources

/-- All texts, with nothing between them. -/
def joined (s : Sources) : String := String.join (s.macros ++ [s.header])

/-- What is digested. -/
def message (s : Sources) : List UInt8 := (SearchPath.keyVersion ++ s.joined).toUTF8.toList

def key (s : Sources) : String := Digest.sha256 s.message

def table (s : Sources) : MacroTable :=
  s.macros.foldl (fun table text => table.collect text.toList) .empty

def expansion (s : Sources) : String := SearchPath.expandText s.table s.header

end Sources

namespace SearchPath

section Equations

variable {m : Type → Type} [Monad m] [FileSystem m]

def sources (s : SearchPath) (header : String) : ExceptT ReadError m Sources := do
  let macros ← s.presentContents s.macroHeaders
  let text ← s.contents header
  return { macros, header := text }

theorem expanded_eq [LawfulMonad m] (s : SearchPath) (header : String) :
    (s.expanded header : ExceptT ReadError m String) = Sources.expansion <$> s.sources header := by
  simp only [expanded, macroTable, sources, bind_assoc, pure_bind, map_eq_pure_bind]
  rfl

theorem cacheKey_eq [LawfulMonad m] (s : SearchPath) (header : String) :
    (s.cacheKey header : ExceptT ReadError m String) = Sources.key <$> s.sources header := by
  simp only [cacheKey, sources, bind_assoc, pure_bind, map_eq_pure_bind, Sources.key]
  rfl

def uncached (s : SearchPath) : SearchPath := { s with cacheDir := none }

theorem presentContents_uncached (s : SearchPath) (headers : List String) :
    (s.uncached.presentContents headers : ExceptT ReadError m _) = s.presentContents headers := by
  induction headers with
  | nil => rfl
  | cons header rest ih =>
    rw [presentContents, presentContents, ih]
    rfl

theorem sources_uncached (s : SearchPath) (header : String) :
    (s.uncached.sources header : ExceptT ReadError m _) = s.sources header := by
  rw [sources, sources, presentContents_uncached]
  rfl

end Equations

/-! ### Reading -/

/-- Every run leaves the tree as it is. -/
def Reads {ε α : Type} (x : ExceptT ε (StateM Tree) α) : Prop := Moves (fun t t' => t' = t) x.run

section Reads

variable {ε α β : Type}

theorem reads_pure (a : α) : Reads (pure a : ExceptT ε (StateM Tree) α) := fun _ => rfl

theorem reads_throw (e : ε) : Reads (throw e : ExceptT ε (StateM Tree) α) := fun _ => rfl

theorem reads_bind {x : ExceptT ε (StateM Tree) α} {f : α → ExceptT ε (StateM Tree) β}
    (hx : Reads x) (hf : ∀ a, Reads (f a)) : Reads (x >>= f) := by
  rw [Reads, ExceptT.run_bind]
  refine moves_bind (fun _ _ _ h h' => h'.trans h) hx fun result => ?_
  cases result with
  | ok a => exact hf a
  | error e => exact fun _ => rfl

theorem reads_lift {x : StateM Tree α} (hx : Moves (fun t t' => t' = t) x) :
    Reads (liftM x : ExceptT ε (StateM Tree) α) := hx

end Reads

theorem reads_firstFile (name : String) (dirs : List String) :
    Moves (fun t t' => t' = t) (firstFile? name dirs : StateM Tree _) := by
  induction dirs with
  | nil => exact fun _ => rfl
  | cons dir rest ih =>
    have hlook : Moves (fun t t' => t' = t) (isFile (Path.join dir name) : StateM Tree Bool) :=
      fun _ => rfl
    refine moves_bind (fun _ _ _ h h' => h'.trans h) hlook fun isThere => ?_
    cases isThere with
    | true => exact fun _ => rfl
    | false => exact ih

theorem reads_resolve (s : SearchPath) (header : String) :
    Reads (liftM (s.resolve header : StateM Tree _) : ExceptT ReadError (StateM Tree) _) :=
  reads_lift (reads_firstFile header s.dirs)

theorem reads_contents (s : SearchPath) (header : String) :
    Reads (s.contents header : ExceptT ReadError (StateM Tree) String) := by
  refine reads_bind (reads_resolve s header) fun found => ?_
  cases found with
  | none => exact reads_throw _
  | some path => exact fun _ => rfl

theorem reads_presentContents (s : SearchPath) (headers : List String) :
    Reads (s.presentContents headers : ExceptT ReadError (StateM Tree) _) := by
  induction headers with
  | nil => exact reads_pure []
  | cons header rest ih =>
    refine reads_bind (reads_resolve s header) fun found => ?_
    cases found with
    | none => exact ih
    | some path =>
      exact reads_bind (reads_contents s header) fun text => reads_bind ih fun _ => reads_pure _

theorem reads_sources (s : SearchPath) (header : String) :
    Reads (s.sources header : ExceptT ReadError (StateM Tree) Sources) :=
  reads_bind (reads_presentContents s s.macroHeaders) fun _ =>
    reads_bind (reads_contents s header) fun _ => reads_pure _

end SearchPath

end IslBindings.Header
