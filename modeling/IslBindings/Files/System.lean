import IslBindings.Files.Error
import IslBindings.Files.Path

/-!
# File systems

What a run needs of a disk, so that the same run is good for a disk and for a tree in
memory, and the creation of a directory together with the directories above it.
-/

namespace IslBindings.Files

class FileSystem (m : Type → Type) where
  isFile : String → m Bool
  isDirectory : String → m Bool
  readText : String → m (Except FileError String)
  /-- Creates or replaces a file. -/
  writeText : String → String → m (Except FileError Unit)
  createDirectory : String → m (Except FileError Unit)
  rename : String → String → m (Except FileError Unit)
  workingDirectory : m String

export FileSystem (isFile isDirectory readText writeText createDirectory rename workingDirectory)

variable {m : Type → Type} [Monad m]

/-- An access whose failure is an error of its own. -/
def attempt {ε α : Type} (access : m (Except FileError α)) (error : FileError → ε) :
    ExceptT ε m α :=
  ExceptT.mk do return (← access).mapError error

variable [FileSystem m]

def ensureDirectory (p : String) : m (Except FileError Unit) := do
  match ← createDirectory p with
  | .ok () => return .ok ()
  | .error e => if ← isDirectory p then return .ok () else return .error e

/-- Creates the first of some directories. Those after it, which it stands in, are created as
far as they are missing. -/
def ensureLineage : List String → m (Except FileError Unit)
  | [] => return .ok ()
  | p :: above => do
    match ← ensureDirectory p with
    | .error .notFound =>
      match ← ensureLineage above with
      | .ok () => ensureDirectory p
      | .error e => return .error e
    | result => return result

/-- Creates a directory and the directories above it, unless they are there. -/
def createDirectories (p : String) : m (Except FileError Unit) := ensureLineage (Path.lineage p)

end IslBindings.Files
