import IslBindings.Generation
import IslBindings.Registry
import IslBindings.Settings

/-!
# Runs

A run reads the headers of its settings into a registry, generates the parts of the
registry, and writes two files for each part. Nothing but cache files is written before
the last header is read and the last part is generated.
-/

namespace IslBindings

open Files

/-! ### Failures -/

inductive Failure where
  | settings (path : String) (cause : Settings.LoadError)
  | reading (header : String) (cause : Header.ReadError)
  | placing (header : String) (cause : PlacementError)
  | wrapping (cause : SecondRetry)
  | outputNotCreated (dir : String) (cause : FileError)
  | outputNotWritten (path : String) (cause : FileError)
  deriving Repr

def Failure.message : Failure → String
  | .settings path cause => "loading config from " ++ path ++ ": " ++ cause.message
  | .reading header cause => "preprocessing " ++ header ++ ": " ++ cause.message
  | .placing header cause => "parsing " ++ header ++ ": " ++ cause.message
  | .wrapping cause => cause.message
  | .outputNotCreated dir cause => "creating output dir " ++ dir ++ ": " ++ cause.message
  | .outputNotWritten path cause => "writing " ++ path ++ ": " ++ cause.message

variable {m : Type → Type} [Monad m] [FileSystem m]

/-! ### Generating -/

def Registry.readFiles (path : Header.SearchPath) :
    Registry → List String → ExceptT Failure m Registry
  | r, [] => return r
  | r, header :: rest => do
    let text ← (path.preprocessed header).adapt (Failure.reading header)
    match r.readHeader text with
    | (r, none) => r.readFiles path rest
    | (_, some e) => throw (.placing header e)

namespace Settings

/-- What the headers of the settings make, as seen from a base directory. -/
def generate (s : Settings) (base : String) : ExceptT Failure m Output := do
  let r ← Registry.empty.readFiles (s.searchPath base) s.headerList
  match Output.ofRegistry r s.release with
  | .ok output => return output
  | .error e => throw (.wrapping e)

/-- The stock settings with directories to search, from the working directory. -/
def searching (includeDirs : List String) (includeBarvinok : Bool) (release : Option Nat) :
    Settings :=
  { stock with includePaths := includeDirs, includeBarvinok, release }

end Settings

/-! ### Writing -/

/-- The names and the texts of the files of a part. -/
def Part.files (p : Part) : List (String × String) :=
  [(p.wrapFile, p.wrappers), (p.exposeFile, p.exposers)]

namespace Output

/-- Writes files into a directory, up to the first that cannot be written. -/
def writeFiles (dir : String) : List (String × String) → ExceptT Failure m Unit
  | [] => return
  | (name, text) :: rest => do
    let path := Path.join dir name
    attempt (writeText path text) (.outputNotWritten path)
    writeFiles dir rest

def write (o : Output) (dir : String) : ExceptT Failure m Unit := do
  attempt (createDirectories dir) (.outputNotCreated dir)
  writeFiles dir (o.parts.flatMap Part.files)

end Output

/-! ### Running -/

namespace Settings

/-- The base directory of a settings file is the one that it stands in. -/
def baseOf (path : String) : String := (Path.parent? path).getD "."

/-- Generates and writes, and answers the directory of the output. A directory given for this
run is taken as it is, the one of the settings as seen from the base directory. -/
def run (s : Settings) (base : String) (output : Option String) : ExceptT Failure m String := do
  let generated ← s.generate base
  let dir := output.getD (Path.join base s.outputDir)
  generated.write dir
  return dir

def loadFor (path : String) : ExceptT Failure m Settings :=
  (load path).adapt (Failure.settings path)

def generateFile (path : String) : ExceptT Failure m Output := do
  let s ← loadFor path
  s.generate (baseOf path)

def runFile (path : String) (output : Option String) : ExceptT Failure m String := do
  let s ← loadFor path
  s.run (baseOf path) output

end Settings

end IslBindings
