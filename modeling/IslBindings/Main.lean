import IslBindings.CommandLine

/-!
# The program

The disk as a file system, and the entry point.
-/

namespace IslBindings.Main

open Files

def fileError : IO.Error → FileError
  | .noFileOrDirectory .. => .notFound
  | .alreadyExists .. => .alreadyExists
  | .inappropriateType _ code details =>
    if code = 20 then .notDirectory
    else if code = 21 then .isDirectory
    else .other details
  | e => .other (toString e)

def access {α : Type} (action : IO α) : IO (Except FileError α) := do
  match ← action.toBaseIO with
  | .ok a => return .ok a
  | .error e => return .error (fileError e)

/-- The kind of what stands at the end of a path. -/
def kindIs (p : String) (kind : IO.FS.FileType) : IO Bool := do
  match ← (do return (← (← IO.FS.realPath p).metadata).type : IO _).toBaseIO with
  | .ok found => return found == kind
  | .error _ => return false

def readText (p : String) : IO (Except FileError String) := do
  match ← access (IO.FS.readBinFile p) with
  | .error e => return .error e
  | .ok bytes =>
    match String.fromUTF8? bytes with
    | some text => return .ok text
    | none => return .error .notText

instance : FileSystem IO where
  isFile p := kindIs p .file
  isDirectory p := kindIs p .dir
  readText := readText
  writeText p text := access (IO.FS.writeFile p text)
  createDirectory p := access (IO.FS.createDir p)
  rename p q := access (IO.FS.rename p q)
  workingDirectory := return (← IO.currentDir).toString

def usage : String :=
  "Generate safe wrapper and exposer code from annotated isl C headers\n\n" ++
  "Usage: isl-wrapgen [OPTIONS] [CONFIG]\n\n" ++
  "  -o, --output <DIR>        output directory (overrides the settings)\n" ++
  "  -I, --include <DIR>       another header directory; may be given again\n" ++
  "      --barvinok            also wrap the barvinok extension header\n" ++
  "      --isl-version <N>     target isl release; newer classes are left out\n" ++
  "  -h, --help                print help\n" ++
  "  -V, --version             print version\n"

def report : CommandLine.Ending → IO Unit
  | .written _ => return
  | .failed cause => IO.eprintln ("Error: " ++ cause.message)
  | .halted .help => IO.print usage
  | .halted .version => IO.println "isl-wrapgen 0.1.0"
  | .halted (.refused cause) => IO.eprintln ("error: " ++ cause.message)

end IslBindings.Main

def main (args : List String) : IO UInt32 := do
  let ending ← IslBindings.CommandLine.execute args
  IslBindings.Main.report ending
  return ending.exitCode.toUInt32
