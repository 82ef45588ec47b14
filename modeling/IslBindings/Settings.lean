import IslBindings.Catalogue.Header
import IslBindings.Files.Path
import IslBindings.Header.SearchPath
import IslBindings.Toml.Document

/-!
# Settings

What a run is to read and to write. A settings file gives any of the settings, each at
most once and no others; those it does not give are the stock settings.
-/

namespace IslBindings

open Files Toml

structure Settings where
  /-- Directories that are searched after the one of the settings. -/
  includePaths : List String
  /-- The headers to read, in order. -/
  headers : List String
  macroHeaders : List String
  cacheDir : Option String
  /-- Read the header of the counting extension too. -/
  includeBarvinok : Bool
  /-- Classes that are newer than this release are left out. -/
  release : Option Nat
  outputDir : String
  deriving DecidableEq, Repr

namespace Settings

def stock : Settings where
  includePaths := []
  headers := Catalogue.headers
  macroHeaders := Catalogue.macroHeaders
  cacheDir := none
  includeBarvinok := false
  release := none
  outputDir := "."

/-! ### What settings mean from a base directory -/

def headerList (s : Settings) : List String :=
  if s.includeBarvinok then s.headers ++ [Catalogue.barvinokHeader] else s.headers

/-- The base itself comes first. -/
def searchDirs (s : Settings) (base : String) : List String :=
  base :: s.includePaths.map (Path.join base)

def searchPath (s : Settings) (base : String) : Header.SearchPath where
  dirs := s.searchDirs base
  cacheDir := s.cacheDir.map (Path.join base)
  macroHeaders := s.macroHeaders

/-! ### Values -/

def text? : Value → Option String
  | .text s => some s
  | _ => none

def texts? : Value → Option (List String)
  | .array items => items.mapM text?
  | _ => none

def boolean? : Value → Option Bool
  | .boolean b => some b
  | _ => none

/-- Releases are numbered in 32 bits. -/
def release? : Value → Option Nat
  | .number (.integer (some n)) => if 0 ≤ n ∧ n < 4294967296 then some n.toNat else none
  | _ => none

/-- The directory in the value of the output table, if it gives one. The value may be the list
of the table's settings. -/
def output? : Value → Option (Option String)
  | .table [] => some none
  | .table [(["dir"], v)] => (text? v).map some
  | .array [] => some none
  | .array (v :: _) => (text? v).map some
  | _ => none

/-! ### Reading -/

structure Draft where
  includePaths : Option (List String) := none
  headers : Option (List String) := none
  macroHeaders : Option (List String) := none
  cacheDir : Option String := none
  includeBarvinok : Option Bool := none
  release : Option Nat := none
  /-- The output table, with its directory if it gives one. -/
  output : Option (Option String) := none
  /-- The statements are those of the output table. -/
  inOutput : Bool := false

namespace Draft

/-- A setting that is given now but was not before. -/
def once {α : Type} (before now : Option α) : Option (Option α) :=
  match before, now with
  | none, some v => some (some v)
  | _, _ => none

def assign (d : Draft) (key : Key) (v : Value) : Option Draft := do
  match key with
  | ["include_paths"] => return { d with includePaths := ← once d.includePaths (texts? v) }
  | ["headers"] => return { d with headers := ← once d.headers (texts? v) }
  | ["macro_headers"] => return { d with macroHeaders := ← once d.macroHeaders (texts? v) }
  | ["cache_dir"] => return { d with cacheDir := ← once d.cacheDir (text? v) }
  | ["include_barvinok"] =>
    return { d with includeBarvinok := ← once d.includeBarvinok (boolean? v) }
  | ["isl_version"] => return { d with release := ← once d.release (release? v) }
  | ["output"] => return { d with output := ← once d.output (output? v) }
  | ["output", "dir"] => return { d with output := ← once d.output ((text? v).map some) }
  | _ => failure

def assignOutput (d : Draft) (key : Key) (v : Value) : Option Draft := do
  match key with
  | ["dir"] => return { d with output := some (← once (← d.output) (text? v)) }
  | _ => failure

def add (d : Draft) : Statement → Option Draft
  | .assign key v => if d.inOutput then d.assignOutput key v else d.assign key v
  | .tableHeader ["output"] => do
    return { d with output := ← once d.output (some none), inOutput := true }
  | _ => none

def finish (d : Draft) : Settings where
  includePaths := d.includePaths.getD stock.includePaths
  headers := d.headers.getD stock.headers
  macroHeaders := d.macroHeaders.getD stock.macroHeaders
  cacheDir := d.cacheDir
  includeBarvinok := d.includeBarvinok.getD stock.includeBarvinok
  release := d.release
  outputDir := (d.output.getD none).getD stock.outputDir

end Draft

/-- The settings in the text of a settings file; `none` if it is none. -/
def ofText? (text : String) : Option Settings := do
  let draft ← (← statements? text).foldlM Draft.add {}
  return draft.finish

/-- A text without statements gives the stock settings. -/
theorem ofText?_of_no_statements {text : String} (h : statements? text = some []) :
    ofText? text = some stock := by
  simp [ofText?, h, Draft.finish, stock]

/-! ### Files -/

inductive LoadError where
  | unreadable (path : String) (cause : FileError)
  | malformed (path : String)
  deriving DecidableEq, Repr

def LoadError.message : LoadError → String
  | .unreadable path cause => "failed to read config file " ++ path ++ ": " ++ cause.message
  | .malformed path => "failed to parse config file " ++ path

variable {m : Type → Type} [Monad m] [FileSystem m]

def load (path : String) : ExceptT LoadError m Settings := do
  let text ← attempt (readText path) (.unreadable path)
  match ofText? text with
  | some s => return s
  | none => throw (.malformed path)

end Settings

end IslBindings
