import IslBindings.Digest
import IslBindings.Files.System
import IslBindings.Header.Expansion

/-!
# Search paths

Headers are looked up in directories, the first that has a header counts. A header is
read with its directives emptied and the macros of the macro headers expanded. The
result may be kept in a cache directory. Its file is named by the digest of the texts that
it was made from, those of the macro headers and then that of the header, with nothing
between them.
-/

namespace IslBindings.Header

open Files

structure SearchPath where
  /-- In the order of the search. -/
  dirs : List String
  /-- Where expanded headers are kept; nowhere without it. -/
  cacheDir : Option String
  /-- The headers whose macros are expanded. -/
  macroHeaders : List String
  deriving DecidableEq, Repr

inductive ReadError where
  | notFound (header : String) (dirs : List String)
  | unreadable (path : String) (cause : FileError)
  | cacheNotCreated (dir : String) (cause : FileError)
  | cacheNotWritten (path : String) (cause : FileError)
  | cacheNotRenamed (path : String) (cause : FileError)
  deriving DecidableEq, Repr

def ReadError.message : ReadError → String
  | .notFound header dirs =>
    "header '" ++ header ++ "' not found in include path [" ++ ", ".intercalate dirs ++ "]"
  | .unreadable path cause => "reading " ++ path ++ ": " ++ cause.message
  | .cacheNotCreated dir cause => "creating cache dir " ++ dir ++ ": " ++ cause.message
  | .cacheNotWritten path cause => "writing " ++ path ++ ": " ++ cause.message
  | .cacheNotRenamed path cause => "renaming to " ++ path ++ ": " ++ cause.message

variable {m : Type → Type} [Monad m] [FileSystem m]

/-- The first of some directories that has a file of the name, as the path of that file. -/
def firstFile? (name : String) : List String → m (Option String)
  | [] => return none
  | dir :: rest => do
    let p := Path.join dir name
    if ← isFile p then return some p else firstFile? name rest

namespace SearchPath

def resolve (s : SearchPath) (header : String) : m (Option String) := firstFile? header s.dirs

def contents (s : SearchPath) (header : String) : ExceptT ReadError m String := do
  match ← (s.resolve header : m _) with
  | none => throw (.notFound header s.dirs)
  | some path => attempt (readText path) (.unreadable path)

def presentContents (s : SearchPath) : List String → ExceptT ReadError m (List String)
  | [] => return []
  | header :: rest => do
    match ← (s.resolve header : m _) with
    | none => presentContents s rest
    | some _ => do
      let text ← s.contents header
      return text :: (← presentContents s rest)

/-! ### Expansion -/

def macroTable (s : SearchPath) : ExceptT ReadError m MacroTable := do
  let texts ← s.presentContents s.macroHeaders
  return texts.foldl (fun table text => table.collect text.toList) .empty

/-- The text of a header without directives and with the macros of a table expanded. -/
def expandText (table : MacroTable) (text : String) : String :=
  String.ofList (table.expand (withoutDirectives text.toList))

def expanded (s : SearchPath) (header : String) : ExceptT ReadError m String := do
  let table ← s.macroTable
  return expandText table (← s.contents header)

/-! ### The cache -/

/-- Part of every key: another form of expansion has other keys. -/
def keyVersion : String := "v1-"

/-- The key of texts, which are those of the macro headers that are there and of the header. -/
def keyOf (texts : List String) : String :=
  Digest.sha256 (keyVersion ++ String.join texts).toUTF8.toList

def cacheKey (s : SearchPath) (header : String) : ExceptT ReadError m String := do
  let texts ← s.presentContents s.macroHeaders
  return keyOf (texts ++ [← s.contents header])

/-- Writes a file under a passing name and moves it to its place, so that no other run sees a
part of it. -/
def store (dir path text : String) : ExceptT ReadError m Unit := do
  attempt (createDirectories dir) (.cacheNotCreated dir)
  let passing := path ++ ".tmp"
  attempt (writeText passing text) (.cacheNotWritten passing)
  attempt (rename passing path) (.cacheNotRenamed path)

/-- An expanded header, from the cache if it is there. A cache file that cannot be read is made
anew. -/
def preprocessed (s : SearchPath) (header : String) : ExceptT ReadError m String := do
  match s.cacheDir with
  | none => s.expanded header
  | some dir =>
    let path := Path.join dir (← s.cacheKey header)
    match ← (readText path : m _) with
    | .ok text => return text
    | .error _ =>
      let text ← s.expanded header
      store dir path text
      return text

end SearchPath

end IslBindings.Header
