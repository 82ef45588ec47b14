import IslBindings.Run

/-!
# The command line

Words are read from left to right: options with their values, at most one settings file,
and after `--` no more options. The first word that asks for help or makes no sense ends
the reading. Only `--include` may be given twice.
-/

namespace IslBindings.CommandLine

open Files

/-! ### Options -/

structure Options where
  config : Option String := none
  output : Option String := none
  /-- In the order given. -/
  includeDirs : List String := []
  barvinok : Bool := false
  release : Option Nat := none
  deriving DecidableEq, Repr

inductive Refusal where
  | unknownOption (word : String)
  | missingValue (option : String)
  | unexpectedValue (option : String)
  | badValue (option value : String)
  | repeated (option : String)
  | unexpectedWord (word : String)
  deriving DecidableEq, Repr

def Refusal.message : Refusal → String
  | .unknownOption word => "unexpected argument '" ++ word ++ "'"
  | .missingValue option => "a value is required for '" ++ option ++ "'"
  | .unexpectedValue option => "no value is allowed for '" ++ option ++ "'"
  | .badValue option value => "invalid value '" ++ value ++ "' for '" ++ option ++ "'"
  | .repeated option => "'" ++ option ++ "' cannot be used twice"
  | .unexpectedWord word => "unexpected argument '" ++ word ++ "'"

inductive Halt where
  | help
  | version
  | refused (cause : Refusal)
  deriving DecidableEq, Repr

/-! ### Values -/

inductive Setting where
  | output
  | includeDir
  | release
  deriving DecidableEq, Repr

def Setting.option : Setting → String
  | .output => "--output"
  | .includeDir => "--include"
  | .release => "--isl-version"

/-- A decimal number with an optional sign, in 32 bits. -/
def release? (value : String) : Option Nat :=
  let digits? := fun s : List Char =>
    if s ≠ [] ∧ s.all Char.isDigit then some (s.foldl (fun n c => 10 * n + (c.toNat - 48)) 0)
    else none
  match value.toList with
  | '+' :: s => (digits? s).filter (· < 4294967296)
  | '-' :: s => (digits? s).filter (· = 0)
  | s => (digits? s).filter (· < 4294967296)

def path? (option value : String) : Except Halt String :=
  if value = "" then .error (.refused (.badValue option value)) else .ok value

namespace Options

/-- A setting that is given now but was not before. -/
def once {α : Type} (option : String) (before : Option α) (now : α) : Except Halt (Option α) :=
  match before with
  | none => .ok (some now)
  | some _ => .error (.refused (.repeated option))

def set (o : Options) (setting : Setting) (value : String) : Except Halt Options := do
  let option := setting.option
  match setting with
  | .output => return { o with output := ← once option o.output (← path? option value) }
  | .includeDir => return { o with includeDirs := o.includeDirs ++ [← path? option value] }
  | .release =>
    match release? value with
    | some n => return { o with release := ← once option o.release n }
    | none => throw (.refused (.badValue option value))

def setBarvinok (o : Options) : Except Halt Options :=
  if o.barvinok then .error (.refused (.repeated "--barvinok"))
  else .ok { o with barvinok := true }

def setConfig (o : Options) (word : String) : Except Halt Options := do
  match o.config with
  | some _ => throw (.refused (.unexpectedWord word))
  | none => return { o with config := some (← path? "[CONFIG]" word) }

end Options

/-! ### Words -/

/-- What a word before `--` asks for. -/
inductive Word where
  | dashes
  | plain
  | barvinok
  | set (setting : Setting) (value : String)
  /-- The value is the next word. -/
  | setNext (setting : Setting)
  | halt (cause : Halt)
  deriving DecidableEq, Repr

namespace Word

def bare (name : String) (value : Option String) (word : Word) : Word :=
  match value with
  | none => word
  | some _ => .halt (.refused (.unexpectedValue ("--" ++ name)))

/-- An option that takes a value, here or in the next word. -/
def valued (setting : Setting) (value : Option String) : Word :=
  match value with
  | some v => .set setting v
  | none => .setNext setting

def ofLong (name : String) (value : Option String) : Word :=
  if name = "output" then valued .output value
  else if name = "include" then valued .includeDir value
  else if name = "isl-version" then valued .release value
  else if name = "barvinok" then bare name value .barvinok
  else if name = "help" then bare name value (.halt .help)
  else if name = "version" then bare name value (.halt .version)
  else .halt (.refused (.unknownOption ("--" ++ name)))

/-- The value in the rest of a short option's word; an equals sign may stand before it. -/
def attached? : List Char → Option String
  | [] => none
  | '=' :: value => some (String.ofList value)
  | value => some (String.ofList value)

def ofShort (c : Char) (rest : List Char) : Word :=
  if c = 'o' then valued .output (attached? rest)
  else if c = 'I' then valued .includeDir (attached? rest)
  else if c = 'h' then .halt .help
  else if c = 'V' then .halt .version
  else .halt (.refused (.unknownOption ("-" ++ String.singleton c)))

def ofString (word : String) : Word :=
  match word.toList with
  | '-' :: '-' :: [] => .dashes
  | '-' :: '-' :: long =>
    let name := String.ofList (long.takeWhile (· != '='))
    match long.dropWhile (· != '=') with
    | [] => ofLong name none
    | _ :: value => ofLong name (some (String.ofList value))
  | '-' :: c :: rest => ofShort c rest
  | _ => .plain

end Word

/-! ### Reading -/

/-- After `--` every word is a settings file. -/
def parsePlain (o : Options) : List String → Except Halt Options
  | [] => .ok o
  | word :: rest => do parsePlain (← o.setConfig word) rest

def parseFrom (o : Options) : List String → Except Halt Options
  | [] => .ok o
  | word :: rest =>
    match Word.ofString word with
    | .dashes => parsePlain o rest
    | .plain => do parseFrom (← o.setConfig word) rest
    | .barvinok => do parseFrom (← o.setBarvinok) rest
    | .set setting value => do parseFrom (← o.set setting value) rest
    | .setNext setting =>
      match rest with
      | [] => .error (.refused (.missingValue setting.option))
      | value :: rest =>
        match Word.ofString value with
        | .plain => do parseFrom (← o.set setting value) rest
        | _ => .error (.refused (.missingValue setting.option))
    | .halt cause => .error cause

def parse (words : List String) : Except Halt Options := parseFrom {} words

/-! ### Running -/

/-- The settings file that is read if it is there and no other is given. -/
def defaultConfig : String := "isl-wrapgen.toml"

variable {m : Type → Type} [Monad m] [FileSystem m]

/-- The settings to start from, and their base directory. -/
def startingSettings (o : Options) : ExceptT Failure m (Settings × String) := do
  match o.config with
  | some path => return (← Settings.loadFor path, Settings.baseOf path)
  | none =>
    if ← (isFile defaultConfig : m Bool) then return (← Settings.loadFor defaultConfig, ".")
    else return (.stock, ".")

/-- The settings with the options. Directories of options are seen from the working directory,
not from the base directory. -/
def override (o : Options) (here : String) (s : Settings) : Settings :=
  { s with
    includePaths := s.includePaths ++ o.includeDirs.map (Path.absolute here)
    includeBarvinok := s.includeBarvinok || o.barvinok
    release := o.release.or s.release }

def runOptions (o : Options) : ExceptT Failure m String := do
  let (s, base) ← startingSettings o
  let here ← (workingDirectory : m String)
  (override o here s).run base o.output

inductive Ending where
  | written (dir : String)
  | failed (cause : Failure)
  | halted (cause : Halt)
  deriving Repr

def Ending.exitCode : Ending → UInt8
  | .written _ => 0
  | .failed _ => 1
  | .halted (.refused _) => 2
  | .halted _ => 0

def execute (words : List String) : m Ending := do
  match parse words with
  | .error cause => return .halted cause
  | .ok o =>
    match ← (runOptions o).run with
    | .ok dir => return .written dir
    | .error cause => return .failed cause

end IslBindings.CommandLine
