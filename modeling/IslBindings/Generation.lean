import IslBindings.Registration
import IslBindings.Upcast

/-!
# Generation

The output parts of a registry: for every method of an available class either a
wrapper with its registration or an entry in the report of skipped methods, and after
the classes of a part its upcasts.
-/

namespace IslBindings

/-! ### What becomes of each method -/

inductive Verdict where
  /-- Another method takes a value where this one takes an integer. -/
  | superseded
  | wrapped (w : Wrapper)
  | undocumented (method : String)
  | unsupported (reason : SkipReason)
  deriving DecidableEq, Repr

namespace Method

/-- The names of the methods that take the place of an integer overload. -/
def valueNames (m : Method) : List String :=
  if m.isIntegerOverload then
    let stem := String.ofList (m.name.toList.take (m.name.toList.length - 3))
    [stem, stem ++ "_val"]
  else []

def isSuperseded (m : Method) (siblings : List Method) : Bool :=
  siblings.any fun other => m.valueNames.contains other.name

/-- What becomes of a method among the methods of its class; `none` if it is to be wrapped
again although it has been. -/
def verdict? (m : Method) (siblings : List Method) : Option Verdict :=
  if m.isSuperseded siblings then some .superseded
  else match m.wrapOrVeto with
    | .wrapped w => some (.wrapped w)
    | .skipped (.undocumented method) => some (.undocumented method)
    | .skipped reason => some (.unsupported reason)
    | .retry => none

end Method

structure Entry where
  method : Method
  verdict : Verdict
  deriving Repr

/-- A method that asks to be wrapped for the third time. -/
structure SecondRetry where
  method : Method
  deriving Repr

def SecondRetry.message (e : SecondRetry) : String :=
  e.method.display ++ " requested a second mutator retry"

namespace Entry

def ofMethod (siblings : List Method) (m : Method) : Except SecondRetry Entry :=
  match m.verdict? siblings with
  | some verdict => .ok { method := m, verdict }
  | none => .error { method := m }

def ofClass (r : Registry) (cls : String) : Except SecondRetry (List Entry) :=
  (r.methodsOf cls).mapM (ofMethod (r.methodsOf cls))

/-- The methods of those of some classes that a release has. -/
def ofClasses (r : Registry) (release : Option Nat) (classes : List String) :
    Except SecondRetry (List Entry) :=
  List.flatten <$> (classes.filter (Catalogue.isAvailable · release)).mapM (ofClass r)

def wrapper? (e : Entry) : Option Wrapper :=
  match e.verdict with
  | .wrapped w => some w
  | _ => none

end Entry

/-! ### Parts -/

def banner : String := "// Generated by isl-wrapgen. Do not edit.\n"

structure Part where
  name : String
  entries : List Entry
  folds : List Fold
  deriving Repr

namespace Part

def blocks (p : Part) : List (Method × Wrapper) :=
  p.entries.filterMap fun e => e.wrapper?.map fun w => (e.method, w)

def wrapFile (p : Part) : String := "gen-wrap-" ++ p.name ++ ".inc"

def exposeFile (p : Part) : String := "gen-expose-" ++ p.name ++ ".inc"

def wrappers (p : Part) : String :=
  banner ++ String.join (p.blocks.map fun (_, w) => "\n" ++ w.code)

def exposers (p : Part) : String :=
  banner ++ String.join (p.blocks.map fun (m, w) => Registration.code m w) ++
    String.join (p.folds.map Fold.code)

/-- The folds of those of some pairs that a release has, and the ledger after them. -/
def foldPairs (r : Registry) (release : Option Nat) :
    Ledger → List (String × String) → List Fold × Ledger
  | l, [] => ([], l)
  | l, (general, specific) :: rest =>
    if Catalogue.isAvailable general release && Catalogue.isAvailable specific release then
      let (fold, l) := Fold.ofPair r l general specific
      let (folds, l) := foldPairs r release l rest
      (fold :: folds, l)
    else foldPairs r release l rest

/-- The ledger with the methods that have wrappers. -/
def recordEntries (l : Ledger) (entries : List Entry) : Ledger :=
  entries.foldl (fun l e => if e.wrapper?.isSome then l.recordWrapped e.method else l) l

def generate (r : Registry) (release : Option Nat) (l : Ledger) (name : String)
    (classes : List String) : Except SecondRetry (Part × Ledger) := do
  let entries ← Entry.ofClasses r release classes
  let (folds, l) := foldPairs r release (recordEntries l entries) (Catalogue.upcasts name)
  return ({ name, entries, folds }, l)

def generateAll (r : Registry) (release : Option Nat) :
    Ledger → List (String × List String) → Except SecondRetry (List Part)
  | _, [] => .ok []
  | l, (name, classes) :: rest => do
    let (part, l) ← generate r release l name classes
    let parts ← generateAll r release l rest
    return part :: parts

end Part

/-! ### Runs -/

structure Report where
  undocumented : List String
  superseded : List String
  /-- Each with the reason. -/
  unsupported : List (String × String)
  deriving DecidableEq, Repr

namespace Report

def ofEntries (entries : List Entry) : Report where
  undocumented := entries.filterMap fun e =>
    match e.verdict with
    | .undocumented method => some method
    | _ => none
  superseded := entries.filterMap fun e =>
    match e.verdict with
    | .superseded => some e.method.display
    | _ => none
  unsupported := entries.filterMap fun e =>
    match e.verdict with
    | .unsupported reason => some (e.method.display, reason.message)
    | _ => none

def isEmpty (r : Report) : Bool :=
  r.undocumented.isEmpty && r.superseded.isEmpty && r.unsupported.isEmpty

end Report

structure Output where
  parts : List Part
  deriving Repr

namespace Output

def report (o : Output) : Report := .ofEntries (o.parts.flatMap (·.entries))

def ofRegistry (r : Registry) (release : Option Nat) : Except SecondRetry Output := do
  let parts ← Part.generateAll r release .empty Catalogue.parts
  return { parts }

end Output

end IslBindings
