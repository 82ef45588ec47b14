import IslBindings.Catalogue.Name
import IslBindings.Declaration
import IslBindings.Header.Prototype
import IslBindings.Method
import IslBindings.Placement

/-!
# Registry

The methods that the headers declare, in the order of their declarations. A C name is
registered once, by the first declaration that makes a method of it. Declarations that
cannot be read are passed over; only a name without a place is an error.
-/

namespace IslBindings

structure Registry where
  methods : List Method
  deriving Repr

namespace Registry

def empty : Registry := ⟨[]⟩

instance : Inhabited Registry := ⟨empty⟩

/-! ### Contents -/

/-- The methods of a class, in the order of their declarations. -/
def methodsOf (r : Registry) (cls : String) : List Method := r.methods.filter (·.cls == cls)

/-- The classes that have methods, in the order of their first ones. -/
def classes (r : Registry) : List String := (r.methods.map (·.cls)).eraseDups

def size (r : Registry) : Nat := r.methods.length

def hasName (r : Registry) (cName : String) : Bool := r.methods.any (·.cName == cName)

/-- Adds a method unless its C name is registered. -/
def insert (r : Registry) (m : Method) : Registry :=
  if r.hasName m.cName then r else ⟨r.methods ++ [m]⟩

theorem methods_insert (r : Registry) (m : Method) :
    (r.insert m).methods = if r.hasName m.cName then r.methods else r.methods ++ [m] := by
  rw [insert]
  split <;> rfl

/-! ### Declarations -/

/-- A method that the bindings do without. -/
def isExcluded (cls name : String) : Bool :=
  Catalogue.excludedMethods.contains name ||
    (cls == "ctx" &&
      (["alloc", "ref", "deref", "set_error", "reset_error"].contains name ||
        Text.occursInString "last_error" name))

/-- The words before the name of a method, less the markers for export and construction. -/
def resultWords (d : Declaration) : List String :=
  d.returnWords.filter fun w => w != "__isl_export" && w != "__isl_constructor"

/-- The type that a declaration returns; `none` if it has no single one. -/
def result? (d : Declaration) : Option CType :=
  match splitOwnership (resultWords d) d.cName with
  | .error _ => none
  | .ok (ownership, words) =>
    let words := words.filter (!isTag ·)
    if words.isEmpty then none
    else some { ownership, base := joinWords words, depth := d.returnDepth }

/-- The method that a declaration makes in its place; `none` if it cannot be read or named. -/
def method? (d : Declaration) (cls name : String) : Option Method :=
  match d.args.mapM Argument.ofTokens, Catalogue.publicName? name, result? d with
  | .ok args, some name, some result =>
    some (Method.nameReceiver
      { cls, name, cName := d.cName, result, args
        isExported := d.returnWords.contains "__isl_export"
        isConstructor := d.returnWords.contains "__isl_constructor"
        mutatorVeto := false })
  | _, _, _ => none

/-- An invocation of a declaration macro, or a helper function. -/
def isSkipped (cName : String) : Bool :=
  Catalogue.skippedNames.contains cName || Text.startsWith cName "ISL_"

/-- What a declaration adds to a registry, if anything. -/
def methodOfText? (text : String) : Except PlacementError (Option Method) :=
  match Declaration.ofText text with
  | .error _ => .ok none
  | .ok d =>
    if isSkipped d.cName then .ok none
    else match Placement.ofName d.cName with
      | .error e => .error e
      | .ok .ignored => .ok none
      | .ok (.method cls name) => .ok (if isExcluded cls name then none else method? d cls name)

def add (r : Registry) (text : String) : Except PlacementError Registry :=
  match methodOfText? text with
  | .error e => .error e
  | .ok none => .ok r
  | .ok (some m) => .ok (r.insert m)

/-- Adds declarations up to the first one that is an error. The registry so far comes with the
error, if there is one. -/
def addAll (r : Registry) : List String → Registry × Option PlacementError
  | [] => (r, none)
  | text :: rest =>
    match r.add text with
    | .ok r => r.addAll rest
    | .error e => (r, some e)

def readHeader (r : Registry) (text : String) : Registry × Option PlacementError :=
  r.addAll (Header.prototypes text)

end Registry

end IslBindings
