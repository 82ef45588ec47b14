import IslBindings.Files.System

/-!
# File trees

A file system in memory: the directories and files by their places, and the working
directory. A path is followed piece by piece from directory to directory. The main
statements: a node is found where it was put, every other place keeps its node, and a
text that was written is read back.
-/

namespace IslBindings.Files

/-- The names that lead from the root to a node, the last first. -/
abbrev Place := List String

inductive Node where
  | directory
  | file (bytes : ByteArray)

instance : DecidableEq Node
  | .directory, .directory => isTrue rfl
  | .directory, .file _ => isFalse Node.noConfusion
  | .file _, .directory => isFalse Node.noConfusion
  | .file a, .file b =>
    decidable_of_iff (a.data = b.data) (Node.file.injEq a b ▸ ByteArray.ext_iff.symm)

structure Tree where
  entries : List (Place × Node)
  here : Place

namespace Tree

/-! ### Nodes -/

/-- The root is always there. -/
def node? (t : Tree) (place : Place) : Option Node :=
  if place = [] then some .directory else t.entries.lookup place

def put (t : Tree) (place : Place) (node : Node) : Tree :=
  { t with entries := (place, node) :: t.entries.filter (·.1 != place) }

def erase (t : Tree) (place : Place) : Tree :=
  { t with entries := t.entries.filter (·.1 != place) }

/-- The directories that lead to a place, and the place as one. -/
def wayTo : Place → List (Place × Node)
  | [] => []
  | name :: above => (name :: above, .directory) :: wayTo above

/-- A tree with nothing but the way to its working directory. -/
def empty (here : Place) : Tree where
  entries := wayTo here
  here := here

theorem here_put (t : Tree) (place : Place) (node : Node) : (t.put place node).here = t.here :=
  rfl

theorem node?_put_self (t : Tree) {place : Place} (node : Node) (h : place ≠ []) :
    (t.put place node).node? place = some node := by
  simp [node?, put, h]

theorem lookup_filter_ne {place other : Place} (h : other ≠ place) (es : List (Place × Node)) :
    (es.filter (·.1 != place)).lookup other = es.lookup other := by
  induction es with
  | nil => rfl
  | cons e es ih =>
    obtain ⟨q, n⟩ := e
    by_cases hq : q = place
    · subst hq
      have ho : (other == q) = false := by simpa using h
      rw [List.filter_cons, if_neg (by simp), List.lookup_cons, ho, ih]
    · rw [List.filter_cons, if_pos (by simpa using hq), List.lookup_cons, List.lookup_cons, ih]

theorem node?_put_of_ne (t : Tree) {place other : Place} (node : Node) (h : other ≠ place) :
    (t.put place node).node? other = t.node? other := by
  have hb : (other == place) = false := by simpa using h
  simp only [node?, put, List.lookup_cons, hb, lookup_filter_ne h]

theorem node?_erase_of_ne (t : Tree) {place other : Place} (h : other ≠ place) :
    (t.erase place).node? other = t.node? other := by
  simp only [node?, erase, lookup_filter_ne h]

/-! ### Paths -/

/-- Where a piece of a path leads from a directory. -/
def step (place : Place) (piece : String) : Place :=
  if Path.isIdle piece then place else if piece = ".." then place.tail else piece :: place

def nameLimit : Nat := 255

def pathLimit : Nat := 4095

/-- Why a path leads nowhere in any tree. -/
def fault? (p : String) : Option FileError :=
  if p.toList.contains '\x00' then some .nulInPath
  else if p = "" then some .notFound
  else if pathLimit < p.utf8ByteSize then some .nameTooLong
  else none

/-- Follows pieces. All that they lead through has to be a directory, but not the end. -/
def walk (t : Tree) : Place → List String → Except FileError Place
  | place, [] => .ok place
  | place, piece :: rest =>
    match t.node? place with
    | some .directory =>
      if nameLimit < piece.utf8ByteSize then .error .nameTooLong
      else walk t (step place piece) rest
    | some (.file _) => .error .notDirectory
    | none => .error .notFound

/-- The place that a path starts from, and the pieces that lead on. -/
def route (t : Tree) (p : String) : Place × List String :=
  match Path.pieces p with
  | "" :: rest => ([], rest)
  | pieces => (t.here, pieces)

def locate (t : Tree) (p : String) : Except FileError Place :=
  match fault? p with
  | some e => .error e
  | none =>
    match t.route p with
    | (start, pieces) => t.walk start pieces

/-- The place of a directory to be created; slashes at the end do not count. -/
def locateNew (t : Tree) (p : String) : Except FileError Place :=
  match fault? p with
  | some e => .error e
  | none =>
    match t.route p with
    | (start, pieces) => t.walk start (pieces.reverse.dropWhile (· == "")).reverse

def nodeAt (t : Tree) (p : String) : Except FileError Node := do
  match t.node? (← t.locate p) with
  | some node => return node
  | none => throw .notFound

/-! ### Operations -/

def isFile (t : Tree) (p : String) : Bool :=
  match t.nodeAt p with
  | .ok (.file _) => true
  | _ => false

def isDirectory (t : Tree) (p : String) : Bool :=
  match t.nodeAt p with
  | .ok .directory => true
  | _ => false

def read (t : Tree) (p : String) : Except FileError ByteArray := do
  match ← t.nodeAt p with
  | .file bytes => return bytes
  | .directory => throw .isDirectory

def readText (t : Tree) (p : String) : Except FileError String := do
  match String.fromUTF8? (← t.read p) with
  | some text => return text
  | none => throw .notText

def write (t : Tree) (p : String) (bytes : ByteArray) : Except FileError Tree := do
  let place ← t.locate p
  if t.node? place = some .directory then throw .isDirectory
  return t.put place (.file bytes)

def writeText (t : Tree) (p text : String) : Except FileError Tree := t.write p text.toUTF8

def createDirectory (t : Tree) (p : String) : Except FileError Tree := do
  let place ← t.locateNew p
  if (t.node? place).isSome then throw .alreadyExists
  return t.put place .directory

def rename (t : Tree) (p q : String) : Except FileError Tree := do
  let source ← t.locate p
  let bytes ← t.read p
  let target ← t.locate q
  if t.node? target = some .directory then throw .isDirectory
  return (t.erase source).put target (.file bytes)

def pathOf (place : Place) : String := Path.ofParts (some "") place

/-- A change of the tree; a failure leaves the tree as it is. -/
def change (f : Tree → Except FileError Tree) : StateM Tree (Except FileError Unit) := fun t =>
  match f t with
  | .ok t => (.ok (), t)
  | .error e => (.error e, t)

instance : FileSystem (StateM Tree) where
  isFile p := fun t => (t.isFile p, t)
  isDirectory p := fun t => (t.isDirectory p, t)
  readText p := fun t => (t.readText p, t)
  writeText p text := change (·.writeText p text)
  createDirectory p := change (·.createDirectory p)
  rename p q := change (·.rename p q)
  workingDirectory := fun t => (pathOf t.here, t)

/-! ### Reading and writing -/

theorem fromUTF8?_toByteArray (s : String) : String.fromUTF8? s.toByteArray = some s := by
  simp only [String.fromUTF8?, dif_pos s.isValidUTF8]
  rfl

/-- A path that can be followed leads to the same place when a file is put anywhere. -/
theorem walk_put {t : Tree} {place : Place} (node : Node) (h : t.node? place ≠ some .directory)
    {pieces : List String} {start target : Place} (hw : t.walk start pieces = .ok target) :
    (t.put place node).walk start pieces = .ok target := by
  induction pieces generalizing start with
  | nil => exact hw
  | cons piece rest ih =>
    rw [walk] at hw ⊢
    rcases hn : t.node? start with - | (- | bytes)
    · simp [hn] at hw
    · have hne : start ≠ place := fun he => h (he ▸ hn)
      rw [node?_put_of_ne t node hne, hn]
      simp only [hn] at hw ⊢
      split at hw
      · exact absurd hw (by simp)
      · next hl =>
        rw [if_neg hl]
        exact ih hw
    · simp [hn] at hw

theorem locate_put {t : Tree} {place : Place} (node : Node) (h : t.node? place ≠ some .directory)
    {p : String} {target : Place} (hp : t.locate p = .ok target) :
    (t.put place node).locate p = .ok target := by
  simp only [locate] at hp ⊢
  split at hp
  · exact absurd hp (by simp)
  · exact walk_put node h hp

theorem readText_writeText {t t' : Tree} {p text : String} (h : t.writeText p text = .ok t') :
    t'.readText p = .ok text := by
  rcases hl : t.locate p with e | place
  · simp [writeText, write, hl, bind, Except.bind] at h
  · by_cases hd : t.node? place = some .directory
    · simp [writeText, write, hl, hd, bind, Except.bind, throw, throwThe, MonadExceptOf.throw] at h
    · have ht : t.put place (.file text.toUTF8) = t' := by
        simpa [writeText, write, hl, hd, bind, Except.bind, pure, Except.pure] using h
      have hroot : place ≠ [] := fun he => hd (by rw [he]; rfl)
      subst ht
      simp [readText, read, nodeAt, locate_put _ hd hl, node?_put_self t _ hroot, bind,
        Except.bind, pure, Except.pure, fromUTF8?_toByteArray]

end Tree

end IslBindings.Files
