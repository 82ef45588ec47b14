import IslBindings.Text.Search

/-!
# Paths

A path is text with slashes between its pieces. An empty piece or a dot leads
nowhere; at the front it anchors the path, to the root or to the working directory.
The main statements: joining keeps an absolute path and puts any other behind its
base.
-/

namespace IslBindings.Files.Path

/-! ### Joining -/

def isAbsolute (p : String) : Bool := Text.startsWith p "/"

/-- The path `p` seen from the directory `base`. -/
def join (base p : String) : String :=
  if isAbsolute p || base == "" then p
  else if Text.endsWith base "/" then base ++ p
  else base ++ "/" ++ p

theorem join_of_isAbsolute (base : String) {p : String} (h : isAbsolute p) : join base p = p := by
  simp [join, h]

theorem join_empty_left (p : String) : join "" p = p := by
  simp [join]

theorem join_of_slash {base p : String} (hp : isAbsolute p = false) (hb : base ≠ "")
    (hs : Text.endsWith base "/") : join base p = base ++ p := by
  simp [join, hp, hb, hs]

theorem join_of_name {base p : String} (hp : isAbsolute p = false) (hb : base ≠ "")
    (hs : Text.endsWith base "/" = false) : join base p = base ++ "/" ++ p := by
  simp [join, hp, hb, hs]

/-! ### Pieces -/

def pieces (p : String) : List String := (Text.splitAtChar '/' p.toList).map String.ofList

/-- The piece leads nowhere. -/
def isIdle (piece : String) : Bool := piece == "" || piece == "."

/-- The anchor of a path and the pieces after it, the last first. -/
def parts (p : String) : Option String × List String :=
  match pieces p with
  | [] => (none, [])
  | head :: rest =>
    if isIdle head then (some head, rest.reverse) else (none, (head :: rest).reverse)

/-- The path of an anchor and pieces, the last first. -/
def ofParts : Option String → List String → String
  | some "", [] => "/"
  | anchor, body => "/".intercalate (anchor.toList ++ body.reverse)

/-- The path `p` from the root, seen from the directory `here`, without pieces that lead nowhere.
A slash at the end stays. -/
def absolute (here p : String) : String :=
  let names := (pieces p).filter (!isIdle ·)
  let whole := names.foldl join (if isAbsolute p then "/" else here)
  if Text.endsWith p "/" then join whole "" else whole

/-! ### Directories above -/

/-- The path without its last piece; `none` for the root and for the empty path. -/
def parent? (p : String) : Option String :=
  match parts p with
  | (anchor, body) =>
    match body.dropWhile isIdle with
    | [] => if anchor = some "." then some "" else none
    | _ :: rest => some (ofParts anchor (rest.dropWhile isIdle))

/-- The paths that end in a piece that leads somewhere, the longest first. -/
def leading (anchor : Option String) : List String → List String
  | [] => []
  | piece :: rest =>
    if isIdle piece then leading anchor rest
    else ofParts anchor (piece :: rest) :: leading anchor rest

/-- A path and the paths of the directories that it leads through, the longest first. -/
def lineage (p : String) : List String :=
  if p = "" then []
  else match parts p with
    | (anchor, body) => p :: (leading anchor body).tail

end IslBindings.Files.Path
