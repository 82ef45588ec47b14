import IslBindings.Header.LogicalLine
import IslBindings.Token

/-!
# Prototypes

The search for function prototypes in a header, one logical line after the other.
Comments and brace blocks are skipped to the line that ends them, typedefs, `extern`
lines, lone closing braces and forward declarations are skipped alone, and what is
left is collected until as many parentheses are closed as are open.
-/

namespace IslBindings.Header

open Text

/-! ### Forward declarations -/

/-- How much of `struct NAME ;` the tokens so far are. -/
inductive ForwardState where
  | nothing
  | structWord
  | named
  deriving DecidableEq, Repr

/-- An `__isl_export` before the name does not count. -/
def ForwardState.afterWord (w : String) : ForwardState → ForwardState
  | .nothing => if w = "struct" then .structWord else .nothing
  | .structWord => if w = "__isl_export" then .structWord else .named
  | .named => .nothing

def forwardFrom : ForwardState → List Token → Bool
  | _, [] => false
  | .named, .semicolon :: _ => true
  | state, .word w :: rest => forwardFrom (state.afterWord w) rest
  | _, _ :: rest => forwardFrom .nothing rest

/-- Somewhere in the text stands `struct NAME ;`. -/
def declaresStruct (s : List Char) : Bool := forwardFrom .nothing (Token.lex s)

/-! ### The search -/

inductive Search where
  | idle
  /-- Skips up to the line that contains `terminator`. -/
  | skipping (terminator : List Char)
  /-- Collects a prototype of which `start` has been read. -/
  | collecting (start : List Char)
  deriving DecidableEq, Repr

def commentStart : List Char := ['/', '*']

def commentEnd : List Char := ['*', '/']

def externWord : List Char := ['e', 'x', 't', 'e', 'r', 'n']

def typedefWord : List Char := ['t', 'y', 'p', 'e', 'd', 'e', 'f']

/-- As many parentheses are closed as are open, and there is one. -/
def isBalanced (s : List Char) : Bool :=
  0 < s.count '(' && s.count '(' == s.count ')'

/-- Skips from `line` on; the line itself may already hold the terminator. -/
def Search.skip (terminator line : List Char) : Search :=
  if occursIn terminator line then .idle else .skipping terminator

/-- Adds a line to a prototype. The prototype, if the line completes it, comes with the next state. -/
def Search.collect (start line : List Char) : List (List Char) × Search :=
  let sofar := start ++ line ++ [' ']
  if declaresStruct sofar then ([], .idle)
  else if isBalanced sofar then ([trim sofar], .idle)
  else ([], .collecting sofar)

/-- The prototype that a line completes, if any, and the next state. -/
def Search.step (state : Search) (line : List Char) : List (List Char) × Search :=
  match state with
  | .skipping terminator => ([], .skip terminator line)
  | .collecting start => Search.collect start line
  | .idle =>
    if line.isEmpty || externWord.isPrefixOf line then ([], .idle)
    else if occursIn commentStart line then ([], .skip commentEnd line)
    else if line.getLast? == some '\x7b' then ([], .skip ['\x7d'] line)
    else if typedefWord.isPrefixOf line || line == ['\x7d'] || declaresStruct line then ([], .idle)
    else Search.collect [] line

/-- What is collected when the lines end is a prototype too. -/
def Search.rest : Search → List (List Char)
  | .collecting start => [trim start]
  | _ => []

def searchFrom : Search → List (List Char) → List (List Char)
  | state, [] => state.rest
  | state, line :: lines => (state.step line).1 ++ searchFrom (state.step line).2 lines

/-- The prototypes that a header declares, in order. -/
def prototypes (text : String) : List String :=
  (searchFrom .idle (logicalLines text.toList)).map String.ofList

theorem searchFrom_nil (state : Search) : searchFrom state [] = state.rest := by
  rw [searchFrom]

theorem searchFrom_cons (state : Search) (line : List Char) (lines : List (List Char)) :
    searchFrom state (line :: lines) =
      (state.step line).1 ++ searchFrom (state.step line).2 lines := by
  rw [searchFrom]

def stateAfter (state : Search) (lines : List (List Char)) : Search :=
  lines.foldl (fun s l => (s.step l).2) state

theorem searchFrom_append (state : Search) (ls ms : List (List Char))
    (h : stateAfter state ls = .idle) :
    searchFrom state (ls ++ ms) = searchFrom state ls ++ searchFrom .idle ms := by
  induction ls generalizing state with
  | nil =>
    have hs : state = .idle := h
    subst hs
    rfl
  | cons l ls ih =>
    rw [List.cons_append, searchFrom_cons, searchFrom_cons, ih _ h, List.append_assoc]

end IslBindings.Header
