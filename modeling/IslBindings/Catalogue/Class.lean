import IslBindings.Text.Search

/-!
# Classes

The isl classes by output part, the releases that added some of them, and the
relations between them that the bindings use. The order of the tables is the order
of the output.
-/

namespace IslBindings.Catalogue

/-! ### Parts -/

/-- Lists, contexts, values, affine expressions and spaces. -/
def firstPart : List String := [
  "id_list", "val_list", "basic_set_list", "basic_map_list", "set_list", "map_list",
  "constraint_list", "aff_list", "pw_aff_list", "pw_multi_aff_list", "ast_expr_list",
  "ast_node_list", "qpolynomial_list", "pw_qpolynomial_list", "pw_qpolynomial_fold_list",
  "union_pw_aff_list", "union_pw_multi_aff_list", "union_set_list", "union_map_list",
  "id_to_ast_expr", "ctx", "printer", "val", "multi_val", "vec", "mat", "fixed_box", "aff",
  "pw_aff", "union_pw_aff", "multi_aff", "multi_pw_aff", "pw_multi_aff", "union_pw_multi_aff",
  "multi_union_pw_aff", "id", "multi_id", "constraint", "space", "local_space"]

/-- Sets, maps and points. -/
def secondPart : List String := [
  "basic_set", "basic_map", "set", "map", "union_map", "union_set", "point", "vertex", "cell",
  "vertices", "stride_info"]

/-- Polynomials, schedules, flow and syntax trees. -/
def thirdPart : List String := [
  "qpolynomial", "pw_qpolynomial", "qpolynomial_fold", "pw_qpolynomial_fold",
  "union_pw_qpolynomial_fold", "union_pw_qpolynomial", "term", "schedule",
  "schedule_constraints", "schedule_node", "access_info", "flow", "restriction",
  "union_access_info", "union_flow", "ast_expr", "ast_node", "ast_print_options", "ast_build"]

/-- The classes of each output part. Parts keep the generated files small. -/
def parts : List (String × List String) :=
  [("part1", firstPart), ("part2", secondPart), ("part3", thirdPart)]

def classes : List String := parts.flatMap (·.2)

theorem classes_nodup : classes.Nodup := by
  decide +kernel

/-! ### Names that start with a class -/

def longer (best : Option String) (cls : String) : Option String :=
  match best with
  | some b => if cls.length ≤ b.length then some b else some cls
  | none => some cls

def longestClass? (name : String) : Option String :=
  (classes.filter (Text.startsWith name ·)).foldl longer none

/-! ### Properties of classes -/

def nonCopyable : List String := ["ctx", "printer", "access_info"]

/-- Classes whose setters of callbacks give the callback back, so that the caller can keep it
alive as long as the object holds it. -/
def callbackHolders : List String := ["ast_build", "ast_print_options"]

/-- The classes that are not in every release, with the first release that has each. -/
def addedIn : List (String × Nat) :=
  [("union_pw_aff", 15), ("multi_union_pw_aff", 15), ("basic_map_list", 15), ("map_list", 15),
    ("union_set_list", 15)]

/-- A release has a class; no release stands for the newest. -/
def isAvailable (cls : String) (release : Option Nat) : Bool :=
  match release, addedIn.lookup cls with
  | some version, some added => added ≤ version
  | _, _ => true

theorem isAvailable_none (cls : String) : isAvailable cls none = true := rfl

/-- Pairs of a general class and the specific class into which it converts: methods of the
specific class are forwarded to the general one. -/
def upcasts (part : String) : List (String × String) :=
  if part = "part1" then
    [("aff", "pw_aff"), ("pw_aff", "union_pw_aff"), ("aff", "union_pw_aff"),
      ("space", "local_space"), ("multi_aff", "pw_multi_aff"),
      ("pw_multi_aff", "union_pw_multi_aff"), ("multi_aff", "union_pw_multi_aff")]
  else if part = "part2" then
    [("basic_set", "set"), ("set", "union_set"), ("basic_set", "union_set"),
      ("basic_map", "map"), ("map", "union_map"), ("basic_map", "union_map")]
  else []

end IslBindings.Catalogue
