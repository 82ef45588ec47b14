/-!
# Value types

The types that cross the boundary by value, without any conversion.
-/

namespace IslBindings.Catalogue

def enumTypes : List String := [
  "isl_error", "isl_stat", "isl_bool", "isl_dim_type", "isl_schedule_node_type",
  "isl_ast_expr_op_type", "isl_ast_expr_type", "isl_ast_node_type", "isl_ast_loop_type",
  "isl_fold"]

def scalarTypes : List String := [
  "int", "unsigned", "uint32_t", "size_t", "double", "long", "unsigned long", "isl_size"]

/-- A type that is passed and returned by value as it is. -/
def isValueType (base : String) : Bool := enumTypes.contains base || scalarTypes.contains base

/-- The names of the integer arguments through which a function returns a flag. -/
def flagNames : List String := ["exact", "tight"]

end IslBindings.Catalogue
