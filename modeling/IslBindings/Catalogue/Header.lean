/-!
# Headers

The headers that are read by default.
-/

namespace IslBindings.Catalogue

/-- In the order in which they are read: the first declaration of a C name counts. -/
def headers : List String := [
  "isl/ctx.h", "isl/id.h", "isl/space.h", "isl/set.h", "isl/map.h", "isl/map_type.h",
  "isl/local_space.h", "isl/aff.h", "isl/polynomial.h", "isl/union_map.h", "isl/union_set.h",
  "isl/printer.h", "isl/vertices.h", "isl/point.h", "isl/constraint.h", "isl/val.h", "isl/vec.h",
  "isl/mat.h", "isl/stride_info.h", "isl/schedule.h", "isl/schedule_node.h", "isl/flow.h",
  "isl/options.h", "isl/ast.h", "isl/ast_build.h", "isl/ast_type.h", "isl/ilp.h"]

/-- The header of the counting extension. -/
def barvinokHeader : String := "barvinok/isl.h"

/-- The headers that define declaration macros. -/
def macroHeaders : List String := ["isl/multi.h", "isl/list.h"]

end IslBindings.Catalogue
