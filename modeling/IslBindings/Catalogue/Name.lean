import IslBindings.Text.Alphanumeric

/-!
# Names

C names that are no methods, methods that have no binding, and the names that a method
cannot have in the bindings.
-/

namespace IslBindings.Catalogue

/-- Declaration macros and allocation helpers. -/
def skippedNames : List String := [
  "ISL_ARG_DECL", "ISL_DECLARE_LIST", "ISL_DECLARE_LIST_FN", "isl_ast_op_type_print_macro",
  "ISL_DECLARE_MULTI", "ISL_DECLARE_MULTI_CMP", "ISL_DECLARE_MULTI_NEG",
  "ISL_DECLARE_MULTI_DIMS", "ISL_DECLARE_MULTI_WITH_DOMAIN", "ISL_DECLARE_EXPORTED_LIST_FN",
  "ISL_DECLARE_MULTI_IDENTITY", "ISL_DECLARE_MULTI_ARITH", "ISL_DECLARE_MULTI_ZERO",
  "ISL_DECLARE_MULTI_NAN", "ISL_DECLARE_MULTI_DIM_ID", "ISL_DECLARE_MULTI_TUPLE_ID",
  "ISL_DECLARE_MULTI_BIND_DOMAIN", "ISL_DECLARE_MULTI_PARAM", "ISL_DECLARE_MULTI_DROP_DIMS",
  "isl_malloc_or_die", "isl_calloc_or_die", "isl_realloc_or_die", "isl_handle_error"]

/-- Reference counting, which the bindings do themselves. -/
def excludedMethods : List String := ["free", "cow", "ref", "deref"]

def reservedWords : List String := [
  "and", "del", "from", "not", "while", "as", "elif", "global", "or", "with", "assert", "else",
  "if", "pass", "yield", "break", "except", "import", "print", "class", "exec", "in", "raise",
  "continue", "finally", "is", "return", "def", "for", "lambda", "try"]

def renamed? (name : String) : Option String :=
  if name = "2exp" then some "two_exp" else none

/-- The name of a method in the bindings: a reserved word gets an underscore, and a name
that starts with a digit is none. -/
def publicName? (name : String) : Option String :=
  let name := if reservedWords.contains name then name ++ "_" else name
  let name := (renamed? name).getD name
  if name.toList.head?.any Text.isAsciiDigit then none else some name

end IslBindings.Catalogue
