import IslBindings.Text.Capital
import IslBindings.Text.Search

/-!
# Class names in the bindings

The name under which the documentation of the bindings knows a class:
`pw_qpolynomial` is `PwQPolynomial` and `ctx` is `Context`.
-/

namespace IslBindings.Catalogue

open Text

/-- Drops underscores and writes the character after each in capitals; the flag says that the
next character is to be written so. -/
def camelCase : Bool → List Char → List Char
  | _, [] => []
  | capital, c :: rest =>
    if c = '_' then camelCase true rest
    else if capital then capitals c ++ camelCase false rest
    else c :: camelCase false rest

def capitalPoly : List Char → List Char
  | 'Q' :: 'p' :: 'o' :: 'l' :: 'y' :: rest => 'Q' :: 'P' :: 'o' :: 'l' :: 'y' :: capitalPoly rest
  | c :: rest => c :: capitalPoly rest
  | [] => []

def boundClass (cls : String) : String :=
  let cls := (afterStart? "isl_" cls).getD cls
  if cls = "ctx" then "Context" else String.ofList (capitalPoly (camelCase true cls.toList))

def classRole (cls : String) : String := ":class:`" ++ boundClass cls ++ "`"

end IslBindings.Catalogue
