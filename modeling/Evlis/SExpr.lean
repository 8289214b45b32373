/-!
# S-expressions

What a program text stands for: atoms, and pairs of S-expressions. Lists are chains of pairs that
end in the atom `nil`.
-/

namespace Evlis

inductive SExpr where
  | atom (name : String)
  | pair (car cdr : SExpr)
deriving DecidableEq

namespace SExpr

/-- The empty list is an atom. -/
def nil : SExpr := .atom "nil"

/-- The list of the given elements, which are given last first, in front of `tail`. -/
def ofReversed (elements : List SExpr) (tail : SExpr) : SExpr :=
  elements.foldl (fun rest e => .pair e rest) tail

def ofList (elements : List SExpr) : SExpr :=
  ofReversed elements.reverse nil

end SExpr

end Evlis
