import Evlis.Name
import Evlis.SExpr

/-!
# Values

Programs and the data they work on have one representation: atoms, pairs, closures, and integers
that come from outside the language.

Pairs, closures and the links of an environment carry a mark of some type `ι`. A program cannot
tell two equal pairs apart, so programs are run with the trivial marks of type `Unit`, for which
equal values are the same value. Where results are asked whether they are one and the same object
they are marked by numbers.
-/

namespace Evlis

/-- A supply of marks: a first one, and a new one after each. -/
class Marking (ι : Type) where
  first : ι
  next : ι → ι

instance : Marking Unit := ⟨(), fun _ => ()⟩

instance : Marking Nat := ⟨0, Nat.succ⟩

/-- A link of an environment: the number of a frame in the state. -/
structure Rib (ι : Type) where
  mark : ι
  frame : Nat
deriving DecidableEq

/-- An environment is a chain of frames, innermost first. -/
abbrev Env (ι : Type) := List (Rib ι)

/-- What expressions are made of and evaluate to. -/
inductive Value (ι : Type) where
  | atom (name : String)
  | pair (mark : ι) (car cdr : Value ι)
  /-- A lambda expression, with its parameters and its body, in the environment it was evaluated
  in. -/
  | closure (mark : ι) (lambda formals body : Value ι) (env : Env ι)
  /-- An integer from outside, which is no atom. -/
  | foreign (n : Int)
deriving DecidableEq

namespace Value

variable {ι : Type}

/-- The empty list, and the only false value. -/
def nil : Value ι := .atom "nil"

def t : Value ι := .atom "t"

def truth (flag : Bool) : Value ι := if flag then t else nil

def isNil : Value ι → Bool
  | .atom name => name == "nil"
  | _ => false

def isAtom : Value ι → Bool
  | .atom _ => true
  | _ => false

def isInteger : Value ι → Bool
  | .atom name => Name.isInteger name
  | _ => false

/-- The number of pairs in the chain that the value starts, on top of `n`. -/
def lengthFrom (n : Nat) : Value ι → Nat
  | .pair _ _ cdr => lengthFrom (n + 1) cdr
  | _ => n

def length (v : Value ι) : Nat := lengthFrom 0 v

/-- The elements of a chain of pairs, last first, in front of those already `seen`. -/
def elementsOnto (seen : List (Value ι)) : Value ι → List (Value ι)
  | .pair _ car cdr => elementsOnto (car :: seen) cdr
  | _ => seen

def elements (v : Value ι) : List (Value ι) := (elementsOnto [] v).reverse

theorem lengthFrom_eq (n : Nat) (v : Value ι) : lengthFrom n v = n + v.length := by
  induction v generalizing n with
  | pair mark car cdr _ ih =>
    simp only [length, lengthFrom]
    rw [ih (n + 1), ih (0 + 1)]
    omega
  | _ => simp [length, lengthFrom]

@[simp]
theorem length_pair (mark : ι) (car cdr : Value ι) :
    (pair mark car cdr).length = cdr.length + 1 := by
  rw [length, lengthFrom, lengthFrom_eq]
  omega

theorem elementsOnto_eq (seen : List (Value ι)) (v : Value ι) :
    elementsOnto seen v = v.elements.reverse ++ seen := by
  induction v generalizing seen with
  | pair mark car cdr _ ih =>
    simp only [elements, elementsOnto]
    rw [ih (car :: seen), ih [car]]
    simp
  | _ => simp [elements, elementsOnto]

@[simp]
theorem elements_pair (mark : ι) (car cdr : Value ι) :
    (pair mark car cdr).elements = car :: cdr.elements := by
  rw [elements, elementsOnto, elementsOnto_eq]
  simp

theorem length_elements (v : Value ι) : v.elements.length = v.length := by
  induction v with
  | pair mark car cdr _ ih => simp [ih]
  | _ => simp [elements, elementsOnto, length, lengthFrom]

/-- What stands behind the last pair of a chain. -/
def ending : Value ι → Value ι
  | .pair _ _ cdr => ending cdr
  | v => v

/-- Equality as the language sees it: pairs are equal when their parts are, and a closure only to
itself. -/
def alike [DecidableEq ι] : Value ι → Value ι → Bool
  | .atom m, .atom n => m == n
  | .pair _ a b, .pair _ c d => alike a c && alike b d
  | .closure i l f b e, .closure j l' f' b' e' =>
    i = j && (l = l' && f = f' && b = b' && e = e')
  | .foreign m, .foreign n => m == n
  | _, _ => false

/-- The value of a program text behind elements that are given last first, with trivial marks. -/
def ofSExprOnto (seen : List (Value Unit)) : SExpr → Value Unit
  | .atom name => seen.foldl (fun tail v => .pair () v tail) (.atom name)
  | .pair car cdr => ofSExprOnto (ofSExprOnto [] car :: seen) cdr

def ofSExpr (e : SExpr) : Value Unit := ofSExprOnto [] e

theorem ofSExprOnto_eq (seen : List (Value Unit)) (e : SExpr) :
    ofSExprOnto seen e = seen.foldl (fun tail v => .pair () v tail) (ofSExpr e) := by
  induction e generalizing seen with
  | atom name => simp [ofSExpr, ofSExprOnto]
  | pair car cdr _ ih =>
    simp only [ofSExpr, ofSExprOnto]
    rw [ih, ih [_]]
    simp

@[simp]
theorem ofSExpr_atom (name : String) : ofSExpr (.atom name) = .atom name := rfl

@[simp]
theorem ofSExpr_pair (car cdr : SExpr) :
    ofSExpr (.pair car cdr) = .pair () (ofSExpr car) (ofSExpr cdr) := by
  rw [ofSExpr, ofSExprOnto, ofSExprOnto_eq]
  rfl

end Value

end Evlis
