import Evlis.State

/-!
# Primitives

The operations that names stand for in front of a call. They get evaluated arguments, `and` and
`or` included. Besides the names of the table, every name that reads as a positive integer is a
primitive: it selects the element of a list at that place, counted from one.
-/

namespace Evlis

inductive Arithmetic where
  | add
  | sub
  | mul
  | div
deriving DecidableEq

namespace Arithmetic

def symbol : Arithmetic → String
  | add => "+"
  | sub => "-"
  | mul => "*"
  | div => "/"

/-- The exact result; a quotient is rounded toward zero. -/
def compute (m n : Int) : Arithmetic → Except Fault Int
  | add => .ok (m + n)
  | sub => .ok (m - n)
  | mul => .ok (m * n)
  | div => if n = 0 then .error .divisionByZero else .ok (m.tdiv n)

end Arithmetic

inductive Comparison where
  | less
  | greater
deriving DecidableEq

namespace Comparison

def symbol : Comparison → String
  | less => "<"
  | greater => ">"

def holds (m n : Int) : Comparison → Bool
  | less => m < n
  | greater => n < m

end Comparison

inductive Unary where
  | car
  | cdr
  | atom
  | null
  | print
  /-- The element at a place counted from one. -/
  | select (index : Int)
deriving DecidableEq

inductive Binary where
  | cons
  | and
  | or
  | equals
  | arithmetic (operation : Arithmetic)
  | comparison (order : Comparison)
deriving DecidableEq

/-- What a name in front of a call stands for. -/
inductive Primitive where
  | unary (operation : Unary)
  | binary (operation : Binary)
deriving DecidableEq

namespace Primitive

def arity : Primitive → Nat
  | unary _ => 1
  | binary _ => 2

def named? : String → Option Primitive
  | "car" => some (unary .car)
  | "cdr" => some (unary .cdr)
  | "atom" => some (unary .atom)
  | "null" => some (unary .null)
  | "not" => some (unary .null)
  | "print" => some (unary .print)
  | "cons" => some (binary .cons)
  | "and" => some (binary .and)
  | "or" => some (binary .or)
  | "==" => some (binary .equals)
  | "+" => some (binary (.arithmetic .add))
  | "-" => some (binary (.arithmetic .sub))
  | "*" => some (binary (.arithmetic .mul))
  | "/" => some (binary (.arithmetic .div))
  | "<" => some (binary (.comparison .less))
  | ">" => some (binary (.comparison .greater))
  | _ => none

/-- The primitive of a name: one of the table, or a selector. -/
def resolve (name : String) : Except Fault Primitive :=
  match named? name with
  | some primitive => .ok primitive
  | none =>
    if Name.isInteger name then
      match Name.toInt name with
      | .error fault => .error fault
      | .ok index => if 0 < index then .ok (unary (.select index)) else .error (.noPrimitive name)
    else .error (.noPrimitive name)

variable {ι : Type}

/-- The element of a chain of pairs at a place counted from zero. -/
def nth? (index : Nat) : Value ι → Option (Value ι)
  | .pair _ car cdr => if index = 0 then some car else nth? (index - 1) cdr
  | _ => none

def operand (limits : Limits) (operation : String) (v : Value ι) : Except Fault Int :=
  match v with
  | .atom name =>
    if Name.isInteger name then Name.toInt name else .error (.notInteger operation name)
  | v => .error (v.blame limits (.notInteger operation))

/-- Both operands, the first being checked before the second is looked at. -/
def operands (limits : Limits) (operation : String) (v w : Value ι) : Except Fault (Int × Int) :=
  match operand limits operation v with
  | .error fault => .error fault
  | .ok m =>
    match operand limits operation w with
    | .error fault => .error fault
    | .ok n => .ok (m, n)

/-- The atom that an arithmetic operation gives. -/
def calculate (limits : Limits) (operation : Arithmetic) (v w : Value ι) :
    Except Fault (Value ι) :=
  match operands limits operation.symbol v w with
  | .error fault => .error fault
  | .ok (m, n) =>
    match operation.compute m n with
    | .error fault => .error fault
    | .ok result => (Name.ofInt result).map .atom

def compare (limits : Limits) (order : Comparison) (v w : Value ι) : Except Fault (Value ι) :=
  match operands limits order.symbol v w with
  | .error fault => .error fault
  | .ok (m, n) => .ok (.truth (order.holds m n))

/-- Whether two atoms have the same name. -/
def equals (limits : Limits) (v w : Value ι) : Except Fault (Value ι) :=
  match v, w with
  | .atom m, .atom n => .ok (.truth (m == n))
  | v, w =>
    match v.display limits, w.display limits with
    | .ok first, .ok second => .error (.notAtoms first second)
    | .error fault, _ => .error fault
    | _, .error fault => .error fault

def performUnary (limits : Limits) (operation : Unary) (v : Value ι) (s : State ι) :
    Except Fault (Value ι) × State ι :=
  match operation with
  | .car =>
    match v with
    | .pair _ car _ => (.ok car, s)
    | v => (.error (v.blame limits .carOfNonPair), s)
  | .cdr =>
    match v with
    | .pair _ _ cdr => (.ok cdr, s)
    | v => (.error (v.blame limits .cdrOfNonPair), s)
  | .atom => (.ok (.truth v.isAtom), s)
  | .null => (.ok (.truth v.isNil), s)
  | .print =>
    match v.print limits with
    | .ok line => (.ok v, s.printLine line)
    | .error fault => (.error fault, s)
  | .select index =>
    match nth? (index.toNat - 1) v with
    | some element => (.ok element, s)
    | none => (.error (v.blame limits (.noElement index)), s)

def performBinary [Marking ι] (limits : Limits) (operation : Binary) (v w : Value ι)
    (s : State ι) : Except Fault (Value ι) × State ι :=
  match operation with
  | .cons =>
    let (pair, s) := s.cons v w
    (.ok pair, s)
  | .and => (.ok (if v.isNil then v else w), s)
  | .or => (.ok (if v.isNil then w else v), s)
  | .equals => (equals limits v w, s)
  | .arithmetic operation => (calculate limits operation v w, s)
  | .comparison order => (compare limits order v w, s)

/-- Find the primitive of a name, reporting a name without one. -/
def find (name : String) (s : State ι) : Except Fault Primitive × State ι :=
  match resolve name with
  | .ok primitive => (.ok primitive, s)
  | .error (.noPrimitive name) => (.error (.noPrimitive name), s.log (.primitiveMissing name))
  | .error fault => (.error fault, s)

def apply [Marking ι] (limits : Limits) (name : String) (arguments : Value ι) (s : State ι) :
    Except Fault (Value ι) × State ι :=
  match find name s with
  | (.error fault, s) => (.error fault, s)
  | (.ok primitive, s) =>
    match arguments.toList limits with
    | .error fault => (.error fault, s)
    | .ok values =>
      match primitive, values with
      | .unary operation, [v] => performUnary limits operation v s
      | .binary operation, [v, w] => performBinary limits operation v w s
      | primitive, values =>
        (.error (.primitiveArity name primitive.arity values.length),
          s.log (.primitiveMisused name values.length primitive.arity))

end Primitive

/-- The names that the outermost frame binds to themselves. -/
def globalNames : List String :=
  ["t", "nil", "car", "cdr", "cons", "atom", "null", "+", "-", "*", "/", "==", ">", "<", "not",
   "and", "or", "list", "prog2", "print"]

/-- Make an environment in which the global names are bound to themselves. -/
def State.globalEnv {ι : Type} [Marking ι] (s : State ι) : Env ι × State ι :=
  let (names, s) := s.list (globalNames.map .atom)
  s.extend (.filled names names) []

end Evlis
