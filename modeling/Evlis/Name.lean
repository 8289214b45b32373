import Evlis.Fault

/-!
# Names

Atoms are names. Some names read as integers: an optional sign and one or more decimal digits.
Arithmetic goes from the name to the integer and back, and refuses what has too many digits.
-/

namespace Evlis.Name

/-- The name without its sign, if it has one. -/
def unsigned : List Char → List Char
  | '+' :: rest => rest
  | '-' :: rest => rest
  | rest => rest

def isInteger (name : String) : Bool :=
  let digits := unsigned name.toList
  !digits.isEmpty && digits.all Char.isDigit

/-- The number of digits of a name that reads as an integer, leading zeros included. -/
def digitCount (name : String) : Nat :=
  (unsigned name.toList).length

def magnitude (digits : List Char) : Nat :=
  digits.foldl (fun n c => 10 * n + (c.toNat - '0'.toNat)) 0

/-- The integer that a name reading as one stands for. -/
def value (name : String) : Int :=
  match name.toList with
  | '-' :: digits => -(magnitude digits : Int)
  | '+' :: digits => magnitude digits
  | digits => magnitude digits

/-- The integer of a name that reads as one, unless its digits are too many. -/
def toInt (name : String) : Except Fault Int :=
  if digitCount name ≤ Text.digitLimit then .ok (value name)
  else .error (.operandDigits (digitCount name))

/-- The name of an integer: its decimal text, unless its digits are too many. -/
def ofInt (n : Int) : Except Fault String :=
  if (Nat.repr n.natAbs).length ≤ Text.digitLimit then .ok (Text.decimal n)
  else .error .resultDigits

end Evlis.Name
