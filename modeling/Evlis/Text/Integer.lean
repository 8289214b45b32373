import Evlis.Text.Blank

/-!
# Integers as text

The integers that settings and options are given as: a sign, and decimal digits of any script
with single underscores between them. Written, an integer is a sign if it is negative, and the
digits of ASCII.
-/

namespace Evlis.Text

/-- The code points of the zeros of Unicode 14; the nine digits after each follow it in order. -/
def zeros : List Nat :=
  [0x30, 0x660, 0x6f0, 0x7c0, 0x966, 0x9e6, 0xa66, 0xae6, 0xb66, 0xbe6, 0xc66, 0xce6, 0xd66,
   0xde6, 0xe50, 0xed0, 0xf20, 0x1040, 0x1090, 0x17e0, 0x1810, 0x1946, 0x19d0, 0x1a80, 0x1a90,
   0x1b50, 0x1bb0, 0x1c40, 0x1c50, 0xa620, 0xa8d0, 0xa900, 0xa9d0, 0xa9f0, 0xaa50, 0xabf0,
   0xff10, 0x104a0, 0x10d30, 0x11066, 0x110f0, 0x11136, 0x111d0, 0x112f0, 0x11450, 0x114d0,
   0x11650, 0x116c0, 0x11730, 0x118e0, 0x11950, 0x11c50, 0x11d50, 0x11da0, 0x16a60, 0x16ac0,
   0x16b50, 0x1d7ce, 0x1d7d8, 0x1d7e2, 0x1d7ec, 0x1d7f6, 0x1e140, 0x1e2f0, 0x1e950, 0x1fbf0]

def digitValue? (c : Char) : Option Nat :=
  (zeros.find? fun z => z ≤ c.toNat && c.toNat ≤ z + 9).map (c.toNat - ·)

/-- The largest number of digits that is turned into an integer, or an integer into. -/
def digitLimit : Nat := 4300

/-- The values of the digits, a single underscore being allowed between two of them; `due` says
that a digit has to come next. -/
def digitRun? (due : Bool) : List Char → Option (List Nat)
  | [] => if due then none else some []
  | c :: rest =>
    match digitValue? c with
    | some d => (digitRun? false rest).map (d :: ·)
    | none => if c = '_' && !due then digitRun? true rest else none

def ofDigits (digits : List Nat) : Nat :=
  digits.foldl (fun n d => 10 * n + d) 0

/-- The natural number written by a run of at most `digitLimit` digits. -/
def natural? (text : List Char) : Option Nat :=
  match digitRun? true text with
  | some digits => if digits.length ≤ digitLimit then some (ofDigits digits) else none
  | none => none

/-- The integer a text stands for, white space around it aside. -/
def integer? (text : String) : Option Int :=
  match trimBy isPadding text.toList with
  | '-' :: rest => (natural? rest).map fun n => -(n : Int)
  | '+' :: rest => (natural? rest).map fun n => (n : Int)
  | rest => (natural? rest).map fun n => (n : Int)

def decimal : Int → String
  | .ofNat n => Nat.repr n
  | .negSucc n => "-" ++ Nat.repr (n + 1)

end Evlis.Text
