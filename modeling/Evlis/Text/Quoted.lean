import Evlis.Text.Printable

/-!
# Quoted text

A text between quotes, as messages show it: the quotes are single unless the text holds a single
quote and no double one, and what is not printable is written as an escape.
-/

namespace Evlis.Text

/-- The lower-case hexadecimal digits of `n`, with zeros in front up to `width` places. -/
def hexadecimal (width n : Nat) : List Char :=
  let digits := Nat.toDigits 16 n
  List.replicate (width - digits.length) '0' ++ digits

/-- One character of a text between the given quotes. -/
def quotedChar (delimiter c : Char) : List Char :=
  if c = delimiter || c = '\\' then ['\\', c]
  else if c = '\n' then ['\\', 'n']
  else if c = '\r' then ['\\', 'r']
  else if c = '\t' then ['\\', 't']
  else if isPrintable c then [c]
  else if c.toNat < 0x100 then '\\' :: 'x' :: hexadecimal 2 c.toNat
  else if c.toNat < 0x10000 then '\\' :: 'u' :: hexadecimal 4 c.toNat
  else '\\' :: 'U' :: hexadecimal 8 c.toNat

def delimiterOf (text : List Char) : Char :=
  if text.contains '\x27' && !text.contains '\x22' then '\x22' else '\x27'

def quoted (text : String) : String :=
  let chars := text.toList
  let delimiter := delimiterOf chars
  String.ofList (delimiter :: chars.flatMap (quotedChar delimiter) ++ [delimiter])

end Evlis.Text
