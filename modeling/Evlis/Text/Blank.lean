/-!
# Blank characters

The white space of Unicode, and a text without the white space around it.
-/

namespace Evlis.Text

/-- The code points of white space outside ASCII. -/
def wideBlanks : List Nat :=
  [0x85, 0xa0, 0x1680, 0x2000, 0x2001, 0x2002, 0x2003, 0x2004, 0x2005, 0x2006, 0x2007, 0x2008,
   0x2009, 0x200a, 0x2028, 0x2029, 0x202f, 0x205f, 0x3000]

/-- White space that may stand around a number: blanks, tabulators, line ends and page ends. -/
def isPadding (c : Char) : Bool :=
  c = ' ' || (0x09 ≤ c.toNat && c.toNat ≤ 0x0d) || wideBlanks.contains c.toNat

/-- White space, the four information separators of ASCII included. -/
def isBlank (c : Char) : Bool :=
  isPadding c || (0x1c ≤ c.toNat && c.toNat ≤ 0x1f)

/-- The text without the characters of the class at its two ends. -/
def trimBy (drop : Char → Bool) (text : List Char) : List Char :=
  (((text.dropWhile drop).reverse).dropWhile drop).reverse

def trim (text : String) : String :=
  String.ofList (trimBy isBlank text.toList)

def isBlankText (text : String) : Bool :=
  text.toList.all isBlank

end Evlis.Text
