import Evlis.Fault

/-!
# Tokens

A program text is cut into parentheses and names. A `Source` is the part of the text that has not
been cut yet, and gives one token at a time.
-/

namespace Evlis

inductive Token where
  | opening
  | closing
  | atom (name : String)
deriving DecidableEq

def Token.text : Token → String
  | .opening => "("
  | .closing => ")"
  | .atom name => name

namespace Token

def isSpace (c : Char) : Bool :=
  c = ' ' || c = '\t' || c = '\r' || c = '\n'

/-- The characters that names are made of: ASCII letters, digits and operator signs. -/
def isNameChar (c : Char) : Bool :=
  c.isAlphanum || c = '+' || c = '-' || c = '*' || c = '/' || c = '=' || c = '>' || c = '<'

end Token

/-- The rest of a program text, and how many characters stand in front of it. -/
structure Source where
  position : Nat
  rest : List Char
deriving DecidableEq

namespace Source

def ofString (text : String) : Source := ⟨0, text.toList⟩

inductive Found where
  /-- Nothing but white space is left. -/
  | finish
  /-- A token, and the source after it. -/
  | token (t : Token) (after : Source)
  /-- A character that no token starts with. -/
  | stray (position : Nat) (c : Char)

def exhausted (s : Source) : Source := { s with rest := [] }

/-- The token at the head of the text, which starts with no white space. -/
def head (s : Source) : Found :=
  match s.rest with
  | [] => .finish
  | c :: rest =>
    if c = '(' then .token .opening ⟨s.position + 1, rest⟩
    else if c = ')' then .token .closing ⟨s.position + 1, rest⟩
    else if Token.isNameChar c then
      let name := c :: rest.takeWhile Token.isNameChar
      .token (.atom (String.ofList name))
        ⟨s.position + name.length, rest.dropWhile Token.isNameChar⟩
    else .stray s.position c

def skipSpace (s : Source) : Source :=
  ⟨s.position + (s.rest.takeWhile Token.isSpace).length, s.rest.dropWhile Token.isSpace⟩

def next (s : Source) : Found := s.skipSpace.head

theorem length_dropWhile_le (p : Char → Bool) (cs : List Char) :
    (cs.dropWhile p).length ≤ cs.length :=
  (List.dropWhile_sublist p).length_le

/-- A token takes at least one character off the text. -/
theorem length_lt_of_head {s after : Source} {t : Token} (h : s.head = .token t after) :
    after.rest.length < s.rest.length := by
  obtain ⟨position, rest⟩ := s
  unfold head at h
  cases rest with
  | nil => simp at h
  | cons c rest =>
    simp only at h
    have hle := length_dropWhile_le Token.isNameChar rest
    split at h
    · cases h; simp
    · split at h
      · cases h; simp
      · split at h
        · cases h; simp only [List.length_cons]; omega
        · cases h

theorem length_lt_of_next {s after : Source} {t : Token} (h : s.next = .token t after) :
    after.rest.length < s.rest.length :=
  Nat.lt_of_lt_of_le (length_lt_of_head h) (length_dropWhile_le _ _)

/-- The tokens of the source behind those already `found`, last first, and the fault that ends
them. -/
def tokensAfter (found : List Token) (s : Source) : List Token × Option SyntaxFault :=
  match h : s.next with
  | .finish => (found.reverse, none)
  | .stray position c => (found.reverse, some (.unexpectedChar position c))
  | .token t after =>
    have := length_lt_of_next h
    tokensAfter (t :: found) after
termination_by s.rest.length

/-- The tokens of the source up to its end or the first character that belongs to none. -/
def tokens (s : Source) : List Token × Option SyntaxFault := tokensAfter [] s

end Source

end Evlis
