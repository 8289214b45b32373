/-!
# Text files

The text that the bytes of a file stand for: UTF-8 in its shortest form, without surrogates, and
with one spelling of the end of a line.
-/

namespace Evlis.Text

inductive DecodeReason where
  | invalidStart
  | invalidContinuation
  | truncated
deriving DecidableEq

/-- The first place where bytes are no text: `size` bytes from `position` on, the first being
`byte`. -/
structure DecodeFault where
  position : Nat
  size : Nat
  byte : UInt8
  reason : DecodeReason
deriving DecidableEq

def isContinuation (b : UInt8) : Bool := 0x80 ≤ b && b < 0xc0

/-- Whether `b` may follow `lead`: neither a longer form than needed, nor a surrogate, nor a code
point beyond the last. -/
def mayFollow (lead b : UInt8) : Bool :=
  isContinuation b &&
    (if lead = 0xe0 then 0xa0 ≤ b
     else if lead = 0xed then b < 0xa0
     else if lead = 0xf0 then 0x90 ≤ b
     else if lead = 0xf4 then b < 0x90
     else true)

/-- The six low bits of the bytes after a lead, put behind its own low bits. -/
def codePoint (lead : Nat) (rest : List UInt8) : Char :=
  Char.ofNat (rest.foldl (fun n b => 64 * n + b.toNat % 64) lead)

/-- Decode from `position` on, behind the text `done` read so far. -/
def decodeFrom (position : Nat) (done : String) : List UInt8 → Except DecodeFault String
  | [] => .ok done
  | a :: rest =>
    let bad (size : Nat) (reason : DecodeReason) : Except DecodeFault String :=
      .error ⟨position, size, a, reason⟩
    if a < 0x80 then decodeFrom (position + 1) (done.push (Char.ofNat a.toNat)) rest
    else if a < 0xc2 || 0xf5 ≤ a then bad 1 .invalidStart
    else
      match rest with
      | [] => bad 1 .truncated
      | b :: rest =>
        if !mayFollow a b then bad 1 .invalidContinuation
        else if a < 0xe0 then
          decodeFrom (position + 2) (done.push (codePoint (a.toNat % 32) [b])) rest
        else
          match rest with
          | [] => bad 2 .truncated
          | c :: rest =>
            if !isContinuation c then bad 2 .invalidContinuation
            else if a < 0xf0 then
              decodeFrom (position + 3) (done.push (codePoint (a.toNat % 16) [b, c])) rest
            else
              match rest with
              | [] => bad 3 .truncated
              | d :: rest =>
                if !isContinuation d then bad 3 .invalidContinuation
                else decodeFrom (position + 4) (done.push (codePoint (a.toNat % 8) [b, c, d])) rest

def decode (bytes : List UInt8) : Except DecodeFault String :=
  decodeFrom 0 "" bytes

/-- The characters of a text with every end of a line written as a line feed, behind those already
`seen`, last first. A carriage return ends a line, alone or with a line feed. -/
def unifyLinesOnto (seen : List Char) : List Char → List Char
  | [] => seen.reverse
  | '\r' :: '\n' :: rest => unifyLinesOnto ('\n' :: seen) rest
  | '\r' :: rest => unifyLinesOnto ('\n' :: seen) rest
  | c :: rest => unifyLinesOnto (c :: seen) rest

/-- Every end of a line written as a line feed. -/
def unifyLines (text : String) : String := String.ofList (unifyLinesOnto [] text.toList)

theorem unifyLinesOnto_eq (seen : List Char) {text : List Char} (h : '\r' ∉ text) :
    unifyLinesOnto seen text = seen.reverse ++ text := by
  induction text generalizing seen with
  | nil => simp [unifyLinesOnto]
  | cons c text ih =>
    rw [List.mem_cons, not_or] at h
    rw [unifyLinesOnto]
    · rw [ih _ h.2]
      simp
    · intro rest hc
      exact absurd hc.symm h.1
    · intro hc
      exact absurd hc.symm h.1

/-- A text without carriage returns stays as it is. -/
theorem unifyLines_eq {text : String} (h : '\r' ∉ text.toList) : unifyLines text = text := by
  rw [unifyLines, unifyLinesOnto_eq [] h]
  simp

end Evlis.Text
