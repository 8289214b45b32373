import Evlis.SExpr
import Evlis.Token

/-!
# Reading programs

Tokens are pulled from the text one at a time, with one token of look-ahead, and put together to
S-expressions. What stands behind the place where reading stops is never looked at.
-/

namespace Evlis

/-- Tokens that are pulled from a source, the first of which may have been looked at already. -/
structure TokenStream where
  source : Source
  buffer : Option Token
deriving DecidableEq

namespace TokenStream

def ofString (text : String) : TokenStream := ⟨Source.ofString text, none⟩

/-- Pull a token from the source. A source that has failed has nothing more to give. -/
def pull (s : Source) : Except SyntaxFault (Option Token) × Source :=
  match s.next with
  | .finish => (.ok none, s.exhausted)
  | .token t after => (.ok (some t), after)
  | .stray position c => (.error (.unexpectedChar position c), s.exhausted)

def peek (stream : TokenStream) : Except SyntaxFault (Option Token) × TokenStream :=
  match stream.buffer with
  | some t => (.ok (some t), stream)
  | none =>
    match pull stream.source with
    | (.ok found, source) => (.ok found, ⟨source, found⟩)
    | (.error fault, source) => (.error fault, ⟨source, none⟩)

def advance (stream : TokenStream) : Except SyntaxFault (Option Token) × TokenStream :=
  match stream.buffer with
  | some t => (.ok (some t), ⟨stream.source, none⟩)
  | none =>
    let (found, source) := pull stream.source
    (found, ⟨source, none⟩)

def drop (stream : TokenStream) : TokenStream := ⟨stream.source, none⟩

/-- A measure of what is left: taking a token makes it smaller. -/
def size (stream : TokenStream) : Nat :=
  2 * stream.source.rest.length + if stream.buffer.isSome then 1 else 0

theorem size_drop_of_peek {stream rest : TokenStream} {t : Token}
    (h : stream.peek = (.ok (some t), rest)) : rest.drop.size < stream.size := by
  obtain ⟨source, buffer⟩ := stream
  unfold peek pull at h
  cases buffer with
  | some u =>
    simp only [Prod.mk.injEq] at h
    obtain ⟨_, rfl⟩ := h
    simp [drop, size]
  | none =>
    simp only at h
    cases hn : source.next with
    | finish => rw [hn] at h; simp at h
    | stray p c => rw [hn] at h; simp at h
    | token u after =>
      rw [hn] at h
      simp only [Prod.mk.injEq] at h
      obtain ⟨_, rfl⟩ := h
      have := Source.length_lt_of_next hn
      simp only [drop, size, Option.isSome_none, Bool.false_eq_true, if_false]
      omega

/-- Whether `depth` is as far as nesting may go. -/
def atLimit (limit : Option Nat) (depth : Nat) : Bool :=
  match limit with
  | none => false
  | some n => n ≤ depth

/-- Hand an S-expression to the innermost unfinished list, or have it stand alone. -/
def place (e : SExpr) : List (List SExpr) → SExpr ⊕ List (List SExpr)
  | [] => .inl e
  | elements :: outer => .inr ((e :: elements) :: outer)

/-- Read on with the lists in `unfinished`, innermost first, each with its elements last first. -/
def parseWithin (limit : Option Nat) (unfinished : List (List SExpr)) (stream : TokenStream) :
    Except Fault (Option SExpr) × TokenStream :=
  match h : stream.peek with
  | (.error cause, rest) => (.error (.unreadable cause), rest)
  | (.ok none, rest) =>
    match unfinished with
    | [] => (.ok none, rest)
    | _ :: _ => (.error (.unreadable .unmatchedOpening), rest)
  | (.ok (some (.atom name)), rest) =>
    have := size_drop_of_peek h
    match place (.atom name) unfinished with
    | .inl e => (.ok (some e), rest.drop)
    | .inr unfinished => parseWithin limit unfinished rest.drop
  | (.ok (some .opening), rest) =>
    have := size_drop_of_peek h
    if atLimit limit unfinished.length then (.error .tooDeep, rest.drop)
    else parseWithin limit ([] :: unfinished) rest.drop
  | (.ok (some .closing), rest) =>
    match unfinished with
    | [] => (.error (.unreadable .unexpectedClosing), rest)
    | elements :: outer =>
      have := size_drop_of_peek h
      match place (.ofReversed elements .nil) outer with
      | .inl e => (.ok (some e), rest.drop)
      | .inr unfinished => parseWithin limit unfinished rest.drop
termination_by stream.size

/-- Read one S-expression, or nothing at the end of the text. Lists are nested at most as deep as
the limit says. -/
def parse (limit : Option Nat) (stream : TokenStream) :
    Except Fault (Option SExpr) × TokenStream :=
  parseWithin limit [] stream

end TokenStream

def read (limit : Option Nat) (text : String) : Except Fault SExpr :=
  match (TokenStream.ofString text).parse limit with
  | (.error .tooDeep, _) => .error (.unreadable .tooDeep)
  | (.error fault, _) => .error fault
  | (.ok none, _) => .error (.unreadable .emptyProgram)
  | (.ok (some e), rest) =>
    match rest.peek.1 with
    | .error cause => .error (.unreadable cause)
    | .ok (some t) => .error (.unreadable (.trailing t.text))
    | .ok none => .ok e

end Evlis
