import Evlis.Text.Integer
import Evlis.Text.Quoted

/-!
# Faults

Everything that can go wrong while a program is read or evaluated, and the words it is reported
in. Where a report shows a value, the fault holds the text of it, because the text is made when
the fault arises.
-/

namespace Evlis

/-- The forms whose operands are not all evaluated before anything else. -/
inductive Form where
  | quote
  | list
  | prog2
  | branch
  | lambda
  | letrec
deriving DecidableEq

def Form.ofName? : String → Option Form
  | "quote" => some .quote
  | "list" => some .list
  | "prog2" => some .prog2
  | "if" => some .branch
  | "lambda" => some .lambda
  | "letrec" => some .letrec
  | _ => none

/-- What a form asks of the number of its operands; `list` asks nothing, so that its entry is
never reported. -/
def Form.arityMessage : Form → String
  | .quote => "quote expects exactly 1 argument"
  | .list => "list takes any number of arguments"
  | .prog2 => "prog2 expects exactly 2 arguments"
  | .branch => "if requires a condition, a then-expression and an else-expression"
  | .lambda => "lambda requires a parameter list and a single body"
  | .letrec => "letrec requires a binding list and a single body"

inductive SyntaxFault where
  | unexpectedChar (position : Nat) (c : Char)
  | unmatchedOpening
  | unexpectedClosing
  | emptyProgram
  | trailing (token : String)
  | tooDeep
deriving DecidableEq

def SyntaxFault.message : SyntaxFault → String
  | .unexpectedChar position c =>
    "Unexpected char at " ++ Nat.repr position ++ ": " ++ Text.quoted (String.singleton c)
  | .unmatchedOpening => "Unmatched '('"
  | .unexpectedClosing => "Unexpected ')'"
  | .emptyProgram => "Empty program"
  | .trailing token => "Unexpected " ++ Text.quoted token ++ " after end of program"
  | .tooDeep => "Program is nested too deeply to read"

/-- Why reading, evaluating or printing stops. -/
inductive Fault where
  | unreadable (cause : SyntaxFault)
  | unbound (name : String)
  | improperTail (tail : String)
  | carOfNonPair (value : String)
  | cdrOfNonPair (value : String)
  /-- Only atoms are compared by `==`. -/
  | notAtoms (first second : String)
  | notInteger (operation value : String)
  | illegalFunction (value : String)
  | cannotEvaluate (value : String)
  | cannotPrint (value : String)
  | badParameter (value : String)
  | malformedBinding (value : String)
  | formArity (form : Form)
  | primitiveArity (name : String) (expected got : Nat)
  | closureArity (expected got : Nat) (closure : String)
  | noPrimitive (name : String)
  | divisionByZero
  /-- The list has fewer elements than the selector asks for. -/
  | noElement (index : Int) (list : String)
  /-- The bindings of a frame are installed once. -/
  | frameFilled
  /-- An operand has more digits than are turned into an integer. -/
  | operandDigits (digits : Nat)
  /-- A result has more digits than are turned into text. -/
  | resultDigits
  | tooDeep
  /-- Work was handed to a crew that has been dismissed. -/
  | crewClosed
  /-- No worker of a crew can be started. -/
  | noThread
  | noWorkers
  | tooManyReleases
deriving DecidableEq

inductive Fault.Kind where
  | reading
  | unbound
  | type
  | arity
  | noPrimitive
  | zeroDivision
  | index
  | frame
  | value
  | depth
  | crew
deriving DecidableEq

namespace Fault

def kind : Fault → Kind
  | unreadable _ => .reading
  | unbound _ => .unbound
  | improperTail _ | carOfNonPair _ | cdrOfNonPair _ | notAtoms _ _ | notInteger _ _
  | illegalFunction _ | cannotEvaluate _ | cannotPrint _ | badParameter _
  | malformedBinding _ => .type
  | formArity _ | primitiveArity _ _ _ | closureArity _ _ _ => .arity
  | noPrimitive _ => .noPrimitive
  | divisionByZero => .zeroDivision
  | noElement _ _ => .index
  | frameFilled => .frame
  | operandDigits _ | resultDigits | noWorkers | tooManyReleases => .value
  | tooDeep => .depth
  | crewClosed | noThread => .crew

/-- Whether the fault is one of the language itself, and not of the machine that runs it. -/
def Kind.isLanguage : Kind → Bool
  | .value | .depth | .crew => false
  | _ => true

def Kind.label : Kind → String
  | .reading => "unreadable program"
  | .unbound => "unbound name"
  | .type => "wrong type"
  | .arity => "wrong number of arguments"
  | .noPrimitive => "no such primitive"
  | .zeroDivision => "division by zero"
  | .index => "no such element"
  | .frame => "frame filled twice"
  | .value => "unusable number"
  | .depth => "nested too deeply"
  | .crew => "no crew to work"

/-- The advice given where the digits of a number are too many. -/
def digitAdvice : String := "; use sys.set_int_max_str_digits() to increase the limit"

/-- What stands in front of a report on too many digits. -/
def digitComplaint : String :=
  "Exceeds the limit (" ++ Nat.repr Text.digitLimit ++ " digits) for integer string conversion"

def message : Fault → String
  | unreadable cause => cause.message
  | unbound name => "No value for " ++ name
  | improperTail tail => "Expected a proper list, found tail " ++ tail
  | carOfNonPair value => "car of non-pair " ++ value
  | cdrOfNonPair value => "cdr of non-pair " ++ value
  | notAtoms first second => "== with lists: " ++ first ++ ", " ++ second
  | notInteger operation value => operation ++ " expects integer operands, got " ++ value
  | illegalFunction value => "Illegal function " ++ value
  | cannotEvaluate value => "Cannot evaluate " ++ value
  | cannotPrint value => "Cannot print non-S-expression " ++ value
  | badParameter value => "Invalid lambda parameter " ++ value
  | malformedBinding value => "Malformed letrec binding " ++ value
  | formArity form => form.arityMessage
  | primitiveArity name expected got =>
    name ++ " expects " ++ Nat.repr expected ++ " argument(s), got " ++ Nat.repr got
  | closureArity expected got closure =>
    "Closure expects " ++ Nat.repr expected ++ " argument(s), got " ++ Nat.repr got ++ ": "
      ++ closure
  | noPrimitive name => "Couldn't apply primitive " ++ name
  | divisionByZero => "Division by zero"
  | noElement index list => "No element " ++ Text.decimal index ++ " in " ++ list
  | frameFilled => "Binding frame is already filled"
  | operandDigits digits =>
    digitComplaint ++ ": value has " ++ Nat.repr digits ++ " digits" ++ digitAdvice
  | resultDigits => digitComplaint ++ digitAdvice
  | tooDeep => "recursion too deep"
  | crewClosed => "cannot schedule new futures after shutdown"
  | noThread => "can't start new thread"
  | noWorkers => "max_workers must be at least 1"
  | tooManyReleases => "Semaphore released too many times"

end Fault

end Evlis
