import Evlis.Printer

/-!
# Events

What an evaluation reports about its own course, for whoever wants to follow it. The parts of the
interpreter report on channels of their own.
-/

namespace Evlis

/-- Something worth a line in a log. -/
inductive Event (ι : Type) where
  | created (parallel : Bool)
  | programRead (program : SExpr)
  /-- A name in front of a call names no primitive. -/
  | primitiveMissing (name : String)
  /-- A primitive was called with a wrong number of arguments. -/
  | primitiveMisused (name : String) (got expected : Nat)
  /-- All slots are taken, so the caller evaluates the operand itself. -/
  | ranInline (cap : Nat) (expr : Value ι)
  | frameFilled (names : Value ι)
  /-- The workers are sent home. -/
  | crewDismissed
deriving DecidableEq

namespace Event

variable {ι : Type}

def channel : Event ι → String
  | created _ => "forklisp.interpreter"
  | programRead _ => "forklisp.reader.parser"
  | primitiveMissing _ | primitiveMisused _ _ _ => "forklisp.builtin.primitives"
  | ranInline _ _ | crewDismissed => "forklisp.evaluation.arguments"
  | frameFilled _ => "forklisp.evaluation.special_forms.letrec_form"

def message : Event ι → String
  | created parallel =>
    "Interpreter created (parallel=" ++ (if parallel then "True" else "False") ++ ")"
  | programRead program => "Read program: " ++ (Value.ofSExpr program).text
  | primitiveMissing name => "No primitive named " ++ name
  | primitiveMisused name got expected =>
    name ++ " called with " ++ Nat.repr got ++ " argument(s), expects " ++ Nat.repr expected
  | ranInline cap expr =>
    "Fan-out cap of " ++ Nat.repr cap ++ " reached; evaluating " ++ expr.text ++ " inline"
  | frameFilled names => "letrec frame filled: " ++ names.text
  | crewDismissed => "Shutting down argument worker pool"

end Event

end Evlis
