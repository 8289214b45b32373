import Evlis.Evaluation
import Evlis.Reader

/-!
# Interpreters

An interpreter reads and evaluates one program at a time, each in a global environment of its own.
Its strategy is chosen when it is made.
-/

namespace Evlis

structure Interpreter where
  strategy : Strategy
deriving DecidableEq

def defaultWorkers : Int := 32

namespace Interpreter

/-- Make an interpreter; the number of workers counts only if operands are shared out. -/
def create (parallel : Bool) (workers : Option Int) : Except Fault Interpreter :=
  if parallel then
    (Crew.ofSize (workers.getD defaultWorkers)).map fun crew => ⟨.shared crew⟩
  else .ok ⟨.inOrder⟩

def parallel (interpreter : Interpreter) : Bool := interpreter.strategy.mode = .shared

/-- The program of a text, and a global environment to evaluate it in. -/
def load (limits : Limits) (code : String) (s : State Unit) :
    Except Fault (Value Unit × Env Unit) × State Unit :=
  match read limits.nesting code with
  | .error fault => (.error fault, s)
  | .ok program =>
    let s := s.log (.programRead program)
    let (expr, s) := s.load program
    let (env, s) := s.globalEnv
    (.ok (expr, env), s)

def eval (fuel : Nat) (limits : Limits) (interpreter : Interpreter) (code : String)
    (s : State Unit) : Option (Except Fault (Value Unit) × Interpreter × State Unit) :=
  match load limits code s with
  | (.error fault, s) => some (.error fault, interpreter, s)
  | (.ok (expr, env), s) =>
    match Evaluation.evaluate fuel limits interpreter.strategy expr env s with
    | none => none
    | some (outcome, strategy, s) => some (outcome, ⟨strategy⟩, s)

def run (fuel : Nat) (limits : Limits) (interpreter : Interpreter) (code : String)
    (s : State Unit) : Option (Except Fault String × Interpreter × State Unit) :=
  match interpreter.eval fuel limits code s with
  | none => none
  | some (.error fault, interpreter, s) => some (.error fault, interpreter, s)
  | some (.ok v, interpreter, s) => some (v.print limits, interpreter, s)

def close (interpreter : Interpreter) (s : State Unit) : Interpreter × State Unit :=
  (⟨interpreter.strategy.close⟩,
    if interpreter.parallel then s.log .crewDismissed else s)

/-- Run one program in a new interpreter and close it: the printed value, and what was printed and
reported on the way. -/
def runOnce (fuel : Nat) (limits : Limits) (interpreter : Interpreter) (code : String) :
    Option (Except Fault String × State Unit) :=
  match load limits code (State.empty.log (.created interpreter.parallel)) with
  | (.error fault, s) => some (.error fault, (interpreter.close s).2)
  | (.ok (expr, env), s) =>
    match Evaluation.evaluateLast fuel limits interpreter.strategy expr env s with
    | none => none
    | some (outcome, s) => some (outcome.bind (Value.print limits), s)

end Interpreter

def runProgram (fuel : Nat) (limits : Limits) (parallel : Bool) (workers : Option Int)
    (code : String) : Option (Except Fault String × State Unit) :=
  match Interpreter.create parallel workers with
  | .error fault => some (.error fault, .empty)
  | .ok interpreter => interpreter.runOnce fuel limits code

end Evlis
