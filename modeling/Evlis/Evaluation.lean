import Evlis.Pool

/-!
# Evaluation

Evaluating expressions, forms and operand lists with a strategy, to the end or up to the first
expression in tail position. Every function takes the number of steps it may make at most, and
gives nothing if they are not enough.
-/

namespace Evlis

inductive Strategy where
  | inOrder
  | shared (crew : Crew)
deriving DecidableEq

namespace Strategy

def mode : Strategy → Mode
  | inOrder => .inOrder
  | shared _ => .shared

def refuse (fault : Fault) : Strategy → Strategy
  | inOrder => inOrder
  | shared crew => shared (crew.refuse fault)

/-- End the use of a strategy: a crew is dismissed. -/
def close (strategy : Strategy) : Strategy := strategy.refuse .crewClosed

end Strategy

namespace Evaluation

variable {ι : Type} [DecidableEq ι] [Marking ι]

/-- Run a thread until `done?` finds what is looked for, and then all that it has handed over to
the end. -/
@[specialize]
def execute {α : Type} (done? : Thread ι → Option α) (fuel : Nat) (limits : Limits)
    (strategy : Strategy) (thread : Thread ι) (s : State ι) :
    Option (α × Strategy × State ι) :=
  match strategy with
  | .inOrder =>
    match Machine.runUntil done? limits fuel thread s with
    | none => none
    | some (result, s) => some (result, .inOrder, s)
  | .shared crew =>
    match (Pool.ofThread crew thread s).runUntil done? limits fuel with
    | none => none
    | some (result, p) =>
      match p.settle limits fuel 1 with
      | none => none
      | some p => some (result, .shared p.crew, p.state)

def evaluate (fuel : Nat) (limits : Limits) (strategy : Strategy) (expr : Value ι) (env : Env ι)
    (s : State ι) : Option (Except Fault (Value ι) × Strategy × State ι) :=
  execute Thread.outcome? fuel limits strategy (.start expr env) s

/-- How many steps the tasks that a failure has left behind make, at most, before their crew is
sent home. -/
def patience : Nat := 10000

/-- Evaluate an expression, and then use the strategy no more. A crew is sent home as soon as there
is an outcome, even if tasks are still at work; it is waited for all the same. -/
def evaluateLast (fuel : Nat) (limits : Limits) (strategy : Strategy) (expr : Value ι)
    (env : Env ι) (s : State ι) : Option (Except Fault (Value ι) × State ι) :=
  match strategy with
  | .inOrder => Machine.runUntil Thread.outcome? limits fuel (.start expr env) s
  | .shared crew =>
    match (Pool.ofThread crew (.start expr env) s).runUntil Thread.outcome? limits fuel with
    | none => none
    | some (outcome, p) =>
      match (p.attend limits patience 1).dismiss.settle limits fuel 1 with
      | none => none
      | some p => some (outcome, p.state)

/-- Evaluate an expression up to its first expression in tail position. -/
def evaluateOnce (fuel : Nat) (limits : Limits) (strategy : Strategy) (expr : Value ι)
    (env : Env ι) (s : State ι) : Option (Except Fault (Answer ι) × Strategy × State ι) :=
  execute Thread.answer? fuel limits strategy (.start expr env) s

/-- Evaluate a form with the given operands up to its first expression in tail position. -/
def evaluateForm (fuel : Nat) (limits : Limits) (strategy : Strategy) (form : Form)
    (tail : Value ι) (env : Env ι) (s : State ι) :
    Option (Except Fault (Answer ι) × Strategy × State ι) :=
  let (thread, s) := Machine.form limits strategy.mode form tail env [] s
  execute Thread.answer? fuel limits strategy thread s

def evaluateAll (fuel : Nat) (limits : Limits) (strategy : Strategy) (exprs : Value ι)
    (env : Env ι) (s : State ι) : Option (Except Fault (Value ι) × Strategy × State ι) :=
  let (thread, s) := Machine.operands limits strategy.mode exprs env .collect [] s
  execute Thread.outcome? fuel limits strategy thread s

/-- Apply the first element of a list to the others, up to an expression in tail position. -/
def apply (limits : Limits) (call : Value ι) (s : State ι) :
    Option (Except Fault (Answer ι)) × State ι :=
  let (thread, s) := Machine.apply limits call [] s
  (thread.answer?, s)

/-- The operands whose evaluation a thread starts by itself, behind those already `seen`, last
first. -/
def startedInOrder (limits : Limits) : (fuel : Nat) → List (Value ι) → Thread ι → State ι →
    List (Value ι)
  | 0, seen, _, _ => seen
  | fuel + 1, seen, thread, s =>
    let seen := match thread.starting? with
      | some expr => expr :: seen
      | none => seen
    match thread.outcome? with
    | some _ => seen
    | none =>
      let (thread, s) := Machine.step limits .inOrder thread s
      startedInOrder limits fuel seen thread s

/-- The operands whose evaluation the calling thread of a pool starts by itself, behind those
already `seen`, last first. -/
def startedShared (limits : Limits) : (fuel : Nat) → List (Value ι) → Pool ι → List (Value ι)
  | 0, seen, _ => seen
  | fuel + 1, seen, p =>
    match p.caller?.bind Thread.outcome? with
    | some _ => seen
    | none =>
      let number := p.focus p.tasks.size 0
      let seen := match p.tasks[number]? with
        | none => seen
        | some task =>
          match number, task.thread.starting? with
          | 0, some expr => expr :: seen
          | _, _ => seen
      match p.step limits number with
      | none => seen
      | some p => startedShared limits fuel seen p

/-- The operands of a list whose evaluation the caller starts by itself, in order. -/
def startedOperands (fuel : Nat) (limits : Limits) (strategy : Strategy) (exprs : Value ι)
    (env : Env ι) (s : State ι) : List (Value ι) :=
  let (thread, s) := Machine.operands limits strategy.mode exprs env .collect [] s
  let started := match strategy with
    | .inOrder => startedInOrder limits fuel [] thread s
    | .shared crew => startedShared limits fuel [] (.ofThread crew thread s)
  started.reverse

end Evaluation

end Evlis
