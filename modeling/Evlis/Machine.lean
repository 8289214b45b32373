import Evlis.Primitive

/-!
# The evaluating machine

A thread evaluates one expression by small steps. Its stack holds one entry for every evaluation
that waits for an inner one; an expression in tail position bounces: it takes the place of the
expression it ends and leaves the stack as it is.

Operands are evaluated one after the other, or shared out. A thread that shares out its operands
asks for slots, hands over work and waits for results; those steps need the other threads as well
and stand in `Evlis.Pool`.
-/

namespace Evlis

/-- How the operands of a call are evaluated. -/
inductive Mode where
  /-- From left to right, by the thread that needs them. -/
  | inOrder
  /-- The first by the thread that needs them, the others by other threads while slots last. -/
  | shared
deriving DecidableEq

/-- What evaluated operands are for. -/
inductive Purpose where
  /-- The first is applied to the others. -/
  | call
  /-- They are the result. -/
  | collect
deriving DecidableEq

/-- An operand on its way: handed to another task, or evaluated already. -/
inductive Operand (ι : Type) where
  | task (number : Nat)
  | ready (v : Value ι)
deriving DecidableEq

/-- Operands that are being shared out: the value of the first, those on their way, last first,
those still to come, and what they are for. -/
structure Sharing (ι : Type) where
  head : Value ι
  underway : List (Operand ι)
  rest : List (Value ι)
  env : Env ι
  purpose : Purpose
deriving DecidableEq

/-- Bindings of a `letrec` that are being evaluated: the names and values so far, the bindings
still to come, the body, and the environment with its pending frame. -/
structure Binding (ι : Type) where
  names : Value ι
  values : Value ι
  rest : Value ι
  body : Value ι
  env : Env ι
  frame : Nat
deriving DecidableEq

/-- What an evaluation waiting for an inner one does with its value. -/
inductive Cont (ι : Type) where
  /-- Go on with the operands in `rest`; the values so far are given last first. -/
  | operand (values : List (Value ι)) (rest : Value ι) (env : Env ι) (purpose : Purpose)
  | branch (consequent alternative : Value ι) (env : Env ι)
  | second (expr : Value ι) (env : Env ι)
  | bind (name : Value ι) (binding : Binding ι)
  /-- Share out the operands behind the first. -/
  | share (rest : Value ι) (env : Env ι) (purpose : Purpose)
  | inline (sharing : Sharing ι)
deriving DecidableEq

/-- The calls that a waiting evaluation takes on the stack. The first of several operands that are
shared out takes one less than an operand in order, and one that finds no slot takes one more. -/
def Cont.calls {ι : Type} : Cont ι → Nat
  | .share _ _ _ => 3
  | .inline _ => 5
  | _ => 4

/-- What a thread does next. -/
inductive Control (ι : Type) where
  | enter (expr : Value ι) (env : Env ι)
  /-- Go on with an expression in tail position. -/
  | bounce (expr : Value ι) (env : Env ι)
  /-- Hand a value to whoever waits for it. -/
  | give (v : Value ι)
  | fail (fault : Fault)
  /-- Find someone to evaluate the next operand. -/
  | fork (sharing : Sharing ι)
  /-- Hand over an operand, a slot being taken. -/
  | submit (expr : Value ι) (sharing : Sharing ι)
  /-- Collect operands; the values so far are given last first. -/
  | join (head : Value ι) (values : List (Value ι)) (underway : List (Operand ι))
      (purpose : Purpose)
deriving DecidableEq

/-- An evaluation under way: what is done next, and the evaluations waiting, innermost first. -/
structure Thread (ι : Type) where
  control : Control ι
  stack : List (Cont ι)
deriving DecidableEq

/-- The outcome of an evaluation, or of one step of it: a value, or an expression in tail
position. -/
inductive Answer (ι : Type) where
  | value (v : Value ι)
  | tail (expr : Value ι) (env : Env ι)
deriving DecidableEq

namespace Thread

variable {ι : Type}

def start (expr : Value ι) (env : Env ι) : Thread ι := ⟨.enter expr env, []⟩

/-- The outcome of a thread that has come to its end. -/
def outcome? (thread : Thread ι) : Option (Except Fault (Value ι)) :=
  match thread.control, thread.stack with
  | .fail fault, _ => some (.error fault)
  | .give v, [] => some (.ok v)
  | _, _ => none

/-- The outcome of a thread that has come to its end or to an expression in tail position. -/
def answer? (thread : Thread ι) : Option (Except Fault (Answer ι)) :=
  match thread.control, thread.stack with
  | .fail fault, _ => some (.error fault)
  | .give v, [] => some (.ok (.value v))
  | .bounce expr env, [] => some (.ok (.tail expr env))
  | _, _ => none

/-- The operand that is about to be evaluated for the thread's own operand list. -/
def starting? (thread : Thread ι) : Option (Value ι) :=
  match thread.control, thread.stack with
  | .enter expr _, [_] => some expr
  | _, _ => none

end Thread

namespace Machine

variable {ι : Type}

def give (v : Value ι) (stack : List (Cont ι)) (s : State ι) : Thread ι × State ι :=
  (⟨.give v, stack⟩, s)

def fail (fault : Fault) (stack : List (Cont ι)) (s : State ι) : Thread ι × State ι :=
  (⟨.fail fault, stack⟩, s)

def bounce (expr : Value ι) (env : Env ι) (stack : List (Cont ι)) (s : State ι) :
    Thread ι × State ι :=
  (⟨.bounce expr env, stack⟩, s)

/-- The calls that a stack takes. -/
def calls (stack : List (Cont ι)) : Nat := stack.foldl (fun n cont => n + cont.calls) 0

/-- Whether a stack may take so many calls more. One call is left over where `n` evaluations in
order have room. -/
def allows (limits : Limits) (more : Nat) (stack : List (Cont ι)) : Bool :=
  match limits.depth with
  | none => true
  | some n => calls stack + more ≤ 4 * n + 1

/-- Whether another operand has room, however it is evaluated. -/
def hasRoom (limits : Limits) (stack : List (Cont ι)) : Bool := allows limits 5 stack

def await (limits : Limits) (cont : Cont ι) (expr : Value ι) (env : Env ι)
    (stack : List (Cont ι)) (s : State ι) : Thread ι × State ι :=
  if allows limits cont.calls stack then (⟨.enter expr env, cont :: stack⟩, s)
  else fail .tooDeep stack s

/-- The environment for the body of a closure: its parameters are bound to the arguments, by
place, if there are as many of one as of the other. -/
def extendEnv [Marking ι] (limits : Limits) (closure formals arguments : Value ι) (env : Env ι)
    (s : State ι) : Except Fault (Env ι) × State ι :=
  if formals.length = arguments.length then
    let (env, s) := s.extend (.filled formals arguments) env
    (.ok env, s)
  else
    (.error (closure.blame limits (.closureArity formals.length arguments.length)), s)

/-- Apply the first element of a list to the others. -/
def apply [Marking ι] (limits : Limits) (call : Value ι) (stack : List (Cont ι)) (s : State ι) :
    Thread ι × State ι :=
  match call with
  | .pair _ (.atom name) arguments =>
    match Primitive.apply limits name arguments s with
    | (.ok v, s) => give v stack s
    | (.error fault, s) => fail fault stack s
  | .pair _ (.closure mark lambda formals body env) arguments =>
    match extendEnv limits (.closure mark lambda formals body env) formals arguments env s with
    | (.ok env, s) => bounce body env stack s
    | (.error fault, s) => fail fault stack s
  | .pair _ function _ => fail (function.blame limits .illegalFunction) stack s
  | call => fail (call.blame limits .illegalFunction) stack s

def finish [Marking ι] (limits : Limits) (purpose : Purpose) (operands : Value ι)
    (stack : List (Cont ι)) (s : State ι) : Thread ι × State ι :=
  match purpose with
  | .collect => give operands stack s
  | .call => apply limits operands stack s

/-- Evaluate the operands in `rest`, from left to right; the values so far are given last
first. -/
def nextOperand [Marking ι] (limits : Limits) (values : List (Value ι)) (rest : Value ι)
    (env : Env ι) (purpose : Purpose) (stack : List (Cont ι)) (s : State ι) :
    Thread ι × State ι :=
  match rest with
  | .pair _ expr rest => await limits (.operand values rest env purpose) expr env stack s
  | tail =>
    if tail.isNil then
      let (operands, s) := State.chain values .nil s
      finish limits purpose operands stack s
    else fail (tail.blame limits .improperTail) stack s

def operands [Marking ι] (limits : Limits) (mode : Mode) (exprs : Value ι) (env : Env ι)
    (purpose : Purpose) (stack : List (Cont ι)) (s : State ι) : Thread ι × State ι :=
  match mode, exprs with
  | .shared, .pair _ expr rest => await limits (.share rest env purpose) expr env stack s
  | _, exprs => nextOperand limits [] exprs env purpose stack s

/-- The first value that is no parameter: parameters are atoms that do not read as integers. -/
def badParameter? (formals : List (Value ι)) : Option (Value ι) :=
  formals.find? fun formal => !formal.isAtom || formal.isInteger

/-- Make the closure of a lambda expression with the given operands. -/
def lambda [Marking ι] (limits : Limits) (tail formals body : Value ι) (env : Env ι)
    (stack : List (Cont ι)) (s : State ι) : Thread ι × State ι :=
  match badParameter? formals.elements with
  | some formal => fail (formal.blame limits .badParameter) stack s
  | none =>
    if formals.ending.isNil then
      let (expr, s) := s.cons (.atom "lambda") tail
      let (mark, s) := s.fresh
      give (.closure mark expr formals body env) stack s
    else fail (formals.ending.blame limits .improperTail) stack s

def bindingParts (limits : Limits) (binding : Value ι) : Except Fault (List (Value ι)) :=
  match binding with
  | .pair mark car cdr => (Value.pair mark car cdr).toList limits
  | _ => .ok []

/-- Evaluate the bindings in `rest` in order, then install them all and go on with the body. -/
def nextBinding (limits : Limits) (b : Binding ι) (stack : List (Cont ι)) (s : State ι) :
    Thread ι × State ι :=
  match b.rest with
  | .pair _ binding rest =>
    match bindingParts limits binding with
    | .error fault => fail fault stack s
    | .ok [.atom name, expr] =>
      if Name.isInteger name then fail (binding.blame limits .malformedBinding) stack s
      else await limits (.bind (.atom name) { b with rest }) expr b.env stack s
    | .ok _ => fail (binding.blame limits .malformedBinding) stack s
  | tail =>
    if tail.isNil then
      match s.fill b.frame b.names b.values with
      | .error fault => fail fault stack s
      | .ok s => bounce b.body b.env stack (s.log (.frameFilled b.names))
    else fail (tail.blame limits .improperTail) stack s

def form [Marking ι] (limits : Limits) (mode : Mode) (form : Form) (tail : Value ι)
    (env : Env ι) (stack : List (Cont ι)) (s : State ι) : Thread ι × State ι :=
  match form with
  | .list => operands limits mode tail env .collect stack s
  | form =>
    match tail.toList limits with
    | .error fault => fail fault stack s
    | .ok parts =>
      match form, parts with
      | .quote, [datum] => give datum stack s
      | .prog2, [first, second] => await limits (.second second env) first env stack s
      | .branch, [condition, consequent, alternative] =>
        await limits (.branch consequent alternative env) condition env stack s
      | .lambda, [formals, body] => lambda limits tail formals body env stack s
      | .letrec, [bindings, body] =>
        let (frame, s) := s.addFrame .pending
        let (env, s) := s.link frame env
        nextBinding limits ⟨.nil, .nil, bindings, body, env, frame⟩ stack s
      | form, _ => fail (.formArity form) stack s

/-- Evaluate an expression as far as its first inner evaluation, its tail position, or its
value. -/
def evaluate [DecidableEq ι] [Marking ι] (limits : Limits) (mode : Mode) (expr : Value ι)
    (env : Env ι) (stack : List (Cont ι)) (s : State ι) : Thread ι × State ι :=
  match expr with
  | .atom name =>
    if Name.isInteger name then give (.atom name) stack s
    else
      match s.lookup limits env (.atom name) with
      | .ok v => give v stack s
      | .error fault => fail fault stack s
  | .pair mark head tail =>
    match head with
    | .atom name =>
      match Form.ofName? name with
      | some f => form limits mode f tail env stack s
      | none => operands limits mode (.pair mark head tail) env .call stack s
    | _ => operands limits mode (.pair mark head tail) env .call stack s
  | expr =>
    match expr.represent limits with
    | .ok shown => fail (.cannotEvaluate shown) stack s
    | .error fault => fail fault stack s

/-- Hand a value to the innermost evaluation waiting. -/
def resume [Marking ι] (limits : Limits) (cont : Cont ι) (v : Value ι)
    (stack : List (Cont ι)) (s : State ι) : Thread ι × State ι :=
  match cont with
  | .operand values rest env purpose => nextOperand limits (v :: values) rest env purpose stack s
  | .branch consequent alternative env =>
    bounce (if v.isNil then alternative else consequent) env stack s
  | .second expr env => bounce expr env stack s
  | .bind name b =>
    let (names, s) := s.cons name b.names
    let (values, s) := s.cons v b.values
    nextBinding limits { b with names, values } stack s
  | .share rest env purpose =>
    match rest.toList limits with
    | .error fault => fail fault stack s
    | .ok exprs => (⟨.fork ⟨v, [], exprs, env, purpose⟩, stack⟩, s)
  | .inline sharing =>
    (⟨.fork { sharing with underway := .ready v :: sharing.underway }, stack⟩, s)

/-- One step of a thread by itself. A thread that has ended, or that needs the others, stays as
it is. -/
def step [DecidableEq ι] [Marking ι] (limits : Limits) (mode : Mode) (thread : Thread ι)
    (s : State ι) : Thread ι × State ι :=
  match thread.control, thread.stack with
  | .enter expr env, stack => evaluate limits mode expr env stack s
  | .bounce expr env, stack => evaluate limits mode expr env stack s
  | .give v, cont :: stack => resume limits cont v stack s
  | _, _ => (thread, s)

/-- Step a thread until `done?` finds what is looked for, at most `fuel` times. -/
@[specialize]
def runUntil [DecidableEq ι] [Marking ι] {α : Type} (done? : Thread ι → Option α)
    (limits : Limits) : (fuel : Nat) → Thread ι → State ι → Option (α × State ι)
  | 0, _, _ => none
  | fuel + 1, thread, s =>
    match done? thread with
    | some result => some (result, s)
    | none =>
      let (thread, s) := step limits .inOrder thread s
      runUntil done? limits fuel thread s

end Machine

end Evlis
