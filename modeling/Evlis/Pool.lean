import Evlis.Crew
import Evlis.Machine

/-!
# Pools of tasks

A pool is a calling thread, the tasks it and they have handed over, a crew whose slots the tasks
take, and the state they share. A step of the pool is a step of one of its tasks; which one is a
matter of scheduling, and `Pool.step` is defined for every choice.

A task waits in a queue until a worker is free, runs, gives its slot back, and then delivers its
outcome.
-/

namespace Evlis

inductive Phase where
  /-- It waits for a worker. -/
  | queued
  | running
  /-- It has an outcome and has given its slot back. -/
  | released
  | finished
deriving DecidableEq

structure Task (ι : Type) where
  thread : Thread ι
  phase : Phase
deriving DecidableEq

/-- The calling thread is task number zero; it takes no slot and needs no worker. `busy` counts
the workers that are at work. -/
structure Pool (ι : Type) where
  crew : Crew
  busy : Nat
  tasks : Array (Task ι)
  state : State ι
deriving DecidableEq

namespace Pool

variable {ι : Type}

def ofThread (crew : Crew) (thread : Thread ι) (s : State ι) : Pool ι :=
  ⟨crew, 0, #[⟨thread, .running⟩], s⟩

def delivered? (p : Pool ι) (number : Nat) : Option (Except Fault (Value ι)) :=
  match p.tasks[number]? with
  | none => none
  | some task => if task.phase = .finished then task.thread.outcome? else none

/-- The pool with a task as it is after a step. -/
def put (p : Pool ι) (number : Nat) (thread : Thread ι) (phase : Phase) : Pool ι :=
  { p with tasks := p.tasks.setIfInBounds number ⟨thread, phase⟩ }

/-- Find someone to evaluate the next operand: another task if there is a free slot, and else the
thread itself. -/
def fork (limits : Limits) (sharing : Sharing ι) (stack : List (Cont ι)) (crew : Crew)
    (s : State ι) : Thread ι × Crew × State ι :=
  match sharing.rest with
  | [] =>
    (⟨.join sharing.head [] sharing.underway.reverse sharing.purpose, stack⟩, crew, s)
  | expr :: rest =>
    let sharing := { sharing with rest }
    match crew.acquire with
    | (true, crew) => (⟨.submit expr sharing, stack⟩, crew, s)
    | (false, crew) =>
      let s := s.log (.ranInline crew.slots expr)
      let (thread, s) := Machine.await limits (.inline sharing) expr sharing.env stack s
      (thread, crew, s)

/-- Give back the slot of work that was refused; that this goes wrong would be worse than the
refusal. -/
def giveBack (refusal : Fault) (crew : Crew) : Fault × Crew :=
  match crew.release with
  | .ok crew => (refusal, crew)
  | .error fault => (fault, crew)

/-- Handing over an operand goes wrong when it is in the queue already: the thread gives the slot
back and fails, and the operand stays there as a task that no one waits for. -/
def strand (refusal : Fault) (expr : Value ι) (env : Env ι) (stack : List (Cont ι)) (number : Nat)
    (p : Pool ι) : Pool ι :=
  match p with
  | ⟨crew, busy, tasks, s⟩ =>
    let (fault, crew) := giveBack refusal crew
    let tasks := tasks.setIfInBounds number ⟨⟨.fail fault, stack⟩, .running⟩
    ⟨crew, busy, tasks.push ⟨.start expr env, .queued⟩, s⟩

/-- Hand over an operand for which a slot has been taken. A crew that takes no work refuses it
before it is in the queue, and the slot is given back; without a worker, none would ever take it
from there. Calling a worker needs as much room as evaluating the operand. -/
def submit (limits : Limits) (expr : Value ι) (sharing : Sharing ι) (stack : List (Cont ι))
    (number : Nat) (p : Pool ι) : Pool ι :=
  match p with
  | ⟨crew, busy, tasks, s⟩ =>
    match crew.refusal with
    | some refusal =>
      let (fault, crew) := giveBack refusal crew
      ⟨crew, busy, tasks.setIfInBounds number ⟨⟨.fail fault, stack⟩, .running⟩, s⟩
    | none =>
      if Machine.hasRoom limits stack then
        let sharing := { sharing with underway := .task tasks.size :: sharing.underway }
        let tasks := tasks.setIfInBounds number ⟨⟨.fork sharing, stack⟩, .running⟩
        ⟨crew, busy, tasks.push ⟨.start expr sharing.env, .queued⟩, s⟩
      else strand .tooDeep expr sharing.env stack number ⟨crew, busy, tasks, s⟩

/-- Collect the next operand, if it is there. -/
def join [Marking ι] (limits : Limits) (head : Value ι) (values : List (Value ι))
    (underway : List (Operand ι)) (purpose : Purpose) (stack : List (Cont ι)) (number : Nat)
    (p : Pool ι) : Option (Pool ι) :=
  match underway with
  | [] =>
    match p with
    | ⟨crew, busy, tasks, s⟩ =>
      let (rest, s) := State.chain values .nil s
      let (operands, s) := s.cons head rest
      let (thread, s) := Machine.finish limits purpose operands stack s
      some ⟨crew, busy, tasks.setIfInBounds number ⟨thread, .running⟩, s⟩
  | .ready v :: underway =>
    some (p.put number ⟨.join head (v :: values) underway purpose, stack⟩ .running)
  | .task other :: underway =>
    match p.delivered? other with
    | none => none
    | some (.ok v) =>
      some (p.put number ⟨.join head (v :: values) underway purpose, stack⟩ .running)
    | some (.error fault) => some (p.put number ⟨.fail fault, stack⟩ .running)

/-- A step of a running task. There is none for a thread that waits for an outcome, and none for
the calling thread when it has ended. -/
def stepRunning [DecidableEq ι] [Marking ι] (limits : Limits) (number : Nat) (thread : Thread ι)
    (p : Pool ι) : Option (Pool ι) :=
  match thread.control, thread.stack with
  | .fork sharing, stack =>
    match p with
    | ⟨crew, busy, tasks, s⟩ =>
      let (thread, crew, s) := fork limits sharing stack crew s
      some ⟨crew, busy, tasks.setIfInBounds number ⟨thread, .running⟩, s⟩
  | .submit expr sharing, stack => some (submit limits expr sharing stack number p)
  | .join head values underway purpose, stack =>
    join limits head values underway purpose stack number p
  | _, _ =>
    match thread.outcome? with
    | some _ =>
      if number = 0 then none
      else
        match p.crew.release with
        | .ok crew => some ({ p with crew }.put number thread .released)
        | .error fault => some (p.put number ⟨.fail fault, []⟩ .released)
    | none =>
      match p with
      | ⟨crew, busy, tasks, s⟩ =>
        let (thread, s) := Machine.step limits .shared thread s
        some ⟨crew, busy, tasks.setIfInBounds number ⟨thread, .running⟩, s⟩

/-- A step of the task with the given number, if it can make one. -/
def step [DecidableEq ι] [Marking ι] (limits : Limits) (number : Nat) (p : Pool ι) :
    Option (Pool ι) :=
  match p.tasks[number]? with
  | none => none
  | some task =>
    match task.phase with
    | .queued =>
      if p.busy < p.crew.slots then
        some ({ p with busy := p.busy + 1 }.put number task.thread .running)
      else none
    | .running => stepRunning limits number task.thread p
    | .released => some ({ p with busy := p.busy - 1 }.put number task.thread .finished)
    | .finished => none

/-- The task whose outcome a task has to wait for. -/
def awaited? (p : Pool ι) (number : Nat) : Option Nat :=
  match p.tasks[number]? with
  | none => none
  | some task =>
    match task.thread.control with
    | .join _ _ (.task other :: _) _ => if (p.delivered? other).isSome then none else some other
    | _ => none

/-- The task at the end of the chain of tasks that wait for each other, from the given one on, at
most `steps` links away. -/
def focus (p : Pool ι) : (steps : Nat) → Nat → Nat
  | 0, number => number
  | steps + 1, number =>
    match p.awaited? number with
    | none => number
    | some other => focus p steps other

def isDone (p : Pool ι) (number : Nat) : Bool :=
  match p.tasks[number]? with
  | none => true
  | some task => if number = 0 then task.thread.outcome?.isSome else task.phase = .finished

def caller? (p : Pool ι) : Option (Thread ι) := (p.tasks[0]?).map Task.thread

/-- Run the pool until `done?` finds what is looked for in the calling thread, at most `fuel`
steps. The calling thread goes first; while it waits, the task does that it waits for. -/
@[specialize]
def runUntil [DecidableEq ι] [Marking ι] {α : Type} (done? : Thread ι → Option α)
    (limits : Limits) : (fuel : Nat) → Pool ι → Option (α × Pool ι)
  | 0, _ => none
  | fuel + 1, p =>
    match p.caller?.bind done? with
    | some result => some (result, p)
    | none =>
      match p.step limits (p.focus p.tasks.size 0) with
      | none => none
      | some p => runUntil done? limits fuel p

/-- The pool after the crew has been sent home: its tasks go on, but hand over no more work. -/
def dismiss (p : Pool ι) : Pool ι :=
  { p with crew := p.crew.refuse .crewClosed, state := p.state.log .crewDismissed }

/-- Have the tasks from the given one on go towards their ends, at most `steps` steps. -/
def attend [DecidableEq ι] [Marking ι] (limits : Limits) : (steps : Nat) → Nat → Pool ι → Pool ι
  | 0, _, p => p
  | steps + 1, number, p =>
    if number < p.tasks.size then
      if p.isDone number then attend limits steps (number + 1) p
      else
        match p.step limits (p.focus p.tasks.size number) with
        | none => p
        | some p => attend limits steps number p
    else p

/-- Run the tasks from the given one on to their ends, at most `fuel` steps. -/
def settle [DecidableEq ι] [Marking ι] (limits : Limits) :
    (fuel : Nat) → Nat → Pool ι → Option (Pool ι)
  | 0, _, _ => none
  | fuel + 1, number, p =>
    if number < p.tasks.size then
      if p.isDone number then settle limits fuel (number + 1) p
      else
        match p.step limits (p.focus p.tasks.size number) with
        | none => none
        | some p => settle limits fuel number p
    else some p

end Pool

end Evlis
