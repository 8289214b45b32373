import Evlis.Pool
import Mathlib.Logic.Relation
import Mathlib.Tactic.Common

/-!
# What a step of a pool can do

A step of a pool is a turn of one of its tasks. `Turn` lists all that can happen in a turn, and
`Pool.turn_of_step` says that nothing else does.
-/

namespace Evlis

variable {ι : Type} [DecidableEq ι] [Marking ι]

/-- What a thread does on its own, without the crew and the other tasks. -/
def Control.isOwn : Control ι → Bool
  | .fork _ | .submit _ _ | .join _ _ _ _ => false
  | _ => true

/-- The tasks among operands on their way. -/
def tasksOf (underway : List (Operand ι)) : List Nat :=
  underway.filterMap fun
    | .task number => some number
    | .ready _ => none

def Control.tasks : Control ι → List Nat
  | .fork sharing => tasksOf sharing.underway
  | .submit _ sharing => tasksOf sharing.underway
  | .join _ _ underway _ => tasksOf underway
  | _ => []

def Cont.tasks : Cont ι → List Nat
  | .inline sharing => tasksOf sharing.underway
  | _ => []

def Pool.update (p : Pool ι) (number : Nat) (r : Thread ι × State ι) : Pool ι :=
  { p with tasks := p.tasks.setIfInBounds number ⟨r.1, .running⟩, state := r.2 }

inductive Turn (limits : Limits) (p : Pool ι) (number : Nat) : Task ι → Pool ι → Prop where
  /-- A worker takes the task. -/
  | start {thread : Thread ι} (room : p.busy < p.crew.slots) :
      Turn limits p number ⟨thread, .queued⟩
        ({ p with busy := p.busy + 1 }.put number thread .running)
  /-- The slot of the task is given back. -/
  | release {thread : Thread ι} {outcome : Except Fault (Value ι)} {crew : Crew}
      (ended : thread.outcome? = some outcome) (forked : number ≠ 0)
      (released : p.crew.release = .ok crew) :
      Turn limits p number ⟨thread, .running⟩ ({ p with crew }.put number thread .released)
  | overrelease {thread : Thread ι} {outcome : Except Fault (Value ι)} {fault : Fault}
      (ended : thread.outcome? = some outcome) (forked : number ≠ 0)
      (refused : p.crew.release = .error fault) :
      Turn limits p number ⟨thread, .running⟩ (p.put number ⟨.fail fault, []⟩ .released)
  | deliver {thread : Thread ι} :
      Turn limits p number ⟨thread, .released⟩
        ({ p with busy := p.busy - 1 }.put number thread .finished)
  /-- The thread makes a step on its own. -/
  | work {thread : Thread ι} (own : thread.control.isOwn) (unfinished : thread.outcome? = none) :
      Turn limits p number ⟨thread, .running⟩
        (p.update number (Machine.step limits .shared thread p.state))
  /-- All operands are on their way. -/
  | gather {sharing : Sharing ι} {stack : List (Cont ι)} (none : sharing.rest = []) :
      Turn limits p number ⟨⟨.fork sharing, stack⟩, .running⟩
        (p.update number
          (⟨.join sharing.head [] sharing.underway.reverse sharing.purpose, stack⟩, p.state))
  /-- A slot is taken for the next operand. -/
  | acquire {sharing : Sharing ι} {stack : List (Cont ι)} {e : Value ι} {rest : List (Value ι)}
      (more : sharing.rest = e :: rest) (free : 0 < p.crew.free) :
      Turn limits p number ⟨⟨.fork sharing, stack⟩, .running⟩
        ({ p with crew := { p.crew with free := p.crew.free - 1 } }.update number
          (⟨.submit e { sharing with rest }, stack⟩, p.state))
  /-- No slot is free, and the thread evaluates the operand itself. -/
  | inline {sharing : Sharing ι} {stack : List (Cont ι)} {e : Value ι} {rest : List (Value ι)}
      (more : sharing.rest = e :: rest) (taken : p.crew.free = 0) :
      Turn limits p number ⟨⟨.fork sharing, stack⟩, .running⟩
        (p.update number (Machine.await limits (.inline { sharing with rest }) e sharing.env stack
          (p.state.log (.ranInline p.crew.slots e))))
  /-- An operand becomes a task. -/
  | submit {e : Value ι} {sharing : Sharing ι} {stack : List (Cont ι)}
      (welcome : p.crew.refusal = none) (room : Machine.hasRoom limits stack) :
      Turn limits p number ⟨⟨.submit e sharing, stack⟩, .running⟩
        { p with
          tasks := (p.tasks.setIfInBounds number ⟨⟨.fork { sharing with
            underway := .task p.tasks.size :: sharing.underway }, stack⟩, .running⟩).push
              ⟨.start e sharing.env, .queued⟩ }
  | refuse {e : Value ι} {sharing : Sharing ι} {stack : List (Cont ι)} {refusal : Fault}
      (refused : p.crew.refusal = some refusal) :
      Turn limits p number ⟨⟨.submit e sharing, stack⟩, .running⟩
        ({ p with crew := (Pool.giveBack refusal p.crew).2 }.update number
          (⟨.fail (Pool.giveBack refusal p.crew).1, stack⟩, p.state))
  /-- There is too little room for handing over the operand, which becomes a task all the same. -/
  | strand {e : Value ι} {sharing : Sharing ι} {stack : List (Cont ι)}
      (welcome : p.crew.refusal = none) (cramped : Machine.hasRoom limits stack = false) :
      Turn limits p number ⟨⟨.submit e sharing, stack⟩, .running⟩
        (p.strand .tooDeep e sharing.env stack number)
  /-- All operands are there. -/
  | combine {head : Value ι} {values : List (Value ι)} {purpose : Purpose}
      {stack : List (Cont ι)} {operands : Value ι} {s : State ι}
      (list : operands = ((State.chain values .nil p.state).2.cons head
        (State.chain values .nil p.state).1).1)
      (state : s = ((State.chain values .nil p.state).2.cons head
        (State.chain values .nil p.state).1).2) :
      Turn limits p number ⟨⟨.join head values [] purpose, stack⟩, .running⟩
        (p.update number (Machine.finish limits purpose operands stack s))
  | ready {head v : Value ι} {values : List (Value ι)} {underway : List (Operand ι)}
      {purpose : Purpose} {stack : List (Cont ι)} :
      Turn limits p number ⟨⟨.join head values (.ready v :: underway) purpose, stack⟩, .running⟩
        (p.update number (⟨.join head (v :: values) underway purpose, stack⟩, p.state))
  /-- The value of another task is collected. -/
  | collect {head v : Value ι} {values : List (Value ι)} {underway : List (Operand ι)}
      {purpose : Purpose} {stack : List (Cont ι)} {other : Nat}
      (delivered : p.delivered? other = some (.ok v)) :
      Turn limits p number ⟨⟨.join head values (.task other :: underway) purpose, stack⟩, .running⟩
        (p.update number (⟨.join head (v :: values) underway purpose, stack⟩, p.state))
  | fault {head : Value ι} {values : List (Value ι)} {underway : List (Operand ι)}
      {purpose : Purpose} {stack : List (Cont ι)} {other : Nat} {fault : Fault}
      (delivered : p.delivered? other = some (.error fault)) :
      Turn limits p number ⟨⟨.join head values (.task other :: underway) purpose, stack⟩, .running⟩
        (p.update number (⟨.fail fault, stack⟩, p.state))

omit [DecidableEq ι] [Marking ι] in
/-- On an unbounded stack there is always room. -/
lemma Machine.allows_of_unbounded {limits : Limits} (h : limits.depth = none) (more : Nat)
    (stack : List (Cont ι)) : allows limits more stack := by
  rw [allows, h]

namespace Pool

variable {limits : Limits} {number : Nat} {p q : Pool ι}

lemma turn_of_fork {sharing : Sharing ι} {stack : List (Cont ι)}
    (h : stepRunning limits number ⟨.fork sharing, stack⟩ p = some q) :
    Turn limits p number ⟨⟨.fork sharing, stack⟩, .running⟩ q := by
  obtain ⟨crew, busy, tasks, s⟩ := p
  simp only [stepRunning, fork, Crew.acquire] at h
  cases hrest : sharing.rest with
  | nil =>
    simp only [hrest, Option.some.injEq] at h
    subst h
    exact .gather hrest
  | cons e rest =>
    simp only [hrest] at h
    by_cases hfree : 0 < crew.free
    · simp only [if_pos hfree, Option.some.injEq] at h
      subst h
      exact .acquire hrest hfree
    · simp only [if_neg hfree, Option.some.injEq] at h
      subst h
      exact .inline hrest (Nat.eq_zero_of_not_pos hfree)

lemma turn_of_submit {e : Value ι} {sharing : Sharing ι} {stack : List (Cont ι)}
    (h : stepRunning limits number ⟨.submit e sharing, stack⟩ p = some q) :
    Turn limits p number ⟨⟨.submit e sharing, stack⟩, .running⟩ q := by
  obtain ⟨crew, busy, tasks, s⟩ := p
  simp only [stepRunning, submit, Option.some.injEq] at h
  cases hrefusal : crew.refusal with
  | none =>
    simp only [hrefusal] at h
    cases hroom : Machine.hasRoom limits stack with
    | true =>
      simp only [hroom, if_true] at h
      subst h
      exact .submit hrefusal hroom
    | false =>
      simp only [hroom, Bool.false_eq_true, if_false] at h
      subst h
      exact .strand hrefusal hroom
  | some refusal =>
    simp only [hrefusal] at h
    subst h
    exact .refuse hrefusal

lemma turn_of_join {head : Value ι} {values : List (Value ι)} {underway : List (Operand ι)}
    {purpose : Purpose} {stack : List (Cont ι)}
    (h : stepRunning limits number ⟨.join head values underway purpose, stack⟩ p = some q) :
    Turn limits p number ⟨⟨.join head values underway purpose, stack⟩, .running⟩ q := by
  simp only [stepRunning, join] at h
  rcases underway with _ | ⟨other | v, underway⟩
  · cases h
    exact .combine rfl rfl
  · dsimp only at h
    split at h
    · cases h
    · rename_i delivered
      cases h
      exact .collect delivered
    · rename_i delivered
      cases h
      exact .fault delivered
  · cases h
    exact .ready

lemma turn_of_own {thread : Thread ι} (own : thread.control.isOwn)
    (h : stepRunning limits number thread p = some q) :
    Turn limits p number ⟨thread, .running⟩ q := by
  unfold stepRunning at h
  split at h
  · rename_i hcontrol
    rw [hcontrol] at own
    cases own
  · rename_i hcontrol
    rw [hcontrol] at own
    cases own
  · rename_i hcontrol
    rw [hcontrol] at own
    cases own
  · split at h
    · rename_i outcome houtcome
      split at h
      · cases h
      · rename_i hnumber
        split at h
        · rename_i released
          cases h
          exact .release houtcome hnumber released
        · rename_i refused
          cases h
          exact .overrelease houtcome hnumber refused
    · rename_i houtcome
      cases h
      exact .work own houtcome

/-- A step of a pool is a turn of one of its tasks. -/
theorem turn_of_step (h : p.step limits number = some q) :
    ∃ task, p.tasks[number]? = some task ∧ Turn limits p number task q := by
  unfold step at h
  cases htask : p.tasks[number]? with
  | none =>
    rw [htask] at h
    cases h
  | some task =>
    rw [htask] at h
    refine ⟨task, rfl, ?_⟩
    obtain ⟨thread, phase⟩ := task
    cases phase with
    | queued =>
      dsimp only at h
      split at h
      · rename_i room
        cases h
        exact .start room
      · cases h
    | running =>
      obtain ⟨control, stack⟩ := thread
      cases control with
      | fork sharing => exact turn_of_fork h
      | submit e sharing => exact turn_of_submit h
      | join head values underway purpose => exact turn_of_join h
      | _ => exact turn_of_own rfl h
    | released =>
      cases h
      exact .deliver
    | finished => cases h

omit [DecidableEq ι] [Marking ι] in
lemma of_delivered {outcome : Except Fault (Value ι)} (h : p.delivered? number = some outcome) :
    ∃ thread, p.tasks[number]? = some ⟨thread, .finished⟩ ∧ thread.outcome? = some outcome := by
  rw [delivered?] at h
  cases htask : p.tasks[number]? with
  | none =>
    rw [htask] at h
    cases h
  | some task =>
    obtain ⟨thread, phase⟩ := task
    rw [htask] at h
    dsimp only at h
    split at h
    · rename_i hphase
      cases hphase
      exact ⟨thread, rfl, h⟩
    · cases h

omit [DecidableEq ι] [Marking ι] in
lemma forall_set {P : Nat → Task ι → Prop} (h : ∀ k task, p.tasks[k]? = some task → P k task)
    {task' : Task ι} (hnew : P number task') :
    ∀ k task, (p.tasks.setIfInBounds number task')[k]? = some task → P k task := by
  intro k task hk
  by_cases hne : number = k
  · subst hne
    rw [Array.getElem?_setIfInBounds_self] at hk
    split at hk
    · cases hk
      exact hnew
    · cases hk
  · rw [Array.getElem?_setIfInBounds_ne hne] at hk
    exact h k task hk

/-- Whether a task that looks for someone to evaluate its next operand finds a free slot. -/
def findsSlot (p : Pool ι) (number : Nat) : Bool :=
  match p.tasks[number]? with
  | some ⟨⟨.fork sharing, _⟩, .running⟩ => sharing.rest.isEmpty || decide (0 < p.crew.free)
  | _ => true

omit [DecidableEq ι] [Marking ι] in
lemma not_findsSlot {sharing : Sharing ι} {stack : List (Cont ι)} {e : Value ι}
    {rest : List (Value ι)} (htask : p.tasks[number]? = some ⟨⟨.fork sharing, stack⟩, .running⟩)
    (more : sharing.rest = e :: rest) (taken : p.crew.free = 0) : ¬ p.findsSlot number := by
  simp [findsSlot, htask, more, taken]

/-- Whether a task that is about to hand over an operand to a crew that takes work has room for
it. -/
def findsRoom (limits : Limits) (p : Pool ι) (number : Nat) : Bool :=
  match p.tasks[number]? with
  | some ⟨⟨.submit _ _, stack⟩, .running⟩ => p.crew.refusal.isSome || Machine.hasRoom limits stack
  | _ => true

omit [DecidableEq ι] [Marking ι] in
lemma not_findsRoom {e : Value ι} {sharing : Sharing ι} {stack : List (Cont ι)}
    (htask : p.tasks[number]? = some ⟨⟨.submit e sharing, stack⟩, .running⟩)
    (welcome : p.crew.refusal = none) (cramped : Machine.hasRoom limits stack = false) :
    ¬ p.findsRoom limits number := by
  simp [findsRoom, htask, welcome, cramped]

omit [DecidableEq ι] [Marking ι] in
lemma of_not_findsRoom (h : ¬ p.findsRoom limits number) :
    ∃ e sharing stack, p.tasks[number]? = some ⟨⟨.submit e sharing, stack⟩, .running⟩ ∧
      p.crew.refusal = none ∧ Machine.hasRoom limits stack = false := by
  unfold findsRoom at h
  split at h
  · rename_i e sharing stack htask
    rw [Bool.or_eq_true, not_or, Option.not_isSome_iff_eq_none, Bool.not_eq_true] at h
    exact ⟨e, sharing, stack, htask, h⟩
  · exact absurd rfl h

lemma step_cramped {e : Value ι} {sharing : Sharing ι} {stack : List (Cont ι)}
    (htask : p.tasks[number]? = some ⟨⟨.submit e sharing, stack⟩, .running⟩)
    (welcome : p.crew.refusal = none) (cramped : Machine.hasRoom limits stack = false) :
    p.step limits number = some (p.strand .tooDeep e sharing.env stack number) := by
  simp only [step, htask, stepRunning, submit, welcome, cramped, Bool.false_eq_true, if_false]

omit [DecidableEq ι] [Marking ι] in
lemma findsRoom_of_unbounded (h : limits.depth = none) (p : Pool ι) (number : Nat) :
    p.findsRoom limits number := by
  unfold findsRoom
  split
  · rw [Machine.hasRoom, Machine.allows_of_unbounded h, Bool.or_true]
  · rfl

/-- Any number of steps, of tasks in any order. -/
def Reaches (limits : Limits) : Pool ι → Pool ι → Prop :=
  Relation.ReflTransGen fun p q => ∃ number, p.step limits number = some q

/-- Any number of steps, of tasks in any order, in which all operands that are handed over have room
for it. -/
def ReachesInRoom (limits : Limits) : Pool ι → Pool ι → Prop :=
  Relation.ReflTransGen fun p q =>
    ∃ number, p.findsRoom limits number ∧ p.step limits number = some q

lemma Reaches.inRoom (h : p.Reaches limits q) (unbounded : limits.depth = none) :
    p.ReachesInRoom limits q :=
  Relation.ReflTransGen.mono
    (fun p _ ⟨number, hstep⟩ => ⟨number, findsRoom_of_unbounded unbounded p number, hstep⟩) _ _ h

/-- Steps of the tasks with the given numbers, one after the other. -/
def follow (limits : Limits) : List Nat → Pool ι → Option (Pool ι)
  | [], p => some p
  | number :: schedule, p => (p.step limits number).bind (follow limits schedule)

lemma reaches_of_follow {schedule : List Nat} (h : p.follow limits schedule = some q) :
    p.Reaches limits q := by
  induction schedule generalizing p with
  | nil =>
    cases h
    exact .refl
  | cons number schedule ih =>
    obtain ⟨p₁, hstep, hfollow⟩ := Option.bind_eq_some_iff.mp h
    exact .head ⟨number, hstep⟩ (ih hfollow)

/-- What every turn keeps in which operands have room holds along every run in which they do. -/
theorem ReachesInRoom.induct (inv : Pool ι → Prop)
    (hturn : ∀ p q number task, inv p → p.findsRoom limits number → p.tasks[number]? = some task →
      Turn limits p number task q → inv q)
    (h : p.ReachesInRoom limits q) (hp : inv p) : inv q := by
  induction h with
  | refl => exact hp
  | tail _ hstep ih =>
    obtain ⟨number, room, hstep⟩ := hstep
    obtain ⟨task, htask, turn⟩ := turn_of_step hstep
    exact hturn _ _ number task ih room htask turn

end Pool

end Evlis
