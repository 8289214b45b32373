import Evlis.Proofs.Handovers
import Evlis.Proofs.OperandVerdicts
import Evlis.Proofs.Regularity

/-!
# Calls that share out their operands

What a thread does for a call is kept in a log: the operands that it begins to evaluate itself, what
it gets for them, and the operands that it hands over. `Stage` lists how far a call can have come,
and a turn of any task takes the call from one stage to another. So the log of a call that has come
to its end and its outcome are those of `sharedVerdict` and `sharedExtent`.
-/

namespace Evlis

variable {ι : Type}

/-- A call that shares out its operands: the first of them, the list of the others, and what they
are for. The evaluations in `stack` wait for the call. -/
structure SharedCall (ι : Type) where
  first : Value ι
  rest : Value ι
  env : Env ι
  purpose : Purpose
  stack : List (Cont ι)

namespace SharedCall

def depth (call : SharedCall ι) : Nat := call.stack.length

def exprs (call : SharedCall ι) : List (Value ι) := call.first :: call.rest.elements

def thread (call : SharedCall ι) : Thread ι :=
  ⟨.enter call.first call.env, .share call.rest call.env call.purpose :: call.stack⟩

end SharedCall

/-- What a thread does for a call. -/
inductive Deed (ι : Type) where
  /-- It begins to evaluate an operand itself. -/
  | begins (e : Value ι) (env : Env ι)
  /-- It gets the outcome of the operand that it has begun to evaluate. -/
  | gets (outcome : Except Fault (Value ι))
  /-- It hands over a task. -/
  | hands (number : Nat) (thread : Thread ι)
deriving DecidableEq

/-- What a thread does for a call for which `depth` evaluations wait, while it evaluates an operand
itself. -/
def Thread.deed? (depth : Nat) (thread : Thread ι) : Option (Deed ι) :=
  match thread.control with
  | .enter e env => if thread.stack.length = depth + 1 then some (.begins e env) else none
  | .give v => if thread.stack.length = depth + 1 then some (.gets (.ok v)) else none
  | .fail fault => some (.gets (.error fault))
  | _ => none

/-- The outcome of a call for which `depth` evaluations wait: a fault, or the values of all
operands. -/
def Thread.callOutcome? (depth : Nat) (thread : Thread ι) :
    Option (Except Fault (List (Value ι))) :=
  match thread.control with
  | .fail fault => some (.error fault)
  | .join head values [] _ =>
    if thread.stack.length = depth then some (.ok (head :: values.reverse)) else none
  | _ => none

namespace Pool

/-- What the task with the given number has done for a call in a step from `p` to `q`. -/
def deeds (number depth : Nat) (p q : Pool ι) : List (Deed ι) :=
  match q.tasks[number]? with
  | none => []
  | some task =>
    if depth < task.thread.stack.length then (task.thread.deed? depth).toList
    else
      ((q.tasks.toList.drop p.tasks.size).zipIdx p.tasks.size).map fun (task, k) =>
        .hands k task.thread

def callOutcome? (number depth : Nat) (p : Pool ι) : Option (Except Fault (List (Value ι))) :=
  (p.tasks[number]?).bind fun task => task.thread.callOutcome? depth

/-- Whether the thread of a task evaluates something for others, of which `depth` wait. -/
def WorksAbove (number depth : Nat) (p : Pool ι) : Prop :=
  ∃ task, p.tasks[number]? = some task ∧ depth < task.thread.stack.length

variable [DecidableEq ι] [Marking ι]

/-- Any number of steps, of tasks in any order, up to the end of a call, with what the task with the
given number has done for the call. -/
inductive Logs (limits : Limits) (number depth : Nat) (p : Pool ι) :
    List (Deed ι) → Pool ι → Prop where
  | start : Logs limits number depth p (p.deeds number depth p) p
  | own {log : List (Deed ι)} {q r : Pool ι} (run : Logs limits number depth p log q)
      (goes : q.callOutcome? number depth = none) (h : q.step limits number = some r) :
      Logs limits number depth p (log ++ q.deeds number depth r) r
  | other {log : List (Deed ι)} {q r : Pool ι} {k : Nat} (run : Logs limits number depth p log q)
      (goes : q.callOutcome? number depth = none) (hk : k ≠ number)
      (h : q.step limits k = some r) : Logs limits number depth p log r

end Pool

/-- How an operand has been handled: evaluated by the thread of the call itself, or handed over as
the task with the given number. -/
inductive Handling (ι : Type) where
  | inline (outcome : Except Fault (Value ι))
  | forked (number : Nat)

namespace Handling

def deeds (env : Env ι) (e : Value ι) : Handling ι → List (Deed ι)
  | inline outcome => [.begins e env, .gets outcome]
  | forked number => [.hands number (.start e env)]

/-- The reports on an operand that has been handled, `delivered` being what the tasks have come
to. -/
def Fits (delivered : Nat → Option (Except Fault (Value ι))) (report : Report ι) :
    Handling ι → Prop
  | inline outcome => report = ⟨.inline, outcome⟩
  | forked number => report.way = .forked ∧ ∀ outcome, delivered number = some outcome →
      report.outcome = outcome

end Handling

/-- What a thread does when it handles operands one after the other. -/
def SharedCall.record (call : SharedCall ι) (handled : List (Handling ι)) : List (Deed ι) :=
  (List.zipWith (Handling.deeds call.env) call.exprs handled).flatten

lemma SharedCall.record_append {call : SharedCall ι} {done more : List (Value ι)} {e : Value ι}
    (hexprs : call.exprs = done ++ e :: more) {handled : List (Handling ι)}
    (hlength : handled.length = done.length) (handling : Handling ι) :
    call.record (handled ++ [handling]) = call.record handled ++ handling.deeds call.env e := by
  have hfront : List.zipWith (Handling.deeds call.env) (done ++ e :: more) handled =
      List.zipWith (Handling.deeds call.env) done handled := by
    rw [← List.append_nil handled, List.zipWith_append (by simpa using hlength.symm)]
    simp
  rw [record, record, hexprs, hfront, List.zipWith_append hlength.symm]
  simp

def Operand.handling : Operand ι → Handling ι
  | task number => .forked number
  | ready v => .inline (.ok v)

def Operand.Has (delivered : Nat → Option (Except Fault (Value ι))) (v : Value ι) :
    Operand ι → Prop
  | task number => delivered number = some (.ok v)
  | ready w => w = v

/-- How the operands of a call have been handled when the first has a value and others are on their
way. -/
def handlings (head : Value ι) (operands : List (Operand ι)) : List (Handling ι) :=
  .inline (.ok head) :: operands.map Operand.handling

lemma handlings_append (head : Value ι) (operands : List (Operand ι)) (operand : Operand ι) :
    handlings head (operands ++ [operand]) = handlings head operands ++ [operand.handling] := by
  simp [handlings]

@[simp]
lemma length_handlings (head : Value ι) (operands : List (Operand ι)) :
    (handlings head operands).length = operands.length + 1 := by
  simp [handlings]

lemma SharedCall.record_handlings {call : SharedCall ι} {done more : List (Value ι)} {e : Value ι}
    (hexprs : call.rest.elements = done ++ e :: more) (head : Value ι)
    {operands : List (Operand ι)} (hlength : operands.length = done.length) (operand : Operand ι) :
    call.record (handlings head (operands ++ [operand])) =
      call.record (handlings head operands) ++ operand.handling.deeds call.env e := by
  have hall : call.exprs = (call.first :: done) ++ e :: more := congrArg (call.first :: ·) hexprs
  rw [handlings_append, record_append hall (by simp [hlength])]

namespace SharedCall

/-- What waits for an operand that the thread of a call evaluates itself, when others have been
handled and `more` are still to come. -/
inductive Awaits (call : SharedCall ι) : List (Handling ι) → List (Value ι) → Cont ι → Prop where
  | share : Awaits call [] call.rest.elements (.share call.rest call.env call.purpose)
  | inline (proper : call.rest.ending = .nil) (head : Value ι) (underway : List (Operand ι))
      (more : List (Value ι)) :
      Awaits call (handlings head underway.reverse) more
        (.inline ⟨head, underway, more, call.env, call.purpose⟩)

/-- How far a call has come: its thread, its log, and how many turns it may still have for itself,
at most. -/
inductive Stage (limits : Limits) (delivered : Nat → Option (Except Fault (Value ι)))
    (call : SharedCall ι) : Thread ι → List (Deed ι) → Nat → Prop where
  /-- The thread evaluates an operand itself. -/
  | evaluating {handled : List (Handling ι)} {done more : List (Value ι)} {e : Value ι}
      {cont : Cont ι} (awaits : call.Awaits handled more cont)
      (hexprs : call.exprs = done ++ e :: more) (hlength : handled.length = done.length)
      (inner : Thread ι) :
      Stage limits delivered call ⟨inner.control, inner.stack ++ cont :: call.stack⟩
        (call.record handled ++ .begins e call.env :: (inner.outcome?.map .gets).toList)
        (4 * more.length + handled.length + 2)
  /-- The list of the operands does not end in `nil`. -/
  | improper (h : ¬ call.rest.ending.isNil) (head : Value ι) :
      Stage limits delivered call
        ⟨.fail (call.rest.ending.blame limits .improperTail), call.stack⟩
        (call.record (handlings head [])) 0
  /-- The thread looks for someone to evaluate the next operand. -/
  | placing (proper : call.rest.ending = .nil) (head : Value ι) {underway : List (Operand ι)}
      {done more : List (Value ι)} (hexprs : call.rest.elements = done ++ more)
      (hlength : underway.length = done.length) :
      Stage limits delivered call
        ⟨.fork ⟨head, underway, more, call.env, call.purpose⟩, call.stack⟩
        (call.record (handlings head underway.reverse)) (4 * more.length + underway.length + 1)
  /-- The thread is about to hand over an operand. -/
  | submitting (proper : call.rest.ending = .nil) (head : Value ι) {underway : List (Operand ι)}
      {done more : List (Value ι)} {e : Value ι} (hexprs : call.rest.elements = done ++ e :: more)
      (hlength : underway.length = done.length) :
      Stage limits delivered call
        ⟨.submit e ⟨head, underway, more, call.env, call.purpose⟩, call.stack⟩
        (call.record (handlings head underway.reverse)) (4 * more.length + underway.length + 3)
  /-- The thread collects the operands. -/
  | joining (proper : call.rest.ending = .nil) (head : Value ι)
      {collected underway : List (Operand ι)} {values : List (Value ι)}
      (hlength : (collected ++ underway).length = call.rest.elements.length)
      (has : List.Forall₂ (fun operand v => operand.Has delivered v) collected values.reverse) :
      Stage limits delivered call ⟨.join head values underway call.purpose, call.stack⟩
        (call.record (handlings head (collected ++ underway))) underway.length
  /-- An operand has failed that was handed over. -/
  | broken (proper : call.rest.ending = .nil) (head : Value ι)
      {collected underway : List (Operand ι)} {values : List (Value ι)} {k : Nat} {fault : Fault}
      (hlength : (collected ++ .task k :: underway).length = call.rest.elements.length)
      (has : List.Forall₂ (fun operand v => operand.Has delivered v) collected values)
      (failed : delivered k = some (.error fault)) :
      Stage limits delivered call ⟨.fail fault, call.stack⟩
        (call.record (handlings head (collected ++ .task k :: underway))) 0

end SharedCall

section Reports

variable {delivered : Nat → Option (Except Fault (Value ι))} {operands : List (Operand ι)}
  {values : List (Value ι)} {reports : List (Report ι)}

def Reported (delivered : Nat → Option (Except Fault (Value ι))) :
    List (Handling ι) → List (Report ι) → Prop :=
  List.Forall₂ fun handling report => handling.Fits delivered report

lemma Reported.first?_inline (h : Reported delivered (operands.map Operand.handling) reports) :
    Fault.first? (Report.outcomes .inline reports) = none := by
  induction operands generalizing reports with
  | nil =>
    cases h
    rfl
  | cons operand operands ih =>
    cases h with
    | @cons _ report _ reports fits h =>
      cases operand with
      | task k => rw [Report.outcomes_cons_of_ne (by simp [fits.1]), ih h]
      | ready v =>
        obtain rfl : report = ⟨.inline, .ok v⟩ := fits
        rw [Report.outcomes_cons_self, Fault.first?_ok, ih h]

lemma Reported.outcomes_of_has
    (has : List.Forall₂ (fun operand v => operand.Has delivered v) operands values)
    (h : Reported delivered (operands.map Operand.handling) reports) :
    reports.map Report.outcome = values.map .ok := by
  induction has generalizing reports with
  | nil =>
    cases h
    rfl
  | @cons operand v operands values has _ ih =>
    cases h with
    | @cons _ report _ reports fits h =>
      rw [List.map_cons, List.map_cons, ih h]
      congr 1
      cases operand with
      | task k => exact fits.2 _ has
      | ready w =>
        obtain rfl : report = ⟨.inline, .ok w⟩ := fits
        exact congrArg Except.ok has

/-- The operands that are collected have no fault. -/
lemma Reported.first?_of_has {way : Way}
    (has : List.Forall₂ (fun operand v => operand.Has delivered v) operands values)
    (h : Reported delivered (operands.map Operand.handling) reports) :
    Fault.first? (Report.outcomes way reports) = none := by
  refine Fault.first?_eq_none.mpr fun fault hmem => ?_
  have hfault := List.mem_map_of_mem (f := Report.outcome) (Report.mem_outcomes.mp hmem)
  simp [h.outcomes_of_has has] at hfault

lemma Reported.split {handled others : List (Handling ι)}
    (h : Reported delivered (handled ++ others) reports) :
    ∃ before after, reports = before ++ after ∧ Reported delivered handled before ∧
      Reported delivered others after := by
  induction handled generalizing reports with
  | nil => exact ⟨[], reports, rfl, .nil, h⟩
  | cons handling handled ih =>
    cases h with
    | @cons _ report _ reports fits h =>
      obtain ⟨before, after, rfl, hbefore, hafter⟩ := ih h
      exact ⟨report :: before, after, rfl, .cons fits hbefore, hafter⟩

lemma Reported.inline {outcome : Except Fault (Value ι)} {handled : List (Handling ι)}
    (h : Reported delivered (.inline outcome :: handled) reports) :
    ∃ others, reports = ⟨.inline, outcome⟩ :: others ∧ Reported delivered handled others := by
  cases h with
  | cons fits h => exact ⟨_, congrArg (· :: _) fits, h⟩

end Reports

/-- As long as a thread evaluates an operand itself, the call can only fail. -/
lemma Thread.of_callOutcome_above {control : Control ι} {up stack : List (Cont ι)} {cont : Cont ι}
    {outcome : Except Fault (List (Value ι))}
    (h : Thread.callOutcome? stack.length ⟨control, up ++ cont :: stack⟩ = some outcome) :
    ∃ fault, control = .fail fault ∧ outcome = .error fault := by
  cases control with
  | fail fault =>
    cases h
    exact ⟨fault, rfl, rfl⟩
  | join head values underway purpose =>
    cases underway with
    | nil =>
      have hne : (up ++ cont :: stack).length ≠ stack.length := by
        rw [List.length_append, List.length_cons]
        omega
      have hnone : Thread.callOutcome? stack.length
          ⟨.join head values [] purpose, up ++ cont :: stack⟩ = none := if_neg hne
      rw [hnone] at h
      cases h
    | cons operand underway => cases h
  | _ => cases h

namespace SharedCall

variable {limits : Limits} {delivered : Nat → Option (Except Fault (Value ι))}
  {call : SharedCall ι} {thread : Thread ι} {log : List (Deed ι)} {m : Nat}
  {outcome : Except Fault (List (Value ι))}

/-- The log and the outcome of a call at its end. The operands have been handled one after the
other, as far as `sharedExtent` says, and the outcome is that of `sharedVerdict`, whatever becomes
of the operands that have no outcome yet. -/
def Concludes (limits : Limits) (delivered : Nat → Option (Except Fault (Value ι)))
    (call : SharedCall ι) (log : List (Deed ι)) (outcome : Except Fault (List (Value ι))) : Prop :=
  ∃ handled, log = call.record handled ∧ handled.length ≤ call.exprs.length ∧
    ∀ seen unseen, Reported delivered handled seen →
      seen.length + unseen.length = call.exprs.length →
      outcome = sharedVerdict limits call.rest.ending (seen ++ unseen) ∧
      handled.length = sharedExtent call.rest.ending (seen ++ unseen)

/-- An operand fails that the thread evaluates itself. -/
lemma Awaits.concludes {handled : List (Handling ι)} {done more : List (Value ι)} {e : Value ι}
    {cont : Cont ι} (awaits : call.Awaits handled more cont)
    (hexprs : call.exprs = done ++ e :: more) (hlength : handled.length = done.length)
    (fault : Fault) :
    call.Concludes limits delivered
      (call.record handled ++ [.begins e call.env, .gets (.error fault)]) (.error fault) := by
  have hrecord := record_append hexprs hlength (.inline (.error fault))
  refine ⟨_, hrecord.symm, ?_, ?_⟩
  · simp [hexprs, hlength]
  · intro seen unseen reported _
    cases awaits with
    | share =>
      obtain ⟨others, rfl, hothers⟩ := reported.inline
      exact ⟨rfl, rfl⟩
    | inline proper head underway =>
      obtain ⟨front, last, rfl, hfront, hlast⟩ := reported.split
      obtain ⟨before, rfl, hbefore⟩ := hfront.inline
      obtain ⟨others, rfl, hothers⟩ := hlast.inline
      cases hothers
      have hnone := hbefore.first?_inline
      have hcount : before.length = underway.length := by simpa using hbefore.length_eq.symm
      rw [proper, List.append_assoc, List.cons_append]
      refine ⟨(sharedVerdict_of_inline limits head hnone fault unseen).symm, ?_⟩
      rw [sharedExtent_of_value, List.singleton_append, Report.reach_append hnone]
      simp [handlings, Report.reach, hcount]

/-- The first operand has a value, and all others have been handled. -/
lemma concludes_of_operands (proper : call.rest.ending = .nil) (head : Value ι)
    {operands : List (Operand ι)} (hlength : operands.length = call.rest.elements.length)
    (h : ∀ others, Reported delivered (operands.map Operand.handling) others →
      sharedVerdict limits .nil (⟨.inline, .ok head⟩ :: others) = outcome) :
    call.Concludes limits delivered (call.record (handlings head operands)) outcome := by
  refine ⟨handlings head operands, rfl, ?_, ?_⟩
  · simp [handlings, exprs, hlength]
  · intro seen unseen reported hcount
    obtain ⟨others, rfl, hothers⟩ := reported.inline
    have hall : others.length = operands.length := by simpa using hothers.length_eq.symm
    have hunseen : unseen = [] := by
      refine List.eq_nil_of_length_eq_zero ?_
      simp only [exprs, List.length_cons] at hcount
      omega
    subst hunseen
    have hreach := Report.reach_append hothers.first?_inline []
    rw [proper, List.append_nil, sharedExtent_of_value, h others hothers]
    rw [List.append_nil] at hreach
    simp [handlings, hreach, hall, Report.reach]

lemma Stage.concludes (stage : call.Stage limits delivered thread log m)
    (ended : thread.callOutcome? call.depth = some outcome) :
    call.Concludes limits delivered log outcome := by
  cases stage with
  | evaluating awaits hexprs hlength inner =>
    obtain ⟨control, stack⟩ := inner
    obtain ⟨fault, rfl, rfl⟩ := Thread.of_callOutcome_above ended
    exact awaits.concludes hexprs hlength fault
  | improper h head =>
    cases ended
    refine ⟨handlings head [], rfl, by simp [handlings, exprs], ?_⟩
    intro seen unseen reported _
    obtain ⟨others, rfl, hothers⟩ := reported.inline
    exact ⟨(sharedVerdict_of_ending limits h head _).symm, by simp [handlings, sharedExtent, h]⟩
  | placing => cases ended
  | submitting => cases ended
  | @joining proper head collected underway values hlength has =>
    cases underway with
    | nil =>
      obtain rfl : Except.ok (head :: values.reverse) = outcome := by
        simpa [Thread.callOutcome?, depth] using ended
      rw [List.append_nil] at hlength ⊢
      refine concludes_of_operands proper head hlength fun others hothers => ?_
      exact sharedVerdict_of_values limits head (hothers.outcomes_of_has has)
    | cons operand underway => cases ended
  | @broken proper head collected underway values k fault hlength has failed =>
    cases ended
    refine concludes_of_operands proper head hlength fun others hothers => ?_
    have hnone := hothers.first?_inline
    rw [List.map_append] at hothers
    obtain ⟨before, after, rfl, hbefore, hafter⟩ := hothers.split
    cases hafter with
    | @cons _ report _ after fits hafter =>
      obtain ⟨way, outcome⟩ := report
      obtain ⟨rfl, houtcome⟩ := fits
      obtain rfl : outcome = .error fault := houtcome _ failed
      refine sharedVerdict_of_forked limits head hnone ?_
      simp [hbefore.first?_of_has has]

end SharedCall

lemma Thread.outcome?_above {inner : Thread ι} (h : inner.outcome? = none) (cont : Cont ι)
    (stack : List (Cont ι)) :
    (⟨inner.control, inner.stack ++ cont :: stack⟩ : Thread ι).outcome? = none := by
  obtain ⟨control, up⟩ := inner
  cases up with
  | nil => exact Machine.watches_outcome.waits _ _ _ (Machine.goes_of_outcome h)
  | cons _ up => exact Machine.watches_outcome.waits _ _ _ (Machine.goes_of_outcome h)

section Shares

variable [Marking ι] {rest : Value ι}

lemma Machine.resume_share_of_nil (h : rest.ending.isNil) (limits : Limits) (env : Env ι)
    (purpose : Purpose) (v : Value ι) (stack : List (Cont ι)) (s : State ι) :
    resume limits (.share rest env purpose) v stack s =
      (⟨.fork ⟨v, [], rest.elements, env, purpose⟩, stack⟩, s) := by
  simp [resume, Value.toList, h]

lemma Machine.resume_share_of_not_nil (h : ¬ rest.ending.isNil) (limits : Limits) (env : Env ι)
    (purpose : Purpose) (v : Value ι) (stack : List (Cont ι)) (s : State ι) :
    resume limits (.share rest env purpose) v stack s =
      (⟨.fail (rest.ending.blame limits .improperTail), stack⟩, s) := by
  simp [resume, Value.toList, h, fail]

end Shares

section Turns

variable [DecidableEq ι] [Marking ι] {limits : Limits} {p q : Pool ι} {number : Nat}

namespace Turn

/-- A turn of a thread that evaluates something for others leaves those alone. -/
lemma above {inner : Thread ι} {cont : Cont ι} {stack : List (Cont ι)}
    (unfinished : inner.outcome? = none)
    (htask : p.tasks[number]? =
      some ⟨⟨inner.control, inner.stack ++ cont :: stack⟩, .running⟩)
    (turn : Turn limits p number ⟨⟨inner.control, inner.stack ++ cont :: stack⟩, .running⟩ q) :
    ∃ inner', Machine.IsAwaited inner' ∧
      q.tasks[number]? = some ⟨⟨inner'.control, inner'.stack ++ cont :: stack⟩, .running⟩ := by
  have hlt : number < p.tasks.size := (Array.getElem?_eq_some_iff.mp htask).1
  have hset (task' : Task ι) : (p.tasks.setIfInBounds number task')[number]? = some task' :=
    Array.getElem?_setIfInBounds_self_of_lt hlt
  have hrun {r : Thread ι} (h : ∃ inner', Machine.IsAwaited inner' ∧
      r = ⟨inner'.control, inner'.stack ++ cont :: stack⟩) : ∃ inner', Machine.IsAwaited inner' ∧
        (p.tasks.setIfInBounds number ⟨r, .running⟩)[number]? =
          some ⟨⟨inner'.control, inner'.stack ++ cont :: stack⟩, .running⟩ := by
    obtain ⟨inner', awaited, rfl⟩ := h
    exact ⟨inner', awaited, hset _⟩
  have hgoes := Thread.outcome?_above unfinished cont stack
  obtain ⟨control, up⟩ := inner
  cases turn with
  | release ended =>
    rw [hgoes] at ended
    cases ended
  | overrelease ended =>
    rw [hgoes] at ended
    cases ended
  | work own _ =>
    exact hrun (Machine.exists_above_step limits p.state .shared unfinished (cont :: stack))
  | @gather sharing _ none =>
    exact ⟨⟨.join sharing.head [] sharing.underway.reverse sharing.purpose, up⟩, nofun, hset _⟩
  | @acquire sharing _ e rest more free =>
    exact ⟨⟨.submit e { sharing with rest }, up⟩, nofun, hset _⟩
  | inline more taken =>
    exact hrun (Machine.grows_await limits .shared _ _ nofun _ _).exists_above
  | @submit e sharing =>
    exact ⟨⟨.fork { sharing with underway := .task p.tasks.size :: sharing.underway }, up⟩,
      nofun, Pool.getElem?_push_set hlt⟩
  | refuse => exact ⟨⟨.fail _, up⟩, nofun, hset _⟩
  | strand => exact ⟨⟨.fail _, up⟩, nofun, Pool.getElem?_push_set hlt⟩
  | combine =>
    exact hrun (Machine.grows_finish limits .shared _ _ _ _).exists_above
  | @ready head v values underway purpose =>
    exact ⟨⟨.join head (v :: values) underway purpose, up⟩, nofun, hset _⟩
  | @collect head v values underway purpose =>
    exact ⟨⟨.join head (v :: values) underway purpose, up⟩, nofun, hset _⟩
  | @fault head values underway purpose _ other found =>
    exact ⟨⟨.fail found, up⟩, nofun, hset _⟩

end Turn

omit [DecidableEq ι] [Marking ι] in
/-- What a step has done for a call, if it makes no task. -/
lemma Pool.deeds_of_set {depth : Nat} {thread : Thread ι}
    (hq : q.tasks = p.tasks.setIfInBounds number ⟨thread, .running⟩)
    (hlt : number < p.tasks.size) :
    p.deeds number depth q =
      if depth < thread.stack.length then (thread.deed? depth).toList else [] := by
  have htask : q.tasks[number]? = some ⟨thread, .running⟩ := by
    rw [hq, Array.getElem?_setIfInBounds_self_of_lt hlt]
  have hsize : q.tasks.toList.drop p.tasks.size = [] := by
    rw [hq]
    simp
  simp only [deeds, htask, hsize, List.zipIdx_nil, List.map_nil]

omit [DecidableEq ι] [Marking ι] in
lemma Pool.deeds_of_enter {e : Value ι} {env : Env ι} {cont : Cont ι} {stack : List (Cont ι)}
    (htask : q.tasks[number]? = some ⟨⟨.enter e env, cont :: stack⟩, .running⟩) :
    p.deeds number stack.length q = [.begins e env] := by
  simp [deeds, htask, Thread.deed?]

omit [DecidableEq ι] [Marking ι] in
lemma Pool.deeds_of_push {control : Control ι} {stack : List (Cont ι)} {task : Task ι}
    (hq : q.tasks = (p.tasks.setIfInBounds number ⟨⟨control, stack⟩, .running⟩).push task)
    (hlt : number < p.tasks.size) :
    p.deeds number stack.length q = [.hands p.tasks.size task.thread] := by
  have htask : q.tasks[number]? = some ⟨⟨control, stack⟩, .running⟩ := by
    rw [hq, Pool.getElem?_push_set hlt]
  have hnew : q.tasks.toList.drop p.tasks.size = [task] := by
    rw [hq, Array.toList_push, Array.toList_setIfInBounds]
    simp
  simp [deeds, htask, hnew]

omit [DecidableEq ι] [Marking ι] in
/-- What a thread does for a call when it evaluates an operand itself is to get its outcome. -/
lemma Pool.deeds_of_above {inner : Thread ι} {cont : Cont ι} {stack : List (Cont ι)}
    (awaited : Machine.IsAwaited inner)
    (htask : q.tasks[number]? =
      some ⟨⟨inner.control, inner.stack ++ cont :: stack⟩, .running⟩) :
    p.deeds number stack.length q = (inner.outcome?.map .gets).toList := by
  have hdepth : stack.length < (inner.stack ++ cont :: stack).length := by
    rw [List.length_append, List.length_cons]
    omega
  simp only [deeds, htask, hdepth, if_true]
  congr 1
  obtain ⟨control, up⟩ := inner
  cases control with
  | enter e env =>
    have hup : up ≠ [] := awaited e env rfl
    simp [Thread.deed?, Thread.outcome?, hup]
  | give v =>
    cases up with
    | nil => simp [Thread.deed?, Thread.outcome?]
    | cons cont' up =>
      have hne : up.length + (stack.length + 1) ≠ stack.length := by omega
      simp [Thread.deed?, Thread.outcome?, hne]
  | _ => rfl

namespace SharedCall

variable {call : SharedCall ι} {thread : Thread ι} {log : List (Deed ι)} {m : Nat}

/-- A call has come from one stage to another in a step of its thread: it has fewer turns left for
itself, or the thread goes on to evaluate an operand. -/
def Advances (limits : Limits) (call : SharedCall ι) (number : Nat) (p q : Pool ι)
    (thread : Thread ι) (log : List (Deed ι)) (m : Nat) : Prop :=
  ∃ thread' m', q.tasks[number]? = some ⟨thread', .running⟩ ∧
    call.Stage limits p.delivered? thread' (log ++ p.deeds number call.depth q) m' ∧
    (m' < m ∨ m' = m ∧ call.depth < thread.stack.length ∧ call.depth < thread'.stack.length)

omit [DecidableEq ι] [Marking ι] in
lemma advances_of_set {thread' : Thread ι} {m' : Nat}
    (htask : p.tasks[number]? = some ⟨thread, .running⟩)
    (hq : q.tasks = p.tasks.setIfInBounds number ⟨thread', .running⟩)
    (hstack : thread'.stack = call.stack) (stage : call.Stage limits p.delivered? thread' log m')
    (hlt : m' < m) : call.Advances limits number p q thread log m := by
  have hnumber : number < p.tasks.size := (Array.getElem?_eq_some_iff.mp htask).1
  refine ⟨thread', m', ?_, ?_, .inl hlt⟩
  · rw [hq, Array.getElem?_setIfInBounds_self_of_lt hnumber]
  · rw [Pool.deeds_of_set hq hnumber, hstack, depth, if_neg (Nat.lt_irrefl _), List.append_nil]
    exact stage

/-- The thread has the value of an operand that it has evaluated itself. -/
lemma Awaits.turn {handled : List (Handling ι)} {done more : List (Value ι)} {e v : Value ι}
    {cont : Cont ι} (awaits : call.Awaits handled more cont)
    (hexprs : call.exprs = done ++ e :: more) (hlength : handled.length = done.length)
    (htask : p.tasks[number]? = some ⟨⟨.give v, cont :: call.stack⟩, .running⟩)
    (turn : Turn limits p number ⟨⟨.give v, cont :: call.stack⟩, .running⟩ q) :
    call.Advances limits number p q ⟨.give v, cont :: call.stack⟩
      (call.record handled ++ [.begins e call.env, .gets (.ok v)])
      (4 * more.length + handled.length + 2) := by
  have hrecord : call.record (handled ++ [.inline (.ok v)]) =
      call.record handled ++ [.begins e call.env, .gets (.ok v)] :=
    record_append hexprs hlength (.inline (.ok v))
  rw [← hrecord]
  have hstep {r : Thread ι × State ι} (h : Machine.resume limits cont v call.stack p.state = r) :
      q.tasks = p.tasks.setIfInBounds number ⟨r.1, .running⟩ := by
    cases turn with
    | release ended => cases ended
    | overrelease ended => cases ended
    | work own unfinished => exact congrArg (fun r => p.tasks.setIfInBounds number ⟨r.1, _⟩) h
  cases awaits with
  | share =>
    by_cases hnil : call.rest.ending.isNil
    · refine advances_of_set htask (hstep (Machine.resume_share_of_nil hnil ..)) rfl ?_
        (Nat.lt_succ_self _)
      exact .placing (Value.isNil_iff.mp hnil) v (List.nil_append _).symm rfl
    · refine advances_of_set htask (hstep (Machine.resume_share_of_not_nil hnil ..)) rfl ?_
        (Nat.zero_lt_succ _)
      exact .improper hnil v
  | inline proper head underway =>
    obtain ⟨done, rfl⟩ : ∃ others, done = call.first :: others := by
      cases done with
      | nil => simp at hlength
      | cons e' done => exact ⟨done, by rw [(List.cons.inj hexprs).1]⟩
    have hfewer : 4 * more.length + (underway.length + 1) + 1 <
        4 * more.length + (handlings head underway.reverse).length + 2 := by simp
    refine advances_of_set htask (hstep rfl) rfl ?_ hfewer
    have hrest : call.rest.elements = (done ++ [e]) ++ more := by
      rw [List.append_assoc, List.singleton_append]
      exact (List.cons.inj hexprs).2
    have hready := handlings_append head underway.reverse (.ready v)
    rw [← List.reverse_cons] at hready
    exact hready ▸ .placing proper head hrest (by simpa using hlength)

/-- The thread goes on with an operand that it evaluates itself. -/
lemma Awaits.turn_inner {handled : List (Handling ι)} {done more : List (Value ι)} {e : Value ι}
    {cont : Cont ι} (awaits : call.Awaits handled more cont)
    (hexprs : call.exprs = done ++ e :: more) (hlength : handled.length = done.length)
    {inner : Thread ι} (unfinished : inner.outcome? = none)
    (htask : p.tasks[number]? =
      some ⟨⟨inner.control, inner.stack ++ cont :: call.stack⟩, .running⟩)
    (turn : Turn limits p number ⟨⟨inner.control, inner.stack ++ cont :: call.stack⟩, .running⟩ q) :
    call.Advances limits number p q ⟨inner.control, inner.stack ++ cont :: call.stack⟩
      (call.record handled ++ [.begins e call.env]) (4 * more.length + handled.length + 2) := by
  obtain ⟨inner', awaited, htask'⟩ := turn.above unfinished htask
  have hdepth (up : List (Cont ι)) : call.depth < (up ++ cont :: call.stack).length := by
    rw [depth, List.length_append, List.length_cons]
    omega
  refine ⟨_, _, htask', ?_, .inr ⟨rfl, hdepth _, hdepth _⟩⟩
  rw [depth, Pool.deeds_of_above awaited htask', List.append_assoc]
  exact .evaluating awaits hexprs hlength inner'

variable {head : Value ι} {underway : List (Operand ι)} {done more : List (Value ι)}

/-- The thread finds someone to evaluate the next operand, or all are on their way. -/
lemma turn_fork (room : Machine.hasRoom limits call.stack) (proper : call.rest.ending = .nil)
    (hexprs : call.rest.elements = done ++ more) (hlength : underway.length = done.length)
    (htask : p.tasks[number]? =
      some ⟨⟨.fork ⟨head, underway, more, call.env, call.purpose⟩, call.stack⟩, .running⟩)
    (turn : Turn limits p number
      ⟨⟨.fork ⟨head, underway, more, call.env, call.purpose⟩, call.stack⟩, .running⟩ q) :
    call.Advances limits number p q
      ⟨.fork ⟨head, underway, more, call.env, call.purpose⟩, call.stack⟩
      (call.record (handlings head underway.reverse)) (4 * more.length + underway.length + 1) := by
  have hnumber : number < p.tasks.size := (Array.getElem?_eq_some_iff.mp htask).1
  cases turn with
  | release ended => cases ended
  | overrelease ended => cases ended
  | work own => cases own
  | gather none =>
    obtain rfl : more = [] := none
    have hcount : ([] ++ underway.reverse).length = call.rest.elements.length := by
      simp [hexprs, hlength]
    exact advances_of_set htask rfl rfl (.joining proper head hcount .nil) (by simp)
  | @acquire _ _ e rest next free =>
    obtain rfl : more = e :: rest := next
    refine advances_of_set htask rfl rfl (.submitting proper head hexprs hlength) ?_
    dsimp only [List.length_cons]
    omega
  | @inline _ _ e rest next taken =>
    obtain rfl : more = e :: rest := next
    have hawait : Machine.await limits (.inline ⟨head, underway, rest, call.env, call.purpose⟩) e
        call.env call.stack (p.state.log (.ranInline p.crew.slots e)) = (⟨.enter e call.env,
          .inline ⟨head, underway, rest, call.env, call.purpose⟩ :: call.stack⟩, _) := if_pos room
    dsimp only
    rw [hawait]
    have hall : call.exprs = (call.first :: done) ++ e :: rest := congrArg (call.first :: ·) hexprs
    have hset := Array.getElem?_setIfInBounds_self_of_lt (a := Task.mk ⟨.enter e call.env,
      .inline ⟨head, underway, rest, call.env, call.purpose⟩ :: call.stack⟩ .running) hnumber
    refine ⟨_, 4 * rest.length + (handlings head underway.reverse).length + 2, hset, ?_, .inl ?_⟩
    · rw [depth, Pool.deeds_of_enter hset]
      exact .evaluating (.inline proper head underway rest) hall (by simp [hlength])
        ⟨.enter e call.env, []⟩
    · rw [length_handlings, List.length_reverse, List.length_cons]
      omega

lemma turn_submit (welcome : p.crew.refusal = none)
    (room : Machine.hasRoom limits call.stack) (proper : call.rest.ending = .nil)
    {e : Value ι} (hexprs : call.rest.elements = done ++ e :: more)
    (hlength : underway.length = done.length)
    (htask : p.tasks[number]? =
      some ⟨⟨.submit e ⟨head, underway, more, call.env, call.purpose⟩, call.stack⟩, .running⟩)
    (turn : Turn limits p number
      ⟨⟨.submit e ⟨head, underway, more, call.env, call.purpose⟩, call.stack⟩, .running⟩ q) :
    call.Advances limits number p q
      ⟨.submit e ⟨head, underway, more, call.env, call.purpose⟩, call.stack⟩
      (call.record (handlings head underway.reverse)) (4 * more.length + underway.length + 3) := by
  have hnumber : number < p.tasks.size := (Array.getElem?_eq_some_iff.mp htask).1
  cases turn with
  | release ended => cases ended
  | overrelease ended => cases ended
  | work own => cases own
  | refuse refused =>
    rw [welcome] at refused
    cases refused
  | strand _ cramped =>
    rw [room] at cramped
    cases cramped
  | submit =>
    refine ⟨⟨.fork ⟨head, .task p.tasks.size :: underway, more, call.env, call.purpose⟩,
      call.stack⟩, 4 * more.length + (underway.length + 1) + 1, Pool.getElem?_push_set hnumber, ?_,
      .inl (by omega)⟩
    · have hcount : underway.reverse.length = done.length := by simpa using hlength
      have hrecord := record_handlings hexprs head hcount (.task p.tasks.size)
      have hrest : call.rest.elements = (done ++ [e]) ++ more := by
        rw [hexprs, List.append_assoc, List.singleton_append]
      rw [depth, Pool.deeds_of_push rfl hnumber]
      rw [← List.reverse_cons] at hrecord
      exact hrecord ▸ .placing proper head hrest (by simp [hlength])

section Join

variable {operand : Operand ι} {collected : List (Operand ι)} {values : List (Value ι)}

omit [DecidableEq ι] [Marking ι] in
lemma advances_of_has {v : Value ι} (proper : call.rest.ending = .nil)
    (hlength : (collected ++ operand :: underway).length = call.rest.elements.length)
    (has : List.Forall₂ (fun operand v => operand.Has p.delivered? v) collected values.reverse)
    (hv : operand.Has p.delivered? v)
    (htask : p.tasks[number]? =
      some ⟨⟨.join head values (operand :: underway) call.purpose, call.stack⟩, .running⟩)
    (hq : q.tasks = p.tasks.setIfInBounds number
      ⟨⟨.join head (v :: values) underway call.purpose, call.stack⟩, .running⟩) :
    call.Advances limits number p q
      ⟨.join head values (operand :: underway) call.purpose, call.stack⟩
      (call.record (handlings head (collected ++ operand :: underway)))
      (operand :: underway).length := by
  rw [← List.singleton_append, ← List.append_assoc] at hlength ⊢
  refine advances_of_set htask hq rfl (.joining proper head hlength ?_) (Nat.lt_succ_self _)
  rw [List.reverse_cons]
  exact List.rel_append has (.cons hv .nil)

lemma turn_join (proper : call.rest.ending = .nil)
    (hlength : (collected ++ operand :: underway).length = call.rest.elements.length)
    (has : List.Forall₂ (fun operand v => operand.Has p.delivered? v) collected values.reverse)
    (htask : p.tasks[number]? =
      some ⟨⟨.join head values (operand :: underway) call.purpose, call.stack⟩, .running⟩)
    (turn : Turn limits p number
      ⟨⟨.join head values (operand :: underway) call.purpose, call.stack⟩, .running⟩ q) :
    call.Advances limits number p q
      ⟨.join head values (operand :: underway) call.purpose, call.stack⟩
      (call.record (handlings head (collected ++ operand :: underway)))
      (operand :: underway).length := by
  cases turn with
  | release ended => cases ended
  | overrelease ended => cases ended
  | work own => cases own
  | ready => exact advances_of_has proper hlength has rfl htask rfl
  | collect delivered => exact advances_of_has proper hlength has delivered htask rfl
  | fault failed =>
    exact advances_of_set htask rfl rfl (.broken proper head hlength has failed)
      (Nat.zero_lt_succ _)

end Join

/-- A turn of the thread of a call takes it from one stage to another. -/
lemma Stage.turn (stage : call.Stage limits p.delivered? thread log m)
    (room : Machine.hasRoom limits call.stack) (welcome : p.crew.refusal = none)
    (htask : p.tasks[number]? = some ⟨thread, .running⟩)
    (goes : thread.callOutcome? call.depth = none)
    (turn : Turn limits p number ⟨thread, .running⟩ q) :
    call.Advances limits number p q thread log m := by
  cases stage with
  | @evaluating handled done more e cont awaits hexprs hlength inner =>
    cases houtcome : inner.outcome? with
    | none => exact awaits.turn_inner hexprs hlength houtcome htask turn
    | some outcome =>
      cases outcome with
      | ok v =>
        rw [Thread.of_outcome_ok houtcome] at htask turn ⊢
        exact awaits.turn hexprs hlength htask turn
      | error fault =>
        -- The call has failed with its operand, so it has its outcome already.
        have hfail : inner.control = .fail fault := Thread.of_outcome_error houtcome
        rw [hfail] at goes
        cases goes
  | improper h head => cases goes
  | placing proper head hexprs hlength => exact turn_fork room proper hexprs hlength htask turn
  | submitting proper head hexprs hlength =>
    exact turn_submit welcome room proper hexprs hlength htask turn
  | @joining proper head collected underway values hlength has =>
    cases underway with
    | nil => simp [Thread.callOutcome?, depth] at goes
    | cons operand underway => exact turn_join proper hlength has htask turn
  | broken => cases goes

/-! ## Runs -/

/-- A call under way: how far its thread has come, and a crew that takes work. -/
structure UnderWay (limits : Limits) (call : SharedCall ι) (number : Nat) (q : Pool ι)
    (log : List (Deed ι)) (m : Nat) : Prop where
  welcome : q.crew.refusal = none
  stage : ∃ thread, q.tasks[number]? = some ⟨thread, .running⟩ ∧
    call.Stage limits q.delivered? thread log m

omit [DecidableEq ι] [Marking ι] in
/-- What tasks have delivered stays, so a call keeps its stage while others go on. -/
lemma Stage.mono {delivered delivered' : Nat → Option (Except Fault (Value ι))}
    (stage : call.Stage limits delivered thread log m)
    (h : ∀ k outcome, delivered k = some outcome → delivered' k = some outcome) :
    call.Stage limits delivered' thread log m := by
  have hhas (operand : Operand ι) (v : Value ι) (has : operand.Has delivered v) :
      operand.Has delivered' v := by
    cases operand with
    | task k => exact h k _ has
    | ready w => exact has
  cases stage with
  | evaluating awaits hexprs hlength inner => exact .evaluating awaits hexprs hlength inner
  | improper hnil head => exact .improper hnil head
  | placing proper head hexprs hlength => exact .placing proper head hexprs hlength
  | submitting proper head hexprs hlength => exact .submitting proper head hexprs hlength
  | joining proper head hlength has => exact .joining proper head hlength (has.imp hhas)
  | broken proper head hlength has failed =>
    exact .broken proper head hlength (has.imp hhas) (h _ _ failed)

namespace UnderWay

variable {r : Pool ι} {k : Nat}

omit [DecidableEq ι] [Marking ι] in
lemma start (limits : Limits) (htask : p.tasks[number]? = some ⟨call.thread, .running⟩)
    (welcome : p.crew.refusal = none) :
    UnderWay limits call number p (p.deeds number call.depth p)
      (4 * call.rest.elements.length + 2) := by
  refine ⟨welcome, call.thread, htask, ?_⟩
  rw [depth, Pool.deeds_of_enter htask]
  exact .evaluating .share (List.nil_append _).symm rfl ⟨.enter call.first call.env, []⟩

lemma own (h : UnderWay limits call number q log m) (room : Machine.hasRoom limits call.stack)
    (goes : q.callOutcome? number call.depth = none) (hstep : q.step limits number = some r) :
    ∃ m', UnderWay limits call number r (log ++ q.deeds number call.depth r) m' ∧
      (m' < m ∨ m' = m ∧ q.WorksAbove number call.depth ∧ r.WorksAbove number call.depth) := by
  obtain ⟨thread, htask, stage⟩ := h.stage
  obtain ⟨task, htask', turn⟩ := Pool.turn_of_step hstep
  obtain rfl : task = ⟨thread, .running⟩ := Option.some.inj (htask'.symm.trans htask)
  rw [Pool.callOutcome?, htask] at goes
  obtain ⟨thread', m', hr, stage', hmoves⟩ := stage.turn room h.welcome htask goes turn
  refine ⟨m', ⟨turn.crew.refusal.trans h.welcome, thread', hr, ?_⟩, ?_⟩
  · exact stage'.mono fun k outcome => turn.delivered htask
  · refine hmoves.imp_right fun ⟨hsame, hbefore, hafter⟩ => ⟨hsame, ?_, ?_⟩
    · exact ⟨_, htask, hbefore⟩
    · exact ⟨_, hr, hafter⟩

lemma other (h : UnderWay limits call number q log m) (hk : k ≠ number)
    (hstep : q.step limits k = some r) : UnderWay limits call number r log m := by
  obtain ⟨thread, htask, stage⟩ := h.stage
  obtain ⟨task, htask', turn⟩ := Pool.turn_of_step hstep
  refine ⟨turn.crew.refusal.trans h.welcome, thread, turn.other hk htask, ?_⟩
  exact stage.mono fun k outcome => turn.delivered htask'

omit [DecidableEq ι] [Marking ι] in
lemma concludes (h : UnderWay limits call number q log m) {outcome : Except Fault (List (Value ι))}
    (ended : q.callOutcome? number call.depth = some outcome) :
    call.Concludes limits q.delivered? log outcome := by
  obtain ⟨thread, htask, stage⟩ := h.stage
  rw [Pool.callOutcome?, htask] at ended
  exact stage.concludes ended

end UnderWay

end SharedCall

open SharedCall in
/-- Every run of a call has come to one of its stages. -/
theorem Pool.Logs.underWay {call : SharedCall ι} {log : List (Deed ι)}
    (run : p.Logs limits number call.depth log q) (room : Machine.hasRoom limits call.stack)
    (htask : p.tasks[number]? = some ⟨call.thread, .running⟩)
    (welcome : p.crew.refusal = none) : ∃ m, UnderWay limits call number q log m := by
  induction run with
  | start => exact ⟨_, .start limits htask welcome⟩
  | own run goes hstep ih =>
    obtain ⟨m, h⟩ := ih
    obtain ⟨m', h', -⟩ := h.own room goes hstep
    exact ⟨m', h'⟩
  | other run goes hk hstep ih =>
    obtain ⟨m, h⟩ := ih
    exact ⟨m, h.other hk hstep⟩

end Turns

end Evlis
