import Evlis.Proofs.Demand

/-!
# What a bound of the stack changes

A step on a bounded stack is the step on an unbounded one, unless there is no room for it. So the
two come to the same outcome, or the bounded one ends with the fault of a stack that is too deep.
-/

namespace Evlis

/-- The same limits for a stack without a bound. -/
def Limits.unbounded (limits : Limits) : Limits := { limits with depth := .none }

variable {ι : Type}

lemma Thread.outcome_of_fail {thread : Thread ι} {fault : Fault}
    (h : thread.control = .fail fault) : thread.outcome? = some (.error fault) := by
  rw [outcome?, h]

namespace Machine

/-- Two results are the same, or the first one is a failure for want of room. -/
def SameOrFull (r r' : Thread ι × State ι) : Prop := r = r' ∨ r.1.control = .fail .tooDeep

variable (limits : Limits) (stack : List (Cont ι)) (s : State ι)

lemma sameOrFull_await (cont : Cont ι) (e : Value ι) (env : Env ι) :
    SameOrFull (await limits cont e env stack s) (await limits.unbounded cont e env stack s) := by
  have hunbounded : allows limits.unbounded cont.calls stack = true := rfl
  rw [await, await, if_pos hunbounded]
  split
  · exact .inl rfl
  · exact .inr rfl

lemma sameOrFull_nextBinding (b : Binding ι) :
    SameOrFull (nextBinding limits b stack s) (nextBinding limits.unbounded b stack s) := by
  have hnext : b.next limits.unbounded = b.next limits := rfl
  rw [nextBinding_eq, nextBinding_eq, hnext]
  split
  · exact .inl rfl
  · exact sameOrFull_await limits stack s _ _ _
  · exact .inl rfl

variable [Marking ι]

lemma sameOrFull_nextOperand (values : List (Value ι)) (rest : Value ι) (env : Env ι)
    (purpose : Purpose) :
    SameOrFull (nextOperand limits values rest env purpose stack s)
      (nextOperand limits.unbounded values rest env purpose stack s) := by
  cases rest with
  | pair mark e rest => exact sameOrFull_await limits stack s _ e env
  | _ => exact .inl rfl

lemma sameOrFull_operands (mode : Mode) (exprs : Value ι) (env : Env ι) (purpose : Purpose) :
    SameOrFull (operands limits mode exprs env purpose stack s)
      (operands limits.unbounded mode exprs env purpose stack s) := by
  cases mode with
  | inOrder => exact sameOrFull_nextOperand limits stack s [] exprs env purpose
  | shared =>
    cases exprs with
    | pair mark e rest => exact sameOrFull_await limits stack s _ e env
    | _ => exact .inl rfl

lemma sameOrFull_evaluate [DecidableEq ι] (mode : Mode) (e : Value ι) (env : Env ι) :
    SameOrFull (evaluate limits mode e env stack s)
      (evaluate limits.unbounded mode e env stack s) := by
  have hdemand : Demand.ofExpr limits.unbounded (s.lookup limits.unbounded env) e =
      Demand.ofExpr limits (s.lookup limits env) e := rfl
  rw [evaluate_eq_pursue, evaluate_eq_pursue, hdemand]
  generalize Demand.ofExpr limits (s.lookup limits env) e = demand
  cases demand with
  | done outcome => cases outcome <;> exact .inl rfl
  | closure tail formals body => exact .inl rfl
  | operands exprs purpose => exact sameOrFull_operands limits stack s mode exprs env purpose
  | branch condition consequent alternative => exact sameOrFull_await limits stack s _ _ _
  | second first last => exact sameOrFull_await limits stack s _ _ _
  | letrec bindings body => exact sameOrFull_nextBinding limits stack _ _

lemma sameOrFull_resume (cont : Cont ι) (v : Value ι) :
    SameOrFull (resume limits cont v stack s) (resume limits.unbounded cont v stack s) := by
  cases cont with
  | operand values rest env purpose => exact sameOrFull_nextOperand limits stack s _ rest env _
  | bind name b => exact sameOrFull_nextBinding limits stack _ _
  | _ => exact .inl rfl

/-- A step on a bounded stack is the step on an unbounded one, if there is room for it. -/
theorem sameOrFull_step [DecidableEq ι] (mode : Mode) (thread : Thread ι) :
    SameOrFull (step limits mode thread s) (step limits.unbounded mode thread s) := by
  obtain ⟨control, stack⟩ := thread
  cases control with
  | enter e env => exact sameOrFull_evaluate limits stack s mode e env
  | bounce e env => exact sameOrFull_evaluate limits stack s mode e env
  | give v =>
    cases stack with
    | nil => exact .inl rfl
    | cons cont stack => exact sameOrFull_resume limits stack s cont v
  | _ => exact .inl rfl

end Machine

namespace Thread

/-- Step a thread until it comes to its end, at most `fuel` times. -/
def run (next : Thread ι × State ι → Thread ι × State ι) :
    (fuel : Nat) → Thread ι × State ι → Option (Except Fault (Value ι) × Thread ι × State ι)
  | 0, _ => none
  | fuel + 1, c =>
    match c.1.outcome? with
    | some outcome => some (outcome, c)
    | none => run next fuel (next c)

/-- A thread comes to an end with an outcome, frames and printed lines. -/
def ComesTo (next : Thread ι × State ι → Thread ι × State ι) (c : Thread ι × State ι)
    (outcome : Except Fault (Value ι)) (frames : Array (Frame ι)) (printed : Array String) : Prop :=
  ∃ fuel d, run next fuel c = some (outcome, d) ∧ d.2.frames = frames ∧ d.2.printed = printed

section Bounded

variable {next next' : Thread ι × State ι → Thread ι × State ι}
  (hnext : ∀ c, Machine.SameOrFull (next c) (next' c))

include hnext

lemma run_or_full (fuel : Nat) (c : Thread ι × State ι) :
    run next fuel c = run next' fuel c ∨ ∃ d, run next fuel c = some (.error .tooDeep, d) := by
  induction fuel generalizing c with
  | zero => exact .inl rfl
  | succ fuel ih =>
    rw [run, run]
    split
    · exact .inl rfl
    · rcases hnext c with hsame | hfull
      · rw [hsame]
        exact ih (next' c)
      · cases fuel with
        | zero => exact .inl rfl
        | succ fuel => exact .inr ⟨next c, by rw [run, outcome_of_fail hfull]⟩

variable {c : Thread ι × State ι} {outcome : Except Fault (Value ι)} {frames : Array (Frame ι)}
  {printed : Array String}

/-- What a run on an unbounded stack comes to, a run on a bounded one comes to, if it does not run
out of room. -/
lemma ComesTo.or_full (h : ComesTo next' c outcome frames printed) :
    ComesTo next c outcome frames printed ∨
      ∃ frames' printed', ComesTo next c (.error .tooDeep) frames' printed' := by
  obtain ⟨fuel, d, hrun, hstate⟩ := h
  rcases run_or_full hnext fuel c with hsame | ⟨d', hfull⟩
  · exact .inl ⟨fuel, d, hsame.trans hrun, hstate⟩
  · exact .inr ⟨_, _, fuel, d', hfull, rfl, rfl⟩

/-- What a run on a bounded stack comes to without running out of room, a run on an unbounded one
comes to. -/
lemma ComesTo.of_bounded (h : ComesTo next c outcome frames printed)
    (roomy : outcome ≠ .error .tooDeep) : ComesTo next' c outcome frames printed := by
  obtain ⟨fuel, d, hrun, hstate⟩ := h
  rcases run_or_full hnext fuel c with hsame | ⟨d', hfull⟩
  · exact ⟨fuel, d, hsame.symm.trans hrun, hstate⟩
  · rw [hrun] at hfull
    cases hfull
    exact absurd rfl roomy

end Bounded

end Thread

end Evlis
