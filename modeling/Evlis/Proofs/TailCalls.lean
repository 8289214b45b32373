import Evlis.Proofs.LetrecBindings
import Evlis.Proofs.OperandVerdicts

/-!
# Expressions in tail position

An expression in tail position takes the place of the expression that it ends. So an evaluation is a
sequence of bounces, each from one such expression to the next, and an expression that has an
outcome of its own. No matter how long the sequence is, the room that it takes is the room that one
of its members takes: `Evaluation.evaluate_iff_bounces` and `Evaluation.evaluate_of_endless`.
-/

namespace Evlis

open Relation

variable {ι : Type}

namespace Machine

/-- Evaluations that wait in order, and no more of them than the limits allow. -/
structure Fits (limits : Limits) (stack : List (Cont ι)) : Prop where
  inOrder : InOrder stack
  length_le : ∀ d ∈ limits.depth, stack.length ≤ d

lemma Fits.nil (limits : Limits) : Fits limits ([] : List (Cont ι)) :=
  ⟨fun _ h => (List.not_mem_nil h).elim, fun d _ => Nat.zero_le d⟩

lemma Fits.of_cons {limits : Limits} {cont : Cont ι} {stack : List (Cont ι)}
    (fits : Fits limits (cont :: stack)) : Fits limits stack :=
  ⟨fun other h => fits.inOrder other (.tail _ h),
    fun d hd => Nat.le_of_succ_le (fits.length_le d hd)⟩

lemma Grows.fits {limits : Limits} {stack : List (Cont ι)} {thread : Thread ι}
    (h : Grows limits .inOrder stack thread) (fits : Fits limits stack) :
    Fits limits thread.stack := by
  cases h with
  | same => exact fits
  | @more cont e env room inOrder =>
    have hcont := inOrder rfl
    refine ⟨List.forall_mem_cons.mpr ⟨hcont, fits.inOrder⟩, fun d hd => ?_⟩
    have hcalls : 4 * stack.length + 4 ≤ 4 * d + 1 := by
      simpa [allows, Option.mem_def.mp hd, hcont, fits.inOrder.calls_eq] using room
    rw [List.length_cons]
    omega

variable [DecidableEq ι] [Marking ι]

/-- A step lets no more evaluations wait than the limits allow. -/
lemma fits_step (limits : Limits) {c : Thread ι × State ι} (fits : Fits limits c.1.stack) :
    Fits limits (step limits .inOrder c.1 c.2).1.stack := by
  obtain ⟨⟨control, stack⟩, s⟩ := c
  cases control with
  | enter e env => exact (grows_evaluate limits .inOrder stack s e env).fits fits
  | bounce e env => exact (grows_evaluate limits .inOrder stack s e env).fits fits
  | give v =>
    cases stack with
    | nil => exact fits
    | cons cont stack => exact (grows_resume limits .inOrder stack s cont v).fits fits.of_cons
  | _ => exact fits

lemma fits_reaches {limits : Limits} {c c' : Thread ι × State ι} (fits : Fits limits c.1.stack)
    (h : Reaches limits c c') : Fits limits c'.1.stack := by
  induction h with
  | refl => exact fits
  | tail _ hstep ih =>
    rw [← hstep]
    exact fits_step limits ih

end Machine

namespace Thread

lemma outcome_of_answer {thread : Thread ι} {outcome : Except Fault (Value ι)}
    (h : thread.answer? = some (outcome.map .value)) : thread.outcome? = some outcome := by
  obtain ⟨control, stack⟩ := thread
  cases control with
  | fail fault =>
    cases outcome with
    | ok v => cases h
    | error fault' =>
      cases h
      rfl
  | give v =>
    cases stack with
    | nil =>
      cases outcome with
      | ok v' =>
        cases h
        rfl
      | error fault => cases h
    | cons cont stack => cases h
  | bounce e env =>
    cases stack with
    | nil => cases outcome <;> cases h
    | cons cont stack => cases h
  | _ => cases h

lemma eq_of_answer_tail {thread : Thread ι} {e : Value ι} {env : Env ι}
    (h : thread.answer? = some (.ok (.tail e env))) : thread = ⟨.bounce e env, []⟩ := by
  obtain ⟨control, stack⟩ := thread
  cases control with
  | give v => cases stack <;> cases h
  | bounce e' env' =>
    cases stack with
    | nil =>
      cases h
      rfl
    | cons cont stack => cases h
  | _ => cases h

lemma outcome_of_answer_none {thread : Thread ι} (h : thread.answer? = none) :
    thread.outcome? = none := by
  obtain ⟨control, stack⟩ := thread
  cases control with
  | fail fault => cases h
  | give v =>
    cases stack with
    | nil => cases h
    | cons cont stack => rfl
  | _ => rfl

end Thread

lemma Answer.cases_of (r : Except Fault (Answer ι)) :
    (∃ outcome : Except Fault (Value ι), r = outcome.map .value) ∨
      ∃ e env, r = .ok (.tail e env) := by
  rcases r with fault | v | ⟨e, env⟩
  · exact .inl ⟨.error fault, rfl⟩
  · exact .inl ⟨.ok v, rfl⟩
  · exact .inr ⟨e, env, rfl⟩

variable [DecidableEq ι] [Marking ι]

namespace Machine

variable {limits : Limits} {fuel : Nat} {thread : Thread ι} {s s' : State ι}

lemma runUntil_mono {α : Type} {done? : Thread ι → Option α} {r : α × State ι} (more : Nat)
    (h : runUntil done? limits fuel thread s = some r) :
    runUntil done? limits (fuel + more) thread s = some r := by
  induction fuel generalizing thread s with
  | zero => cases h
  | succ fuel ih =>
    rw [Nat.add_right_comm]
    rw [runUntil] at h ⊢
    split at h
    · exact h
    · exact ih h

/-- An expression in tail position is evaluated as it would be on its own. -/
lemma runUntil_bounce (fuel : Nat) (e : Value ι) (env : Env ι) (s : State ι) :
    runUntil Thread.outcome? limits fuel ⟨.bounce e env, []⟩ s =
      runUntil Thread.outcome? limits fuel (.start e env) s := by
  cases fuel <;> rfl

lemma runUntil_outcome_of_answer {outcome : Except Fault (Value ι)}
    (h : runUntil Thread.answer? limits fuel thread s = some (outcome.map .value, s')) :
    runUntil Thread.outcome? limits fuel thread s = some (outcome, s') := by
  induction fuel generalizing thread s with
  | zero => cases h
  | succ fuel ih =>
    cases hanswer : thread.answer? with
    | some r =>
      rw [runUntil, hanswer] at h
      obtain ⟨rfl, rfl⟩ := Prod.mk.inj (Option.some.inj h)
      rw [runUntil, Thread.outcome_of_answer hanswer]
    | none =>
      rw [runUntil_of_none hanswer] at h
      rw [runUntil_of_none (Thread.outcome_of_answer_none hanswer)]
      exact ih h

/-- A run that comes to an expression in tail position goes on with it. -/
lemma runUntil_outcome_of_tail {e : Value ι} {env : Env ι}
    (h : runUntil Thread.answer? limits fuel thread s = some (.ok (.tail e env), s')) :
    ∃ n < fuel, ∀ m, runUntil Thread.outcome? limits (m + n) thread s =
      runUntil Thread.outcome? limits m (.start e env) s' := by
  induction fuel generalizing thread s with
  | zero => cases h
  | succ fuel ih =>
    cases hanswer : thread.answer? with
    | some r =>
      rw [runUntil, hanswer] at h
      obtain ⟨rfl, rfl⟩ := Prod.mk.inj (Option.some.inj h)
      refine ⟨0, Nat.succ_pos fuel, fun m => ?_⟩
      rw [Thread.eq_of_answer_tail hanswer, Nat.add_zero, runUntil_bounce]
    | none =>
      rw [runUntil_of_none hanswer] at h
      obtain ⟨n, hn, hrun⟩ := ih h
      refine ⟨n + 1, Nat.succ_lt_succ hn, fun m => ?_⟩
      rw [← Nat.add_assoc, runUntil_of_none (Thread.outcome_of_answer_none hanswer)]
      exact hrun m

/-- The same from the beginning, where at least one step is made. -/
lemma runUntil_start_of_tail {e e' : Value ι} {env env' : Env ι}
    (h : runUntil Thread.answer? limits fuel (.start e env) s = some (.ok (.tail e' env'), s')) :
    ∃ n < fuel, 0 < n ∧ ∀ m, runUntil Thread.outcome? limits (m + n) (.start e env) s =
      runUntil Thread.outcome? limits m (.start e' env') s' := by
  cases fuel with
  | zero => cases h
  | succ fuel =>
    rw [runUntil_of_none (by rfl)] at h
    obtain ⟨n, hn, hrun⟩ := runUntil_outcome_of_tail h
    refine ⟨n + 1, Nat.succ_lt_succ hn, Nat.succ_pos n, fun m => ?_⟩
    rw [← Nat.add_assoc, runUntil_of_none (by rfl)]
    exact hrun m

/-- A run that comes to an end gives an answer first. -/
lemma exists_answer {r : Except Fault (Value ι) × State ι}
    (h : runUntil Thread.outcome? limits fuel thread s = some r) :
    ∃ answer s₁, runUntil Thread.answer? limits fuel thread s = some (answer, s₁) := by
  induction fuel generalizing thread s with
  | zero => cases h
  | succ fuel ih =>
    cases hanswer : thread.answer? with
    | some answer => exact ⟨answer, s, by rw [runUntil, hanswer]⟩
    | none =>
      rw [runUntil_of_none (Thread.outcome_of_answer_none hanswer)] at h
      rw [runUntil_of_none hanswer]
      exact ih h

end Machine

/-- An expression that is about to be evaluated, its environment, and the state that it finds. -/
structure Outset (ι : Type) where
  expr : Value ι
  env : Env ι
  state : State ι

namespace Outset

variable {limits : Limits} {a b : Outset ι} {s' : State ι}

/-- Evaluated within the limits, the expression comes to another one in tail position. -/
def Bounces (limits : Limits) (a b : Outset ι) : Prop :=
  ∃ fuel, Evaluation.evaluateOnce fuel limits .inOrder a.expr a.env a.state =
    some (.ok (.tail b.expr b.env), .inOrder, b.state)

/-- Evaluated within the limits, the expression comes to an outcome of its own. -/
def Ends (limits : Limits) (a : Outset ι) (outcome : Except Fault (Value ι)) (s' : State ι) :
    Prop :=
  ∃ fuel, Evaluation.evaluateOnce fuel limits .inOrder a.expr a.env a.state =
    some (outcome.map .value, .inOrder, s')

lemma exists_evaluateOnce_iff {r : Except Fault (Answer ι)} :
    (∃ fuel, Evaluation.evaluateOnce fuel limits .inOrder a.expr a.env a.state =
      some (r, .inOrder, s')) ↔
    ∃ fuel, Machine.runUntil Thread.answer? limits fuel (.start a.expr a.env) a.state =
      some (r, s') := by
  refine exists_congr fun fuel => ?_
  simp only [Evaluation.evaluateOnce, Evaluation.execute]
  cases Machine.runUntil Thread.answer? limits fuel (.start a.expr a.env) a.state with
  | none => simp
  | some found =>
    obtain ⟨r', s₁⟩ := found
    simp

lemma Bounces.exists_runUntil (h : a.Bounces limits b) :
    ∃ n, 0 < n ∧ ∀ m,
      Machine.runUntil Thread.outcome? limits (m + n) (.start a.expr a.env) a.state =
        Machine.runUntil Thread.outcome? limits m (.start b.expr b.env) b.state := by
  obtain ⟨fuel, h⟩ := exists_evaluateOnce_iff.mp h
  obtain ⟨n, -, hpos, hrun⟩ := Machine.runUntil_start_of_tail h
  exact ⟨n, hpos, hrun⟩

lemma Bounces.filled (h : a.Bounces limits b) {n : Nat} {names values : Value ι}
    (filled : a.state.frames[n]? = some (.filled names values)) :
    b.state.frames[n]? = some (.filled names values) := by
  obtain ⟨fuel, h⟩ := exists_evaluateOnce_iff.mp h
  obtain ⟨thread, hreach, -⟩ := Machine.reaches_of_runUntil h
  exact Machine.filled_persists hreach filled

lemma Ends.exists_runUntil {outcome : Except Fault (Value ι)} (h : a.Ends limits outcome s') :
    ∃ fuel, Machine.runUntil Thread.outcome? limits fuel (.start a.expr a.env) a.state =
      some (outcome, s') := by
  obtain ⟨fuel, h⟩ := exists_evaluateOnce_iff.mp h
  exact ⟨fuel, Machine.runUntil_outcome_of_answer h⟩

/-- Bounces followed by an outcome make a run. -/
lemma exists_run_of_bounces {outcome : Except Fault (Value ι)}
    (bounces : ReflTransGen (Bounces limits) a b) (ends : b.Ends limits outcome s') :
    ∃ fuel, Machine.runUntil Thread.outcome? limits fuel (.start a.expr a.env) a.state =
      some (outcome, s') := by
  induction bounces using ReflTransGen.head_induction_on with
  | refl => exact ends.exists_runUntil
  | head hbounce _ ih =>
    obtain ⟨fuel, hrun⟩ := ih
    obtain ⟨n, -, hlater⟩ := hbounce.exists_runUntil
    exact ⟨fuel + n, (hlater fuel).trans hrun⟩

/-- A run that comes to an end is made of bounces and an outcome. -/
lemma exists_bounces_of_run {fuel : Nat} {outcome : Except Fault (Value ι)}
    (h : Machine.runUntil Thread.outcome? limits fuel (.start a.expr a.env) a.state =
      some (outcome, s')) :
    ∃ last, ReflTransGen (Bounces limits) a last ∧ last.Ends limits outcome s' := by
  induction fuel using Nat.strong_induction_on generalizing a with
  | _ fuel ih =>
    obtain ⟨answer, s₁, hanswer⟩ := Machine.exists_answer h
    rcases Answer.cases_of answer with ⟨found, rfl⟩ | ⟨e, env, rfl⟩
    · have hfound := Machine.runUntil_outcome_of_answer hanswer
      obtain ⟨rfl, rfl⟩ := Prod.mk.inj (Option.some.inj (hfound.symm.trans h))
      exact ⟨a, .refl, exists_evaluateOnce_iff.mpr ⟨fuel, hanswer⟩⟩
    · -- What is left of the fuel is less, because the first step is made before any bounce.
      obtain ⟨n, hn, hpos, hlater⟩ := Machine.runUntil_start_of_tail hanswer
      obtain ⟨m, rfl⟩ : ∃ m, fuel = m + n := ⟨fuel - n, by omega⟩
      rw [hlater] at h
      obtain ⟨last, hbounces, hends⟩ := ih m (by omega) (a := ⟨e, env, s₁⟩) h
      have hfirst : a.Bounces limits ⟨e, env, s₁⟩ := exists_evaluateOnce_iff.mpr ⟨_, hanswer⟩
      exact ⟨last, .head hfirst hbounces, hends⟩

/-- A sequence of bounces is as long as its members are many. -/
lemma exists_run_of_sequence {a : Nat → Outset ι} (h : ∀ n, (a n).Bounces limits (a (n + 1)))
    (count : Nat) :
    ∃ n, count ≤ n ∧ ∀ m,
      Machine.runUntil Thread.outcome? limits (m + n) (.start (a 0).expr (a 0).env) (a 0).state =
        Machine.runUntil Thread.outcome? limits m (.start (a count).expr (a count).env)
          (a count).state := by
  induction count with
  | zero => exact ⟨0, Nat.le_refl 0, fun _ => rfl⟩
  | succ count ih =>
    obtain ⟨n, hn, hrun⟩ := ih
    obtain ⟨k, hk, hnext⟩ := (h count).exists_runUntil
    refine ⟨k + n, by omega, fun m => ?_⟩
    rw [← Nat.add_assoc, hrun, hnext]

end Outset

namespace Evaluation

variable {limits : Limits} {e : Value ι} {env : Env ι} {s s' : State ι}

/-- Within some limits an expression comes to an outcome exactly if each expression in the sequence
of those in tail position comes to the next within the same limits, and the last to the outcome. -/
theorem evaluate_iff_bounces {outcome : Except Fault (Value ι)} :
    (∃ fuel, evaluate fuel limits .inOrder e env s = some (outcome, .inOrder, s')) ↔
      ∃ last, ReflTransGen (Outset.Bounces limits) ⟨e, env, s⟩ last ∧
        last.Ends limits outcome s' := by
  simp only [evaluate_inOrder_iff]
  constructor
  · rintro ⟨fuel, h⟩
    exact Outset.exists_bounces_of_run (a := ⟨e, env, s⟩) h
  · rintro ⟨last, hbounces, hends⟩
    exact Outset.exists_run_of_bounces hbounces hends

/-- A sequence of bounces without an end comes to no outcome, so that no limit stops it either. -/
theorem evaluate_of_endless {a : Nat → Outset ι} (h : ∀ n, (a n).Bounces limits (a (n + 1)))
    (fuel : Nat) : evaluate fuel limits .inOrder (a 0).expr (a 0).env (a 0).state = none := by
  have hrun : Machine.runUntil Thread.outcome? limits fuel (.start (a 0).expr (a 0).env)
      (a 0).state = none := by
    rw [Option.eq_none_iff_forall_ne_some]
    intro r hr
    obtain ⟨n, hn, hlater⟩ := Outset.exists_run_of_sequence h fuel
    obtain ⟨more, rfl⟩ := Nat.exists_eq_add_of_le hn
    have hnone := hlater 0
    rw [Nat.zero_add, Machine.runUntil_mono more hr] at hnone
    cases hnone
  rw [evaluate, execute, hrun]

end Evaluation

lemma Evaluates.of_ends {limits : Limits} {e : Value ι} {env : Env ι} {s s' : State ι}
    {outcome : Except Fault (Value ι)} (room : Machine.hasRoom limits ([] : List (Cont ι)))
    (h : Outset.Ends (limits.under 1) ⟨e, env, s⟩ outcome s') :
    Evaluates limits e env s outcome s' := by
  rw [Evaluates, if_pos room]
  exact Evaluation.evaluate_iff_bounces.mpr ⟨_, .refl, h⟩

/-- A run goes on with what operands are for when they have values, one after the other. -/
theorem Machine.exists_runUntil_finish {α : Type} {done? : Thread ι → Option (Except Fault α)}
    (watches : Watches done?) {limits : Limits} {env : Env ι} {rest : Value ι} {s s₁ s₂ : State ι}
    {values before : List (Value ι)} {operands : Value ι} {purpose : Purpose} {fuel : Nat}
    {r : Except Fault α × State ι}
    (h : InTurn limits env rest.elements s (values.map .ok) s₁) (proper : rest.ending = .nil)
    (chained : State.chain (values.reverse ++ before) .nil s₁ = (operands, s₂))
    (hfinish : runUntil done? limits fuel (finish limits purpose operands [] s₂).1
      (finish limits purpose operands [] s₂).2 = some r) :
    ∃ fuel', runUntil done? limits fuel' (nextOperand limits before rest env purpose [] s).1
      (nextOperand limits before rest env purpose [] s).2 = some r := by
  generalize hexprs : rest.elements = exprs at h
  induction values generalizing rest exprs s before with
  | nil =>
    cases h with
    | nil s =>
      rw [List.reverse_nil, List.nil_append] at chained
      refine ⟨fuel, ?_⟩
      rw [nextOperand_of_ending limits before hexprs, proper, if_pos (by rfl), chained]
      exact hfinish
  | cons v values ih =>
    cases h with
    | ok evaluates others =>
      obtain ⟨mark, others', rfl, hrest⟩ := Value.pair_of_elements hexprs
      have hproper : others'.ending = .nil := proper
      rw [List.reverse_cons, List.append_assoc] at chained
      obtain ⟨fuel', hnext⟩ := ih hproper chained _ hrest others
      exact exists_runUntil_await watches rfl evaluates hnext

namespace Outset

variable {limits : Limits} {e : Value ι} {env : Env ι} {s s₁ : State ι}

/-- A run up to the first answer begins with what the expression asks for. -/
lemma exists_evaluateOnce_of_demand {demand : Demand ι}
    (h : Demand.ofExpr limits (s.lookup limits env) e = demand) {r : Except Fault (Answer ι)}
    {s' : State ι}
    (hrun : ∃ fuel, Machine.runUntil Thread.answer? limits fuel
      (Machine.pursue limits .inOrder env [] s demand).1
      (Machine.pursue limits .inOrder env [] s demand).2 = some (r, s')) :
    ∃ fuel, Evaluation.evaluateOnce fuel limits .inOrder e env s = some (r, .inOrder, s') := by
  obtain ⟨fuel, hrun⟩ := hrun
  refine (exists_evaluateOnce_iff (a := ⟨e, env, s⟩)).mpr ⟨fuel + 1, ?_⟩
  rw [Machine.runUntil_of_none (by rfl)]
  rw [← h, ← Machine.evaluate_eq_pursue] at hrun
  exact hrun

lemma ends_of_done {outcome : Except Fault (Value ι)}
    (h : Demand.ofExpr limits (s.lookup limits env) e = .done outcome) :
    Ends limits ⟨e, env, s⟩ outcome s := by
  refine exists_evaluateOnce_of_demand h ⟨1, ?_⟩
  cases outcome <;> rfl

lemma ends_of_closure {tail formals body : Value ι}
    (h : Demand.ofExpr limits (s.lookup limits env) e = .closure tail formals body) :
    Ends limits ⟨e, env, s⟩ (.ok (s.close tail formals body env).1)
      (s.close tail formals body env).2 :=
  exists_evaluateOnce_of_demand h ⟨1, rfl⟩

lemma bounces_of_branch {condition consequent alternative v : Value ι}
    (h : Demand.ofExpr limits (s.lookup limits env) e = .branch condition consequent alternative)
    (decided : Evaluates limits condition env s (.ok v) s₁) :
    Bounces limits ⟨e, env, s⟩ ⟨if v.isNil then alternative else consequent, env, s₁⟩ := by
  have hresume : Machine.runUntil Thread.answer? limits 1
      (Machine.resume limits (.branch consequent alternative env) v [] s₁).1
      (Machine.resume limits (.branch consequent alternative env) v [] s₁).2 =
      some (.ok (.tail (if v.isNil then alternative else consequent) env), s₁) := rfl
  exact exists_evaluateOnce_of_demand h
    (Machine.exists_runUntil_await Machine.watches_answer rfl decided hresume)

lemma bounces_of_letrec {bindings body : Value ι} {clauses : List (Clause ι)}
    (h : Demand.ofExpr limits (s.lookup limits env) e = .letrec bindings body)
    (listed : bindings.ending = .nil)
    (bound : BoundInTurn limits (⟨s.mark, s.frames.size⟩ :: env) bindings.elements
      (s.suspend bindings body env).2 clauses s₁) :
    ∃ s', Bounces limits ⟨e, env, s⟩ ⟨body, ⟨s.mark, s.frames.size⟩ :: env, s'⟩ ∧
      Machine.Installs limits (s.suspend bindings body env).1 (s.suspend bindings body env).2
        clauses s₁ s' := by
  obtain ⟨fuel, s', hrun, installs⟩ := Machine.exists_run_installing
    (b := (s.suspend bindings body env).1) listed Array.getElem?_push_size bound
  exact ⟨s', exists_evaluateOnce_of_demand h ⟨fuel, hrun⟩, installs⟩

/-- A call answers as soon as its operands have values. -/
lemma exists_evaluateOnce_of_call {exprs call : Value ι} {values : List (Value ι)}
    {s₂ s' : State ι} {thread : Thread ι} {r : Except Fault (Answer ι)}
    (h : Demand.ofExpr limits (s.lookup limits env) e = .operands exprs .call)
    (inTurn : InTurn limits env exprs.elements s (values.map .ok) s₁)
    (proper : exprs.ending = .nil) (chained : State.chain values.reverse .nil s₁ = (call, s₂))
    (applied : Machine.apply limits call [] s₂ = (thread, s')) (answer : thread.answer? = some r) :
    ∃ fuel, Evaluation.evaluateOnce fuel limits .inOrder e env s = some (r, .inOrder, s') := by
  have hrun : Machine.runUntil Thread.answer? limits 1 (Machine.apply limits call [] s₂).1
      (Machine.apply limits call [] s₂).2 = some (r, s') := by
    rw [applied, Machine.runUntil, answer]
  rw [← List.append_nil values.reverse] at chained
  exact exists_evaluateOnce_of_demand h
    (Machine.exists_runUntil_finish Machine.watches_answer inTurn proper chained hrun)

end Outset

end Evlis
