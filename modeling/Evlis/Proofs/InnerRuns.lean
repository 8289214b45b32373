import Evlis.Proofs.FrameDiscipline

/-!
# Runs above a stack

An evaluation that others wait for makes the steps that it would make on its own, with so much less
room as there are evaluations waiting. `Machine.step_above` says so for one step, and the lemmas on
`Machine.runUntil` for a run up to the moment when those below take over.
-/

namespace Evlis

/-- What the limits leave to an evaluation that `n` others wait for. -/
def Limits.under (n : Nat) (limits : Limits) : Limits :=
  { limits with depth := limits.depth.map (· - n) }

variable {ι : Type}

section Under

variable (n : Nat) (limits : Limits)

namespace Value

@[simp]
lemma print_under (v : Value ι) : v.print (limits.under n) = v.print limits := rfl

@[simp]
lemma display_under (v : Value ι) : v.display (limits.under n) = v.display limits := by
  cases v <;> rfl

@[simp]
lemma represent_under (v : Value ι) : v.represent (limits.under n) = v.represent limits := by
  cases v <;> rfl

@[simp]
lemma blame_under (v : Value ι) (fault : String → Fault) :
    v.blame (limits.under n) fault = v.blame limits fault := by
  rw [blame, blame, display_under]

@[simp]
lemma toList_under (v : Value ι) : v.toList (limits.under n) = v.toList limits := by
  rw [toList, toList, blame_under]

end Value

namespace Primitive

@[simp]
lemma operand_under (operation : String) (v : Value ι) :
    operand (limits.under n) operation v = operand limits operation v := by
  cases v <;> simp [operand]

@[simp]
lemma operands_under (operation : String) (v w : Value ι) :
    operands (limits.under n) operation v w = operands limits operation v w := by
  simp [operands]

@[simp]
lemma equals_under (v w : Value ι) : equals (limits.under n) v w = equals limits v w := by
  simp only [equals, Value.display_under]

@[simp]
lemma performUnary_under (operation : Unary) (v : Value ι) (s : State ι) :
    performUnary (limits.under n) operation v s = performUnary limits operation v s := by
  simp only [performUnary, Value.blame_under, Value.print_under]

@[simp]
lemma performBinary_under [Marking ι] (operation : Binary) (v w : Value ι) (s : State ι) :
    performBinary (limits.under n) operation v w s = performBinary limits operation v w s := by
  simp only [performBinary, calculate, compare, equals_under, operands_under]

@[simp]
lemma apply_under [Marking ι] (name : String) (arguments : Value ι) (s : State ι) :
    apply (limits.under n) name arguments s = apply limits name arguments s := by
  simp only [apply, Value.toList_under, performUnary_under, performBinary_under]

end Primitive

@[simp]
lemma State.lookup_under [DecidableEq ι] (s : State ι) (env : Env ι) (name : Value ι) :
    s.lookup (limits.under n) env name = s.lookup limits env name := by
  simp only [State.lookup, Value.blame_under]

@[simp]
lemma Demand.ofExpr_under (lookup : Value ι → Except Fault (Value ι)) (e : Value ι) :
    Demand.ofExpr (limits.under n) lookup e = Demand.ofExpr limits lookup e := by
  simp only [Demand.ofExpr, Demand.ofForm, Demand.ofLambda, Value.toList_under,
    Value.blame_under, Value.represent_under]

@[simp]
lemma Binding.next_under (b : Binding ι) : b.next (limits.under n) = b.next limits := by
  simp only [Binding.next, Machine.bindingParts, Value.toList_under, Value.blame_under]

@[simp]
lemma Machine.extendEnv_under [Marking ι] (closure formals arguments : Value ι) (env : Env ι)
    (s : State ι) :
    extendEnv (limits.under n) closure formals arguments env s =
      extendEnv limits closure formals arguments env s := by
  simp only [extendEnv, Value.blame_under]

end Under

namespace Machine

/-- A thread and a state with the evaluations in `base` waiting below those on the stack. -/
def above (base : List (Cont ι)) (c : Thread ι × State ι) : Thread ι × State ι :=
  (⟨c.1.control, c.1.stack ++ base⟩, c.2)

@[simp]
lemma calls_nil : calls ([] : List (Cont ι)) = 0 := rfl

@[simp]
lemma calls_append (stack base : List (Cont ι)) :
    calls (stack ++ base) = calls stack + calls base := by
  have hstart (stack : List (Cont ι)) (n : Nat) :
      stack.foldl (fun n cont => n + cont.calls) n = n + calls stack := by
    induction stack generalizing n with
    | nil => rfl
    | cons cont stack ih =>
      rw [calls, List.foldl_cons, List.foldl_cons, ih, ih]
      omega
  exact List.foldl_append.trans (hstart base (calls stack))

@[simp]
lemma calls_cons (cont : Cont ι) (stack : List (Cont ι)) :
    calls (cont :: stack) = cont.calls + calls stack := by
  rw [← List.singleton_append, calls_append]
  exact congrArg (· + calls stack) (Nat.zero_add cont.calls)

/-- Whether all evaluations that wait do so in order. -/
def InOrder (stack : List (Cont ι)) : Prop := ∀ cont ∈ stack, cont.calls = 4

lemma InOrder.calls_eq {stack : List (Cont ι)} (h : InOrder stack) :
    calls stack = 4 * stack.length := by
  induction stack with
  | nil => rfl
  | cons cont stack ih =>
    obtain ⟨hcont, hstack⟩ := List.forall_mem_cons.mp h
    rw [calls_cons, hcont, ih hstack, List.length_cons]
    omega

/-- Above `base`, the limits leave what they leave above as many evaluations in order. -/
def Underlies (limits : Limits) (base : List (Cont ι)) : Prop :=
  ∀ (cont : Cont ι) (stack : List (Cont ι)), allows limits cont.calls (stack ++ base) =
    allows (limits.under base.length) cont.calls stack

lemma underlies_none (base : List (Cont ι)) : Underlies .none base := fun _ _ => rfl

lemma InOrder.underlies {base : List (Cont ι)} (h : InOrder base) (limits : Limits) :
    Underlies limits base := by
  intro cont stack
  obtain ⟨depth, nesting⟩ := limits
  cases depth with
  | none => rfl
  | some d =>
    have hcont : 3 ≤ cont.calls := by cases cont <;> simp [Cont.calls]
    simp only [allows, Limits.under, Option.map_some, calls_append, h.calls_eq]
    congr 1
    rw [eq_iff_iff]
    omega

lemma underlies_singleton {cont : Cont ι} (hcont : cont.calls = 4) (limits : Limits) :
    Underlies limits [cont] :=
  InOrder.underlies (List.forall_mem_singleton.mpr hcont) limits

/-- On an empty stack there is room for an evaluation in order if there is room for any. -/
lemma allows_nil {cont : Cont ι} (hcont : cont.calls = 4) (limits : Limits) :
    allows limits cont.calls ([] : List (Cont ι)) = hasRoom limits ([] : List (Cont ι)) := by
  obtain ⟨depth, nesting⟩ := limits
  cases depth with
  | none => rfl
  | some d =>
    simp only [hasRoom, allows, hcont, calls_nil]
    congr 1
    rw [eq_iff_iff]
    omega

lemma await_nil {limits : Limits} {cont : Cont ι} (hcont : cont.calls = 4) (e : Value ι)
    (env : Env ι) (s : State ι) (room : hasRoom limits ([] : List (Cont ι))) :
    await limits cont e env [] s = (⟨.enter e env, [cont]⟩, s) :=
  if_pos ((allows_nil hcont limits).trans room)

lemma await_nil_of_full {limits : Limits} {cont : Cont ι} (hcont : cont.calls = 4) (e : Value ι)
    (env : Env ι) (s : State ι) (full : ¬ hasRoom limits ([] : List (Cont ι))) :
    await limits cont e env [] s = (⟨.fail .tooDeep, []⟩, s) :=
  if_neg fun h => full ((allows_nil hcont limits).symm.trans h)

section Above

variable {limits : Limits} {base : List (Cont ι)} (h : Underlies limits base)
  (stack : List (Cont ι)) (s : State ι)

include h

lemma await_above (cont : Cont ι) (e : Value ι) (env : Env ι) :
    await limits cont e env (stack ++ base) s =
      above base (await (limits.under base.length) cont e env stack s) := by
  unfold await
  rw [h cont stack]
  split <;> rfl

lemma nextBinding_above (b : Binding ι) :
    nextBinding limits b (stack ++ base) s =
      above base (nextBinding (limits.under base.length) b stack s) := by
  rw [nextBinding_eq, nextBinding_eq, Binding.next_under]
  split
  · rfl
  · exact await_above h stack s _ _ _
  · split <;> rfl

variable [Marking ι]

omit h in
lemma apply_above (call : Value ι) :
    apply limits call (stack ++ base) s =
      above base (apply (limits.under base.length) call stack s) := by
  unfold apply
  split
  · simp only [Primitive.apply_under]
    split <;> rfl
  · simp only [extendEnv_under]
    split <;> rfl
  · simp only [Value.blame_under]
    rfl
  · simp only [Value.blame_under]
    rfl

omit h in
lemma finish_above (purpose : Purpose) (operands : Value ι) :
    finish limits purpose operands (stack ++ base) s =
      above base (finish (limits.under base.length) purpose operands stack s) := by
  cases purpose with
  | collect => rfl
  | call => exact apply_above stack s operands

lemma nextOperand_above (values : List (Value ι)) (rest : Value ι) (env : Env ι)
    (purpose : Purpose) :
    nextOperand limits values rest env purpose (stack ++ base) s =
      above base (nextOperand (limits.under base.length) values rest env purpose stack s) := by
  unfold nextOperand
  split
  · exact await_above h stack s _ _ _
  · rw [Value.blame_under]
    split
    · exact finish_above stack _ purpose _
    · rfl

lemma operands_above (mode : Mode) (exprs : Value ι) (env : Env ι) (purpose : Purpose) :
    operands limits mode exprs env purpose (stack ++ base) s =
      above base (operands (limits.under base.length) mode exprs env purpose stack s) := by
  unfold operands
  split
  · exact await_above h stack s _ _ _
  · exact nextOperand_above h stack s _ _ env purpose

lemma evaluate_above [DecidableEq ι] (mode : Mode) (e : Value ι) (env : Env ι) :
    evaluate limits mode e env (stack ++ base) s =
      above base (evaluate (limits.under base.length) mode e env stack s) := by
  have hlookup : s.lookup (limits.under base.length) env = s.lookup limits env :=
    funext (State.lookup_under _ _ s env)
  rw [evaluate_eq_pursue, evaluate_eq_pursue, hlookup, Demand.ofExpr_under]
  cases Demand.ofExpr limits (s.lookup limits env) e with
  | done outcome => cases outcome <;> rfl
  | closure tail formals body => rfl
  | operands exprs purpose => exact operands_above h stack s mode exprs env purpose
  | branch condition consequent alternative => exact await_above h stack s _ _ _
  | second first last => exact await_above h stack s _ _ _
  | letrec bindings body => exact nextBinding_above h stack _ _

lemma resume_above (cont : Cont ι) (v : Value ι) :
    resume limits cont v (stack ++ base) s =
      above base (resume (limits.under base.length) cont v stack s) := by
  cases cont with
  | operand values rest env purpose => exact nextOperand_above h stack s _ rest env purpose
  | branch consequent alternative env => rfl
  | second e env => rfl
  | bind name b => exact nextBinding_above h stack _ _
  | share rest env purpose =>
    simp only [resume, Value.toList_under]
    split <;> rfl
  | inline sharing => rfl

/-- A step of a thread that has not yet given its value to those below. -/
theorem step_above [DecidableEq ι] (mode : Mode) {thread : Thread ι}
    (unfinished : thread.outcome? = none) :
    step limits mode (above base (thread, s)).1 s =
      above base (step (limits.under base.length) mode thread s) := by
  obtain ⟨control, stack⟩ := thread
  cases control with
  | enter e env => exact evaluate_above h stack s mode e env
  | bounce e env => exact evaluate_above h stack s mode e env
  | give v =>
    cases stack with
    | nil => cases unfinished
    | cons cont stack => exact resume_above h stack s cont v
  | _ => rfl

end Above

/-- A thread that has left the stack as it is, or is about to evaluate an expression for which one
evaluation more waits. -/
inductive Grows (limits : Limits) (mode : Mode) (stack : List (Cont ι)) : Thread ι → Prop where
  | same {control : Control ι} (goes : ∀ e env, control ≠ .enter e env) :
      Grows limits mode stack ⟨control, stack⟩
  | more {cont : Cont ι} {e : Value ι} {env : Env ι} (room : allows limits cont.calls stack)
      (inOrder : mode = .inOrder → cont.calls = 4) :
      Grows limits mode stack ⟨.enter e env, cont :: stack⟩

/-- Whoever is about to evaluate an expression that is not in tail position is waited for. -/
def IsAwaited (thread : Thread ι) : Prop :=
  ∀ e env, thread.control = .enter e env → thread.stack ≠ []

section Grows

variable (limits : Limits) (mode : Mode) (stack : List (Cont ι)) (s : State ι)

lemma grows_await {cont : Cont ι} (hcont : mode = .inOrder → cont.calls = 4) (e : Value ι)
    (env : Env ι) : Grows limits mode stack (await limits cont e env stack s).1 := by
  unfold await
  split
  · rename_i room
    exact .more room hcont
  · exact .same nofun

lemma grows_nextBinding (b : Binding ι) :
    Grows limits mode stack (nextBinding limits b stack s).1 := by
  rw [nextBinding_eq]
  split
  · exact .same nofun
  · exact grows_await limits mode stack s (fun _ => rfl) _ _
  · split <;> exact .same nofun

variable [Marking ι]

lemma grows_finish (purpose : Purpose) (operands : Value ι) :
    Grows limits mode stack (finish limits purpose operands stack s).1 := by
  cases purpose with
  | collect => exact .same nofun
  | call =>
    simp only [finish, apply]
    split
    · split <;> exact .same nofun
    · split <;> exact .same nofun
    · exact .same nofun
    · exact .same nofun

lemma grows_nextOperand (values : List (Value ι)) (rest : Value ι) (env : Env ι)
    (purpose : Purpose) :
    Grows limits mode stack (nextOperand limits values rest env purpose stack s).1 := by
  unfold nextOperand
  split
  · exact grows_await limits mode stack s (fun _ => rfl) _ _
  · split
    · exact grows_finish limits mode stack _ purpose _
    · exact .same nofun

lemma grows_operands (exprs : Value ι) (env : Env ι) (purpose : Purpose) :
    Grows limits mode stack (operands limits mode exprs env purpose stack s).1 := by
  unfold operands
  split
  · exact grows_await limits .shared stack s nofun _ _
  · exact grows_nextOperand limits mode stack s _ _ env purpose

lemma grows_evaluate [DecidableEq ι] (e : Value ι) (env : Env ι) :
    Grows limits mode stack (evaluate limits mode e env stack s).1 := by
  rw [evaluate_eq_pursue]
  cases Demand.ofExpr limits (s.lookup limits env) e with
  | done outcome => cases outcome <;> exact .same nofun
  | closure tail formals body => exact .same nofun
  | operands exprs purpose => exact grows_operands limits mode stack s exprs env purpose
  | branch condition consequent alternative =>
    exact grows_await limits mode stack s (fun _ => rfl) _ _
  | second first last => exact grows_await limits mode stack s (fun _ => rfl) _ _
  | letrec bindings body => exact grows_nextBinding limits mode stack _ _

lemma grows_resume (cont : Cont ι) (v : Value ι) :
    Grows limits mode stack (resume limits cont v stack s).1 := by
  cases cont with
  | operand values rest env purpose =>
    exact grows_nextOperand limits mode stack s _ rest env purpose
  | branch consequent alternative env => exact .same nofun
  | second e env => exact .same nofun
  | bind name b => exact grows_nextBinding limits mode stack _ _
  | share rest env purpose =>
    simp only [resume]
    split <;> exact .same nofun
  | inline sharing => exact .same nofun

end Grows

section Awaited

variable {limits : Limits} {mode : Mode} {thread : Thread ι}

lemma Grows.isAwaited {stack : List (Cont ι)} (grows : Grows limits mode stack thread) :
    IsAwaited thread := by
  cases grows with
  | same goes => exact fun e env h => absurd h (goes e env)
  | more => exact fun _ _ _ => List.cons_ne_nil _ _

/-- What grows above other evaluations leaves them alone. -/
lemma Grows.exists_above {stack base : List (Cont ι)}
    (grows : Grows limits mode (stack ++ base) thread) :
    ∃ inner, IsAwaited inner ∧ thread = ⟨inner.control, inner.stack ++ base⟩ := by
  cases grows with
  | @same control goes => exact ⟨⟨control, stack⟩, fun e env h => absurd h (goes e env), rfl⟩
  | @more cont e env =>
    exact ⟨⟨.enter e env, cont :: stack⟩, fun _ _ _ => List.cons_ne_nil _ _, rfl⟩

variable [DecidableEq ι] [Marking ι]

lemma isAwaited_step (limits : Limits) (s : State ι) (mode : Mode) (thread : Thread ι) :
    IsAwaited (step limits mode thread s).1 := by
  obtain ⟨control, stack⟩ := thread
  cases control with
  | enter e env => exact (grows_evaluate limits mode stack s e env).isAwaited
  | bounce e env => exact (grows_evaluate limits mode stack s e env).isAwaited
  | give v =>
    cases stack with
    | nil => exact nofun
    | cons cont stack => exact (grows_resume limits mode stack s cont v).isAwaited
  | _ => exact nofun

lemma exists_above_step (limits : Limits) (s : State ι) (mode : Mode) {thread : Thread ι}
    (unfinished : thread.outcome? = none) (base : List (Cont ι)) :
    ∃ inner, IsAwaited inner ∧ (step limits mode ⟨thread.control, thread.stack ++ base⟩ s).1 =
      ⟨inner.control, inner.stack ++ base⟩ := by
  obtain ⟨control, stack⟩ := thread
  cases control with
  | enter e env => exact (grows_evaluate limits mode _ s e env).exists_above
  | bounce e env => exact (grows_evaluate limits mode _ s e env).exists_above
  | give v =>
    cases stack with
    | nil => cases unfinished
    | cons cont stack => exact (grows_resume limits mode _ s cont v).exists_above
  | fail fault => cases unfinished
  | fork sharing => exact ⟨⟨.fork sharing, stack⟩, nofun, rfl⟩
  | submit e sharing => exact ⟨⟨.submit e sharing, stack⟩, nofun, rfl⟩
  | join head values underway purpose =>
    exact ⟨⟨.join head values underway purpose, stack⟩, nofun, rfl⟩

end Awaited

/-! ## A run up to the moment when those below take over -/

/-- Ways to watch a thread that find something only if it fails or if none waits for it. -/
structure Watches {α : Type} (done? : Thread ι → Option (Except Fault α)) : Prop where
  fails : ∀ fault stack, done? ⟨.fail fault, stack⟩ = some (.error fault)
  waits : ∀ control cont stack, (∀ fault, control ≠ .fail fault) →
    done? ⟨control, cont :: stack⟩ = none

lemma watches_outcome : Watches (ι := ι) Thread.outcome? := by
  refine ⟨fun _ _ => rfl, ?_⟩
  intro control cont stack goes
  cases control with
  | fail fault => exact absurd rfl (goes fault)
  | _ => rfl

lemma watches_answer : Watches (ι := ι) Thread.answer? := by
  refine ⟨fun _ _ => rfl, ?_⟩
  intro control cont stack goes
  cases control with
  | fail fault => exact absurd rfl (goes fault)
  | _ => rfl

lemma Watches.enter {α : Type} {done? : Thread ι → Option (Except Fault α)}
    (watches : Watches done?) (e : Value ι) (env : Env ι) (cont : Cont ι) :
    done? ⟨.enter e env, [cont]⟩ = none :=
  watches.waits (.enter e env) cont [] (fun _ h => by cases h)

lemma Watches.give {α : Type} {done? : Thread ι → Option (Except Fault α)}
    (watches : Watches done?) (v : Value ι) (cont : Cont ι) : done? ⟨.give v, [cont]⟩ = none :=
  watches.waits (.give v) cont [] (fun _ h => by cases h)

lemma Watches.above {α : Type} {done? : Thread ι → Option (Except Fault α)}
    (watches : Watches done?) {thread : Thread ι} (goes : ∀ fault, thread.control ≠ .fail fault)
    (cont : Cont ι) (s : State ι) : done? (above [cont] (thread, s)).1 = none := by
  obtain ⟨control, stack⟩ := thread
  cases stack with
  | nil => exact watches.waits control cont [] goes
  | cons cont' stack => exact watches.waits control cont' (stack ++ [cont]) goes

lemma goes_of_outcome {thread : Thread ι} (h : thread.outcome? = none) (fault : Fault) :
    thread.control ≠ .fail fault := by
  obtain ⟨control, stack⟩ := thread
  rintro rfl
  cases h

section Runs

variable [DecidableEq ι] [Marking ι] {α : Type} {done? : Thread ι → Option (Except Fault α)}
  {limits : Limits} {cont : Cont ι} {fuel : Nat} {thread : Thread ι} {s s' : State ι}

lemma runUntil_of_none (h : done? thread = none) (fuel : Nat) (s : State ι) :
    runUntil done? limits (fuel + 1) thread s =
      runUntil done? limits fuel (step limits .inOrder thread s).1
        (step limits .inOrder thread s).2 := by
  rw [runUntil, h]

lemma runUntil_fail (watches : Watches done?) (fuel : Nat) (fault : Fault)
    (stack : List (Cont ι)) (s : State ι) :
    runUntil done? limits (fuel + 1) ⟨.fail fault, stack⟩ s = some (.error fault, s) := by
  rw [runUntil, watches.fails]

/-- If a run with one evaluation waiting below comes to an end, then so does the run on its own. -/
lemma exists_inner_run (watches : Watches done?) (hcont : cont.calls = 4) (thread : Thread ι)
    {r : Except Fault α × State ι}
    (h : runUntil done? limits fuel (above [cont] (thread, s)).1 s = some r) :
    ∃ outcome s₁, runUntil Thread.outcome? (limits.under 1) fuel thread s = some (outcome, s₁) := by
  induction fuel generalizing thread s with
  | zero => cases h
  | succ fuel ih =>
    cases houtcome : thread.outcome? with
    | some outcome => exact ⟨outcome, s, by rw [runUntil, houtcome]⟩
    | none =>
      rw [runUntil_of_none (watches.above (goes_of_outcome houtcome) cont s),
        step_above (underlies_singleton hcont limits) s .inOrder houtcome] at h
      rw [runUntil_of_none houtcome]
      exact ih _ h

/-- A run with one evaluation waiting below comes to where the run on its own ends, and starts no
operands for those below on the way. -/
lemma run_above (watches : Watches done?) (hcont : cont.calls = 4) (awaited : IsAwaited thread)
    {outcome : Except Fault (Value ι)}
    (h : runUntil Thread.outcome? (limits.under 1) fuel thread s = some (outcome, s')) :
    ∃ n thread', n < fuel ∧ thread'.outcome? = some outcome ∧ ∀ m,
      runUntil done? limits (m + n) (above [cont] (thread, s)).1 s =
        runUntil done? limits m (above [cont] (thread', s')).1 s' ∧
      ∀ seen, Evaluation.startedInOrder limits (m + n) seen (above [cont] (thread, s)).1 s =
        Evaluation.startedInOrder limits m seen (above [cont] (thread', s')).1 s' := by
  induction fuel generalizing thread s with
  | zero => cases h
  | succ fuel ih =>
    cases houtcome : thread.outcome? with
    | some found =>
      rw [runUntil, houtcome] at h
      cases h
      exact ⟨0, thread, Nat.succ_pos _, houtcome, fun _ => ⟨rfl, fun _ => rfl⟩⟩
    | none =>
      have goes := goes_of_outcome houtcome
      have hstarting : (above [cont] (thread, s)).1.starting? = none := by
        obtain ⟨control, stack⟩ := thread
        cases control with
        | enter e env =>
          cases stack with
          | nil => exact absurd rfl (awaited e env rfl)
          | cons cont' stack => cases stack <;> rfl
        | _ => rfl
      have hstep := step_above (underlies_singleton hcont limits) s .inOrder houtcome
      rw [runUntil_of_none houtcome] at h
      obtain ⟨n, thread', hn, hended, hrun⟩ := ih (isAwaited_step _ _ _ _) h
      refine ⟨n + 1, thread', Nat.succ_lt_succ hn, hended, fun m => ⟨?_, fun seen => ?_⟩⟩
      · rw [← Nat.add_assoc, runUntil_of_none (watches.above goes cont s), hstep]
        exact (hrun m).1
      · rw [← Nat.add_assoc, Evaluation.startedInOrder, hstarting,
          watches_outcome.above goes cont s]
        dsimp only
        rw [hstep]
        exact (hrun m).2 seen

/-- The same from the beginning, when the expression itself is an operand that is started. -/
lemma run_enter (watches : Watches done?) (hcont : cont.calls = 4) {e : Value ι} {env : Env ι}
    {outcome : Except Fault (Value ι)}
    (h : runUntil Thread.outcome? (limits.under 1) fuel (.start e env) s = some (outcome, s')) :
    ∃ n thread', n < fuel ∧ thread'.outcome? = some outcome ∧ ∀ m,
      runUntil done? limits (m + n) ⟨.enter e env, [cont]⟩ s =
        runUntil done? limits m (above [cont] (thread', s')).1 s' ∧
      ∀ seen, Evaluation.startedInOrder limits (m + n) seen ⟨.enter e env, [cont]⟩ s =
        Evaluation.startedInOrder limits m (e :: seen) (above [cont] (thread', s')).1 s' := by
  cases fuel with
  | zero => cases h
  | succ fuel =>
    have unfinished : (Thread.start e env).outcome? = none := rfl
    have hstep := step_above (underlies_singleton hcont limits) s .inOrder unfinished
    rw [runUntil_of_none unfinished] at h
    obtain ⟨n, thread', hn, hended, hrun⟩ := run_above watches hcont
      (isAwaited_step _ _ _ _) h
    refine ⟨n + 1, thread', Nat.succ_lt_succ hn, hended, fun m => ⟨?_, fun seen => ?_⟩⟩
    · rw [← Nat.add_assoc, runUntil_of_none (watches.enter e env cont)]
      exact (congrArg (fun c => runUntil done? limits (m + n) c.1 c.2) hstep).trans (hrun m).1
    · exact (congrArg (fun c => Evaluation.startedInOrder limits (m + n) (e :: seen) c.1 c.2)
        hstep).trans ((hrun m).2 (e :: seen))

end Runs

end Machine

lemma Value.pair_of_elements {v w : Value ι} {ws : List (Value ι)} (h : v.elements = w :: ws) :
    ∃ mark rest, v = .pair mark w rest ∧ rest.elements = ws := by
  cases v with
  | pair mark car cdr =>
    rw [elements_pair] at h
    obtain ⟨rfl, hcdr⟩ := List.cons.inj h
    exact ⟨mark, cdr, rfl, hcdr⟩
  | _ => cases h

variable [DecidableEq ι] [Marking ι]

lemma Evaluation.evaluate_inOrder_iff {fuel : Nat} {limits : Limits} {e : Value ι} {env : Env ι}
    {s s' : State ι} {outcome : Except Fault (Value ι)} :
    evaluate fuel limits .inOrder e env s = some (outcome, .inOrder, s') ↔
      Machine.runUntil Thread.outcome? limits fuel (.start e env) s = some (outcome, s') := by
  simp only [evaluate, execute]
  cases Machine.runUntil Thread.outcome? limits fuel (.start e env) s with
  | none => simp
  | some r =>
    rcases r with ⟨found, s₁⟩
    simp

/-- The outcome of an expression that one evaluation waits for, and the state it leaves behind. It
fails at once if the limits leave no room for waiting. -/
def Evaluates (limits : Limits) (e : Value ι) (env : Env ι) (s : State ι)
    (outcome : Except Fault (Value ι)) (s' : State ι) : Prop :=
  if Machine.hasRoom limits ([] : List (Cont ι)) then
    ∃ fuel, Evaluation.evaluate fuel (limits.under 1) .inOrder e env s =
      some (outcome, .inOrder, s')
  else outcome = .error .tooDeep ∧ s' = s

namespace Machine

variable {α : Type} {done? : Thread ι → Option (Except Fault α)} {limits : Limits} {cont : Cont ι}
  {e : Value ι} {env : Env ι} {s s' : State ι} {fuel : Nat}

/-- What has become of the expression that a run began by waiting for. -/
theorem runUntil_await (watches : Watches done?) (hcont : cont.calls = 4) {r : Except Fault α}
    (h : runUntil done? limits fuel (await limits cont e env [] s).1
      (await limits cont e env [] s).2 = some (r, s')) :
    (∃ v s₁ fuel', Evaluates limits e env s (.ok v) s₁ ∧
      runUntil done? limits fuel' (resume limits cont v [] s₁).1
        (resume limits cont v [] s₁).2 = some (r, s') ∧
      ∀ seen, Evaluation.startedInOrder limits fuel seen (await limits cont e env [] s).1
          (await limits cont e env [] s).2 =
        Evaluation.startedInOrder limits fuel' (e :: seen) (resume limits cont v [] s₁).1
          (resume limits cont v [] s₁).2) ∨
    ∃ fault, Evaluates limits e env s (.error fault) s' ∧ r = .error fault ∧
      (hasRoom limits ([] : List (Cont ι)) → ∀ seen,
        Evaluation.startedInOrder limits fuel seen (await limits cont e env [] s).1
          (await limits cont e env [] s).2 = e :: seen) := by
  unfold Evaluates
  by_cases room : hasRoom limits ([] : List (Cont ι))
  · have hawait := await_nil hcont e env s room
    simp only [room, if_true, Evaluation.evaluate_inOrder_iff, forall_const]
    rw [hawait] at h ⊢
    dsimp only at h ⊢
    obtain ⟨outcome, s₁, hinner⟩ := exists_inner_run watches hcont (.start e env) h
    obtain ⟨n, thread, hn, hended, hrun⟩ := run_enter watches hcont hinner
    obtain ⟨m, rfl⟩ : ∃ m, fuel = m + 1 + n := ⟨fuel - (n + 1), by omega⟩
    rw [(hrun (m + 1)).1] at h
    have hstarted := (hrun (m + 1)).2
    cases outcome with
    | ok v =>
      rw [Thread.of_outcome_ok hended] at h hstarted
      have h := (runUntil_of_none (watches.give v cont) m s₁).symm.trans h
      exact .inl ⟨v, s₁, m, ⟨_, hinner⟩, h, hstarted⟩
    | error fault =>
      obtain ⟨control, stack⟩ := thread
      have hcontrol : control = .fail fault := Thread.of_outcome_error hended
      subst hcontrol
      obtain ⟨rfl, rfl⟩ := Prod.mk.inj (Option.some.inj ((runUntil_fail watches ..).symm.trans h))
      exact .inr ⟨fault, ⟨_, hinner⟩, rfl, fun seen => hstarted seen⟩
  · have hawait := await_nil_of_full hcont e env s room
    rw [hawait] at h
    cases fuel with
    | zero => cases h
    | succ fuel =>
      obtain ⟨rfl, rfl⟩ := Prod.mk.inj (Option.some.inj ((runUntil_fail watches ..).symm.trans h))
      refine .inr ⟨.tooDeep, ?_, rfl, fun hroom => absurd hroom room⟩
      rw [if_neg room]
      exact ⟨rfl, rfl⟩

/-- A run goes on with the value of the expression that it began by waiting for. -/
theorem exists_runUntil_await (watches : Watches done?) (hcont : cont.calls = 4) {v : Value ι}
    {s₁ : State ι} (h : Evaluates limits e env s (.ok v) s₁) {r : Except Fault α × State ι}
    (hresume : runUntil done? limits fuel (resume limits cont v [] s₁).1
      (resume limits cont v [] s₁).2 = some r) :
    ∃ fuel', runUntil done? limits fuel' (await limits cont e env [] s).1
      (await limits cont e env [] s).2 = some r := by
  unfold Evaluates at h
  split at h
  · rename_i room
    obtain ⟨fuel₁, hinner⟩ := h
    rw [Evaluation.evaluate_inOrder_iff] at hinner
    obtain ⟨n, thread, -, hended, hrun⟩ := run_enter watches hcont hinner
    refine ⟨fuel + 1 + n, ?_⟩
    rw [await_nil hcont e env s room, (hrun (fuel + 1)).1, Thread.of_outcome_ok hended]
    exact (runUntil_of_none (watches.give v cont) fuel s₁).trans hresume
  · cases h.1

/-- A run fails with the expression that it began by waiting for. -/
theorem exists_runUntil_await_error (watches : Watches done?) (cont : Cont ι)
    (hcont : cont.calls = 4) {fault : Fault} (h : Evaluates limits e env s (.error fault) s') :
    ∃ fuel, runUntil done? limits fuel (await limits cont e env [] s).1
      (await limits cont e env [] s).2 = some (.error fault, s') := by
  unfold Evaluates at h
  split at h
  · rename_i room
    obtain ⟨fuel₁, hinner⟩ := h
    rw [Evaluation.evaluate_inOrder_iff] at hinner
    obtain ⟨n, ⟨control, stack⟩, -, hended, hrun⟩ := run_enter watches hcont hinner
    have hcontrol : control = .fail fault := Thread.of_outcome_error hended
    subst hcontrol
    refine ⟨1 + n, ?_⟩
    rw [await_nil hcont e env s room, (hrun 1).1]
    exact runUntil_fail watches 0 fault _ s'
  · rename_i room
    obtain ⟨hfault, rfl⟩ := h
    cases hfault
    refine ⟨1, ?_⟩
    rw [await_nil_of_full hcont e env s' room]
    exact runUntil_fail watches 0 .tooDeep [] s'

end Machine

end Evlis
