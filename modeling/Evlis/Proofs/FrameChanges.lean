import Evlis.Proofs.OrdinaryFaults

/-!
# What a step does to frames

A step of a thread leaves the frames as they are, adds one, or installs the bindings of a pending
one. The frames that a thread may still fill are those of the bindings on its stack. `Change` lists
all that can happen to both, and `Machine.changes_step` says that nothing else does.
-/

namespace Evlis

variable {ι : Type}

/-- The bindings that an entry of a stack waits for the next value of, and the name of the value. -/
def Cont.binding? : Cont ι → Option (Value ι × Binding ι)
  | .bind name b => some (name, b)
  | _ => none

/-- The bindings that are being evaluated, innermost first. -/
def openBindings (stack : List (Cont ι)) : List (Value ι × Binding ι) :=
  stack.filterMap Cont.binding?

lemma openBindings_cons_of_none {cont : Cont ι} (h : cont.binding? = none)
    (stack : List (Cont ι)) : openBindings (cont :: stack) = openBindings stack := by
  simp [openBindings, h]

lemma openBindings_bind (name : Value ι) (b : Binding ι) (stack : List (Cont ι)) :
    openBindings (.bind name b :: stack) = (name, b) :: openBindings stack := by
  simp [openBindings, Cont.binding?]

structure Binding.Extends (name : Value ι) (b b' : Binding ι) : Prop where
  names : ∃ m, b'.names = .pair m name b.names
  values : ∃ m v, b'.values = .pair m v b.values
  rest : b'.rest = b.rest
  frame : b'.frame = b.frame

/-- What a step can do to the open bindings and to the frames, and what control it can leave. -/
inductive Change (limits : Limits) : List (Value ι × Binding ι) → Array (Frame ι) → Control ι →
    List (Value ι × Binding ι) → Array (Frame ι) → Prop where
  | quiet {opened frames control} (h : ∀ fault, control = .fail fault → fault.IsOrdinary) :
      Change limits opened frames control opened frames
  | abandon {entry opened frames} {fault : Fault} (h : fault.IsOrdinary) :
      Change limits (entry :: opened) frames (.fail fault) opened frames
  /-- The body of a closure is entered, or that of a `letrec` without bindings. -/
  | bound {opened frames e env} (names values : Value ι) :
      Change limits opened frames (.bounce e env) opened (frames.push (.filled names values))
  | opening {opened frames e env name} {b : Binding ι} (frame : b.frame = frames.size) :
      Change limits opened frames (.enter e env) ((name, b) :: opened) (frames.push .pending)
  | stillborn {opened frames} {fault : Fault} (h : fault.IsOrdinary) :
      Change limits opened frames (.fail fault) opened (frames.push .pending)
  | further {opened frames e env name name' rest} {b b' : Binding ι}
      (extended : b.Extends name b') (next : b'.next limits = .ok (some (name', e, rest))) :
      Change limits ((name, b) :: opened) frames (.enter e env) ((name', { b' with rest }) :: opened)
        frames
  | filling {opened frames e env name} {b b' : Binding ι}
      (extended : b.Extends name b') (next : b'.next limits = .ok none)
      (pending : frames[b.frame]? = some .pending) :
      Change limits ((name, b) :: opened) frames (.bounce e env) opened
        (frames.setIfInBounds b.frame (.filled b'.names b'.values))
  | refused {opened frames name} {b : Binding ι} (filled : frames[b.frame]? ≠ some .pending) :
      Change limits ((name, b) :: opened) frames (.fail .frameFilled) opened frames

/-- The change from a stack and a state to a thread and a state. -/
def Changes (limits : Limits) (stack : List (Cont ι)) (s : State ι) (r : Thread ι × State ι) :
    Prop :=
  Change limits (openBindings stack) s.frames r.1.control (openBindings r.1.stack) r.2.frames

namespace State

variable [Marking ι]

@[simp]
lemma frames_chain (elements : List (Value ι)) (tail : Value ι) (s : State ι) :
    (chain elements tail s).2.frames = s.frames := by
  induction elements generalizing tail s with
  | nil => rfl
  | cons e elements ih => exact ih _ _

@[simp]
lemma frames_close (tail formals body : Value ι) (env : Env ι) (s : State ι) :
    (s.close tail formals body env).2.frames = s.frames := rfl

end State

namespace Primitive

@[simp]
lemma frames_apply [Marking ι] (limits : Limits) (name : String) (arguments : Value ι)
    (s : State ι) : (apply limits name arguments s).2.frames = s.frames := by
  have hunary : ∀ operation v (s : State ι),
      (performUnary limits operation v s).2.frames = s.frames := by
    intro operation v s
    cases operation with
    | car => cases v <;> rfl
    | cdr => cases v <;> rfl
    | print =>
      unfold performUnary
      dsimp only
      split <;> rfl
    | select index =>
      unfold performUnary
      dsimp only
      split <;> rfl
    | _ => rfl
  have hfind : (find name s).2.frames = s.frames := by
    unfold find
    split <;> rfl
  unfold apply
  split
  · rename_i found
    rw [← hfind, found]
  · rename_i found
    rw [found] at hfind
    split
    · exact hfind
    · split
      · exact (hunary _ _ _).trans hfind
      · rename_i operation v w _
        cases operation <;> exact hfind
      · exact hfind

end Primitive

namespace Machine

lemma changes_of_control (limits : Limits) {control : Control ι} {stack stack' : List (Cont ι)}
    {s s' : State ι} (hb : openBindings stack' = openBindings stack) (hs : s'.frames = s.frames)
    (h : ∀ fault, control = .fail fault → fault.IsOrdinary) :
    Changes limits stack s (⟨control, stack'⟩, s') := by
  unfold Changes
  rw [hb, hs]
  exact .quiet h

lemma changes_give (limits : Limits) (v : Value ι) (stack : List (Cont ι)) {s s' : State ι}
    (hs : s'.frames = s.frames) : Changes limits stack s (give v stack s') :=
  changes_of_control limits rfl hs (by simp)

lemma changes_fail (limits : Limits) {fault : Fault} (h : fault.IsOrdinary)
    (stack : List (Cont ι)) {s s' : State ι} (hs : s'.frames = s.frames) :
    Changes limits stack s (fail fault stack s') := by
  refine changes_of_control limits rfl hs ?_
  rintro _ ⟨⟩
  exact h

lemma changes_bounce (limits : Limits) (e : Value ι) (env : Env ι) (stack : List (Cont ι))
    (s : State ι) : Changes limits stack s (bounce e env stack s) :=
  changes_of_control limits rfl rfl (by simp)

lemma changes_await (limits : Limits) {cont : Cont ι} (h : cont.binding? = none) (e : Value ι)
    (env : Env ι) (stack : List (Cont ι)) (s : State ι) :
    Changes limits stack s (await limits cont e env stack s) := by
  unfold await
  split
  · exact changes_of_control limits (openBindings_cons_of_none h stack) rfl (by simp)
  · exact changes_fail limits (by trivial) stack rfl

/-- The ways to go on with the bindings of a `letrec`. -/
lemma nextBinding_cases (limits : Limits) (b : Binding ι) (stack : List (Cont ι)) (s : State ι) :
    (∃ fault, fault.IsOrdinary ∧ nextBinding limits b stack s = fail fault stack s) ∨
    (∃ name e rest, b.next limits = .ok (some (name, e, rest)) ∧
      nextBinding limits b stack s =
        (⟨.enter e b.env, .bind name { b with rest } :: stack⟩, s)) ∨
    (∃ s₁, b.next limits = .ok none ∧ s.frames[b.frame]? = some .pending ∧
      s₁.frames = s.frames.setIfInBounds b.frame (.filled b.names b.values) ∧
      nextBinding limits b stack s = bounce b.body b.env stack s₁) ∨
    (s.frames[b.frame]? ≠ some .pending ∧
      nextBinding limits b stack s = fail .frameFilled stack s) := by
  rw [nextBinding_eq]
  split
  · rename_i fault next
    exact .inl ⟨fault, (Binding.isLocal_of_next next).isOrdinary, rfl⟩
  · rename_i name e rest next
    unfold await
    split
    · exact .inr (.inl ⟨name, e, rest, next, rfl⟩)
    · exact .inl ⟨.tooDeep, trivial, rfl⟩
  · rename_i next
    unfold State.fill
    split
    · rename_i refused
      split at refused
      · cases refused
      · rename_i notPending
        cases refused
        exact .inr (.inr (.inr ⟨notPending, rfl⟩))
    · rename_i s₁ filled
      split at filled
      · rename_i pending
        cases filled
        exact .inr (.inr (.inl ⟨_, next, pending, rfl, rfl⟩))
      · cases filled

variable [Marking ι]

lemma changes_apply (limits : Limits) (call : Value ι) (stack : List (Cont ι)) {s s' : State ι}
    (hs : s'.frames = s.frames) : Changes limits stack s (apply limits call stack s') := by
  unfold apply
  split
  · rename_i name arguments
    have hp := Primitive.frames_apply limits name arguments s'
    split
    · rename_i applied
      rw [applied] at hp
      exact changes_give limits _ stack (hp.trans hs)
    · rename_i applied
      have hf := (Primitive.isLocal_of_apply (congrArg Prod.fst applied)).isOrdinary
      rw [applied] at hp
      exact changes_fail limits hf stack (hp.trans hs)
  · rename_i mark lambda formals body env arguments
    split
    · rename_i extended
      unfold extendEnv at extended
      split at extended
      · cases extended
        unfold Changes
        rw [← hs]
        exact .bound formals arguments
      · cases extended
    · rename_i extended
      have hf := (isLocal_of_extendEnv extended).isOrdinary
      unfold extendEnv at extended
      split at extended
      · cases extended
      · cases extended
        exact changes_fail limits hf stack hs
  · exact changes_fail limits (Value.isLocal_blame (by intro; trivial)).isOrdinary stack hs
  · exact changes_fail limits (Value.isLocal_blame (by intro; trivial)).isOrdinary stack hs

lemma changes_finish (limits : Limits) (purpose : Purpose) (operands : Value ι)
    (stack : List (Cont ι)) {s s' : State ι} (hs : s'.frames = s.frames) :
    Changes limits stack s (finish limits purpose operands stack s') := by
  cases purpose with
  | call => exact changes_apply limits operands stack hs
  | collect => exact changes_give limits operands stack hs

lemma changes_nextOperand (limits : Limits) (values : List (Value ι)) (rest : Value ι)
    (env : Env ι) (purpose : Purpose) (stack : List (Cont ι)) (s : State ι) :
    Changes limits stack s (nextOperand limits values rest env purpose stack s) := by
  unfold nextOperand
  split
  · exact changes_await limits rfl _ env stack s
  · split
    · exact changes_finish limits purpose _ stack (State.frames_chain values .nil s)
    · exact changes_fail limits (Value.isLocal_blame (by intro; trivial)).isOrdinary stack rfl

lemma changes_operands (limits : Limits) (mode : Mode) (exprs : Value ι) (env : Env ι)
    (purpose : Purpose) (stack : List (Cont ι)) (s : State ι) :
    Changes limits stack s (operands limits mode exprs env purpose stack s) := by
  unfold operands
  split
  · exact changes_await limits rfl _ env stack s
  · exact changes_nextOperand limits [] exprs env purpose stack s

/-- A `letrec` opens a frame, and fills it at once if there is nothing to bind. -/
lemma changes_letrec (limits : Limits) (bs body : Value ι) (env : Env ι) (stack : List (Cont ι))
    (s : State ι) :
    Changes limits stack s
      (nextBinding limits (s.suspend bs body env).1 stack (s.suspend bs body env).2) := by
  have hframe : (s.suspend bs body env).1.frame = s.frames.size := rfl
  have hframes : (s.suspend bs body env).2.frames = s.frames.push .pending := rfl
  rcases nextBinding_cases limits (s.suspend bs body env).1 stack (s.suspend bs body env).2 with
    ⟨fault, hf, h⟩ | ⟨name, e, rest, next, h⟩ | ⟨s₁, next, pending, hs, h⟩ | ⟨notPending, h⟩
  · rw [h]
    exact .stillborn hf
  · rw [h]
    unfold Changes
    rw [openBindings_bind]
    exact .opening rfl
  · rw [h]
    unfold Changes
    have hset : s₁.frames = s.frames.push (.filled .nil .nil) := by
      rw [hs, hframe, hframes, Array.setIfInBounds_def, dif_pos (by simp), Array.set_push,
        dif_neg (Nat.lt_irrefl _)]
      rfl
    rw [bounce, hset]
    exact .bound .nil .nil
  · rw [hframe, hframes] at notPending
    simp at notPending

lemma changes_evaluate [DecidableEq ι] (limits : Limits) (mode : Mode) (e : Value ι) (env : Env ι)
    (stack : List (Cont ι)) (s : State ι) :
    Changes limits stack s (evaluate limits mode e env stack s) := by
  rw [evaluate_eq_pursue]
  cases hd : Demand.ofExpr limits (s.lookup limits env) e with
  | done outcome =>
    cases outcome with
    | ok v => exact changes_give limits v stack rfl
    | error fault =>
      exact changes_fail limits (Demand.isOrdinary_of_ofExpr State.isOrdinary_of_lookup hd) stack rfl
  | closure tail formals body =>
    exact changes_give limits _ stack (State.frames_close tail formals body env s)
  | operands exprs purpose => exact changes_operands limits mode exprs env purpose stack s
  | branch c a b => exact changes_await limits rfl c env stack s
  | second a b => exact changes_await limits rfl a env stack s
  | letrec bs body => exact changes_letrec limits bs body env stack s

lemma changes_bind (limits : Limits) (name v : Value ι) (b : Binding ι) (stack : List (Cont ι))
    (s : State ι) :
    Changes limits (.bind name b :: stack) s (resume limits (.bind name b) v stack s) := by
  have hr : resume limits (.bind name b) v stack s =
      nextBinding limits (b.bind name v b.rest s).1 stack (b.bind name v b.rest s).2 := rfl
  have hx : b.Extends name (b.bind name v b.rest s).1 := ⟨⟨_, rfl⟩, ⟨_, _, rfl⟩, rfl, rfl⟩
  have hs : (b.bind name v b.rest s).2.frames = s.frames := rfl
  have hframe : (b.bind name v b.rest s).1.frame = b.frame := rfl
  rw [hr]
  unfold Changes
  rw [openBindings_bind]
  rcases nextBinding_cases limits (b.bind name v b.rest s).1 stack (b.bind name v b.rest s).2 with
    ⟨fault, hf, h⟩ | ⟨name', e, rest, next, h⟩ | ⟨s₁, next, pending, hs₁, h⟩ | ⟨notPending, h⟩
  · rw [h]
    exact .abandon hf
  · rw [h, openBindings_bind]
    exact .further hx next
  · rw [h, bounce, hs₁]
    exact .filling hx next pending
  · rw [h]
    exact .refused notPending

lemma changes_resume (limits : Limits) (cont : Cont ι) (v : Value ι) (stack : List (Cont ι))
    (s : State ι) : Changes limits (cont :: stack) s (resume limits cont v stack s) := by
  have hpop : ∀ {cont : Cont ι} {r}, cont.binding? = none → Changes limits stack s r →
      Changes limits (cont :: stack) s r := by
    intro cont r hc h
    unfold Changes
    rw [openBindings_cons_of_none hc]
    exact h
  cases cont with
  | operand values rest env purpose =>
    exact hpop rfl (changes_nextOperand limits (v :: values) rest env purpose stack s)
  | branch consequent alternative env => exact hpop rfl (changes_bounce limits _ env stack s)
  | second e env => exact hpop rfl (changes_bounce limits e env stack s)
  | bind name b => exact changes_bind limits name v b stack s
  | share rest env purpose =>
    refine hpop rfl ?_
    unfold resume
    dsimp only
    split
    · rename_i listed
      exact changes_fail limits (Value.isLocal_of_toList listed).isOrdinary stack rfl
    · exact changes_of_control limits rfl rfl (by simp)
  | inline sharing => exact hpop rfl (changes_of_control limits rfl rfl (by simp))

/-- A step of a thread by itself does to frames what `Change` lists, unless the thread has failed
and stays as it is. -/
theorem changes_step [DecidableEq ι] (limits : Limits) (mode : Mode) (thread : Thread ι)
    (s : State ι) (h : ∀ fault, thread.control ≠ .fail fault) :
    Changes limits thread.stack s (step limits mode thread s) := by
  obtain ⟨control, stack⟩ := thread
  unfold step
  dsimp only at h ⊢
  split
  · exact changes_evaluate limits mode _ _ _ s
  · exact changes_evaluate limits mode _ _ _ s
  · exact changes_resume limits _ _ _ s
  · exact changes_of_control limits rfl rfl fun fault hf => absurd hf (h fault)

end Machine

end Evlis
