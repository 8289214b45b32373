import Evlis.Proofs.SlotAccounting
import Evlis.Proofs.StackBounds
import Evlis.Proofs.WellFormedness
import Mathlib.Computability.StateTransition

/-!
# Evaluation without a free slot

If all slots of a crew are taken, the caller evaluates all operands itself. It goes another way
about it than evaluation in order: the operands behind the first are listed before they are
evaluated, and their values are collected at the end. But one step in order is matched by one or
more steps of the caller, which leave the same frames and the same printed lines. So both come to
the same end, or neither comes to an end. Only the room they take on the stack is not the same, so
one of them may fail for want of room where the other does not.
-/

namespace Evlis

open StateTransition

/-- The next step of a thread, if it has not come to its end. -/
def Thread.next? (next : Thread Unit × State Unit → Thread Unit × State Unit)
    (c : Thread Unit × State Unit) : Option (Thread Unit × State Unit) :=
  match c.1.outcome? with
  | some _ => none
  | none => some (next c)

lemma Thread.exists_run_iff {next : Thread Unit × State Unit → Thread Unit × State Unit}
    {c d : Thread Unit × State Unit} {outcome : Except Fault (Value Unit)} :
    (∃ fuel, run next fuel c = some (outcome, d)) ↔
      d ∈ eval (next? next) c ∧ d.1.outcome? = some outcome := by
  refine ⟨?_, ?_⟩
  · rintro ⟨fuel, hrun⟩
    induction fuel generalizing c with
    | zero => cases hrun
    | succ fuel ih =>
      rw [run] at hrun
      split at hrun
      · rename_i hended
        cases hrun
        refine ⟨mem_eval.mpr ⟨.refl, ?_⟩, hended⟩
        rw [next?, hended]
      · rename_i hunfinished
        have hnext : next? next c = some (next c) := by rw [next?, hunfinished]
        rw [reaches_eval (.single hnext)]
        exact ih hrun
  · rintro ⟨hmem, hended⟩
    obtain ⟨hreaches, -⟩ := mem_eval.mp hmem
    clear hmem
    induction hreaches using Relation.ReflTransGen.head_induction_on with
    | refl =>
      refine ⟨1, ?_⟩
      rw [run, hended]
    | @head c c' hnext _ ih =>
      obtain ⟨fuel, hrun⟩ := ih
      refine ⟨fuel + 1, ?_⟩
      rw [run]
      rw [next?] at hnext
      split at hnext
      · cases hnext
      · rename_i hunfinished
        rw [hunfinished]
        cases hnext
        exact hrun

/-- A thread in order does one step after the other. -/
def Machine.next (limits : Limits) (c : Thread Unit × State Unit) : Thread Unit × State Unit :=
  step limits .inOrder c.1 c.2

lemma Machine.sameOrFull_next (limits : Limits) (c : Thread Unit × State Unit) :
    SameOrFull (next limits c) (next limits.unbounded c) :=
  sameOrFull_step limits c.2 .inOrder c.1

lemma Machine.runUntil_eq_run (limits : Limits) (fuel : Nat) (c : Thread Unit × State Unit) :
    runUntil Thread.outcome? limits fuel c.1 c.2 =
      (Thread.run (next limits) fuel c).map fun r => (r.1, r.2.2) := by
  induction fuel generalizing c with
  | zero => rfl
  | succ fuel ih =>
    rw [runUntil, Thread.run]
    cases c.1.outcome? with
    | some outcome => rfl
    | none => exact ih (next limits c)

namespace Pool

/-- What a caller that has handed nothing over and finds no slot does next. -/
def lone (limits : Limits) (slots : Nat) (c : Thread Unit × State Unit) :
    Thread Unit × State Unit :=
  match c.1.control with
  | .fork sharing =>
    match sharing.rest with
    | [] => (⟨.join sharing.head [] sharing.underway.reverse sharing.purpose, c.1.stack⟩, c.2)
    | e :: rest =>
      Machine.await limits (.inline { sharing with rest }) e sharing.env c.1.stack
        (c.2.log (.ranInline slots e))
  | .join head values [] purpose =>
    let (rest, s) := State.chain values .nil c.2
    let (operands, s) := s.cons head rest
    Machine.finish limits purpose operands c.1.stack s
  | .join head values (.ready v :: underway) purpose =>
    (⟨.join head (v :: values) underway purpose, c.1.stack⟩, c.2)
  | _ => Machine.step limits .shared c.1 c.2

lemma sameOrFull_lone (limits : Limits) (slots : Nat) (c : Thread Unit × State Unit) :
    Machine.SameOrFull (lone limits slots c) (lone limits.unbounded slots c) := by
  obtain ⟨⟨control, stack⟩, s⟩ := c
  cases control with
  | enter e env => exact Machine.sameOrFull_step limits s .shared ⟨.enter e env, stack⟩
  | bounce e env => exact Machine.sameOrFull_step limits s .shared ⟨.bounce e env, stack⟩
  | give v => exact Machine.sameOrFull_step limits s .shared ⟨.give v, stack⟩
  | fail fault => exact .inl rfl
  | submit e sharing => exact .inl rfl
  | fork sharing =>
    obtain ⟨head, underway, rest, env, purpose⟩ := sharing
    cases rest with
    | nil => exact .inl rfl
    | cons e rest => exact Machine.sameOrFull_await limits stack _ _ e env
  | join head values underway purpose =>
    rcases underway with _ | ⟨number | v, underway⟩ <;> exact .inl rfl

variable {crew : Crew} {c : Thread Unit × State Unit}

/-- A lone caller hears of no tasks and takes no slot. -/
lemma keepsTo_lone (alone : c.1.KeepsTo []) (limits : Limits) (slots : Nat) :
    (lone limits slots c).1.KeepsTo [] := by
  obtain ⟨⟨control, stack⟩, s⟩ := c
  have hown : control.isOwn → (Machine.step limits .shared ⟨control, stack⟩ s).1.KeepsTo [] := by
    intro own
    have hstep : (Machine.step limits .shared ⟨control, stack⟩ s).1.KeepsTo
        (Thread.mk control stack).tasks := Machine.keepsTo_step limits s .shared own
    rwa [alone.tasks] at hstep
  have hknown : control.tasks ++ stack.flatMap Cont.tasks = [] := alone.tasks
  obtain ⟨hcontrol, hstack⟩ := List.append_eq_nil_iff.mp hknown
  cases control with
  | enter | bounce | give | fail => exact hown rfl
  | submit e sharing => cases alone.isSubmit
  | fork sharing =>
    obtain ⟨head, underway, rest, env, purpose⟩ := sharing
    cases rest with
    | nil =>
      have hreverse : tasksOf underway.reverse = [] := by
        rw [tasksOf, List.filterMap_reverse]
        exact List.reverse_eq_nil_iff.mpr hcontrol
      exact ⟨rfl, List.append_eq_nil_iff.mpr ⟨hreverse, hstack⟩⟩
    | cons e rest =>
      have hcont : (Cont.inline ⟨head, underway, rest, env, purpose⟩).tasks = [] := hcontrol
      have hawait := Machine.keepsTo_await limits hcont e env stack (s.log (.ranInline slots e))
      rwa [hstack] at hawait
  | join head values underway purpose =>
    rcases underway with _ | ⟨number | v, underway⟩
    · have hfinish := fun operands s => Machine.keepsTo_finish limits stack s purpose operands
      rw [hstack] at hfinish
      exact hfinish _ _
    · cases hcontrol
    · exact ⟨rfl, alone.tasks⟩

lemma step_lone (taken : crew.free = 0) (alone : c.1.KeepsTo [])
    (unfinished : c.1.outcome? = none) (limits : Limits) :
    (ofThread crew c.1 c.2).step limits 0 =
      some (ofThread crew (lone limits crew.slots c).1 (lone limits crew.slots c).2) := by
  obtain ⟨slots, free, refusal⟩ := crew
  obtain ⟨⟨control, stack⟩, s⟩ := c
  cases taken
  cases control with
  | enter e env => rfl
  | bounce e env => rfl
  | give v =>
    cases stack with
    | nil => cases unfinished
    | cons cont stack => rfl
  | fail fault => cases unfinished
  | submit e sharing => cases alone.isSubmit
  | fork sharing =>
    obtain ⟨head, underway, rest, env, purpose⟩ := sharing
    cases rest <;> rfl
  | join head values underway purpose =>
    rcases underway with _ | ⟨number | v, underway⟩
    · rfl
    · cases alone.tasks
    · rfl

lemma focus_lone (alone : c.1.KeepsTo []) :
    (ofThread crew c.1 c.2).focus (ofThread crew c.1 c.2).tasks.size 0 = 0 := by
  have hawaits : (ofThread crew c.1 c.2).awaited? 0 = none := by
    obtain ⟨⟨control, stack⟩, s⟩ := c
    cases control with
    | join head values underway purpose =>
      rcases underway with _ | ⟨number | v, underway⟩
      · rfl
      · cases alone.tasks
      · rfl
    | _ => rfl
  have halone : (ofThread crew c.1 c.2).tasks.size = 1 := rfl
  rw [halone, focus, hawaits]

/-- A caller that finds no slot does one step after the other. -/
lemma runUntil_eq_run (taken : crew.free = 0) (alone : c.1.KeepsTo []) (limits : Limits)
    (fuel : Nat) :
    (ofThread crew c.1 c.2).runUntil Thread.outcome? limits fuel =
      (Thread.run (lone limits crew.slots) fuel c).map fun r =>
        (r.1, ofThread crew r.2.1 r.2.2) := by
  induction fuel generalizing c with
  | zero => rfl
  | succ fuel ih =>
    have hcaller : (ofThread crew c.1 c.2).caller?.bind Thread.outcome? = c.1.outcome? := rfl
    rw [runUntil, Thread.run, hcaller, focus_lone alone]
    cases hended : c.1.outcome? with
    | some outcome => rfl
    | none =>
      dsimp only
      rw [step_lone taken alone hended]
      exact ih (keepsTo_lone alone limits crew.slots)

end Pool

/-! ## The caller beside an evaluation in order -/

/-- Two states with the same frames and the same printed lines; other things may have been
reported. -/
structure State.Same (s s' : State Unit) : Prop where
  frames : s'.frames = s.frames
  printed : s'.printed = s.printed

namespace State.Same

variable {s s' : State Unit}

lemma lookup (hs : s.Same s') (limits : Limits) (env : Env Unit) :
    s'.lookup limits env = s.lookup limits env := by
  have hfound : ∀ name, s'.lookup? name env = s.lookup? name env := by
    intro name
    induction env with
    | nil => rfl
    | cons rib outer ih => rw [State.lookup?, State.lookup?, hs.frames, ih]
  funext name
  rw [State.lookup, State.lookup, hfound]

lemma extend (hs : s.Same s') (frame : Frame Unit) (env : Env Unit) :
    (s'.extend frame env).1 = (s.extend frame env).1 ∧
      (s.extend frame env).2.Same (s'.extend frame env).2 := by
  refine ⟨?_, ?_, hs.printed⟩
  · simp only [State.extend, State.addFrame, State.link, State.fresh, hs.frames]
  · simp only [State.extend, State.addFrame, State.link, State.fresh, hs.frames]

lemma suspend (hs : s.Same s') (bindings body : Value Unit) (env : Env Unit) :
    (s'.suspend bindings body env).1 = (s.suspend bindings body env).1 ∧
      (s.suspend bindings body env).2.Same (s'.suspend bindings body env).2 := by
  refine ⟨?_, ?_, hs.printed⟩
  · simp only [State.suspend, State.addFrame, State.link, State.fresh, hs.frames]
  · simp only [State.suspend, State.addFrame, State.link, State.fresh, hs.frames]

lemma fill (hs : s.Same s') (number : Nat) (names values : Value Unit) :
    Like State.Same (s.fill number names values) (s'.fill number names values) := by
  unfold State.fill
  rw [hs.frames]
  split
  · exact .ok ⟨rfl, hs.printed⟩
  · exact .error _

end State.Same

lemma Primitive.apply_same {s s' : State Unit} (hs : s.Same s') (limits : Limits) (name : String)
    (arguments : Value Unit) :
    (apply limits name arguments s').1 = (apply limits name arguments s).1 ∧
      (apply limits name arguments s).2.Same (apply limits name arguments s').2 := by
  have hequal : Value.Congruence (Eq : Value Unit → Value Unit → Prop) := by
    refine ⟨fun _ => rfl, fun {_ _ _ _ _ _} => ?_, ?_⟩
    · simp
    · rintro v _ rfl
      exact .refl v
  obtain ⟨hlike, lines, hlines, hlines'⟩ :=
    apply_congruent hequal limits name (Eq.refl arguments) s s'
  refine ⟨?_, ?_, ?_⟩
  · generalize (apply limits name arguments s).1 = outcome at hlike ⊢
    generalize (apply limits name arguments s').1 = outcome' at hlike ⊢
    cases hlike with
    | ok h => rw [h]
    | error fault => rfl
  · rw [frames_apply, frames_apply, hs.frames]
  · rw [← Array.toList_inj, hlines', hlines, hs.printed]

/-- What waits in order, and what waits in its place if the operands are to be shared out: behind
the first one, the values so far are all ready. -/
inductive Cont.Counterpart : Cont Unit → Cont Unit → Prop where
  | first (rest : Value Unit) (env : Env Unit) (purpose : Purpose) :
      Counterpart (.operand [] rest env purpose) (.share rest env purpose)
  | later (head : Value Unit) (values : List (Value Unit)) (rest : Value Unit) (env : Env Unit)
      (purpose : Purpose) :
      Counterpart (.operand (values ++ [head]) rest env purpose)
        (.inline ⟨head, values.map .ready, rest.elements, env, purpose⟩)
  | branch (consequent alternative : Value Unit) (env : Env Unit) :
      Counterpart (.branch consequent alternative env) (.branch consequent alternative env)
  | second (e : Value Unit) (env : Env Unit) : Counterpart (.second e env) (.second e env)
  | bind (name : Value Unit) (b : Binding Unit) : Counterpart (.bind name b) (.bind name b)

namespace Machine

/-- A thread that does the same as one in order. -/
structure Beside (c d : Thread Unit × State Unit) : Prop where
  own : c.1.control.isOwn
  control : d.1.control = c.1.control
  stack : List.Forall₂ Cont.Counterpart c.1.stack d.1.stack
  state : c.2.Same d.2

lemma Beside.outcome_eq {c d : Thread Unit × State Unit} (h : Beside c d) :
    d.1.outcome? = c.1.outcome? := by
  obtain ⟨⟨control, stack⟩, s⟩ := c
  obtain ⟨⟨control', stack'⟩, s'⟩ := d
  obtain ⟨-, rfl, hstack, -⟩ := h
  cases hstack with
  | nil => rfl
  | cons _ _ => cases control' <;> rfl

section Beside

variable {limits : Limits} {stack stack' : List (Cont Unit)} {s s' : State Unit}

lemma beside_await (unbounded : limits.depth = none) {cont cont' : Cont Unit}
    (hcont : cont.Counterpart cont') (e : Value Unit) (env : Env Unit)
    (hstack : List.Forall₂ Cont.Counterpart stack stack') (hs : s.Same s') :
    Beside (await limits cont e env stack s) (await limits cont' e env stack' s') := by
  rw [await, await, if_pos (allows_of_unbounded unbounded _ _),
    if_pos (allows_of_unbounded unbounded _ _)]
  exact ⟨rfl, rfl, .cons hcont hstack, hs⟩

lemma beside_apply (limits : Limits) (call : Value Unit)
    (hstack : List.Forall₂ Cont.Counterpart stack stack') (hs : s.Same s') :
    Beside (apply limits call stack s) (apply limits call stack' s') := by
  unfold apply
  split
  · rename_i name arguments
    obtain ⟨houtcome, hsame⟩ := Primitive.apply_same hs limits name arguments
    generalize Primitive.apply limits name arguments s = r at houtcome hsame ⊢
    generalize Primitive.apply limits name arguments s' = r' at houtcome hsame ⊢
    obtain ⟨outcome, s₁⟩ := r
    obtain ⟨outcome', s₁'⟩ := r'
    cases houtcome
    cases outcome with
    | ok v => exact ⟨rfl, rfl, hstack, hsame⟩
    | error fault => exact ⟨rfl, rfl, hstack, hsame⟩
  · rename_i formals body env arguments
    unfold extendEnv
    by_cases hlength : formals.length = arguments.length
    · rw [if_pos hlength, if_pos hlength]
      obtain ⟨henv, hsame⟩ := hs.extend (.filled formals arguments) env
      exact ⟨rfl, congrArg (Control.bounce body) henv, hstack, hsame⟩
    · rw [if_neg hlength, if_neg hlength]
      exact ⟨rfl, rfl, hstack, hs⟩
  · exact ⟨rfl, rfl, hstack, hs⟩
  · exact ⟨rfl, rfl, hstack, hs⟩

lemma beside_finish (limits : Limits) (purpose : Purpose) (operands : Value Unit)
    (hstack : List.Forall₂ Cont.Counterpart stack stack') (hs : s.Same s') :
    Beside (finish limits purpose operands stack s) (finish limits purpose operands stack' s') := by
  cases purpose with
  | collect => exact ⟨rfl, rfl, hstack, hs⟩
  | call => exact beside_apply limits operands hstack hs

lemma beside_nextBinding (unbounded : limits.depth = none) (b : Binding Unit)
    (hstack : List.Forall₂ Cont.Counterpart stack stack') (hs : s.Same s') :
    Beside (nextBinding limits b stack s) (nextBinding limits b stack' s') := by
  rw [nextBinding_eq, nextBinding_eq]
  split
  · exact ⟨rfl, rfl, hstack, hs⟩
  · exact beside_await unbounded (.bind _ _) _ _ hstack hs
  · have hfill := hs.fill b.frame b.names b.values
    generalize s.fill b.frame b.names b.values = r at hfill ⊢
    generalize s'.fill b.frame b.names b.values = r' at hfill ⊢
    cases hfill with
    | ok hs => exact ⟨rfl, rfl, hstack, hs.frames, hs.printed⟩
    | error fault => exact ⟨rfl, rfl, hstack, hs⟩

/-- What the first step of an expression does, the operands aside, does not depend on how they are
evaluated. -/
lemma beside_evaluate (unbounded : limits.depth = none) (e : Value Unit) (env : Env Unit)
    (hstack : List.Forall₂ Cont.Counterpart stack stack') (hs : s.Same s') :
    Beside (evaluate limits .inOrder e env stack s) (evaluate limits .shared e env stack' s') := by
  rw [evaluate_eq_pursue, evaluate_eq_pursue, hs.lookup]
  generalize Demand.ofExpr limits (s.lookup limits env) e = demand
  cases demand with
  | done outcome =>
    cases outcome with
    | ok v => exact ⟨rfl, rfl, hstack, hs⟩
    | error fault => exact ⟨rfl, rfl, hstack, hs⟩
  | closure tail formals body => exact ⟨rfl, rfl, hstack, hs.frames, hs.printed⟩
  | operands exprs purpose =>
    cases exprs with
    | pair mark e rest => exact beside_await unbounded (.first rest env purpose) e env hstack hs
    | atom name =>
      dsimp only [pursue, operands, nextOperand]
      split
      · exact beside_finish limits purpose _ hstack hs
      · exact ⟨rfl, rfl, hstack, hs⟩
    | _ => exact ⟨rfl, rfl, hstack, hs⟩
  | branch condition consequent alternative =>
    exact beside_await unbounded (.branch consequent alternative env) condition env hstack hs
  | second first last => exact beside_await unbounded (.second last env) first env hstack hs
  | letrec bindings body =>
    obtain ⟨hbinding, hsame⟩ := hs.suspend bindings body env
    dsimp only [pursue]
    rw [hbinding]
    exact beside_nextBinding unbounded _ hstack hsame

end Beside

end Machine

namespace Pool

variable {limits : Limits} {slots : Nat}

/-- One or more steps of a lone caller. -/
abbrev Proceeds (limits : Limits) (slots : Nat) : (c d : Thread Unit × State Unit) → Prop :=
  Reaches₁ (Thread.next? (lone limits slots))

lemma proceeds_lone {c : Thread Unit × State Unit} (unfinished : c.1.outcome? = none) :
    Proceeds limits slots c (lone limits slots c) := by
  refine .single ?_
  rw [Option.mem_def, Thread.next?, unfinished]

section Sharing

variable {head : Value Unit} {env : Env Unit} {purpose : Purpose} {stack stack' : List (Cont Unit)}
  {s s' : State Unit}

/-- Operands that are all ready are collected, the last value first. -/
lemma proceeds_join (done values : List (Value Unit)) :
    Proceeds limits slots (⟨.join head done (values.map .ready) purpose, stack⟩, s)
      (Machine.finish limits purpose
        (.pair () head (State.chain (values.reverse ++ done) .nil s).1) stack s) := by
  induction values generalizing done with
  | nil =>
    have hcombine : lone limits slots (⟨.join head done [] purpose, stack⟩, s) =
        Machine.finish limits purpose (.pair () head (State.chain done .nil s).1) stack s := by
      simp only [lone, State.chain_unit]
      rfl
    rw [List.map_nil, List.reverse_nil, List.nil_append, ← hcombine]
    exact proceeds_lone rfl
  | cons v values ih =>
    have hready : Proceeds limits slots
        (⟨.join head done (.ready v :: values.map .ready) purpose, stack⟩, s)
        (⟨.join head (v :: done) (values.map .ready) purpose, stack⟩, s) := proceeds_lone rfl
    rw [List.reverse_cons, List.append_assoc]
    exact hready.trans (ih (v :: done))

/-- What the caller does with operands of which the values so far are ready is what is done in
order. -/
lemma proceeds_fork (unbounded : limits.depth = none) (values : List (Value Unit))
    {rest : Value Unit} (hproper : rest.ending = .nil)
    (hstack : List.Forall₂ Cont.Counterpart stack stack') (hs : s.Same s') :
    ∃ d, Proceeds limits slots
        (⟨.fork ⟨head, values.map .ready, rest.elements, env, purpose⟩, stack'⟩, s') d ∧
      Machine.Beside (Machine.nextOperand limits (values ++ [head]) rest env purpose stack s)
        d := by
  cases rest with
  | pair mark e rest =>
    rw [Value.elements_pair]
    exact ⟨_, proceeds_lone rfl,
      Machine.beside_await unbounded (.later head values rest env purpose) e env hstack
        ⟨hs.frames, hs.printed⟩⟩
  | atom name =>
    cases hproper
    have hgather : Proceeds limits slots
        (⟨.fork ⟨head, values.map .ready, [], env, purpose⟩, stack'⟩, s')
        (⟨.join head [] (values.map .ready).reverse purpose, stack'⟩, s') := proceeds_lone rfl
    rw [← List.map_reverse] at hgather
    refine ⟨_, hgather.trans (proceeds_join [] values.reverse), ?_⟩
    have hfinish : Machine.nextOperand limits (values ++ [head]) (.atom "nil") env purpose stack s =
        Machine.finish limits purpose (.pair () head (State.chain values .nil s').1) stack s := by
      simp only [Machine.nextOperand, State.chain_unit, List.foldl_append]
      rfl
    rw [List.reverse_reverse, List.append_nil, hfinish]
    exact Machine.beside_finish limits purpose _ hstack hs
  | _ => cases hproper

end Sharing

variable {r : Course} {c d : Thread Unit × State Unit}

/-- One step in order is matched by one or more steps of the caller. -/
lemma exists_proceeds (unbounded : limits.depth = none)
    (hregular : Machine.Regular r (fun _ => True) c) (hbeside : Machine.Beside c d)
    (hunfinished : c.1.outcome? = none) :
    ∃ d', Proceeds limits slots d d' ∧ Machine.Beside (Machine.next limits c) d' := by
  obtain ⟨⟨control, stack⟩, s⟩ := c
  obtain ⟨⟨control', stack'⟩, s'⟩ := d
  obtain ⟨own, rfl, hstack, hs⟩ := hbeside
  dsimp only at own hstack hs hunfinished
  cases control' with
  | enter e env =>
    exact ⟨_, proceeds_lone rfl, Machine.beside_evaluate unbounded e env hstack hs⟩
  | bounce e env =>
    exact ⟨_, proceeds_lone rfl, Machine.beside_evaluate unbounded e env hstack hs⟩
  | fail fault => cases hunfinished
  | give v =>
    cases hstack with
    | nil => cases hunfinished
    | @cons cont cont' stack stack' hcont hstack =>
      have hresume : Proceeds limits slots (⟨.give v, cont' :: stack'⟩, s')
          (Machine.resume limits cont' v stack' s') := proceeds_lone rfl
      have hwaiting := hregular.stack cont List.mem_cons_self
      cases hcont with
      | first rest env purpose =>
        obtain ⟨-, -, hproper, -⟩ := hwaiting
        rw [Machine.resume, Value.toList_of_ending hproper] at hresume
        obtain ⟨d', hproceeds, hbeside⟩ := proceeds_fork unbounded [] hproper hstack hs
        exact ⟨d', hresume.trans hproceeds, hbeside⟩
      | later head values rest env purpose =>
        obtain ⟨-, -, hproper, -⟩ := hwaiting
        obtain ⟨d', hproceeds, hbeside⟩ :=
          proceeds_fork unbounded (v :: values) hproper hstack hs
        exact ⟨d', hresume.trans hproceeds, hbeside⟩
      | branch consequent alternative env => exact ⟨_, hresume, rfl, rfl, hstack, hs⟩
      | second e env => exact ⟨_, hresume, rfl, rfl, hstack, hs⟩
      | bind name b =>
        exact ⟨_, hresume, Machine.beside_nextBinding unbounded _ hstack ⟨hs.frames, hs.printed⟩⟩
  | fork | submit | join => cases own

lemma respects_beside (slots : Nat) (unbounded : limits.depth = none) :
    Respects (Thread.next? (Machine.next limits)) (Thread.next? (lone limits slots))
      fun c d => Machine.Regular r (fun _ => True) c ∧ Machine.Beside c d := by
  rintro c d ⟨hregular, hbeside⟩
  rw [Thread.next?]
  cases hended : c.1.outcome? with
  | some outcome =>
    dsimp only
    rw [Thread.next?, hbeside.outcome_eq, hended]
  | none =>
    obtain ⟨d', hproceeds, hbeside⟩ := exists_proceeds unbounded hregular hbeside hended
    refine ⟨d', ⟨?_, hbeside⟩, hproceeds⟩
    exact Machine.regular_step (fun _ _ => trivial) trivial hregular fun _ _ _ _ _ => trivial

/-- On an unbounded stack, the caller comes to what is come to in order. -/
theorem comesTo_lone_iff (slots : Nat) (unbounded : limits.depth = none)
    (hregular : Machine.Regular r (fun _ => True) c) (hbeside : Machine.Beside c c)
    (outcome : Except Fault (Value Unit)) (frames : Array (Frame Unit)) (printed : Array String) :
    Thread.ComesTo (lone limits slots) c outcome frames printed ↔
      Thread.ComesTo (Machine.next limits) c outcome frames printed := by
  have hrespects := respects_beside (r := r) slots unbounded
  refine ⟨?_, ?_⟩
  · rintro ⟨fuel, d, hrun, rfl, rfl⟩
    obtain ⟨hmem, hended⟩ := Thread.exists_run_iff.mp ⟨fuel, hrun⟩
    obtain ⟨c', ⟨-, hbeside⟩, hmem⟩ := tr_eval_rev hrespects ⟨hregular, hbeside⟩ hmem
    obtain ⟨fuel', hrun'⟩ := Thread.exists_run_iff.mpr ⟨hmem, hbeside.outcome_eq ▸ hended⟩
    exact ⟨fuel', c', hrun', hbeside.state.frames.symm, hbeside.state.printed.symm⟩
  · rintro ⟨fuel, c', hrun, rfl, rfl⟩
    obtain ⟨hmem, hended⟩ := Thread.exists_run_iff.mp ⟨fuel, hrun⟩
    obtain ⟨d, ⟨-, hbeside⟩, hmem⟩ := tr_eval hrespects ⟨hregular, hbeside⟩ hmem
    obtain ⟨fuel', hrun'⟩ := Thread.exists_run_iff.mpr ⟨hmem, hbeside.outcome_eq.trans hended⟩
    exact ⟨fuel', d, hrun', hbeside.state.frames, hbeside.state.printed⟩

end Pool

/-- Evaluating a program ends with an outcome, frames and printed lines. -/
def Interpreter.EndsIn (limits : Limits) (interpreter : Interpreter) (code : String)
    (s : State Unit) (outcome : Except Fault (Value Unit)) (frames : Array (Frame Unit))
    (printed : Array String) : Prop :=
  ∃ fuel s', interpreter.eval fuel limits code s = some (outcome, interpreter, s') ∧
    s'.frames = frames ∧ s'.printed = printed

lemma Interpreter.endsIn_iff {limits : Limits} {interpreter : Interpreter} {code : String}
    {s : State Unit} {next : Thread Unit × State Unit → Thread Unit × State Unit}
    {c : Thread Unit × State Unit}
    (heval : ∀ fuel, interpreter.eval fuel limits code s =
      (Thread.run next fuel c).map fun r => (r.1, interpreter, r.2.2))
    (outcome : Except Fault (Value Unit)) (frames : Array (Frame Unit)) (printed : Array String) :
    interpreter.EndsIn limits code s outcome frames printed ↔
      Thread.ComesTo next c outcome frames printed := by
  refine ⟨?_, ?_⟩
  · rintro ⟨fuel, s', hended, hstate⟩
    rw [heval] at hended
    obtain ⟨⟨outcome', d⟩, hrun, hresult⟩ := Option.map_eq_some_iff.mp hended
    cases hresult
    exact ⟨fuel, d, hrun, hstate⟩
  · rintro ⟨fuel, d, hrun, hstate⟩
    refine ⟨fuel, d.2, ?_, hstate⟩
    rw [heval, hrun]
    rfl

section Eval

variable {limits : Limits} {code : String} {program : SExpr}
  (accepted : read limits.nesting code = .ok program) (s : State Unit) (fuel : Nat)

include accepted

lemma Interpreter.eval_inOrder_eq_run : Interpreter.eval fuel limits ⟨.inOrder⟩ code s =
    (Thread.run (Machine.next limits) fuel (Machine.ofProgram program s)).map
      fun r => (r.1, ⟨.inOrder⟩, r.2.2) := by
  rw [eval_inOrder accepted, Machine.runUntil_eq_run, Option.map_map]
  rfl

/-- Without a free slot, all that an interpreter does is done by the caller. -/
lemma Interpreter.eval_shared_eq_run {crew : Crew} (taken : crew.free = 0) :
    Interpreter.eval fuel limits ⟨.shared crew⟩ code s =
      (Thread.run (Pool.lone limits crew.slots) fuel (Machine.ofProgram program s)).map
        fun r => (r.1, ⟨.shared crew⟩, r.2.2) := by
  rw [eval_shared accepted, Pool.runUntil_eq_run taken ⟨rfl, rfl⟩]
  cases fuel with
  | zero => rfl
  | succ fuel => cases Thread.run _ (fuel + 1) (Machine.ofProgram program s) <;> rfl

end Eval

/-- If all slots of a crew are taken, evaluating a program with it on an unbounded stack comes to an
end exactly if evaluating it in order does, and then with the same value or the same fault, with the
same frames, made in the same order, and the same lines printed in the same order. A bound of the
stack changes this only in that one of the two may end for want of room. -/
theorem evaluation_without_slots_is_in_order {limits : Limits} {code : String} {program : SExpr}
    (accepted : read limits.nesting code = .ok program) {crew : Crew} (taken : crew.free = 0)
    (s : State Unit) :
    let shared := Interpreter.EndsIn limits ⟨.shared crew⟩ code s
    let inOrder := Interpreter.EndsIn limits ⟨.inOrder⟩ code s
    (limits.depth = none → ∀ outcome frames printed,
      shared outcome frames printed ↔ inOrder outcome frames printed) ∧
    ∀ outcome frames printed, outcome ≠ .error .tooDeep →
      (shared outcome frames printed → inOrder outcome frames printed ∨
        ∃ frames' printed', inOrder (.error .tooDeep) frames' printed') ∧
      (inOrder outcome frames printed → shared outcome frames printed ∨
        ∃ frames' printed', shared (.error .tooDeep) frames' printed') := by
  intro shared inOrder
  have hregular := Machine.regular_ofProgram (readable_of_read accepted).1 s fun _ => True
  have hbeside : Machine.Beside (Machine.ofProgram program s) (Machine.ofProgram program s) :=
    ⟨rfl, rfl, .nil, rfl, rfl⟩
  have hshared : ∀ outcome frames printed, shared outcome frames printed ↔ _ :=
    Interpreter.endsIn_iff fun fuel => Interpreter.eval_shared_eq_run accepted s fuel taken
  have hinOrder : ∀ outcome frames printed, inOrder outcome frames printed ↔ _ :=
    Interpreter.endsIn_iff fun fuel => Interpreter.eval_inOrder_eq_run accepted s fuel
  simp only [hshared, hinOrder]
  refine ⟨fun unbounded => Pool.comesTo_lone_iff crew.slots unbounded hregular hbeside, ?_⟩
  intro outcome frames printed roomy
  have unbounded : limits.unbounded.depth = none := rfl
  have hunbounded :=
    Pool.comesTo_lone_iff crew.slots unbounded hregular hbeside outcome frames printed
  refine ⟨fun h => ?_, fun h => ?_⟩
  · exact (hunbounded.mp (h.of_bounded (Pool.sameOrFull_lone limits crew.slots) roomy)).or_full
      (Machine.sameOrFull_next limits)
  · exact (hunbounded.mpr (h.of_bounded (Machine.sameOrFull_next limits) roomy)).or_full
      (Pool.sameOrFull_lone limits crew.slots)

/-- Two operands are evaluated by the caller, one of which prints and makes a frame, before a third
fails. -/
theorem failing_list_without_slots_is_in_order :
    let code := "(list 1 ((lambda (x) (print x)) 2) (car 3))"
    let program := SExpr.ofList [.atom "list", .atom "1",
      .ofList [.ofList [.atom "lambda", .ofList [.atom "x"], .ofList [.atom "print", .atom "x"]],
        .atom "2"],
      .ofList [.atom "car", .atom "3"]]
    read none code = .ok program ∧
      Crew.acquireMany 2 ⟨2, 2, none⟩ = ([true, true], ⟨2, 0, none⟩) ∧
      ∃ fuel s', Interpreter.eval fuel .none ⟨.shared ⟨2, 0, none⟩⟩ code .empty =
          some (.error (.carOfNonPair "3"), ⟨.shared ⟨2, 0, none⟩⟩, s') ∧
        s'.frames.size = 2 ∧ s'.printed = #["2"] := by
  intro code program
  have accepted : read Limits.none.nesting code = .ok program := by decide +kernel
  have hinOrder : (Interpreter.eval 30 .none ⟨.inOrder⟩ code .empty).map
      (fun r => (r.1, r.2.1, r.2.2.frames.size, r.2.2.printed)) =
        some (.error (.carOfNonPair "3"), ⟨.inOrder⟩, 2, #["2"]) := by decide +kernel
  obtain ⟨⟨outcome, interpreter, s'⟩, heval, hresult⟩ := Option.map_eq_some_iff.mp hinOrder
  simp only [Prod.mk.injEq] at hresult
  obtain ⟨rfl, rfl, hframes, hprinted⟩ := hresult
  have taken : (Crew.mk 2 0 none).free = 0 := rfl
  obtain ⟨hsame, -⟩ := evaluation_without_slots_is_in_order accepted taken .empty
  obtain ⟨fuel, s₁, hshared, hframes', hprinted'⟩ :=
    (hsame rfl _ _ _).mpr ⟨30, s', heval, rfl, rfl⟩
  exact ⟨accepted, rfl, fuel, s₁, hshared, hframes' ▸ hframes, hprinted'.trans hprinted⟩

/-- On a bounded stack, lists inside lists that have room in order do not have it if the caller
evaluates them itself for want of a slot. -/
theorem nested_list_without_slots_is_too_deep :
    let code := "(list 1 (list 1 (list 1 (list 1 (list 1 2)))))"
    let nested (inner : SExpr) : SExpr := .ofList [.atom "list", .atom "1", inner]
    let limits := Limits.ofCalls 20
    read limits.nesting code = .ok (nested (nested (nested (nested (nested (.atom "2")))))) ∧
      Crew.ofSize 1 = .ok ⟨1, 1, none⟩ ∧
      (∃ fuel s', Interpreter.eval fuel limits ⟨.shared ⟨1, 0, none⟩⟩ code .empty =
        some (.error .tooDeep, ⟨.shared ⟨1, 0, none⟩⟩, s')) ∧
      ∃ fuel v s', Interpreter.eval fuel limits ⟨.inOrder⟩ code .empty =
        some (.ok v, ⟨.inOrder⟩, s') ∧ v.print limits = .ok "(1 (1 (1 (1 (1 2)))))" := by
  intro code nested limits
  have accepted : read limits.nesting code =
      .ok (nested (nested (nested (nested (nested (.atom "2")))))) := by decide +kernel
  have hshared : (Interpreter.eval 80 limits ⟨.shared ⟨1, 0, none⟩⟩ code .empty).map
      (fun r => (r.1, r.2.1)) = some (.error .tooDeep, ⟨.shared ⟨1, 0, none⟩⟩) := by decide +kernel
  have hinOrder : (Interpreter.eval 80 limits ⟨.inOrder⟩ code .empty).map
      (fun r => (r.1.bind (Value.print limits), r.2.1)) =
        some (.ok "(1 (1 (1 (1 (1 2)))))", ⟨.inOrder⟩) := by decide +kernel
  obtain ⟨⟨outcome, interpreter, s₁⟩, heval, hresult⟩ := Option.map_eq_some_iff.mp hshared
  cases hresult
  obtain ⟨⟨outcome', interpreter', s₂⟩, heval', hresult'⟩ := Option.map_eq_some_iff.mp hinOrder
  obtain ⟨hprint, rfl⟩ := Prod.mk.inj hresult'
  cases outcome' with
  | error fault => cases hprint
  | ok v => exact ⟨accepted, rfl, ⟨80, s₁, heval⟩, 80, v, s₂, heval', hprint⟩

end Evlis
