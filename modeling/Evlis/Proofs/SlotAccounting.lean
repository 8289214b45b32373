import Evlis.Proofs.Demand
import Evlis.Proofs.PoolSteps
import Mathlib.Algebra.Order.BigOperators.Group.List
import Mathlib.Algebra.Order.Group.Nat
import Mathlib.Algebra.Ring.Nat

/-!
# Slots of a crew

Every slot that is not free is taken: by a task that has not given it back, or by a thread that is
about to hand over an operand. As the caller is counted like a task, free and taken slots add up to
one more than were free in the beginning, and no slot is ever given back that was not taken.
-/

namespace Evlis

variable {ι : Type}

/-- Whether a slot has been taken for an operand that is still to be handed over. -/
def Control.isSubmit : Control ι → Bool
  | .submit _ _ => true
  | _ => false

def Thread.tasks (thread : Thread ι) : List Nat :=
  thread.control.tasks ++ thread.stack.flatMap Cont.tasks

/-- A thread that takes no slot and knows of the given tasks. -/
structure Thread.KeepsTo (known : List Nat) (thread : Thread ι) : Prop where
  isSubmit : thread.control.isSubmit = false
  tasks : thread.tasks = known

lemma Thread.KeepsTo.subset {known : List Nat} {thread : Thread ι} (h : thread.KeepsTo known) :
    thread.tasks ⊆ known := by
  rw [h.tasks]
  exact List.Subset.refl known

namespace Machine

/-- A thread that fails, or goes on with a value or an expression, knows of the tasks that its
stack knows of. -/
lemma keepsTo_own {control : Control ι} (own : control.isOwn) (stack : List (Cont ι)) :
    (Thread.mk control stack).KeepsTo (stack.flatMap Cont.tasks) := by
  cases control with
  | fork | submit | join => cases own
  | _ => exact ⟨rfl, rfl⟩

lemma await_cases (limits : Limits) (cont : Cont ι) (e : Value ι) (env : Env ι)
    (stack : List (Cont ι)) (s : State ι) :
    (await limits cont e env stack s).1 = ⟨.enter e env, cont :: stack⟩ ∨
      (await limits cont e env stack s).1 = ⟨.fail .tooDeep, stack⟩ := by
  unfold await
  split
  · exact .inl rfl
  · exact .inr rfl

lemma keepsTo_await (limits : Limits) {cont : Cont ι} (hcont : cont.tasks = []) (e : Value ι)
    (env : Env ι) (stack : List (Cont ι)) (s : State ι) :
    (await limits cont e env stack s).1.KeepsTo (stack.flatMap Cont.tasks) := by
  rcases await_cases limits cont e env stack s with hthread | hthread
  · rw [hthread, show stack.flatMap Cont.tasks = (cont :: stack).flatMap Cont.tasks by simp [hcont]]
    exact keepsTo_own rfl (cont :: stack)
  · rw [hthread]
    exact keepsTo_own rfl stack

variable [Marking ι] (limits : Limits) (stack : List (Cont ι)) (s : State ι)

lemma keepsTo_apply (call : Value ι) :
    (apply limits call stack s).1.KeepsTo (stack.flatMap Cont.tasks) := by
  unfold apply
  split
  · split <;> exact keepsTo_own rfl stack
  · split <;> exact keepsTo_own rfl stack
  · exact keepsTo_own rfl stack
  · exact keepsTo_own rfl stack

lemma keepsTo_finish (purpose : Purpose) (operands : Value ι) :
    (finish limits purpose operands stack s).1.KeepsTo (stack.flatMap Cont.tasks) := by
  cases purpose with
  | collect => exact keepsTo_own rfl stack
  | call => exact keepsTo_apply limits stack s operands

lemma keepsTo_nextOperand (values : List (Value ι)) (rest : Value ι) (env : Env ι)
    (purpose : Purpose) :
    (nextOperand limits values rest env purpose stack s).1.KeepsTo (stack.flatMap Cont.tasks) := by
  unfold nextOperand
  split
  · exact keepsTo_await limits rfl _ env stack s
  · split
    · exact keepsTo_finish limits stack _ purpose _
    · exact keepsTo_own rfl stack

omit [Marking ι] in
lemma keepsTo_nextBinding (b : Binding ι) :
    (nextBinding limits b stack s).1.KeepsTo (stack.flatMap Cont.tasks) := by
  rw [nextBinding_eq]
  split
  · exact keepsTo_own rfl stack
  · exact keepsTo_await limits rfl _ _ stack s
  · split <;> exact keepsTo_own rfl stack

lemma keepsTo_operands (mode : Mode) (exprs : Value ι) (env : Env ι) (purpose : Purpose) :
    (operands limits mode exprs env purpose stack s).1.KeepsTo (stack.flatMap Cont.tasks) := by
  unfold operands
  split
  · exact keepsTo_await limits rfl _ env stack s
  · exact keepsTo_nextOperand limits stack s _ _ env purpose

lemma keepsTo_evaluate [DecidableEq ι] (mode : Mode) (e : Value ι) (env : Env ι) :
    (evaluate limits mode e env stack s).1.KeepsTo (stack.flatMap Cont.tasks) := by
  rw [evaluate_eq_pursue]
  unfold pursue
  split
  · exact keepsTo_own rfl stack
  · exact keepsTo_own rfl stack
  · exact keepsTo_own rfl stack
  · exact keepsTo_operands limits stack s mode _ env _
  · exact keepsTo_await limits rfl _ env stack s
  · exact keepsTo_await limits rfl _ env stack s
  · exact keepsTo_nextBinding limits stack _ _

lemma keepsTo_resume (cont : Cont ι) (v : Value ι) :
    (resume limits cont v stack s).1.KeepsTo ((cont :: stack).flatMap Cont.tasks) := by
  cases cont with
  | operand values rest env purpose => exact keepsTo_nextOperand limits stack s _ rest env purpose
  | branch consequent alternative env => exact keepsTo_own rfl stack
  | second e env => exact keepsTo_own rfl stack
  | bind name b => exact keepsTo_nextBinding limits stack _ _
  | share rest env purpose =>
    simp only [resume]
    split
    · exact keepsTo_own rfl stack
    · exact ⟨rfl, rfl⟩
  | inline sharing => exact ⟨rfl, rfl⟩

/-- A thread that makes a step on its own takes no slot, hears of no tasks and forgets none. -/
lemma keepsTo_step [DecidableEq ι] (mode : Mode) {thread : Thread ι}
    (own : thread.control.isOwn) : (step limits mode thread s).1.KeepsTo thread.tasks := by
  obtain ⟨control, stack⟩ := thread
  cases control with
  | enter e env => exact keepsTo_evaluate limits stack s mode e env
  | bounce e env => exact keepsTo_evaluate limits stack s mode e env
  | give v =>
    cases stack with
    | nil => exact keepsTo_own rfl []
    | cons cont stack => exact keepsTo_resume limits stack s cont v
  | fail fault => exact keepsTo_own rfl stack
  | fork | submit | join => cases own

end Machine

/-- The slots that go with a task: its own until it is given back, and the one it has taken for an
operand. -/
def Task.slots (task : Task ι) : Nat :=
  (if task.phase = .queued ∨ task.phase = .running then 1 else 0) +
    if task.thread.control.isSubmit then 1 else 0

/-- The slots that are taken, with one for the caller. -/
def Pool.taken (p : Pool ι) : Nat := (p.tasks.toList.map Task.slots).sum

lemma Task.slots_running {thread : Thread ι} (h : thread.control.isSubmit = false) :
    (Task.mk thread .running).slots = 1 := by
  simp [slots, h]

lemma Task.slots_submit (e : Value ι) (sharing : Sharing ι) (stack : List (Cont ι)) :
    (Task.mk ⟨.submit e sharing, stack⟩ .running).slots = 2 := rfl

lemma Task.one_le_slots (thread : Thread ι) : 1 ≤ (Task.mk thread .running).slots := by
  simp [slots]

lemma Control.isSubmit_of_isOwn {control : Control ι} (own : control.isOwn) :
    control.isSubmit = false := by
  cases control with
  | submit e sharing => cases own
  | _ => rfl

lemma Thread.isSubmit_of_outcome {thread : Thread ι} {outcome : Except Fault (Value ι)}
    (h : thread.outcome? = some outcome) : thread.control.isSubmit = false := by
  obtain ⟨control, stack⟩ := thread
  cases control with
  | submit e sharing => cases h
  | _ => rfl

lemma sum_map_set (cost : Task ι → Nat) {tasks : List (Task ι)} {number : Nat} {task : Task ι}
    (h : tasks[number]? = some task) (task' : Task ι) :
    ((tasks.set number task').map cost).sum + cost task =
      (tasks.map cost).sum + cost task' := by
  induction tasks generalizing number with
  | nil => cases h
  | cons first tasks ih =>
    cases number with
    | zero =>
      cases h
      simp only [List.set_cons_zero, List.map_cons, List.sum_cons]
      omega
    | succ number =>
      have hrest := ih h
      simp only [List.set_cons_succ, List.map_cons, List.sum_cons]
      omega

lemma add_le_sum_map (cost : Task ι → Nat) {tasks : List (Task ι)} {number : Nat}
    {caller task : Task ι} (hcaller : tasks[0]? = some caller) (h : tasks[number]? = some task)
    (forked : number ≠ 0) : cost caller + cost task ≤ (tasks.map cost).sum := by
  obtain ⟨number, rfl⟩ := Nat.exists_eq_succ_of_ne_zero forked
  cases tasks with
  | nil => cases hcaller
  | cons first tasks =>
    cases hcaller
    rw [List.getElem?_cons_succ] at h
    have hle : cost task ≤ (tasks.map cost).sum :=
      List.le_sum_of_mem (List.mem_map_of_mem (List.mem_of_getElem? h))
    rw [List.map_cons, List.sum_cons]
    omega

/-- Whether the caller has its place in front of all tasks. -/
def Pool.HasCaller (p : Pool ι) : Prop := ∃ thread, p.tasks[0]? = some ⟨thread, .running⟩

namespace Pool.HasCaller

variable {p : Pool ι} {number : Nat} {task : Task ι}

lemma set (h : p.HasCaller) (htask : p.tasks[number]? = some task) {task' : Task ι}
    (hphase : number = 0 → task'.phase = .running) :
    ∃ thread, (p.tasks.setIfInBounds number task')[0]? = some ⟨thread, .running⟩ := by
  by_cases hnumber : number = 0
  · subst hnumber
    obtain ⟨thread, phase⟩ := task'
    obtain rfl : phase = .running := hphase rfl
    have hlt := (Array.getElem?_eq_some_iff.mp htask).1
    exact ⟨thread, Array.getElem?_setIfInBounds_self_of_lt hlt⟩
  · rw [Array.getElem?_setIfInBounds_ne hnumber]
    exact h

lemma push (h : p.HasCaller) (htask : p.tasks[number]? = some task) (thread : Thread ι)
    (new : Task ι) :
    ∃ caller, ((p.tasks.setIfInBounds number ⟨thread, .running⟩).push new)[0]? =
      some ⟨caller, .running⟩ := by
  have hset : ∃ caller, (p.tasks.setIfInBounds number ⟨thread, .running⟩)[0]? =
      some ⟨caller, .running⟩ := h.set htask fun _ => rfl
  obtain ⟨caller, hcaller⟩ := hset
  have hlt := (Array.getElem?_eq_some_iff.mp hcaller).1
  refine ⟨caller, ?_⟩
  rw [Array.getElem?_push, if_neg hlt.ne]
  exact hcaller

lemma forked (h : p.HasCaller) (htask : p.tasks[number]? = some task)
    (hphase : task.phase ≠ .running) : number ≠ 0 := by
  rintro rfl
  obtain ⟨thread, hcaller⟩ := h
  rw [htask] at hcaller
  cases hcaller
  exact hphase rfl

lemma two_le_taken (h : p.HasCaller) {thread : Thread ι}
    (htask : p.tasks[number]? = some ⟨thread, .running⟩) (forked : number ≠ 0) : 2 ≤ p.taken := by
  obtain ⟨caller, hcaller⟩ := h
  rw [← Array.getElem?_toList] at htask hcaller
  have hle := add_le_sum_map Task.slots hcaller htask forked
  have hone := Task.one_le_slots thread
  have hone' := Task.one_le_slots caller
  rw [Pool.taken]
  omega

variable [DecidableEq ι] [Marking ι] {limits : Limits} {q : Pool ι}

lemma turn (h : p.HasCaller) (htask : p.tasks[number]? = some task)
    (hturn : Turn limits p number task q) : q.HasCaller := by
  cases hturn with
  | release _ forked => exact h.set htask fun hzero => absurd hzero forked
  | overrelease _ forked => exact h.set htask fun hzero => absurd hzero forked
  | deliver => exact h.set htask fun hzero => absurd hzero (h.forked htask nofun)
  | submit => exact h.push htask _ _
  | strand => exact h.push htask _ _
  | _ => exact h.set htask fun _ => rfl

end Pool.HasCaller

/-- A crew as it is after a turn: only its free slots may have changed. -/
structure Crew.Follows (crew crew' : Crew) : Prop where
  slots : crew'.slots = crew.slots
  refusal : crew'.refusal = crew.refusal
  fits : crew.free ≤ crew.slots → crew'.free ≤ crew'.slots

namespace Crew

variable {crew crew' : Crew}

lemma release_cases (crew : Crew) :
    crew.free < crew.slots ∧ crew.release = .ok { crew with free := crew.free + 1 } ∨
      crew.slots ≤ crew.free ∧ crew.release = .error .tooManyReleases := by
  unfold release
  split
  · exact .inl ⟨‹_›, rfl⟩
  · exact .inr ⟨Nat.le_of_not_lt ‹_›, rfl⟩

lemma follows_release (h : crew.release = .ok crew') : crew.Follows crew' := by
  rcases crew.release_cases with ⟨hlt, hrelease⟩ | ⟨-, hrelease⟩
  · rw [hrelease] at h
    cases h
    exact ⟨rfl, rfl, fun _ => hlt⟩
  · rw [hrelease] at h
    cases h

lemma follows_giveBack (crew : Crew) (refusal : Fault) :
    crew.Follows (Pool.giveBack refusal crew).2 := by
  unfold Pool.giveBack
  split
  · exact follows_release ‹_›
  · exact ⟨rfl, rfl, id⟩

/-- A slot that is given back for a refused operand counts, unless all are free. -/
lemma free_giveBack (crew : Crew) (refusal : Fault) :
    crew.free < crew.slots ∧ (Pool.giveBack refusal crew).2.free = crew.free + 1 ∨
      crew.slots ≤ crew.free ∧ (Pool.giveBack refusal crew).2.free = crew.free := by
  unfold Pool.giveBack
  rcases crew.release_cases with ⟨hlt, hrelease⟩ | ⟨hle, hrelease⟩
  · rw [hrelease]
    exact .inl ⟨hlt, rfl⟩
  · rw [hrelease]
    exact .inr ⟨hle, rfl⟩

end Crew

lemma Turn.crew [DecidableEq ι] [Marking ι] {limits : Limits} {p q : Pool ι} {number : Nat}
    {task : Task ι} (hturn : Turn limits p number task q) : p.crew.Follows q.crew := by
  cases hturn with
  | release _ _ released => exact Crew.follows_release released
  | acquire => exact ⟨rfl, rfl, fun h => (Nat.sub_le _ 1).trans h⟩
  | @refuse _ _ _ refusal => exact p.crew.follows_giveBack refusal
  | strand => exact p.crew.follows_giveBack .tooDeep
  | _ => exact ⟨rfl, rfl, id⟩

/-! ## What a turn does to the slots -/

section Books

variable {p q : Pool ι} {number : Nat} {task : Task ι}

lemma Pool.taken_set (htask : p.tasks[number]? = some task) {task' : Task ι}
    (htasks : q.tasks = p.tasks.setIfInBounds number task') :
    q.taken + task.slots = p.taken + task'.slots := by
  rw [taken, taken, htasks, Array.toList_setIfInBounds]
  exact sum_map_set Task.slots (by rwa [Array.getElem?_toList]) task'

lemma Pool.taken_update {thread : Thread ι} (htask : p.tasks[number]? = some ⟨thread, .running⟩)
    (hbefore : thread.control.isSubmit = false) {r : Thread ι × State ι}
    (hafter : r.1.control.isSubmit = false) : (p.update number r).taken = p.taken := by
  have hsum := taken_set (q := p.update number r) htask rfl
  rw [Task.slots_running hbefore, Task.slots_running hafter] at hsum
  exact Nat.add_right_cancel hsum

/-- When a thread that has taken a slot for an operand goes on without it, and the operand has
become a task, the slot is that of the task. -/
lemma Pool.taken_push {e : Value ι} {sharing : Sharing ι} {stack : List (Cont ι)}
    (htask : p.tasks[number]? = some ⟨⟨.submit e sharing, stack⟩, .running⟩) {thread : Thread ι}
    (hthread : thread.control.isSubmit = false) {env : Env ι}
    (htasks : q.tasks =
      (p.tasks.setIfInBounds number ⟨thread, .running⟩).push ⟨.start e env, .queued⟩) :
    q.taken = p.taken := by
  rw [← Array.getElem?_toList] at htask
  have hsum := sum_map_set Task.slots htask ⟨thread, .running⟩
  rw [Task.slots_submit, Task.slots_running hthread] at hsum
  have hnew : (Task.mk (.start e env : Thread ι) .queued).slots = 1 := rfl
  rw [taken, taken, htasks, Array.toList_push, Array.toList_setIfInBounds, List.map_append,
    List.sum_append, List.map_singleton, List.sum_singleton, hnew]
  omega

lemma Pool.two_le_taken_of_submit {e : Value ι} {sharing : Sharing ι} {stack : List (Cont ι)}
    (htask : p.tasks[number]? = some ⟨⟨.submit e sharing, stack⟩, .running⟩) : 2 ≤ p.taken := by
  rw [← Array.getElem?_toList] at htask
  exact List.le_sum_of_mem (List.mem_map_of_mem (List.mem_of_getElem? htask))

/-- What becomes of free and taken slots in a turn: their sum stays the same, or the slot of a
stranded operand is counted twice, or a slot is given back where all are free. -/
inductive Books (limits : Limits) (number : Nat) (p q : Pool ι) : Prop where
  | even (sum : q.crew.free + q.taken = p.crew.free + p.taken)
  | stranded (cramped : ¬ p.findsRoom limits number)
      (sum : p.crew.free + p.taken ≤ q.crew.free + q.taken)
  | full (allFree : p.crew.slots ≤ p.crew.free) (twoTaken : 2 ≤ p.taken)
      (free : q.crew.free = p.crew.free) (taken : q.taken + 1 = p.taken)

namespace Books

variable {limits : Limits}

lemma of_set (htask : p.tasks[number]? = some task) {task' : Task ι}
    (htasks : q.tasks = p.tasks.setIfInBounds number task')
    (hfree : q.crew.free + task'.slots = p.crew.free + task.slots) : Books limits number p q := by
  have hsum := Pool.taken_set htask htasks
  exact .even (by omega)

lemma of_update {thread : Thread ι} (htask : p.tasks[number]? = some ⟨thread, .running⟩)
    (hbefore : thread.control.isSubmit = false) {r : Thread ι × State ι}
    (hafter : r.1.control.isSubmit = false) : Books limits number p (p.update number r) :=
  .even (congrArg (p.crew.free + ·) (Pool.taken_update htask hbefore hafter))

end Books

/-- A stranded operand keeps the slot that is given back for it. -/
lemma Pool.sum_le_strand {e : Value ι} {sharing : Sharing ι} {stack : List (Cont ι)}
    (htask : p.tasks[number]? = some ⟨⟨.submit e sharing, stack⟩, .running⟩) (refusal : Fault) :
    p.crew.free + p.taken ≤ (p.strand refusal e sharing.env stack number).crew.free +
      (p.strand refusal e sharing.env stack number).taken := by
  have hthread : (Control.fail (giveBack refusal p.crew).1 : Control ι).isSubmit = false := rfl
  have htaken : (p.strand refusal e sharing.env stack number).taken = p.taken :=
    taken_push htask hthread rfl
  have hfree : (p.strand refusal e sharing.env stack number).crew.free =
      (giveBack refusal p.crew).2.free := rfl
  rcases p.crew.free_giveBack refusal with hgiven | hgiven <;> omega

variable [DecidableEq ι] [Marking ι] {limits : Limits}

lemma Turn.books (hturn : Turn limits p number task q) (htask : p.tasks[number]? = some task)
    (hcaller : p.HasCaller) : Books limits number p q := by
  cases hturn with
  | start => exact .of_set htask rfl rfl
  | @release thread outcome crew ended forked released =>
    rcases p.crew.release_cases with ⟨-, hrelease⟩ | ⟨-, hrelease⟩
    · rw [hrelease] at released
      cases released
      refine .of_set htask rfl ?_
      simp [Task.slots, Thread.isSubmit_of_outcome ended, Pool.put]
    · rw [hrelease] at released
      cases released
  | @overrelease thread outcome fault ended forked refused =>
    rcases p.crew.release_cases with ⟨-, hrelease⟩ | ⟨hle, -⟩
    · rw [hrelease] at refused
      cases refused
    · have hsum : (p.put number ⟨.fail fault, []⟩ .released).taken + 1 = p.taken + 0 := by
        have hset := Pool.taken_set (q := p.put number ⟨.fail fault, []⟩ .released) htask rfl
        rwa [Task.slots_running (Thread.isSubmit_of_outcome ended)] at hset
      exact .full hle (hcaller.two_le_taken htask forked) rfl hsum
  | deliver => exact .of_set htask rfl rfl
  | work own unfinished =>
    exact .of_update htask (Control.isSubmit_of_isOwn own) (Machine.keepsTo_step _ _ _ own).isSubmit
  | gather none => exact .of_update htask rfl rfl
  | acquire more free =>
    refine .of_set htask rfl ?_
    rw [Task.slots_submit, Task.slots_running rfl]
    dsimp only [Pool.update]
    omega
  | inline more taken =>
    refine .of_update htask rfl ?_
    rcases Machine.await_cases .. with hthread | hthread <;> rw [hthread] <;> rfl
  | submit welcome room =>
    exact .even (congrArg (p.crew.free + ·) (Pool.taken_push htask rfl rfl))
  | @refuse e sharing stack refusal refused =>
    have hsum := Pool.taken_set (q := { p with crew := (Pool.giveBack refusal p.crew).2 }.update
      number (⟨.fail (Pool.giveBack refusal p.crew).1, stack⟩, p.state)) htask rfl
    rw [Task.slots_submit, Task.slots_running rfl] at hsum
    rcases p.crew.free_giveBack refusal with ⟨-, hfree⟩ | ⟨hle, hfree⟩
    · refine .even ?_
      dsimp only [Pool.update] at hsum ⊢
      omega
    · exact .full hle (Pool.two_le_taken_of_submit htask) hfree (by omega)
  | strand welcome cramped =>
    exact .stranded (Pool.not_findsRoom htask welcome cramped) (Pool.sum_le_strand htask .tooDeep)
  | combine list state => exact .of_update htask rfl (Machine.keepsTo_finish ..).isSubmit
  | ready => exact .of_update htask rfl rfl
  | collect delivered => exact .of_update htask rfl rfl
  | fault delivered => exact .of_update htask rfl rfl

end Books

/-- The books of a crew that was as given in the beginning. -/
structure Balanced (crew : Crew) (p : Pool ι) : Prop where
  slots : p.crew.slots = crew.slots
  refusal : p.crew.refusal = crew.refusal
  caller : p.HasCaller
  balance : p.crew.free + p.taken = crew.free + 1

namespace Balanced

variable {crew : Crew} {p q : Pool ι} {number : Nat} {task : Task ι}

lemma ofThread (crew : Crew) {thread : Thread ι} (h : thread.control.isSubmit = false)
    (s : State ι) : Balanced crew (Pool.ofThread crew thread s) := by
  refine ⟨rfl, rfl, ⟨thread, rfl⟩, ?_⟩
  simp [Pool.taken, Pool.ofThread, Task.slots_running h]

lemma start (crew : Crew) (e : Value ι) (env : Env ι) (s : State ι) :
    Balanced crew (Pool.ofThread crew (.start e env) s) :=
  ofThread crew rfl s

lemma release_eq (h : Balanced crew p) (hfits : crew.free ≤ crew.slots) (htwo : 2 ≤ p.taken) :
    p.crew.release = .ok { p.crew with free := p.crew.free + 1 } := by
  have hbalance := h.balance
  have hslots := h.slots
  exact if_pos (by omega)

lemma release_running (h : Balanced crew p) (hfits : crew.free ≤ crew.slots) {thread : Thread ι}
    (htask : p.tasks[number]? = some ⟨thread, .running⟩) (forked : number ≠ 0) :
    p.crew.release = .ok { p.crew with free := p.crew.free + 1 } :=
  h.release_eq hfits (h.caller.two_le_taken htask forked)

lemma release_submit (h : Balanced crew p) (hfits : crew.free ≤ crew.slots) {e : Value ι}
    {sharing : Sharing ι} {stack : List (Cont ι)}
    (htask : p.tasks[number]? = some ⟨⟨.submit e sharing, stack⟩, .running⟩) :
    p.crew.release = .ok { p.crew with free := p.crew.free + 1 } :=
  h.release_eq hfits (Pool.two_le_taken_of_submit htask)

variable [DecidableEq ι] [Marking ι] {limits : Limits}

/-- A turn keeps the balance if there is room for an operand that is handed over in it. -/
theorem turn (h : Balanced crew p) (hfits : crew.free ≤ crew.slots)
    (room : p.findsRoom limits number) (htask : p.tasks[number]? = some task)
    (hturn : Turn limits p number task q) : Balanced crew q := by
  have hbalance := h.balance
  have hslots := h.slots
  refine ⟨hturn.crew.slots.trans h.slots, hturn.crew.refusal.trans h.refusal,
    h.caller.turn htask hturn, ?_⟩
  cases hturn.books htask h.caller with
  | even sum => exact sum.trans hbalance
  | stranded cramped => exact absurd room cramped
  | full allFree twoTaken => omega

end Balanced

/-- No slot of a crew that was as given in the beginning is lost. -/
structure Covered (crew : Crew) (p : Pool ι) : Prop where
  slots : p.crew.slots = crew.slots
  caller : p.HasCaller
  fits : p.crew.free ≤ p.crew.slots
  cover : crew.free + 1 ≤ p.crew.free + p.taken

namespace Covered

variable {crew : Crew} {p q : Pool ι} {number : Nat} {task : Task ι}

lemma ofThread {crew : Crew} (hfits : crew.free ≤ crew.slots) {thread : Thread ι}
    (h : thread.control.isSubmit = false) (s : State ι) :
    Covered crew (Pool.ofThread crew thread s) :=
  ⟨rfl, ⟨thread, rfl⟩, hfits, (Balanced.ofThread crew h s).balance.ge⟩

lemma strand (h : Covered crew p) {e : Value ι} {sharing : Sharing ι} {stack : List (Cont ι)}
    (htask : p.tasks[number]? = some ⟨⟨.submit e sharing, stack⟩, .running⟩) (refusal : Fault) :
    Covered crew (p.strand refusal e sharing.env stack number) := by
  have hcrew := p.crew.follows_giveBack refusal
  exact ⟨hcrew.slots.trans h.slots, h.caller.push htask _ _, hcrew.fits h.fits,
    h.cover.trans (Pool.sum_le_strand htask refusal)⟩

variable [DecidableEq ι] [Marking ι] {limits : Limits}

/-- In no turn a slot is lost. -/
theorem turn (h : Covered crew p) (hfits : crew.free ≤ crew.slots)
    (htask : p.tasks[number]? = some task) (hturn : Turn limits p number task q) :
    Covered crew q := by
  have hcover := h.cover
  have hslots := h.slots
  refine ⟨hturn.crew.slots.trans h.slots, h.caller.turn htask hturn, hturn.crew.fits h.fits, ?_⟩
  cases hturn.books htask h.caller with
  | even sum => exact hcover.trans sum.ge
  | stranded _ sum => exact hcover.trans sum
  | full allFree twoTaken free taken => omega

end Covered

end Evlis
