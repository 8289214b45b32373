import Evlis.Proofs.FrameDiscipline
import Evlis.Proofs.SlotConservation

/-!
# What becomes of tasks that are handed over

Whoever hands over an operand keeps the task in mind until it has its value, unless it fails before.
So a call that returns, and an evaluation that comes to a value, leave no task behind that they or
their tasks have handed over. A call that fails can leave tasks behind: it does not wait for those
that it has not collected.
-/

namespace Evlis

variable {ι : Type}

def Pool.HasValue (p : Pool ι) (number : Nat) : Prop := ∃ v, p.delivered? number = some (.ok v)

def Thread.HasFailed (thread : Thread ι) : Prop := ∃ fault, thread.control = .fail fault

/-- What a thread has to do with a task that it has handed over: it waits for it, or it has its
value, or it has failed. -/
def Pool.Minds (p : Pool ι) (thread : Thread ι) (k : Nat) : Prop :=
  thread.HasFailed ∨ k ∈ thread.tasks ∨ p.HasValue k

lemma Thread.not_hasFailed_of_ok {thread : Thread ι} {v : Value ι}
    (h : thread.outcome? = some (.ok v)) : ¬ thread.HasFailed := by
  rintro ⟨fault, hfault⟩
  rw [Thread.of_outcome_ok h] at hfault
  cases hfault

lemma Thread.tasks_of_ok {thread : Thread ι} {v : Value ι} (h : thread.outcome? = some (.ok v)) :
    thread.tasks = [] := by
  rw [Thread.of_outcome_ok h]
  rfl

section Turns

variable [DecidableEq ι] [Marking ι] {limits : Limits} {p q : Pool ι} {number k : Nat}
  {task : Task ι}

omit [DecidableEq ι] [Marking ι] in
lemma Pool.size_push_set (p : Pool ι) (number : Nat) (task new : Task ι) :
    ((p.tasks.setIfInBounds number task).push new).size = p.tasks.size + 1 := by
  rw [Array.size_push, Array.size_setIfInBounds]

omit [DecidableEq ι] [Marking ι] in
lemma Pool.getElem?_push_set (h : number < p.tasks.size) {task new : Task ι} :
    ((p.tasks.setIfInBounds number task).push new)[number]? = some task := by
  rw [Array.getElem?_push, Array.size_setIfInBounds, if_neg h.ne,
    Array.getElem?_setIfInBounds_self_of_lt h]

omit [DecidableEq ι] [Marking ι] in
lemma Pool.getElem?_push_set_ne (hne : number ≠ k) {other task new : Task ι}
    (hother : p.tasks[k]? = some other) :
    ((p.tasks.setIfInBounds number task).push new)[k]? = some other := by
  have hlt : k < p.tasks.size := (Array.getElem?_eq_some_iff.mp hother).1
  rw [Array.getElem?_push, Array.size_setIfInBounds, if_neg hlt.ne,
    Array.getElem?_setIfInBounds_ne hne, hother]

omit [DecidableEq ι] [Marking ι] in
lemma Pool.delivered_of_finished {outcome : Except Fault (Value ι)}
    (h : p.delivered? k = some outcome)
    (hfinished : ∀ thread, p.tasks[k]? = some ⟨thread, .finished⟩ →
      q.tasks[k]? = some ⟨thread, .finished⟩) : q.delivered? k = some outcome := by
  obtain ⟨thread, hthread, houtcome⟩ := of_delivered h
  simp only [delivered?, hfinished thread hthread, if_true, houtcome]

namespace Turn

/-- Only handing over an operand makes a task, and whoever does it knows of it or fails. -/
lemma size_cases (hturn : Turn limits p number task q) (htask : p.tasks[number]? = some task) :
    q.tasks.size = p.tasks.size ∨ q.tasks.size = p.tasks.size + 1 ∧
      ∃ task', q.tasks[number]? = some task' ∧ q.Minds task'.thread p.tasks.size := by
  have hlt : number < p.tasks.size := (Array.getElem?_eq_some_iff.mp htask).1
  cases hturn with
  | submit =>
    refine .inr ⟨Pool.size_push_set .., _, Pool.getElem?_push_set hlt, .inr (.inl ?_)⟩
    exact List.mem_cons_self
  | strand =>
    exact .inr ⟨Pool.size_push_set .., _, Pool.getElem?_push_set hlt, .inl ⟨_, rfl⟩⟩
  | _ => exact .inl (Array.size_setIfInBounds ..)

lemma size_le (hturn : Turn limits p number task q) (htask : p.tasks[number]? = some task) :
    p.tasks.size ≤ q.tasks.size := by
  rcases hturn.size_cases htask with hsize | ⟨hsize, -⟩ <;> omega

lemma other (hturn : Turn limits p number task q) (hne : number ≠ k) {other : Task ι}
    (hother : p.tasks[k]? = some other) : q.tasks[k]? = some other := by
  have hset (task' : Task ι) : (p.tasks.setIfInBounds number task')[k]? = some other := by
    rw [Array.getElem?_setIfInBounds_ne hne, hother]
  cases hturn with
  | submit => exact Pool.getElem?_push_set_ne hne hother
  | strand => exact Pool.getElem?_push_set_ne hne hother
  | _ => exact hset _

/-- A task that has come to its end has no more turns. -/
lemma ne_of_finished (hturn : Turn limits p number task q)
    (htask : p.tasks[number]? = some task) {thread : Thread ι}
    (hfinished : p.tasks[k]? = some ⟨thread, .finished⟩) : number ≠ k := by
  rintro rfl
  rw [htask] at hfinished
  cases hfinished
  cases hturn

lemma delivered (hturn : Turn limits p number task q) (htask : p.tasks[number]? = some task)
    {outcome : Except Fault (Value ι)} (h : p.delivered? k = some outcome) :
    q.delivered? k = some outcome :=
  Pool.delivered_of_finished h fun _ hfinished =>
    hturn.other (hturn.ne_of_finished htask hfinished) hfinished

/-- The only tasks that a thread forgets, unless it fails, are those whose values it has. -/
lemma known (hturn : Turn limits p number task q) (htask : p.tasks[number]? = some task)
    (hk : k ∈ task.thread.tasks) :
    ∃ task', q.tasks[number]? = some task' ∧ p.Minds task'.thread k := by
  have hlt : number < p.tasks.size := (Array.getElem?_eq_some_iff.mp htask).1
  have hset (task' : Task ι) : (p.tasks.setIfInBounds number task')[number]? = some task' :=
    Array.getElem?_setIfInBounds_self_of_lt hlt
  cases hturn with
  | start => exact ⟨_, hset _, .inr (.inl hk)⟩
  | release => exact ⟨_, hset _, .inr (.inl hk)⟩
  | overrelease => exact ⟨_, hset _, .inl ⟨_, rfl⟩⟩
  | deliver => exact ⟨_, hset _, .inr (.inl hk)⟩
  | work own unfinished =>
    refine ⟨_, hset _, .inr (.inl ?_)⟩
    rw [(Machine.keepsTo_step _ _ _ own).tasks]
    exact hk
  | gather none =>
    refine ⟨_, hset _, .inr (.inl ?_)⟩
    exact (((List.reverse_perm _).filterMap _).append_right _).symm.subset hk
  | acquire more free => exact ⟨_, hset _, .inr (.inl hk)⟩
  | inline more taken =>
    refine ⟨_, hset _, ?_⟩
    rcases Machine.await_cases .. with hthread | hthread <;> rw [hthread]
    · exact .inr (.inl hk)
    · exact .inl ⟨_, rfl⟩
  | submit =>
    exact ⟨_, Pool.getElem?_push_set hlt, .inr (.inl (List.mem_cons_of_mem _ hk))⟩
  | refuse refused => exact ⟨_, hset _, .inl ⟨_, rfl⟩⟩
  | strand => exact ⟨_, Pool.getElem?_push_set hlt, .inl ⟨_, rfl⟩⟩
  | combine list state =>
    refine ⟨_, hset _, .inr (.inl ?_)⟩
    rw [(Machine.keepsTo_finish ..).tasks]
    exact hk
  | ready => exact ⟨_, hset _, .inr (.inl hk)⟩
  | collect delivered =>
    refine ⟨_, hset _, .inr ?_⟩
    rcases List.mem_cons.mp hk with rfl | hk
    · exact .inr ⟨_, delivered⟩
    · exact .inl hk
  | fault delivered => exact ⟨_, hset _, .inl ⟨_, rfl⟩⟩

lemma failed (hturn : Turn limits p number task q) (htask : p.tasks[number]? = some task)
    (hfailed : task.thread.HasFailed) :
    ∃ task', q.tasks[number]? = some task' ∧ task'.thread.HasFailed := by
  have hlt : number < p.tasks.size := (Array.getElem?_eq_some_iff.mp htask).1
  have hset (task' : Task ι) : (p.tasks.setIfInBounds number task')[number]? = some task' :=
    Array.getElem?_setIfInBounds_self_of_lt hlt
  obtain ⟨fault, hfault⟩ := hfailed
  cases hturn with
  | start => exact ⟨_, hset _, fault, hfault⟩
  | release => exact ⟨_, hset _, fault, hfault⟩
  | overrelease => exact ⟨_, hset _, _, rfl⟩
  | deliver => exact ⟨_, hset _, fault, hfault⟩
  | @work thread own unfinished =>
    obtain ⟨control, stack⟩ := thread
    cases hfault
    cases unfinished
  | _ => cases hfault

/-- A turn of any task leaves a task minded that was handed over. -/
theorem minds (hturn : Turn limits p number task q) (htask : p.tasks[number]? = some task)
    {t : Nat} {parent : Task ι} (hparent : p.tasks[t]? = some parent)
    (hminds : p.Minds parent.thread k) :
    ∃ parent', q.tasks[t]? = some parent' ∧ q.Minds parent'.thread k := by
  have hvalue : p.HasValue k → q.HasValue k := fun ⟨v, hv⟩ => ⟨v, hturn.delivered htask hv⟩
  by_cases hne : number = t
  · subst hne
    obtain rfl : task = parent := Option.some.inj (htask.symm.trans hparent)
    rcases hminds with hfailed | hknown | hdone
    · obtain ⟨task', htask', hfailed'⟩ := hturn.failed htask hfailed
      exact ⟨task', htask', .inl hfailed'⟩
    · obtain ⟨task', htask', hminds'⟩ := hturn.known htask hknown
      exact ⟨task', htask', hminds'.imp_right (Or.imp_right hvalue)⟩
    · have hlt : number < p.tasks.size := (Array.getElem?_eq_some_iff.mp htask).1
      have hlt' : number < q.tasks.size := hlt.trans_le (hturn.size_le htask)
      exact ⟨_, Array.getElem?_eq_getElem hlt', .inr (.inr (hvalue hdone))⟩
  · exact ⟨parent, hturn.other hne hparent, hminds.imp_right (Or.imp_right hvalue)⟩

end Turn

omit [DecidableEq ι] [Marking ι] in
/-- An operand that is left in the queue is minded by the thread that has failed for it. -/
lemma Pool.strand_minds {e : Value ι} {sharing : Sharing ι} {stack : List (Cont ι)}
    (htask : p.tasks[number]? = some ⟨⟨.submit e sharing, stack⟩, .running⟩) (fault : Fault)
    {t : Nat} {parent : Task ι} (hparent : p.tasks[t]? = some parent)
    (hminds : p.Minds parent.thread k) :
    ∃ parent', (p.strand fault e sharing.env stack number).tasks[t]? = some parent' ∧
      (p.strand fault e sharing.env stack number).Minds parent'.thread k := by
  by_cases hne : number = t
  · subst hne
    exact ⟨_, getElem?_push_set (Array.getElem?_eq_some_iff.mp htask).1, .inl ⟨_, rfl⟩⟩
  · have hvalue : p.HasValue k → (p.strand fault e sharing.env stack number).HasValue k := by
      rintro ⟨v, hv⟩
      refine ⟨v, delivered_of_finished hv fun thread hthread => ?_⟩
      refine getElem?_push_set_ne ?_ hthread
      rintro rfl
      rw [htask] at hthread
      cases hthread
    exact ⟨parent, getElem?_push_set_ne hne hparent, hminds.imp_right (Or.imp_right hvalue)⟩

end Turns

section Runs

variable [DecidableEq ι] [Marking ι]

/-- The tasks that a step of the given task has added to the pool, each behind that task. -/
def Pool.handovers (p : Pool ι) (number : Nat) (q : Pool ι) : List (Nat × Nat) :=
  (List.range' p.tasks.size (q.tasks.size - p.tasks.size)).map fun k => (number, k)

/-- A run of the pool, of which `forks` lists who has handed over what: steps of its tasks in any
order, with a crew that starts and stops to take work, and in which handing over an operand can go
wrong when the operand is in the queue already. -/
inductive Pool.Run (limits : Limits) (p : Pool ι) : List (Nat × Nat) → Pool ι → Prop where
  | refl : Run limits p [] p
  | step {forks : List (Nat × Nat)} {q r : Pool ι} {number : Nat} (run : Run limits p forks q)
      (h : q.step limits number = some r) : Run limits p (q.handovers number r ++ forks) r
  | mood {forks : List (Nat × Nat)} {q : Pool ι} (run : Run limits p forks q)
      (refusal : Option Fault) : Run limits p forks { q with crew := { q.crew with refusal } }
  | strand {forks : List (Nat × Nat)} {q : Pool ι} {number : Nat} {e : Value ι}
      {sharing : Sharing ι} {stack : List (Cont ι)} (run : Run limits p forks q)
      (htask : q.tasks[number]? = some ⟨⟨.submit e sharing, stack⟩, .running⟩)
      (welcome : q.crew.refusal = none) (fault : Fault) :
      Run limits p (q.handovers number (q.strand fault e sharing.env stack number) ++ forks)
        (q.strand fault e sharing.env stack number)

/-- Steps of the tasks with the given numbers, one after the other, and who has handed over what in
them besides `forks`. -/
def Pool.trace (limits : Limits) : List Nat → List (Nat × Nat) → Pool ι →
    Option (List (Nat × Nat) × Pool ι)
  | [], forks, p => some (forks, p)
  | number :: schedule, forks, p =>
    (p.step limits number).bind fun q => trace limits schedule (p.handovers number q ++ forks) q

lemma Pool.Run.trace {limits : Limits} {p q r : Pool ι} {forks forks' : List (Nat × Nat)}
    {schedule : List Nat} (run : p.Run limits forks q)
    (h : q.trace limits schedule forks = some (forks', r)) : p.Run limits forks' r := by
  induction schedule generalizing q forks with
  | nil =>
    cases h
    exact run
  | cons number schedule ih =>
    obtain ⟨q₁, hstep, htrace⟩ := Option.bind_eq_some_iff.mp h
    exact ih (run.step hstep) htrace

/-- The tasks that a task has handed over, and those that they have, and so on. -/
def Descends (forks : List (Nat × Nat)) : Nat → Nat → Prop :=
  Relation.TransGen fun t k => (t, k) ∈ forks

variable {limits : Limits} {p q : Pool ι} {forks : List (Nat × Nat)} {number : Nat}

/-- In a run from `p`, the tasks handed over are new, and each is minded. -/
structure Handed (p : Pool ι) (forks : List (Nat × Nat)) (q : Pool ι) : Prop where
  size : p.tasks.size ≤ q.tasks.size
  isNew : ∀ t k, (t, k) ∈ forks → p.tasks.size ≤ k
  minds : ∀ t k, (t, k) ∈ forks →
    ∃ task, q.tasks[t]? = some task ∧ q.Minds task.thread k

omit [DecidableEq ι] [Marking ι] in
/-- Who minded tasks still does, and whoever hands over a new one minds it. -/
lemma Handed.extend {r : Pool ι} (h : Handed p forks q)
    (hsize : r.tasks.size = q.tasks.size ∨ r.tasks.size = q.tasks.size + 1 ∧
      ∃ task, r.tasks[number]? = some task ∧ r.Minds task.thread q.tasks.size)
    (hminds : ∀ (t k : Nat) (parent : Task ι), q.tasks[t]? = some parent →
      q.Minds parent.thread k → ∃ parent', r.tasks[t]? = some parent' ∧ r.Minds parent'.thread k) :
    Handed p (q.handovers number r ++ forks) r := by
  have hnew (t k : Nat) (hfork : (t, k) ∈ q.handovers number r) : q.tasks.size ≤ k ∧
      ∃ task, r.tasks[t]? = some task ∧ r.Minds task.thread k := by
    rw [Pool.handovers] at hfork
    rcases hsize with hsize | ⟨hsize, task, htask, hnumber⟩
    · simp [hsize] at hfork
    · obtain ⟨rfl, rfl⟩ : t = number ∧ k = q.tasks.size := by simpa [hsize] using hfork
      exact ⟨Nat.le_refl _, task, htask, hnumber⟩
  refine ⟨h.size.trans (by omega), ?_, ?_⟩
  · intro t k hfork
    rcases List.mem_append.mp hfork with hfork | hfork
    · exact h.size.trans (hnew t k hfork).1
    · exact h.isNew t k hfork
  · intro t k hfork
    rcases List.mem_append.mp hfork with hfork | hfork
    · exact (hnew t k hfork).2
    · obtain ⟨parent, hparent, hminded⟩ := h.minds t k hfork
      exact hminds t k parent hparent hminded

theorem Pool.Run.handed (h : p.Run limits forks q) : Handed p forks q := by
  induction h with
  | refl => exact ⟨Nat.le_refl _, fun _ _ h => absurd h List.not_mem_nil,
      fun _ _ h => absurd h List.not_mem_nil⟩
  | mood run refusal ih => exact ⟨ih.size, ih.isNew, ih.minds⟩
  | step run hstep ih =>
    obtain ⟨task, htask, hturn⟩ := Pool.turn_of_step hstep
    exact ih.extend (hturn.size_cases htask) fun _ _ _ => hturn.minds htask
  | strand run htask welcome fault ih =>
    have hlt := (Array.getElem?_eq_some_iff.mp htask).1
    refine ih.extend (.inr ⟨size_push_set .., _, getElem?_push_set hlt, .inl ⟨_, rfl⟩⟩) ?_
    exact fun _ _ _ => strand_minds htask fault

namespace Handed

omit [DecidableEq ι] [Marking ι] in
/-- A task with a value has the values of all tasks that it has handed over. -/
lemma hasValue_of_parent (h : Handed p forks q) {t k : Nat} (hfork : (t, k) ∈ forks)
    (ht : q.HasValue t) : q.HasValue k := by
  obtain ⟨v, hv⟩ := ht
  obtain ⟨thread, hthread, houtcome⟩ := Pool.of_delivered hv
  obtain ⟨task, htask, hminds⟩ := h.minds t k hfork
  obtain rfl : task = ⟨thread, .finished⟩ := Option.some.inj (htask.symm.trans hthread)
  rcases hminds with hfailed | hknown | hvalue
  · exact absurd hfailed (Thread.not_hasFailed_of_ok houtcome)
  · rw [Thread.tasks_of_ok houtcome] at hknown
    cases hknown
  · exact hvalue

omit [DecidableEq ι] [Marking ι] in
/-- As long as a thread has not failed, all that descends from it has come to a value, or descends
from a task that it waits for. -/
theorem descendants (h : Handed p forks q) {task : Task ι} (htask : q.tasks[number]? = some task)
    (hgoes : ¬ task.thread.HasFailed) {k : Nat} (hk : Descends forks number k) :
    q.HasValue k ∨ ∃ j ∈ task.thread.tasks, p.tasks.size ≤ j ∧ (j = k ∨ Descends forks j k) := by
  induction hk with
  | @single k hfork =>
    obtain ⟨task', htask', hminds⟩ := h.minds number k hfork
    obtain rfl : task' = task := Option.some.inj (htask'.symm.trans htask)
    rcases hminds with hfailed | hknown | hvalue
    · exact absurd hfailed hgoes
    · exact .inr ⟨k, hknown, h.isNew number k hfork, .inl rfl⟩
    · exact .inl hvalue
  | @tail t k _ hfork ih =>
    rcases ih with hvalue | ⟨j, hj, hnew, rfl | hdescends⟩
    · exact .inl (h.hasValue_of_parent hfork hvalue)
    · exact .inr ⟨j, hj, hnew, .inr (.single hfork)⟩
    · exact .inr ⟨j, hj, hnew, .inr (hdescends.tail hfork)⟩

end Handed

/-! ## Calls that return and calls that fail -/

/-- A task at the beginning of a call that shares out its operands: it goes about the first, and
`stack` waits for the call. -/
def Pool.Calls (p : Pool ι) (number : Nat) (stack : List (Cont ι)) : Prop :=
  ∃ e env rest purpose,
    p.tasks[number]? = some ⟨⟨.enter e env, .share rest env purpose :: stack⟩, .running⟩

/-- A task that is through with the operands of a call, for which `stack` waits, except that it has
still to collect the given ones. The call returns when there are none, and fails if the first of
them has failed. -/
def Pool.Collects (p : Pool ι) (number : Nat) (underway : List (Operand ι))
    (stack : List (Cont ι)) : Prop :=
  ∃ head values purpose,
    p.tasks[number]? = some ⟨⟨.join head values underway purpose, stack⟩, .running⟩

omit [DecidableEq ι] [Marking ι] in
lemma mem_tasksOf {underway : List (Operand ι)} {k : Nat} :
    k ∈ tasksOf underway ↔ .task k ∈ underway := by
  rw [tasksOf, List.mem_filterMap]
  constructor
  · rintro ⟨operand, hmem, hoperand⟩
    cases operand with
    | task number =>
      cases hoperand
      exact hmem
    | ready v => cases hoperand
  · intro hmem
    exact ⟨.task k, hmem, rfl⟩

omit [DecidableEq ι] [Marking ι] in
/-- The tasks that a call has handed over and that have come to no value are still to be collected,
or descend from such tasks: what `stack` waits for besides is older than the call. -/
lemma Orderly.collects (horderly : Orderly p) {stack : List (Cont ι)}
    (hcalls : p.Calls number stack) (hhanded : Handed p forks q) {underway : List (Operand ι)}
    (hcollects : q.Collects number underway stack) {k : Nat} (hk : Descends forks number k) :
    q.HasValue k ∨ ∃ j, .task j ∈ underway ∧ (j = k ∨ Descends forks j k) := by
  obtain ⟨e, env, rest, purpose, hcall⟩ := hcalls
  obtain ⟨head, values, purpose', htask⟩ := hcollects
  rcases hhanded.descendants htask (by rintro ⟨fault, ⟨⟩⟩) hk with hvalue | ⟨j, hj, hnew, hjk⟩
  · exact .inl hvalue
  · rcases List.mem_append.mp hj with hj | hj
    · exact .inr ⟨j, mem_tasksOf.mp hj, hjk⟩
    · have hold : j < p.tasks.size := (horderly.later number _ hcall j hj).2
      omega

/-- Calls that share out their operands, at any moment in the use of a crew. When a call returns,
all tasks that it has handed over, and all that these have, have come to values. Until then, and so
when it fails because an operand has failed, those that have not are still to be collected, or
descend from such tasks. And no task of an evaluation that has come to a value is left. -/
theorem returning_call_leaves_no_task {crew : Crew} {thread : Thread ι} {s : State ι}
    (begins : thread.Begins limits s)
    (hserving : Relation.ReflTransGen (Pool.Endures limits) (Pool.ofThread crew thread s) p)
    (hrun : p.Run limits forks q) :
    (∀ number stack, p.Calls number stack →
      (q.Collects number [] stack → ∀ k, Descends forks number k → q.HasValue k) ∧
      ∀ underway, q.Collects number underway stack → ∀ k, Descends forks number k →
        q.HasValue k ∨ ∃ j, .task j ∈ underway ∧ (j = k ∨ Descends forks j k)) ∧
    ∀ v, q.caller?.bind Thread.outcome? = some (.ok v) →
      ∀ k, Descends forks 0 k → q.HasValue k := by
  have horderly := Orderly.of_enduring begins hserving
  have hhanded := hrun.handed
  refine ⟨fun number stack hcalls => ⟨?_, ?_⟩, ?_⟩
  · intro hcollects k hk
    rcases horderly.collects hcalls hhanded hcollects hk with hvalue | ⟨j, hj, -⟩
    · exact hvalue
    · cases hj
  · intro underway hcollects k hk
    exact horderly.collects hcalls hhanded hcollects hk
  · intro v hended k hk
    obtain ⟨caller, hcaller, houtcome⟩ := Option.bind_eq_some_iff.mp hended
    obtain ⟨task, htask, rfl⟩ := Option.map_eq_some_iff.mp hcaller
    rcases hhanded.descendants htask (Thread.not_hasFailed_of_ok houtcome) hk with
      hvalue | ⟨j, hj, -⟩
    · exact hvalue
    · rw [Thread.tasks_of_ok houtcome] at hj
      cases hj

/-- The second operand hands over an operand itself, and both have come to values when the call
returns. -/
theorem nested_list_leaves_no_task :
    let exprs : Value Unit := .ofSExpr (.ofList [.atom "1",
      .ofList [.atom "list", .atom "2", .atom "3"]])
    let call := Machine.operands .none .shared exprs [] .collect [] ⟨#[], (), #[], #[]⟩
    let p := Pool.ofThread ⟨2, 2, none⟩ call.1 call.2
    Crew.ofSize 2 = .ok ⟨2, 2, none⟩ ∧ p.Calls 0 [] ∧
      ∃ q, p.Run .none [(1, 2), (0, 1)] q ∧ q.Collects 0 [] [] ∧
        Descends [(1, 2), (0, 1)] 0 2 ∧ q.HasValue 2 := by
  intro exprs call p
  have hcrew : Crew.ofSize 2 = .ok ⟨2, 2, none⟩ := rfl
  have hcalls : p.Calls 0 [] := ⟨_, _, _, _, rfl⟩
  -- task 1 hands over the operand 3 of its own list, as task 2, and waits for it
  have htrace : (p.trace .none [0, 0, 0, 0, 0, 1, 1, 1, 1, 1, 1, 1, 2, 2, 2, 2, 1, 1, 1, 1, 0]
      []).map (fun r => (r.1, r.2.tasks[0]?)) = some ([(1, 2), (0, 1)],
        some ⟨⟨.join (.atom "1") [.ofSExpr (.ofList [.atom "2", .atom "3"])] [] .collect, []⟩,
          .running⟩) := by decide +kernel
  obtain ⟨⟨forks, q⟩, hq, hresult⟩ := Option.map_eq_some_iff.mp htrace
  obtain ⟨rfl, htask⟩ := Prod.mk.inj hresult
  have hrun := (Pool.Run.refl (p := p)).trace hq
  have hcollects : q.Collects 0 [] [] := ⟨_, _, _, htask⟩
  have hdescends : Descends [(1, 2), (0, 1)] 0 2 :=
    (Relation.TransGen.single (by decide)).tail (b := 1) (by decide)
  have hserving : Relation.ReflTransGen (Pool.Endures .none) p p := .refl
  have hleaves := returning_call_leaves_no_task (.operands exprs [] _) hserving hrun
  have hvalue := (hleaves.1 0 [] hcalls).1 hcollects 2 hdescends
  exact ⟨hcrew, hcalls, q, hrun, hcollects, hdescends, hvalue⟩

/-- A call whose second operand fails does not wait for the third, which keeps its slot and prints
its line when the next evaluation is under way. -/
theorem failing_call_leaves_task :
    let names : Value Unit := .ofSExpr (.ofList [.atom "print"])
    let s : State Unit := ⟨#[.filled names names], (), #[], #[]⟩
    let exprs : Value Unit := .ofSExpr (.ofList [.atom "1", .atom "x",
      .ofList [.atom "print", .atom "2"]])
    let call := Machine.operands .none .shared exprs [⟨(), 0⟩] .collect [] s
    let p := Pool.ofThread ⟨2, 2, none⟩ call.1 call.2
    Crew.ofSize 2 = .ok ⟨2, 2, none⟩ ∧ p.Calls 0 [] ∧
      ∃ q r, p.Run .none [(0, 2), (0, 1)] q ∧
        q.caller?.bind Thread.outcome? = some (.error (.unbound "x")) ∧
        q.delivered? 2 = none ∧ q.heldSlots = 1 ∧
        (q.update 0 (.start (.atom "3") [], q.state)).Reaches .none r ∧
        r.caller?.bind Thread.outcome? = none ∧ r.state.printed = #["2"] := by
  intro names s exprs call p
  have hcalls : p.Calls 0 [] := ⟨_, _, _, _, rfl⟩
  -- both operands are handed over, and task 1 fails before task 2 has had a turn
  have htrace : (p.trace .none [0, 0, 0, 0, 0, 0, 0, 1, 1, 1, 1, 0] []).map (fun r =>
      (r.1, r.2.heldSlots)) = some ([(0, 2), (0, 1)], 1) := by decide +kernel
  have hends : (p.trace .none [0, 0, 0, 0, 0, 0, 0, 1, 1, 1, 1, 0] []).map (fun r =>
      (r.2.caller?.bind Thread.outcome?, r.2.delivered? 2)) =
      some (some (.error (.unbound "x")), none) := by decide +kernel
  have hnext : (((p.trace .none [0, 0, 0, 0, 0, 0, 0, 1, 1, 1, 1, 0] []).bind fun r =>
      (r.2.update 0 (.start (.atom "3") [], r.2.state)).follow .none
        [2, 2, 2, 2, 2, 2, 2, 3, 3, 3, 3, 2, 2]).map fun r =>
          (r.caller?.bind Thread.outcome?, r.state.printed)) = some (none, #["2"]) := by
    decide +kernel
  obtain ⟨⟨forks, q⟩, hq, hresult⟩ := Option.map_eq_some_iff.mp htrace
  obtain ⟨rfl, hheld⟩ := Prod.mk.inj hresult
  rw [hq] at hends hnext
  obtain ⟨hended, hdelivered⟩ := Prod.mk.inj (Option.some.inj hends)
  obtain ⟨r, hr, hprinted⟩ := Option.map_eq_some_iff.mp hnext
  obtain ⟨hgoes, hprinted⟩ := Prod.mk.inj hprinted
  have hrun := (Pool.Run.refl (p := p)).trace hq
  exact ⟨rfl, hcalls, q, r, hrun, hended, hdelivered, hheld, Pool.reaches_of_follow hr, hgoes,
    hprinted⟩

end Runs

end Evlis
