import Evlis.Proofs.SlotAccounting

/-!
# Shared evaluations do not get stuck

A task waits only for tasks that were made after it. So if no task can go on, the latest of those
that run waits for one that is still in the queue, for which there is no worker; but then the tasks
that run and the one in the queue have taken more slots than there are.
-/

namespace Evlis

variable {ι : Type}

def Task.workers (task : Task ι) : Nat :=
  if task.phase = .running ∨ task.phase = .released then 1 else 0

/-- The workers that are at work, with one for the caller. -/
def Pool.atWork (p : Pool ι) : Nat := (p.tasks.toList.map Task.workers).sum

/-- A pool in which tasks know of later tasks only, and in which those that have given their slot
back have come to their end. -/
structure Orderly (p : Pool ι) : Prop where
  caller : p.HasCaller
  workers : p.atWork = p.busy + 1
  later : ∀ (number : Nat) (task : Task ι), p.tasks[number]? = some task →
    ∀ k ∈ task.thread.tasks, number < k ∧ k < p.tasks.size
  ended : ∀ (number : Nat) (task : Task ι), p.tasks[number]? = some task →
    task.phase = .released ∨ task.phase = .finished → task.thread.outcome?.isSome

namespace Orderly

variable {p q : Pool ι} {number : Nat} {task : Task ι}

lemma ofThread (crew : Crew) {thread : Thread ι} (h : thread.KeepsTo []) (s : State ι) :
    Orderly (Pool.ofThread crew thread s) := by
  have htask : ∀ (number : Nat) (task : Task ι),
      (Pool.ofThread crew thread s).tasks[number]? = some task → task = ⟨thread, .running⟩ := by
    intro number task htask
    have hmem := Array.mem_of_getElem? htask
    simpa [Pool.ofThread] using hmem
  refine ⟨⟨thread, rfl⟩, rfl, ?_, ?_⟩
  · intro number task hnumber k hk
    rw [htask number task hnumber] at hk
    rw [h.tasks] at hk
    cases hk
  · intro number task hnumber hphase
    rw [htask number task hnumber] at hphase
    rcases hphase with hphase | hphase <;> cases hphase

lemma start (crew : Crew) (e : Value ι) (env : Env ι) (s : State ι) :
    Orderly (Pool.ofThread crew (.start e env) s) :=
  ofThread crew (Machine.keepsTo_own rfl []) s

/-- A task may change as long as it hears of no other tasks. -/
lemma set (h : Orderly p) (hcaller : q.HasCaller) (htask : p.tasks[number]? = some task)
    {task' : Task ι} (htasks : q.tasks = p.tasks.setIfInBounds number task')
    (hbusy : q.busy + task.workers = p.busy + task'.workers)
    (hknown : task'.thread.tasks ⊆ task.thread.tasks)
    (hended : task'.phase = .released ∨ task'.phase = .finished →
      task'.thread.outcome?.isSome) : Orderly q := by
  refine ⟨hcaller, ?_, ?_, ?_⟩
  · have hsum : q.atWork + task.workers = p.atWork + task'.workers := by
      rw [Pool.atWork, Pool.atWork, htasks, Array.toList_setIfInBounds]
      exact sum_map_set Task.workers (by rwa [Array.getElem?_toList]) task'
    have hworkers := h.workers
    omega
  · rw [htasks, Array.size_setIfInBounds]
    exact Pool.forall_set h.later fun k hk => h.later number task htask k (hknown hk)
  · rw [htasks]
    exact Pool.forall_set h.ended hended

lemma update (h : Orderly p) {thread : Thread ι} {r : Thread ι × State ι} (hcaller : q.HasCaller)
    (htask : p.tasks[number]? = some ⟨thread, .running⟩)
    (htasks : q.tasks = p.tasks.setIfInBounds number ⟨r.1, .running⟩) (hbusy : q.busy = p.busy)
    (hknown : r.1.tasks ⊆ thread.tasks) : Orderly q := by
  refine h.set hcaller htask htasks ?_ hknown ?_
  · rw [hbusy]
    rfl
  · rintro (hphase | hphase) <;> cases hphase

/-- A new task comes after all others, so it comes after the one that hands it over. -/
lemma push (h : Orderly p) {thread thread' : Thread ι} (hcaller : q.HasCaller)
    (htask : p.tasks[number]? = some ⟨thread, .running⟩) (hbusy : q.busy = p.busy) {e : Value ι}
    {env : Env ι} (htasks : q.tasks =
      (p.tasks.setIfInBounds number ⟨thread', .running⟩).push ⟨.start e env, .queued⟩)
    (hknown : thread'.tasks ⊆ p.tasks.size :: thread.tasks) : Orderly q := by
  have hlt : number < p.tasks.size := (Array.getElem?_eq_some_iff.mp htask).1
  have hsize : q.tasks.size = p.tasks.size + 1 := by
    rw [htasks, Array.size_push, Array.size_setIfInBounds]
  -- Every task of `q` is the new one or stands where it stood in `p`.
  have hcases {P : Nat → Task ι → Prop} (hnew : P p.tasks.size ⟨.start e env, .queued⟩)
      (hset : ∀ k task, (p.tasks.setIfInBounds number ⟨thread', .running⟩)[k]? = some task →
        P k task) : ∀ k task, q.tasks[k]? = some task → P k task := by
    intro k task hk
    rw [htasks, Array.getElem?_push, Array.size_setIfInBounds] at hk
    split at hk
    · rename_i hk'
      subst hk'
      cases hk
      exact hnew
    · exact hset k task hk
  refine ⟨hcaller, ?_, ?_, ?_⟩
  · have hsum := sum_map_set Task.workers (Array.getElem?_toList ▸ htask) ⟨thread', .running⟩
    have hworkers := h.workers
    rw [Pool.atWork] at hworkers ⊢
    rw [htasks, hbusy, Array.toList_push, Array.toList_setIfInBounds, List.map_append,
      List.sum_append]
    simpa [Task.workers, hworkers] using hsum
  · rw [hsize]
    refine hcases (by simp [Thread.tasks, Thread.start, Control.tasks]) (Pool.forall_set ?_ ?_)
    · intro k task hk j hj
      have hlater := h.later k task hk j hj
      omega
    · intro j hj
      rcases List.mem_cons.mp (hknown hj) with rfl | hj
      · omega
      · have hlater := h.later number _ htask j hj
        omega
  · refine hcases ?_ (Pool.forall_set h.ended ?_) <;> rintro (hphase | hphase) <;> cases hphase

lemma strand (h : Orderly p) {e : Value ι} {sharing : Sharing ι} {stack : List (Cont ι)}
    (htask : p.tasks[number]? = some ⟨⟨.submit e sharing, stack⟩, .running⟩) (refusal : Fault) :
    Orderly (p.strand refusal e sharing.env stack number) :=
  h.push (h.caller.push htask _ _) htask rfl rfl
    (List.subset_cons_of_subset _ (List.subset_append_right _ _))

lemma busy_pos (h : Orderly p) {thread : Thread ι}
    (htask : p.tasks[number]? = some ⟨thread, .released⟩) : 0 < p.busy := by
  have forked := h.caller.forked htask nofun
  obtain ⟨caller, hcaller⟩ := h.caller
  rw [← Array.getElem?_toList] at htask hcaller
  have hle := add_le_sum_map Task.workers hcaller htask forked
  have hworkers := h.workers
  rw [Pool.atWork] at hworkers
  have hone : (Task.mk caller .running).workers = 1 := rfl
  have hone' : (Task.mk thread .released).workers = 1 := rfl
  omega

section Turns

variable [DecidableEq ι] [Marking ι] {limits : Limits}

theorem turn (h : Orderly p) (htask : p.tasks[number]? = some task)
    (hturn : Turn limits p number task q) : Orderly q := by
  have hcaller := h.caller.turn htask hturn
  cases hturn with
  | start room =>
    refine h.set hcaller htask rfl rfl (List.Subset.refl _) ?_
    rintro (hphase | hphase) <;> cases hphase
  | release ended forked released =>
    refine h.set hcaller htask rfl rfl (List.Subset.refl _) fun _ => ?_
    exact Option.isSome_of_eq_some ended
  | overrelease ended forked refused =>
    exact h.set hcaller htask rfl rfl (List.nil_subset _) fun _ => rfl
  | deliver =>
    refine h.set hcaller htask rfl ?_ (List.Subset.refl _) fun _ => ?_
    · exact Nat.sub_add_cancel (h.busy_pos htask)
    · exact h.ended number ⟨_, .released⟩ htask (.inl rfl)
  | work own unfinished =>
    exact h.update hcaller htask rfl rfl (Machine.keepsTo_step _ _ _ own).subset
  | gather none =>
    refine h.update hcaller htask rfl rfl ?_
    exact (((List.reverse_perm _).filterMap _).append_right _).subset
  | acquire more free => exact h.update hcaller htask rfl rfl (List.Subset.refl _)
  | inline more taken =>
    refine h.update hcaller htask rfl rfl ?_
    rcases Machine.await_cases .. with hthread | hthread <;> rw [hthread]
    · exact List.Subset.refl _
    · exact List.subset_append_right _ _
  | submit welcome room => exact h.push hcaller htask rfl rfl (List.Subset.refl _)
  | refuse refused => exact h.update hcaller htask rfl rfl (List.subset_append_right _ _)
  | strand welcome cramped => exact h.strand htask .tooDeep
  | combine list state =>
    exact h.update hcaller htask rfl rfl (Machine.keepsTo_finish ..).subset
  | ready => exact h.update hcaller htask rfl rfl (List.Subset.refl _)
  | collect delivered => exact h.update hcaller htask rfl rfl (List.subset_cons_self _ _)
  | fault delivered => exact h.update hcaller htask rfl rfl (List.subset_append_right _ _)

end Turns

/-- If there are tasks in the queue and none about to leave their worker, more slots are taken than
workers are at work. -/
lemma atWork_lt_taken
    (hreleased : ∀ (k : Nat) (thread : Thread ι), p.tasks[k]? ≠ some ⟨thread, .released⟩)
    {thread : Thread ι} (hqueued : p.tasks[number]? = some ⟨thread, .queued⟩) :
    p.atWork < p.taken := by
  refine List.sum_lt_sum Task.workers Task.slots ?_ ⟨⟨thread, .queued⟩, ?_, ?_⟩
  · rintro ⟨other, phase⟩ hmem
    obtain ⟨k, hk⟩ := List.mem_iff_getElem?.mp hmem
    rw [Array.getElem?_toList] at hk
    cases phase with
    | released => exact absurd hk (hreleased k other)
    | running => exact Task.one_le_slots other
    | _ => exact Nat.zero_le _
  · rw [← Array.getElem?_toList] at hqueued
    exact List.mem_of_getElem? hqueued
  · simp [Task.workers, Task.slots]

section Stuck

variable [DecidableEq ι] [Marking ι] {limits : Limits}

/-- A running task that can make no step is the caller at its end, or it waits for another task. -/
lemma ended_or_waits {thread : Thread ι} (hstuck : p.stepRunning limits number thread = none) :
    (number = 0 ∧ thread.outcome?.isSome) ∨ ∃ k ∈ thread.tasks, p.delivered? k = none := by
  obtain ⟨control, stack⟩ := thread
  cases control with
  | fork sharing => cases hstuck
  | submit e sharing => cases hstuck
  | join head values underway purpose =>
    rcases underway with _ | ⟨other | v, underway⟩
    · cases hstuck
    · refine .inr ⟨other, List.mem_cons_self, ?_⟩
      simp only [Pool.stepRunning, Pool.join] at hstuck
      split at hstuck
      · assumption
      · cases hstuck
      · cases hstuck
    · cases hstuck
  | _ =>
    refine .inl ?_
    simp only [Pool.stepRunning] at hstuck
    split at hstuck
    · rename_i hended
      split at hstuck
      · exact ⟨‹_›, Option.isSome_of_eq_some hended⟩
      · split at hstuck <;> cases hstuck
    · cases hstuck

lemma waits_later (h : Orderly p) {thread : Thread ι}
    (htask : p.tasks[number]? = some ⟨thread, .running⟩)
    (unfinished : number = 0 → thread.outcome? = none) (hstuck : p.step limits number = none) :
    ∃ k, number < k ∧ k < p.tasks.size ∧ p.delivered? k = none := by
  rw [Pool.step, htask] at hstuck
  rcases ended_or_waits hstuck with ⟨hcaller, hended⟩ | ⟨k, hk, hundelivered⟩
  · rw [unfinished hcaller] at hended
    cases hended
  · obtain ⟨hlater, hsize⟩ := h.later number _ htask k hk
    exact ⟨k, hlater, hsize, hundelivered⟩

/-- If no task can go on, the waiting of a running task for others, each later than the one before,
ends at a task in the queue. -/
lemma exists_queued (h : Orderly p) (hstuck : ∀ number, p.step limits number = none)
    {thread : Thread ι} (htask : p.tasks[number]? = some ⟨thread, .running⟩)
    (unfinished : number = 0 → thread.outcome? = none) :
    ∃ (k : Nat) (waiting : Thread ι), p.tasks[k]? = some ⟨waiting, .queued⟩ := by
  induction hleft : p.tasks.size - number using Nat.strong_induction_on
    generalizing number thread with
  | _ left ih =>
    obtain ⟨k, hlater, hsize, hundelivered⟩ := h.waits_later htask unfinished (hstuck number)
    obtain ⟨⟨other, phase⟩, hk⟩ : ∃ task, p.tasks[k]? = some task :=
      ⟨_, Array.getElem?_eq_getElem hsize⟩
    cases phase with
    | queued => exact ⟨k, other, hk⟩
    | running => exact ih (p.tasks.size - k) (by omega) hk (by omega) rfl
    | released =>
      have hstep := hstuck k
      rw [Pool.step, hk] at hstep
      cases hstep
    | finished =>
      have hended := h.ended k _ hk (.inr rfl)
      rw [Pool.delivered?, hk] at hundelivered
      rw [show other.outcome? = none from hundelivered] at hended
      cases hended

/-- A pool with a running task can make a step, unless that is the caller at its end. -/
theorem exists_step_of_running (h : Orderly p) {crew : Crew} (hbalanced : Balanced crew p)
    (hfits : crew.free ≤ crew.slots) {thread : Thread ι}
    (htask : p.tasks[number]? = some ⟨thread, .running⟩)
    (unfinished : number = 0 → thread.outcome? = none) :
    ∃ k q, p.step limits k = some q := by
  by_contra hnone
  have hstuck : ∀ number, p.step limits number = none := by
    intro number
    exact Option.eq_none_iff_forall_ne_some.mpr fun q hq => hnone ⟨number, q, hq⟩
  obtain ⟨k, waiting, hk⟩ := h.exists_queued hstuck htask unfinished
  have hbusy : p.crew.slots ≤ p.busy := by
    have hstep := hstuck k
    simp only [Pool.step, hk] at hstep
    split at hstep
    · cases hstep
    · exact Nat.le_of_not_lt ‹_›
  have hlt : p.atWork < p.taken := by
    refine atWork_lt_taken (fun j thread hj => ?_) hk
    have hstep := hstuck j
    rw [Pool.step, hj] at hstep
    cases hstep
  have hworkers := h.workers
  have hbalance := hbalanced.balance
  have hslots := hbalanced.slots
  omega

/-- A pool whose caller has not come to its end can make a step. -/
theorem exists_step (h : Orderly p) {crew : Crew} (hbalanced : Balanced crew p)
    (hfits : crew.free ≤ crew.slots) (unfinished : p.caller?.bind Thread.outcome? = none) :
    ∃ number q, p.step limits number = some q := by
  obtain ⟨caller, hcaller⟩ := h.caller
  refine h.exists_step_of_running hbalanced hfits hcaller fun _ => ?_
  rwa [Pool.caller?, hcaller] at unfinished

end Stuck

end Orderly

section Runs

variable [DecidableEq ι] [Marking ι] {limits : Limits} {crew : Crew} {p q : Pool ι}

/-- In every run in which all operands have room, the order and the balance are kept. -/
lemma Pool.ReachesInRoom.orderly_balanced (hreaches : p.ReachesInRoom limits q)
    (hfits : crew.free ≤ crew.slots) (h : Orderly p ∧ Balanced crew p) :
    Orderly q ∧ Balanced crew q := by
  refine hreaches.induct (fun p => Orderly p ∧ Balanced crew p) ?_ h
  intro p q number task ⟨horderly, hbalanced⟩ room htask hturn
  exact ⟨horderly.turn htask hturn, hbalanced.turn hfits room htask hturn⟩

/-- Sharing out operands never comes to a deadlock: as long as the caller has no outcome, some task
can make a step, whatever the expression, the size of the crew, the slots that others have taken,
and the order of the steps so far. What an operand needs for being handed over is room, since one
that is left in the queue by a thread that has failed gives its slot back twice. -/
theorem sharing_never_deadlocks (hfits : crew.free ≤ crew.slots) (limits : Limits) (e : Value ι)
    (env : Env ι) (s : State ι)
    (hreaches : (Pool.ofThread crew (.start e env) s).ReachesInRoom limits p)
    (unfinished : p.caller?.bind Thread.outcome? = none) :
    ∃ number q, p.step limits number = some q := by
  obtain ⟨horderly, hbalanced⟩ :=
    hreaches.orderly_balanced hfits ⟨.start crew e env s, .start crew e env s⟩
  exact horderly.exists_step hbalanced hfits unfinished

end Runs

/-- The caller waits for a task that waits for another one itself. -/
theorem nested_list_never_deadlocks :
    let e : Value Unit := .ofSExpr (.ofList [.atom "list", .atom "1",
      .ofList [.atom "list", .atom "2", .atom "3"]])
    let s : State Unit := ⟨#[], (), #[], #[]⟩
    Crew.ofSize 2 = .ok ⟨2, 2, none⟩ ∧ ∃ p,
      (Pool.ofThread ⟨2, 2, none⟩ (.start e []) s).follow .none
        [0, 0, 0, 0, 0, 0, 1, 1, 1, 1, 1, 1, 1] = some p ∧
      p.awaited? 0 = some 1 ∧ p.awaited? 1 = some 2 ∧ ∃ number q, p.step .none number = some q := by
  intro e s
  have hfollow : ((Pool.ofThread ⟨2, 2, none⟩ (.start e []) s).follow .none
      [0, 0, 0, 0, 0, 0, 1, 1, 1, 1, 1, 1, 1]).map (fun p => (p.awaited? 0, p.awaited? 1,
        p.caller?.bind Thread.outcome?)) = some (some 1, some 2, none) := by decide +kernel
  obtain ⟨p, hp, hresult⟩ := Option.map_eq_some_iff.mp hfollow
  obtain ⟨hfirst, hrest⟩ := Prod.mk.inj hresult
  obtain ⟨hsecond, unfinished⟩ := Prod.mk.inj hrest
  have hgoes := sharing_never_deadlocks (Nat.le_refl 2) .none e [] s
    ((Pool.reaches_of_follow hp).inRoom rfl) unfinished
  exact ⟨rfl, p, hp, hfirst, hsecond, hgoes⟩

end Evlis
