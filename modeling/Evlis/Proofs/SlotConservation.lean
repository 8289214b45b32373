import Evlis.Proofs.PoolLiveness

/-!
# No slot is lost

A crew serves one evaluation after the other. Some of them fail and leave tasks behind, and at times
the crew takes no work. All the while its free slots and those held by forks add up to the size of
the crew, so that all are free again when there is nothing left to do. Only where handing over an
operand goes wrong when it is in the queue already, its slot is given back once too often.
-/

namespace Evlis

variable {ι : Type}

lemma Crew.slots_of_ofSize {size : Int} {crew : Crew} (h : Crew.ofSize size = .ok crew) :
    (crew.slots : Int) = size ∧ (crew.free : Int) = size := by
  rw [Crew.ofSize] at h
  split at h
  · cases h
  · cases h
    constructor <;> dsimp only <;> omega

/-- Whether a task, if it is not the caller, has a slot that it has not given back. -/
def Task.holdsSlot (task : Task ι) : Bool := task.phase = .queued ∨ task.phase = .running

/-- The slots held by forks: one for every task besides the caller that has not given it back, and
one for every thread that has taken it and is still to hand over its operand. -/
def Pool.heldSlots (p : Pool ι) : Nat :=
  (p.tasks.toList.drop 1).countP Task.holdsSlot +
    p.tasks.toList.countP fun task => task.thread.control.isSubmit

lemma sum_slots (tasks : List (Task ι)) :
    (tasks.map Task.slots).sum = tasks.countP Task.holdsSlot +
      tasks.countP fun task => task.thread.control.isSubmit := by
  induction tasks with
  | nil => rfl
  | cons task tasks ih =>
    rw [List.map_cons, List.sum_cons, ih, List.countP_cons, List.countP_cons]
    simp only [Task.slots, Task.holdsSlot, decide_eq_true_eq]
    omega

/-- The caller is all that is counted as taken and not held. -/
lemma Pool.HasCaller.taken_eq {p : Pool ι} (h : p.HasCaller) : p.taken = p.heldSlots + 1 := by
  obtain ⟨thread, hcaller⟩ := h
  rw [← Array.getElem?_toList] at hcaller
  rw [Pool.taken, sum_slots, Pool.heldSlots]
  cases htasks : p.tasks.toList with
  | nil =>
    rw [htasks] at hcaller
    cases hcaller
  | cons task tasks =>
    rw [htasks] at hcaller
    cases hcaller
    rw [List.countP_cons_of_pos (by simp [Task.holdsSlot]), List.drop_one, List.tail_cons]
    omega

lemma Pool.HasCaller.ended {p : Pool ι} (h : p.HasCaller) {outcome : Except Fault (Value ι)}
    (hended : p.caller?.bind Thread.outcome? = some outcome) :
    ∃ caller, p.tasks[0]? = some ⟨caller, .running⟩ ∧ caller.control.isSubmit = false := by
  obtain ⟨caller, hcaller⟩ := h
  rw [Pool.caller?, hcaller] at hended
  exact ⟨caller, hcaller, Thread.isSubmit_of_outcome hended⟩

namespace Orderly

variable {p : Pool ι}

/-- A caller that has come to its end may begin something new that knows of no tasks. -/
lemma call (h : Orderly p) {outcome : Except Fault (Value ι)}
    (hended : p.caller?.bind Thread.outcome? = some outcome) {thread : Thread ι}
    (hthread : thread.KeepsTo []) (s : State ι) : Orderly (p.update 0 (thread, s)) := by
  obtain ⟨caller, hcaller, -⟩ := h.caller.ended hended
  exact h.update (r := (thread, s)) (h.caller.set hcaller fun _ => rfl) hcaller rfl rfl
    (List.Subset.trans hthread.subset (List.nil_subset _))

/-- With every fork at its end, and the caller not about to hand over an operand, no slot is
held. -/
lemma held_eq_zero (h : Orderly p)
    (hdone : ∀ (k : Nat) (task : Task ι), k ≠ 0 → p.tasks[k]? = some task →
      task.phase = .released ∨ task.phase = .finished)
    (hcaller : ∀ thread, p.caller? = some thread → thread.control.isSubmit = false) :
    p.heldSlots = 0 := by
  have hforks : (p.tasks.toList.drop 1).countP Task.holdsSlot = 0 := by
    rw [List.countP_eq_zero]
    intro task hmem
    obtain ⟨k, hk⟩ := List.mem_iff_getElem?.mp hmem
    rw [List.getElem?_drop, Array.getElem?_toList] at hk
    rcases hdone (1 + k) task (by omega) hk with hphase | hphase <;> simp [Task.holdsSlot, hphase]
  -- a fork that has given its slot back is at its end, so it hands over nothing any more
  have hthreads : p.tasks.toList.countP (fun task => task.thread.control.isSubmit) = 0 := by
    rw [List.countP_eq_zero]
    intro task hmem
    obtain ⟨k, hk⟩ := List.mem_iff_getElem?.mp hmem
    rw [Array.getElem?_toList] at hk
    by_cases hzero : k = 0
    · subst hzero
      simp [hcaller task.thread (by rw [Pool.caller?, hk]; rfl)]
    · obtain ⟨outcome, houtcome⟩ :=
        Option.isSome_iff_exists.mp (h.ended k task hk (hdone k task hzero hk))
      simp [Thread.isSubmit_of_outcome houtcome]
  rw [Pool.heldSlots, hforks, hthreads]

end Orderly

section Serving

variable [DecidableEq ι] [Marking ι]

/-- The evaluations that can be begun: of an expression, and of a list of operands. -/
inductive Thread.Begins (limits : Limits) : Thread ι → State ι → Prop where
  | expression (e : Value ι) (env : Env ι) (s : State ι) : Begins limits (.start e env) s
  | operands (exprs : Value ι) (env : Env ι) (s : State ι) :
      Begins limits (Machine.operands limits .shared exprs env .collect [] s).1
        (Machine.operands limits .shared exprs env .collect [] s).2

omit [DecidableEq ι] in
lemma Thread.Begins.keepsTo {limits : Limits} {thread : Thread ι} {s : State ι}
    (h : thread.Begins limits s) : thread.KeepsTo [] := by
  cases h with
  | expression e env => exact Machine.keepsTo_own rfl []
  | operands exprs env s =>
    exact Machine.keepsTo_operands limits [] s .shared exprs env .collect

/-- What happens to a pool in use. -/
inductive Pool.Serves (limits : Limits) (p : Pool ι) : Pool ι → Prop where
  | step {number : Nat} {q : Pool ι} (room : p.findsRoom limits number)
      (h : p.step limits number = some q) : Serves limits p q
  /-- From now on the crew refuses work before it is in the queue, or it takes work again. -/
  | mood (refusal : Option Fault) : Serves limits p { p with crew := { p.crew with refusal } }
  /-- The caller has come to its end and begins its next evaluation, while the tasks that it has
  left behind go on. -/
  | call {outcome : Except Fault (Value ι)} (ended : p.caller?.bind Thread.outcome? = some outcome)
      {thread : Thread ι} {s : State ι} (begins : thread.Begins limits s) :
      Serves limits p (p.update 0 (thread, s))

/-- What happens to a pool in use if handing over an operand can go wrong when the operand is in the
queue already, be it for want of room or because no worker can be called. -/
inductive Pool.Endures (limits : Limits) (p : Pool ι) : Pool ι → Prop where
  | serves {q : Pool ι} (h : p.Serves limits q) : Endures limits p q
  | strand {number : Nat} {e : Value ι} {sharing : Sharing ι} {stack : List (Cont ι)}
      (htask : p.tasks[number]? = some ⟨⟨.submit e sharing, stack⟩, .running⟩)
      (welcome : p.crew.refusal = none) (fault : Fault) :
      Endures limits p (p.strand fault e sharing.env stack number)

variable {limits : Limits} {crew : Crew} {p q : Pool ι}

/-- Every step is one of a pool in use, whether operands have room or not. -/
lemma Pool.endures_of_step {number : Nat} (h : p.step limits number = some q) :
    p.Endures limits q := by
  by_cases room : p.findsRoom limits number
  · exact .serves (.step room h)
  · obtain ⟨e, sharing, stack, htask, welcome, cramped⟩ := of_not_findsRoom room
    rw [step_cramped htask welcome cramped] at h
    cases h
    exact .strand htask welcome .tooDeep

lemma Orderly.endures (h : Orderly p) (hendures : p.Endures limits q) : Orderly q := by
  cases hendures with
  | serves hserves =>
    cases hserves with
    | step room hstep =>
      obtain ⟨task, htask, hturn⟩ := Pool.turn_of_step hstep
      exact h.turn htask hturn
    | mood refusal => exact ⟨h.caller, h.workers, h.later, h.ended⟩
    | call ended begins => exact h.call ended begins.keepsTo _
  | strand htask _ fault => exact h.strand htask fault

/-- The order is kept for as long as the pool is in use. -/
theorem Orderly.of_enduring {thread : Thread ι} {s : State ι} (begins : thread.Begins limits s)
    (h : Relation.ReflTransGen (Pool.Endures limits) (Pool.ofThread crew thread s) p) :
    Orderly p := by
  induction h with
  | refl => exact .ofThread crew begins.keepsTo s
  | tail _ hendures ih => exact ih.endures hendures

lemma Pool.enduring_of_serving (h : Relation.ReflTransGen (Pool.Serves limits) p q) :
    Relation.ReflTransGen (Pool.Endures limits) p q :=
  Relation.ReflTransGen.mono (fun _ _ => .serves) _ _ h

lemma Balanced.serves {refusal : Option Fault} (h : Balanced { crew with refusal } p)
    (hfits : crew.free ≤ crew.slots) (hserves : p.Serves limits q) :
    ∃ refusal', Balanced { crew with refusal := refusal' } q := by
  cases hserves with
  | step room hstep =>
    obtain ⟨task, htask, hturn⟩ := Pool.turn_of_step hstep
    exact ⟨refusal, h.turn hfits room htask hturn⟩
  | mood refusal' => exact ⟨refusal', h.slots, rfl, h.caller, h.balance⟩
  | @call outcome ended thread s begins =>
    obtain ⟨caller, hcaller, hbefore⟩ := h.caller.ended ended
    have htaken := Pool.taken_update (r := (thread, s)) hcaller hbefore begins.keepsTo.isSubmit
    exact ⟨refusal, h.slots, h.refusal, h.caller.set hcaller fun _ => rfl,
      (congrArg (p.crew.free + ·) htaken).trans h.balance⟩

theorem Balanced.of_serving {thread : Thread ι} {s : State ι} (begins : thread.Begins limits s)
    (hfits : crew.free ≤ crew.slots)
    (h : Relation.ReflTransGen (Pool.Serves limits) (Pool.ofThread crew thread s) p) :
    ∃ refusal, Balanced { crew with refusal } p := by
  induction h with
  | refl => exact ⟨crew.refusal, .ofThread crew begins.keepsTo.isSubmit s⟩
  | tail _ hserves ih =>
    obtain ⟨refusal, hbalanced⟩ := ih
    exact hbalanced.serves hfits hserves

/-- No slot is lost, even if operands are stranded. -/
lemma Covered.endures (h : Covered crew p) (hfits : crew.free ≤ crew.slots)
    (hendures : p.Endures limits q) : Covered crew q := by
  cases hendures with
  | serves hserves =>
    cases hserves with
    | step room hstep =>
      obtain ⟨task, htask, hturn⟩ := Pool.turn_of_step hstep
      exact h.turn hfits htask hturn
    | mood refusal => exact ⟨h.slots, h.caller, h.fits, h.cover⟩
    | @call outcome ended thread s begins =>
      obtain ⟨caller, hcaller, hbefore⟩ := h.caller.ended ended
      have htaken := Pool.taken_update (r := (thread, s)) hcaller hbefore begins.keepsTo.isSubmit
      exact ⟨h.slots, h.caller.set hcaller fun _ => rfl, h.fits,
        h.cover.trans (congrArg (p.crew.free + ·) htaken).ge⟩
  | strand htask _ fault => exact h.strand htask fault

theorem Covered.of_enduring {thread : Thread ι} {s : State ι} (begins : thread.Begins limits s)
    (hfits : crew.free ≤ crew.slots)
    (h : Relation.ReflTransGen (Pool.Endures limits) (Pool.ofThread crew thread s) p) :
    Covered crew p := by
  induction h with
  | refl => exact .ofThread hfits begins.keepsTo.isSubmit s
  | tail _ hendures ih => exact ih.endures hfits hendures

lemma Pool.enduring_of_follow {schedule : List Nat} (h : p.follow limits schedule = some q) :
    Relation.ReflTransGen (Pool.Endures limits) p q :=
  Relation.ReflTransGen.mono (fun _ _ ⟨_, hstep⟩ => endures_of_step hstep) _ _ (reaches_of_follow h)

lemma Pool.serving_of_follow {schedule : List Nat} (unbounded : limits.depth = none)
    (h : p.follow limits schedule = some q) : Relation.ReflTransGen (Pool.Serves limits) p q :=
  Relation.ReflTransGen.mono (fun _ _ ⟨_, room, hstep⟩ => .step room hstep) _ _
    ((reaches_of_follow h).inRoom unbounded)

lemma Pool.step_ended {number : Nat} {thread : Thread ι} {outcome : Except Fault (Value ι)}
    {crew' : Crew} (forked : number ≠ 0) (htask : p.tasks[number]? = some ⟨thread, .running⟩)
    (houtcome : thread.outcome? = some outcome) (hrelease : p.crew.release = .ok crew') :
    p.step limits number = some ({ p with crew := crew' }.put number thread .released) := by
  rw [Pool.step, htask]
  obtain ⟨control, stack⟩ := thread
  cases control with
  | fail fault => simp only [Pool.stepRunning, houtcome, if_neg forked, hrelease]
  | give v => simp only [Pool.stepRunning, houtcome, if_neg forked, hrelease]
  | _ => cases houtcome

lemma Pool.step_refused {number : Nat} {e : Value ι} {sharing : Sharing ι} {stack : List (Cont ι)}
    {refusal : Fault} {crew' : Crew}
    (htask : p.tasks[number]? = some ⟨⟨.submit e sharing, stack⟩, .running⟩)
    (hrefusal : p.crew.refusal = some refusal) (hrelease : p.crew.release = .ok crew') :
    p.step limits number =
      some ({ p with crew := crew' }.put number ⟨.fail refusal, stack⟩ .running) := by
  rw [Pool.step, htask]
  simp only [Pool.stepRunning, Pool.submit, hrefusal, Pool.giveBack, hrelease]
  rfl

/-- How a crew of the given size stands: no slot is lost, and none is given back that was not
taken. -/
structure Pool.KeepsSlots (limits : Limits) (size : Int) (p : Pool ι) : Prop where
  slots : (p.crew.slots : Int) = size
  conserved : (p.crew.free : Int) + p.heldSlots = size
  /-- A task that has come to its end, with a value or a fault, can give its slot back. -/
  released : ∀ (number : Nat) (thread : Thread ι) (outcome : Except Fault (Value ι)),
    number ≠ 0 → p.tasks[number]? = some ⟨thread, .running⟩ → thread.outcome? = some outcome →
    p.crew.release = .ok { p.crew with free := p.crew.free + 1 } ∧
    p.step limits number =
      some ({ p with crew := { p.crew with free := p.crew.free + 1 } }.put number thread .released)
  /-- So can a thread whose operand the crew does not take, and it fails for that reason. -/
  refused : ∀ (number : Nat) (e : Value ι) (sharing : Sharing ι) (stack : List (Cont ι))
    (refusal : Fault), p.tasks[number]? = some ⟨⟨.submit e sharing, stack⟩, .running⟩ →
    p.crew.refusal = some refusal →
    p.crew.release = .ok { p.crew with free := p.crew.free + 1 } ∧
    p.step limits number =
      some ({ p with crew := { p.crew with free := p.crew.free + 1 } }.put number
        ⟨.fail refusal, stack⟩ .running)
  /-- All slots are free when no fork is at work, nor about to be made. -/
  idle : (∀ (k : Nat) (task : Task ι), k ≠ 0 → p.tasks[k]? = some task →
      task.phase = .released ∨ task.phase = .finished) →
    (∀ thread, p.caller? = some thread → thread.control.isSubmit = false) →
    (p.crew.free : Int) = size

/-- How a crew of the given size stands when slots may have been given back too often: none is
lost. -/
structure Pool.LosesNoSlot (size : Int) (p : Pool ι) : Prop where
  slots : (p.crew.slots : Int) = size
  bound : (p.crew.free : Int) ≤ size
  covered : size ≤ (p.crew.free : Int) + p.heldSlots
  /-- All slots are free when no fork is at work, nor about to be made. -/
  idle : (∀ (k : Nat) (task : Task ι), k ≠ 0 → p.tasks[k]? = some task →
      task.phase = .released ∨ task.phase = .finished) →
    (∀ thread, p.caller? = some thread → thread.control.isSubmit = false) →
    (p.crew.free : Int) = size

/-- In every use of a crew, through any number of evaluations, however they end, through any order
of the steps of their tasks, and with work refused at any moment, the slots of the crew are kept if
no operand is left in the queue by a thread that fails to hand it over; and even if some are, no
slot is lost. -/
theorem slots_are_conserved {size : Int} (hcrew : Crew.ofSize size = .ok crew)
    {thread : Thread ι} {s : State ι} (begins : thread.Begins limits s) :
    (Relation.ReflTransGen (Pool.Serves limits) (Pool.ofThread crew thread s) p →
      p.KeepsSlots limits size) ∧
    (Relation.ReflTransGen (Pool.Endures limits) (Pool.ofThread crew thread s) p →
      p.LosesNoSlot size) := by
  obtain ⟨hslots, hfree⟩ := Crew.slots_of_ofSize hcrew
  have hfits : crew.free ≤ crew.slots := by omega
  constructor
  · intro hserving
    have horderly := Orderly.of_enduring begins (Pool.enduring_of_serving hserving)
    obtain ⟨refusal, hbalanced⟩ := Balanced.of_serving begins hfits hserving
    have htaken := horderly.caller.taken_eq
    have hbalance : p.crew.free + p.taken = crew.free + 1 := hbalanced.balance
    constructor
    · rw [hbalanced.slots]
      exact hslots
    · omega
    · intro number thread outcome forked htask houtcome
      have hrelease := hbalanced.release_running hfits htask forked
      exact ⟨hrelease, Pool.step_ended forked htask houtcome hrelease⟩
    · intro number e sharing stack refusal htask hrefusal
      have hrelease := hbalanced.release_submit hfits htask
      exact ⟨hrelease, Pool.step_refused htask hrefusal hrelease⟩
    · intro hdone hcaller
      have hzero := horderly.held_eq_zero hdone hcaller
      omega
  · intro henduring
    have horderly := Orderly.of_enduring begins henduring
    have hcovered := Covered.of_enduring begins hfits henduring
    have htaken := horderly.caller.taken_eq
    have hcover := hcovered.cover
    have hbound := hcovered.fits
    have hsize := hcovered.slots
    refine ⟨by omega, by omega, by omega, fun hdone hcaller => ?_⟩
    have hzero := horderly.held_eq_zero hdone hcaller
    omega

/-- The second operand fails, which leaves the third in the queue; and when the next evaluation has
taken the other slot, the crew takes no more work. An operand for which there is no room is left in
the queue, with both slots free. -/
theorem slots_are_conserved_after_fault :
    let first : Value Unit := .ofSExpr (.ofList [.atom "list", .atom "1", .atom "x", .atom "2"])
    let next : Value Unit := .ofSExpr (.ofList [.atom "3", .atom "4"])
    let deep : Value Unit :=
      .ofSExpr (.ofList [.ofList [.ofList [.atom "list", .atom "1", .atom "2"]]])
    let s : State Unit := ⟨#[], (), #[], #[]⟩
    let begun := Machine.operands .none .shared next [] .collect [] s
    let limits : Limits := ⟨some 2, none⟩
    Crew.ofSize 2 = .ok ⟨2, 2, none⟩ ∧
      (∃ p q,
        (Pool.ofThread ⟨2, 2, none⟩ (.start first []) s).follow .none
          [0, 0, 0, 0, 0, 0, 0, 0, 1, 1, 1, 1, 0] = some p ∧
        p.caller?.bind Thread.outcome? = some (.error (.unbound "x")) ∧
        (p.update 0 begun).follow .none [0, 0, 0] = some q ∧
        q.heldSlots = 2 ∧
        { q with crew := { q.crew with refusal := some .crewClosed } }.KeepsSlots .none 2) ∧
      ∃ p,
        (Pool.ofThread ⟨2, 2, none⟩ (.start deep []) s).follow limits [0, 0, 0, 0, 0, 0, 0] =
          some p ∧
        p.caller?.bind Thread.outcome? = some (.error .tooDeep) ∧
        p.tasks.size = 2 ∧ p.LosesNoSlot 2 := by
  intro first next deep s begun limits
  have hfollow : ((Pool.ofThread ⟨2, 2, none⟩ (.start first []) s).follow .none
      [0, 0, 0, 0, 0, 0, 0, 0, 1, 1, 1, 1, 0]).map (fun p => (p.caller?.bind Thread.outcome?,
        ((p.update 0 begun).follow .none [0, 0, 0]).map Pool.heldSlots)) =
      some (some (.error (.unbound "x")), some 2) := by decide +kernel
  have hstrands : ((Pool.ofThread ⟨2, 2, none⟩ (.start deep []) s).follow limits
      [0, 0, 0, 0, 0, 0, 0]).map (fun p => (p.caller?.bind Thread.outcome?, p.tasks.size)) =
      some (some (.error .tooDeep), 2) := by decide +kernel
  have hcrew : Crew.ofSize 2 = .ok ⟨2, 2, none⟩ := rfl
  refine ⟨hcrew, ?_, ?_⟩
  · obtain ⟨p, hp, hresult⟩ := Option.map_eq_some_iff.mp hfollow
    obtain ⟨hended, hnext⟩ := Prod.mk.inj hresult
    obtain ⟨q, hq, hheld⟩ := Option.map_eq_some_iff.mp hnext
    have hcall : p.Serves .none (p.update 0 begun) := .call hended (.operands next [] s)
    have hserving := ((Pool.serving_of_follow rfl hp).tail hcall).trans
      (Pool.serving_of_follow rfl hq)
    have hkeeps := (slots_are_conserved hcrew (.expression first [] s)).1
      (hserving.tail (.mood (some .crewClosed)))
    exact ⟨p, q, hp, hended, hq, hheld, hkeeps⟩
  · obtain ⟨p, hp, hresult⟩ := Option.map_eq_some_iff.mp hstrands
    obtain ⟨hended, hsize⟩ := Prod.mk.inj hresult
    have hloses := (slots_are_conserved hcrew (.expression deep [] s)).2
      (Pool.enduring_of_follow hp)
    exact ⟨p, hp, hended, hsize, hloses⟩

/-- An operand for which there is no room stays in the queue when its evaluation has failed. It
gives a slot back, as the thread that handed it over has done before, while the next evaluation has
a task of its own: both slots are free and one is held, and that task fails when it gives its slot
back. -/
theorem stranded_task_gives_slot_back_twice :
    let first : Value Unit :=
      .ofSExpr (.ofList [.ofList [.ofList [.atom "list", .atom "1", .atom "2"]]])
    let next : Value Unit := .ofSExpr (.ofList [.atom "list", .atom "3", .atom "4"])
    let s : State Unit := ⟨#[], (), #[], #[]⟩
    let limits : Limits := ⟨some 2, none⟩
    Crew.ofSize 2 = .ok ⟨2, 2, none⟩ ∧ ∃ p q r,
      (Pool.ofThread ⟨2, 2, none⟩ (.start first []) s).follow limits [0, 0, 0, 0, 0, 0, 0] =
        some p ∧
      p.caller?.bind Thread.outcome? = some (.error .tooDeep) ∧
      (p.update 0 (.start next [], s)).follow limits [0, 0, 0, 0, 0, 0, 1, 1, 1] = some q ∧
      q.crew.free = 2 ∧ q.heldSlots = 1 ∧ ¬ q.KeepsSlots limits 2 ∧
      q.follow limits [1, 2, 2, 2, 2, 0] = some r ∧
      r.caller?.bind Thread.outcome? = some (.error .tooManyReleases) := by
  intro first next s limits
  have hends : ((Pool.ofThread ⟨2, 2, none⟩ (.start first []) s).follow limits
      [0, 0, 0, 0, 0, 0, 0]).map (fun p => p.caller?.bind Thread.outcome?) =
      some (some (.error .tooDeep)) := by decide +kernel
  have hnext : ((Pool.ofThread ⟨2, 2, none⟩ (.start first []) s).follow limits
      [0, 0, 0, 0, 0, 0, 0]).bind (fun p =>
        ((p.update 0 (.start next [], s)).follow limits [0, 0, 0, 0, 0, 0, 1, 1, 1]).bind fun q =>
          (q.follow limits [1, 2, 2, 2, 2, 0]).map fun r =>
            (q.crew.free, q.heldSlots, r.caller?.bind Thread.outcome?)) =
      some (2, 1, some (.error .tooManyReleases)) := by decide +kernel
  obtain ⟨p, hp, hended⟩ := Option.map_eq_some_iff.mp hends
  rw [hp, Option.bind_some] at hnext
  obtain ⟨q, hq, hlast⟩ := Option.bind_eq_some_iff.mp hnext
  obtain ⟨r, hr, hresult⟩ := Option.map_eq_some_iff.mp hlast
  obtain ⟨hfree, hresult⟩ := Prod.mk.inj hresult
  obtain ⟨hheld, hlast⟩ := Prod.mk.inj hresult
  have hlost : ¬ q.KeepsSlots limits 2 := by
    intro hkeeps
    have hconserved := hkeeps.conserved
    omega
  exact ⟨rfl, p, q, r, hp, hended, hq, hfree, hheld, hlost, hr, hlast⟩

end Serving

end Evlis
