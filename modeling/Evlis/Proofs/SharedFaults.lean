import Evlis.Proofs.FaultReplay
import Evlis.Proofs.SharedAgreement

/-!
# Sharing out operands does not change faults

An operand that the caller evaluates for want of a slot may fail before others that have been handed
over. As long as every operand finds a slot, values are collected in the order of the operands, and
so are faults: the first operand at fault decides, as it does in order. Operands are the elements of
lists, because expressions are parts of a program that has been read.
-/

namespace Evlis

def Thread.Regular (r : Course) (thread : Thread Unit) : Prop :=
  thread.control.Regular r (fun _ => True) ∧ ∀ cont ∈ thread.stack, cont.Regular r

/-- What all tasks of a pool work with belongs to the run of a program. -/
structure Pool.Regular (r : Course) (p : Pool Unit) : Prop where
  state : p.state.Regular r
  threads : ∀ (number : Nat) (task : Task Unit), p.tasks[number]? = some task →
    task.thread.Regular r

lemma Sharing.Regular.next {r : Course} {sharing : Sharing Unit} (h : sharing.Regular r)
    {e : Value Unit} {rest : List (Value Unit)} (more : sharing.rest = e :: rest) :
    e.PartOf r.program ∧ Sharing.Regular r { sharing with rest } := by
  have hrest := h.rest
  rw [more] at hrest
  obtain ⟨he, hrest⟩ := List.forall_mem_cons.mp hrest
  exact ⟨he, h.head, h.ready, hrest, h.env⟩

namespace Pool.Regular

variable {r : Course} {p q : Pool Unit} {number : Nat} {task : Task Unit}

lemma ofProgram (crew : Crew) {program : SExpr} (h : program.Readable) (s : State Unit) :
    (Pool.ofProgram crew program s).Regular (Machine.courseOf h s) := by
  have hstart := Machine.regular_ofProgram h s fun _ => True
  refine ⟨hstart.state, ?_⟩
  intro number task htask
  have hmem : task ∈ #[⟨(Machine.ofProgram program s).1, .running⟩] :=
    Array.mem_of_getElem? htask
  rw [List.mem_toArray, List.mem_singleton] at hmem
  rw [hmem]
  exact ⟨hstart.control, hstart.stack⟩

lemma set (h : p.Regular r) {thread : Thread Unit} {s : State Unit} {phase : Phase}
    (hthread : Machine.Regular r (fun _ => True) (thread, s))
    (htasks : q.tasks = p.tasks.setIfInBounds number ⟨thread, phase⟩) (hstate : q.state = s) :
    q.Regular r := by
  refine ⟨?_, ?_⟩
  · rw [hstate]
    exact hthread.state
  · rw [htasks]
    exact forall_set (P := fun _ task => task.thread.Regular r) h.threads
      ⟨hthread.control, hthread.stack⟩

lemma update (h : p.Regular r) {c : Thread Unit × State Unit}
    (hc : Machine.Regular r (fun _ => True) c) : (p.update number c).Regular r :=
  h.set hc rfl rfl

lemma put (h : p.Regular r) (htask : p.tasks[number]? = some task) {phase : Phase}
    (htasks : q.tasks = p.tasks.setIfInBounds number ⟨task.thread, phase⟩)
    (hstate : q.state = p.state) : q.Regular r := by
  obtain ⟨hcontrol, hstack⟩ := h.threads number task htask
  exact h.set ⟨hcontrol, hstack, h.state⟩ htasks hstate

lemma delivered (h : p.Regular r) {v : Value Unit} (hv : p.delivered? number = some (.ok v)) :
    v.Regular r := by
  obtain ⟨thread, htask, houtcome⟩ := of_delivered hv
  have hcontrol := (h.threads number _ htask).1
  rw [Thread.of_outcome_ok houtcome] at hcontrol
  exact hcontrol

/-- A task hands over an operand that is in the course of the program as well. -/
lemma push (h : p.Regular r) {thread : Thread Unit}
    (hthread : Machine.Regular r (fun _ => True) (thread, p.state)) {e : Value Unit}
    {env : Env Unit} (hnew : (Thread.start e env).Regular r)
    (htasks : q.tasks =
      (p.tasks.setIfInBounds number ⟨thread, .running⟩).push ⟨.start e env, .queued⟩)
    (hstate : q.state = p.state) : q.Regular r := by
  have hparent : (p.update number (thread, p.state)).Regular r := h.update hthread
  refine ⟨hstate ▸ h.state, ?_⟩
  intro k task hk
  rw [htasks, Array.getElem?_push] at hk
  split at hk
  · cases hk
    exact hnew
  · exact hparent.threads k task hk

theorem turn {limits : Limits} (h : p.Regular r) (htask : p.tasks[number]? = some task)
    (hturn : Turn limits p number task q) : q.Regular r := by
  obtain ⟨hcontrol, hstack⟩ := h.threads number task htask
  have hs := h.state
  cases hturn with
  | start room => exact h.put htask rfl rfl
  | release ended forked released => exact h.put htask rfl rfl
  | @overrelease thread outcome fault ended forked refused =>
    have hfail : Machine.Regular r (fun _ => True) (⟨.fail fault, []⟩, p.state) :=
      ⟨trivial, nofun, hs⟩
    exact h.set hfail rfl rfl
  | deliver => exact h.put htask rfl rfl
  | @work thread own unfinished =>
    have hc : Machine.Regular r (fun _ => True) (thread, p.state) := ⟨hcontrol, hstack, hs⟩
    exact h.update (Machine.regular_step (fun _ _ => trivial) trivial hc fun _ _ _ _ _ => trivial)
  | @gather sharing stack none =>
    have hsharing : sharing.Regular r := hcontrol
    refine h.update ⟨⟨hsharing.head, nofun, ?_⟩, hstack, hs⟩
    intro v hv
    exact hsharing.ready v (List.mem_reverse.mp hv)
  | @acquire sharing stack e rest more free =>
    have hsharing : sharing.Regular r := hcontrol
    obtain ⟨he, hrest⟩ := hsharing.next more
    have hsubmit : Machine.Regular r (fun _ => True)
        (⟨.submit e { sharing with rest }, stack⟩, p.state) := ⟨⟨he, hrest⟩, hstack, hs⟩
    exact h.set hsubmit rfl rfl
  | @inline sharing stack e rest more taken =>
    have hsharing : sharing.Regular r := hcontrol
    obtain ⟨he, hrest⟩ := hsharing.next more
    have hcont : (Cont.inline { sharing with rest }).Regular r := hrest
    exact h.update (Machine.regular_await (fun _ _ => trivial) hcont he hsharing.env hstack
      (hs.of_frames rfl))
  | @submit e sharing stack =>
    obtain ⟨he, hsharing⟩ := hcontrol
    have hfork : Machine.Regular r (fun _ => True) (⟨.fork { sharing with
        underway := .task p.tasks.size :: sharing.underway }, stack⟩, p.state) := by
      refine ⟨⟨hsharing.head, ?_, hsharing.rest, hsharing.env⟩, hstack, hs⟩
      intro v hv
      exact hsharing.ready v ((List.mem_cons.mp hv).resolve_left nofun)
    exact h.push hfork ⟨⟨he, hsharing.env⟩, nofun⟩ rfl rfl
  | @strand e sharing stack =>
    obtain ⟨he, hsharing⟩ := hcontrol
    have hfail : Machine.Regular r (fun _ => True)
        (⟨.fail (Pool.giveBack .tooDeep p.crew).1, stack⟩, p.state) := ⟨trivial, hstack, hs⟩
    exact h.push hfail ⟨⟨he, hsharing.env⟩, nofun⟩ rfl rfl
  | @refuse e sharing stack refusal refused =>
    have hfail : Machine.Regular r (fun _ => True)
        (⟨.fail (Pool.giveBack refusal p.crew).1, stack⟩, p.state) := ⟨trivial, hstack, hs⟩
    exact h.set hfail rfl rfl
  | @combine head values purpose stack operands s list state =>
    obtain ⟨hhead, hvalues, -⟩ := hcontrol
    rw [State.chain_unit] at list state
    have hchain := Value.Regular.chain hvalues (Value.Regular.atom "nil")
    have hproper := Value.ending_chain values .nil
    rw [list, state]
    exact h.update (Machine.regular_finish (fun _ _ => trivial) (.pair hhead hchain) hproper purpose
      hstack hs)
  | ready =>
    obtain ⟨hhead, hvalues, hready⟩ := hcontrol
    have hmore := List.forall_mem_cons.mpr ⟨hready _ List.mem_cons_self, hvalues⟩
    exact h.update ⟨⟨hhead, hmore, fun v hv => hready v (.tail _ hv)⟩, hstack, hs⟩
  | collect delivered =>
    obtain ⟨hhead, hvalues, hready⟩ := hcontrol
    have hmore := List.forall_mem_cons.mpr ⟨h.delivered delivered, hvalues⟩
    exact h.update ⟨⟨hhead, hmore, fun v hv => hready v (.tail _ hv)⟩, hstack, hs⟩
  | fault delivered => exact h.update ⟨trivial, hstack, hs⟩

end Pool.Regular

lemma Cont.Regular.isListed {r : Course} {cont : Cont Unit} (h : cont.Regular r) :
    cont.IsListed := by
  cases cont with
  | share rest env purpose => exact h.2.1
  | _ => trivial

namespace Pool

/-- Any number of steps, of tasks in any order, in which no operand is evaluated by the thread that
wanted to hand it over. -/
def ReachesForking (limits : Limits) : Pool Unit → Pool Unit → Prop :=
  Relation.ReflTransGen fun p q => ∃ number, p.findsSlot number ∧ p.step limits number = some q

/-- Steps of the tasks with the given numbers, as long as operands find slots. -/
def followForking (limits : Limits) : List Nat → Pool Unit → Option (Pool Unit)
  | [], p => some p
  | number :: schedule, p =>
    if p.findsSlot number then (p.step limits number).bind (followForking limits schedule) else none

lemma reachesForking_of_follow {limits : Limits} {schedule : List Nat} {p q : Pool Unit}
    (h : p.followForking limits schedule = some q) : p.ReachesForking limits q := by
  induction schedule generalizing p with
  | nil =>
    cases h
    exact .refl
  | cons number schedule ih =>
    rw [followForking] at h
    split at h
    · rename_i hfinds
      obtain ⟨p₁, hstep, hfollow⟩ := Option.bind_eq_some_iff.mp h
      exact .head ⟨number, hfinds, hstep⟩ (ih hfollow)
    · cases h

/-- As long as operands find slots, all tasks stay on their way without any fault found early. -/
theorem IsCoherent.reachesForking {goal : Value Unit × Env Unit} {start : State Unit}
    {p q : Pool Unit} (h : p.IsCoherent False goal start) {r : Course} (hregular : p.Regular r)
    {crew : Crew} (hbalanced : Balanced crew p) (hfits : crew.free ≤ crew.slots)
    (hwelcome : crew.refusal = none) (run : p.ReachesForking .none q) :
    q.IsCoherent False goal start := by
  -- the operands that a waiting evaluation is to share out make up a list, because it is regular
  have hinv : q.Regular r ∧ Balanced crew q ∧ q.IsCoherent False goal start := by
    induction run with
    | refl => exact ⟨hregular, hbalanced, h⟩
    | tail _ hstep ih =>
      obtain ⟨hregular, hbalanced, h⟩ := ih
      obtain ⟨number, hfinds, hstep⟩ := hstep
      obtain ⟨task, htask, hturn⟩ := turn_of_step hstep
      have hlisted : ∀ cont ∈ task.thread.stack, cont.IsListed := fun cont hcont =>
        ((hregular.threads number task htask).2 cont hcont).isListed
      have hbalanced' := hbalanced.turn hfits (findsRoom_of_unbounded rfl _ number) htask hturn
      exact ⟨hregular.turn htask hturn, hbalanced',
        h.turn hbalanced hfits hwelcome htask hturn (.inr hlisted) (.inr hfinds)⟩
  exact hinv.2.2

/-- If the caller fails, evaluation in order comes to the same fault. -/
lemma IsCoherent.derives_fault {e : Value Unit} {env : Env Unit} {start : State Unit}
    {p : Pool Unit} (h : p.IsCoherent False (e, env) start) (he : e.Within (Safe start []))
    (henv : EnvWithin (Safe start []) env) {thread : Thread Unit}
    (hcaller : p.caller? = some thread) {fault : Fault}
    (hfails : thread.outcome? = some (.error fault)) :
    ∃ s', Derives (.expr e env) start (.error fault) s' := by
  obtain ⟨F, hF, hfault, -⟩ := h.caller_settles hcaller
  refine replaysFault_of_settles (hfault fault hfails) (Itself start) start (.expr e env) ?_ ?_
  · rw [Goal.hidden, View.mask_nil]
    exact hF.mirrors
  · exact .expr he.itself (Linked.itself henv)

end Pool

/-- For every program, every size of the crew, every number of slots that are taken from elsewhere,
and every schedule in which all operands that are to be handed over find a slot: if evaluation in
order fails, then the caller has no other outcome than the same fault. If the caller fails, then
evaluation in order does, and with the same fault. -/
theorem forked_evaluation_fails_alike {code : String} {program : SExpr}
    (accepted : read none code = .ok program) {workers : Int} {crew : Crew}
    (hired : Crew.ofSize workers = .ok crew) {free : Nat} (fits : free ≤ crew.slots)
    (s : State Unit) {p : Pool Unit}
    (run : (Pool.ofProgram { crew with free } program s).ReachesForking .none p) :
    (∀ fuel fault s', Interpreter.eval fuel .none ⟨.inOrder⟩ code s =
        some (.error fault, ⟨.inOrder⟩, s') →
      ∀ outcome, p.caller?.bind Thread.outcome? = some outcome → outcome = .error fault) ∧
    ∀ fault, p.caller?.bind Thread.outcome? = some (.error fault) →
      ∃ fuel s', Interpreter.eval fuel .none ⟨.inOrder⟩ code s =
        some (.error fault, ⟨.inOrder⟩, s') := by
  have hwelcome : crew.refusal = none := Crew.refusal_of_ofSize hired
  have hregular := Pool.Regular.ofProgram { crew with free } (readable_of_read accepted).1 s
  have hcoherent := (Pool.isCoherent_ofProgram False { crew with free } program s).reachesForking
    hregular (Pool.balanced_ofProgram _ program s) fits hwelcome run
  have hprogram : (Value.ofSExpr program).Within
      (Safe (s.log (.programRead program)).globalEnv.2 []) := .ofSExpr program
  have hglobal := globalEnv_within (s.log (.programRead program))
  have hfails : ∀ thread fault, p.caller? = some thread → thread.outcome? = some (.error fault) →
      ∃ s', Derives (.expr (Value.ofSExpr program) (s.log (.programRead program)).globalEnv.1)
        (s.log (.programRead program)).globalEnv.2 (.error fault) s' :=
    fun thread fault hcaller hthread => hcoherent.derives_fault hprogram hglobal hcaller hthread
  refine ⟨?_, ?_⟩
  · intro fuel fault s' heval outcome houtcome
    have hderives := (exists_eval_iff_outcome accepted s s' (.error fault)).mp ⟨fuel, heval⟩
    obtain ⟨thread, hcaller, hthread⟩ := Option.bind_eq_some_iff.mp houtcome
    cases outcome with
    | error fault' =>
      obtain ⟨s₁, hderives₁⟩ := hfails thread fault' hcaller hthread
      exact (hderives₁.unique hderives).1
    | ok w =>
      obtain ⟨v, s₁, hderives₁, -, -⟩ :=
        hcoherent.exists_derives hprogram hglobal hcaller hthread
      cases (hderives₁.unique hderives).1
  · intro fault houtcome
    obtain ⟨thread, hcaller, hthread⟩ := Option.bind_eq_some_iff.mp houtcome
    obtain ⟨s', hderives⟩ := hfails thread fault hcaller hthread
    obtain ⟨fuel, heval⟩ := (exists_eval_iff_outcome accepted s s' (.error fault)).mpr hderives
    exact ⟨fuel, s', heval⟩

/-- The last operand fails first, for a reason of its own, and the caller fails for the reason of
the operand in front of it. -/
theorem fails_alike_when_last_fails_first :
    let code := "(list 1 (car 2) (cdr 3))"
    let program := SExpr.ofList [.atom "list", .atom "1", .ofList [.atom "car", .atom "2"],
      .ofList [.atom "cdr", .atom "3"]]
    read none code = .ok program ∧ Crew.ofSize 3 = .ok ⟨3, 3, none⟩ ∧
      ∃ early late, (Pool.ofProgram ⟨3, 3, none⟩ program .empty).ReachesForking .none early ∧
        early.caller?.bind Thread.outcome? = none ∧
        early.delivered? 2 = some (.error (.cdrOfNonPair "3")) ∧
        early.ReachesForking .none late ∧
        late.caller?.bind Thread.outcome? = some (.error (.carOfNonPair "2")) ∧
        ∃ fuel s', Interpreter.eval fuel .none ⟨.inOrder⟩ code .empty =
          some (.error (.carOfNonPair "2"), ⟨.inOrder⟩, s') := by
  intro code program
  have accepted : read none code = .ok program := by decide +kernel
  have hired : Crew.ofSize 3 = .ok ⟨3, 3, none⟩ := rfl
  -- the tasks of the two operands hand over one operand each: the last one does so first
  let first := List.replicate 8 0 ++ List.replicate 7 2 ++ List.replicate 4 3 ++ List.replicate 4 2
  let rest := List.replicate 7 1 ++ List.replicate 4 4 ++ List.replicate 4 1 ++ [0]
  have hfirst : ((Pool.ofProgram ⟨3, 3, none⟩ program .empty).followForking .none first).map
      (fun p => (p.caller?.bind Thread.outcome?, p.delivered? 2)) =
        some (none, some (.error (.cdrOfNonPair "3"))) := by decide +kernel
  have hlast : (((Pool.ofProgram ⟨3, 3, none⟩ program .empty).followForking .none first).bind
      (Pool.followForking .none rest)).map (fun p => p.caller?.bind Thread.outcome?) =
        some (some (.error (.carOfNonPair "2"))) := by decide +kernel
  obtain ⟨early, hearly, hp⟩ := Option.map_eq_some_iff.mp hfirst
  obtain ⟨hwaits, hdelivered⟩ := Prod.mk.inj hp
  rw [hearly, Option.bind_some] at hlast
  obtain ⟨late, hlate, hfails⟩ := Option.map_eq_some_iff.mp hlast
  have hbefore := Pool.reachesForking_of_follow hearly
  have hafter := Pool.reachesForking_of_follow hlate
  obtain ⟨-, hback⟩ := forked_evaluation_fails_alike accepted hired (Nat.le_refl 3) .empty
    (hbefore.trans hafter)
  exact ⟨accepted, hired, early, late, hbefore, hwaits, hdelivered, hafter, hfails,
    hback _ hfails⟩

end Evlis
