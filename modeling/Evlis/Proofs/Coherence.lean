import Evlis.Proofs.Families
import Evlis.Proofs.SharedOperands
import Evlis.Proofs.SlotAccounting
import Mathlib.Algebra.BigOperators.Group.Finset.Basic

/-!
# Pools in hindsight

Whatever the order of steps, each task of a pool is on its way to an outcome that its expression has
in hindsight: if what remains for it to do has some outcome, then its expression has that outcome,
with the lines printed so far in front. `Coherent` says so for all tasks that have not been
collected yet; every turn of a pool keeps it.
-/

namespace Evlis

/-- The expressions that tasks were made for, as far as there are tasks. -/
def Ledger.Lists (E : Ledger) (size : Nat) (origin : Nat → Value Unit × Env Unit) : Prop :=
  ∀ k < size, origin k = (E k).origin

lemma Ledger.lists_of_revise {E : Ledger} {size t : Nat} {thread : Thread Unit}
    {more : Multiset String} {origin : Nat → Value Unit × Env Unit}
    (h : (E.revise t thread more).Lists size origin) : E.Lists size origin := by
  intro k hk
  rw [h k hk, Ledger.origin_revise]

/-- The task that an entry describes is on its way to an outcome of its expression. -/
structure Entry.Sound (early : Prop) (size : Nat) (E : Ledger) (s : State Unit) (entry : Entry) :
    Prop where
  standing : Standing s entry.base entry.thread.stack
  within : entry.thread.control.Within (Safe s (held entry.thread.stack ++ entry.base))
  settles : ∀ F : View, F.Foresees s → ∀ origin, E.Lists size origin → ∀ o,
    Completes early origin (F.mask entry.base) entry.thread o →
      Settles early (F.mask entry.base) (.expr entry.origin.1 entry.origin.2) (o.after entry.lines)

/-- Since the state `start`, in which the caller began with its expression, all tasks of the family
are on their way, and the lines that have been printed are theirs. -/
structure Coherent (early : Prop) (goal : Value Unit × Env Unit) (start : State Unit) (size : Nat)
    (live : Finset Nat) (E : Ledger) (s : State Unit) : Prop where
  family : Family live E
  known : ∀ t ∈ live, t < size
  origin : (E 0).origin = goal
  past : ∀ F : View, F.Foresees s → F.Foresees start
  sound : ∀ t ∈ live, (E t).Sound early size E s
  printed : (s.printed.toList : Multiset String) =
    start.printed.toList + ∑ t ∈ live, (E t).lines

namespace Entry.Sound

variable {early : Prop} {size size' : Nat} {E E' : Ledger} {s s' : State Unit} {entry : Entry}

/-- Frames that are filled elsewhere make no difference. -/
lemma of_change (h : entry.Sound early size E s)
    (hpast : ∀ F : View, F.Foresees s' → F.Foresees s)
    (horigins : ∀ origin, E'.Lists size' origin → E.Lists size origin)
    (hchange : ∀ n < s.frames.size, s'.frames[n]? = s.frames[n]? ∨
      (s.frames[n]? = some .pending ∧ n ∉ held entry.thread.stack ++ entry.base)) :
    entry.Sound early size' E' s' :=
  ⟨h.standing.of_change hchange, h.within.mono fun _ hn => hn.of_change hchange,
    fun F hF origin horigin => h.settles F (hpast F hF) origin (horigins origin horigin)⟩

lemma of_origins (h : entry.Sound early size E s)
    (horigins : ∀ origin, E'.Lists size' origin → E.Lists size origin) :
    entry.Sound early size' E' s :=
  h.of_change (fun _ hF => hF) horigins fun _ _ => .inl rfl

lemma advance (h : entry.Sound early size E s) {r : Thread Unit × State Unit} {lines : List String}
    (hprogress : ∀ origin, Progress early origin entry.base entry.thread s r)
    (hpast : ∀ F : View, F.Foresees r.2 → F.Foresees s)
    (hlines : r.2.printed.toList = s.printed.toList ++ lines) :
    Entry.Sound early size E r.2
      { entry with thread := r.1, lines := entry.lines + (lines : Multiset String) } := by
  have hfirst := hprogress fun k => (E k).origin
  refine ⟨hfirst.standing, hfirst.within, ?_⟩
  intro F hF origin horigin o ho
  obtain ⟨lines', hlines', hback⟩ := (hprogress origin).back
  obtain rfl : lines = lines' := List.append_cancel_left (hlines.symm.trans hlines')
  have hsettles := h.settles F (hpast F hF) origin horigin _ (hback F hF o ho)
  rwa [Outcome.after_after] at hsettles

end Entry.Sound

lemma sum_lines_revise {live : Finset Nat} {E : Ledger} {t : Nat} (ht : t ∈ live)
    (thread : Thread Unit) (more : Multiset String) :
    ∑ k ∈ live, (E.revise t thread more k).lines = ∑ k ∈ live, (E k).lines + more := by
  rw [← Finset.add_sum_erase live _ ht, ← Finset.add_sum_erase live (fun k => (E k).lines) ht]
  have hothers : ∑ k ∈ live.erase t, (E.revise t thread more k).lines =
      ∑ k ∈ live.erase t, (E k).lines := by
    refine Finset.sum_congr rfl fun k hk => ?_
    rw [E.revise_of_ne t thread more (Finset.ne_of_mem_erase hk)]
  rw [hothers, Ledger.revise_self]
  exact add_right_comm _ _ _

namespace Coherent

variable {early : Prop} {goal : Value Unit × Env Unit} {start s : State Unit} {size t k : Nat}
  {live : Finset Nat} {E : Ledger}

lemma single {e : Value Unit} {env : Env Unit} (he : e.Within (Safe s []))
    (henv : EnvWithin (Safe s []) env) :
    Coherent early (e, env) s 1 {0} (fun _ => ⟨.start e env, 0, [], (e, env), 0⟩) s := by
  refine ⟨⟨Finset.mem_singleton_self 0, rfl, ?_, ?_, ?_, ?_⟩, ?_, rfl, fun _ hF => hF, ?_, ?_⟩
  · exact fun t _ k _ _ n hn => absurd hn List.not_mem_nil
  · exact fun t _ => List.nodup_nil
  · exact fun t _ k P hmem => absurd hmem List.not_mem_nil
  · exact fun k hk hzero => absurd (Finset.mem_singleton.mp hk) hzero
  · intro t ht
    rw [Finset.mem_singleton.mp ht]
    exact Nat.one_pos
  · intro t _
    refine ⟨⟨trivial, nofun, List.nodup_nil, nofun⟩, ⟨he, henv⟩, ?_⟩
    rintro F _ origin _ o ⟨o₁, hsettles, hunwinds⟩
    rw [Outcome.after_zero]
    cases hunwinds with
    | nil => exact hsettles
    | fault => exact hsettles
  · simp

lemma advance (h : Coherent early goal start size live E s) (ht : t ∈ live)
    (unfailed : ∀ fault, (E t).thread.control ≠ .fail fault) {r : Thread Unit × State Unit}
    (hprogress : ∀ origin, Progress early origin (E t).base (E t).thread s r)
    (hchanges : Changes .none (E t).thread.stack s r) :
    ∃ more, Coherent early goal start size live (E.revise t r.1 more) r.2 := by
  have hfirst := hprogress fun k => (E k).origin
  obtain ⟨lines, hlines, -⟩ := hfirst.back
  have hpast : ∀ F : View, F.Foresees r.2 → F.Foresees s :=
    fun F => Machine.foresees_of_changes hchanges
  have horigins : ∀ origin, (E.revise t r.1 lines).Lists size origin → E.Lists size origin :=
    fun origin => Ledger.lists_of_revise
  refine ⟨lines, ?_, h.known, ?_, fun F hF => h.past F (hpast F hF), ?_, ?_⟩
  · refine h.family.advance ht lines unfailed ?_ hfirst.owed
    intro n hn
    rcases hchanges.mem_openFrames hn with hn | rfl
    · exact .inl hn
    · refine .inr fun k hk hmem => ?_
      have hpending := (h.sound k hk).standing.pending _ (List.mem_append_left _ hmem)
      exact Nat.lt_irrefl _ (lt_size_of_getElem? hpending)
  · rw [Ledger.origin_revise, h.origin]
  · intro k hk
    by_cases hkt : k = t
    · subst hkt
      rw [Ledger.revise_self]
      exact ((h.sound k hk).advance hprogress hpast hlines).of_origins horigins
    · rw [Ledger.revise_of_ne _ _ _ _ hkt]
      refine (h.sound k hk).of_change hpast horigins ?_
      intro n hn
      rcases hchanges.frame_cases hn with hsame | ⟨hpending, hopen⟩
      · exact .inl hsame
      · -- the frame was held for nobody else: the children the task waits for keep theirs
        have hdistinct := (h.sound t ht).standing.distinct
        rw [held, hopen, List.nodup_cons] at hdistinct
        have hheld : n ∈ held (E t).thread.stack := by
          rw [held, hopen]
          exact List.mem_cons_self
        refine .inr ⟨hpending, h.family.not_reached ht hk hkt hheld ?_⟩
        rintro child P (hmem | ⟨⟨fault, hfault⟩, -⟩) hP
        · exact hdistinct.1 (held_of_owed (hfirst.owed.mem_iff.mpr hmem) n hP)
        · exact unfailed fault hfault
  · rw [hlines, ← Multiset.coe_add, h.printed, sum_lines_revise ht, add_assoc]

lemma submit (h : Coherent early goal start size live E s) (ht : t ∈ live) {e : Value Unit}
    {sharing : Sharing Unit} {stack : List (Cont Unit)}
    (hthread : (E t).thread = ⟨.submit e sharing, stack⟩) :
    Coherent early goal start (size + 1) (insert size live) (E.submit t size e sharing stack)
      s := by
  have hnew : size ∉ live := fun hsize => Nat.lt_irrefl size (h.known size hsize)
  have hts : t < size := h.known t ht
  have hne : ∀ {k}, k < size → k ≠ size := fun hk => hk.ne
  have horigins : ∀ origin, (E.submit t size e sharing stack).Lists (size + 1) origin →
      E.Lists size origin := by
    intro origin horigin k hk
    rw [horigin k (Nat.lt_succ_of_lt hk), E.origin_submit e sharing stack (hne hk)]
  have hparent := h.sound t ht
  have hstanding := hparent.standing
  obtain ⟨he, hsharing⟩ : e.Within (Safe s (held stack ++ (E t).base)) ∧
      sharing.Within (Safe s (held stack ++ (E t).base)) := by
    have hwithin := hparent.within
    rw [hthread] at hwithin
    exact hwithin
  rw [hthread] at hstanding
  refine ⟨h.family.submit ht hnew hts hthread, ?_, ?_, h.past, ?_, ?_⟩
  · intro k hk
    rcases Finset.mem_insert.mp hk with rfl | hk
    · exact Nat.lt_succ_self k
    · exact Nat.lt_succ_of_lt (h.known k hk)
  · rw [E.origin_submit e sharing stack (hne (h.known 0 h.family.caller)), h.origin]
  · intro k hk
    rcases Finset.mem_insert.mp hk with rfl | hk
    · rw [E.submit_new]
      refine ⟨⟨trivial, ?_, List.nodup_nil, nofun⟩, ⟨he, hsharing.env⟩, ?_⟩
      · exact hstanding.pending
      · rintro F _ origin _ o ⟨o₁, hsettles, hunwinds⟩
        rw [Outcome.after_zero]
        cases hunwinds with
        | nil => exact hsettles
        | fault => exact hsettles
    by_cases hkt : k = t
    · subst hkt
      rw [E.submit_parent e sharing stack hts.ne]
      refine ⟨hstanding, ⟨hsharing.head, ?_, hsharing.rest, hsharing.env⟩, ?_⟩
      · intro v hv
        exact hsharing.ready v ((List.mem_cons.mp hv).resolve_left nofun)
      · intro F hF origin horigin o ho
        refine hparent.settles F hF origin (horigins origin horigin) o ?_
        rw [hthread]
        refine Completes.submit ?_ ho
        rw [horigin size (Nat.lt_succ_self size), E.submit_new]
    · rw [E.submit_of_ne e sharing stack (hne (h.known k hk)) hkt]
      exact (h.sound k hk).of_origins horigins
  · rw [Finset.sum_insert hnew, E.submit_new, zero_add, h.printed]
    congr 1
    refine Finset.sum_congr rfl fun k hk => ?_
    rw [E.lines_submit e sharing stack (hne (h.known k hk))]

section Collecting

variable {head v : Value Unit} {values : List (Value Unit)} {underway : List (Operand Unit)}
  {purpose : Purpose} {stack : List (Cont Unit)}

/-- The child has evaluated its expression where the parent waits for it. -/
lemma child_settles (h : Coherent early goal start size live E s) (ht : t ∈ live)
    (hthread : (E t).thread = ⟨.join head values (.task k :: underway) purpose, stack⟩)
    {F : View} (hF : F.Foresees s) {origin : Nat → Value Unit × Env Unit}
    (horigin : E.Lists size origin) {o : Outcome}
    (hcompletes : Completes early origin (F.mask (E k).base) (E k).thread o) :
    Settles early ((F.mask (E t).base).mask (held stack)) (.expr (origin k).1 (origin k).2)
      (o.after (E k).lines) := by
  obtain ⟨hk, -, -, hbase⟩ := h.family.awaited ht hthread
  have hsettles := (h.sound k hk).settles F hF origin horigin o hcompletes
  rw [hbase, View.mask_append, ← horigin k (h.known k hk)] at hsettles
  exact hsettles

lemma collect (h : Coherent early goal start size live E s) (ht : t ∈ live)
    (hthread : (E t).thread = ⟨.join head values (.task k :: underway) purpose, stack⟩)
    (hgives : (E k).thread = ⟨.give v, []⟩) :
    Coherent early goal start size (live.erase k)
      (E.revise t ⟨.join head (v :: values) underway purpose, stack⟩ (E k).lines) s := by
  obtain ⟨hk, htk, -, hbase⟩ := h.family.awaited ht hthread
  refine ⟨h.family.collect ht hthread hgives _, ?_, ?_, h.past, ?_, ?_⟩
  · exact fun j hj => h.known j (Finset.mem_of_mem_erase hj)
  · rw [Ledger.origin_revise, h.origin]
  · intro j hj
    have hlive := Finset.mem_of_mem_erase hj
    by_cases hjt : j = t
    · subst hjt
      have hparent := h.sound j ht
      have hchild := h.sound k hk
      have hstanding := hparent.standing
      have hwithin := hparent.within
      have hv := hchild.within
      rw [hthread] at hstanding hwithin
      rw [hgives, hbase] at hv
      obtain ⟨hhead, hvalues, hready⟩ := hwithin
      rw [Ledger.revise_self]
      refine ⟨hstanding, ⟨hhead, ?_, fun w hw => hready w (List.mem_cons_of_mem _ hw)⟩, ?_⟩
      · intro w hw
        rcases List.mem_cons.mp hw with rfl | hw
        · exact hv
        · exact hvalues w hw
      · intro F hF origin horigin o ho
        have horigin := Ledger.lists_of_revise horigin
        have hvalue : Completes early origin (F.mask (E k).base) (E k).thread (.ok (v, 0)) := by
          rw [hgives]
          exact ⟨.ok (v, 0), rfl, .nil _⟩
        have hchild := h.child_settles ht hthread hF horigin hvalue
        rw [Outcome.after_ok, add_zero] at hchild
        rw [← Outcome.after_after]
        refine hparent.settles F hF origin horigin _ ?_
        rw [hthread]
        exact Completes.collect hchild ho
    · rw [Ledger.revise_of_ne _ _ _ _ hjt]
      exact (h.sound j hlive).of_origins fun _ => Ledger.lists_of_revise
  · have htlive : t ∈ live.erase k := Finset.mem_erase.mpr ⟨htk.ne, ht⟩
    rw [sum_lines_revise htlive, h.printed, ← Finset.sum_erase_add live _ hk]

lemma fault (h : Coherent early goal start size live E s) (ht : t ∈ live)
    (hthread : (E t).thread = ⟨.join head values (.task k :: underway) purpose, stack⟩)
    {fault : Fault} (hfails : (E k).thread.control = .fail fault) :
    Coherent early goal start size live (E.revise t ⟨.fail fault, stack⟩ 0) s := by
  have hk := (h.family.awaited ht hthread).1
  refine ⟨h.family.fail ht hthread fault 0, h.known, ?_, h.past, ?_, ?_⟩
  · rw [Ledger.origin_revise, h.origin]
  · intro j hj
    by_cases hjt : j = t
    · subst hjt
      have hparent := h.sound j ht
      have hstanding := hparent.standing
      rw [hthread] at hstanding
      rw [Ledger.revise_self, add_zero]
      refine ⟨hstanding, trivial, ?_⟩
      intro F hF origin horigin o ho
      have horigin := Ledger.lists_of_revise horigin
      have hfault : Completes early origin (F.mask (E k).base) (E k).thread (.error fault) := by
        refine ⟨.error fault, ?_, .fault _ fault⟩
        rw [hfails]
        rfl
      refine hparent.settles F hF origin horigin o ?_
      rw [hthread]
      exact Completes.fault (h.child_settles ht hthread hF horigin hfault) ho
    · rw [Ledger.revise_of_ne _ _ _ _ hjt]
      exact (h.sound j hj).of_origins fun _ => Ledger.lists_of_revise
  · rw [sum_lines_revise ht, add_zero, h.printed]

end Collecting

end Coherent

/-- The ledger agrees with the tasks of a pool, and only tasks that have finished are missing from
the family. -/
def Tracks (live : Finset Nat) (E : Ledger) (tasks : Array (Task Unit)) : Prop :=
  ∀ (t : Nat) task, tasks[t]? = some task →
    task.thread = (E t).thread ∧ (t ∉ live → task.phase = .finished)

namespace Tracks

variable {live : Finset Nat} {E : Ledger} {tasks : Array (Task Unit)} {t k : Nat}

lemma mem_live (h : Tracks live E tasks) {task : Task Unit} (htask : tasks[t]? = some task)
    (hphase : task.phase ≠ .finished) : t ∈ live := by
  by_contra hnot
  exact hphase ((h t task htask).2 hnot)

lemma revise (h : Tracks live E tasks) (ht : t ∈ live) (thread : Thread Unit)
    (more : Multiset String) (phase : Phase) :
    Tracks live (E.revise t thread more) (tasks.setIfInBounds t ⟨thread, phase⟩) := by
  intro j task hj
  by_cases hjt : t = j
  · subst hjt
    have hlt := lt_size_of_getElem? hj
    rw [Array.size_setIfInBounds] at hlt
    rw [Array.getElem?_setIfInBounds_self_of_lt hlt] at hj
    cases hj
    rw [Ledger.revise_self]
    exact ⟨rfl, fun hnot => absurd ht hnot⟩
  · rw [Array.getElem?_setIfInBounds_ne hjt] at hj
    rw [Ledger.revise_of_ne _ _ _ _ (Ne.symm hjt)]
    exact h j task hj

lemma set (h : Tracks live E tasks) (ht : t ∈ live) {thread : Thread Unit}
    (hthread : (E t).thread = thread) (phase : Phase) :
    Tracks live E (tasks.setIfInBounds t ⟨thread, phase⟩) := by
  have hsame : E.revise t thread 0 = E := by
    rw [Ledger.revise, add_zero, ← hthread]
    exact Function.update_eq_self t E
  have hrevised := h.revise ht thread 0 phase
  rwa [hsame] at hrevised

lemma erase (h : Tracks live E tasks)
    (hfinished : ∀ task, tasks[k]? = some task → task.phase = .finished) :
    Tracks (live.erase k) E tasks := by
  intro j task hj
  refine ⟨(h j task hj).1, fun hnot => ?_⟩
  by_cases hjk : j = k
  · subst hjk
    exact hfinished task hj
  · exact (h j task hj).2 fun hlive => hnot (Finset.mem_erase.mpr ⟨hjk, hlive⟩)

lemma submit (h : Tracks live E tasks) (ht : t ∈ live) (e : Value Unit)
    (sharing : Sharing Unit) (stack : List (Cont Unit)) (phase phase' : Phase) :
    Tracks (insert tasks.size live) (E.submit t tasks.size e sharing stack)
      ((tasks.setIfInBounds t ⟨⟨.fork { sharing with
        underway := .task tasks.size :: sharing.underway }, stack⟩, phase⟩).push
          ⟨.start e sharing.env, phase'⟩) := by
  intro j task hj
  rw [Array.getElem?_push, Array.size_setIfInBounds] at hj
  split at hj
  · rename_i hsize
    subst hsize
    cases hj
    rw [E.submit_new]
    exact ⟨rfl, fun hnot => absurd (Finset.mem_insert_self ..) hnot⟩
  · rename_i hsize
    rw [Ledger.submit, Function.update_of_ne hsize]
    have hrevised := h.revise ht (⟨.fork { sharing with
      underway := .task tasks.size :: sharing.underway }, stack⟩) 0 phase j task hj
    refine ⟨hrevised.1, fun hnot => hrevised.2 fun hlive => hnot ?_⟩
    exact Finset.mem_insert_of_mem hlive

end Tracks

/-- Every task of the pool is on its way to an outcome of its expression. -/
def Pool.IsCoherent (early : Prop) (goal : Value Unit × Env Unit) (start : State Unit)
    (p : Pool Unit) : Prop :=
  ∃ live E, Coherent early goal start p.tasks.size live E p.state ∧ Tracks live E p.tasks

namespace Pool.IsCoherent

variable {early : Prop} {goal : Value Unit × Env Unit} {start : State Unit} {p q : Pool Unit}
  {number : Nat} {task : Task Unit}

lemma ofThread {e : Value Unit} {env : Env Unit} {s : State Unit} (crew : Crew)
    (he : e.Within (Safe s [])) (henv : EnvWithin (Safe s []) env) :
    IsCoherent early (e, env) s (.ofThread crew (.start e env) s) := by
  refine ⟨{0}, _, Coherent.single he henv, ?_⟩
  intro t task ht
  have hlt := lt_size_of_getElem? ht
  obtain rfl : t = 0 := Nat.lt_one_iff.mp hlt
  cases ht
  exact ⟨rfl, fun hnot => absurd (Finset.mem_singleton_self 0) hnot⟩

lemma update (h : p.IsCoherent early goal start) {thread : Thread Unit}
    (htask : p.tasks[number]? = some ⟨thread, .running⟩)
    (unfailed : ∀ fault, thread.control ≠ .fail fault) {r : Thread Unit × State Unit}
    (hprogress : ∀ base, Standing p.state base thread.stack →
      thread.control.Within (Safe p.state (held thread.stack ++ base)) →
        ∀ origin, Progress early origin base thread p.state r)
    (hchanges : Changes .none thread.stack p.state r) :
    (p.update number r).IsCoherent early goal start := by
  obtain ⟨live, E, hcoherent, htracks⟩ := h
  have hlive := htracks.mem_live htask nofun
  obtain rfl : thread = (E number).thread := (htracks number _ htask).1
  have hsound := hcoherent.sound number hlive
  obtain ⟨more, hcoherent'⟩ := hcoherent.advance hlive unfailed
    (hprogress _ hsound.standing hsound.within) hchanges
  refine ⟨live, _, ?_, htracks.revise hlive r.1 more .running⟩
  rw [Pool.update, Array.size_setIfInBounds]
  exact hcoherent'

lemma put (h : p.IsCoherent early goal start) (htask : p.tasks[number]? = some task)
    (hphase : task.phase ≠ .finished) {phase : Phase}
    (htasks : q.tasks = p.tasks.setIfInBounds number ⟨task.thread, phase⟩)
    (hstate : q.state = p.state) : q.IsCoherent early goal start := by
  obtain ⟨live, E, hcoherent, htracks⟩ := h
  have hlive := htracks.mem_live htask hphase
  refine ⟨live, E, ?_, ?_⟩
  · rw [htasks, hstate, Array.size_setIfInBounds]
    exact hcoherent
  · rw [htasks]
    exact htracks.set hlive (htracks number task htask).1.symm phase

lemma submit (h : p.IsCoherent early goal start) {e : Value Unit} {sharing : Sharing Unit}
    {stack : List (Cont Unit)}
    (htask : p.tasks[number]? = some ⟨⟨.submit e sharing, stack⟩, .running⟩) :
    IsCoherent early goal start { p with
      tasks := (p.tasks.setIfInBounds number ⟨⟨.fork { sharing with
        underway := .task p.tasks.size :: sharing.underway }, stack⟩, .running⟩).push
          ⟨.start e sharing.env, .queued⟩ } := by
  obtain ⟨live, E, hcoherent, htracks⟩ := h
  have hlive := htracks.mem_live htask nofun
  refine ⟨_, _, ?_, htracks.submit hlive e sharing stack .running .queued⟩
  rw [Array.size_push, Array.size_setIfInBounds]
  exact hcoherent.submit hlive (htracks number _ htask).1.symm

section Collecting

variable {head : Value Unit} {values : List (Value Unit)} {underway : List (Operand Unit)}
  {purpose : Purpose} {stack : List (Cont Unit)} {other : Nat}

lemma collect (h : p.IsCoherent early goal start)
    (htask : p.tasks[number]? =
      some ⟨⟨.join head values (.task other :: underway) purpose, stack⟩, .running⟩)
    {v : Value Unit} (delivered : p.delivered? other = some (.ok v)) :
    IsCoherent early goal start
      (p.update number (⟨.join head (v :: values) underway purpose, stack⟩, p.state)) := by
  obtain ⟨live, E, hcoherent, htracks⟩ := h
  obtain ⟨thread, hother, hvalue⟩ := of_delivered delivered
  have hlive := htracks.mem_live htask nofun
  have hgives : (E other).thread = ⟨.give v, []⟩ :=
    (htracks other _ hother).1.symm.trans (Thread.of_outcome_ok hvalue)
  have hne : number ≠ other := by
    rintro rfl
    rw [htask] at hother
    cases hother
  have hfinished : ∀ task, p.tasks[other]? = some task → task.phase = .finished := by
    intro task htask
    rw [hother] at htask
    cases htask
    rfl
  have hlive' : number ∈ live.erase other := Finset.mem_erase.mpr ⟨hne, hlive⟩
  refine ⟨_, _, ?_, (htracks.erase hfinished).revise hlive' _ (E other).lines .running⟩
  rw [Pool.update, Array.size_setIfInBounds]
  exact hcoherent.collect hlive (htracks number _ htask).1.symm hgives

lemma fault (h : p.IsCoherent early goal start)
    (htask : p.tasks[number]? =
      some ⟨⟨.join head values (.task other :: underway) purpose, stack⟩, .running⟩)
    {fault : Fault} (delivered : p.delivered? other = some (.error fault)) :
    IsCoherent early goal start (p.update number (⟨.fail fault, stack⟩, p.state)) := by
  obtain ⟨live, E, hcoherent, htracks⟩ := h
  obtain ⟨thread, hother, hfault⟩ := of_delivered delivered
  have hlive := htracks.mem_live htask nofun
  have hfails : (E other).thread.control = .fail fault := by
    rw [← (htracks other _ hother).1]
    exact Thread.of_outcome_error hfault
  refine ⟨live, _, ?_, htracks.revise hlive _ 0 .running⟩
  rw [Pool.update, Array.size_setIfInBounds]
  exact hcoherent.fault hlive (htracks number _ htask).1.symm hfails

end Collecting

/-- A turn keeps all tasks on their way, if a fault of an operand may be found early, or if no
operand can fail before others that have been handed over. -/
theorem turn (h : p.IsCoherent early goal start) {crew : Crew} (hbalanced : Balanced crew p)
    (hfits : crew.free ≤ crew.slots) (hwelcome : crew.refusal = none)
    (htask : p.tasks[number]? = some task) (hturn : Turn .none p number task q)
    (hlisted : early ∨ ∀ cont ∈ task.thread.stack, cont.IsListed)
    (hforks : early ∨ p.findsSlot number) : q.IsCoherent early goal start := by
  cases hturn with
  | start room => exact h.put htask nofun rfl rfl
  | release ended forked released => exact h.put htask nofun rfl rfl
  | overrelease ended forked refused =>
    rw [hbalanced.release_running hfits htask forked] at refused
    cases refused
  | deliver => exact h.put htask nofun rfl rfl
  | @work thread own unfinished =>
    have unfailed : ∀ fault, thread.control ≠ .fail fault := by
      intro fault hfault
      rw [Thread.outcome?, hfault] at unfinished
      cases unfinished
    exact h.update htask unfailed
      (fun base st hw origin => Machine.progress_step hlisted own unfinished st hw)
      (Machine.changes_step .none .shared thread p.state unfailed)
  | gather none =>
    exact h.update htask nofun (fun base st hw origin => progress_gather st hw none)
      (Machine.changes_of_control .none rfl rfl nofun)
  | acquire more free =>
    exact h.update (p := p) htask nofun (fun base st hw origin => progress_acquire st hw more)
      (Machine.changes_of_control .none rfl rfl nofun)
  | inline more taken =>
    have allowed : early := hforks.resolve_right (not_findsSlot htask more taken)
    exact h.update htask nofun (fun base st hw origin => progress_inline allowed st hw more _)
      (Machine.changes_of_control .none rfl rfl nofun)
  | submit welcome => exact h.submit htask
  | refuse refused =>
    rw [hbalanced.refusal, hwelcome] at refused
    cases refused
  | strand _ cramped => cases cramped
  | @combine head values purpose stack operands s list state =>
    have hlist : operands = chained (values ++ [head]) .nil := by
      rw [list, State.chain_unit, chained, List.foldl_append]
      rfl
    have hstate : s = p.state := by
      rw [state, State.chain_unit]
      rfl
    rw [hlist, hstate]
    exact h.update htask nofun (fun base st hw origin => progress_combine st hw)
      (Machine.changes_finish .none purpose _ stack rfl)
  | ready =>
    exact h.update htask nofun (fun base st hw origin => progress_ready st hw)
      (Machine.changes_of_control .none rfl rfl nofun)
  | collect delivered => exact h.collect htask delivered
  | fault delivered => exact h.fault htask delivered

/-- In every run, all tasks stay on their way. -/
theorem reaches (allowed : early) (h : p.IsCoherent early goal start) {crew : Crew}
    (hbalanced : Balanced crew p) (hfits : crew.free ≤ crew.slots) (hwelcome : crew.refusal = none)
    (hreaches : p.Reaches .none q) : q.IsCoherent early goal start := by
  have hinv : Balanced crew q ∧ q.IsCoherent early goal start := by
    refine (hreaches.inRoom rfl).induct (fun p => Balanced crew p ∧ p.IsCoherent early goal start)
      ?_ ⟨hbalanced, h⟩
    intro p q number task ⟨hbalanced, h⟩ room htask hturn
    exact ⟨hbalanced.turn hfits room htask hturn,
      h.turn hbalanced hfits hwelcome htask hturn (.inl allowed) (.inl allowed)⟩
  exact hinv.2

end Pool.IsCoherent

end Evlis
