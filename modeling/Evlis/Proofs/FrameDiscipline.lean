import Evlis.Evaluation
import Evlis.Proofs.FrameChanges
import Mathlib.Logic.Relation

/-!
# The discipline of frames

Evaluating an expression never touches a frame that was there before. The frames it adds by
`letrec` are filled at most once, with all their bindings together, and if a value comes out no
frame is left pending.
-/

namespace Evlis

variable {ι : Type}

/-- The frames of open bindings, innermost first. -/
def openFrames (opened : List (Value ι × Binding ι)) : List Nat :=
  opened.map fun entry => entry.2.frame

/-- Where a run stands that began with the frames `before`. -/
structure Disciplined (before : Array (Frame ι)) (control : Control ι)
    (opened : List (Value ι × Binding ι)) (frames : Array (Frame ι)) : Prop where
  grown : before.size ≤ frames.size
  kept : ∀ n < before.size, frames[n]? = before[n]?
  added : ∀ n ∈ openFrames opened, before.size ≤ n
  pending : ∀ n ∈ openFrames opened, frames[n]? = some .pending
  distinct : (openFrames opened).Nodup
  /-- Unless evaluation has failed, every new frame that is pending will be filled. -/
  awaited : (∀ fault, control ≠ .fail fault) → ∀ n, before.size ≤ n →
    frames[n]? = some .pending → n ∈ openFrames opened
  ordinary : control ≠ .fail .frameFilled

lemma getElem?_push_of_lt {α : Type} {xs : Array α} {x : α} {n : Nat} (h : n < xs.size) :
    (xs.push x)[n]? = xs[n]? := by
  rw [Array.getElem?_push, if_neg (Nat.ne_of_lt h)]

lemma forall_push {α : Type} {xs : Array α} {P : Nat → α → Prop}
    (h : ∀ n x, xs[n]? = some x → P n x) {new : α} (hnew : P xs.size new) :
    ∀ n x, (xs.push new)[n]? = some x → P n x := by
  intro n x hn
  rw [Array.getElem?_push] at hn
  split at hn
  · rename_i hsize
    cases hn
    rw [hsize]
    exact hnew
  · exact h n x hn

lemma forall_setIfInBounds {α : Type} {xs : Array α} {P : Nat → α → Prop}
    (h : ∀ n x, xs[n]? = some x → P n x) {k : Nat} {new : α} (hnew : P k new) :
    ∀ n x, (xs.setIfInBounds k new)[n]? = some x → P n x := by
  intro n x hn
  rw [Array.getElem?_setIfInBounds] at hn
  split at hn
  · rename_i hk
    subst hk
    split at hn
    · cases hn
      exact hnew
    · cases hn
  · exact h n x hn

lemma lt_size_of_getElem? {α : Type} {xs : Array α} {x : α} {n : Nat} (h : xs[n]? = some x) :
    n < xs.size :=
  (Array.getElem?_eq_some_iff.mp h).1

namespace Disciplined

variable {limits : Limits} {before frames frames' : Array (Frame ι)} {control control' : Control ι}
  {opened opened' : List (Value ι × Binding ι)}

lemma push (d : Disciplined before control opened frames) (frame : Frame ι) :
    before.size ≤ (frames.push frame).size ∧
    (∀ n < before.size, (frames.push frame)[n]? = before[n]?) ∧
    (∀ n ∈ openFrames opened, (frames.push frame)[n]? = some .pending) ∧
    (∀ n, (frames.push frame)[n]? = some .pending →
      (n = frames.size ∧ frame = .pending) ∨ frames[n]? = some .pending) := by
  refine ⟨?_, ?_, ?_, ?_⟩
  · rw [Array.size_push]
    exact Nat.le_succ_of_le d.grown
  · intro n hn
    rw [getElem?_push_of_lt (Nat.lt_of_lt_of_le hn d.grown)]
    exact d.kept n hn
  · intro n hn
    rw [getElem?_push_of_lt (lt_size_of_getElem? (d.pending n hn))]
    exact d.pending n hn
  · intro n hn
    rw [Array.getElem?_push] at hn
    split at hn
    · rename_i heq
      exact .inl ⟨heq, Option.some.inj hn⟩
    · exact .inr hn

theorem step (d : Disciplined before control opened frames)
    (running : ∀ fault, control ≠ .fail fault)
    (h : Change limits opened frames control' opened' frames') :
    Disciplined before control' opened' frames' := by
  cases h with
  | quiet ordinary =>
    exact ⟨d.grown, d.kept, d.added, d.pending, d.distinct, fun _ => d.awaited running,
      fun hf => (ordinary _ hf).ne_frameFilled rfl⟩
  | abandon ordinary =>
    refine ⟨d.grown, d.kept, fun n hn => d.added n (.tail _ hn),
      fun n hn => d.pending n (.tail _ hn), (List.nodup_cons.mp d.distinct).2,
      fun hf => absurd rfl (hf _), ?_⟩
    rintro ⟨⟩
    exact ordinary
  | bound names values =>
    obtain ⟨hgrown, hkept, hpending, hback⟩ := d.push (.filled names values)
    refine ⟨hgrown, hkept, d.added, hpending, d.distinct, fun _ n hn hp => ?_, by simp⟩
    rcases hback n hp with ⟨_, hframe⟩ | hold
    · cases hframe
    · exact d.awaited running n hn hold
  | @opening _ _ e env name b hframe =>
    obtain ⟨hgrown, hkept, hpending, hback⟩ := d.push .pending
    have hnew : openFrames ((name, b) :: opened) = frames.size :: openFrames opened := by
      simp [openFrames, hframe]
    rw [← hframe] at hnew
    refine ⟨hgrown, hkept, ?_, ?_, ?_, ?_, by simp⟩
    · intro n hn
      rw [hnew, hframe] at hn
      rcases List.mem_cons.mp hn with rfl | hn
      · exact d.grown
      · exact d.added n hn
    · intro n hn
      rw [hnew, hframe] at hn
      rcases List.mem_cons.mp hn with rfl | hn
      · exact Array.getElem?_push_size
      · exact hpending n hn
    · rw [hnew, hframe]
      refine List.nodup_cons.mpr ⟨fun hmem => ?_, d.distinct⟩
      exact Nat.lt_irrefl _ (lt_size_of_getElem? (d.pending _ hmem))
    · intro _ n hn hp
      rw [hnew, hframe]
      rcases hback n hp with ⟨heq, _⟩ | hold
      · exact heq ▸ List.mem_cons_self
      · exact List.mem_cons_of_mem _ (d.awaited running n hn hold)
  | stillborn ordinary =>
    obtain ⟨hgrown, hkept, hpending, hback⟩ := d.push .pending
    refine ⟨hgrown, hkept, d.added, hpending, d.distinct, fun hf => absurd rfl (hf _), ?_⟩
    rintro ⟨⟩
    exact ordinary
  | @further opened _ _ _ name name' rest b b' extended next =>
    have hsame : openFrames ((name', { b' with rest }) :: opened) =
        openFrames ((name, b) :: opened) := by simp [openFrames, extended.frame]
    refine ⟨d.grown, d.kept, ?_, ?_, ?_, fun _ => ?_, by simp⟩
    · rw [hsame]
      exact d.added
    · rw [hsame]
      exact d.pending
    · rw [hsame]
      exact d.distinct
    · rw [hsame]
      exact d.awaited running
  | @filling opened _ _ _ name b b' extended next pending =>
    obtain ⟨hnot, hdistinct⟩ := List.nodup_cons.mp d.distinct
    have hother : ∀ n, n ≠ b.frame →
        (frames.setIfInBounds b.frame (.filled b'.names b'.values))[n]? = frames[n]? :=
      fun n hn => Array.getElem?_setIfInBounds_ne hn.symm
    refine ⟨?_, ?_, fun n hn => d.added n (.tail _ hn), ?_, hdistinct, fun _ => ?_, by simp⟩
    · rw [Array.size_setIfInBounds]
      exact d.grown
    · intro n hn
      have hne : n ≠ b.frame := Nat.ne_of_lt (Nat.lt_of_lt_of_le hn (d.added _ List.mem_cons_self))
      rw [hother n hne]
      exact d.kept n hn
    · intro n hn
      have hne : n ≠ b.frame := by
        rintro rfl
        exact hnot hn
      rw [hother n hne]
      exact d.pending n (.tail _ hn)
    · intro n hn hp
      have hne : n ≠ b.frame := by
        rintro rfl
        rw [Array.getElem?_setIfInBounds_self_of_lt (lt_size_of_getElem? pending)] at hp
        cases hp
      rw [hother n hne] at hp
      rcases List.mem_cons.mp (d.awaited running n hn hp) with heq | hmem
      · exact absurd heq hne
      · exact hmem
  | refused filled =>
    exact absurd (d.pending _ (List.mem_cons_self)) filled

end Disciplined

/-- The names that a list of bindings binds, as far as they have one. -/
def Value.boundNames (bs : Value ι) : List (Option (Value ι)) :=
  bs.elements.map fun binding => binding.elements.head?

/-- A frame binds all the names of the bindings, last first, or none. -/
def Frame.AllOrNone (bs : Value ι) : Frame ι → Prop
  | .pending => True
  | .filled names values =>
    bs.boundNames = names.elements.reverse.map some ∧ values.length = names.length

/-- The names bound so far, the name that is being bound, and the names still to come are all the
names of the bindings. -/
structure Binding.Covers (bs name : Value ι) (b : Binding ι) : Prop where
  names : bs.boundNames = (b.names.elements.reverse ++ [name]).map some ++ b.rest.boundNames
  values : b.values.length = b.names.length

namespace Binding

variable {limits : Limits} {b b' : Binding ι} {bs name name' e rest : Value ι}

lemma boundNames_of_next (h : b.next limits = .ok (some (name, e, rest))) :
    b.rest.boundNames = some name :: rest.boundNames := by
  unfold next at h
  split at h
  · rename_i mark binding _ hrest
    have hparts : ∀ parts, Machine.bindingParts limits binding = .ok parts →
        binding.elements = parts := by
      intro parts hp
      cases binding with
      | pair _ _ _ =>
        unfold Machine.bindingParts Value.toList at hp
        dsimp only at hp
        split at hp
        · exact Except.ok.inj hp
        · cases hp
      | _ => exact Except.ok.inj hp
    split at h
    · cases h
    · rename_i parts
      split at h
      · cases h
      · cases h
        rw [hrest, Value.boundNames, Value.elements_pair, List.map_cons, hparts _ parts]
        rfl
    · cases h
  · split at h
    · cases h
    · cases h

lemma boundNames_of_next_none (h : b.next limits = .ok none) : b.rest.boundNames = [] := by
  unfold next at h
  split at h
  · split at h
    · cases h
    · split at h <;> cases h
    · cases h
  · rename_i hrest
    cases hb : b.rest with
    | pair mark binding rest => exact absurd hb (hrest mark binding rest)
    | _ => rfl

lemma Covers.further (h : b.Covers bs name) (extended : b.Extends name b')
    (next : b'.next limits = .ok (some (name', e, rest))) :
    ({ b' with rest } : Binding ι).Covers bs name' := by
  obtain ⟨m, hnames⟩ := extended.names
  obtain ⟨m', v, hvalues⟩ := extended.values
  constructor
  · rw [h.names, ← extended.rest, boundNames_of_next next]
    simp [hnames]
  · simp [hnames, hvalues, h.values]

lemma Covers.filling (h : b.Covers bs name) (extended : b.Extends name b')
    (next : b'.next limits = .ok none) : (Frame.filled b'.names b'.values).AllOrNone bs := by
  obtain ⟨m, hnames⟩ := extended.names
  obtain ⟨m', v, hvalues⟩ := extended.values
  constructor
  · rw [h.names, ← extended.rest, boundNames_of_next_none next]
    simp [hnames]
  · simp [hnames, hvalues, h.values]

end Binding

/-- A frame holds all or none of the bindings, and whoever fills it will install them all. -/
structure Followed (bs : Value ι) (n : Nat) (opened : List (Value ι × Binding ι))
    (frames : Array (Frame ι)) : Prop where
  covered : ∀ entry ∈ opened, entry.2.frame = n → entry.2.Covers bs entry.1
  whole : ∃ frame, frames[n]? = some frame ∧ frame.AllOrNone bs

namespace Followed

variable {limits : Limits} {bs : Value ι} {n : Nat} {frames frames' : Array (Frame ι)}
  {control' : Control ι} {opened opened' : List (Value ι × Binding ι)}

lemma lt_size (f : Followed bs n opened frames) : n < frames.size := by
  obtain ⟨frame, hframe, _⟩ := f.whole
  exact lt_size_of_getElem? hframe

lemma whole_push (f : Followed bs n opened frames) (frame : Frame ι) :
    ∃ frame', (frames.push frame)[n]? = some frame' ∧ frame'.AllOrNone bs := by
  rw [getElem?_push_of_lt f.lt_size]
  exact f.whole

theorem step (f : Followed bs n opened frames)
    (h : Change limits opened frames control' opened' frames') :
    Followed bs n opened' frames' := by
  cases h with
  | quiet => exact f
  | abandon => exact ⟨fun entry hentry => f.covered entry (.tail _ hentry), f.whole⟩
  | bound => exact ⟨f.covered, f.whole_push _⟩
  | opening hframe =>
    refine ⟨fun entry hentry hn => ?_, f.whole_push _⟩
    rcases List.mem_cons.mp hentry with rfl | hentry
    · exact absurd (hframe.symm.trans hn) (Nat.ne_of_gt f.lt_size)
    · exact f.covered entry hentry hn
  | stillborn => exact ⟨f.covered, f.whole_push _⟩
  | further extended next =>
    refine ⟨fun entry hentry hn => ?_, f.whole⟩
    rcases List.mem_cons.mp hentry with rfl | hentry
    · exact (f.covered _ List.mem_cons_self (extended.frame.symm.trans hn)).further extended next
    · exact f.covered entry (.tail _ hentry) hn
  | @filling _ _ _ _ name b b' extended next pending =>
    refine ⟨fun entry hentry => f.covered entry (.tail _ hentry), ?_⟩
    by_cases hn : b.frame = n
    · rw [← hn, Array.getElem?_setIfInBounds_self_of_lt (lt_size_of_getElem? pending)]
      exact ⟨_, rfl, (f.covered _ List.mem_cons_self hn).filling extended next⟩
    · rw [Array.getElem?_setIfInBounds_ne hn]
      exact f.whole
  | refused => exact ⟨fun entry hentry => f.covered entry (.tail _ hentry), f.whole⟩

end Followed

namespace Change

variable {limits : Limits} {opened opened' : List (Value ι × Binding ι)}
  {frames frames' : Array (Frame ι)} {control' : Control ι}

/-- A frame stays as it is unless it is the one of the innermost bindings, which are then done. -/
lemma frame_cases (h : Change limits opened frames control' opened' frames') {n : Nat}
    (hn : n < frames.size) :
    frames'[n]? = frames[n]? ∨
      (frames[n]? = some .pending ∧ openFrames opened = n :: openFrames opened') := by
  cases h with
  | bound => exact .inl (getElem?_push_of_lt hn)
  | opening => exact .inl (getElem?_push_of_lt hn)
  | stillborn => exact .inl (getElem?_push_of_lt hn)
  | @filling _ _ _ _ _ b _ _ _ pending =>
    by_cases hframe : b.frame = n
    · subst hframe
      exact .inr ⟨pending, rfl⟩
    · exact .inl (Array.getElem?_setIfInBounds_ne hframe)
  | _ => exact .inl rfl

lemma filled_persists (h : Change limits opened frames control' opened' frames') {n : Nat}
    {names values : Value ι} (hn : frames[n]? = some (.filled names values)) :
    frames'[n]? = some (.filled names values) := by
  rcases h.frame_cases (lt_size_of_getElem? hn) with hsame | ⟨hpending, -⟩
  · rwa [hsame]
  · rw [hpending] at hn
    cases hn

/-- Bindings that are open after a step were open before, or their frame is new. -/
lemma mem_openFrames (h : Change limits opened frames control' opened' frames') {n : Nat}
    (hn : n ∈ openFrames opened') : n ∈ openFrames opened ∨ n = frames.size := by
  cases h with
  | quiet => exact .inl hn
  | abandon => exact .inl (List.mem_cons_of_mem _ hn)
  | bound => exact .inl hn
  | opening frame =>
    rcases List.mem_cons.mp hn with rfl | hn
    · exact .inr frame
    · exact .inl hn
  | stillborn => exact .inl hn
  | further extended next =>
    rw [openFrames, List.map_cons] at hn ⊢
    rw [extended.frame] at hn
    exact .inl hn
  | filling => exact .inl (List.mem_cons_of_mem _ hn)
  | refused => exact .inl (List.mem_cons_of_mem _ hn)

end Change

/-! ## Runs -/

namespace Machine

variable [DecidableEq ι] [Marking ι]

/-- The threads and states that a run in order comes through. -/
def Reaches (limits : Limits) : Thread ι × State ι → Thread ι × State ι → Prop :=
  Relation.ReflTransGen fun c c' => step limits .inOrder c.1 c.2 = c'

lemma reaches_of_runUntil {α : Type} {done? : Thread ι → Option α} {limits : Limits} {fuel : Nat}
    {thread : Thread ι} {s s' : State ι} {result : α}
    (h : runUntil done? limits fuel thread s = some (result, s')) :
    ∃ thread', Reaches limits (thread, s) (thread', s') ∧ done? thread' = some result := by
  induction fuel generalizing thread s with
  | zero => cases h
  | succ fuel ih =>
    rw [runUntil] at h
    split at h
    · rename_i found
      cases h
      exact ⟨thread, .refl, found⟩
    · obtain ⟨thread', hreach, hdone⟩ := ih h
      exact ⟨thread', .head rfl hreach, hdone⟩

lemma step_of_fail (limits : Limits) (mode : Mode) {thread : Thread ι} {fault : Fault}
    (h : thread.control = .fail fault) (s : State ι) : step limits mode thread s = (thread, s) := by
  unfold step
  rw [h]

/-- A step that changes nothing, or one that `Change` lists. -/
lemma step_cases (limits : Limits) (c : Thread ι × State ι) :
    step limits .inOrder c.1 c.2 = c ∨ ((∀ fault, c.1.control ≠ .fail fault) ∧
      Changes limits c.1.stack c.2 (step limits .inOrder c.1 c.2)) := by
  by_cases h : ∃ fault, c.1.control = .fail fault
  · obtain ⟨fault, hf⟩ := h
    exact .inl (step_of_fail limits .inOrder hf c.2)
  · have running : ∀ fault, c.1.control ≠ .fail fault := fun fault hf => h ⟨fault, hf⟩
    exact .inr ⟨running, changes_step limits .inOrder c.1 c.2 running⟩

def Disciplined (before : Array (Frame ι)) (c : Thread ι × State ι) : Prop :=
  Evlis.Disciplined before c.1.control (openBindings c.1.stack) c.2.frames

lemma disciplined_reaches {limits : Limits} {before : Array (Frame ι)} {c c' : Thread ι × State ι}
    (hc : Disciplined before c) (h : Reaches limits c c') : Disciplined before c' := by
  induction h with
  | refl => exact hc
  | @tail b c' _ hstep ih =>
    rcases step_cases limits b with hsame | ⟨running, hchange⟩
    · rwa [← hstep, hsame]
    · rw [← hstep]
      exact ih.step running hchange

omit [DecidableEq ι] [Marking ι] in
lemma disciplined_start (e : Value ι) (env : Env ι) (s : State ι) :
    Disciplined s.frames (Thread.start e env, s) := by
  refine ⟨Nat.le_refl _, fun _ _ => rfl, nofun, nofun, List.nodup_nil, ?_, nofun⟩
  intro _ n hn hp
  exact absurd (lt_size_of_getElem? hp) (Nat.not_lt.mpr hn)

lemma filled_persists {limits : Limits} {c c' : Thread ι × State ι} (h : Reaches limits c c')
    {n : Nat} {names values : Value ι} (hn : c.2.frames[n]? = some (.filled names values)) :
    c'.2.frames[n]? = some (.filled names values) := by
  induction h with
  | refl => exact hn
  | @tail b c' _ hstep ih =>
    rcases step_cases limits b with hsame | ⟨_, hchange⟩
    · rwa [← hstep, hsame]
    · rw [← hstep]
      exact hchange.filled_persists ih

lemma followed_reaches {limits : Limits} {bs : Value ι} {n : Nat} {c c' : Thread ι × State ι}
    (hc : Followed bs n (openBindings c.1.stack) c.2.frames) (h : Reaches limits c c') :
    Followed bs n (openBindings c'.1.stack) c'.2.frames := by
  induction h with
  | refl => exact hc
  | @tail b c' _ hstep ih =>
    rcases step_cases limits b with hsame | ⟨_, hchange⟩
    · rwa [← hstep, hsame]
    · rw [← hstep]
      exact ih.step hchange

omit [DecidableEq ι] in
/-- The frame that a `letrec` adds holds all or none of its bindings from the first moment on. -/
lemma followed_letrec (limits : Limits) (bs body : Value ι) (env : Env ι) (stack : List (Cont ι))
    (s : State ι) (hold : ∀ n ∈ openFrames (openBindings stack), n < s.frames.size)
    {c : Thread ι × State ι}
    (hc : nextBinding limits (s.suspend bs body env).1 stack (s.suspend bs body env).2 = c) :
    Followed bs s.frames.size (openBindings c.1.stack) c.2.frames := by
  subst hc
  have hframes : (s.suspend bs body env).2.frames = s.frames.push .pending := rfl
  have hcovered : ∀ entry ∈ openBindings stack, entry.2.frame = s.frames.size →
      entry.2.Covers bs entry.1 := by
    intro entry hentry heq
    have hlt := hold entry.2.frame (List.mem_map_of_mem hentry)
    exact absurd heq (Nat.ne_of_lt hlt)
  have hpending : ∃ frame, (s.frames.push .pending)[s.frames.size]? = some frame ∧
      frame.AllOrNone bs := ⟨.pending, Array.getElem?_push_size, trivial⟩
  rcases nextBinding_cases limits (s.suspend bs body env).1 stack (s.suspend bs body env).2 with
    ⟨fault, hf, h⟩ | ⟨name, e, rest, next, h⟩ | ⟨s₁, next, pending, hs, h⟩ | ⟨notPending, h⟩
  · rw [h]
    exact ⟨hcovered, hpending⟩
  · rw [h, openBindings_bind]
    refine ⟨fun entry hentry heq => ?_, hpending⟩
    rcases List.mem_cons.mp hentry with rfl | hentry
    · exact ⟨Binding.boundNames_of_next next, rfl⟩
    · exact hcovered entry hentry heq
  · rw [h, bounce, hs]
    refine ⟨hcovered, .filled .nil .nil, ?_, Binding.boundNames_of_next_none next, rfl⟩
    exact Array.getElem?_setIfInBounds_self_of_lt (lt_size_of_getElem? pending)
  · exact absurd Array.getElem?_push_size notPending

end Machine

lemma Thread.of_outcome_ok {thread : Thread ι} {v : Value ι} (h : thread.outcome? = some (.ok v)) :
    thread = ⟨.give v, []⟩ := by
  obtain ⟨control, stack⟩ := thread
  unfold outcome? at h
  split at h
  · cases h
  · rename_i hcontrol hstack
    cases h
    dsimp only at hcontrol hstack
    rw [hcontrol, hstack]
  · cases h

lemma Thread.of_outcome_error {thread : Thread ι} {fault : Fault}
    (h : thread.outcome? = some (.error fault)) : thread.control = .fail fault := by
  unfold outcome? at h
  split at h
  · rename_i hcontrol
    cases h
    exact hcontrol
  · cases h
  · cases h

variable [DecidableEq ι] [Marking ι]

/-- Whether evaluating in order ends in a value or in a fault, the frames there were are as they
were; if it ends in a value, all frames it has added are filled; and it never ends because a frame
has its bindings already. On the way, a filled frame never changes again, and the frame of a
`letrec` binds either nothing or all that the `letrec` binds. -/
theorem frame_discipline (limits : Limits) (e : Value ι) (env : Env ι) (s : State ι) :
    (∀ fuel outcome strategy s',
      Evaluation.evaluate fuel limits .inOrder e env s = some (outcome, strategy, s') →
      (∀ n < s.frames.size, s'.frames[n]? = s.frames[n]?) ∧
      (∀ v, outcome = .ok v → ∀ n, s.frames.size ≤ n → n < s'.frames.size →
        ∃ names values, s'.frames[n]? = some (.filled names values)) ∧
      outcome ≠ .error .frameFilled) ∧
    ∀ c c' : Thread ι × State ι,
      Machine.Reaches limits (Thread.start e env, s) c → Machine.Reaches limits c c' →
      (∀ (n : Nat) (names values : Value ι), c.2.frames[n]? = some (.filled names values) →
        c'.2.frames[n]? = some (.filled names values)) ∧
      c'.1.control ≠ .fail .frameFilled ∧
      ∀ expr inner bs body, c.1.control = .enter expr inner ∨ c.1.control = .bounce expr inner →
        Demand.ofExpr limits (c.2.lookup limits inner) expr = .letrec bs body →
        ∀ frame, c'.2.frames[c.2.frames.size]? = some frame → frame.AllOrNone bs := by
  constructor
  · intro fuel outcome strategy s' h
    unfold Evaluation.evaluate Evaluation.execute at h
    dsimp only at h
    split at h
    · cases h
    · rename_i found
      cases h
      obtain ⟨thread, hreach, hdone⟩ := Machine.reaches_of_runUntil found
      have d := Machine.disciplined_reaches (Machine.disciplined_start e env s) hreach
      refine ⟨d.kept, ?_, ?_⟩
      · rintro v rfl n hn hlt
        cases hframe : s'.frames[n]? with
        | none => exact absurd hlt (Nat.not_lt.mpr (Array.getElem?_eq_none_iff.mp hframe))
        | some frame =>
          cases frame with
          | filled names values => exact ⟨names, values, rfl⟩
          | pending =>
            rw [Thread.of_outcome_ok hdone] at d
            exact absurd (d.awaited (by simp) n hn hframe) List.not_mem_nil
      · rintro rfl
        exact d.ordinary (Thread.of_outcome_error hdone)
  · intro c c' hc hcc'
    have d := Machine.disciplined_reaches (Machine.disciplined_start e env s) hc
    have d' := Machine.disciplined_reaches d hcc'
    refine ⟨fun n names values hn => Machine.filled_persists hcc' hn, d'.ordinary, ?_⟩
    intro expr inner bs body hcontrol hdemand frame hframe
    rcases Relation.ReflTransGen.cases_head hcc' with rfl | ⟨c₁, hstep, hreach⟩
    · rw [Array.getElem?_eq_none (Nat.le_refl _)] at hframe
      cases hframe
    · have heval : Machine.step limits .inOrder c.1 c.2 =
          Machine.evaluate limits .inOrder expr inner c.1.stack c.2 := by
        unfold Machine.step
        rcases hcontrol with hcontrol | hcontrol <;> rw [hcontrol]
      rw [heval, Machine.evaluate_eq_pursue, hdemand] at hstep
      have hold : ∀ n ∈ openFrames (openBindings c.1.stack), n < c.2.frames.size :=
        fun n hn => lt_size_of_getElem? (d.pending n hn)
      have f := Machine.followed_reaches
        (Machine.followed_letrec limits bs body inner c.1.stack c.2 hold hstep) hreach
      obtain ⟨frame', hframe', hwhole⟩ := f.whole
      rw [hframe] at hframe'
      cases hframe'
      exact hwhole

/-- A `letrec` beside a frame that is pending and stays so. -/
theorem frame_discipline_beside_pending :
    let bs : Value Unit := Value.ofSExpr (.ofList [.ofList [.atom "x", .atom "1"]])
    let e : Value Unit := .pair () (.atom "letrec") (.pair () bs (.pair () (.atom "x") .nil))
    let s : State Unit := ⟨#[.pending], (), #[], #[]⟩
    ∃ s' c, Evaluation.evaluate 9 .none .inOrder e [⟨(), 0⟩] s =
        some (.ok (.atom "1"), .inOrder, s') ∧
      s'.frames[0]? = some .pending ∧ (∃ names values, s'.frames[1]? = some (.filled names values)) ∧
      Machine.Reaches .none (Thread.start e [⟨(), 0⟩], s) c ∧
      ∃ names values, c.2.frames[1]? = some (.filled names values) ∧
        (Frame.filled names values).AllOrNone bs := by
  intro bs e s
  have h : Evaluation.evaluate 9 .none .inOrder e [⟨(), 0⟩] s = some (.ok (.atom "1"), .inOrder,
      ⟨#[.pending, .filled (.pair () (.atom "x") .nil) (.pair () (.atom "1") .nil)], (), #[],
        #[.frameFilled (.pair () (.atom "x") .nil)]⟩) := by decide
  obtain ⟨outcome, run⟩ := frame_discipline .none e [⟨(), 0⟩] s
  obtain ⟨kept, added, -⟩ := outcome _ _ _ _ h
  let first := Machine.step .none .inOrder (Thread.start e [⟨(), 0⟩]) s
  let second := Machine.step .none .inOrder first.1 first.2
  let third := Machine.step .none .inOrder second.1 second.2
  have hreach : Machine.Reaches .none (Thread.start e [⟨(), 0⟩], s) third :=
    .tail (.tail (.single rfl) rfl) rfl
  have hframe : third.2.frames[1]? =
      some (.filled (.pair () (.atom "x") .nil) (.pair () (.atom "1") .nil)) := by decide
  exact ⟨_, third, h, kept 0 (by decide), added _ rfl 1 (by decide) (by decide), hreach, _, _,
    hframe, (run _ _ .refl hreach).2.2 e _ bs _ (.inl rfl) (by rfl) _ hframe⟩

end Evlis
