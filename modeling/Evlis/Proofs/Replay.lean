import Evlis.Proofs.FrameDiscipline
import Evlis.Proofs.Hindsight
import Evlis.Proofs.Trampoline

/-!
# Replaying in order what is known in hindsight

A goal that settles in a view can be evaluated in order, by the reference semantics, from every
state that mirrors the view. The frames that are made on the way get other numbers, so that a
relation between the frames of the view and those of the state grows along; related frames are both
pending, or filled with values that are similar up to the relation. If the goal settles to a value,
evaluation in order gives a similar value and prints the same lines. If it settles to a fault,
evaluation in order gives no value.
-/

namespace Evlis

/-- Environments of the same length, with related frames. -/
def Linked (ρ : Nat → Nat → Prop) (env env' : Env Unit) : Prop :=
  List.Forall₂ (fun rib rib' => ρ rib.frame rib'.frame) env env'

lemma Linked.mono {ρ ρ' : Nat → Nat → Prop} (hρ : ∀ n m, ρ n m → ρ' n m) (env env' : Env Unit)
    (h : Linked ρ env env') : Linked ρ' env env' :=
  List.Forall₂.imp (fun _ _ => hρ _ _) h

/-- A relation among the frames of a set only. -/
def Restricted (ρ : Nat → Nat → Prop) (X : Nat → Prop) : Nat → Nat → Prop :=
  fun a b => ρ a b ∧ X a

lemma Linked.restrict {ρ : Nat → Nat → Prop} {X : Nat → Prop} {env env' : Env Unit}
    (h : Linked ρ env env') (hX : EnvWithin X env) :
    Linked (Restricted ρ X) env env' := by
  induction h with
  | nil => exact .nil
  | cons hrib _ ih =>
    refine .cons ⟨hrib, hX _ (by simp)⟩ (ih ?_)
    intro rib hmem
    exact hX rib (by simp [hmem])

lemma Value.Similar.restrict {ρ : Nat → Nat → Prop} {X : Nat → Prop} {v v' : Value Unit}
    (h : v.Similar (Linked ρ) v') (hX : v.Within X) :
    v.Similar (Linked (Restricted ρ X)) v' := by
  induction h with
  | atom name => exact .atom name
  | pair _ _ ihCar ihCdr =>
    cases hX with
    | pair hcar hcdr => exact .pair (ihCar hcar) (ihCdr hcdr)
  | closure _ _ _ henv ihLambda ihFormals ihBody =>
    cases hX with
    | closure hlambda hformals hbody hkept =>
      exact .closure (ihLambda hlambda) (ihFormals hformals) (ihBody hbody)
        (henv.restrict hkept.2)
  | «foreign» n => exact .foreign n

/-- Related frames hold the same in the view and in the state, and no two pending frames of one
are related to the same frame of the other. -/
structure Mirrors (ρ : Nat → Nat → Prop) (V : View) (s : State Unit) : Prop where
  frame : ∀ n m, ρ n m → ∃ f, s.frames[m]? = some f ∧ (V n).Similar (Linked ρ) f
  unique : ∀ n m n' m', ρ n m → ρ n' m' → V n = .pending → V n' = .pending → (n = n' ↔ m = m')

def WithPair (ρ : Nat → Nat → Prop) (n m : Nat) : Nat → Nat → Prop :=
  fun a b => ρ a b ∨ (a = n ∧ b = m)

namespace Mirrors

variable {ρ : Nat → Nat → Prop} {V : View} {s s' : State Unit}

/-- Only the frames count that there are. -/
lemma of_kept (h : Mirrors ρ V s) (hkept : ∀ k < s.frames.size, s'.frames[k]? = s.frames[k]?) :
    Mirrors ρ V s' := by
  refine ⟨?_, h.unique⟩
  intro n m hρ
  obtain ⟨f, hf, hsim⟩ := h.frame n m hρ
  refine ⟨f, ?_, hsim⟩
  rw [hkept m (lt_size_of_getElem? hf), hf]

lemma restrict (h : Mirrors ρ V s) {X : Nat → Prop} (hX : V.Closed X) :
    Mirrors (Restricted ρ X) V s := by
  refine ⟨?_, fun n m n' m' hρ hρ' => h.unique n m n' m' hρ.1 hρ'.1⟩
  rintro n m ⟨hρ, hn⟩
  obtain ⟨f, hf, hsim⟩ := h.frame n m hρ
  refine ⟨f, hf, ?_⟩
  have hclosed := hX n
  cases hv : V n with
  | pending =>
    rw [hv] at hsim
    cases hsim
    exact .pending
  | filled names values =>
    obtain ⟨hnames, hvalues⟩ := hclosed names values hn hv
    rw [hv] at hsim
    cases hsim with
    | filled hnames' hvalues' => exact .filled (hnames'.restrict hnames) (hvalues'.restrict hvalues)

lemma lt_size (h : Mirrors ρ V s) {n m : Nat} (hρ : ρ n m) : m < s.frames.size := by
  obtain ⟨f, hf, -⟩ := h.frame n m hρ
  exact (Array.getElem?_eq_some_iff.mp hf).1

/-- A new frame of the state may be related to a frame of the view that is filled, or to one that
was not related before. -/
lemma push (h : Mirrors ρ V s) {n : Nat} {frame : Frame Unit}
    (hframes : s'.frames = s.frames.push frame)
    (hnew : (V n).Similar (Linked (WithPair ρ n s.frames.size)) frame)
    (hn : V n ≠ .pending ∨ ∀ m, ¬ ρ n m) : Mirrors (WithPair ρ n s.frames.size) V s' := by
  have hle : ∀ a b, ρ a b → WithPair ρ n s.frames.size a b := fun _ _ => .inl
  constructor
  · rintro a b (hρ | ⟨rfl, rfl⟩)
    · obtain ⟨f, hf, hsim⟩ := h.frame a b hρ
      refine ⟨f, ?_, hsim.mono (Linked.mono hle)⟩
      rw [hframes, getElem?_push_of_lt (lt_size_of_getElem? hf), hf]
    · refine ⟨frame, ?_, hnew⟩
      rw [hframes, Array.getElem?_push_size]
  · have hother : ∀ a b, ρ a b → V n = .pending → a ≠ n ∧ b ≠ s.frames.size := by
      intro a b hρ hpending
      refine ⟨?_, Nat.ne_of_lt (h.lt_size hρ)⟩
      rintro rfl
      exact hn.elim (· hpending) (· b hρ)
    rintro a b a' b' (hρ | ⟨rfl, rfl⟩) (hρ' | ⟨rfl, rfl⟩) ha ha'
    · exact h.unique a b a' b' hρ hρ' ha ha'
    · obtain ⟨ha, hb⟩ := hother a b hρ ha'
      exact ⟨fun heq => absurd heq ha, fun heq => absurd heq hb⟩
    · obtain ⟨ha', hb'⟩ := hother a' b' hρ' ha
      exact ⟨fun heq => absurd heq.symm ha', fun heq => absurd heq.symm hb'⟩
    · exact ⟨fun _ => rfl, fun _ => rfl⟩

/-- A frame that is not related to any may be hidden. -/
lemma mask (h : Mirrors ρ V s) {n : Nat} (hn : ∀ m, ¬ ρ n m) : Mirrors ρ (V.mask [n]) s := by
  have hsame : ∀ a b, ρ a b → V.mask [n] a = V a := by
    intro a b hab
    refine View.mask_of_not_mem ?_
    rintro hmem
    obtain rfl := List.mem_singleton.mp hmem
    exact hn b hab
  constructor
  · intro a b hab
    rw [hsame a b hab]
    exact h.frame a b hab
  · intro a b a' b' hab hab'
    rw [hsame a b hab, hsame a' b' hab']
    exact h.unique a b a' b' hab hab'

lemma pending (h : Mirrors ρ V s) {n m : Nat} (hnm : ρ n m) (hn : V n = .pending) :
    s.frames[m]? = some .pending := by
  obtain ⟨f, hf, hsim⟩ := h.frame n m hnm
  rw [hn] at hsim
  cases hsim
  exact hf

/-- A hidden frame comes to light when the frame that mirrors it is filled. -/
lemma fill {n m : Nat} {names values names' values' : Value Unit} (h : Mirrors ρ (V.mask [n]) s)
    (hnm : ρ n m) (hfilled : V n = .filled names values) (hnames : names.Similar (Linked ρ) names')
    (hvalues : values.Similar (Linked ρ) values')
    (hframes : s'.frames = s.frames.setIfInBounds m (.filled names' values')) :
    Mirrors ρ V s' := by
  have hn : V.mask [n] n = .pending := View.mask_of_mem (by simp)
  have hm : m < s.frames.size := lt_size_of_getElem? (h.pending hnm hn)
  constructor
  · intro a b hab
    by_cases ha : a = n
    · subst ha
      obtain rfl := (h.unique a m a b hnm hab hn hn).mp rfl
      refine ⟨.filled names' values', ?_, ?_⟩
      · rw [hframes, Array.getElem?_setIfInBounds_self_of_lt hm]
      · rw [hfilled]
        exact .filled hnames hvalues
    · have hsame : V.mask [n] a = V a := View.mask_of_not_mem (by simpa using ha)
      obtain ⟨f, hf, hsim⟩ := h.frame a b hab
      have hb : m ≠ b := by
        rintro rfl
        rw [h.pending hnm hn] at hf
        cases hf
        generalize hpending : V.mask [n] a = frame at hsim
        cases hsim
        exact ha ((h.unique a m n m hab hnm hpending hn).mpr rfl)
      refine ⟨f, ?_, ?_⟩
      · rw [hframes, Array.getElem?_setIfInBounds_ne hb, hf]
      · rwa [hsame] at hsim
  · intro a b a' b' hab hab' ha ha'
    exact h.unique a b a' b' hab hab' (by rw [View.mask, ha, ite_self])
      (by rw [View.mask, ha', ite_self])

lemma extend (h : Mirrors ρ V s) {n : Nat} {names values names' values' : Value Unit}
    (filled : V n = .filled names values) (hnames : names.Similar (Linked ρ) names')
    (hvalues : values.Similar (Linked ρ) values')
    (hframes : s'.frames = s.frames.push (.filled names' values')) :
    Mirrors (WithPair ρ n s.frames.size) V s' := by
  have hle : ∀ a b, ρ a b → WithPair ρ n s.frames.size a b := fun _ _ => .inl
  refine h.push hframes ?_ (.inl (by rw [filled]; nofun))
  rw [filled]
  exact .filled (hnames.mono (Linked.mono hle)) (hvalues.mono (Linked.mono hle))

/-- The frame of a `letrec` is made. Only those frames matter that can be reached; the new frame is
none of them, so that it can be hidden. -/
lemma suspend (h : Mirrors ρ V s) {X : Nat → Prop} (hX : V.Closed X) {n : Nat} (hn : ¬ X n)
    (hframes : s'.frames = s.frames.push .pending) :
    Mirrors (WithPair (Restricted ρ X) n s.frames.size) (V.mask [n]) s' := by
  have hnot : ∀ m, ¬ Restricted ρ X n m := fun m hρ => hn hρ.2
  refine ((h.restrict hX).mask hnot).push hframes ?_ (.inr hnot)
  rw [View.mask_of_mem (by simp)]
  exact .pending

lemma view (h : Mirrors ρ V s) {n m : Nat} (hρ : ρ n m) :
    (V n).Similar (Linked ρ) (s.view m) := by
  obtain ⟨f, hf, hsim⟩ := h.frame n m hρ
  rw [State.view, hf]
  exact hsim

lemma lookup (h : Mirrors ρ V s) {env env' : Env Unit} (henv : Linked ρ env env')
    (name : String) :
    Like (Value.Similar (Linked ρ)) (V.lookup env (.atom name))
      (s.lookup .none env' (.atom name)) := by
  have hfound : Option.Rel (Value.Similar (Linked ρ)) (V.lookup? (.atom name) env)
      (s.view.lookup? (.atom name) env') := by
    induction henv with
    | nil => exact .none
    | cons hrib _ ih =>
      rw [View.lookup?, View.lookup?]
      have hfind := (h.view hrib).find name
      generalize (V _).find _ = found at hfind ⊢
      generalize (s.view _).find _ = found' at hfind ⊢
      cases hfind with
      | none => exact ih
      | some hv => exact .some hv
  rw [State.lookup_eq_view, View.lookup, View.lookup]
  generalize V.lookup? _ _ = found at hfound ⊢
  generalize s.view.lookup? _ _ = found' at hfound ⊢
  cases hfound with
  | none => exact .error _
  | some hv => exact .ok hv

lemma demand (h : Mirrors ρ V s) {e e' : Value Unit} {env env' : Env Unit}
    (he : e.Similar (Linked ρ) e') (henv : Linked ρ env env') :
    Demand.Similar (Linked ρ) (Demand.ofExpr .none (V.lookup env) e)
      (Demand.ofExpr .none (s.lookup .none env') e') :=
  Demand.ofExpr_similar .none (h.lookup henv) he

end Mirrors

/-- The same goal, on similar data. -/
inductive Goal.Matches (ρ : Nat → Nat → Prop) : Goal Unit → Goal Unit → Prop where
  | expr {e e' : Value Unit} {env env' : Env Unit} (he : e.Similar (Linked ρ) e')
      (henv : Linked ρ env env') : Matches ρ (.expr e env) (.expr e' env')
  | operands {exprs exprs' : Value Unit} {env env' : Env Unit}
      (hexprs : exprs.Similar (Linked ρ) exprs') (henv : Linked ρ env env') :
      Matches ρ (.operands exprs env) (.operands exprs' env')
  | application {call call' : Value Unit} (hcall : call.Similar (Linked ρ) call') :
      Matches ρ (.application call) (.application call')
  | bindings {b b' : Binding Unit} (hb : b.Similar (Linked ρ) b') (hframe : ρ b.frame b'.frame) :
      Matches ρ (.bindings b) (.bindings b')

/-- The frame that is hidden while the goal is being evaluated. -/
def Goal.hidden : Goal Unit → List Nat
  | .expr _ _ => []
  | .operands _ _ => []
  | .application _ => []
  | .bindings b => [b.frame]

/-- What is true after a goal has been replayed from `s` to a value. -/
structure Replayed (ρ : Nat → Nat → Prop) (V : View) (hidden : List Nat) (s : State Unit)
    (w : Value Unit) (lines : Multiset String) (ρ' : Nat → Nat → Prop) (v : Value Unit)
    (s' : State Unit) : Prop where
  le : ∀ n m, ρ n m → ρ' n m
  mirrors : Mirrors ρ' V s'
  old : ∀ n m, ρ' n m → V n = .pending → ρ n m
  value : w.Similar (Linked ρ') v
  printed : ∃ more, s'.printed.toList = s.printed.toList ++ more ∧ (more : Multiset String) = lines
  size_le : s.frames.size ≤ s'.frames.size
  kept : ∀ k < s.frames.size, k ∉ hidden → s'.frames[k]? = s.frames[k]?

/-- Evaluating a goal from `s` agrees with an outcome; frames that were hidden are filled in the
end. -/
def Agrees (ρ : Nat → Nat → Prop) (V : View) (hidden : List Nat) (s : State Unit)
    (goal : Goal Unit) : Outcome → Prop
  | .ok (w, lines) => (∀ n ∈ hidden, V n ≠ .pending) ∧
      ∃ ρ' v s', Derives goal s (.ok v) s' ∧ Replayed ρ V goal.hidden s w lines ρ' v s'
  | .error _ => ∀ v s', ¬ Derives goal s (.ok v) s'

/-- Every state that mirrors the view agrees with the outcome. -/
def Replays (V : View) (goal : Goal Unit) (o : Outcome) : Prop :=
  ∀ ρ s goal', Mirrors ρ (V.mask goal.hidden) s → goal.Matches ρ goal' →
    Agrees ρ V goal.hidden s goal' o

lemma Mirrors.matched {ρ : Nat → Nat → Prop} {V : View} {s : State Unit} {e : Value Unit}
    {env : Env Unit} {goal' : Goal Unit} {demand : Demand Unit}
    (h : Mirrors ρ (V.mask (Goal.expr e env).hidden) s)
    (hmatches : (Goal.expr e env).Matches ρ goal')
    (hdemand : Demand.ofExpr .none (V.lookup env) e = demand) :
    Mirrors ρ V s ∧ ∃ e' env' demand', goal' = .expr e' env' ∧ Linked ρ env env' ∧
      Demand.ofExpr .none (s.lookup .none env') e' = demand' ∧
      Demand.Similar (Linked ρ) demand demand' := by
  rw [Goal.hidden, View.mask_nil] at h
  cases hmatches with
  | expr he henv => exact ⟨h, _, _, _, rfl, henv, rfl, hdemand ▸ h.demand he henv⟩

lemma Goal.Matches.next_some {ρ : Nat → Nat → Prop} {b : Binding Unit} {goal' : Goal Unit}
    {name e rest : Value Unit} (h : (Goal.bindings b).Matches ρ goal')
    (next : b.next .none = .ok (some (name, e, rest))) :
    ∃ b' name' e' rest', goal' = .bindings b' ∧ b.Similar (Linked ρ) b' ∧ ρ b.frame b'.frame ∧
      b'.next .none = .ok (some (name', e', rest')) ∧ name.Similar (Linked ρ) name' ∧
      e.Similar (Linked ρ) e' ∧ rest.Similar (Linked ρ) rest' := by
  cases h with
  | @bindings _ b' hb hframe =>
    have hnext := hb.next .none
    rw [next] at hnext
    generalize hn : b'.next .none = next' at hnext
    cases hnext with
    | ok hsome =>
      cases hsome with
      | some hparts => exact ⟨b', _, _, _, rfl, hb, hframe, hn, hparts⟩

lemma Goal.Matches.next_none {ρ : Nat → Nat → Prop} {b : Binding Unit} {goal' : Goal Unit}
    (h : (Goal.bindings b).Matches ρ goal') (next : b.next .none = .ok none) :
    ∃ b', goal' = .bindings b' ∧ b.Similar (Linked ρ) b' ∧ ρ b.frame b'.frame ∧
      b'.next .none = .ok none := by
  cases h with
  | @bindings _ b' hb hframe =>
    have hnext := hb.next .none
    rw [next] at hnext
    generalize hn : b'.next .none = next' at hnext
    cases hnext with
    | ok hnone =>
      cases hnone
      exact ⟨b', rfl, hb, hframe, hn⟩

lemma Goal.Matches.next_error {ρ : Nat → Nat → Prop} {b : Binding Unit} {goal' : Goal Unit}
    {fault : Fault} (h : (Goal.bindings b).Matches ρ goal') (next : b.next .none = .error fault) :
    ∃ b', goal' = .bindings b' ∧ b'.next .none = .error fault := by
  cases h with
  | @bindings _ b' hb hframe =>
    have hnext := hb.next .none
    rw [next] at hnext
    generalize hn : b'.next .none = next' at hnext
    cases hnext
    exact ⟨b', rfl, hn⟩

lemma Goal.Matches.hidden_eq_nil {ρ : Nat → Nat → Prop} {goal goal' : Goal Unit}
    (h : goal.Matches ρ goal') (hopen : goal.hidden = []) : goal'.hidden = [] := by
  cases h with
  | bindings => cases hopen
  | _ => rfl

namespace Replayed

variable {ρ ρ₁ ρ₂ : Nat → Nat → Prop} {V : View} {s s₁ s₂ : State Unit}
  {w w₁ w₂ v v₁ v₂ : Value Unit} {lines₁ lines₂ : Multiset String} {hidden hidden' : List Nat}

lemma refl (hmirrors : Mirrors ρ V s) (hvalue : w.Similar (Linked ρ) v) :
    Replayed ρ V hidden s w 0 ρ v s :=
  ⟨fun _ _ h => h, hmirrors, fun _ _ h _ => h, hvalue, ⟨[], by simp, rfl⟩, Nat.le_refl _,
    fun _ _ _ => rfl⟩

lemma trans (r₁ : Replayed ρ (V.mask hidden) [] s w₁ lines₁ ρ₁ v₁ s₁)
    (r₂ : Replayed ρ₁ V hidden' s₁ w₂ lines₂ ρ₂ v₂ s₂) :
    Replayed ρ V hidden' s w₂ (lines₁ + lines₂) ρ₂ v₂ s₂ := by
  obtain ⟨more₁, hmore₁, rfl⟩ := r₁.printed
  obtain ⟨more₂, hmore₂, rfl⟩ := r₂.printed
  refine ⟨?_, r₂.mirrors, ?_, r₂.value, ⟨more₁ ++ more₂, ?_, rfl⟩,
    Nat.le_trans r₁.size_le r₂.size_le, ?_⟩
  · intro n m h
    exact r₂.le n m (r₁.le n m h)
  · intro n m h hpending
    have hmasked : V.mask hidden n = .pending := by
      rw [View.mask, hpending, ite_self]
    exact r₁.old n m (r₂.old n m h hpending) hmasked
  · rw [hmore₂, hmore₁, List.append_assoc]
  · intro k hk hnot
    rw [r₂.kept k (Nat.lt_of_lt_of_le hk r₁.size_le) hnot]
    exact r₁.kept k hk List.not_mem_nil

/-- Replaying may begin with a step that makes or fills a frame. -/
lemma head (r : Replayed ρ₁ V hidden' s₁ w lines₁ ρ₂ v s₂) (hle : ∀ n m, ρ n m → ρ₁ n m)
    (hold : ∀ n m, ρ₁ n m → V n = .pending → ρ n m) (hprinted : s₁.printed = s.printed)
    (hsize : s.frames.size ≤ s₁.frames.size)
    (hkept : ∀ k < s.frames.size, k ∉ hidden → k ∉ hidden' ∧ s₁.frames[k]? = s.frames[k]?) :
    Replayed ρ V hidden s w lines₁ ρ₂ v s₂ := by
  refine ⟨fun n m h => r.le n m (hle n m h), r.mirrors,
    fun n m h hpending => hold n m (r.old n m h hpending) hpending, r.value, ?_,
    Nat.le_trans hsize r.size_le, ?_⟩
  · rw [← hprinted]
    exact r.printed
  · intro k hk hnot
    obtain ⟨hnot', hsame⟩ := hkept k hk hnot
    rw [r.kept k (Nat.lt_of_lt_of_le hk hsize) hnot', hsame]

/-- Frames that played no part are as they were. -/
lemma widen {X : Nat → Prop} (r : Replayed (Restricted ρ X) V [] s w lines₁ ρ₂ v s₂)
    (hmirrors : Mirrors ρ V s) :
    Replayed ρ V [] s w lines₁ (fun a b => ρ a b ∨ ρ₂ a b) v s₂ := by
  have hkept : ∀ k < s.frames.size, s₂.frames[k]? = s.frames[k]? :=
    fun k hk => r.kept k hk List.not_mem_nil
  have hold : ∀ a b, ρ a b ∨ ρ₂ a b → V a = .pending → ρ a b := by
    rintro a b (hab | hab) hpending
    · exact hab
    · exact (r.old a b hab hpending).1
  have hmono₁ : ∀ a b, ρ a b → ρ a b ∨ ρ₂ a b := fun _ _ => .inl
  have hmono₂ : ∀ a b, ρ₂ a b → ρ a b ∨ ρ₂ a b := fun _ _ => .inr
  refine ⟨hmono₁, ⟨?_, ?_⟩, hold, r.value.mono (Linked.mono hmono₂), r.printed, r.size_le,
    fun k hk _ => hkept k hk⟩
  · rintro a b (hab | hab)
    · obtain ⟨f, hf, hsim⟩ := (hmirrors.of_kept hkept).frame a b hab
      exact ⟨f, hf, hsim.mono (Linked.mono hmono₁)⟩
    · obtain ⟨f, hf, hsim⟩ := r.mirrors.frame a b hab
      exact ⟨f, hf, hsim.mono (Linked.mono hmono₂)⟩
  · intro a b a' b' hab hab' ha ha'
    exact hmirrors.unique a b a' b' (hold a b hab ha) (hold a' b' hab' ha') ha ha'

end Replayed

/-- Evaluating one goal in order and, with its value, another one. -/
def DerivesThen (first : Goal Unit) (next : Value Unit → Goal Unit) (s : State Unit)
    (outcome : Except Fault (Value Unit)) (s' : State Unit) : Prop :=
  (∃ v s₁, Derives first s (.ok v) s₁ ∧ Derives (next v) s₁ outcome s') ∨
    ∃ fault, outcome = .error fault ∧ Derives first s (.error fault) s'

namespace Derives

variable {e exprs v : Value Unit} {env : Env Unit} {b : Binding Unit} {s s' : State Unit}
  {outcome : Except Fault (Value Unit)}

lemma branch_iff {c a b : Value Unit}
    (demand : Demand.ofExpr .none (s.lookup .none env) e = .branch c a b) :
    Derives (.expr e env) s outcome s' ↔
      DerivesThen (.expr c env) (fun v => .expr (if v.isNil then b else a) env) s outcome s' := by
  constructor
  · intro h
    cases h with
    | branch demand' condition chosen =>
      cases demand.symm.trans demand'
      exact .inl ⟨_, _, condition, chosen⟩
    | branchFault demand' condition =>
      cases demand.symm.trans demand'
      exact .inr ⟨_, rfl, condition⟩
    | done demand' | closure demand' | second demand' | secondFault demand' | letrec demand'
    | collect demand' | call demand' | callFault demand' => cases demand.symm.trans demand'
  · rintro (⟨v₁, s₁, condition, chosen⟩ | ⟨fault, rfl, condition⟩)
    · exact .branch demand condition chosen
    · exact .branchFault demand condition

lemma second_iff {a b : Value Unit}
    (demand : Demand.ofExpr .none (s.lookup .none env) e = .second a b) :
    Derives (.expr e env) s outcome s' ↔
      DerivesThen (.expr a env) (fun _ => .expr b env) s outcome s' := by
  constructor
  · intro h
    cases h with
    | second demand' first last =>
      cases demand.symm.trans demand'
      exact .inl ⟨_, _, first, last⟩
    | secondFault demand' first =>
      cases demand.symm.trans demand'
      exact .inr ⟨_, rfl, first⟩
    | done demand' | closure demand' | branch demand' | branchFault demand' | letrec demand'
    | collect demand' | call demand' | callFault demand' => cases demand.symm.trans demand'
  · rintro (⟨v₁, s₁, first, last⟩ | ⟨fault, rfl, first⟩)
    · exact .second demand first last
    · exact .secondFault demand first

lemma collect_iff (demand : Demand.ofExpr .none (s.lookup .none env) e = .operands exprs .collect) :
    Derives (.expr e env) s outcome s' ↔ Derives (.operands exprs env) s outcome s' := by
  constructor
  · intro h
    cases h with
    | collect demand' operands =>
      cases demand.symm.trans demand'
      exact operands
    | done demand' | closure demand' | branch demand' | branchFault demand' | letrec demand'
    | second demand' | secondFault demand' | call demand' | callFault demand' =>
      cases demand.symm.trans demand'
  · exact .collect demand

lemma call_iff (demand : Demand.ofExpr .none (s.lookup .none env) e = .operands exprs .call) :
    Derives (.expr e env) s outcome s' ↔
      DerivesThen (.operands exprs env) .application s outcome s' := by
  constructor
  · intro h
    cases h with
    | call demand' operands result =>
      cases demand.symm.trans demand'
      exact .inl ⟨_, _, operands, result⟩
    | callFault demand' operands =>
      cases demand.symm.trans demand'
      exact .inr ⟨_, rfl, operands⟩
    | done demand' | closure demand' | branch demand' | branchFault demand' | letrec demand'
    | second demand' | secondFault demand' | collect demand' => cases demand.symm.trans demand'
  · rintro (⟨list, s₁, operands, result⟩ | ⟨fault, rfl, operands⟩)
    · exact .call demand operands result
    · exact .callFault demand operands

lemma letrec_iff {bs body : Value Unit}
    (demand : Demand.ofExpr .none (s.lookup .none env) e = .letrec bs body) :
    Derives (.expr e env) s outcome s' ↔
      Derives (.bindings (s.suspend bs body env).1) (s.suspend bs body env).2 outcome s' := by
  constructor
  · intro h
    cases h with
    | letrec demand' loop =>
      cases demand.symm.trans demand'
      exact loop
    | done demand' | closure demand' | branch demand' | branchFault demand' | call demand'
    | callFault demand' | second demand' | secondFault demand' | collect demand' =>
      cases demand.symm.trans demand'
  · exact .letrec demand

lemma ne_ok_of_done {fault : Fault}
    (demand : Demand.ofExpr .none (s.lookup .none env) e = .done (.error fault)) :
    ¬ Derives (.expr e env) s (.ok v) s' := by
  intro h
  cases h with
  | done demand' | closure demand' | branch demand' | call demand' | second demand'
  | collect demand' | letrec demand' => cases demand.symm.trans demand'

lemma operand_iff {rest : Value Unit} :
    Derives (.operands (.pair () e rest) env) s (.ok v) s' ↔ ∃ v₁ s₁ list,
      Derives (.expr e env) s (.ok v₁) s₁ ∧ Derives (.operands rest env) s₁ (.ok list) s' ∧
        v = .pair () v₁ list := by
  constructor
  · intro h
    cases h with
    | operand first others => exact ⟨_, _, _, first, others, rfl⟩
  · rintro ⟨v₁, s₁, list, first, others, rfl⟩
    exact .operand first others

lemma bind_iff {name rest : Value Unit} (next : b.next .none = .ok (some (name, e, rest))) :
    Derives (.bindings b) s outcome s' ↔ DerivesThen (.expr e b.env) (fun v => .bindings { b with
      names := .pair () name b.names
      values := .pair () v b.values
      rest }) s outcome s' := by
  constructor
  · intro h
    cases h with
    | bind next' bound others =>
      cases next.symm.trans next'
      exact .inl ⟨_, _, bound, others⟩
    | bindFault next' bound =>
      cases next.symm.trans next'
      exact .inr ⟨_, rfl, bound⟩
    | malformed next' | fill next' | refill next' => cases next.symm.trans next'
  · rintro (⟨v₁, s₁, bound, others⟩ | ⟨fault, rfl, bound⟩)
    · exact .bind next bound others
    · exact .bindFault next bound

lemma body_iff {lambda formals body arguments : Value Unit}
    (fits : formals.length = arguments.length) :
    Derives (.application (.pair () (.closure () lambda formals body env) arguments)) s outcome s' ↔
      Derives (.expr body (⟨(), s.frames.size⟩ :: env))
        { s with frames := s.frames.push (.filled formals arguments) } outcome s' := by
  have extended : Machine.extendEnv .none (.closure () lambda formals body env) formals arguments
      env s = (.ok (⟨(), s.frames.size⟩ :: env),
        { s with frames := s.frames.push (.filled formals arguments) }) := by
    rw [Machine.extendEnv, if_pos fits]
    rfl
  constructor
  · intro h
    cases h with
    | body extended' result =>
      rw [extended] at extended'
      cases extended'
      exact result
    | arity extended' =>
      rw [extended] at extended'
      cases extended'
    | misfit found => cases found
  · exact .body extended

lemma fill_iff (next : b.next .none = .ok none) {s₁ : State Unit}
    (filled : s.fill b.frame b.names b.values = .ok s₁) :
    Derives (.bindings b) s outcome s' ↔
      Derives (.expr b.body b.env) (s₁.log (.frameFilled b.names)) outcome s' := by
  constructor
  · intro h
    cases h with
    | bind next' | bindFault next' | malformed next' => cases next.symm.trans next'
    | fill _ filled' body =>
      cases filled.symm.trans filled'
      exact body
    | refill _ refused => cases filled.symm.trans refused
  · exact .fill next filled

/-- Evaluating an expression leaves the frames as they are that there were before. -/
lemma frames_kept (h : Derives (.expr e env) s outcome s') :
    s.frames.size ≤ s'.frames.size ∧ ∀ k < s.frames.size, s'.frames[k]? = s.frames[k]? := by
  obtain ⟨fuel, hrun⟩ := (Machine.exists_run_iff_derives e env s s' outcome).mpr h
  obtain ⟨thread, hreach, -⟩ := Machine.reaches_of_runUntil hrun
  have d := Machine.disciplined_reaches (Machine.disciplined_start e env s) hreach
  exact ⟨d.grown, d.kept⟩

lemma ne_ok_of_malformed {fault : Fault} (next : b.next .none = .error fault) :
    ¬ Derives (.bindings b) s (.ok v) s' := by
  intro h
  cases h with
  | bind next' | fill next' => cases next.symm.trans next'

end Derives

/-- From a state that mirrors the view, evaluation in order of a goal is that of `first` and, with
its value, that of `next`. -/
structure Splits (V : View) (goal first : Goal Unit) (next : Value Unit → Goal Unit) : Prop where
  opens : first.hidden = []
  hides : ∀ w, (next w).hidden = goal.hidden
  matched : ∀ ρ s goal', Mirrors ρ (V.mask goal.hidden) s → goal.Matches ρ goal' →
    ∃ first' next', first.Matches ρ first' ∧
      (∀ ρ' w v, (∀ n m, ρ n m → ρ' n m) → w.Similar (Linked ρ') v →
        (next w).Matches ρ' (next' v) ∧ (next' v).hidden = goal'.hidden) ∧
      ∀ outcome s', Derives goal' s outcome s' ↔ DerivesThen first' next' s outcome s'

/-- From a state that mirrors the view, evaluation in order of a goal is that of another one from a
state that mirrors the view as well; what is true after that has been replayed is true then. -/
def Reduces (V : View) (goal next : Goal Unit) : Prop :=
  ∀ ρ s goal', Mirrors ρ (V.mask goal.hidden) s → goal.Matches ρ goal' →
    ∃ ρ₁ s₁ next', Mirrors ρ₁ (V.mask next.hidden) s₁ ∧ next.Matches ρ₁ next' ∧
      (∀ outcome s', Derives goal' s outcome s' ↔ Derives next' s₁ outcome s') ∧
      ((∀ n ∈ next.hidden, V n ≠ .pending) → ∀ w lines ρ₂ v s',
        Replayed ρ₁ V next'.hidden s₁ w lines ρ₂ v s' → (∀ n ∈ goal.hidden, V n ≠ .pending) ∧
          ∃ ρ', Replayed ρ V goal'.hidden s w lines ρ' v s')

section Shapes

variable {V : View} {e exprs : Value Unit} {env : Env Unit} {b : Binding Unit}

lemma splits_branch {c a b : Value Unit}
    (demand : Demand.ofExpr .none (V.lookup env) e = .branch c a b) :
    Splits V (.expr e env) (.expr c env) fun v => .expr (if v.isNil then b else a) env := by
  refine ⟨rfl, fun _ => rfl, ?_⟩
  intro ρ s goal' hmirrors hmatches
  obtain ⟨hmirrors, e', env', demand', rfl, henv, hd, hdemand⟩ := hmirrors.matched hmatches demand
  cases hdemand with
  | @branch _ _ _ c' a' b' hc ha hb =>
    refine ⟨.expr c' env', fun v => .expr (if v.isNil then b' else a') env', .expr hc henv, ?_,
      fun outcome s' => Derives.branch_iff hd⟩
    intro ρ' w v hle hv
    refine ⟨.expr ?_ (henv.mono hle), rfl⟩
    rw [hv.isNil_eq]
    split
    · exact hb.mono (Linked.mono hle)
    · exact ha.mono (Linked.mono hle)

lemma splits_second {a b : Value Unit}
    (demand : Demand.ofExpr .none (V.lookup env) e = .second a b) :
    Splits V (.expr e env) (.expr a env) fun _ => .expr b env := by
  refine ⟨rfl, fun _ => rfl, ?_⟩
  intro ρ s goal' hmirrors hmatches
  obtain ⟨hmirrors, e', env', demand', rfl, henv, hd, hdemand⟩ := hmirrors.matched hmatches demand
  cases hdemand with
  | @second _ _ a' b' ha hb =>
    refine ⟨.expr a' env', fun _ => .expr b' env', .expr ha henv, ?_,
      fun outcome s' => Derives.second_iff hd⟩
    intro ρ' w v hle _
    exact ⟨.expr (hb.mono (Linked.mono hle)) (henv.mono hle), rfl⟩

lemma splits_call (demand : Demand.ofExpr .none (V.lookup env) e = .operands exprs .call) :
    Splits V (.expr e env) (.operands exprs env) .application := by
  refine ⟨rfl, fun _ => rfl, ?_⟩
  intro ρ s goal' hmirrors hmatches
  obtain ⟨hmirrors, e', env', demand', rfl, henv, hd, hdemand⟩ := hmirrors.matched hmatches demand
  cases hdemand with
  | @operands _ exprs' _ hexprs =>
    refine ⟨.operands exprs' env', .application, .operands hexprs henv, ?_,
      fun outcome s' => Derives.call_iff hd⟩
    intro ρ' w v _ hv
    exact ⟨.application hv, rfl⟩

lemma splits_bind {name rest : Value Unit} (next : b.next .none = .ok (some (name, e, rest))) :
    Splits V (.bindings b) (.expr e b.env) fun v => .bindings { b with
      names := .pair () name b.names
      values := .pair () v b.values
      rest } := by
  refine ⟨rfl, fun _ => rfl, ?_⟩
  intro ρ s goal' hmirrors hmatches
  obtain ⟨b', name', e', rest', rfl, hb, hframe, hn, hname, he, hrest⟩ := hmatches.next_some next
  refine ⟨.expr e' b'.env, fun v => .bindings { b' with
    names := .pair () name' b'.names
    values := .pair () v b'.values
    rest := rest' }, .expr he hb.env, ?_, fun outcome s' => Derives.bind_iff hn⟩
  intro ρ' w v hle hv
  have hmono := Linked.mono hle
  refine ⟨.bindings ⟨.pair (hname.mono hmono) (hb.names.mono hmono),
    .pair hv (hb.values.mono hmono), hrest.mono hmono, hb.body.mono hmono, hb.env.mono hle⟩
    (hle _ _ hframe), rfl⟩

lemma reduces_collect
    (demand : Demand.ofExpr .none (V.lookup env) e = .operands exprs .collect) :
    Reduces V (.expr e env) (.operands exprs env) := by
  intro ρ s goal' hmirrors hmatches
  obtain ⟨hmirrors₁, e', env', demand', rfl, henv, hd, hdemand⟩ := hmirrors.matched hmatches demand
  cases hdemand with
  | @operands _ exprs' _ hexprs =>
    refine ⟨ρ, s, .operands exprs' env', hmirrors, .operands hexprs henv,
      fun outcome s' => Derives.collect_iff hd, ?_⟩
    intro _ w lines ρ₂ v s' r
    exact ⟨nofun, ρ₂, r⟩

lemma reduces_body {lambda formals body arguments : Value Unit} {n : Nat}
    (fits : formals.length = arguments.length) (filled : V n = .filled formals arguments) :
    Reduces V (.application (.pair () (.closure () lambda formals body env) arguments))
      (.expr body (⟨(), n⟩ :: env)) := by
  intro ρ s goal' hmirrors hmatches
  rw [Goal.hidden, View.mask_nil] at hmirrors
  cases hmatches with
  | application hcall =>
    cases hcall with
    | @pair _ _ _ _ _ arguments' hclosure harguments =>
      cases hclosure with
      | @closure _ _ _ _ _ lambda' formals' body' _ env' hlambda hformals hbody henv =>
        rw [hformals.length_eq, harguments.length_eq] at fits
        have hiff : ∀ outcome s', Derives (.application
            (.pair () (.closure () lambda' formals' body' env') arguments')) s outcome s' ↔ _ :=
          fun outcome s' => Derives.body_iff fits
        generalize hs₁ : { s with frames := s.frames.push (.filled formals' arguments') } = s₁
          at hiff
        have hframes : s₁.frames = s.frames.push (.filled formals' arguments') := by rw [← hs₁]
        have hprinted : s₁.printed = s.printed := by rw [← hs₁]
        have hle : ∀ a b, ρ a b → WithPair ρ n s.frames.size a b := fun _ _ => .inl
        have hold : ∀ a b, WithPair ρ n s.frames.size a b → V a = .pending → ρ a b := by
          rintro a b (hρ | ⟨rfl, rfl⟩) hpending
          · exact hρ
          · rw [filled] at hpending
            cases hpending
        refine ⟨_, s₁, .expr body' (⟨(), s.frames.size⟩ :: env'), ?_,
          .expr (hbody.mono (Linked.mono hle)) (.cons (.inr ⟨rfl, rfl⟩) (henv.mono hle)), hiff, ?_⟩
        · rw [Goal.hidden, View.mask_nil]
          exact hmirrors.extend filled hformals harguments hframes
        · intro _ w lines ρ₂ v s' r
          refine ⟨nofun, ρ₂, r.head hle hold hprinted ?_ ?_⟩
          · rw [hframes, Array.size_push]
            exact Nat.le_succ _
          · intro k hk _
            rw [hframes, getElem?_push_of_lt hk]
            exact ⟨List.not_mem_nil, rfl⟩

lemma reduces_fill (next : b.next .none = .ok none)
    (filled : V b.frame = .filled b.names b.values) :
    Reduces V (.bindings b) (.expr b.body b.env) := by
  intro ρ s goal' hmirrors hmatches
  obtain ⟨b', rfl, hb, hframe, hn⟩ := hmatches.next_none next
  have hpending : s.frames[b'.frame]? = some .pending :=
    hmirrors.pending hframe (View.mask_of_mem (by simp [Goal.hidden]))
  have hfill : s.fill b'.frame b'.names b'.values = .ok { s with
      frames := s.frames.setIfInBounds b'.frame (.filled b'.names b'.values) } := by
    rw [State.fill, hpending]
  generalize hs₁ : { s with
    frames := s.frames.setIfInBounds b'.frame (.filled b'.names b'.values) } = s₁ at hfill
  have hframes : s₁.frames =
      s.frames.setIfInBounds b'.frame (.filled b'.names b'.values) := by rw [← hs₁]
  have hprinted : s₁.printed = s.printed := by rw [← hs₁]
  have hmirrors₁ : Mirrors ρ V (s₁.log (.frameFilled b'.names)) :=
    Mirrors.fill hmirrors hframe filled hb.names hb.values hframes
  refine ⟨ρ, s₁.log (.frameFilled b'.names), .expr b'.body b'.env, ?_, .expr hb.body hb.env,
    fun outcome s' => Derives.fill_iff hn hfill, ?_⟩
  · rwa [Goal.hidden, View.mask_nil]
  · intro _ w lines ρ₂ v s' r
    refine ⟨?_, ρ₂, r.head (fun _ _ h => h) (fun _ _ h _ => h) hprinted ?_ ?_⟩
    · intro n hmem
      obtain rfl := List.mem_singleton.mp hmem
      rw [filled]
      nofun
    · rw [State.log, hframes, Array.size_setIfInBounds]
    · intro k hk hnot
      have hne : b'.frame ≠ k := by
        rintro rfl
        exact hnot (by simp [Goal.hidden])
      rw [State.log, hframes, Array.getElem?_setIfInBounds_ne hne]
      exact ⟨List.not_mem_nil, rfl⟩

lemma reduces_letrec {bs body : Value Unit} {n : Nat}
    (demand : Demand.ofExpr .none (V.lookup env) e = .letrec bs body) (apart : V.Apart n e env) :
    Reduces V (.expr e env) (.bindings ⟨.nil, .nil, bs, body, ⟨(), n⟩ :: env, n⟩) := by
  intro ρ s goal' hmirrors hmatches
  obtain ⟨X, hclosed, heX, henvX, hnX⟩ := apart
  rw [Goal.hidden, View.mask_nil] at hmirrors
  cases hmatches with
  | @expr _ e' _ env' he henv =>
    have henv' := henv.restrict henvX
    have hdemand := (hmirrors.restrict hclosed).demand (he.restrict heX) henv'
    rw [demand] at hdemand
    generalize hd : Demand.ofExpr .none _ e' = demand' at hdemand
    cases hdemand with
    | @letrec _ _ bs' body' hbs hbody =>
      have hiff : ∀ outcome s', Derives (.expr e' env') s outcome s' ↔ _ :=
        fun outcome s' => Derives.letrec_iff hd
      have hframes : (s.suspend bs' body' env').2.frames = s.frames.push .pending := rfl
      have hprinted : (s.suspend bs' body' env').2.printed = s.printed := rfl
      have hmatch : (s.suspend bs' body' env').1 =
          ⟨.nil, .nil, bs', body', ⟨(), s.frames.size⟩ :: env', s.frames.size⟩ := rfl
      rw [hmatch] at hiff
      generalize (s.suspend bs' body' env').2 = s₁ at hiff hframes hprinted
      have hle : ∀ a b, Restricted ρ X a b → WithPair (Restricted ρ X) n s.frames.size a b :=
        fun _ _ => .inl
      refine ⟨_, s₁,
        .bindings ⟨.nil, .nil, bs', body', ⟨(), s.frames.size⟩ :: env', s.frames.size⟩,
        hmirrors.suspend hclosed hnX hframes,
        .bindings ⟨.nil, .nil, hbs.mono (Linked.mono hle), hbody.mono (Linked.mono hle),
          .cons (.inr ⟨rfl, rfl⟩) (henv'.mono hle)⟩ (.inr ⟨rfl, rfl⟩), hiff, ?_⟩
      intro hfilled w lines ρ₂ v s' r
      refine ⟨nofun, _, Replayed.widen (r.head hle ?_ hprinted ?_ ?_) hmirrors⟩
      · rintro a b (hab | ⟨rfl, rfl⟩) hpending
        · exact hab
        · exact absurd hpending (hfilled a (by simp [Goal.hidden]))
      · rw [hframes, Array.size_push]
        exact Nat.le_succ _
      · intro k hk _
        rw [hframes, getElem?_push_of_lt hk]
        exact ⟨by simpa [Goal.hidden] using Nat.ne_of_lt hk, rfl⟩

end Shapes

namespace Replays

variable {V : View} {goal : Goal Unit} {w : Value Unit} {lines : Multiset String} {o : Outcome}

lemma sequence {first : Goal Unit} {next : Value Unit → Goal Unit}
    (hsplits : Splits V goal first next)
    (hfirst : Replays (V.mask goal.hidden) first (.ok (w, lines)))
    (hnext : Replays V (next w) o) : Replays V goal (o.after lines) := by
  intro ρ s goal' hmirrors hmatches
  obtain ⟨first', next', hfirst', hnext', hiff⟩ := hsplits.matched ρ s goal' hmirrors hmatches
  have hopen := hsplits.opens
  have hsame := hsplits.hides w
  obtain ⟨-, ρ₁, v₁, s₁, hd₁, r₁⟩ := hfirst ρ s first' (by rwa [hopen, View.mask_nil]) hfirst'
  obtain ⟨hmatches₁, hhidden₁⟩ := hnext' ρ₁ w v₁ r₁.le r₁.value
  have hcont := hnext ρ₁ s₁ (next' v₁) (by rw [hsame]; exact r₁.mirrors) hmatches₁
  rcases o with fault | ⟨w₂, lines₂⟩
  · intro v s' hd
    obtain ⟨v₁', s₁', hd₁', hd₂⟩ | ⟨fault', hfault, -⟩ := (hiff (.ok v) s').mp hd
    · obtain ⟨hv, rfl⟩ := hd₁.unique hd₁'
      cases hv
      exact hcont v s' hd₂
    · cases hfault
  · obtain ⟨hfilled, ρ₂, v₂, s₂, hd₂, r₂⟩ := hcont
    rw [hsame] at hfilled
    refine ⟨hfilled, ρ₂, v₂, s₂, (hiff (.ok v₂) s₂).mpr (.inl ⟨v₁, s₁, hd₁, hd₂⟩), ?_⟩
    rw [hfirst'.hidden_eq_nil hopen] at r₁
    rw [hhidden₁] at r₂
    exact r₁.trans r₂

/-- The fault of an evaluation that evaluation in order cannot do without. -/
lemma stuck {first : Goal Unit} {next : Value Unit → Goal Unit} {fault fault' : Fault}
    (hsplits : Splits V goal first next)
    (hfirst : Replays (V.mask goal.hidden) first (.error fault)) :
    Replays V goal (.error fault') := by
  intro ρ s goal' hmirrors hmatches v s' hd
  obtain ⟨first', next', hfirst', -, hiff⟩ := hsplits.matched ρ s goal' hmirrors hmatches
  obtain ⟨v₁, s₁, hd₁, -⟩ | ⟨fault', hfault, -⟩ := (hiff (.ok v) s').mp hd
  · exact hfirst ρ s first' (by rwa [hsplits.opens, View.mask_nil]) hfirst' v₁ s₁ hd₁
  · cases hfault

lemma instead {next : Goal Unit} (hreduces : Reduces V goal next) (hnext : Replays V next o) :
    Replays V goal o := by
  intro ρ s goal' hmirrors hmatches
  obtain ⟨ρ₁, s₁, next', hmirrors₁, hmatches₁, hiff, hback⟩ := hreduces ρ s goal' hmirrors hmatches
  have hagrees := hnext ρ₁ s₁ next' hmirrors₁ hmatches₁
  rcases o with fault | ⟨w, lines⟩
  · intro v s' hd
    exact hagrees v s' ((hiff (.ok v) s').mp hd)
  · obtain ⟨hfilled, ρ₂, v, s', hd, r⟩ := hagrees
    obtain ⟨hfilled', ρ', r'⟩ := hback hfilled w lines ρ₂ v s' r
    exact ⟨hfilled', ρ', v, s', (hiff (.ok v) s').mpr hd, r'⟩

/-! ## One lemma for each rule -/

section Rules

variable {e : Value Unit} {env : Env Unit} {b : Binding Unit} {fault : Fault}

lemma done {outcome : Except Fault (Value Unit)}
    (demand : Demand.ofExpr .none (V.lookup env) e = .done outcome) :
    Replays V (.expr e env) (outcome.map fun v => (v, 0)) := by
  intro ρ s goal' hmirrors hmatches
  obtain ⟨hmirrors, e', env', demand', rfl, henv, hd, hdemand⟩ := hmirrors.matched hmatches demand
  cases hdemand with
  | done h =>
    cases h with
    | ok hv => exact ⟨nofun, ρ, _, s, .done hd, .refl hmirrors hv⟩
    | error fault => exact fun v s' => Derives.ne_ok_of_done hd

lemma closure {tail formals body : Value Unit}
    (demand : Demand.ofExpr .none (V.lookup env) e = .closure tail formals body) :
    Replays V (.expr e env)
      (.ok (.closure () (.pair () (.atom "lambda") tail) formals body env, 0)) := by
  intro ρ s goal' hmirrors hmatches
  obtain ⟨hmirrors, e', env', demand', rfl, henv, hd, hdemand⟩ := hmirrors.matched hmatches demand
  cases hdemand with
  | closure htail hformals hbody =>
    refine ⟨nofun, ρ, _, s, .closure hd, .refl hmirrors ?_⟩
    exact .closure (.pair (.atom "lambda") htail) hformals hbody henv

lemma branch {c a b : Value Unit}
    (demand : Demand.ofExpr .none (V.lookup env) e = .branch c a b)
    (condition : Replays V (.expr c env) (.ok (w, lines)))
    (chosen : Replays V (.expr (if w.isNil then b else a) env) o) :
    Replays V (.expr e env) (o.after lines) := by
  rw [← V.mask_nil] at condition
  exact sequence (splits_branch demand) condition chosen

lemma branchFault {c a b : Value Unit}
    (demand : Demand.ofExpr .none (V.lookup env) e = .branch c a b)
    (condition : Replays V (.expr c env) (.error fault)) :
    Replays V (.expr e env) (.error fault) := by
  rw [← V.mask_nil] at condition
  exact stuck (splits_branch demand) condition

lemma second {a b : Value Unit} (demand : Demand.ofExpr .none (V.lookup env) e = .second a b)
    (hfirst : Replays V (.expr a env) (.ok (w, lines))) (hlast : Replays V (.expr b env) o) :
    Replays V (.expr e env) (o.after lines) := by
  rw [← V.mask_nil] at hfirst
  exact sequence (splits_second demand) hfirst hlast

lemma secondFault {a b : Value Unit} (demand : Demand.ofExpr .none (V.lookup env) e = .second a b)
    (hfirst : Replays V (.expr a env) (.error fault)) :
    Replays V (.expr e env) (.error fault) := by
  rw [← V.mask_nil] at hfirst
  exact stuck (splits_second demand) hfirst

lemma call {exprs : Value Unit}
    (demand : Demand.ofExpr .none (V.lookup env) e = .operands exprs .call)
    (hoperands : Replays V (.operands exprs env) (.ok (w, lines)))
    (hresult : Replays V (.application w) o) : Replays V (.expr e env) (o.after lines) := by
  rw [← V.mask_nil] at hoperands
  exact sequence (splits_call demand) hoperands hresult

lemma callFault {exprs : Value Unit}
    (demand : Demand.ofExpr .none (V.lookup env) e = .operands exprs .call)
    (hoperands : Replays V (.operands exprs env) (.error fault)) :
    Replays V (.expr e env) (.error fault) := by
  rw [← V.mask_nil] at hoperands
  exact stuck (splits_call demand) hoperands

lemma noOperands : Replays V (.operands .nil env) (.ok (.nil, 0)) := by
  intro ρ s goal' hmirrors hmatches
  rw [Goal.hidden, View.mask_nil] at hmirrors
  cases hmatches with
  | operands hexprs henv =>
    cases hexprs with
    | atom name => exact ⟨nofun, ρ, _, s, .noOperands, .refl hmirrors .nil⟩

lemma improper {tail : Value Unit} (atEnd : tail.ending = tail) (notNil : tail.isNil = false) :
    Replays V (.operands tail env) (.error fault) := by
  intro ρ s goal' _ hmatches v s' h
  cases hmatches with
  | operands hexprs henv =>
    cases h with
    | noOperands =>
      rw [hexprs.isNil_eq] at notNil
      cases notNil
    | operand first others =>
      cases hexprs with
      | pair hcar hcdr => exact absurd atEnd (Value.ending_ne_pair _ _ _ _)

lemma operand {rest list : Value Unit} {more : Multiset String}
    (hfirst : Replays V (.expr e env) (.ok (w, lines)))
    (hothers : Replays V (.operands rest env) (.ok (list, more))) :
    Replays V (.operands (.pair () e rest) env) (.ok (.pair () w list, lines + more)) := by
  intro ρ s goal' hmirrors hmatches
  cases hmatches with
  | @operands _ _ _ env' hexprs henv =>
    cases hexprs with
    | @pair _ _ _ _ e' rest' he hrest =>
      obtain ⟨-, ρ₁, v₁, s₁, hd₁, r₁⟩ := hfirst ρ s (.expr e' env') hmirrors (.expr he henv)
      rw [← V.mask_nil] at r₁
      obtain ⟨-, ρ₂, list', s₂, hd₂, r₂⟩ := hothers ρ₁ s₁ (.operands rest' env') r₁.mirrors
        (.operands (hrest.mono (Linked.mono r₁.le)) (henv.mono r₁.le))
      have r := r₁.trans r₂
      refine ⟨nofun, ρ₂, .pair () v₁ list', s₂, .operand hd₁ hd₂, { r with value := ?_ }⟩
      exact .pair (r₁.value.mono (Linked.mono r₂.le)) r₂.value

lemma operandFault {rest : Value Unit} (hfirst : Replays V (.expr e env) (.error fault)) :
    Replays V (.operands (.pair () e rest) env) (.error fault) := by
  intro ρ s goal' hmirrors hmatches v s' h
  cases hmatches with
  | @operands _ _ _ env' hexprs henv =>
    cases hexprs with
    | @pair _ _ _ _ e' rest' he hrest =>
      obtain ⟨v₁, s₁, list, first, -⟩ := Derives.operand_iff.mp h
      exact hfirst ρ s (.expr e' env') hmirrors (.expr he henv) v₁ s₁ first

/-- The operands in front of a fault do not matter: they leave the frames as they are. -/
lemma laterFault {rest : Value Unit} (hothers : Replays V (.operands rest env) (.error fault)) :
    Replays V (.operands (.pair () e rest) env) (.error fault) := by
  intro ρ s goal' hmirrors hmatches v s' h
  cases hmatches with
  | @operands _ _ _ env' hexprs henv =>
    cases hexprs with
    | @pair _ _ _ _ e' rest' he hrest =>
      obtain ⟨v₁, s₁, list, first, others, -⟩ := Derives.operand_iff.mp h
      exact hothers ρ s₁ (.operands rest' env') (hmirrors.of_kept first.frames_kept.2)
        (.operands hrest henv) list s' others

lemma primitive {name : String} {arguments : Value Unit} {s₀ : State Unit} {more : List String}
    (printed : (Primitive.apply .none name arguments s₀).2.printed.toList =
      s₀.printed.toList ++ more) :
    Replays V (.application (.pair () (.atom name) arguments))
      ((Primitive.apply .none name arguments s₀).1.map fun v => (v, (more : Multiset String))) := by
  intro ρ s goal' hmirrors hmatches
  rw [Goal.hidden, View.mask_nil] at hmirrors
  cases hmatches with
  | application hcall =>
    cases hcall with
    | @pair _ _ _ _ _ arguments' hname harguments =>
      cases hname with
      | atom name =>
        have hd : Derives (.application (.pair () (.atom name) arguments')) s _ _ := .primitive
        obtain ⟨hlike, more', hmore, hmore'⟩ :=
          Primitive.apply_similar .none name harguments s₀ s
        rw [printed] at hmore
        obtain rfl := List.append_cancel_left hmore
        have hframes := Primitive.frames_apply .none name arguments' s
        generalize Primitive.apply .none name arguments' s = r at hd hlike hmore' hframes
        generalize (Primitive.apply .none name arguments s₀).1 = outcome at hlike ⊢
        obtain ⟨outcome', s'⟩ := r
        cases hlike with
        | ok hv =>
          have hkept : ∀ k < s.frames.size, s'.frames[k]? = s.frames[k]? := by
            intro k _
            rw [hframes]
          refine ⟨nofun, ρ, _, s', hd, fun _ _ h => h, hmirrors.of_kept hkept, fun _ _ h _ => h, hv,
            ⟨more, hmore', rfl⟩, ?_, fun k hk _ => hkept k hk⟩
          rw [hframes]
        | error fault =>
          intro v s'' h
          cases (hd.unique h).1

lemma misfit {list function : Value Unit} (found : list.misfit? = some function) :
    Replays V (.application list) (.error fault) := by
  intro ρ s goal' _ hmatches v s' h
  cases hmatches with
  | application hcall =>
    have hmisfit := hcall.misfit?
    rw [found] at hmisfit
    generalize hv : Except.ok v = outcome at h
    cases h with
    | primitive | body => cases hmisfit
    | arity | misfit => cases hv

lemma arity {lambda formals body arguments : Value Unit}
    (misfits : formals.length ≠ arguments.length) :
    Replays V (.application (.pair () (.closure () lambda formals body env) arguments))
      (.error fault) := by
  intro ρ s goal' _ hmatches v s' h
  cases hmatches with
  | application hcall =>
    cases hcall with
    | pair hclosure harguments =>
      cases hclosure with
      | closure hlambda hformals hbody henv =>
        cases h with
        | body extended result =>
          rw [hformals.length_eq, harguments.length_eq] at misfits
          rw [Machine.extendEnv, if_neg misfits] at extended
          cases extended

lemma malformed (next : b.next .none = .error fault) :
    Replays V (.bindings b) (.error fault) := by
  intro ρ s goal' _ hmatches v s'
  obtain ⟨b', rfl, hn⟩ := hmatches.next_error next
  exact Derives.ne_ok_of_malformed hn

end Rules

end Replays

/-- Evaluation in order agrees with what is known in hindsight. -/
theorem replays_of_settles {early : Prop} {V : View} {goal : Goal Unit} {o : Outcome}
    (h : Settles early V goal o) : Replays V goal o := by
  induction h with
  | done demand => exact .done demand
  | closure demand => exact .closure demand
  | branch demand _ _ condition chosen => exact .branch demand condition chosen
  | branchFault demand _ condition => exact .branchFault demand condition
  | second demand _ _ first last => exact .second demand first last
  | secondFault demand _ first => exact .secondFault demand first
  | letrec demand apart _ loop => exact .instead (reduces_letrec demand apart) loop
  | collect demand _ operands => exact .instead (reduces_collect demand) operands
  | call demand _ _ operands result => exact .call demand operands result
  | callFault demand _ operands => exact .callFault demand operands
  | noOperands => exact .noOperands
  | improper atEnd notNil => exact .improper atEnd notNil
  | operand _ _ first others => exact .operand first others
  | operandFault _ first => exact .operandFault first
  | laterFault _ _ _ others => exact .laterFault others
  | skip _ _ others => exact .laterFault others
  | primitive printed => exact .primitive printed
  | body fits filled _ result => exact .instead (reduces_body fits filled) result
  | arity misfits => exact .arity misfits
  | misfit found => exact .misfit found
  | bind next _ _ bound others => exact .sequence (splits_bind next) bound others
  | bindFault next _ bound => exact .stuck (splits_bind next) bound
  | malformed next => exact .malformed next
  | fill next filled _ body => exact .instead (reduces_fill next filled) body

end Evlis
