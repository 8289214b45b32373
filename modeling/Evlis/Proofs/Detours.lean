import Evlis.Proofs.Congruence
import Evlis.Proofs.Replay

/-!
# Frames that are passed by

Two environments may differ by frames that stand in one of them only. An expression that mentions
none of the names that those frames bind cannot tell the environments apart. Values are akin if
they differ in the environments of their closures alone, and these in frames that the bodies of
the closures pass by. States meet if their frames come in pairs that bind names to akin values.
-/

namespace Evlis

/-- Frames that environments of the left or of the right side pass by, and the names that those
frames bind. -/
structure Detour where
  names : String → Prop
  left : Nat → Prop
  right : Nat → Prop

namespace Value

/-- The name occurs in an expression as an atom; the `nil` that ends a list is no occurrence. -/
def Mentions (name : String) : Value Unit → Prop
  | .atom other => other = name
  | .pair _ car cdr => car.Mentions name ∨ (cdr ≠ .nil ∧ cdr.Mentions name)
  | _ => False

def Avoids (D : Detour) (e : Value Unit) : Prop := ∀ name, D.names name → ¬ e.Mentions name

lemma Mentions.of_mem {name : String} {e v : Value Unit} (hv : v ∈ e.elements)
    (h : v.Mentions name) : e.Mentions name := by
  induction e with
  | pair mark car cdr _ ih =>
    rw [elements_pair] at hv
    rcases List.mem_cons.mp hv with rfl | hv
    · exact .inl h
    · refine .inr ⟨?_, ih hv⟩
      rintro rfl
      cases hv
  | _ => cases hv

lemma Avoids.of_mem {D : Detour} {e v : Value Unit} (h : e.Avoids D) (hv : v ∈ e.elements) :
    v.Avoids D := by
  intro name hname hmentions
  exact h name hname (hmentions.of_mem hv)

end Value

/-- Environments that go through frames in pairs, and pass by other frames only if the way is
`clear`. -/
inductive Detour.Joins (D : Detour) (ρ : Nat → Nat → Prop) (clear : Prop) :
    Env Unit → Env Unit → Prop where
  | nil : Joins D ρ clear [] []
  | both {n m : Nat} {env env' : Env Unit} (h : ρ n m) (outer : Joins D ρ clear env env') :
      Joins D ρ clear (⟨(), n⟩ :: env) (⟨(), m⟩ :: env')
  | left {n : Nat} {env env' : Env Unit} (isClear : clear) (h : D.left n)
      (outer : Joins D ρ clear env env') : Joins D ρ clear (⟨(), n⟩ :: env) env'
  | right {m : Nat} {env env' : Env Unit} (isClear : clear) (h : D.right m)
      (outer : Joins D ρ clear env env') : Joins D ρ clear env (⟨(), m⟩ :: env')

/-- Values that differ in the environments of closures alone, so that the body of the closure
cannot tell. -/
inductive Value.Akin (D : Detour) (ρ : Nat → Nat → Prop) : Value Unit → Value Unit → Prop where
  | atom (name : String) : Akin D ρ (.atom name) (.atom name)
  | pair {car cdr car' cdr' : Value Unit} (hcar : Akin D ρ car car') (hcdr : Akin D ρ cdr cdr') :
      Akin D ρ (.pair () car cdr) (.pair () car' cdr')
  | closure {lambda formals body : Value Unit} {env env' : Env Unit} (hbody : Akin D ρ body body)
      (henv : D.Joins ρ (body.Avoids D) env env') :
      Akin D ρ (.closure () lambda formals body env) (.closure () lambda formals body env')
  | foreign (n : Int) : Akin D ρ (.foreign n) (.foreign n)

variable {D : Detour} {ρ ρ' : Nat → Nat → Prop}

lemma Detour.Joins.mono {clear clear' : Prop} {env env' : Env Unit}
    (h : D.Joins ρ clear env env') (hρ : ∀ n m, ρ n m → ρ' n m) (hclear : clear → clear') :
    D.Joins ρ' clear' env env' := by
  induction h with
  | nil => exact .nil
  | both h _ ih => exact .both (hρ _ _ h) ih
  | left isClear h _ ih => exact .left (hclear isClear) h ih
  | right isClear h _ ih => exact .right (hclear isClear) h ih

lemma Detour.Joins.of_within {X : Nat → Prop} {clear : Prop} {env : Env Unit}
    (h : EnvWithin X env) (hX : ∀ n, X n → ρ n n) : D.Joins ρ clear env env := by
  induction env with
  | nil => exact .nil
  | cons rib env ih =>
    exact .both (hX _ (h rib List.mem_cons_self)) (ih fun rib hrib => h rib (.tail _ hrib))

namespace Value.Akin

variable {v w : Value Unit}

lemma mono (h : v.Akin D ρ w) (hρ : ∀ n m, ρ n m → ρ' n m) : v.Akin D ρ' w := by
  induction h with
  | atom name => exact .atom name
  | pair _ _ ihCar ihCdr => exact .pair ihCar ihCdr
  | closure _ henv ihBody => exact .closure ihBody (henv.mono hρ id)
  | «foreign» n => exact .foreign n

lemma congruence : Congruence (Value.Akin D ρ) where
  atom _ := .atom _
  pair := by
    intro mark mark' car cdr car' cdr'
    refine ⟨?_, fun h => .pair h.1 h.2⟩
    rintro (_ | ⟨hcar, hcdr⟩)
    exact ⟨hcar, hcdr⟩
  similar := by
    intro v w h
    induction h with
    | atom name => exact .atom name
    | pair _ _ ihCar ihCdr => exact .pair ihCar ihCdr
    | closure _ _ _ => exact .closure (.refl _) (.refl _) (.refl _) trivial
    | «foreign» n => exact .foreign n

lemma similar (h : v.Akin D ρ w) : v.Similar (fun _ _ => True) w := congruence.similar h

/-- A value whose frames stand for themselves is akin to itself. -/
lemma of_within {X : Nat → Prop} (h : v.Within X) (hX : ∀ n, X n → ρ n n) : v.Akin D ρ v := by
  unfold Value.Within at h
  induction v with
  | atom name => exact .atom name
  | pair mark car cdr ihCar ihCdr =>
    cases h with
    | pair hcar hcdr => exact .pair (ihCar hcar) (ihCdr hcdr)
  | closure mark lambda formals body env _ _ ihBody =>
    cases h with
    | closure _ _ hbody henv => exact .closure (ihBody hbody) (.of_within henv.2 hX)
  | «foreign» n => exact .foreign n

lemma chain {front front' : List (Value Unit)} (hfront : List.Forall₂ (Value.Akin D ρ) front front')
    {tail tail' : Value Unit} (htail : tail.Akin D ρ tail') :
    (front.foldl (fun tail v => Value.pair () v tail) tail).Akin D ρ
      (front'.foldl (fun tail v => Value.pair () v tail) tail') := by
  induction hfront generalizing tail tail' with
  | nil => exact htail
  | cons hv _ ih => exact ih (.pair hv htail)

end Value.Akin

/-- The expression can be evaluated in either environment. -/
structure Detour.Admits (D : Detour) (ρ : Nat → Nat → Prop) (env env' : Env Unit) (e : Value Unit) :
    Prop where
  expr : e.Akin D ρ e
  envs : D.Joins ρ (e.Avoids D) env env'

namespace Detour.Admits

variable {env env' : Env Unit} {e v : Value Unit}

lemma of_mem (h : D.Admits ρ env env' e) (hv : v ∈ e.elements) : D.Admits ρ env env' v := by
  refine ⟨?_, h.envs.mono (fun _ _ => id) fun hclear => hclear.of_mem hv⟩
  have helements := Value.Akin.congruence.elements h.expr
  obtain ⟨i, hi, rfl⟩ := List.mem_iff_getElem.mp hv
  exact helements.get hi hi

lemma mono (h : D.Admits ρ env env' e) (hρ : ∀ n m, ρ n m → ρ' n m) : D.Admits ρ' env env' e :=
  ⟨h.expr.mono hρ, h.envs.mono hρ id⟩

lemma closure {lambda formals body : Value Unit} (h : D.Admits ρ env env' body) :
    (Value.closure () lambda formals body env).Akin D ρ (.closure () lambda formals body env') :=
  .closure h.expr h.envs

end Detour.Admits

/-- Both pending, or both filled so that every name has akin values. -/
inductive Frame.Akin (D : Detour) (ρ : Nat → Nat → Prop) : Frame Unit → Frame Unit → Prop where
  | pending : Akin D ρ .pending .pending
  | filled {names values names' values' : Value Unit}
      (h : ∀ name, Option.Rel (Value.Akin D ρ) (Frame.findIn (.atom name) names values)
        (Frame.findIn (.atom name) names' values')) :
      Akin D ρ (.filled names values) (.filled names' values')

namespace Frame.Akin

variable {f f' : Frame Unit}

lemma find (h : f.Akin D ρ f') (name : String) :
    Option.Rel (Value.Akin D ρ) (f.find (.atom name)) (f'.find (.atom name)) := by
  cases h with
  | pending => exact .none
  | filled h => exact h name

lemma mono (h : f.Akin D ρ f') (hρ : ∀ n m, ρ n m → ρ' n m) : f.Akin D ρ' f' := by
  have hfound : ∀ found found' : Option (Value Unit), Option.Rel (Value.Akin D ρ) found found' →
      Option.Rel (Value.Akin D ρ') found found' := by
    intro found found' h
    cases h with
    | some hv => exact .some (hv.mono hρ)
    | none => exact .none
  cases h with
  | pending => exact .pending
  | filled h => exact .filled fun name => hfound _ _ (h name)

lemma pending_iff (h : f.Akin D ρ f') : f = .pending ↔ f' = .pending := by
  cases h with
  | pending => exact iff_of_true rfl rfl
  | filled _ => exact iff_of_false nofun nofun

lemma of_values {values values' : Value Unit} (h : values.Akin D ρ values') (names : Value Unit) :
    (Frame.filled names values).Akin D ρ (.filled names values') := by
  refine .filled fun name => ?_
  induction names generalizing values values' with
  | pair mark n names _ ih =>
    cases h with
    | pair hv hvalues =>
      rw [Frame.findIn, Frame.findIn]
      split
      · exact .some hv
      · exact ih hvalues
    | _ => exact .none
  | _ => exact .none

end Frame.Akin

/-- A frame that is passed by is there and binds no other names; while it is pending, it has no
counterpart. -/
def Detour.PassedBy (D : Detour) (frames : Array (Frame Unit)) (n : Nat) (alone : Prop) : Prop :=
  ∃ f, frames[n]? = some f ∧ (∀ name, ¬ D.names name → f.find (.atom name) = none) ∧
    (f = .pending → alone)

namespace Detour.PassedBy

variable {frames frames' : Array (Frame Unit)} {n : Nat} {alone alone' : Prop}

lemma lt_size (h : D.PassedBy frames n alone) : n < frames.size := by
  obtain ⟨f, hf, -⟩ := h
  exact lt_size_of_getElem? hf

/-- A frame that stays as it is, and without a counterpart, is still passed by. -/
lemma imp (h : D.PassedBy frames n alone) (hkept : frames'[n]? = frames[n]?)
    (halone : alone → alone') : D.PassedBy frames' n alone' := by
  obtain ⟨f, hf, hothers, hf'⟩ := h
  exact ⟨f, hkept.trans hf, hothers, fun hpending => halone (hf' hpending)⟩

lemma alone_of_pending (h : D.PassedBy frames n alone) (hpending : frames[n]? = some .pending) :
    alone := by
  obtain ⟨f, hf, -, halone⟩ := h
  exact halone (Option.some.inj (hf.symm.trans hpending))

end Detour.PassedBy

/-- The frames of two states come in pairs, and the same lines have been printed. -/
structure Detour.Meets (D : Detour) (ρ : Nat → Nat → Prop) (s s' : State Unit) : Prop where
  printed : s'.printed = s.printed
  paired : ∀ n m, ρ n m →
    ∃ f f', s.frames[n]? = some f ∧ s'.frames[m]? = some f' ∧ f.Akin D ρ f'
  unique : ∀ n m n' m', ρ n m → ρ n' m' → s.frames[n]? = some .pending →
    s.frames[n']? = some .pending → (n = n' ↔ m = m')
  left : ∀ n, D.left n → D.PassedBy s.frames n (∀ m, ¬ ρ n m)
  right : ∀ m, D.right m → D.PassedBy s'.frames m (∀ n, ¬ ρ n m)

namespace Detour.Meets

variable {s s' s₁ s₁' : State Unit}

lemma of_frames (h : D.Meets ρ s s') (hs : s₁.frames = s.frames) (hs' : s₁'.frames = s'.frames)
    (hprinted : s₁'.printed = s₁.printed) : D.Meets ρ s₁ s₁' := by
  refine ⟨hprinted, ?_, ?_, ?_, ?_⟩
  · rw [hs, hs']
    exact h.paired
  · rw [hs]
    exact h.unique
  · rw [hs]
    exact h.left
  · rw [hs']
    exact h.right

lemma lt_size (h : D.Meets ρ s s') {n m : Nat} (hnm : ρ n m) :
    n < s.frames.size ∧ m < s'.frames.size := by
  obtain ⟨f, f', hf, hf', -⟩ := h.paired n m hnm
  exact ⟨lt_size_of_getElem? hf, lt_size_of_getElem? hf'⟩

/-- Where a way is clear, a name has akin values on both sides. -/
lemma lookup? (h : D.Meets ρ s s') {clear : Prop} {env env' : Env Unit}
    (henv : D.Joins ρ clear env env') {name : String} (hname : clear → ¬ D.names name) :
    Option.Rel (Value.Akin D ρ) (s.lookup? (.atom name) env) (s'.lookup? (.atom name) env') := by
  induction henv with
  | nil => exact .none
  | @both n m env env' hnm _ ih =>
    obtain ⟨f, f', hf, hf', hakin⟩ := h.paired n m hnm
    have hfind := hakin.find name
    rw [State.lookup?, State.lookup?, hf, hf']
    dsimp only
    generalize f.find (.atom name) = found at hfind ⊢
    generalize f'.find (.atom name) = found' at hfind ⊢
    cases hfind with
    | some hv => exact .some hv
    | none => exact ih
  | @left n env env' isClear hn _ ih =>
    obtain ⟨f, hf, hothers, -⟩ := h.left n hn
    rw [State.lookup?, hf]
    dsimp only
    rw [hothers name (hname isClear)]
    exact ih
  | @right m env env' isClear hm _ ih =>
    obtain ⟨f, hf, hothers, -⟩ := h.right m hm
    have hpassed : s'.lookup? (.atom name) (⟨(), m⟩ :: env') = s'.lookup? (.atom name) env' := by
      rw [State.lookup?, hf]
      dsimp only
      rw [hothers name (hname isClear)]
    rw [hpassed]
    exact ih

lemma push (h : D.Meets ρ s s') {f f' : Frame Unit}
    (hf : f.Akin D (WithPair ρ s.frames.size s'.frames.size) f')
    (hs : s₁.frames = s.frames.push f) (hs' : s₁'.frames = s'.frames.push f')
    (hprinted : s₁'.printed = s₁.printed) :
    D.Meets (WithPair ρ s.frames.size s'.frames.size) s₁ s₁' := by
  have hold : ∀ {n m}, ρ n m → s₁.frames[n]? = s.frames[n]? ∧ s₁'.frames[m]? = s'.frames[m]? := by
    intro n m hnm
    obtain ⟨hn, hm⟩ := h.lt_size hnm
    rw [hs, hs', getElem?_push_of_lt hn, getElem?_push_of_lt hm]
    exact ⟨rfl, rfl⟩
  refine ⟨hprinted, ?_, ?_, ?_, ?_⟩
  · rintro n m (hnm | ⟨rfl, rfl⟩)
    · obtain ⟨g, g', hg, hg', hakin⟩ := h.paired n m hnm
      rw [(hold hnm).1, (hold hnm).2]
      exact ⟨g, g', hg, hg', hakin.mono fun _ _ => .inl⟩
    · rw [hs, hs', Array.getElem?_push_size, Array.getElem?_push_size]
      exact ⟨f, f', rfl, rfl, hf⟩
  · rintro n m n' m' (hnm | ⟨rfl, rfl⟩) (hnm' | ⟨rfl, rfl⟩) hn hn'
    · rw [(hold hnm).1] at hn
      rw [(hold hnm').1] at hn'
      exact h.unique n m n' m' hnm hnm' hn hn'
    · obtain ⟨hlt, hlt'⟩ := h.lt_size hnm
      exact iff_of_false (Nat.ne_of_lt hlt) (Nat.ne_of_lt hlt')
    · obtain ⟨hlt, hlt'⟩ := h.lt_size hnm'
      exact iff_of_false (Nat.ne_of_gt hlt) (Nat.ne_of_gt hlt')
    · exact iff_of_true rfl rfl
  · intro n hn
    have hlt := (h.left n hn).lt_size
    refine (h.left n hn).imp ?_ ?_
    · rw [hs, getElem?_push_of_lt hlt]
    · rintro halone m (hnm | ⟨rfl, -⟩)
      · exact halone m hnm
      · exact Nat.lt_irrefl _ hlt
  · intro m hm
    have hlt := (h.right m hm).lt_size
    refine (h.right m hm).imp ?_ ?_
    · rw [hs', getElem?_push_of_lt hlt]
    · rintro halone n (hnm | ⟨-, rfl⟩)
      · exact halone n hnm
      · exact Nat.lt_irrefl _ hlt

/-- The frames of a pair are pending together. -/
lemma pending_iff (h : D.Meets ρ s s') {n m : Nat} (hnm : ρ n m) :
    s.frames[n]? = some .pending ↔ s'.frames[m]? = some .pending := by
  obtain ⟨f, f', hf, hf', hakin⟩ := h.paired n m hnm
  rw [hf, hf', Option.some.injEq, Option.some.injEq]
  exact hakin.pending_iff

lemma fill (h : D.Meets ρ s s') {n m : Nat} (hnm : ρ n m) (hpending : s.frames[n]? = some .pending)
    {f f' : Frame Unit} (hf : f.Akin D ρ f') (hs : s₁.frames = s.frames.setIfInBounds n f)
    (hs' : s₁'.frames = s'.frames.setIfInBounds m f') (hprinted : s₁'.printed = s₁.printed) :
    D.Meets ρ s₁ s₁' := by
  have hpending' : s'.frames[m]? = some .pending := (h.pending_iff hnm).mp hpending
  have hother : ∀ k, k ≠ n → s₁.frames[k]? = s.frames[k]? := by
    intro k hk
    rw [hs, Array.getElem?_setIfInBounds_ne hk.symm]
  have hother' : ∀ k, k ≠ m → s₁'.frames[k]? = s'.frames[k]? := by
    intro k hk
    rw [hs', Array.getElem?_setIfInBounds_ne hk.symm]
  -- a frame may be in many pairs once it is filled, but in one only while it is pending
  have hsame : ∀ a b, ρ a b → (a = n ↔ b = m) := by
    intro a b hab
    refine ⟨?_, ?_⟩
    · rintro rfl
      exact ((h.unique a m a b hnm hab hpending hpending).mp rfl).symm
    · rintro rfl
      have hpendingA := (h.pending_iff hab).mpr hpending'
      exact ((h.unique n b a b hnm hab hpending hpendingA).mpr rfl).symm
  have hwas : ∀ k : Nat, s₁.frames[k]? = some .pending → s.frames[k]? = some .pending := by
    intro k hk
    by_cases hkn : k = n
    · rw [hkn]
      exact hpending
    · rwa [← hother k hkn]
  refine ⟨hprinted, ?_, ?_, ?_, ?_⟩
  · intro a b hab
    by_cases ha : a = n
    · have hb := (hsame a b hab).mp ha
      rw [ha, hb, hs, hs', Array.getElem?_setIfInBounds_self_of_lt (lt_size_of_getElem? hpending),
        Array.getElem?_setIfInBounds_self_of_lt (lt_size_of_getElem? hpending')]
      exact ⟨f, f', rfl, rfl, hf⟩
    · have hb : b ≠ m := fun hb => ha ((hsame a b hab).mpr hb)
      rw [hother a ha, hother' b hb]
      exact h.paired a b hab
  · intro a b a' b' hab hab' ha ha'
    exact h.unique a b a' b' hab hab' (hwas a ha) (hwas a' ha')
  · intro k hk
    have hne : k ≠ n := by
      rintro rfl
      exact (h.left k hk).alone_of_pending hpending m hnm
    exact (h.left k hk).imp (hother k hne) id
  · intro k hk
    have hne : k ≠ m := by
      rintro rfl
      exact (h.right k hk).alone_of_pending hpending' n hnm
    exact (h.right k hk).imp (hother' k hne) id

/-- The right side fills a frame that it has passed by, and the left side adds one to pair with
it. -/
lemma pair_up (h : D.Meets ρ s s') {m : Nat} (hm : D.right m)
    (hpending : s'.frames[m]? = some .pending) {names values names' values' : Value Unit}
    (hakin : (Frame.filled names values).Akin D (WithPair ρ s.frames.size m)
      (.filled names' values'))
    (hothers : ∀ name, ¬ D.names name → Frame.findIn (.atom name) names' values' = none)
    (hs : s₁.frames = s.frames.push (.filled names values))
    (hs' : s₁'.frames = s'.frames.setIfInBounds m (.filled names' values'))
    (hprinted : s₁'.printed = s₁.printed) :
    D.Meets (WithPair ρ s.frames.size m) s₁ s₁' := by
  have halone : ∀ n, ¬ ρ n m := (h.right m hm).alone_of_pending hpending
  have hold : ∀ n < s.frames.size, s₁.frames[n]? = s.frames[n]? := by
    intro n hn
    rw [hs, getElem?_push_of_lt hn]
  have hother : ∀ k, k ≠ m → s₁'.frames[k]? = s'.frames[k]? := by
    intro k hk
    rw [hs', Array.getElem?_setIfInBounds_ne hk.symm]
  have hnew : s₁.frames[s.frames.size]? = some (.filled names values) := by
    rw [hs, Array.getElem?_push_size]
  have hfilled : s₁'.frames[m]? = some (.filled names' values') := by
    rw [hs', Array.getElem?_setIfInBounds_self_of_lt (lt_size_of_getElem? hpending)]
  have hwas : ∀ n k, WithPair ρ s.frames.size m n k → s₁.frames[n]? = some .pending →
      ρ n k ∧ s.frames[n]? = some .pending := by
    rintro n k (hnk | ⟨rfl, -⟩) hn
    · rw [hold n (h.lt_size hnk).1] at hn
      exact ⟨hnk, hn⟩
    · rw [hnew] at hn
      cases hn
  refine ⟨hprinted, ?_, ?_, ?_, ?_⟩
  · rintro n k (hnk | ⟨rfl, rfl⟩)
    · have hk : k ≠ m := by
        rintro rfl
        exact halone n hnk
      obtain ⟨f, f', hf, hf', hpair⟩ := h.paired n k hnk
      rw [hold n (h.lt_size hnk).1, hother k hk]
      exact ⟨f, f', hf, hf', hpair.mono fun _ _ => .inl⟩
    · exact ⟨_, _, hnew, hfilled, hakin⟩
  · intro n k n' k' hnk hnk' hn hn'
    obtain ⟨hnk, hn⟩ := hwas n k hnk hn
    obtain ⟨hnk', hn'⟩ := hwas n' k' hnk' hn'
    exact h.unique n k n' k' hnk hnk' hn hn'
  · intro n hn
    have hlt := (h.left n hn).lt_size
    refine (h.left n hn).imp (hold n hlt) ?_
    rintro hlone k (hnk | ⟨rfl, -⟩)
    · exact hlone k hnk
    · exact Nat.lt_irrefl _ hlt
  · intro k hk
    by_cases hkm : k = m
    · rw [hkm]
      exact ⟨_, hfilled, hothers, nofun⟩
    · refine (h.right k hk).imp (hother k hkm) ?_
      rintro hlone n (hnk | ⟨-, rfl⟩)
      · exact hlone n hnk
      · exact hkm rfl

end Detour.Meets

end Evlis
