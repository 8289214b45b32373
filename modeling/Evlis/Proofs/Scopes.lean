import Evlis.Proofs.FrameDiscipline
import Evlis.Proofs.Hindsight

/-!
# What an evaluation can reach

An evaluation has access to the frames of its environment, to what these hold, and so on. As long
as it can reach no pending frames but those in a given list, it cannot tell the present state from
any view that knows more, provided that the frames of the list are hidden in it: evaluations that
run at the same time do not notice each other.
-/

namespace Evlis

lemma EnvWithin.mono {X Y : Nat → Prop} {env : Env Unit} (h : EnvWithin X env)
    (hle : ∀ n, X n → Y n) : EnvWithin Y env := by
  intro rib hrib
  exact hle _ (h rib hrib)

lemma EnvWithin.cons {X : Nat → Prop} {n : Nat} {env : Env Unit} (hn : X n)
    (h : EnvWithin X env) : EnvWithin X (⟨(), n⟩ :: env) := by
  intro rib hrib
  rcases List.mem_cons.mp hrib with rfl | hrib
  · exact hn
  · exact h rib hrib

namespace Value.Within

variable {X Y : Nat → Prop}

lemma mono {v : Value Unit} (h : v.Within X) (hle : ∀ n, X n → Y n) : v.Within Y :=
  Value.Similar.mono (fun _ _ henv => ⟨henv.1, henv.2.mono hle⟩) h

lemma atom (name : String) : (Value.atom name).Within X := Value.Similar.atom name

lemma pair {car cdr : Value Unit} (hcar : car.Within X) (hcdr : cdr.Within X) :
    (Value.pair () car cdr).Within X := Value.Similar.pair hcar hcdr

lemma closure {lambda formals body : Value Unit} {env : Env Unit} (hlambda : lambda.Within X)
    (hformals : formals.Within X) (hbody : body.Within X) (henv : EnvWithin X env) :
    (Value.closure () lambda formals body env).Within X :=
  Value.Similar.closure hlambda hformals hbody ⟨rfl, henv⟩

lemma chain {front : List (Value Unit)} {tail : Value Unit} (hfront : ∀ v ∈ front, v.Within X)
    (htail : tail.Within X) :
    (front.foldl (fun tail v => Value.pair () v tail) tail).Within X := by
  induction front generalizing tail with
  | nil => exact htail
  | cons v front ih =>
    exact ih (fun v hv => hfront v (by simp [hv])) (.pair (hfront v (by simp)) htail)

lemma ofSExpr (e : SExpr) : (Value.ofSExpr e).Within X := by
  induction e with
  | atom name => exact .atom name
  | pair car cdr ihCar ihCdr =>
    rw [Value.ofSExpr_pair]
    exact .pair ihCar ihCdr

end Value.Within

lemma mem_within_of_forall₂ {X : Nat → Prop} {vs : List (Value Unit)}
    (h : List.Forall₂ (Value.Similar fun env env' => env = env' ∧ EnvWithin X env) vs vs) :
    ∀ v ∈ vs, v.Within X := by
  intro v hv
  obtain ⟨i, hi, rfl⟩ := List.mem_iff_getElem.mp hv
  exact h.get hi hi

lemma Value.Within.of_toList {X : Nat → Prop} {v : Value Unit} {vs : List (Value Unit)}
    (h : v.Within X) (hlist : v.toList .none = .ok vs) : ∀ w ∈ vs, w.Within X := by
  have hlike := Value.Similar.toList h .none
  rw [hlist] at hlike
  cases hlike with
  | ok hvs => exact mem_within_of_forall₂ hvs

/-- A set of frames that is closed under what its frames hold, with no pending frames in it but
those of the list. -/
def Confined (s : State Unit) (P : List Nat) (X : Nat → Prop) : Prop :=
  ∀ n, X n → (s.frames[n]? = some .pending ∧ n ∈ P) ∨
    ∃ names values, s.frames[n]? = some (.filled names values) ∧ names.Within X ∧ values.Within X

/-- The frames from which no pending frames can be reached but those of the list. -/
def Safe (s : State Unit) (P : List Nat) (n : Nat) : Prop := ∃ X, Confined s P X ∧ X n

lemma confined_safe (s : State Unit) (P : List Nat) : Confined s P (Safe s P) := by
  rintro n ⟨X, hX, hn⟩
  have hle : ∀ m, X m → Safe s P m := fun m hm => ⟨X, hX, hm⟩
  rcases hX n hn with hpending | ⟨names, values, hfilled, hnames, hvalues⟩
  · exact .inl hpending
  · exact .inr ⟨names, values, hfilled, hnames.mono hle, hvalues.mono hle⟩

namespace Safe

variable {s s' : State Unit} {P P' : List Nat} {n : Nat}

lemma lt_size (h : Safe s P n) : n < s.frames.size := by
  rcases confined_safe s P n h with ⟨hpending, -⟩ | ⟨names, values, hfilled, -⟩
  · exact lt_size_of_getElem? hpending
  · exact lt_size_of_getElem? hfilled

/-- Filling a frame that cannot be reached, or adding one, makes no difference. -/
lemma of_change (h : Safe s P n) (hchange : ∀ k < s.frames.size,
      s'.frames[k]? = s.frames[k]? ∨ (s.frames[k]? = some .pending ∧ k ∉ P)) : Safe s' P n := by
  refine ⟨Safe s P, ?_, h⟩
  intro k hk
  have hconfined := confined_safe s P k hk
  rcases hchange k hk.lt_size with hsame | ⟨hpending, hnot⟩
  · rwa [hsame]
  · rcases hconfined with ⟨-, hmem⟩ | ⟨names, values, hfilled, -⟩
    · exact absurd hmem hnot
    · rw [hpending] at hfilled
      cases hfilled

lemma weaken (h : Safe s P n) (hle : ∀ k ∈ P, k ∈ P') : Safe s P' n := by
  refine ⟨Safe s P, ?_, h⟩
  intro k hk
  rcases confined_safe s P k hk with ⟨hpending, hmem⟩ | hfilled
  · exact .inl ⟨hpending, hle k hmem⟩
  · exact .inr hfilled

/-- A pending frame may be filled with what it can be reached from. -/
lemma fill {m : Nat} {names values : Value Unit} (h : Safe s (m :: P) n)
    (hm : s.frames[m]? = some .pending) (hnames : names.Within (Safe s (m :: P)))
    (hvalues : values.Within (Safe s (m :: P)))
    (hframes : s'.frames = s.frames.setIfInBounds m (.filled names values)) : Safe s' P n := by
  refine ⟨Safe s (m :: P), ?_, h⟩
  intro k hk
  by_cases hkm : m = k
  · subst hkm
    refine .inr ⟨names, values, ?_, hnames, hvalues⟩
    rw [hframes, Array.getElem?_setIfInBounds_self_of_lt (lt_size_of_getElem? hm)]
  · rw [hframes, Array.getElem?_setIfInBounds_ne hkm]
    rcases confined_safe s (m :: P) k hk with ⟨hpending, hmem⟩ | hfilled
    · exact .inl ⟨hpending, (List.mem_cons.mp hmem).resolve_left (Ne.symm hkm)⟩
    · exact .inr hfilled

lemma of_frames (h : Safe s P n) (hframes : s'.frames = s.frames) : Safe s' P n :=
  h.of_change fun k _ => .inl (by rw [hframes])

lemma push (h : Safe s P n) {frame : Frame Unit} (hframes : s'.frames = s.frames.push frame) :
    Safe s' P n := by
  refine h.of_change ?_
  intro k hk
  rw [hframes, getElem?_push_of_lt hk]
  exact .inl rfl

lemma new_filled {names values : Value Unit} (hnames : names.Within (Safe s P))
    (hvalues : values.Within (Safe s P))
    (hframes : s'.frames = s.frames.push (.filled names values)) :
    Safe s' P s.frames.size := by
  refine ⟨fun k => Safe s' P k ∨ k = s.frames.size, ?_, .inr rfl⟩
  have hle : ∀ k, Safe s P k → Safe s' P k ∨ k = s.frames.size := fun k hk => .inl (hk.push hframes)
  rintro k (hk | rfl)
  · rcases confined_safe s' P k hk with hpending | ⟨names', values', hfilled, hnames', hvalues'⟩
    · exact .inl hpending
    · exact .inr ⟨names', values', hfilled, hnames'.mono fun _ => .inl, hvalues'.mono fun _ => .inl⟩
  · refine .inr ⟨names, values, ?_, hnames.mono hle, hvalues.mono hle⟩
    rw [hframes, Array.getElem?_push_size]

lemma new_pending (hframes : s'.frames = s.frames.push .pending) :
    Safe s' (s.frames.size :: P) s.frames.size := by
  refine ⟨fun k => k = s.frames.size, ?_, rfl⟩
  rintro k rfl
  refine .inl ⟨?_, by simp⟩
  rw [hframes, Array.getElem?_push_size]

end Safe

/-- The view knows what the state knows. -/
def View.Foresees (F : View) (s : State Unit) : Prop :=
  ∀ n names values, s.frames[n]? = some (.filled names values) → F n = .filled names values

section Present

variable {F : View} {s : State Unit} {P : List Nat} {env : Env Unit}

lemma View.Foresees.mask_eq (h : F.Foresees s) (hP : ∀ n ∈ P, s.frames[n]? = some .pending)
    {n : Nat} (hn : Safe s P n) : F.mask P n = s.view n := by
  rcases confined_safe s P n hn with ⟨hpending, hmem⟩ | ⟨names, values, hfilled, -⟩
  · rw [View.mask_of_mem hmem, State.view, hpending]
    rfl
  · have hnot : n ∉ P := by
      intro hmem
      rw [hP n hmem] at hfilled
      cases hfilled
    rw [View.mask_of_not_mem hnot, h n names values hfilled, State.view, hfilled]
    rfl

/-- The present state and a view that knows more give names the same values. -/
lemma View.Foresees.lookup_eq (h : F.Foresees s) (hP : ∀ n ∈ P, s.frames[n]? = some .pending)
    (henv : EnvWithin (Safe s P) env) :
    s.lookup .none env = (F.mask P).lookup env := by
  funext name
  have hfound : s.view.lookup? name env = (F.mask P).lookup? name env := by
    induction env with
    | nil => rfl
    | cons rib outer ih =>
      rw [View.lookup?, View.lookup?, h.mask_eq hP (henv rib (by simp))]
      rw [ih fun rib hrib => henv rib (by simp [hrib])]
  rw [State.lookup_eq_view, View.lookup, View.lookup, hfound]

lemma View.Foresees.closed (h : F.Foresees s) : (F.mask P).Closed (Safe s P) := by
  intro n names values hn hfilled
  rcases confined_safe s P n hn with ⟨-, hmem⟩ | ⟨names', values', hframe, hnames, hvalues⟩
  · rw [View.mask_of_mem hmem] at hfilled
    cases hfilled
  · by_cases hmem : n ∈ P
    · rw [View.mask_of_mem hmem] at hfilled
      cases hfilled
    · rw [View.mask_of_not_mem hmem, h n names' values' hframe] at hfilled
      cases hfilled
      exact ⟨hnames, hvalues⟩

/-- A frame that is still to be made cannot be reached. -/
lemma View.Foresees.apart (h : F.Foresees s) {e : Value Unit} (he : e.Within (Safe s P))
    (henv : EnvWithin (Safe s P) env) : (F.mask P).Apart s.frames.size e env :=
  ⟨Safe s P, h.closed, he, henv, fun hsize => Nat.lt_irrefl _ hsize.lt_size⟩

end Present

section Results

variable {s : State Unit} {P : List Nat} {env : Env Unit}

/-- The relation that makes similarity to itself a matter of frames. -/
abbrev KeptWithin (X : Nat → Prop) (env env' : Env Unit) : Prop := env = env' ∧ EnvWithin X env

lemma like_lookup_self (henv : EnvWithin (Safe s P) env) (name : String) :
    Like (Value.Similar (KeptWithin (Safe s P))) (s.lookup .none env (.atom name))
      (s.lookup .none env (.atom name)) := by
  have hfound : Option.Rel (Value.Similar (KeptWithin (Safe s P)))
      (s.view.lookup? (.atom name) env) (s.view.lookup? (.atom name) env) := by
    induction env with
    | nil => exact .none
    | cons rib outer ih =>
      rw [View.lookup?]
      have hframe : (s.view rib.frame).Similar (KeptWithin (Safe s P)) (s.view rib.frame) := by
        rw [State.view]
        rcases confined_safe s P rib.frame (henv rib (by simp)) with
          ⟨hpending, -⟩ | ⟨names, values, hfilled, hnames, hvalues⟩
        · rw [hpending]
          exact .pending
        · rw [hfilled]
          exact .filled hnames hvalues
      have hfind := hframe.find name
      generalize (s.view rib.frame).find (.atom name) = found at hfind ⊢
      cases found with
      | none => exact ih fun rib hrib => henv rib (by simp [hrib])
      | some v => exact hfind
  rw [State.lookup_eq_view, View.lookup]
  generalize s.view.lookup? (.atom name) env = found at hfound ⊢
  cases hfound with
  | none => exact .error _
  | some hv => exact .ok hv

/-- What an expression asks for can reach no more than the expression can. -/
lemma demand_self {e : Value Unit} (he : e.Within (Safe s P)) (henv : EnvWithin (Safe s P) env) :
    Demand.Similar (KeptWithin (Safe s P)) (Demand.ofExpr .none (s.lookup .none env) e)
      (Demand.ofExpr .none (s.lookup .none env) e) :=
  Demand.ofExpr_similar .none (like_lookup_self henv) he

/-- All that bindings under way refer to belongs to a set. -/
structure Binding.Within (X : Nat → Prop) (b : Binding Unit) : Prop where
  names : b.names.Within X
  values : b.values.Within X
  rest : b.rest.Within X
  body : b.body.Within X
  env : EnvWithin X b.env

lemma Binding.Within.mono {X Y : Nat → Prop} {b : Binding Unit} (h : b.Within X)
    (hle : ∀ n, X n → Y n) : b.Within Y :=
  ⟨h.names.mono hle, h.values.mono hle, h.rest.mono hle, h.body.mono hle, h.env.mono hle⟩

lemma Binding.Within.next {X : Nat → Prop} {b : Binding Unit} (h : b.Within X)
    {name e rest : Value Unit} (next : b.next .none = .ok (some (name, e, rest))) :
    name.Within X ∧ e.Within X ∧ rest.Within X := by
  have hself : b.Similar (KeptWithin X) b := ⟨h.names, h.values, h.rest, h.body, rfl, h.env⟩
  have hlike := hself.next .none
  rw [next] at hlike
  cases hlike with
  | ok hsome =>
    cases hsome with
    | some hparts => exact hparts

lemma within_of_apply {X : Nat → Prop} {name : String} {arguments v : Value Unit}
    (h : arguments.Within X) (happly : (Primitive.apply .none name arguments s).1 = .ok v) :
    v.Within X := by
  have hlike := (Primitive.apply_similar .none name h s s).1
  rw [happly] at hlike
  cases hlike with
  | ok hv => exact hv

end Results

end Evlis
