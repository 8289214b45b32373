import Evlis.Proofs.Detours

/-!
# Runs in lockstep

Two threads that do the same with environments that differ by frames they pass by go on doing the
same, step by step, as long as neither is done with what both have begun. The stacks below, which
take over then, may be different.
-/

namespace Evlis

lemma State.fill_of_pending {s : State Unit} {n : Nat} (h : s.frames[n]? = some .pending)
    (names values : Value Unit) :
    s.fill n names values =
      .ok { s with frames := s.frames.setIfInBounds n (.filled names values) } := by
  rw [State.fill, h]

lemma State.fill_of_not_pending {s : State Unit} {n : Nat} (h : s.frames[n]? ≠ some .pending)
    (names values : Value Unit) : s.fill n names values = .error .frameFilled := by
  unfold State.fill
  split
  · rename_i hpending
    exact absurd hpending h
  · rfl

variable {D : Detour} {ρ ρ' : Nat → Nat → Prop}

/-- The same is done next, in environments that cannot be told apart. -/
inductive Control.Akin (D : Detour) (ρ : Nat → Nat → Prop) :
    Control Unit → Control Unit → Prop where
  | enter {e : Value Unit} {env env' : Env Unit} (h : D.Admits ρ env env' e) :
      Akin D ρ (.enter e env) (.enter e env')
  | bounce {e : Value Unit} {env env' : Env Unit} (h : D.Admits ρ env env' e) :
      Akin D ρ (.bounce e env) (.bounce e env')
  | give {v v' : Value Unit} (h : v.Akin D ρ v') : Akin D ρ (.give v) (.give v')
  | fail (fault : Fault) : Akin D ρ (.fail fault) (.fail fault)

/-- Bindings that have come equally far, with akin values. -/
structure Binding.Akin (D : Detour) (ρ : Nat → Nat → Prop) (b b' : Binding Unit) : Prop where
  names : b'.names = b.names
  values : b.values.Akin D ρ b'.values
  rest : b'.rest = b.rest
  body : b'.body = b.body
  exprs : ∀ binding ∈ b.rest.elements, D.Admits ρ b.env b'.env binding
  last : D.Admits ρ b.env b'.env b.body
  frame : ρ b.frame b'.frame

/-- Evaluations that wait for the same, with akin values. -/
inductive Cont.Akin (D : Detour) (ρ : Nat → Nat → Prop) : Cont Unit → Cont Unit → Prop where
  | operand {values values' : List (Value Unit)} {rest : Value Unit} {env env' : Env Unit}
      (purpose : Purpose) (hvalues : List.Forall₂ (Value.Akin D ρ) values values')
      (hrest : ∀ e ∈ rest.elements, D.Admits ρ env env' e) :
      Akin D ρ (.operand values rest env purpose) (.operand values' rest env' purpose)
  | branch {consequent alternative : Value Unit} {env env' : Env Unit}
      (hconsequent : D.Admits ρ env env' consequent)
      (halternative : D.Admits ρ env env' alternative) :
      Akin D ρ (.branch consequent alternative env) (.branch consequent alternative env')
  | second {e : Value Unit} {env env' : Env Unit} (h : D.Admits ρ env env' e) :
      Akin D ρ (.second e env) (.second e env')
  | bind {b b' : Binding Unit} (name : Value Unit) (h : b.Akin D ρ b') :
      Akin D ρ (.bind name b) (.bind name b')

/-- Evaluations waiting in the same order above two stacks. -/
inductive StacksAkin (D : Detour) (ρ : Nat → Nat → Prop) (below below' : List (Cont Unit)) :
    List (Cont Unit) → List (Cont Unit) → Prop where
  | bottom : StacksAkin D ρ below below' below below'
  | cons {cont cont' : Cont Unit} {stack stack' : List (Cont Unit)} (h : cont.Akin D ρ cont')
      (hs : StacksAkin D ρ below below' stack stack') :
      StacksAkin D ρ below below' (cont :: stack) (cont' :: stack')

lemma Cont.Akin.mono {c c' : Cont Unit} (h : c.Akin D ρ c') (hρ : ∀ n m, ρ n m → ρ' n m) :
    c.Akin D ρ' c' := by
  cases h with
  | operand purpose hvalues hrest =>
    exact .operand purpose (hvalues.imp fun _ _ h => h.mono hρ) fun e he => (hrest e he).mono hρ
  | branch hconsequent halternative => exact .branch (hconsequent.mono hρ) (halternative.mono hρ)
  | second h => exact .second (h.mono hρ)
  | bind name h =>
    exact .bind name ⟨h.names, h.values.mono hρ, h.rest, h.body,
      fun e he => (h.exprs e he).mono hρ, h.last.mono hρ, hρ _ _ h.frame⟩

lemma StacksAkin.mono {below below' stack stack' : List (Cont Unit)}
    (h : StacksAkin D ρ below below' stack stack') (hρ : ∀ n m, ρ n m → ρ' n m) :
    StacksAkin D ρ' below below' stack stack' := by
  induction h with
  | bottom => exact .bottom
  | cons h _ ih => exact .cons (h.mono hρ) ih

namespace Machine

/-- Where two runs in lockstep stand. -/
structure Abreast (D : Detour) (ρ : Nat → Nat → Prop) (below below' : List (Cont Unit))
    (c c' : Thread Unit × State Unit) : Prop where
  control : c.1.control.Akin D ρ c'.1.control
  stack : StacksAkin D ρ below below' c.1.stack c'.1.stack
  states : D.Meets ρ c.2 c'.2

/-- Runs that are in lockstep, with more frames in pairs. -/
def StillAbreast (D : Detour) (ρ : Nat → Nat → Prop) (below below' : List (Cont Unit))
    (c c' : Thread Unit × State Unit) : Prop :=
  ∃ ρ', (∀ n m, ρ n m → ρ' n m) ∧ Abreast D ρ' below below' c c'

lemma Abreast.still {below below' : List (Cont Unit)} {c c' : Thread Unit × State Unit}
    (h : Abreast D ρ below below' c c') : StillAbreast D ρ below below' c c' :=
  ⟨ρ, fun _ _ => id, h⟩

section Steps

variable {below below' stack stack' : List (Cont Unit)} {s s' : State Unit}

lemma abreast_enter {cont cont' : Cont Unit} (hcont : cont.Akin D ρ cont') {e : Value Unit}
    {env env' : Env Unit} (he : D.Admits ρ env env' e)
    (hstack : StacksAkin D ρ below below' stack stack') (hs : D.Meets ρ s s') :
    StillAbreast D ρ below below' (await .none cont e env stack s)
      (await .none cont' e env' stack' s') :=
  Abreast.still ⟨.enter he, .cons hcont hstack, hs⟩

lemma abreast_fail (fault : Fault) (hstack : StacksAkin D ρ below below' stack stack')
    (hs : D.Meets ρ s s') :
    StillAbreast D ρ below below' (fail fault stack s) (fail fault stack' s') :=
  Abreast.still ⟨.fail fault, hstack, hs⟩

lemma abreast_primitive {arguments arguments' : Value Unit} (h : arguments.Akin D ρ arguments')
    (name : String) (hstack : StacksAkin D ρ below below' stack stack') (hs : D.Meets ρ s s') :
    StillAbreast D ρ below below' (apply .none (.pair () (.atom name) arguments) stack s)
      (apply .none (.pair () (.atom name) arguments') stack' s') := by
  obtain ⟨hlike, lines, hlines, hlines'⟩ :=
    Primitive.apply_congruent Value.Akin.congruence .none name h s s'
  have hframes := Primitive.frames_apply .none name arguments s
  have hframes' := Primitive.frames_apply .none name arguments' s'
  unfold apply
  dsimp only
  generalize Primitive.apply .none name arguments s = r at hlike hlines hframes ⊢
  generalize Primitive.apply .none name arguments' s' = r' at hlike hlines' hframes' ⊢
  obtain ⟨outcome, s₁⟩ := r
  obtain ⟨outcome', s₁'⟩ := r'
  have hprinted : s₁'.printed = s₁.printed := by
    rw [← Array.toList_inj]
    rw [hlines', hlines, hs.printed]
  have hs₁ : D.Meets ρ s₁ s₁' := hs.of_frames hframes hframes' hprinted
  cases hlike with
  | ok hv => exact Abreast.still ⟨.give hv, hstack, hs₁⟩
  | error fault => exact abreast_fail fault hstack hs₁

lemma abreast_apply {call call' : Value Unit} (h : call.Akin D ρ call')
    (hstack : StacksAkin D ρ below below' stack stack') (hs : D.Meets ρ s s') :
    StillAbreast D ρ below below' (apply .none call stack s) (apply .none call' stack' s') := by
  have hmisfit : ∀ {v v' : Value Unit}, v.Akin D ρ v' → StillAbreast D ρ below below'
      (fail (v.blame .none .illegalFunction) stack s)
      (fail (v'.blame .none .illegalFunction) stack' s') := by
    intro v v' hv
    rw [hv.similar.blame_eq]
    exact abreast_fail _ hstack hs
  cases h with
  | atom name => exact hmisfit (.atom name)
  | «foreign» n => exact hmisfit (.foreign n)
  | closure hbody henv => exact hmisfit (.closure hbody henv)
  | pair hfunction harguments =>
    cases hfunction with
    | atom name => exact abreast_primitive harguments name hstack hs
    | «foreign» n => exact hmisfit (.foreign n)
    | pair hcar hcdr => exact hmisfit (.pair hcar hcdr)
    | @closure lambda formals body env env' hbody henv =>
      rename_i arguments arguments'
      have hclosure : (Value.closure () lambda formals body env).Akin D ρ
          (.closure () lambda formals body env') := .closure hbody henv
      unfold apply extendEnv
      dsimp only
      rw [harguments.similar.length_eq, hclosure.similar.blame_eq]
      by_cases hlength : formals.length = arguments'.length
      · rw [if_pos hlength, if_pos hlength]
        let ρ' := WithPair ρ s.frames.size s'.frames.size
        have hρ : ∀ n m, ρ n m → ρ' n m := fun _ _ => .inl
        have hframe : (Frame.filled formals arguments).Akin D ρ' (.filled formals arguments') :=
          .of_values (harguments.mono hρ) formals
        have hbody' : D.Admits ρ' (⟨(), s.frames.size⟩ :: env)
            (⟨(), s'.frames.size⟩ :: env') body :=
          ⟨hbody.mono hρ, .both (.inr ⟨rfl, rfl⟩) (henv.mono hρ id)⟩
        exact ⟨ρ', hρ, .bounce hbody', hstack.mono hρ, hs.push hframe rfl rfl hs.printed⟩
      · rw [if_neg hlength, if_neg hlength]
        exact abreast_fail _ hstack hs

lemma abreast_nextOperand {values values' : List (Value Unit)}
    (hvalues : List.Forall₂ (Value.Akin D ρ) values values') {rest : Value Unit}
    {env env' : Env Unit} (hrest : ∀ e ∈ rest.elements, D.Admits ρ env env' e) (purpose : Purpose)
    (hstack : StacksAkin D ρ below below' stack stack') (hs : D.Meets ρ s s') :
    StillAbreast D ρ below below' (nextOperand .none values rest env purpose stack s)
      (nextOperand .none values' rest env' purpose stack' s') := by
  unfold nextOperand
  split
  · rename_i e rest
    rw [Value.elements_pair] at hrest
    obtain ⟨he, hothers⟩ := List.forall_mem_cons.mp hrest
    exact abreast_enter (.operand purpose hvalues hothers) he hstack hs
  · split
    · rw [State.chain_unit, State.chain_unit]
      have hlist := Value.Akin.chain hvalues (Value.Akin.atom "nil" : Value.nil.Akin D ρ Value.nil)
      cases purpose with
      | call => exact abreast_apply hlist hstack hs
      | collect => exact Abreast.still ⟨.give hlist, hstack, hs⟩
    · exact abreast_fail _ hstack hs

lemma abreast_nextBinding {b b' : Binding Unit} (hb : b.Akin D ρ b')
    (hstack : StacksAkin D ρ below below' stack stack') (hs : D.Meets ρ s s') :
    StillAbreast D ρ below below' (nextBinding .none b stack s)
      (nextBinding .none b' stack' s') := by
  have hnext : b'.next .none = b.next .none := by
    rw [Binding.next, Binding.next, hb.rest]
  rw [nextBinding_eq, nextBinding_eq, hnext]
  cases hcase : b.next .none with
  | error fault => exact abreast_fail fault hstack hs
  | ok next =>
    cases next with
    | some next =>
      obtain ⟨name, e, rest⟩ := next
      obtain ⟨mark, binding, hrest, hparts, -⟩ := Binding.eq_of_next hcase
      have hexprs := hb.exprs
      rw [hrest, Value.elements_pair] at hexprs
      obtain ⟨hbinding, hothers⟩ := List.forall_mem_cons.mp hexprs
      have he : D.Admits ρ b.env b'.env e := by
        refine hbinding.of_mem ?_
        rw [hparts]
        simp
      have hcont : (Cont.bind name { b with rest }).Akin D ρ (.bind name { b' with rest }) :=
        .bind name ⟨hb.names, hb.values, rfl, hb.body, hothers, hb.last, hb.frame⟩
      exact abreast_enter hcont he hstack hs
    | none =>
      dsimp only
      rw [hb.names, hb.body]
      have hframe : (Frame.filled b.names b.values).Akin D ρ (.filled b.names b'.values) :=
        .of_values hb.values b.names
      by_cases hpending : s.frames[b.frame]? = some .pending
      · have hpending' := (hs.pending_iff hb.frame).mp hpending
        rw [State.fill_of_pending hpending, State.fill_of_pending hpending']
        exact Abreast.still ⟨.bounce hb.last, hstack,
          hs.fill hb.frame hpending hframe rfl rfl hs.printed⟩
      · have hpending' := mt (hs.pending_iff hb.frame).mpr hpending
        rw [State.fill_of_not_pending hpending, State.fill_of_not_pending hpending']
        exact abreast_fail _ hstack hs

/-- Both sides put a pending frame in front of the environment, and these are a pair. -/
lemma abreast_letrec {bindings body : Value Unit} {env env' : Env Unit}
    (hbindings : D.Admits ρ env env' bindings) (hbody : D.Admits ρ env env' body)
    (hstack : StacksAkin D ρ below below' stack stack') (hs : D.Meets ρ s s') :
    StillAbreast D ρ below below'
      (nextBinding .none (s.suspend bindings body env).1 stack (s.suspend bindings body env).2)
      (nextBinding .none (s'.suspend bindings body env').1 stack'
        (s'.suspend bindings body env').2) := by
  let ρ' := WithPair ρ s.frames.size s'.frames.size
  have hρ : ∀ n m, ρ n m → ρ' n m := fun _ _ => .inl
  have hinner : ∀ {v}, D.Admits ρ env env' v →
      D.Admits ρ' (⟨(), s.frames.size⟩ :: env) (⟨(), s'.frames.size⟩ :: env') v := by
    intro v hv
    exact ⟨hv.expr.mono hρ, .both (.inr ⟨rfl, rfl⟩) (hv.envs.mono hρ id)⟩
  have hb : (s.suspend bindings body env).1.Akin D ρ' (s'.suspend bindings body env').1 :=
    ⟨rfl, .atom "nil", rfl, rfl, fun e he => hinner (hbindings.of_mem he), hinner hbody,
      .inr ⟨rfl, rfl⟩⟩
  have hs₁ : D.Meets ρ' (s.suspend bindings body env).2 (s'.suspend bindings body env').2 :=
    hs.push .pending rfl rfl hs.printed
  obtain ⟨ρ'', hmore, habreast⟩ := abreast_nextBinding hb (hstack.mono hρ) hs₁
  exact ⟨ρ'', fun n m hnm => hmore n m (hρ n m hnm), habreast⟩

lemma abreast_evaluate {e : Value Unit} {env env' : Env Unit} (he : D.Admits ρ env env' e)
    (hstack : StacksAkin D ρ below below' stack stack') (hs : D.Meets ρ s s') :
    StillAbreast D ρ below below' (evaluate .none .inOrder e env stack s)
      (evaluate .none .inOrder e env' stack' s') := by
  -- what an expression asks for depends on the environment only if it is a name to look up
  by_cases hname : ∃ name, e = .atom name ∧ Name.isInteger name = false
  · obtain ⟨name, rfl, hinteger⟩ := hname
    have hclear : (Value.atom name).Avoids D → ¬ D.names name := fun h hname => h name hname rfl
    have hfound := hs.lookup? he.envs hclear
    unfold evaluate State.lookup
    dsimp only
    rw [hinteger, if_neg Bool.false_ne_true, if_neg Bool.false_ne_true]
    generalize s.lookup? (.atom name) env = found at hfound ⊢
    generalize s'.lookup? (.atom name) env' = found' at hfound ⊢
    cases hfound with
    | some hv => exact Abreast.still ⟨.give hv, hstack, hs⟩
    | none => exact abreast_fail _ hstack hs
  · have hinteger : ∀ name, e = .atom name → Name.isInteger name = true := by
      intro name hatom
      by_contra hnot
      exact hname ⟨name, hatom, Bool.eq_false_iff.mpr hnot⟩
    obtain ⟨hsame, hparts⟩ := Demand.all_ofExpr (fun _ _ h hv => Detour.Admits.of_mem h hv) .none
      (s.lookup .none env) (s'.lookup .none env') he hinteger
    rw [evaluate_eq_pursue, evaluate_eq_pursue, ← hsame]
    generalize Demand.ofExpr .none (s.lookup .none env) e = demand at hparts
    cases demand with
    | done outcome =>
      cases outcome with
      | ok v => exact Abreast.still ⟨.give hparts.expr, hstack, hs⟩
      | error fault => exact abreast_fail fault hstack hs
    | closure tail formals body =>
      exact Abreast.still ⟨.give hparts.closure, hstack, hs⟩
    | operands exprs purpose => exact abreast_nextOperand .nil hparts purpose hstack hs
    | branch condition consequent alternative =>
      exact abreast_enter (.branch hparts.2.1 hparts.2.2) hparts.1 hstack hs
    | second first last => exact abreast_enter (.second hparts.2) hparts.1 hstack hs
    | letrec bindings body => exact abreast_letrec hparts.1 hparts.2 hstack hs

lemma abreast_resume {cont cont' : Cont Unit} (hcont : cont.Akin D ρ cont') {v v' : Value Unit}
    (hv : v.Akin D ρ v') (hstack : StacksAkin D ρ below below' stack stack')
    (hs : D.Meets ρ s s') :
    StillAbreast D ρ below below' (resume .none cont v stack s)
      (resume .none cont' v' stack' s') := by
  cases hcont with
  | operand purpose hvalues hrest =>
    exact abreast_nextOperand (.cons hv hvalues) hrest purpose hstack hs
  | @branch consequent alternative env env' hconsequent halternative =>
    have hchosen : D.Admits ρ env env' (if v.isNil then alternative else consequent) := by
      split
      · exact halternative
      · exact hconsequent
    unfold resume
    rw [← hv.similar.isNil_eq]
    exact Abreast.still ⟨.bounce hchosen, hstack, hs⟩
  | second h => exact Abreast.still ⟨.bounce h, hstack, hs⟩
  | @bind b b' name h =>
    have hb : (b.bind name v b.rest s).1.Akin D ρ (b'.bind name v' b'.rest s').1 :=
      ⟨congrArg (Value.pair () name) h.names, .pair hv h.values, h.rest, h.body, h.exprs, h.last,
        h.frame⟩
    exact abreast_nextBinding hb hstack (hs.of_frames rfl rfl hs.printed)

end Steps

/-- Two runs in lockstep are both done with what both have begun, or stay in lockstep. -/
theorem abreast_step {below below' : List (Cont Unit)} {c c' : Thread Unit × State Unit}
    (h : Abreast D ρ below below' c c') :
    (∃ v v', v.Akin D ρ v' ∧ c.1 = ⟨.give v, below⟩ ∧ c'.1 = ⟨.give v', below'⟩) ∨
      StillAbreast D ρ below below' (step .none .inOrder c.1 c.2)
        (step .none .inOrder c'.1 c'.2) := by
  obtain ⟨⟨control, stack⟩, s⟩ := c
  obtain ⟨⟨control', stack'⟩, s'⟩ := c'
  obtain ⟨hcontrol, hstack, hs⟩ := h
  dsimp only at hcontrol hstack hs
  cases hcontrol with
  | enter he => exact .inr (abreast_evaluate he hstack hs)
  | bounce he => exact .inr (abreast_evaluate he hstack hs)
  | @give v v' hv =>
    cases hstack with
    | bottom => exact .inl ⟨v, v', hv, rfl, rfl⟩
    | cons hcont hbelow => exact .inr (abreast_resume hcont hv hbelow hs)
  | fail fault => exact .inr (abreast_fail fault hstack hs)

/-- Runs in lockstep that nothing waits for end together, with values that print alike. -/
lemma Abreast.outcome_eq {below below' : List (Cont Unit)} {c c' : Thread Unit × State Unit}
    (h : Abreast D ρ below below' c c') (hbelow : below = [] ↔ below' = []) :
    c'.1.outcome?.map (Except.map (Value.print .none)) =
      c.1.outcome?.map (Except.map (Value.print .none)) := by
  obtain ⟨⟨control, stack⟩, s⟩ := c
  obtain ⟨⟨control', stack'⟩, s'⟩ := c'
  obtain ⟨hcontrol, hstack, -⟩ := h
  dsimp only at hcontrol hstack ⊢
  cases hcontrol with
  | enter _ => rfl
  | bounce _ => rfl
  | fail fault => rfl
  | @give v v' hv =>
    cases hstack with
    | cons _ _ => rfl
    | bottom =>
      cases below with
      | nil =>
        rw [hbelow.mp rfl]
        simp only [Thread.outcome?, Option.map_some, Except.map, hv.similar.print_eq .none]
      | cons cont below =>
        cases below' with
        | nil => exact absurd (hbelow.mpr rfl) nofun
        | cons cont' below' => rfl

/-- The run ends, with a value of the printed form or with the fault, and has printed the lines. -/
def Ends (c : Thread Unit × State Unit) (shown : Except Fault (Except Fault String))
    (lines : Array String) : Prop :=
  ∃ fuel outcome s, run fuel c = some (outcome, s) ∧ outcome.map (Value.print .none) = shown ∧
    s.printed = lines

/-- At some moment the run has printed the lines, and nothing else. -/
def Prints (c : Thread Unit × State Unit) (lines : Array String) : Prop :=
  ∃ d, Reaches .none c d ∧ d.2.printed = lines

/-- Runs that end in the same way, if they end, and print the same lines on the way. -/
structure ShowSame (c c' : Thread Unit × State Unit) : Prop where
  ends : ∀ shown lines, Ends c shown lines ↔ Ends c' shown lines
  prints : ∀ lines, Prints c lines ↔ Prints c' lines

lemma ShowSame.symm {c c' : Thread Unit × State Unit} (h : ShowSame c c') : ShowSame c' c :=
  ⟨fun shown lines => (h.ends shown lines).symm, fun lines => (h.prints lines).symm⟩

lemma ShowSame.trans {a b c : Thread Unit × State Unit} (hab : ShowSame a b) (hbc : ShowSame b c) :
    ShowSame a c :=
  ⟨fun shown lines => (hab.ends shown lines).trans (hbc.ends shown lines),
    fun lines => (hab.prints lines).trans (hbc.prints lines)⟩

lemma ShowSame.of_step {c d : Thread Unit × State Unit} (hc : c.1.outcome? = none)
    (hstep : step .none .inOrder c.1 c.2 = d) (hprinted : d.2.printed = c.2.printed) :
    ShowSame c d := by
  refine ⟨fun shown lines => ⟨?_, ?_⟩, fun lines => ⟨?_, ?_⟩⟩
  · rintro ⟨fuel, outcome, s, hrun, hshown⟩
    obtain ⟨m, -, hrest⟩ := exists_run_step hc hrun
    rw [hstep] at hrest
    exact ⟨m, outcome, s, hrest, hshown⟩
  · rintro ⟨fuel, outcome, s, hrun, hshown⟩
    rw [← hstep, ← run_succ fuel hc] at hrun
    exact ⟨fuel + 1, outcome, s, hrun, hshown⟩
  · rintro ⟨last, hreach, hlines⟩
    rcases hreach.cases_head with rfl | ⟨next, hnext, hrest⟩
    · exact ⟨d, .refl, hprinted.trans hlines⟩
    · rw [hstep] at hnext
      cases hnext
      exact ⟨last, hrest, hlines⟩
  · rintro ⟨last, hreach, hlines⟩
    exact ⟨last, .head hstep hreach, hlines⟩

/-- A relation between runs that steps keep and that does not show. -/
structure IsParallel (T : Thread Unit × State Unit → Thread Unit × State Unit → Prop) : Prop where
  step : ∀ {c c'}, T c c' →
    T (Machine.step .none .inOrder c.1 c.2) (Machine.step .none .inOrder c'.1 c'.2)
  outcome : ∀ {c c'}, T c c' → c'.1.outcome?.map (Except.map (Value.print .none)) =
    c.1.outcome?.map (Except.map (Value.print .none))
  printed : ∀ {c c'}, T c c' → c'.2.printed = c.2.printed

namespace IsParallel

variable {T : Thread Unit × State Unit → Thread Unit × State Unit → Prop}
  {c c' : Thread Unit × State Unit}

lemma swap (hT : IsParallel T) : IsParallel fun c c' => T c' c :=
  ⟨fun h => hT.step h, fun h => (hT.outcome h).symm, fun h => (hT.printed h).symm⟩

lemma ends_of_run (hT : IsParallel T) {fuel : Nat} {outcome : Except Fault (Value Unit)}
    {s : State Unit} (hrun : run fuel c = some (outcome, s)) (h : T c c') :
    Ends c' (outcome.map (Value.print .none)) s.printed := by
  induction fuel generalizing c c' with
  | zero => cases hrun
  | succ fuel ih =>
    have hend := hT.outcome h
    cases hc : c.1.outcome? with
    | none =>
      rw [hc] at hend
      have hc' : c'.1.outcome? = none := Option.map_eq_none_iff.mp hend
      rw [run_succ fuel hc] at hrun
      obtain ⟨fuel', outcome', s', hrun', hshown⟩ := ih hrun (hT.step h)
      exact ⟨fuel' + 1, outcome', s', (run_succ fuel' hc').trans hrun', hshown⟩
    | some found =>
      rw [hc] at hend
      obtain ⟨found', hc', hshown⟩ := Option.map_eq_some_iff.mp hend
      rw [run, runUntil, hc] at hrun
      cases hrun
      refine ⟨1, found', c'.2, ?_, hshown, hT.printed h⟩
      rw [run, runUntil, hc']

lemma exists_reaches (hT : IsParallel T) {d : Thread Unit × State Unit}
    (hreach : Reaches .none c d) (h : T c c') : ∃ d', Reaches .none c' d' ∧ T d d' := by
  induction hreach with
  | refl => exact ⟨c', .refl, h⟩
  | tail _ hstep ih =>
    obtain ⟨d', hreach', hd⟩ := ih
    refine ⟨_, hreach'.tail rfl, ?_⟩
    rw [← hstep]
    exact hT.step hd

lemma prints (hT : IsParallel T) {lines : Array String} (hc : Prints c lines) (h : T c c') :
    Prints c' lines := by
  obtain ⟨d, hreach, hlines⟩ := hc
  obtain ⟨d', hreach', hd⟩ := hT.exists_reaches hreach h
  exact ⟨d', hreach', (hT.printed hd).trans hlines⟩

theorem showSame (hT : IsParallel T) (h : T c c') : ShowSame c c' := by
  refine ⟨fun shown lines => ⟨?_, ?_⟩, fun lines => ⟨fun hc => hT.prints hc h, fun hc => ?_⟩⟩
  · rintro ⟨fuel, outcome, s, hrun, rfl, rfl⟩
    exact hT.ends_of_run hrun h
  · rintro ⟨fuel, outcome, s, hrun, rfl, rfl⟩
    exact hT.swap.ends_of_run hrun h
  · exact hT.swap.prints hc h

end IsParallel

/-- Runs in lockstep that nothing waits for go on in parallel. -/
lemma isParallel_abreast : IsParallel fun c c' => ∃ ρ, Abreast D ρ [] [] c c' where
  step := by
    rintro c c' ⟨ρ, h⟩
    rcases abreast_step h with ⟨v, v', -, hc, hc'⟩ | ⟨ρ', -, hnext⟩
    · have hstays : ∀ {d : Thread Unit × State Unit} {w : Value Unit}, d.1 = ⟨.give w, []⟩ →
          Machine.step .none .inOrder d.1 d.2 = d := by
        rintro ⟨_, s⟩ w rfl
        rfl
      rw [hstays hc, hstays hc']
      exact ⟨ρ, h⟩
    · exact ⟨ρ', hnext⟩
  outcome := by
    rintro c c' ⟨ρ, h⟩
    exact h.outcome_eq Iff.rfl
  printed := by
    rintro c c' ⟨ρ, h⟩
    exact h.states.printed

end Machine

end Evlis
