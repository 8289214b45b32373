import Evlis.Proofs.Replay

/-!
# Replaying faults in order

A fault of an operand that was found early may be another one than evaluation in order comes to. If
no fault is found early, then the operands in front of the one at fault have values in hindsight;
evaluation in order gets past them and comes to the same fault.
-/

namespace Evlis

/-- From every state that mirrors the view, evaluation in order comes to the fault. -/
def ReplaysFault (V : View) (goal : Goal Unit) (fault : Fault) : Prop :=
  ∀ ρ s goal', Mirrors ρ (V.mask goal.hidden) s → goal.Matches ρ goal' →
    ∃ s', Derives goal' s (.error fault) s'

namespace ReplaysFault

variable {V : View} {goal : Goal Unit} {fault : Fault}

/-- The fault comes after a value. -/
lemma sequence {first : Goal Unit} {next : Value Unit → Goal Unit} {w : Value Unit}
    {lines : Multiset String} (hsplits : Splits V goal first next)
    (hfirst : Replays (V.mask goal.hidden) first (.ok (w, lines)))
    (hnext : ReplaysFault V (next w) fault) : ReplaysFault V goal fault := by
  intro ρ s goal' hmirrors hmatches
  obtain ⟨first', next', hfirst', hnext', hiff⟩ := hsplits.matched ρ s goal' hmirrors hmatches
  have hopen : Mirrors ρ ((V.mask goal.hidden).mask first.hidden) s := by
    rwa [hsplits.opens, View.mask_nil]
  obtain ⟨-, ρ₁, v₁, s₁, hd₁, r₁⟩ := hfirst ρ s first' hopen hfirst'
  have hmirrors₁ : Mirrors ρ₁ (V.mask (next w).hidden) s₁ := by
    rw [hsplits.hides]
    exact r₁.mirrors
  obtain ⟨s', hd₂⟩ := hnext ρ₁ s₁ (next' v₁) hmirrors₁ (hnext' ρ₁ w v₁ r₁.le r₁.value).1
  exact ⟨s', (hiff _ s').mpr (.inl ⟨v₁, s₁, hd₁, hd₂⟩)⟩

lemma stuck {first : Goal Unit} {next : Value Unit → Goal Unit} (hsplits : Splits V goal first next)
    (hfirst : ReplaysFault (V.mask goal.hidden) first fault) : ReplaysFault V goal fault := by
  intro ρ s goal' hmirrors hmatches
  obtain ⟨first', next', hfirst', -, hiff⟩ := hsplits.matched ρ s goal' hmirrors hmatches
  have hopen : Mirrors ρ ((V.mask goal.hidden).mask first.hidden) s := by
    rwa [hsplits.opens, View.mask_nil]
  obtain ⟨s', hd⟩ := hfirst ρ s first' hopen hfirst'
  exact ⟨s', (hiff _ s').mpr (.inr ⟨fault, rfl, hd⟩)⟩

lemma instead {next : Goal Unit} (hreduces : Reduces V goal next)
    (hnext : ReplaysFault V next fault) : ReplaysFault V goal fault := by
  intro ρ s goal' hmirrors hmatches
  obtain ⟨ρ₁, s₁, next', hmirrors₁, hmatches₁, hiff, -⟩ := hreduces ρ s goal' hmirrors hmatches
  obtain ⟨s', hd⟩ := hnext ρ₁ s₁ next' hmirrors₁ hmatches₁
  exact ⟨s', (hiff _ s').mpr hd⟩

section Rules

variable {e : Value Unit} {env : Env Unit}

lemma done (demand : Demand.ofExpr .none (V.lookup env) e = .done (.error fault)) :
    ReplaysFault V (.expr e env) fault := by
  intro ρ s goal' hmirrors hmatches
  obtain ⟨-, e', env', demand', rfl, -, hd, hdemand⟩ := hmirrors.matched hmatches demand
  cases hdemand with
  | done h =>
    cases h
    exact ⟨s, .done hd⟩

lemma improper {tail : Value Unit} (atEnd : tail.ending = tail) (notNil : tail.isNil = false) :
    ReplaysFault V (.operands tail env) (tail.blame .none .improperTail) := by
  intro ρ s goal' _ hmatches
  cases hmatches with
  | @operands _ tail' _ env' htail henv =>
    have atEnd' : tail'.ending = tail' := by
      cases htail with
      | pair => exact absurd atEnd (Value.ending_ne_pair _ _ _ _)
      | _ => rfl
    rw [htail.isNil_eq] at notNil
    rw [htail.blame_eq]
    exact ⟨s, .improper atEnd' notNil⟩

lemma operandFault {rest : Value Unit} (hfirst : ReplaysFault V (.expr e env) fault) :
    ReplaysFault V (.operands (.pair () e rest) env) fault := by
  intro ρ s goal' hmirrors hmatches
  cases hmatches with
  | @operands _ _ _ env' hexprs henv =>
    cases hexprs with
    | @pair _ _ _ _ e' rest' he hrest =>
      obtain ⟨s', hd⟩ := hfirst ρ s (.expr e' env') hmirrors (.expr he henv)
      exact ⟨s', .operandFault hd⟩

lemma laterFault {rest w : Value Unit} {lines : Multiset String}
    (hfirst : Replays V (.expr e env) (.ok (w, lines)))
    (hothers : ReplaysFault V (.operands rest env) fault) :
    ReplaysFault V (.operands (.pair () e rest) env) fault := by
  intro ρ s goal' hmirrors hmatches
  cases hmatches with
  | @operands _ _ _ env' hexprs henv =>
    cases hexprs with
    | @pair _ _ _ _ e' rest' he hrest =>
      obtain ⟨-, ρ₁, v₁, s₁, hd₁, r₁⟩ := hfirst ρ s (.expr e' env') hmirrors (.expr he henv)
      have hmirrors₁ : Mirrors ρ₁ (V.mask (Goal.operands rest env).hidden) s₁ := by
        rw [Goal.hidden, View.mask_nil]
        exact r₁.mirrors
      obtain ⟨s', hd₂⟩ := hothers ρ₁ s₁ (.operands rest' env') hmirrors₁
        (.operands (hrest.mono (Linked.mono r₁.le)) (henv.mono r₁.le))
      exact ⟨s', .laterFault hd₁ hd₂⟩

lemma primitive {name : String} {arguments : Value Unit} {s₀ : State Unit}
    (hfails : (Primitive.apply .none name arguments s₀).1 = .error fault) :
    ReplaysFault V (.application (.pair () (.atom name) arguments)) fault := by
  intro ρ s goal' _ hmatches
  cases hmatches with
  | application hcall =>
    cases hcall with
    | @pair _ _ _ _ _ arguments' hname harguments =>
      cases hname
      have hd : Derives (.application (.pair () (.atom name) arguments')) s _ _ := .primitive
      have hlike := (Primitive.apply_similar .none name harguments s₀ s).1
      rw [hfails] at hlike
      generalize Primitive.apply .none name arguments' s = r at hd hlike
      obtain ⟨outcome, s'⟩ := r
      cases hlike
      exact ⟨s', hd⟩

lemma arity {lambda formals body arguments : Value Unit}
    (misfits : formals.length ≠ arguments.length) :
    ReplaysFault V (.application (.pair () (.closure () lambda formals body env) arguments))
      ((Value.closure () lambda formals body env).blame .none
        (.closureArity formals.length arguments.length)) := by
  intro ρ s goal' _ hmatches
  cases hmatches with
  | application hcall =>
    cases hcall with
    | @pair _ _ _ _ _ arguments' hclosure harguments =>
      rw [hclosure.blame_eq]
      cases hclosure with
      | closure hlambda hformals hbody henv =>
        rw [hformals.length_eq, harguments.length_eq] at misfits ⊢
        refine ⟨s, .arity ?_⟩
        rw [Machine.extendEnv, if_neg misfits]

lemma misfit {list function : Value Unit} (found : list.misfit? = some function) :
    ReplaysFault V (.application list) (function.blame .none .illegalFunction) := by
  intro ρ s goal' _ hmatches
  cases hmatches with
  | application hcall =>
    have hmisfit := hcall.misfit?
    rw [found] at hmisfit
    generalize found' : Value.misfit? _ = misfit' at hmisfit
    cases hmisfit with
    | some hfunction =>
      rw [hfunction.blame_eq]
      exact ⟨s, .misfit found'⟩

lemma malformed {b : Binding Unit} (next : b.next .none = .error fault) :
    ReplaysFault V (.bindings b) fault := by
  intro ρ s goal' _ hmatches
  obtain ⟨b', rfl, hn⟩ := hmatches.next_error next
  exact ⟨s, .malformed hn⟩

end Rules

end ReplaysFault

lemma Outcome.error_of_after {o : Outcome} {lines : Multiset String} {fault : Fault}
    (h : .error fault = o.after lines) : .error fault = o := by
  rcases o with fault' | ⟨v, more⟩
  · exact h
  · cases h

/-- Evaluation in order comes to the fault that is known in hindsight, if it was not found early. -/
theorem replaysFault_of_settles {V : View} {goal : Goal Unit} {fault : Fault}
    (h : Settles False V goal (.error fault)) : ReplaysFault V goal fault := by
  generalize ho : Except.error fault = o at h
  induction h with
  | @done V e env outcome demand =>
    cases outcome with
    | error fault' =>
      cases ho
      exact .done demand
    | ok v => cases ho
  | @branch V _ _ _ _ _ _ _ _ demand condition _ _ chosen =>
    have hcondition := replays_of_settles condition
    rw [← V.mask_nil] at hcondition
    exact .sequence (splits_branch demand) hcondition (chosen (Outcome.error_of_after ho))
  | @branchFault V _ _ _ _ _ _ demand _ condition =>
    cases ho
    have hcondition := condition rfl
    rw [← V.mask_nil] at hcondition
    exact .stuck (splits_branch demand) hcondition
  | @second V _ _ _ _ _ _ _ demand first _ _ last =>
    have hfirst := replays_of_settles first
    rw [← V.mask_nil] at hfirst
    exact .sequence (splits_second demand) hfirst (last (Outcome.error_of_after ho))
  | @secondFault V _ _ _ _ _ demand _ first =>
    cases ho
    have hfirst := first rfl
    rw [← V.mask_nil] at hfirst
    exact .stuck (splits_second demand) hfirst
  | letrec demand apart _ loop => exact .instead (reduces_letrec demand apart) (loop ho)
  | collect demand _ operands => exact .instead (reduces_collect demand) (operands ho)
  | @call V _ _ _ _ _ _ demand operands _ _ result =>
    have hoperands := replays_of_settles operands
    rw [← V.mask_nil] at hoperands
    exact .sequence (splits_call demand) hoperands (result (Outcome.error_of_after ho))
  | @callFault V _ _ _ _ demand _ operands =>
    cases ho
    have hoperands := operands rfl
    rw [← V.mask_nil] at hoperands
    exact .stuck (splits_call demand) hoperands
  | improper atEnd notNil =>
    cases ho
    exact .improper atEnd notNil
  | operandFault _ first => exact .operandFault (first ho)
  | laterFault first _ _ others => exact .laterFault (replays_of_settles first) (others ho)
  | skip allowed => exact allowed.elim
  | @primitive V name arguments s lines printed =>
    cases houtcome : (Primitive.apply .none name arguments s).1 with
    | error fault' =>
      rw [houtcome] at ho
      cases ho
      exact .primitive houtcome
    | ok v =>
      rw [houtcome] at ho
      cases ho
  | body fits filled _ result => exact .instead (reduces_body fits filled) (result ho)
  | arity misfits =>
    cases ho
    exact .arity misfits
  | misfit found =>
    cases ho
    exact .misfit found
  | bind next bound _ _ others =>
    exact .sequence (splits_bind next) (replays_of_settles bound)
      (others (Outcome.error_of_after ho))
  | bindFault next _ bound => exact .stuck (splits_bind next) (bound ho)
  | malformed next =>
    cases ho
    exact .malformed next
  | fill next filled _ body => exact .instead (reduces_fill next filled) (body ho)
  | closure | noOperands | operand => cases ho

end Evlis
