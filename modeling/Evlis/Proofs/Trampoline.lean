import Evlis.Evaluation
import Evlis.Proofs.Reference

/-!
# The machine and the reference semantics

The machine keeps its own stack and bounces on expressions in tail position. It gives an outcome
and a state exactly if the reference semantics derives them.
-/

namespace Evlis

lemma Value.ending_ne_pair {ι : Type} (v : Value ι) (mark : ι) (car cdr : Value ι) :
    v.ending ≠ .pair mark car cdr := by
  induction v with
  | pair _ _ _ _ ih => exact ih
  | _ => nofun

namespace Machine

variable {ι : Type} [DecidableEq ι] [Marking ι]

/-- The outcome of a thread in at most `fuel` steps without limits. -/
def run (fuel : Nat) (c : Thread ι × State ι) : Option (Except Fault (Value ι) × State ι) :=
  runUntil Thread.outcome? .none fuel c.1 c.2

/-- To run from `a` is to run from `b`, some steps later. -/
def Leads (a b : Thread ι × State ι) : Prop :=
  ∃ k, ∀ fuel, run (fuel + k) a = run fuel b

lemma Leads.refl (a : Thread ι × State ι) : Leads a a :=
  ⟨0, fun _ => rfl⟩

lemma Leads.trans {a b c : Thread ι × State ι} (hab : Leads a b) (hbc : Leads b c) :
    Leads a c := by
  obtain ⟨k, hk⟩ := hab
  obtain ⟨l, hl⟩ := hbc
  refine ⟨l + k, fun fuel => ?_⟩
  rw [← Nat.add_assoc, hk, hl]

lemma run_succ (fuel : Nat) {c : Thread ι × State ι} (h : c.1.outcome? = none) :
    run (fuel + 1) c = run fuel (step .none .inOrder c.1 c.2) := by
  unfold run
  rw [runUntil, h]

lemma run_fail (fuel : Nat) (fault : Fault) (stack : List (Cont ι)) (s : State ι) :
    run (fuel + 1) (⟨.fail fault, stack⟩, s) = some (.error fault, s) := rfl

lemma Leads.step {a : Thread ι × State ι} (h : a.1.outcome? = none) :
    Leads a (Machine.step .none .inOrder a.1 a.2) :=
  ⟨1, fun fuel => run_succ fuel h⟩

lemma leads_enter (e : Value ι) (env : Env ι) (stack : List (Cont ι)) (s : State ι) :
    Leads (⟨.enter e env, stack⟩, s) (evaluate .none .inOrder e env stack s) :=
  Leads.step rfl

lemma leads_bounce (e : Value ι) (env : Env ι) (stack : List (Cont ι)) (s : State ι) :
    Leads (⟨.bounce e env, stack⟩, s) (evaluate .none .inOrder e env stack s) :=
  Leads.step rfl

lemma leads_give (v : Value ι) (cont : Cont ι) (stack : List (Cont ι)) (s : State ι) :
    Leads (⟨.give v, cont :: stack⟩, s) (resume .none cont v stack s) :=
  Leads.step rfl

omit [DecidableEq ι] [Marking ι] in
lemma await_none (cont : Cont ι) (e : Value ι) (env : Env ι) (stack : List (Cont ι))
    (s : State ι) : await .none cont e env stack s = (⟨.enter e env, cont :: stack⟩, s) := rfl

/-- How the machine begins with a goal, and how it goes on with the value of it. -/
inductive Plan : Goal ι → State ι → Thread ι × State ι → (Value ι → State ι → Thread ι × State ι) →
    Prop where
  | expr (e : Value ι) (env : Env ι) (stack : List (Cont ι)) (s : State ι) :
      Plan (.expr e env) s (evaluate .none .inOrder e env stack s) (give · stack ·)
  | operands (values : List (Value ι)) (rest : Value ι) (env : Env ι) (purpose : Purpose)
      (stack : List (Cont ι)) (s : State ι) :
      Plan (.operands rest env) s (nextOperand .none values rest env purpose stack s)
        fun list s₁ =>
          finish .none purpose (State.chain values list s₁).1 stack (State.chain values list s₁).2
  | application (call : Value ι) (stack : List (Cont ι)) (s : State ι) :
      Plan (.application call) s (apply .none call stack s) (give · stack ·)
  | bindings (b : Binding ι) (stack : List (Cont ι)) (s : State ι) :
      Plan (.bindings b) s (nextBinding .none b stack s) (give · stack ·)

/-- The machine gets from `c` to what is next after the outcome. -/
def Arrives (c : Thread ι × State ι) (next : Value ι → State ι → Thread ι × State ι)
    (outcome : Except Fault (Value ι)) (s : State ι) : Prop :=
  match outcome with
  | .ok v => Leads c (next v s)
  | .error fault => ∃ stack, Leads c (⟨.fail fault, stack⟩, s)

lemma Arrives.of_leads {a b : Thread ι × State ι}
    {next : Value ι → State ι → Thread ι × State ι} {outcome : Except Fault (Value ι)}
    {s : State ι} (hab : Leads a b) (hb : Arrives b next outcome s) : Arrives a next outcome s := by
  cases outcome with
  | ok v => exact hab.trans hb
  | error fault =>
    obtain ⟨stack, h⟩ := hb
    exact ⟨stack, hab.trans h⟩

lemma Arrives.fault {c : Thread ι × State ι} {next : Value ι → State ι → Thread ι × State ι}
    {fault : Fault} {s : State ι} (h : Arrives c next (.error fault) s)
    (next' : Value ι → State ι → Thread ι × State ι) : Arrives c next' (.error fault) s := h

lemma arrives_fail (fault : Fault) (stack : List (Cont ι)) (s : State ι)
    (next : Value ι → State ι → Thread ι × State ι) :
    Arrives (fail fault stack s) next (.error fault) s :=
  ⟨stack, Leads.refl _⟩

/-- The machine carries a goal out, wherever it begins with it. -/
def Carries (goal : Goal ι) (s : State ι) (outcome : Except Fault (Value ι)) (s' : State ι) : Prop :=
  ∀ {c : Thread ι × State ι} {next : Value ι → State ι → Thread ι × State ι},
    Plan goal s c next → Arrives c next outcome s'

lemma Carries.enter {e v : Value ι} {env : Env ι} {s s₁ : State ι}
    (h : Carries (.expr e env) s (.ok v) s₁) (cont : Cont ι) (stack : List (Cont ι)) :
    Leads (⟨.enter e env, cont :: stack⟩, s) (resume .none cont v stack s₁) := by
  have hv : Leads _ (⟨.give v, cont :: stack⟩, s₁) := h (.expr e env (cont :: stack) s)
  exact (leads_enter ..).trans (hv.trans (leads_give ..))

lemma Carries.enter_fault {e : Value ι} {env : Env ι} {s s₁ : State ι} {fault : Fault}
    (h : Carries (.expr e env) s (.error fault) s₁) (cont : Cont ι) (stack : List (Cont ι))
    (next : Value ι → State ι → Thread ι × State ι) :
    Arrives (⟨.enter e env, cont :: stack⟩, s) next (.error fault) s₁ := by
  obtain ⟨stack', hf⟩ := h (.expr e env (cont :: stack) s)
  exact ⟨stack', (leads_enter ..).trans hf⟩

lemma Carries.bounce {e : Value ι} {env : Env ι} {s s₁ : State ι}
    {outcome : Except Fault (Value ι)} (h : Carries (.expr e env) s outcome s₁)
    (stack : List (Cont ι)) :
    Arrives (⟨.bounce e env, stack⟩, s) (give · stack ·) outcome s₁ :=
  Arrives.of_leads (leads_bounce ..) (h (.expr e env stack s))

omit [DecidableEq ι] in
lemma nextOperand_of_atEnd {tail : Value ι} (atEnd : tail.ending = tail) (values : List (Value ι))
    (env : Env ι) (purpose : Purpose) (stack : List (Cont ι)) (s : State ι) :
    nextOperand .none values tail env purpose stack s =
      if tail.isNil then
        finish .none purpose (State.chain values .nil s).1 stack (State.chain values .nil s).2
      else fail (tail.blame .none .improperTail) stack s := by
  cases tail with
  | pair mark car cdr => exact absurd atEnd (Value.ending_ne_pair _ mark car cdr)
  | _ => rfl

omit [DecidableEq ι] in
lemma apply_of_misfit {call function : Value ι} (found : call.misfit? = some function)
    (stack : List (Cont ι)) (s : State ι) :
    apply .none call stack s = fail (function.blame .none .illegalFunction) stack s := by
  unfold Value.misfit? at found
  unfold apply
  split at found <;> simp_all

/-- The machine makes what the reference semantics derives. -/
theorem carries_of_derives {goal : Goal ι} {s s' : State ι} {outcome : Except Fault (Value ι)}
    (h : Derives goal s outcome s') : Carries goal s outcome s' := by
  induction h with
  | @done e env s outcome demand =>
    rintro _ _ ⟨⟩
    rw [evaluate_eq_pursue, demand]
    cases outcome with
    | ok v => exact Leads.refl _
    | error fault => exact arrives_fail fault _ s _
  | closure demand =>
    rintro _ _ ⟨⟩
    rw [evaluate_eq_pursue, demand]
    exact Leads.refl _
  | branch demand _ _ ihCondition ihChosen =>
    rintro _ _ ⟨⟩
    rw [evaluate_eq_pursue, demand, pursue, await_none]
    exact Arrives.of_leads (ihCondition.enter _ _) (ihChosen.bounce _)
  | branchFault demand _ ihCondition =>
    rintro _ _ ⟨⟩
    rw [evaluate_eq_pursue, demand, pursue, await_none]
    exact ihCondition.enter_fault _ _ _
  | second demand _ _ ihFirst ihLast =>
    rintro _ _ ⟨⟩
    rw [evaluate_eq_pursue, demand, pursue, await_none]
    exact Arrives.of_leads (ihFirst.enter _ _) (ihLast.bounce _)
  | secondFault demand _ ihFirst =>
    rintro _ _ ⟨⟩
    rw [evaluate_eq_pursue, demand, pursue, await_none]
    exact ihFirst.enter_fault _ _ _
  | letrec demand _ ihLoop =>
    rintro _ _ ⟨⟩
    rw [evaluate_eq_pursue, demand]
    exact ihLoop (.bindings _ _ _)
  | collect demand _ ihOperands =>
    rintro _ _ ⟨⟩
    rw [evaluate_eq_pursue, demand]
    exact ihOperands (.operands [] _ _ .collect _ _)
  | call demand _ _ ihOperands ihResult =>
    rintro _ _ ⟨⟩
    rw [evaluate_eq_pursue, demand]
    exact Arrives.of_leads (ihOperands (.operands [] _ _ .call _ _))
      (ihResult (.application _ _ _))
  | callFault demand _ ihOperands =>
    rintro _ _ ⟨⟩
    rw [evaluate_eq_pursue, demand]
    exact Arrives.fault (ihOperands (.operands [] _ _ .call _ _)) _
  | noOperands =>
    rintro _ _ ⟨⟩
    exact Leads.refl _
  | improper atEnd notNil =>
    rintro _ _ ⟨⟩
    rw [nextOperand_of_atEnd atEnd, if_neg (by simp [notNil])]
    exact arrives_fail _ _ _ _
  | operand _ _ ihFirst ihOthers =>
    rintro _ _ ⟨⟩
    exact Arrives.of_leads (ihFirst.enter _ _) (ihOthers (.operands _ _ _ _ _ _))
  | operandFault _ ihFirst =>
    rintro _ _ ⟨⟩
    exact ihFirst.enter_fault _ _ _
  | laterFault _ _ ihFirst ihOthers =>
    rintro _ _ ⟨⟩
    exact Arrives.of_leads (ihFirst.enter _ _)
      (Arrives.fault (ihOthers (.operands _ _ _ _ _ _)) _)
  | @primitive mark name arguments s =>
    rintro _ _ ⟨⟩
    unfold apply
    dsimp only
    rcases Primitive.apply .none name arguments s with ⟨fault | v, s₁⟩
    · exact arrives_fail fault _ s₁ _
    · exact Leads.refl _
  | body extended _ ihResult =>
    rintro _ _ ⟨⟩
    unfold apply
    dsimp only
    rw [extended]
    exact ihResult.bounce _
  | arity extended =>
    rintro _ _ ⟨⟩
    unfold apply
    dsimp only
    rw [extended]
    exact arrives_fail _ _ _ _
  | misfit found =>
    rintro _ _ ⟨⟩
    rw [apply_of_misfit found]
    exact arrives_fail _ _ _ _
  | bind next _ _ ihBound ihOthers =>
    rintro _ _ ⟨⟩
    rw [nextBinding_eq, next]
    exact Arrives.of_leads (ihBound.enter _ _) (ihOthers (.bindings _ _ _))
  | bindFault next _ ihBound =>
    rintro _ _ ⟨⟩
    rw [nextBinding_eq, next]
    exact ihBound.enter_fault _ _ _
  | malformed next =>
    rintro _ _ ⟨⟩
    rw [nextBinding_eq, next]
    exact arrives_fail _ _ _ _
  | fill next filled _ ihBody =>
    rintro _ _ ⟨⟩
    rw [nextBinding_eq, next]
    dsimp only
    rw [filled]
    exact ihBody.bounce _
  | refill next refused =>
    rintro _ _ ⟨⟩
    rw [nextBinding_eq, next]
    dsimp only
    rw [refused]
    exact arrives_fail _ _ _ _

/-- Running on from the start of a goal takes a derivation of it, and then goes on with its value. -/
def Accounts (n : Nat) (goal : Goal ι) (s : State ι)
    (next : Value ι → State ι → Thread ι × State ι) (result : Except Fault (Value ι) × State ι) :
    Prop :=
  (∃ v s₁ m, Derives goal s (.ok v) s₁ ∧ m ≤ n ∧ run m (next v s₁) = some result) ∨
    ∃ fault, Derives goal s (.error fault) result.2 ∧ result.1 = .error fault

def SoundAt (ι : Type) [DecidableEq ι] [Marking ι] (n : Nat) : Prop :=
  ∀ {goal : Goal ι} {s : State ι} {c : Thread ι × State ι}
    {next : Value ι → State ι → Thread ι × State ι} {result : Except Fault (Value ι) × State ι},
    Plan goal s c next → run n c = some result → Accounts n goal s next result

lemma exists_run_step {n : Nat} {c : Thread ι × State ι}
    {result : Except Fault (Value ι) × State ι} (hc : c.1.outcome? = none)
    (h : run n c = some result) :
    ∃ m < n, run m (step .none .inOrder c.1 c.2) = some result := by
  cases n with
  | zero => exact absurd h (by simp [run, runUntil])
  | succ n => exact ⟨n, Nat.lt_succ_self n, by rwa [run_succ n hc] at h⟩

lemma eq_of_run_fail {n : Nat} {fault : Fault} {stack : List (Cont ι)} {s : State ι}
    {result : Except Fault (Value ι) × State ι} (h : run n (fail fault stack s) = some result) :
    result = (.error fault, s) := by
  cases n with
  | zero => exact absurd h (by simp [run, runUntil])
  | succ n =>
    rw [fail, run_fail] at h
    exact (Option.some.inj h).symm

lemma accounts_fail {n : Nat} {goal : Goal ι} {fault : Fault} {stack : List (Cont ι)}
    {s s₁ : State ι} {next : Value ι → State ι → Thread ι × State ι}
    {result : Except Fault (Value ι) × State ι} (hd : Derives goal s (.error fault) s₁)
    (h : run n (fail fault stack s₁) = some result) : Accounts n goal s next result := by
  rw [eq_of_run_fail h]
  exact .inr ⟨fault, hd, rfl⟩

/-- An inner evaluation is derived, and what waits for it goes on or fails with it. -/
lemma sound_enter {n : Nat} (ih : ∀ m < n, SoundAt ι m) {e : Value ι} {env : Env ι}
    {cont : Cont ι} {stack : List (Cont ι)} {s : State ι}
    {result : Except Fault (Value ι) × State ι}
    (h : run n (⟨.enter e env, cont :: stack⟩, s) = some result) :
    (∃ v s₁ m, Derives (.expr e env) s (.ok v) s₁ ∧ m < n ∧
      run m (resume .none cont v stack s₁) = some result) ∨
    ∃ fault, Derives (.expr e env) s (.error fault) result.2 ∧ result.1 = .error fault := by
  obtain ⟨m, hm, hrun⟩ := exists_run_step rfl h
  rcases ih m hm (.expr e env (cont :: stack) s) hrun with ⟨v, s₁, k, hd, hk, hgive⟩ | hfault
  · obtain ⟨j, hj, hresume⟩ := exists_run_step rfl hgive
    exact .inl ⟨v, s₁, j, hd, by omega, hresume⟩
  · exact .inr hfault

lemma sound_bounce {n : Nat} (ih : ∀ m < n, SoundAt ι m) {e : Value ι} {env : Env ι}
    {stack : List (Cont ι)} {s : State ι} {result : Except Fault (Value ι) × State ι}
    (h : run n (⟨.bounce e env, stack⟩, s) = some result) :
    Accounts n (.expr e env) s (give · stack ·) result := by
  obtain ⟨m, hm, hrun⟩ := exists_run_step rfl h
  rcases ih m hm (.expr e env stack s) hrun with ⟨v, s₁, k, hd, hk, hgive⟩ | hfault
  · exact .inl ⟨v, s₁, k, hd, by omega, hgive⟩
  · exact .inr hfault

/-- What is derived for a goal by way of another that ends it. -/
lemma Accounts.imp {n m : Nat} {goal goal' : Goal ι} {s s' : State ι}
    {next : Value ι → State ι → Thread ι × State ι} {result : Except Fault (Value ι) × State ι}
    (h : Accounts m goal' s' next result) (hm : m ≤ n)
    (hd : ∀ outcome s₁, Derives goal' s' outcome s₁ → Derives goal s outcome s₁) :
    Accounts n goal s next result := by
  rcases h with ⟨v, s₁, k, hv, hk, hrun⟩ | ⟨fault, hf, he⟩
  · exact .inl ⟨v, s₁, k, hd _ _ hv, by omega, hrun⟩
  · exact .inr ⟨fault, hd _ _ hf, he⟩

lemma sound_application {n : Nat} (ih : ∀ m < n, SoundAt ι m) (call : Value ι)
    (stack : List (Cont ι)) (s : State ι) {result : Except Fault (Value ι) × State ι}
    (h : run n (apply .none call stack s) = some result) :
    Accounts n (.application call) s (give · stack ·) result := by
  cases hm : call.misfit? with
  | some function =>
    rw [apply_of_misfit hm] at h
    exact accounts_fail (.misfit hm) h
  | none =>
    obtain ⟨mark, function, arguments, rfl⟩ : ∃ mark function arguments,
        call = .pair mark function arguments := by
      cases call with
      | pair mark function arguments => exact ⟨_, _, _, rfl⟩
      | _ => simp [Value.misfit?] at hm
    cases function with
    | atom name =>
      have hp := @Derives.primitive ι _ _ mark name arguments s
      unfold apply at h
      dsimp only at h
      revert hp h
      rcases Primitive.apply .none name arguments s with ⟨fault | v, s₁⟩
      · intro h hp
        exact accounts_fail hp h
      · intro h hp
        exact .inl ⟨v, s₁, n, hp, Nat.le_refl n, h⟩
    | closure mark' lambda formals body env =>
      unfold apply at h
      dsimp only at h
      split at h
      · rename_i inner s₁ hext
        exact (sound_bounce ih h).imp (Nat.le_refl n) fun _ _ hb => .body hext hb
      · rename_i fault s₁ hext
        exact accounts_fail (.arity hext) h
    | _ => simp [Value.misfit?] at hm

lemma sound_operands {n : Nat} (ih : ∀ m < n, SoundAt ι m) (values : List (Value ι))
    (rest : Value ι) (env : Env ι) (purpose : Purpose) (stack : List (Cont ι)) (s : State ι)
    {result : Except Fault (Value ι) × State ι}
    (h : run n (nextOperand .none values rest env purpose stack s) = some result) :
    Accounts n (.operands rest env) s
      (fun list s₁ => finish .none purpose (State.chain values list s₁).1 stack
        (State.chain values list s₁).2) result := by
  have hatEnd : ∀ tail : Value ι, tail.ending = tail →
      run n (nextOperand .none values tail env purpose stack s) = some result →
      Accounts n (.operands tail env) s (fun list s₁ => finish .none purpose
        (State.chain values list s₁).1 stack (State.chain values list s₁).2) result := by
    intro tail atEnd h
    rw [nextOperand_of_atEnd atEnd] at h
    by_cases hnil : tail.isNil = true
    · rw [if_pos hnil] at h
      have : tail = .nil := by
        cases tail with
        | atom name => simpa [Value.isNil, Value.nil] using hnil
        | _ => simp [Value.isNil] at hnil
      subst this
      exact .inl ⟨.nil, s, n, .noOperands, Nat.le_refl n, h⟩
    · rw [if_neg hnil] at h
      exact accounts_fail (.improper atEnd (by simpa using hnil)) h
  cases rest with
  | pair mark e rest =>
    rcases sound_enter ih h with ⟨v, s₁, m, hv, hm, hrun⟩ | ⟨fault, hf, he⟩
    · rcases ih m hm (.operands (v :: values) rest env purpose stack s₁) hrun with
        ⟨list, s₂, k, hl, hk, hnext⟩ | ⟨fault, hf, he⟩
      · exact .inl ⟨_, _, k, .operand hv hl, by omega, hnext⟩
      · exact .inr ⟨fault, .laterFault hv hf, he⟩
    · exact .inr ⟨fault, .operandFault hf, he⟩
  | _ => exact hatEnd _ rfl h

lemma sound_bindings {n : Nat} (ih : ∀ m < n, SoundAt ι m) (b : Binding ι)
    (stack : List (Cont ι)) (s : State ι) {result : Except Fault (Value ι) × State ι}
    (h : run n (nextBinding .none b stack s) = some result) :
    Accounts n (.bindings b) s (give · stack ·) result := by
  rw [nextBinding_eq] at h
  split at h
  · rename_i fault hnext
    exact accounts_fail (.malformed hnext) h
  · rename_i name e rest hnext
    rcases sound_enter ih h with ⟨v, s₁, m, hv, hm, hrun⟩ | ⟨fault, hf, he⟩
    · exact (ih m hm (.bindings (b.bind name v rest s₁).1 stack (b.bind name v rest s₁).2)
        hrun).imp (by omega) fun _ _ ho => .bind hnext hv ho
    · exact .inr ⟨fault, .bindFault hnext hf, he⟩
  · rename_i hnext
    split at h
    · rename_i fault hfill
      exact accounts_fail (.refill hnext hfill) h
    · rename_i s₁ hfill
      exact (sound_bounce ih h).imp (Nat.le_refl n) fun _ _ hb => .fill hnext hfill hb

lemma sound_expr {n : Nat} (ih : ∀ m < n, SoundAt ι m) (e : Value ι) (env : Env ι)
    (stack : List (Cont ι)) (s : State ι) {result : Except Fault (Value ι) × State ι}
    (h : run n (evaluate .none .inOrder e env stack s) = some result) :
    Accounts n (.expr e env) s (give · stack ·) result := by
  rw [evaluate_eq_pursue] at h
  cases hd : Demand.ofExpr .none (s.lookup .none env) e with
  | done outcome =>
    rw [hd] at h
    cases outcome with
    | ok v => exact .inl ⟨v, s, n, .done hd, Nat.le_refl n, h⟩
    | error fault => exact accounts_fail (.done hd) h
  | closure tail formals body =>
    rw [hd] at h
    exact .inl ⟨_, _, n, .closure hd, Nat.le_refl n, h⟩
  | operands exprs purpose =>
    rw [hd] at h
    have ho := sound_operands ih [] exprs env purpose stack s h
    cases purpose with
    | collect => exact ho.imp (Nat.le_refl n) fun _ _ hl => .collect hd hl
    | call =>
      rcases ho with ⟨list, s₁, m, hl, hm, hrun⟩ | ⟨fault, hf, he⟩
      · have ha := sound_application (fun k hk => ih k (by omega)) list stack s₁ hrun
        exact ha.imp hm fun _ _ hr => .call hd hl hr
      · exact .inr ⟨fault, .callFault hd hf, he⟩
  | branch c a b =>
    rw [hd, pursue, await_none] at h
    rcases sound_enter ih h with ⟨v, s₁, m, hv, hm, hrun⟩ | ⟨fault, hf, he⟩
    · have hb := sound_bounce (fun k hk => ih k (by omega)) hrun
      exact hb.imp (by omega) fun _ _ ho => .branch hd hv ho
    · exact .inr ⟨fault, .branchFault hd hf, he⟩
  | second a b =>
    rw [hd, pursue, await_none] at h
    rcases sound_enter ih h with ⟨v, s₁, m, hv, hm, hrun⟩ | ⟨fault, hf, he⟩
    · have hb := sound_bounce (fun k hk => ih k (by omega)) hrun
      exact hb.imp (by omega) fun _ _ ho => .second hd hv ho
    · exact .inr ⟨fault, .secondFault hd hf, he⟩
  | letrec bs body =>
    rw [hd] at h
    exact (sound_bindings ih _ stack _ h).imp (Nat.le_refl n) fun _ _ ho => .letrec hd ho

/-- Every run of the machine follows a derivation. -/
theorem sound (n : Nat) : SoundAt ι n := by
  induction n using Nat.strongRecOn with
  | _ n ih =>
    rintro _ _ _ _ result ⟨⟩ h
    · exact sound_expr ih _ _ _ _ h
    · exact sound_operands ih _ _ _ _ _ _ h
    · exact sound_application ih _ _ _ h
    · exact sound_bindings ih _ _ _ h

lemma exists_run_iff_derives (e : Value ι) (env : Env ι) (s s' : State ι)
    (outcome : Except Fault (Value ι)) :
    (∃ fuel, run fuel (Thread.start e env, s) = some (outcome, s')) ↔
      Derives (.expr e env) s outcome s' := by
  constructor
  · rintro ⟨fuel, h⟩
    obtain ⟨m, -, hrun⟩ := exists_run_step rfl h
    rcases sound m (.expr e env [] s) hrun with ⟨v, s₁, k, hd, -, hgive⟩ | ⟨fault, hf, he⟩
    · cases k with
      | zero => exact absurd hgive (by simp [run, runUntil])
      | succ k =>
        cases hgive
        exact hd
    · cases he
      exact hf
  · intro h
    have ha := carries_of_derives h (.expr e env [] s)
    cases outcome with
    | ok v =>
      obtain ⟨k, hk⟩ := (leads_enter e env [] s).trans ha
      exact ⟨1 + k, hk 1⟩
    | error fault =>
      obtain ⟨stack, hf⟩ := ha
      obtain ⟨k, hk⟩ := (leads_enter e env [] s).trans hf
      exact ⟨1 + k, hk 1⟩

lemma exists_plan (goal : Goal ι) (s : State ι) : ∃ c, Plan goal s c (give · [] ·) := by
  cases goal with
  | expr e env => exact ⟨_, .expr e env [] s⟩
  | operands rest env => exact ⟨_, .operands [] rest env .collect [] s⟩
  | application call => exact ⟨_, .application call [] s⟩
  | bindings b => exact ⟨_, .bindings b [] s⟩

lemma Arrives.exists_run {c : Thread ι × State ι} {outcome : Except Fault (Value ι)}
    {s : State ι} (h : Arrives c (give · [] ·) outcome s) :
    ∃ k, ∀ fuel, run (fuel + 1 + k) c = some (outcome, s) := by
  cases outcome with
  | ok v =>
    obtain ⟨k, hk⟩ := h
    exact ⟨k, fun fuel => hk (fuel + 1)⟩
  | error fault =>
    obtain ⟨stack, k, hk⟩ := h
    exact ⟨k, fun fuel => hk (fuel + 1)⟩

end Machine

/-- A goal has at most one outcome. -/
theorem Derives.unique {ι : Type} [DecidableEq ι] [Marking ι] {goal : Goal ι} {s s₁ s₂ : State ι}
    {o₁ o₂ : Except Fault (Value ι)} (h₁ : Derives goal s o₁ s₁) (h₂ : Derives goal s o₂ s₂) :
    o₁ = o₂ ∧ s₁ = s₂ := by
  obtain ⟨c, plan⟩ := Machine.exists_plan goal s
  obtain ⟨k, hk⟩ := (Machine.carries_of_derives h₁ plan).exists_run
  obtain ⟨l, hl⟩ := (Machine.carries_of_derives h₂ plan).exists_run
  have hrun := hk l
  rw [show l + 1 + k = k + 1 + l by omega, hl k] at hrun
  cases hrun
  exact ⟨rfl, rfl⟩

lemma evaluate_inOrder_iff_run {ι : Type} [DecidableEq ι] [Marking ι] (fuel : Nat) (e : Value ι)
    (env : Env ι) (s s' : State ι) (outcome : Except Fault (Value ι)) :
    Evaluation.evaluate fuel .none .inOrder e env s = some (outcome, .inOrder, s') ↔
      Machine.run fuel (Thread.start e env, s) = some (outcome, s') := by
  unfold Evaluation.evaluate Evaluation.execute Machine.run
  dsimp only
  cases Machine.runUntil Thread.outcome? .none fuel (Thread.start e env) s with
  | none => simp
  | some result => simp [Prod.ext_iff]

/-- Evaluating in order and without limits gives an outcome and a state exactly if the reference
semantics derives them, be the outcome a value or a fault. -/
theorem evaluate_iff_derives {ι : Type} [DecidableEq ι] [Marking ι] (e : Value ι) (env : Env ι)
    (s s' : State ι) (outcome : Except Fault (Value ι)) :
    (∃ fuel, Evaluation.evaluate fuel .none .inOrder e env s = some (outcome, .inOrder, s')) ↔
      Derives (.expr e env) s outcome s' := by
  rw [← Machine.exists_run_iff_derives]
  apply exists_congr
  intro fuel
  exact evaluate_inOrder_iff_run fuel e env s s' outcome

end Evlis
