import Evlis.Proofs.ClosureCalls
import Evlis.Proofs.IndependentBindings
import Evlis.Proofs.InnerRuns

/-!
# Lists and nested calls of `cons`

`(list e1 ... en)` puts the values of its operands together when it has them all. Nested calls of
`cons` look `cons` up in front of every operand, and put the values together one call after the
other. The operands are evaluated in the same states all the same, and what differs in between
leaves the state as it is. Main statement: `list_agrees_with_nested_cons`.
-/

namespace Evlis

namespace Machine

section Echoes

variable {ι : Type} [DecidableEq ι] [Marking ι] {a b c d : Thread ι × State ι}
  {base base' : List (Cont ι)}

/-- The second run comes through all the states that the first one comes through, and to its
outcome. -/
def Echoes (a b : Thread ι × State ι) : Prop :=
  ∀ c, Reaches .none a c → ∃ d, Reaches .none b d ∧ d.2 = c.2 ∧
    ∀ outcome, c.1.outcome? = some outcome → d.1.outcome? = some outcome

/-- Runs that come through the same states, and to the same outcome. -/
structure SameCourse (a b : Thread ι × State ι) : Prop where
  forth : Echoes a b
  back : Echoes b a

lemma Echoes.trans (hab : Echoes a b) (hbc : Echoes b c) : Echoes a c := by
  intro x hx
  obtain ⟨y, hy, hstate, houtcome⟩ := hab x hx
  obtain ⟨z, hz, hstate', houtcome'⟩ := hbc y hy
  exact ⟨z, hz, hstate'.trans hstate, fun outcome h => houtcome' outcome (houtcome outcome h)⟩

namespace SameCourse

lemma refl (a : Thread ι × State ι) : SameCourse a a :=
  ⟨fun c hc => ⟨c, hc, rfl, fun _ => id⟩, fun c hc => ⟨c, hc, rfl, fun _ => id⟩⟩

lemma symm (h : SameCourse a b) : SameCourse b a := ⟨h.back, h.forth⟩

lemma trans (hab : SameCourse a b) (hbc : SameCourse b c) : SameCourse a c :=
  ⟨hab.forth.trans hbc.forth, hbc.back.trans hab.back⟩

lemma of_step (unfinished : a.1.outcome? = none) (hstep : step .none .inOrder a.1 a.2 = b)
    (hstate : b.2 = a.2) : SameCourse a b := by
  refine ⟨fun c hc => ?_, fun c hc => ⟨c, .head hstep hc, rfl, fun _ => id⟩⟩
  rcases hc.cases_head with rfl | ⟨next, hnext, hrest⟩
  · refine ⟨b, .refl, hstate, ?_⟩
    rw [unfinished]
    exact nofun
  · rw [hstep] at hnext
    cases hnext
    exact ⟨c, hrest, rfl, fun _ => id⟩

end SameCourse

lemma step_of_outcome {outcome : Except Fault (Value ι)} (h : c.1.outcome? = some outcome) :
    step .none .inOrder c.1 c.2 = c := by
  cases outcome with
  | ok v =>
    obtain ⟨thread, s⟩ := c
    obtain rfl : thread = ⟨.give v, []⟩ := Thread.of_outcome_ok h
    rfl
  | error fault => exact step_of_fail .none .inOrder (Thread.of_outcome_error h) c.2

lemma exists_run_iff {outcome : Except Fault (Value ι)} {s : State ι} :
    (∃ fuel, run fuel c = some (outcome, s)) ↔
      ∃ thread, Reaches .none c (thread, s) ∧ thread.outcome? = some outcome := by
  constructor
  · rintro ⟨fuel, hrun⟩
    exact reaches_of_runUntil hrun
  · rintro ⟨thread, hreach, hended⟩
    induction hreach using Relation.ReflTransGen.head_induction_on with
    | refl =>
      refine ⟨1, ?_⟩
      rw [run, runUntil, hended]
    | @head c next hstep _ ih =>
      obtain ⟨fuel, hrun⟩ := ih
      cases hc : c.1.outcome? with
      | none =>
        refine ⟨fuel + 1, ?_⟩
        rwa [run_succ fuel hc, hstep]
      | some found =>
        rw [step_of_outcome hc] at hstep
        exact ⟨fuel, hstep ▸ hrun⟩

lemma Echoes.exists_run (h : Echoes a b) {outcome : Except Fault (Value ι)} {s : State ι}
    (hrun : ∃ fuel, run fuel a = some (outcome, s)) : ∃ fuel, run fuel b = some (outcome, s) := by
  rw [exists_run_iff] at hrun ⊢
  obtain ⟨thread, hreach, hended⟩ := hrun
  obtain ⟨⟨thread', _⟩, hreach', rfl, houtcome⟩ := h _ hreach
  exact ⟨thread', hreach', houtcome outcome hended⟩

lemma Echoes.prints {a b : Thread Unit × State Unit} (h : Echoes a b) {lines : Array String}
    (hprints : Prints a lines) : Prints b lines := by
  obtain ⟨c, hreach, rfl⟩ := hprints
  obtain ⟨d, hreach', hstate, -⟩ := h c hreach
  exact ⟨d, hreach', congrArg State.printed hstate⟩

/-- What a run comes to on its own, it comes to above other evaluations. -/
lemma Reaches.above (h : Reaches .none c d) (base : List (Cont ι)) :
    Reaches .none (above base c) (above base d) := by
  induction h with
  | refl => exact .refl
  | @tail next d _ hstep ih =>
    cases hnext : next.1.outcome? with
    | none =>
      refine ih.tail ?_
      rw [← hstep]
      exact step_above (underlies_none base) next.2 .inOrder hnext
    | some outcome =>
      rw [step_of_outcome hnext] at hstep
      exact hstep ▸ ih

/-- A run above other evaluations has not come down to them, or has come down with a value. -/
lemma reaches_above (h : Reaches .none (Machine.above base c) d) :
    (∃ inner, Reaches .none c inner ∧ d = Machine.above base inner) ∨
      ∃ v s, Reaches .none c (⟨.give v, []⟩, s) ∧ Reaches .none (⟨.give v, base⟩, s) d := by
  induction h with
  | refl => exact .inl ⟨c, .refl, rfl⟩
  | @tail next d _ hstep ih =>
    rcases ih with ⟨⟨thread, s⟩, hinner, rfl⟩ | ⟨v, s, hv, hrest⟩
    · cases hended : thread.outcome? with
      | none =>
        refine .inl ⟨_, hinner.tail rfl, ?_⟩
        rw [← hstep]
        exact step_above (underlies_none base) s .inOrder hended
      | some outcome =>
        cases outcome with
        | ok v =>
          obtain rfl : thread = ⟨.give v, []⟩ := Thread.of_outcome_ok hended
          exact .inr ⟨v, s, hinner, .single hstep⟩
        | error fault =>
          obtain ⟨control, stack⟩ := thread
          obtain rfl : control = .fail fault := Thread.of_outcome_error hended
          exact .inl ⟨_, hinner, hstep.symm⟩
    · exact .inr ⟨v, s, hv, hrest.tail hstep⟩

/-- What is evaluated is the same, and so is what becomes of its value. -/
lemma Echoes.above (h : ∀ v s, Reaches .none c (⟨.give v, []⟩, s) →
    Echoes (⟨.give v, base⟩, s) (⟨.give v, base'⟩, s)) :
    Echoes (Machine.above base c) (Machine.above base' c) := by
  have hdown : ∀ {v : Value ι} {s : State ι}, Reaches .none c (⟨.give v, []⟩, s) →
      ∀ {d}, Reaches .none (⟨.give v, base⟩, s) d →
      ∃ d', Reaches .none (Machine.above base' c) d' ∧ d'.2 = d.2 ∧
        ∀ outcome, d.1.outcome? = some outcome → d'.1.outcome? = some outcome := by
    intro v s hv d hd
    obtain ⟨d', hd', hsame⟩ := h v s hv d hd
    exact ⟨d', (hv.above base').trans hd', hsame⟩
  intro d hd
  rcases reaches_above hd with ⟨⟨⟨control, stack⟩, s⟩, hinner, rfl⟩ | ⟨v, s, hv, hrest⟩
  · by_cases hgives : ∃ v, control = .give v ∧ stack = []
    · obtain ⟨v, rfl, rfl⟩ := hgives
      exact hdown hinner .refl
    · refine ⟨_, hinner.above base', rfl, ?_⟩
      intro outcome hended
      cases control with
      | fail fault => exact hended
      | give v =>
        cases stack with
        | nil => exact absurd ⟨v, rfl, rfl⟩ hgives
        | cons cont stack => cases hended
      | _ => cases hended
  · exact hdown hv hrest

lemma SameCourse.above (h : ∀ v s, Reaches .none c (⟨.give v, []⟩, s) →
    SameCourse (⟨.give v, base⟩, s) (⟨.give v, base'⟩, s)) :
    SameCourse (Machine.above base c) (Machine.above base' c) :=
  ⟨.above fun v s hv => (h v s hv).forth, .above fun v s hv => (h v s hv).back⟩

end Echoes

end Machine

namespace Value

/-- The expression `(list e1 ... en)`. -/
def listCall (exprs : List (Value Unit)) : Value Unit := .ofList (.atom "list" :: exprs)

/-- The expression `(cons e1 (cons e2 ... (cons en nil)))`. -/
def nestedCons : (exprs : List (Value Unit)) → Value Unit
  | [] => .nil
  | e :: exprs => .ofList [.atom "cons", e, nestedCons exprs]

end Value

/-- The frames of an environment are there, and `cons` and `nil` are bound to themselves in it. -/
structure State.KnowsCons (s : State Unit) (env : Env Unit) : Prop where
  frames : EnvWithin (· < s.frames.size) env
  cons : s.lookup .none env (.atom "cons") = .ok (.atom "cons")
  nil : s.lookup .none env (.atom "nil") = .ok .nil

/-- Evaluation does not touch the frames of an environment. -/
lemma State.KnowsCons.reaches {s : State Unit} {env : Env Unit} (h : s.KnowsCons env)
    {e : Value Unit} {c : Thread Unit × State Unit}
    (hreach : Machine.Reaches .none (Thread.start e env, s) c) : c.2.KnowsCons env := by
  have disciplined := Machine.disciplined_reaches (Machine.disciplined_start e env s) hreach
  have hlookup := State.lookup_congr (fun rib hrib => disciplined.kept _ (h.frames rib hrib)) .none
  refine ⟨fun rib hrib => Nat.lt_of_lt_of_le (h.frames rib hrib) disciplined.grown, ?_, ?_⟩
  · rw [hlookup, h.cons]
  · rw [hlookup, h.nil]

namespace Machine

variable {s : State Unit} {env : Env Unit}

/-- The calls of `cons` that wait for the rest of their lists, with the values of their first
operands. -/
def pendingCons (env : Env Unit) (values : List (Value Unit)) : List (Cont Unit) :=
  values.map fun v => .operand [v, .atom "cons"] .nil env .call

/-- The calls that wait put their values in front of the list, one after the other. -/
lemma sameCourse_give (values : List (Value Unit)) (tail : Value Unit) (s : State Unit) :
    SameCourse (⟨.give tail, pendingCons env values⟩, s)
      (⟨.give (values.foldl (fun tail v => .pair () v tail) tail), []⟩, s) := by
  induction values generalizing tail with
  | nil => exact .refl _
  | cons v values ih => exact (SameCourse.of_step rfl rfl rfl).trans (ih (.pair () v tail))

lemma sameCourse_lookup {name : String} (noInteger : Name.isInteger name = false) {v : Value Unit}
    (found : s.lookup .none env (.atom name) = .ok v) (stack : List (Cont Unit)) :
    SameCourse (⟨.enter (.atom name) env, stack⟩, s) (⟨.give v, stack⟩, s) := by
  have hstep : evaluate .none .inOrder (.atom name) env stack s = (⟨.give v, stack⟩, s) := by
    simp only [evaluate, noInteger, Bool.false_eq_true, if_false, found, give]
  exact .of_step rfl hstep rfl

lemma sameCourse_enter (h : s.KnowsCons env) (e rest : Value Unit) (stack : List (Cont Unit)) :
    SameCourse (⟨.enter (.ofList [.atom "cons", e, rest]) env, stack⟩, s)
      (⟨.enter e env, .operand [.atom "cons"] (.ofList [rest]) env .call :: stack⟩, s) := by
  have hname : SameCourse (⟨.enter (.ofList [.atom "cons", e, rest]) env, stack⟩, s)
      (⟨.enter (.atom "cons") env, .operand [] (.ofList [e, rest]) env .call :: stack⟩, s) :=
    .of_step rfl rfl rfl
  have hfound := sameCourse_lookup (by decide +kernel) h.cons
    (.operand [] (.ofList [e, rest]) env .call :: stack)
  exact (hname.trans hfound).trans (.of_step rfl rfl rfl)

lemma nextOperand_collect (values : List (Value Unit)) (s : State Unit) :
    nextOperand .none values (.ofList []) env .collect [] s =
      (⟨.give (values.foldl (fun tail v => .pair () v tail) .nil), []⟩, s) := by
  unfold nextOperand
  rw [State.chain_unit]
  rfl

lemma state_nextOperand (values exprs : List (Value Unit)) (s : State Unit) :
    (nextOperand .none values (.ofList exprs) env .collect [] s).2 = s := by
  cases exprs with
  | nil => rw [nextOperand_collect]
  | cons e exprs => rfl

/-- The same operands are to come, behind the same values. -/
lemma sameCourse_operands (exprs values : List (Value Unit)) (h : s.KnowsCons env) :
    SameCourse (nextOperand .none values (.ofList exprs) env .collect [] s)
      (⟨.enter (.nestedCons exprs) env, pendingCons env values⟩, s) := by
  induction exprs generalizing values s with
  | nil =>
    have hnil := sameCourse_lookup (by decide +kernel) h.nil (pendingCons env values)
    rw [nextOperand_collect]
    exact (hnil.trans (sameCourse_give values .nil s)).symm
  | cons e exprs ih =>
    -- the operand is evaluated above two stacks, which take its value to the same place
    have hinner : SameCourse (above [.operand values (.ofList exprs) env .collect]
          (Thread.start e env, s))
        (above (.operand [.atom "cons"] (.ofList [.nestedCons exprs]) env .call ::
          pendingCons env values) (Thread.start e env, s)) := by
      refine .above fun v s' hv => ?_
      have hvalue : SameCourse (⟨.give v, [.operand values (.ofList exprs) env .collect]⟩, s')
          (nextOperand .none (v :: values) (.ofList exprs) env .collect [] s') :=
        .of_step rfl rfl (state_nextOperand (v :: values) exprs s')
      have hcall : SameCourse (⟨.give v, .operand [.atom "cons"] (.ofList [.nestedCons exprs]) env
            .call :: pendingCons env values⟩, s')
          (⟨.enter (.nestedCons exprs) env, pendingCons env (v :: values)⟩, s') :=
        .of_step rfl rfl rfl
      exact (hvalue.trans (ih (v :: values) (h.reaches hv))).trans hcall.symm
    exact hinner.trans (sameCourse_enter h e (.nestedCons exprs) (pendingCons env values)).symm

end Machine

/-- Where `cons` and `nil` are bound to themselves, the list of some expressions is nested calls of
`cons`: evaluation in order and without limits ends for one if and only if it does for the other,
with the same value or fault and in the same state, and the same lines are printed even if there is
no end. -/
theorem list_agrees_with_nested_cons (exprs : List (Value Unit)) {env : Env Unit} {s : State Unit}
    (known : s.KnowsCons env) :
    (∀ outcome s',
      (∃ fuel, Evaluation.evaluate fuel .none .inOrder (.listCall exprs) env s =
        some (outcome, .inOrder, s')) ↔
      ∃ fuel, Evaluation.evaluate fuel .none .inOrder (.nestedCons exprs) env s =
        some (outcome, .inOrder, s')) ∧
    ∀ lines, Machine.Prints (Thread.start (.listCall exprs) env, s) lines ↔
      Machine.Prints (Thread.start (.nestedCons exprs) env, s) lines := by
  have hlist : Machine.SameCourse (Thread.start (.listCall exprs) env, s)
      (Machine.nextOperand .none [] (.ofList exprs) env .collect [] s) :=
    .of_step rfl rfl (Machine.state_nextOperand [] exprs s)
  have hsame : Machine.SameCourse (Thread.start (.listCall exprs) env, s)
      (Thread.start (.nestedCons exprs) env, s) :=
    hlist.trans (Machine.sameCourse_operands exprs [] known)
  refine ⟨fun outcome s' => ?_, fun lines => ⟨hsame.forth.prints, hsame.back.prints⟩⟩
  simp only [evaluate_inOrder_iff_run]
  exact ⟨hsame.forth.exists_run, hsame.back.exists_run⟩

/-- A line that is printed, and a closure. -/
theorem list_of_line_and_closure :
    let exprs : List (Value Unit) := [.ofSExpr (.ofList [.atom "print", .atom "5"]),
      .ofSExpr (.ofList [.atom "lambda", .ofList [.atom "y"], .atom "y"])]
    let names : Value Unit := .ofSExpr (.ofList [.atom "cons", .atom "nil", .atom "print"])
    let s : State Unit := ⟨#[.filled names names, .pending], (), #[], #[]⟩
    let env : Env Unit := [⟨(), 1⟩, ⟨(), 0⟩]
    let lambda : Value Unit :=
      .ofSExpr (.ofList [.atom "lambda", .ofList [.atom "y"], .atom "y"])
    ∃ fuel, Evaluation.evaluate fuel .none .inOrder (.listCall exprs) env s =
      some (.ok (.ofList [.atom "5", .closure () lambda (.ofList [.atom "y"]) (.atom "y") env]),
        .inOrder, { s with printed := #["5"] }) := by
  intro exprs names s env lambda
  have known : s.KnowsCons env :=
    ⟨by simp [EnvWithin, env, s], by decide +kernel, by decide +kernel⟩
  exact ((list_agrees_with_nested_cons exprs known).1 _ _).mpr ⟨40, by decide +kernel⟩

end Evlis
