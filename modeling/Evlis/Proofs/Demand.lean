import Evlis.Machine
import Mathlib.Tactic.Common

/-!
# What an expression asks for

The outermost form of an expression decides which parts of it are evaluated, in which order and
for what. `Demand.ofExpr` reads this off the expression, and `Machine.evaluate_eq_pursue` says
that the machine does what is asked for. `Binding.next` does the same for the list of bindings
of a `letrec`.
-/

namespace Evlis

lemma Value.elements_of_toList {ι : Type} {limits : Limits} {v : Value ι} {parts : List (Value ι)}
    (h : v.toList limits = .ok parts) : v.elements = parts := by
  unfold toList at h
  split at h
  · exact Except.ok.inj h
  · cases h

/-- What is to be done for an expression, once its outermost form is known. -/
inductive Demand (ι : Type) where
  /-- Nothing: the outcome is known. -/
  | done (outcome : Except Fault (Value ι))
  | closure (tail formals body : Value ι)
  | operands (exprs : Value ι) (purpose : Purpose)
  | branch (condition consequent alternative : Value ι)
  | second (first last : Value ι)
  | letrec (bindings body : Value ι)

namespace Demand

variable {ι : Type}

/-- What a lambda expression asks for: its parameters are checked before their list is. -/
def ofLambda (limits : Limits) (tail formals body : Value ι) : Demand ι :=
  match Machine.badParameter? formals.elements with
  | some formal => .done (.error (formal.blame limits .badParameter))
  | none =>
    if formals.ending.isNil then .closure tail formals body
    else .done (.error (formals.ending.blame limits .improperTail))

def ofForm (limits : Limits) (form : Form) (tail : Value ι) : Demand ι :=
  match form with
  | .list => .operands tail .collect
  | form =>
    match tail.toList limits with
    | .error fault => .done (.error fault)
    | .ok parts =>
      match form, parts with
      | .quote, [datum] => .done (.ok datum)
      | .prog2, [first, last] => .second first last
      | .branch, [condition, consequent, alternative] => .branch condition consequent alternative
      | .lambda, [formals, body] => ofLambda limits tail formals body
      | .letrec, [bindings, body] => .letrec bindings body
      | form, _ => .done (.error (.formArity form))

/-- What an expression asks for, where `lookup` gives the values of names. -/
def ofExpr (limits : Limits) (lookup : Value ι → Except Fault (Value ι)) (expr : Value ι) :
    Demand ι :=
  match expr with
  | .atom name => .done (if Name.isInteger name then .ok (.atom name) else lookup (.atom name))
  | .pair mark (.atom name) tail =>
    match Form.ofName? name with
    | some form => ofForm limits form tail
    | none => .operands (.pair mark (.atom name) tail) .call
  | .pair mark head tail => .operands (.pair mark head tail) .call
  | expr => .done ((expr.represent limits).bind fun shown => .error (.cannotEvaluate shown))

/-- All expressions that are to be evaluated, and the value if it is known, have a property. -/
def All (P : Value ι → Prop) : Demand ι → Prop
  | .done (.ok v) => P v
  | .done (.error _) => True
  | .closure _ _ body => P body
  | .operands exprs _ => ∀ e ∈ exprs.elements, P e
  | .branch condition consequent alternative => P condition ∧ P consequent ∧ P alternative
  | .second first last => P first ∧ P last
  | .letrec bindings body => P bindings ∧ P body

lemma all_ofForm {P : Value ι → Prop} (limits : Limits) (form : Form) {tail : Value ι}
    (h : ∀ e ∈ tail.elements, P e) : (ofForm limits form tail).All P := by
  unfold ofForm
  split
  · exact h
  · unfold Value.toList
    split
    · rename_i listed
      split at listed
      · cases listed
      · cases listed
        trivial
    · rename_i parts listed
      have hparts : ∀ e ∈ parts, P e := by
        split at listed
        · cases listed
          exact h
        · cases listed
      split
      · exact hparts _ (by simp)
      · exact ⟨hparts _ (by simp), hparts _ (by simp)⟩
      · exact ⟨hparts _ (by simp), hparts _ (by simp), hparts _ (by simp)⟩
      · unfold ofLambda
        split
        · trivial
        · split
          · exact hparts _ (by simp)
          · trivial
      · exact ⟨hparts _ (by simp), hparts _ (by simp)⟩
      · trivial

/-- An expression that is no name asks for its own parts, whatever the values of names are. -/
lemma all_ofExpr {P : Value ι → Prop} (hP : ∀ e v, P e → v ∈ e.elements → P v) (limits : Limits)
    (lookup lookup' : Value ι → Except Fault (Value ι)) {e : Value ι} (he : P e)
    (hname : ∀ name, e = .atom name → Name.isInteger name = true) :
    ofExpr limits lookup e = ofExpr limits lookup' e ∧ (ofExpr limits lookup e).All P := by
  cases e with
  | atom name =>
    have hinteger := hname name rfl
    simp only [ofExpr, hinteger, if_true]
    exact ⟨trivial, he⟩
  | pair mark head tail =>
    refine ⟨by cases head <;> rfl, ?_⟩
    have htail : ∀ e ∈ tail.elements, P e := by
      intro e hmem
      refine hP _ e he ?_
      rw [Value.elements_pair]
      exact List.mem_cons_of_mem _ hmem
    cases head with
    | atom name =>
      rw [ofExpr]
      split
      · exact all_ofForm limits _ htail
      · exact fun v hv => hP _ v he hv
    | _ => exact fun v hv => hP _ v he hv
  | closure mark lambda formals body env =>
    refine ⟨rfl, ?_⟩
    unfold ofExpr
    dsimp only
    cases (Value.closure mark lambda formals body env).represent limits <;> trivial
  | «foreign» n =>
    refine ⟨rfl, ?_⟩
    unfold ofExpr
    dsimp only
    cases (Value.foreign n : Value ι).represent limits <;> trivial

end Demand

namespace State

variable {ι : Type} [Marking ι]

def close (tail formals body : Value ι) (env : Env ι) (s : State ι) : Value ι × State ι :=
  let (expr, s) := s.cons (.atom "lambda") tail
  let (mark, s) := s.fresh
  (.closure mark expr formals body env, s)

/-- Put a pending frame in front of an environment, for bindings still to be evaluated. -/
def suspend (bindings body : Value ι) (env : Env ι) (s : State ι) : Binding ι × State ι :=
  let (frame, s) := s.addFrame .pending
  let (env, s) := s.link frame env
  (⟨.nil, .nil, bindings, body, env, frame⟩, s)

end State

namespace Binding

variable {ι : Type}

/-- The next binding: its name, its expression and the bindings behind it, or nothing at the end
of the list. -/
def next (limits : Limits) (b : Binding ι) :
    Except Fault (Option (Value ι × Value ι × Value ι)) :=
  match b.rest with
  | .pair _ binding rest =>
    match Machine.bindingParts limits binding with
    | .error fault => .error fault
    | .ok [.atom name, expr] =>
      if Name.isInteger name then .error (binding.blame limits .malformedBinding)
      else .ok (some (.atom name, expr, rest))
    | .ok _ => .error (binding.blame limits .malformedBinding)
  | tail => if tail.isNil then .ok none else .error (tail.blame limits .improperTail)

/-- The next binding is a list of a name that can be bound and an expression. -/
lemma eq_of_next {limits : Limits} {b : Binding ι} {name e rest : Value ι}
    (h : b.next limits = .ok (some (name, e, rest))) :
    ∃ mark binding, b.rest = .pair mark binding rest ∧ binding.elements = [name, e] ∧
      ∃ n, name = .atom n ∧ Name.isInteger n = false := by
  unfold next at h
  split at h
  · rename_i mark binding others hrest
    have hparts : ∀ parts, Machine.bindingParts limits binding = .ok parts →
        parts ≠ [] → binding.elements = parts := by
      intro parts hp hne
      unfold Machine.bindingParts at hp
      split at hp
      · exact Value.elements_of_toList hp
      · cases hp
        exact absurd rfl hne
    split at h
    · cases h
    · rename_i hp
      split at h
      · cases h
      · rename_i hinteger
        cases h
        exact ⟨mark, binding, hrest, hparts _ hp (by simp), _, rfl, Bool.eq_false_iff.mpr hinteger⟩
    · cases h
  · split at h <;> cases h

def bind [Marking ι] (name v rest : Value ι) (b : Binding ι) (s : State ι) :
    Binding ι × State ι :=
  let (names, s) := s.cons name b.names
  let (values, s) := s.cons v b.values
  ({ b with names, values, rest }, s)

end Binding

namespace Machine

variable {ι : Type} [Marking ι]

def pursue (limits : Limits) (mode : Mode) (env : Env ι) (stack : List (Cont ι)) (s : State ι) :
    Demand ι → Thread ι × State ι
  | .done (.ok v) => give v stack s
  | .done (.error fault) => fail fault stack s
  | .closure tail formals body =>
    let (v, s) := s.close tail formals body env
    give v stack s
  | .operands exprs purpose => operands limits mode exprs env purpose stack s
  | .branch condition consequent alternative =>
    await limits (.branch consequent alternative env) condition env stack s
  | .second first last => await limits (.second last env) first env stack s
  | .letrec bindings body =>
    let (b, s) := s.suspend bindings body env
    nextBinding limits b stack s

omit [Marking ι] in
lemma nextBinding_eq (limits : Limits) (b : Binding ι) (stack : List (Cont ι)) (s : State ι) :
    nextBinding limits b stack s =
      match b.next limits with
      | .error fault => fail fault stack s
      | .ok (some (name, expr, rest)) => await limits (.bind name { b with rest }) expr b.env stack s
      | .ok none =>
        match s.fill b.frame b.names b.values with
        | .error fault => fail fault stack s
        | .ok s => bounce b.body b.env stack (s.log (.frameFilled b.names)) := by
  obtain ⟨names, values, rest, body, env, frame⟩ := b
  unfold nextBinding Binding.next
  cases rest with
  | pair mark binding rest =>
    dsimp only
    rcases bindingParts limits binding with fault | (_ | ⟨name, _ | ⟨expr, _ | ⟨_, _⟩⟩⟩)
    · rfl
    · rfl
    · cases name <;> rfl
    · cases name with
      | atom name =>
        dsimp only
        split <;> rfl
      | _ => rfl
    · cases name <;> rfl
  | _ =>
    dsimp only
    split <;> rfl

lemma form_eq_pursue (limits : Limits) (mode : Mode) (f : Form) (tail : Value ι) (env : Env ι)
    (stack : List (Cont ι)) (s : State ι) :
    form limits mode f tail env stack s =
      pursue limits mode env stack s (Demand.ofForm limits f tail) := by
  cases f with
  | list => rfl
  | lambda =>
    unfold form Demand.ofForm
    dsimp only
    cases tail.toList limits with
    | error fault => rfl
    | ok parts =>
      rcases parts with _ | ⟨formals, _ | ⟨body, _ | ⟨_, _⟩⟩⟩
      · rfl
      · rfl
      · dsimp only
        unfold lambda Demand.ofLambda
        cases badParameter? formals.elements with
        | some formal => rfl
        | none =>
          dsimp only
          split <;> rfl
      · rfl
  | _ =>
    unfold form Demand.ofForm
    dsimp only
    cases tail.toList limits with
    | error fault => rfl
    | ok parts => rcases parts with _ | ⟨_, _ | ⟨_, _ | ⟨_, _ | ⟨_, _⟩⟩⟩⟩ <;> rfl

/-- The machine does what an expression asks for. -/
theorem evaluate_eq_pursue [DecidableEq ι] (limits : Limits) (mode : Mode) (expr : Value ι)
    (env : Env ι) (stack : List (Cont ι)) (s : State ι) :
    evaluate limits mode expr env stack s =
      pursue limits mode env stack s (Demand.ofExpr limits (s.lookup limits env) expr) := by
  unfold evaluate Demand.ofExpr
  cases expr with
  | atom name =>
    dsimp only
    split
    · rfl
    · cases s.lookup limits env (.atom name) <;> rfl
  | pair mark head tail =>
    cases head with
    | atom name =>
      dsimp only
      cases Form.ofName? name with
      | none => rfl
      | some f => exact form_eq_pursue limits mode f tail env stack s
    | _ => rfl
  | closure mark lambda formals body closed =>
    dsimp only
    cases (Value.closure mark lambda formals body closed).represent limits <;> rfl
  | «foreign» n =>
    dsimp only
    cases (Value.foreign n : Value ι).represent limits <;> rfl

end Machine

end Evlis
