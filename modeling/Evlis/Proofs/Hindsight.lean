import Evlis.Proofs.Similarity
import Mathlib.Algebra.Order.Group.Multiset

/-!
# Evaluation in hindsight

A frame is filled at most once, so that in hindsight all frames of an evaluation can be known from
the start: a `View` says what each of them holds. `Settles` is a big-step semantics in which nothing
is stored. Where a frame is made, its number is guessed and the view has to bear the guess out;
while the bindings of a `letrec` are evaluated, its frame is hidden. As nothing is stored, the
operands of a call may be evaluated in any order, and a fault of one of them may be found before the
others have been looked at. The lines that are printed are counted without regard to their order.
-/

namespace Evlis

abbrev View := Nat → Frame Unit

namespace View

/-- The value of a name in the innermost frame that binds it. -/
def lookup? (V : View) (name : Value Unit) : Env Unit → Option (Value Unit)
  | [] => none
  | rib :: outer =>
    match (V rib.frame).find name with
    | some v => some v
    | none => lookup? V name outer

def lookup (V : View) (env : Env Unit) (name : Value Unit) : Except Fault (Value Unit) :=
  match V.lookup? name env with
  | some v => .ok v
  | none => .error (name.blame .none .unbound)

def mask (V : View) (hidden : List Nat) : View := fun n => if n ∈ hidden then .pending else V n

@[simp]
lemma mask_nil (V : View) : V.mask [] = V := by
  funext n
  simp [mask]

lemma mask_append (V : View) (inner outer : List Nat) :
    V.mask (inner ++ outer) = (V.mask outer).mask inner := by
  funext n
  by_cases hinner : n ∈ inner <;> simp [mask, hinner]

lemma mask_of_mem {V : View} {hidden : List Nat} {n : Nat} (h : n ∈ hidden) :
    V.mask hidden n = .pending := if_pos h

lemma mask_of_not_mem {V : View} {hidden : List Nat} {n : Nat} (h : n ∉ hidden) :
    V.mask hidden n = V n := if_neg h

end View

/-- The frames of a state; a frame that there is not binds nothing. -/
def State.view (s : State Unit) : View := fun n => (s.frames[n]?).getD .pending

lemma State.lookup_eq_view (s : State Unit) (env : Env Unit) (name : Value Unit) :
    s.lookup .none env name = s.view.lookup env name := by
  have hlookup : s.lookup? name env = s.view.lookup? name env := by
    induction env with
    | nil => rfl
    | cons rib outer ih =>
      rw [State.lookup?, View.lookup?, State.view]
      cases s.frames[rib.frame]? with
      | none => exact ih
      | some frame =>
        dsimp only [Option.getD_some]
        cases frame.find name with
        | none => exact ih
        | some v => rfl
  rw [State.lookup, View.lookup, hlookup]
  cases s.view.lookup? name env <;> rfl

/-- All frames of an environment belong to a set. -/
def EnvWithin (X : Nat → Prop) (env : Env Unit) : Prop := ∀ rib ∈ env, X rib.frame

/-- All frames that the closures in a value refer to belong to a set. -/
def Value.Within (X : Nat → Prop) (v : Value Unit) : Prop :=
  v.Similar (fun env env' => env = env' ∧ EnvWithin X env) v

/-- What frames of the set hold refers to frames of the set. -/
def View.Closed (V : View) (X : Nat → Prop) : Prop :=
  ∀ n names values, X n → V n = .filled names values → names.Within X ∧ values.Within X

/-- The frame cannot be reached from an expression and its environment. -/
def View.Apart (V : View) (n : Nat) (e : Value Unit) (env : Env Unit) : Prop :=
  ∃ X, V.Closed X ∧ e.Within X ∧ EnvWithin X env ∧ ¬ X n

/-- A fault, or a value and the lines that were printed on the way to it. -/
abbrev Outcome := Except Fault (Value Unit × Multiset String)

def Outcome.after (lines : Multiset String) : Outcome → Outcome
  | .ok (v, more) => .ok (v, lines + more)
  | .error fault => .error fault

namespace Outcome

@[simp]
lemma after_ok (lines more : Multiset String) (v : Value Unit) :
    after lines (.ok (v, more)) = .ok (v, lines + more) := rfl

@[simp]
lemma after_zero (o : Outcome) : o.after 0 = o := by
  rcases o with fault | ⟨v, more⟩
  · rfl
  · rw [after_ok, zero_add]

lemma after_after (o : Outcome) (lines more : Multiset String) :
    (o.after more).after lines = o.after (lines + more) := by
  rcases o with fault | ⟨v, others⟩
  · rfl
  · simp only [after_ok, add_assoc]

end Outcome

/-- The outcome of a goal in a view. With `early`, a fault of an operand counts whatever becomes of
the operands in front of it. -/
inductive Settles (early : Prop) : View → Goal Unit → Outcome → Prop where
  | done {V : View} {e : Value Unit} {env : Env Unit} {o : Except Fault (Value Unit)}
      (demand : Demand.ofExpr .none (V.lookup env) e = .done o) :
      Settles early V (.expr e env) (o.map fun v => (v, 0))
  | closure {V : View} {e tail formals body : Value Unit} {env : Env Unit}
      (demand : Demand.ofExpr .none (V.lookup env) e = .closure tail formals body) :
      Settles early V (.expr e env)
        (.ok (.closure () (.pair () (.atom "lambda") tail) formals body env, 0))
  | branch {V : View} {e c a b v : Value Unit} {env : Env Unit} {lines : Multiset String}
      {o : Outcome} (demand : Demand.ofExpr .none (V.lookup env) e = .branch c a b)
      (condition : Settles early V (.expr c env) (.ok (v, lines)))
      (chosen : Settles early V (.expr (if v.isNil then b else a) env) o) :
      Settles early V (.expr e env) (o.after lines)
  | branchFault {V : View} {e c a b : Value Unit} {env : Env Unit} {fault : Fault}
      (demand : Demand.ofExpr .none (V.lookup env) e = .branch c a b)
      (condition : Settles early V (.expr c env) (.error fault)) :
      Settles early V (.expr e env) (.error fault)
  | second {V : View} {e a b v : Value Unit} {env : Env Unit} {lines : Multiset String}
      {o : Outcome} (demand : Demand.ofExpr .none (V.lookup env) e = .second a b)
      (first : Settles early V (.expr a env) (.ok (v, lines)))
      (last : Settles early V (.expr b env) o) :
      Settles early V (.expr e env) (o.after lines)
  | secondFault {V : View} {e a b : Value Unit} {env : Env Unit} {fault : Fault}
      (demand : Demand.ofExpr .none (V.lookup env) e = .second a b)
      (first : Settles early V (.expr a env) (.error fault)) :
      Settles early V (.expr e env) (.error fault)
  | letrec {V : View} {e bs body : Value Unit} {env : Env Unit} {n : Nat} {o : Outcome}
      (demand : Demand.ofExpr .none (V.lookup env) e = .letrec bs body)
      (apart : V.Apart n e env)
      (loop : Settles early V (.bindings ⟨.nil, .nil, bs, body, ⟨(), n⟩ :: env, n⟩) o) :
      Settles early V (.expr e env) o
  | collect {V : View} {e exprs : Value Unit} {env : Env Unit} {o : Outcome}
      (demand : Demand.ofExpr .none (V.lookup env) e = .operands exprs .collect)
      (operands : Settles early V (.operands exprs env) o) :
      Settles early V (.expr e env) o
  | call {V : View} {e exprs list : Value Unit} {env : Env Unit} {lines : Multiset String}
      {o : Outcome} (demand : Demand.ofExpr .none (V.lookup env) e = .operands exprs .call)
      (operands : Settles early V (.operands exprs env) (.ok (list, lines)))
      (result : Settles early V (.application list) o) :
      Settles early V (.expr e env) (o.after lines)
  | callFault {V : View} {e exprs : Value Unit} {env : Env Unit} {fault : Fault}
      (demand : Demand.ofExpr .none (V.lookup env) e = .operands exprs .call)
      (operands : Settles early V (.operands exprs env) (.error fault)) :
      Settles early V (.expr e env) (.error fault)
  | noOperands {V : View} {env : Env Unit} :
      Settles early V (.operands .nil env) (.ok (.nil, 0))
  | improper {V : View} {tail : Value Unit} {env : Env Unit} (atEnd : tail.ending = tail)
      (notNil : tail.isNil = false) :
      Settles early V (.operands tail env) (.error (tail.blame .none .improperTail))
  | operand {V : View} {e rest v list : Value Unit} {env : Env Unit}
      {lines more : Multiset String} (first : Settles early V (.expr e env) (.ok (v, lines)))
      (others : Settles early V (.operands rest env) (.ok (list, more))) :
      Settles early V (.operands (.pair () e rest) env) (.ok (.pair () v list, lines + more))
  | operandFault {V : View} {e rest : Value Unit} {env : Env Unit} {fault : Fault}
      (first : Settles early V (.expr e env) (.error fault)) :
      Settles early V (.operands (.pair () e rest) env) (.error fault)
  | laterFault {V : View} {e rest v : Value Unit} {env : Env Unit} {lines : Multiset String}
      {fault : Fault} (first : Settles early V (.expr e env) (.ok (v, lines)))
      (others : Settles early V (.operands rest env) (.error fault)) :
      Settles early V (.operands (.pair () e rest) env) (.error fault)
  | skip {V : View} {e rest : Value Unit} {env : Env Unit} {fault : Fault} (allowed : early)
      (others : Settles early V (.operands rest env) (.error fault)) :
      Settles early V (.operands (.pair () e rest) env) (.error fault)
  | primitive {V : View} {name : String} {arguments : Value Unit} {s : State Unit}
      {lines : List String} (printed : (Primitive.apply .none name arguments s).2.printed.toList =
        s.printed.toList ++ lines) :
      Settles early V (.application (.pair () (.atom name) arguments))
        ((Primitive.apply .none name arguments s).1.map fun v => (v, (lines : Multiset String)))
  | body {V : View} {lambda formals body arguments : Value Unit} {env : Env Unit} {n : Nat}
      {o : Outcome} (fits : formals.length = arguments.length)
      (filled : V n = .filled formals arguments)
      (result : Settles early V (.expr body (⟨(), n⟩ :: env)) o) :
      Settles early V (.application (.pair () (.closure () lambda formals body env) arguments)) o
  | arity {V : View} {lambda formals body arguments : Value Unit} {env : Env Unit}
      (misfits : formals.length ≠ arguments.length) :
      Settles early V (.application (.pair () (.closure () lambda formals body env) arguments))
        (.error ((Value.closure () lambda formals body env).blame .none
          (.closureArity formals.length arguments.length)))
  | misfit {V : View} {list function : Value Unit} (found : list.misfit? = some function) :
      Settles early V (.application list) (.error (function.blame .none .illegalFunction))
  | bind {V : View} {b : Binding Unit} {name e rest v : Value Unit} {lines : Multiset String}
      {o : Outcome} (next : b.next .none = .ok (some (name, e, rest)))
      (bound : Settles early (V.mask [b.frame]) (.expr e b.env) (.ok (v, lines)))
      (others : Settles early V (.bindings { b with
        names := .pair () name b.names
        values := .pair () v b.values
        rest }) o) :
      Settles early V (.bindings b) (o.after lines)
  | bindFault {V : View} {b : Binding Unit} {name e rest : Value Unit} {fault : Fault}
      (next : b.next .none = .ok (some (name, e, rest)))
      (bound : Settles early (V.mask [b.frame]) (.expr e b.env) (.error fault)) :
      Settles early V (.bindings b) (.error fault)
  | malformed {V : View} {b : Binding Unit} {fault : Fault} (next : b.next .none = .error fault) :
      Settles early V (.bindings b) (.error fault)
  | fill {V : View} {b : Binding Unit} {o : Outcome} (next : b.next .none = .ok none)
      (filled : V b.frame = .filled b.names b.values)
      (body : Settles early V (.expr b.body b.env) o) :
      Settles early V (.bindings b) o

end Evlis
