import Evlis.Proofs.Demand

/-!
# The reference semantics

A big-step semantics of the language, with every expression evaluated by an ordinary premise of
its own: the chosen branch of an `if`, the second operand of a `prog2`, the body of a `letrec` and
the body of a closure are no different from operands. There is no limit to nesting, and operands
are evaluated from left to right. `Derives` relates what is evaluated and the state before to the
outcome and the state after.
-/

namespace Evlis

inductive Goal (ι : Type) where
  | expr (e : Value ι) (env : Env ι)
  /-- The expressions of a list, to the list of their values. -/
  | operands (exprs : Value ι) (env : Env ι)
  /-- The first element of a list, applied to the others. -/
  | application (call : Value ι)
  /-- The bindings of a `letrec` that are still to come, and then its body. -/
  | bindings (b : Binding ι)

/-- What stands in the place of a function in a call and is none. -/
def Value.misfit? {ι : Type} : Value ι → Option (Value ι)
  | .pair _ (.atom _) _ => none
  | .pair _ (.closure _ _ _ _ _) _ => none
  | .pair _ function _ => some function
  | call => some call

/-- The outcome of a goal, and the state it leaves behind. -/
inductive Derives {ι : Type} [DecidableEq ι] [Marking ι] :
    Goal ι → State ι → Except Fault (Value ι) → State ι → Prop where
  | done {e : Value ι} {env : Env ι} {s : State ι} {outcome : Except Fault (Value ι)}
      (demand : Demand.ofExpr .none (s.lookup .none env) e = .done outcome) :
      Derives (.expr e env) s outcome s
  | closure {e tail formals body : Value ι} {env : Env ι} {s : State ι}
      (demand : Demand.ofExpr .none (s.lookup .none env) e = .closure tail formals body) :
      Derives (.expr e env) s (.ok (s.close tail formals body env).1)
        (s.close tail formals body env).2
  | branch {e c a b v : Value ι} {env : Env ι} {s s₁ s₂ : State ι}
      {outcome : Except Fault (Value ι)}
      (demand : Demand.ofExpr .none (s.lookup .none env) e = .branch c a b)
      (condition : Derives (.expr c env) s (.ok v) s₁)
      (chosen : Derives (.expr (if v.isNil then b else a) env) s₁ outcome s₂) :
      Derives (.expr e env) s outcome s₂
  | branchFault {e c a b : Value ι} {env : Env ι} {s s₁ : State ι} {fault : Fault}
      (demand : Demand.ofExpr .none (s.lookup .none env) e = .branch c a b)
      (condition : Derives (.expr c env) s (.error fault) s₁) :
      Derives (.expr e env) s (.error fault) s₁
  | second {e a b v : Value ι} {env : Env ι} {s s₁ s₂ : State ι}
      {outcome : Except Fault (Value ι)}
      (demand : Demand.ofExpr .none (s.lookup .none env) e = .second a b)
      (first : Derives (.expr a env) s (.ok v) s₁)
      (last : Derives (.expr b env) s₁ outcome s₂) :
      Derives (.expr e env) s outcome s₂
  | secondFault {e a b : Value ι} {env : Env ι} {s s₁ : State ι} {fault : Fault}
      (demand : Demand.ofExpr .none (s.lookup .none env) e = .second a b)
      (first : Derives (.expr a env) s (.error fault) s₁) :
      Derives (.expr e env) s (.error fault) s₁
  | letrec {e bs body : Value ι} {env : Env ι} {s s₁ : State ι} {outcome : Except Fault (Value ι)}
      (demand : Demand.ofExpr .none (s.lookup .none env) e = .letrec bs body)
      (loop : Derives (.bindings (s.suspend bs body env).1) (s.suspend bs body env).2 outcome s₁) :
      Derives (.expr e env) s outcome s₁
  | collect {e exprs : Value ι} {env : Env ι} {s s₁ : State ι} {outcome : Except Fault (Value ι)}
      (demand : Demand.ofExpr .none (s.lookup .none env) e = .operands exprs .collect)
      (operands : Derives (.operands exprs env) s outcome s₁) :
      Derives (.expr e env) s outcome s₁
  | call {e exprs list : Value ι} {env : Env ι} {s s₁ s₂ : State ι}
      {outcome : Except Fault (Value ι)}
      (demand : Demand.ofExpr .none (s.lookup .none env) e = .operands exprs .call)
      (operands : Derives (.operands exprs env) s (.ok list) s₁)
      (result : Derives (.application list) s₁ outcome s₂) :
      Derives (.expr e env) s outcome s₂
  | callFault {e exprs : Value ι} {env : Env ι} {s s₁ : State ι} {fault : Fault}
      (demand : Demand.ofExpr .none (s.lookup .none env) e = .operands exprs .call)
      (operands : Derives (.operands exprs env) s (.error fault) s₁) :
      Derives (.expr e env) s (.error fault) s₁
  | noOperands {env : Env ι} {s : State ι} : Derives (.operands .nil env) s (.ok .nil) s
  | improper {tail : Value ι} {env : Env ι} {s : State ι}
      (atEnd : tail.ending = tail) (notNil : tail.isNil = false) :
      Derives (.operands tail env) s (.error (tail.blame .none .improperTail)) s
  | operand {mark : ι} {e rest v list : Value ι} {env : Env ι} {s s₁ s₂ : State ι}
      (first : Derives (.expr e env) s (.ok v) s₁)
      (others : Derives (.operands rest env) s₁ (.ok list) s₂) :
      Derives (.operands (.pair mark e rest) env) s (.ok (s₂.cons v list).1) (s₂.cons v list).2
  | operandFault {mark : ι} {e rest : Value ι} {env : Env ι} {s s₁ : State ι} {fault : Fault}
      (first : Derives (.expr e env) s (.error fault) s₁) :
      Derives (.operands (.pair mark e rest) env) s (.error fault) s₁
  | laterFault {mark : ι} {e rest v : Value ι} {env : Env ι} {s s₁ s₂ : State ι} {fault : Fault}
      (first : Derives (.expr e env) s (.ok v) s₁)
      (others : Derives (.operands rest env) s₁ (.error fault) s₂) :
      Derives (.operands (.pair mark e rest) env) s (.error fault) s₂
  | primitive {mark : ι} {name : String} {arguments : Value ι} {s : State ι} :
      Derives (.application (.pair mark (.atom name) arguments)) s
        (Primitive.apply .none name arguments s).1 (Primitive.apply .none name arguments s).2
  | body {mark mark' : ι} {lambda formals body arguments : Value ι} {env inner : Env ι}
      {s s₁ s₂ : State ι} {outcome : Except Fault (Value ι)}
      (extended : Machine.extendEnv .none (.closure mark' lambda formals body env) formals
        arguments env s = (.ok inner, s₁))
      (result : Derives (.expr body inner) s₁ outcome s₂) :
      Derives (.application (.pair mark (.closure mark' lambda formals body env) arguments)) s
        outcome s₂
  | arity {mark mark' : ι} {lambda formals body arguments : Value ι} {env : Env ι}
      {s s₁ : State ι} {fault : Fault}
      (extended : Machine.extendEnv .none (.closure mark' lambda formals body env) formals
        arguments env s = (.error fault, s₁)) :
      Derives (.application (.pair mark (.closure mark' lambda formals body env) arguments)) s
        (.error fault) s₁
  | misfit {list function : Value ι} {s : State ι} (found : list.misfit? = some function) :
      Derives (.application list) s (.error (function.blame .none .illegalFunction)) s
  | bind {b : Binding ι} {name e rest v : Value ι} {s s₁ s₂ : State ι}
      {outcome : Except Fault (Value ι)}
      (next : b.next .none = .ok (some (name, e, rest)))
      (bound : Derives (.expr e b.env) s (.ok v) s₁)
      (others : Derives (.bindings (b.bind name v rest s₁).1) (b.bind name v rest s₁).2 outcome s₂) :
      Derives (.bindings b) s outcome s₂
  | bindFault {b : Binding ι} {name e rest : Value ι} {s s₁ : State ι} {fault : Fault}
      (next : b.next .none = .ok (some (name, e, rest)))
      (bound : Derives (.expr e b.env) s (.error fault) s₁) :
      Derives (.bindings b) s (.error fault) s₁
  | malformed {b : Binding ι} {s : State ι} {fault : Fault} (next : b.next .none = .error fault) :
      Derives (.bindings b) s (.error fault) s
  | fill {b : Binding ι} {s s₁ s₂ : State ι} {outcome : Except Fault (Value ι)}
      (next : b.next .none = .ok none)
      (filled : s.fill b.frame b.names b.values = .ok s₁)
      (body : Derives (.expr b.body b.env) (s₁.log (.frameFilled b.names)) outcome s₂) :
      Derives (.bindings b) s outcome s₂
  | refill {b : Binding ι} {s : State ι} {fault : Fault}
      (next : b.next .none = .ok none)
      (refused : s.fill b.frame b.names b.values = .error fault) :
      Derives (.bindings b) s (.error fault) s

end Evlis
