import Evlis.Proofs.Scopes

/-!
# What remains for a thread to do

Seen in hindsight, what remains for a thread to do is settled: its control has an outcome, and the
evaluations waiting on its stack turn that into the outcome of the thread. `Completes` says so for a
thread at any moment, with the operands that it has handed over standing for the expressions they
are evaluations of.
-/

namespace Evlis

/-- The frames that the bindings on a stack are meant for. -/
abbrev held (stack : List (Cont Unit)) : List Nat := openFrames (openBindings stack)

lemma held_cons_of_none {cont : Cont Unit} (h : cont.binding? = none) (stack : List (Cont Unit)) :
    held (cont :: stack) = held stack := by
  rw [held, openBindings_cons_of_none h]

lemma held_bind (name : Value Unit) (b : Binding Unit) (stack : List (Cont Unit)) :
    held (.bind name b :: stack) = b.frame :: held stack := by
  rw [held, openBindings_bind]
  rfl

/-- The outcome of a list of operands, each of which has the outcomes that a predicate admits. -/
inductive Gathers (early : Prop) : List (Outcome → Prop) → Outcome → Prop where
  | nil : Gathers early [] (.ok (.nil, 0))
  | cons {A : Outcome → Prop} {As : List (Outcome → Prop)} {v list : Value Unit}
      {lines more : Multiset String} (first : A (.ok (v, lines)))
      (others : Gathers early As (.ok (list, more))) :
      Gathers early (A :: As) (.ok (.pair () v list, lines + more))
  | fault {A : Outcome → Prop} {As : List (Outcome → Prop)} {fault : Fault}
      (first : A (.error fault)) : Gathers early (A :: As) (.error fault)
  | later {A : Outcome → Prop} {As : List (Outcome → Prop)} {v : Value Unit}
      {lines : Multiset String} {fault : Fault} (first : A (.ok (v, lines)))
      (others : Gathers early As (.error fault)) : Gathers early (A :: As) (.error fault)
  | skip {A : Outcome → Prop} {As : List (Outcome → Prop)} {fault : Fault} (allowed : early)
      (others : Gathers early As (.error fault)) : Gathers early (A :: As) (.error fault)

/-- The list of values, given last first, in front of a list. -/
def chained (front : List (Value Unit)) (list : Value Unit) : Value Unit :=
  front.foldl (fun tail v => .pair () v tail) list

section Remaining

variable (early : Prop) (origin : Nat → Value Unit × Env Unit)

/-- The outcomes of an operand on its way. A task evaluates the expression it was made for. -/
def Yields (V : View) : Operand Unit → Outcome → Prop
  | .ready v, o => o = .ok (v, 0)
  | .task number, o => Settles early V (.expr (origin number).1 (origin number).2) o

/-- The outcomes of operands, those on their way and those still to come. -/
def promises (V : View) (underway : List (Operand Unit)) (exprs : List (Value Unit))
    (env : Env Unit) : List (Outcome → Prop) :=
  underway.map (Yields early origin V) ++ exprs.map fun e o => Settles early V (.expr e env) o

/-- What is made of a list of operands behind those in `front`, which are given last first. -/
inductive Concludes (V : View) (front : List (Value Unit)) : Purpose → Outcome → Outcome → Prop where
  | fault (purpose : Purpose) (fault : Fault) :
      Concludes V front purpose (.error fault) (.error fault)
  | collect (list : Value Unit) (lines : Multiset String) :
      Concludes V front .collect (.ok (list, lines)) (.ok (chained front list, lines))
  | call {list : Value Unit} {lines : Multiset String} {o : Outcome}
      (result : Settles early V (.application (chained front list)) o) :
      Concludes V front .call (.ok (list, lines)) (o.after lines)

def Shares (V : View) (purpose : Purpose) (head : Value Unit) (underway : List (Operand Unit))
    (exprs : List (Value Unit)) (env : Env Unit) (o : Outcome) : Prop :=
  ∃ g, Gathers early (promises early origin V underway.reverse exprs env) g ∧
    Concludes early V [head] purpose g o

/-- The outcomes of an evaluation that gets the value it was waiting for. -/
def Answers (V : View) (v : Value Unit) (o : Outcome) : Cont Unit → Prop
  | .operand values rest env purpose =>
    ∃ g, Settles early V (.operands rest env) g ∧ Concludes early V (v :: values) purpose g o
  | .branch consequent alternative env =>
    Settles early V (.expr (if v.isNil then alternative else consequent) env) o
  | .second e env => Settles early V (.expr e env) o
  | .bind name b =>
    Settles early V (.bindings { b with
      names := .pair () name b.names
      values := .pair () v b.values }) o
  | .share rest env purpose =>
    ∃ g, Settles early V (.operands rest env) g ∧ Concludes early V [v] purpose g o
  | .inline sharing =>
    Shares early origin V sharing.purpose sharing.head (.ready v :: sharing.underway) sharing.rest
      sharing.env o

def Acts (V : View) (o : Outcome) : Control Unit → Prop
  | .enter e env => Settles early V (.expr e env) o
  | .bounce e env => Settles early V (.expr e env) o
  | .give v => o = .ok (v, 0)
  | .fail fault => o = .error fault
  | .fork sharing =>
    Shares early origin V sharing.purpose sharing.head sharing.underway sharing.rest sharing.env o
  | .submit e sharing =>
    Shares early origin V sharing.purpose sharing.head sharing.underway (e :: sharing.rest)
      sharing.env o
  | .join head values underway purpose =>
    ∃ g, Gathers early (underway.map (Yields early origin V)) g ∧
      Concludes early V (values ++ [head]) purpose g o

/-- What a stack makes of an outcome. Frames are hidden while the bindings for them are on the
stack. -/
inductive Unwinds (V : View) : List (Cont Unit) → Outcome → Outcome → Prop where
  | nil (o : Outcome) : Unwinds V [] o o
  | fault (stack : List (Cont Unit)) (fault : Fault) :
      Unwinds V stack (.error fault) (.error fault)
  | cons {cont : Cont Unit} {stack : List (Cont Unit)} {v : Value Unit} {lines : Multiset String}
      {o o' : Outcome} (answer : Answers early origin (V.mask (held stack)) v o cont)
      (others : Unwinds V stack o o') :
      Unwinds V (cont :: stack) (.ok (v, lines)) (o'.after lines)

def Completes (V : View) (thread : Thread Unit) (o : Outcome) : Prop :=
  ∃ o₁, Acts early origin (V.mask (held thread.stack)) o₁ thread.control ∧
    Unwinds early origin V thread.stack o₁ o

end Remaining

variable {early : Prop} {origin : Nat → Value Unit × Env Unit} {V : View}

lemma Unwinds.after {stack : List (Cont Unit)} {o o' : Outcome} (lines : Multiset String)
    (h : Unwinds early origin V stack o o') :
    Unwinds early origin V stack (o.after lines) (o'.after lines) := by
  cases h with
  | nil => exact .nil _
  | fault => exact .fault stack _
  | cons answer others =>
    rw [Outcome.after_after, Outcome.after_ok]
    exact .cons answer others

lemma Concludes.after {front : List (Value Unit)} {purpose : Purpose} {g o : Outcome}
    (lines : Multiset String) (h : Concludes early V front purpose g o) :
    Concludes early V front purpose (g.after lines) (o.after lines) := by
  cases h with
  | fault => exact .fault purpose _
  | collect list more => exact .collect list (lines + more)
  | call result =>
    rw [Outcome.after_after, Outcome.after_ok]
    exact .call result

/-- Operands that have been gathered settle the list they are the elements of. -/
lemma Gathers.settles {rest : Value Unit} {env : Env Unit} {o : Outcome}
    (hending : rest.ending.isNil = true)
    (h : Gathers early (rest.elements.map fun e o => Settles early V (.expr e env) o) o) :
    Settles early V (.operands rest env) o := by
  induction rest generalizing o with
  | pair mark e rest _ ih =>
    rw [Value.elements_pair, List.map_cons] at h
    cases h with
    | cons first others => exact .operand first (ih hending others)
    | fault first => exact .operandFault first
    | later first others => exact .laterFault first (ih hending others)
    | skip allowed others => exact .skip allowed (ih hending others)
  | atom name =>
    have hname : name = "nil" := by simpa [Value.ending, Value.isNil] using hending
    subst hname
    cases h
    exact .noOperands
  | closure | «foreign» => cases hending

lemma settles_improper (allowed : early) {rest : Value Unit} {env : Env Unit}
    (hending : rest.ending.isNil = false) :
    Settles early V (.operands rest env) (.error (rest.ending.blame .none .improperTail)) := by
  induction rest with
  | pair mark e rest _ ih => exact .skip allowed (ih hending)
  | _ => exact .improper rfl hending

/-- An operand whose value is known may be replaced by one that has that value in the end. -/
lemma Gathers.replace {As Bs : List (Outcome → Prop)} {A : Outcome → Prop} {v : Value Unit}
    {lines : Multiset String} {g : Outcome} (hA : A (.ok (v, lines)))
    (h : Gathers early (As ++ (fun o => o = .ok (v, 0)) :: Bs) g) :
    Gathers early (As ++ A :: Bs) (g.after lines) := by
  induction As generalizing g with
  | nil =>
    cases h with
    | cons first others =>
      cases first
      rw [Outcome.after_ok, zero_add]
      exact .cons hA others
    | fault first => cases first
    | later first others => exact .later hA others
    | skip allowed others => exact .skip allowed others
  | cons B As ih =>
    cases h with
    | cons first others =>
      rw [Outcome.after_ok, add_left_comm]
      exact .cons first (ih others)
    | fault first => exact .fault first
    | later first others => exact .later first (ih others)
    | skip allowed others => exact .skip allowed (ih others)

lemma Gathers.fault_at (allowed : early) {As Bs : List (Outcome → Prop)} {A : Outcome → Prop}
    {fault : Fault} (hA : A (.error fault)) : Gathers early (As ++ A :: Bs) (.error fault) := by
  induction As with
  | nil => exact .fault hA
  | cons B As ih => exact .skip allowed ih

end Evlis
