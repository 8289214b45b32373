import Evlis.Proofs.InnerRuns

/-!
# What comes of a list of operands

The outcome of a list of operands depends on the outcomes of the operands, on what stands behind the
last of them, and, if they are shared out, on who evaluates which. The two verdicts on a list are
compared, and the one on operands that are evaluated in order is that of `Evaluation.evaluateAll`.
-/

namespace Evlis

variable {ι : Type}

/-- Who evaluates an operand: the thread that needs it, or another task. -/
inductive Way where
  | inline
  | forked
deriving DecidableEq

structure Report (ι : Type) where
  way : Way
  outcome : Except Fault (Value ι)

namespace Fault

def of? : Except Fault (Value ι) → Option Fault
  | .ok _ => none
  | .error fault => some fault

def first? (outcomes : List (Except Fault (Value ι))) : Option Fault := outcomes.findSome? of?

/-- What is wrong with a list of operands that does not end in `nil`. -/
def ofEnding? (limits : Limits) (ending : Value ι) : Option Fault :=
  if ending.isNil then none else some (ending.blame limits .improperTail)

@[simp]
lemma first?_nil : first? ([] : List (Except Fault (Value ι))) = none := rfl

@[simp]
lemma first?_ok (v : Value ι) (outcomes : List (Except Fault (Value ι))) :
    first? (.ok v :: outcomes) = first? outcomes := rfl

@[simp]
lemma first?_error (fault : Fault) (outcomes : List (Except Fault (Value ι))) :
    first? (.error fault :: outcomes) = some fault := rfl

@[simp]
lemma first?_append (outcomes others : List (Except Fault (Value ι))) :
    first? (outcomes ++ others) = (first? outcomes).or (first? others) :=
  List.findSome?_append

@[simp]
lemma ofEnding?_nil (limits : Limits) : ofEnding? limits (.nil : Value ι) = none := rfl

lemma first?_eq_none {outcomes : List (Except Fault (Value ι))} :
    first? outcomes = none ↔ ∀ fault, .error fault ∉ outcomes := by
  rw [first?, List.findSome?_eq_none_iff]
  constructor
  · intro h fault hmem
    cases h _ hmem
  · intro h outcome hmem
    cases outcome with
    | ok v => rfl
    | error fault => exact absurd hmem (h fault)

end Fault

/-- The outcome of a list: what is wrong with it, or the values of all operands. -/
def conclude (fault? : Option Fault) (outcomes : List (Except Fault (Value ι))) :
    Except Fault (List (Value ι)) :=
  match fault? with
  | some fault => .error fault
  | none => .ok (outcomes.filterMap Except.toOption)

def Report.outcomes (way : Way) (reports : List (Report ι)) : List (Except Fault (Value ι)) :=
  (reports.filter (·.way = way)).map Report.outcome

/-- What is wrong with operands that are shared out: the first of all counts before the end of the
list, and the others that the thread evaluates itself before those that other tasks do. -/
def sharedFault? (limits : Limits) (ending : Value ι) : List (Report ι) → Option Fault
  | [] => Fault.ofEnding? limits ending
  | first :: others =>
    (Fault.of? first.outcome).or <| (Fault.ofEnding? limits ending).or <|
      (Fault.first? (Report.outcomes .inline others)).or
        (Fault.first? (Report.outcomes .forked others))

def sharedVerdict (limits : Limits) (ending : Value ι) (reports : List (Report ι)) :
    Except Fault (List (Value ι)) :=
  conclude (sharedFault? limits ending reports) (reports.map Report.outcome)

/-- How many operands behind the first are started: none behind one that fails where the thread
evaluates it itself. -/
def Report.reach : List (Report ι) → Nat
  | [] => 0
  | ⟨.inline, .error _⟩ :: _ => 1
  | _ :: reports => reach reports + 1

/-- How many operands are started when they are shared out. -/
def sharedExtent (ending : Value ι) : List (Report ι) → Nat
  | [] => 0
  | first :: others =>
    if (Fault.of? first.outcome).isSome ∨ ¬ ending.isNil then 1 else Report.reach others + 1

namespace Report

variable {fault : Fault} {reports before after : List (Report ι)}

@[simp]
lemma outcomes_append (way : Way) (before after : List (Report ι)) :
    outcomes way (before ++ after) = outcomes way before ++ outcomes way after := by
  simp [outcomes]

@[simp]
lemma outcomes_cons_self (way : Way) (outcome : Except Fault (Value ι))
    (reports : List (Report ι)) :
    outcomes way (⟨way, outcome⟩ :: reports) = outcome :: outcomes way reports := by
  simp [outcomes]

lemma outcomes_cons_of_ne {report : Report ι} {way : Way} (h : report.way ≠ way)
    (reports : List (Report ι)) : outcomes way (report :: reports) = outcomes way reports := by
  simp [outcomes, h]

lemma mem_outcomes {way : Way} {outcome : Except Fault (Value ι)} :
    outcome ∈ outcomes way reports ↔ ⟨way, outcome⟩ ∈ reports := by
  simp only [outcomes, List.mem_map, List.mem_filter, decide_eq_true_eq]
  constructor
  · rintro ⟨⟨_, _⟩, ⟨hmem, rfl⟩, rfl⟩
    exact hmem
  · intro hmem
    exact ⟨_, ⟨hmem, rfl⟩, rfl⟩

lemma reach_append (h : Fault.first? (outcomes .inline before) = none) (after : List (Report ι)) :
    reach (before ++ after) = before.length + reach after := by
  induction before with
  | nil => simp
  | cons report before ih =>
    rcases report with ⟨way, outcome⟩
    cases way with
    | inline =>
      cases outcome with
      | error fault => simp at h
      | ok v =>
        rw [outcomes_cons_self, Fault.first?_ok] at h
        simp only [List.cons_append, reach, ih h, List.length_cons]
        omega
    | forked =>
      rw [outcomes_cons_of_ne (by simp)] at h
      simp only [List.cons_append, reach, ih h, List.length_cons]
      omega

end Report

section Shared

variable {limits : Limits} {ending : Value ι} {fault : Fault} {others before : List (Report ι)}

lemma sharedVerdict_of_ending (limits : Limits) (h : ¬ ending.isNil) (v : Value ι)
    (others : List (Report ι)) :
    sharedVerdict limits ending (⟨.inline, .ok v⟩ :: others) =
      .error (ending.blame limits .improperTail) := by
  simp [sharedVerdict, sharedFault?, Fault.of?, Fault.ofEnding?, conclude, h]

lemma sharedVerdict_of_inline (limits : Limits) (v : Value ι)
    (h : Fault.first? (Report.outcomes .inline before) = none) (fault : Fault)
    (after : List (Report ι)) :
    sharedVerdict limits .nil (⟨.inline, .ok v⟩ :: (before ++ ⟨.inline, .error fault⟩ :: after)) =
      .error fault := by
  simp [sharedVerdict, sharedFault?, Fault.of?, conclude, h]

lemma sharedVerdict_of_forked (limits : Limits) (v : Value ι)
    (hinline : Fault.first? (Report.outcomes .inline others) = none)
    (h : Fault.first? (Report.outcomes .forked others) = some fault) :
    sharedVerdict limits .nil (⟨.inline, .ok v⟩ :: others) = .error fault := by
  simp [sharedVerdict, sharedFault?, Fault.of?, conclude, hinline, h]

lemma sharedVerdict_of_values (limits : Limits) (v : Value ι) {values : List (Value ι)}
    (h : others.map Report.outcome = values.map .ok) :
    sharedVerdict limits .nil (⟨.inline, .ok v⟩ :: others) = .ok (v :: values) := by
  have hnone (way : Way) : Fault.first? (Report.outcomes way others) = none := by
    refine Fault.first?_eq_none.mpr fun fault hmem => ?_
    have hfault := List.mem_map_of_mem (f := Report.outcome) (Report.mem_outcomes.mp hmem)
    simp [h] at hfault
  have hvalues : (values.map Except.ok).filterMap (Except.toOption (ε := Fault)) = values := by
    simp [List.filterMap_map, Function.comp_def, Except.toOption]
  simp [sharedVerdict, sharedFault?, Fault.of?, conclude, hnone, h, hvalues, Except.toOption]

lemma sharedExtent_of_value (v : Value ι) (others : List (Report ι)) :
    sharedExtent .nil (⟨.inline, .ok v⟩ :: others) = Report.reach others + 1 := rfl

end Shared

namespace State

variable [Marking ι]

@[simp]
lemma elements_chain (values : List (Value ι)) (tail : Value ι) (s : State ι) :
    (chain values tail s).1.elements = values.reverse ++ tail.elements := by
  induction values generalizing tail s with
  | nil => rfl
  | cons v values ih => simp [chain, ih, cons]

@[simp]
lemma ending_chain (values : List (Value ι)) (tail : Value ι) (s : State ι) :
    (chain values tail s).1.ending = tail.ending := by
  induction values generalizing tail s with
  | nil => rfl
  | cons v values ih => exact ih _ _

end State

section InOrder

variable [DecidableEq ι] [Marking ι]

/-- Expressions that are evaluated one after the other, up to the first that fails: their outcomes,
and the state they leave behind. -/
inductive InTurn (limits : Limits) (env : Env ι) :
    List (Value ι) → State ι → List (Except Fault (Value ι)) → State ι → Prop where
  | nil (s : State ι) : InTurn limits env [] s [] s
  | ok {e v : Value ι} {exprs : List (Value ι)} {outcomes : List (Except Fault (Value ι))}
      {s s₁ s' : State ι} (evaluates : Evaluates limits e env s (.ok v) s₁)
      (others : InTurn limits env exprs s₁ outcomes s') :
      InTurn limits env (e :: exprs) s (.ok v :: outcomes) s'
  | error {e : Value ι} {fault : Fault} {s s' : State ι}
      (failed : Evaluates limits e env s (.error fault) s') (exprs : List (Value ι)) :
      InTurn limits env (e :: exprs) s [.error fault] s'

namespace Machine

variable {limits : Limits} {env : Env ι} {rest : Value ι} {values : List (Value ι)}
  {s s' : State ι} {fuel : Nat}

omit [DecidableEq ι] in
/-- Behind the last operand the list of their values is made, unless it does not end in `nil`. -/
lemma nextOperand_of_ending (limits : Limits) (values : List (Value ι)) (hrest : rest.elements = [])
    (env : Env ι) (purpose : Purpose) (stack : List (Cont ι)) (s : State ι) :
    nextOperand limits values rest env purpose stack s =
      if rest.ending.isNil then
        finish limits purpose (State.chain values .nil s).1 stack (State.chain values .nil s).2
      else fail (rest.ending.blame limits .improperTail) stack s := by
  cases rest with
  | pair mark car cdr =>
    rw [Value.elements_pair] at hrest
    cases hrest
  | _ => rfl

end Machine

end InOrder

end Evlis
