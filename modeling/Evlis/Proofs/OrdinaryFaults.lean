import Evlis.Proofs.Demand

/-!
# Ordinary faults

What goes wrong in forms, in primitives and in printing is never about a program text, the bindings
of a frame that has them already, a crew, or a name without a value. A fault of a primitive is about
the primitive itself, unless its arguments are no list or one of them cannot be printed.
-/

namespace Evlis

/-- Faults of forms, of primitives and of printing: neither about a program text, nor about
installing bindings, nor about a crew. -/
def Fault.IsOrdinary : Fault → Prop
  | unreadable _ | frameFilled | crewClosed | noThread | noWorkers | tooManyReleases => False
  | _ => True

lemma Fault.IsOrdinary.ne_frameFilled {fault : Fault} (h : fault.IsOrdinary) :
    fault ≠ .frameFilled := by
  rintro rfl
  exact h

/-- Ordinary faults that are neither about the shape of a list nor about values from outside; an
operand is refused for its digits only if they are too many. -/
def Fault.IsPlain : Fault → Prop
  | improperTail _ | cannotEvaluate _ | cannotPrint _ => False
  | operandDigits digits => Text.digitLimit < digits
  | fault => fault.IsOrdinary

/-- Ordinary faults that are not about a name without a value, which only looking it up brings
about. -/
def Fault.IsLocal : Fault → Prop
  | unbound _ => False
  | fault => fault.IsOrdinary

lemma Fault.IsLocal.isOrdinary {fault : Fault} (h : fault.IsLocal) : fault.IsOrdinary := by
  cases fault <;> first | exact h | trivial

/-- Faults that are both plain and local. -/
def Fault.IsOwn : Fault → Prop
  | unbound _ => False
  | fault => fault.IsPlain

lemma Fault.IsOwn.isPlain {fault : Fault} (h : fault.IsOwn) : fault.IsPlain := by
  cases fault <;> first | exact h | trivial

lemma Fault.IsOwn.isLocal {fault : Fault} (h : fault.IsOwn) : fault.IsLocal := by
  cases fault <;> first | exact h | trivial

namespace Value

variable {ι : Type}

lemma isLocal_of_obstacle {room : Option Nat} {v : Value ι} {fault : Fault}
    (h : v.obstacle room = some fault) : fault.IsLocal := by
  induction v generalizing room with
  | atom name => simp [obstacle] at h
  | pair mark car cdr ihCar ihCdr =>
    rw [obstacle] at h
    split at h
    · cases h
      trivial
    · split at h
      · rename_i found
        cases h
        exact ihCar found
      · exact ihCdr h
  | closure mark lambda formals body env ihLambda _ _ => exact ihLambda h
  | «foreign» n =>
    cases h
    trivial

lemma isLocal_of_print {limits : Limits} {v : Value ι} {fault : Fault}
    (h : v.print limits = .error fault) : fault.IsLocal := by
  unfold print at h
  split at h
  · rename_i found
    cases h
    exact isLocal_of_obstacle found
  · cases h

lemma isLocal_of_display {limits : Limits} {v : Value ι} {fault : Fault}
    (h : v.display limits = .error fault) : fault.IsLocal := by
  unfold display at h
  split at h
  · cases h
  · exact isLocal_of_print h

lemma isLocal_of_represent {limits : Limits} {v : Value ι} {fault : Fault}
    (h : v.represent limits = .error fault) : fault.IsLocal := by
  unfold represent at h
  split at h
  · cases h
  · rename_i mark car cdr
    cases hp : (Value.pair mark car cdr).print limits with
    | ok shown => simp [hp, Except.map] at h
    | error obstacle =>
      rw [hp] at h
      cases h
      exact isLocal_of_print hp
  · exact isLocal_of_display h

lemma isLocal_blame {limits : Limits} {v : Value ι} {fault : String → Fault}
    (h : ∀ shown, (fault shown).IsLocal) : (v.blame limits fault).IsLocal := by
  unfold blame
  split
  · exact h _
  · rename_i found
    exact isLocal_of_display found

lemma isLocal_of_toList {limits : Limits} {v : Value ι} {fault : Fault}
    (h : v.toList limits = .error fault) : fault.IsLocal := by
  unfold toList at h
  split at h
  · cases h
  · cases h
    exact isLocal_blame fun _ => trivial

lemma print_of_display {limits : Limits} {v : Value ι} {fault : Fault}
    (h : v.display limits = .error fault) : v.print limits = .error fault := by
  unfold display at h
  split at h
  · cases h
  · exact h

/-- The fault is about something else, or what keeps the value from being printed. -/
def MayCause (limits : Limits) (v : Value ι) (fault : Fault) : Prop :=
  fault.IsOwn ∨ v.print limits = .error fault

lemma mayCause_blame {limits : Limits} {v : Value ι} {fault : String → Fault}
    (h : ∀ shown, (fault shown).IsOwn) : v.MayCause limits (v.blame limits fault) := by
  unfold blame
  split
  · exact .inl (h _)
  · rename_i found
    exact .inr (print_of_display found)

end Value

namespace Primitive

variable {ι : Type} {limits : Limits} {v w : Value ι} {s : State ι} {fault : Fault}

lemma isOwn_of_toInt {name : String} (h : Name.toInt name = .error fault) : fault.IsOwn := by
  unfold Name.toInt at h
  split at h
  · cases h
  · rename_i many
    cases h
    exact Nat.lt_of_not_le many

lemma isOwn_of_resolve {name : String} (h : resolve name = .error fault) : fault.IsOwn := by
  unfold resolve at h
  split at h
  · cases h
  · split at h
    · split at h
      · rename_i found
        cases h
        exact isOwn_of_toInt found
      · split at h
        · cases h
        · cases h
          trivial
    · cases h
      trivial

lemma mayCause_of_operand {operation : String} (h : operand limits operation v = .error fault) :
    v.MayCause limits fault := by
  unfold operand at h
  split at h
  · split at h
    · exact .inl (isOwn_of_toInt h)
    · cases h
      exact .inl trivial
  · cases h
    exact Value.mayCause_blame fun _ => trivial

lemma mayCause_of_operands {operation : String}
    (h : operands limits operation v w = .error fault) :
    v.MayCause limits fault ∨ w.MayCause limits fault := by
  unfold operands at h
  split at h
  · rename_i found
    cases h
    exact .inl (mayCause_of_operand found)
  · split at h
    · rename_i found
      cases h
      exact .inr (mayCause_of_operand found)
    · cases h

lemma isOwn_of_compute {operation : Arithmetic} {m n : Int}
    (h : operation.compute m n = .error fault) : fault.IsOwn := by
  cases operation with
  | div =>
    simp only [Arithmetic.compute] at h
    split at h
    · cases h
      trivial
    · cases h
  | _ => cases h

lemma mayCause_of_calculate {operation : Arithmetic}
    (h : calculate limits operation v w = .error fault) :
    v.MayCause limits fault ∨ w.MayCause limits fault := by
  unfold calculate at h
  split at h
  · rename_i found
    cases h
    exact mayCause_of_operands found
  · split at h
    · rename_i found
      cases h
      exact .inl (.inl (isOwn_of_compute found))
    · unfold Name.ofInt at h
      split at h
      · cases h
      · cases h
        exact .inl (.inl trivial)

lemma mayCause_of_compare {order : Comparison} (h : compare limits order v w = .error fault) :
    v.MayCause limits fault ∨ w.MayCause limits fault := by
  unfold compare at h
  split at h
  · rename_i found
    cases h
    exact mayCause_of_operands found
  · cases h

lemma mayCause_of_equals (h : equals limits v w = .error fault) :
    v.MayCause limits fault ∨ w.MayCause limits fault := by
  unfold equals at h
  split at h
  · cases h
  · split at h
    · cases h
      exact .inl (.inl trivial)
    · rename_i found
      cases h
      exact .inl (.inr (Value.print_of_display found))
    · rename_i found _
      cases h
      exact .inr (.inr (Value.print_of_display found))

lemma mayCause_of_performUnary {operation : Unary}
    (h : (performUnary limits operation v s).1 = .error fault) : v.MayCause limits fault := by
  cases operation with
  | car =>
    cases v with
    | pair mark car cdr => cases h
    | _ =>
      cases h
      exact Value.mayCause_blame fun _ => trivial
  | cdr =>
    cases v with
    | pair mark car cdr => cases h
    | _ =>
      cases h
      exact Value.mayCause_blame fun _ => trivial
  | atom => cases h
  | null => cases h
  | print =>
    unfold performUnary at h
    dsimp only at h
    split at h
    · cases h
    · rename_i found
      cases h
      exact .inr found
  | select index =>
    unfold performUnary at h
    dsimp only at h
    split at h
    · cases h
    · cases h
      exact Value.mayCause_blame fun _ => trivial

lemma mayCause_of_performBinary [Marking ι] {operation : Binary}
    (h : (performBinary limits operation v w s).1 = .error fault) :
    v.MayCause limits fault ∨ w.MayCause limits fault := by
  cases operation with
  | equals => exact mayCause_of_equals h
  | arithmetic operation => exact mayCause_of_calculate h
  | comparison order => exact mayCause_of_compare h
  | _ => cases h

/-- A primitive fails for reasons of its own, or because its arguments are no list, or because one
of them cannot be printed. -/
lemma mayCause_of_apply [Marking ι] {name : String} {arguments : Value ι}
    (h : (apply limits name arguments s).1 = .error fault) :
    fault.IsOwn ∨ arguments.toList limits = .error fault ∨
      ∃ v ∈ arguments.elements, v.print limits = .error fault := by
  unfold apply find at h
  split at h
  · rename_i found
    cases h
    split at found
    · cases found
    · cases found
      exact .inl trivial
    · rename_i resolved
      cases found
      exact .inl (isOwn_of_resolve resolved)
  · split at h
    · rename_i listed
      cases h
      exact .inr (.inl listed)
    · rename_i values listed
      rw [Value.elements_of_toList listed]
      split at h
      · rcases mayCause_of_performUnary h with plain | unprinted
        · exact .inl plain
        · exact .inr (.inr ⟨_, by simp, unprinted⟩)
      · rcases mayCause_of_performBinary h with (plain | unprinted) | plain | unprinted
        · exact .inl plain
        · exact .inr (.inr ⟨_, by simp, unprinted⟩)
        · exact .inl plain
        · exact .inr (.inr ⟨_, by simp, unprinted⟩)
      · cases h
        exact .inl trivial

lemma isLocal_of_apply [Marking ι] {name : String} {arguments : Value ι}
    (h : (apply limits name arguments s).1 = .error fault) : fault.IsLocal := by
  rcases mayCause_of_apply h with own | listed | ⟨v, -, unprinted⟩
  · exact own.isLocal
  · exact Value.isLocal_of_toList listed
  · exact Value.isLocal_of_print unprinted

end Primitive

variable {ι : Type}

lemma State.isOrdinary_of_lookup [DecidableEq ι] {limits : Limits} {s : State ι} {env : Env ι}
    {name : Value ι} {fault : Fault} (h : s.lookup limits env name = .error fault) :
    fault.IsOrdinary := by
  unfold lookup at h
  split at h
  · cases h
  · cases h
    unfold Value.blame
    split
    · trivial
    · rename_i found
      exact (Value.isLocal_of_display found).isOrdinary

lemma Demand.isLocal_of_ofLambda {limits : Limits} {tail formals body : Value ι}
    {fault : Fault} (h : ofLambda limits tail formals body = .done (.error fault)) :
    fault.IsLocal := by
  unfold ofLambda at h
  split at h
  · cases h
    exact Value.isLocal_blame fun _ => trivial
  · split at h
    · cases h
    · cases h
      exact Value.isLocal_blame fun _ => trivial

lemma Demand.isLocal_of_ofForm {limits : Limits} {form : Form} {tail : Value ι} {fault : Fault}
    (h : ofForm limits form tail = .done (.error fault)) : fault.IsLocal := by
  unfold ofForm at h
  split at h
  · cases h
  · split at h
    · rename_i listed
      cases h
      exact Value.isLocal_of_toList listed
    · split at h
      case h_4 => exact isLocal_of_ofLambda h
      case h_6 =>
        cases h
        trivial
      all_goals cases h

/-- An expression is at fault for its own form, unless it is a name that is looked up. -/
lemma Demand.cause_of_ofExpr {limits : Limits} {lookup : Value ι → Except Fault (Value ι)}
    {e : Value ι} {fault : Fault} (h : ofExpr limits lookup e = .done (.error fault)) :
    fault.IsLocal ∨ ∃ name, e = .atom name ∧ Name.isInteger name = false ∧
      lookup (.atom name) = .error fault := by
  unfold ofExpr at h
  split at h
  · rename_i name
    simp only [Demand.done.injEq] at h
    split at h
    · cases h
    · rename_i hinteger
      exact .inr ⟨name, rfl, Bool.eq_false_iff.mpr hinteger, h⟩
  · split at h
    · exact .inl (isLocal_of_ofForm h)
    · cases h
  · cases h
  · refine .inl ?_
    cases hr : e.represent limits with
    | ok shown =>
      rw [hr] at h
      cases h
      trivial
    | error obstacle =>
      rw [hr] at h
      cases h
      exact Value.isLocal_of_represent hr

lemma Demand.isOrdinary_of_ofExpr {limits : Limits} {lookup : Value ι → Except Fault (Value ι)}
    (hl : ∀ {name fault}, lookup name = .error fault → fault.IsOrdinary) {e : Value ι}
    {fault : Fault} (h : ofExpr limits lookup e = .done (.error fault)) : fault.IsOrdinary := by
  rcases cause_of_ofExpr h with hlocal | ⟨name, -, -, hlookup⟩
  · exact hlocal.isOrdinary
  · exact hl hlookup

lemma Machine.isLocal_of_bindingParts {limits : Limits} {binding : Value ι} {fault : Fault}
    (h : bindingParts limits binding = .error fault) : fault.IsLocal := by
  unfold bindingParts at h
  split at h
  · exact Value.isLocal_of_toList h
  · cases h

lemma Binding.isLocal_of_next {limits : Limits} {b : Binding ι} {fault : Fault}
    (h : b.next limits = .error fault) : fault.IsLocal := by
  unfold next at h
  split at h
  · split at h
    · rename_i parts
      cases h
      exact Machine.isLocal_of_bindingParts parts
    · split at h
      · cases h
        exact Value.isLocal_blame fun _ => trivial
      · cases h
    · cases h
      exact Value.isLocal_blame fun _ => trivial
  · split at h
    · cases h
    · cases h
      exact Value.isLocal_blame fun _ => trivial

lemma Machine.isLocal_of_extendEnv [Marking ι] {limits : Limits}
    {closure formals arguments : Value ι} {env : Env ι} {s s₁ : State ι} {fault : Fault}
    (h : extendEnv limits closure formals arguments env s = (.error fault, s₁)) :
    fault.IsLocal := by
  unfold extendEnv at h
  split at h
  · cases h
  · cases h
    exact Value.isLocal_blame fun _ => trivial

end Evlis
