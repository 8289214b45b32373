import Evlis.Primitive
import Evlis.Proofs.Numerals

/-!
# Exact arithmetic

An arithmetic operation or a comparison looks at its first operand, then at its second, and then
computes. The operands are names of integers; a result is the canonical name of the exact result.
`arithmetic_law` says which check is the first to fail, if one does, and what comes of it otherwise.
As results are canonical, `==`, which compares names, agrees on them with the order of the integers:
`computed_integers_compare_by_name`.
-/

namespace Evlis

variable {ι : Type}

/-- What comes of looking at an operand: it has to be an integer atom, and then to have few enough
digits. -/
inductive Inspected (limits : Limits) (operation : String) (v : Value ι) :
    Except Fault Int → Prop where
  | other (h : ∀ name count n, v = .atom name → ¬ Name.Denotes name count n) :
      Inspected limits operation v (.error (v.blame limits (.notInteger operation)))
  | digits {name : String} {count : Nat} {n : Int} (atom : v = .atom name)
      (denotes : Name.Denotes name count n) (many : 4300 < count) :
      Inspected limits operation v (.error (.operandDigits count))
  | integer {name : String} {count : Nat} {n : Int} (atom : v = .atom name)
      (denotes : Name.Denotes name count n) (few : count ≤ 4300) :
      Inspected limits operation v (.ok n)

/-- What comes of looking at two operands, the second only if the first has passed. -/
inductive InspectedBoth (limits : Limits) (operation : String) (v w : Value ι) :
    Except Fault (Int × Int) → Prop where
  | first {fault : Fault} (refused : Inspected limits operation v (.error fault)) :
      InspectedBoth limits operation v w (.error fault)
  | second {m : Int} {fault : Fault} (passed : Inspected limits operation v (.ok m))
      (refused : Inspected limits operation w (.error fault)) :
      InspectedBoth limits operation v w (.error fault)
  | both {m n : Int} (first : Inspected limits operation v (.ok m))
      (second : Inspected limits operation w (.ok n)) :
      InspectedBoth limits operation v w (.ok (m, n))

/-- The exact result. What a quotient leaves over is smaller than the divisor, and is zero or has
the sign of the dividend. -/
inductive Arithmetic.Exact (m n : Int) : Arithmetic → Int → Prop where
  | add : Exact m n .add (m + n)
  | sub : Exact m n .sub (m - n)
  | mul : Exact m n .mul (m * n)
  | div {q r : Int} (split : m = q * n + r) (small : r.natAbs < n.natAbs)
      (side : r = 0 ∨ r.sign = m.sign) : Exact m n .div q

/-- What comes of an arithmetic operation: behind the operands, the divisor is checked, and then the
digits of the result. -/
inductive Arithmetic.Verdict (limits : Limits) (operation : Arithmetic) (v w : Value ι) :
    Except Fault (Value ι) → Prop where
  | refused {fault : Fault}
      (inspected : InspectedBoth limits operation.symbol v w (.error fault)) :
      Verdict limits operation v w (.error fault)
  | zero {m : Int} (isDiv : operation = .div)
      (inspected : InspectedBoth limits operation.symbol v w (.ok (m, 0))) :
      Verdict limits operation v w (.error .divisionByZero)
  | long {m n r : Int} {name : String} {count : Nat}
      (inspected : InspectedBoth limits operation.symbol v w (.ok (m, n)))
      (exact : operation.Exact m n r) (canonical : Name.IsCanonical name)
      (denotes : Name.Denotes name count r) (many : 4300 < count) :
      Verdict limits operation v w (.error .resultDigits)
  | result {m n r : Int} {name : String} {count : Nat}
      (inspected : InspectedBoth limits operation.symbol v w (.ok (m, n)))
      (exact : operation.Exact m n r) (canonical : Name.IsCanonical name)
      (denotes : Name.Denotes name count r) (few : count ≤ 4300) :
      Verdict limits operation v w (.ok (.atom name))

def Comparison.Relates (m n : Int) : Comparison → Prop
  | less => m < n
  | greater => m > n

instance (m n : Int) : (order : Comparison) → Decidable (order.Relates m n)
  | .less => inferInstanceAs (Decidable (m < n))
  | .greater => inferInstanceAs (Decidable (n < m))

inductive Comparison.Verdict (limits : Limits) (order : Comparison) (v w : Value ι) :
    Except Fault (Value ι) → Prop where
  | refused {fault : Fault} (inspected : InspectedBoth limits order.symbol v w (.error fault)) :
      Verdict limits order v w (.error fault)
  | yes {m n : Int} (inspected : InspectedBoth limits order.symbol v w (.ok (m, n)))
      (relates : order.Relates m n) : Verdict limits order v w (.ok .t)
  | no {m n : Int} (inspected : InspectedBoth limits order.symbol v w (.ok (m, n)))
      (unrelated : ¬ order.Relates m n) : Verdict limits order v w (.ok .nil)

namespace Primitive

variable {limits : Limits} {operation : String} {v w : Value ι}

lemma operand_of_denotes {name : String} {count : Nat} {n : Int}
    (h : Name.Denotes name count n) (limits : Limits) (operation : String) :
    operand limits operation (.atom name : Value ι) =
      if count ≤ 4300 then .ok n else .error (.operandDigits count) := by
  obtain ⟨hinteger, -⟩ := Name.denotes_iff.mp h
  rw [operand, if_pos hinteger, Name.toInt_of_denotes h]

lemma operand_of_other (h : ∀ name count n, v = .atom name → ¬ Name.Denotes name count n) :
    operand limits operation v = .error (v.blame limits (.notInteger operation)) := by
  cases v with
  | atom name =>
    have hinteger : ¬ Name.isInteger name = true := by
      intro hinteger
      exact h name _ _ rfl (Name.denotes_iff.mpr ⟨hinteger, rfl, rfl⟩)
    rw [operand, if_neg hinteger]
    rfl
  | _ => rfl

theorem operand_eq_iff {r : Except Fault Int} :
    operand limits operation v = r ↔ Inspected limits operation v r := by
  constructor
  · rintro rfl
    by_cases hinteger : ∃ name count n, v = .atom name ∧ Name.Denotes name count n
    · obtain ⟨name, count, n, rfl, hdenotes⟩ := hinteger
      rw [operand_of_denotes hdenotes]
      by_cases hfew : count ≤ 4300
      · rw [if_pos hfew]
        exact .integer rfl hdenotes hfew
      · rw [if_neg hfew]
        exact .digits rfl hdenotes (by omega)
    · have hother : ∀ name count n, v = .atom name → ¬ Name.Denotes name count n :=
        fun name count n hv hdenotes => hinteger ⟨name, count, n, hv, hdenotes⟩
      rw [operand_of_other hother]
      exact .other hother
  · intro h
    cases h with
    | other h => exact operand_of_other h
    | digits atom denotes many =>
      subst atom
      rw [operand_of_denotes denotes, if_neg (by omega)]
    | integer atom denotes few =>
      subst atom
      rw [operand_of_denotes denotes, if_pos few]

theorem operands_eq_iff {r : Except Fault (Int × Int)} :
    operands limits operation v w = r ↔ InspectedBoth limits operation v w r := by
  constructor
  · rintro rfl
    unfold operands
    split
    · rename_i fault hv
      exact .first (operand_eq_iff.mp hv)
    · rename_i m hv
      split
      · rename_i fault hw
        exact .second (operand_eq_iff.mp hv) (operand_eq_iff.mp hw)
      · rename_i n hw
        exact .both (operand_eq_iff.mp hv) (operand_eq_iff.mp hw)
  · intro h
    cases h with
    | first refused => rw [operands, operand_eq_iff.mpr refused]
    | second passed refused =>
      simp only [operands, operand_eq_iff.mpr passed, operand_eq_iff.mpr refused]
    | both first second =>
      simp only [operands, operand_eq_iff.mpr first, operand_eq_iff.mpr second]

end Primitive

namespace Arithmetic

/-- Division rounds toward zero: what it leaves over is on the side of the dividend. -/
lemma exact_tdiv {m n : Int} (hn : n ≠ 0) : Exact m n .div (m.tdiv n) := by
  refine .div (Int.tdiv_mul_add_tmod m n).symm ?_ ?_
  · rw [Int.natAbs_tmod]
    exact Nat.mod_lt _ (Int.natAbs_pos.mpr hn)
  · have hsign := Int.sign_tmod m n
    by_cases hdvd : n ∣ m
    · left
      rwa [if_pos hdvd, Int.sign_eq_zero_iff_zero] at hsign
    · right
      rwa [if_neg hdvd] at hsign

/-- The quotient and what it leaves over are determined by the dividend and the divisor. -/
lemma tdiv_eq_of_split {m n q r : Int} (split : m = q * n + r) (small : r.natAbs < n.natAbs)
    (side : r = 0 ∨ r.sign = m.sign) : m.tdiv n = q := by
  have hn : n ≠ 0 := by omega
  have hsum : r + n * q = m := by
    rw [split, Int.mul_comm n q, Int.add_comm]
  by_cases hm : 0 ≤ m
  · have hr : 0 ≤ r := by
      rcases side with rfl | hsign
      · exact Int.le_refl 0
      · rwa [← Int.sign_nonneg_iff, hsign, Int.sign_nonneg_iff]
    exact ((Int.tdiv_tmod_unique hm hn).mpr ⟨hsum, hr, by omega⟩).1
  · have hr : r ≤ 0 := by
      rcases side with rfl | hsign
      · exact Int.le_refl 0
      · rw [← Int.sign_nonpos_iff, hsign, Int.sign_nonpos_iff]
        omega
    exact ((Int.tdiv_tmod_unique' (by omega) hn).mpr ⟨hsum, by omega, hr⟩).1

theorem compute_eq_iff {operation : Arithmetic} {m n : Int} {r : Except Fault Int} :
    operation.compute m n = r ↔
      (operation = .div ∧ n = 0 ∧ r = .error .divisionByZero) ∨
        ∃ result, operation.Exact m n result ∧ r = .ok result := by
  constructor
  · rintro rfl
    cases operation with
    | div =>
      by_cases hn : n = 0
      · exact .inl ⟨rfl, hn, if_pos hn⟩
      · exact .inr ⟨_, exact_tdiv hn, if_neg hn⟩
    | add => exact .inr ⟨_, .add, rfl⟩
    | sub => exact .inr ⟨_, .sub, rfl⟩
    | mul => exact .inr ⟨_, .mul, rfl⟩
  · rintro (⟨rfl, rfl, rfl⟩ | ⟨result, hexact, rfl⟩)
    · rfl
    · cases hexact with
      | div split small side =>
        rw [compute, if_neg (by omega), tdiv_eq_of_split split small side]
      | _ => rfl

end Arithmetic

namespace Primitive

variable {limits : Limits} {v w : Value ι} {outcome : Except Fault (Value ι)}

theorem calculate_eq_iff {operation : Arithmetic} :
    calculate limits operation v w = outcome ↔ operation.Verdict limits v w outcome := by
  constructor
  · rintro rfl
    unfold calculate
    split
    · rename_i fault hoperands
      exact .refused (operands_eq_iff.mp hoperands)
    · rename_i m n hoperands
      have hinspected := operands_eq_iff.mp hoperands
      rcases Arithmetic.compute_eq_iff.mp (rfl : operation.compute m n = _) with
        ⟨rfl, rfl, hcompute⟩ | ⟨r, hexact, hcompute⟩
      · rw [hcompute]
        exact .zero rfl hinspected
      · rw [hcompute]
        obtain ⟨name, count, hcanonical, hdenotes, hname⟩ := Name.ofInt_eq_iff.mp (rfl : _ = _)
        dsimp only
        rw [hname]
        by_cases hfew : count ≤ 4300
        · rw [if_pos hfew]
          exact .result hinspected hexact hcanonical hdenotes hfew
        · rw [if_neg hfew]
          exact .long hinspected hexact hcanonical hdenotes (by omega)
  · intro h
    cases h with
    | refused inspected => rw [calculate, operands_eq_iff.mpr inspected]
    | zero isDiv inspected =>
      subst isDiv
      rw [calculate, operands_eq_iff.mpr inspected]
      rfl
    | long inspected exact canonical denotes many =>
      have hcompute := Arithmetic.compute_eq_iff.mpr (.inr ⟨_, exact, rfl⟩)
      have hname := Name.ofInt_eq_iff.mpr ⟨_, _, canonical, denotes, rfl⟩
      rw [if_neg (by omega)] at hname
      simp only [calculate, operands_eq_iff.mpr inspected, hcompute, hname]
      rfl
    | result inspected exact canonical denotes few =>
      have hcompute := Arithmetic.compute_eq_iff.mpr (.inr ⟨_, exact, rfl⟩)
      have hname := Name.ofInt_eq_iff.mpr ⟨_, _, canonical, denotes, rfl⟩
      rw [if_pos few] at hname
      simp only [calculate, operands_eq_iff.mpr inspected, hcompute, hname]
      rfl

lemma holds_eq_decide (order : Comparison) (m n : Int) :
    order.holds m n = decide (order.Relates m n) := by
  cases order <;> rfl

theorem compare_eq_iff {order : Comparison} :
    compare limits order v w = outcome ↔ order.Verdict limits v w outcome := by
  constructor
  · rintro rfl
    unfold compare
    split
    · rename_i fault hoperands
      exact .refused (operands_eq_iff.mp hoperands)
    · rename_i m n hoperands
      have hinspected := operands_eq_iff.mp hoperands
      rw [holds_eq_decide]
      by_cases hrelates : order.Relates m n
      · rw [decide_eq_true hrelates]
        exact .yes hinspected hrelates
      · rw [decide_eq_false hrelates]
        exact .no hinspected hrelates
  · intro h
    cases h with
    | refused inspected => rw [compare, operands_eq_iff.mpr inspected]
    | yes inspected relates =>
      simp only [compare, operands_eq_iff.mpr inspected, holds_eq_decide, decide_eq_true relates]
      rfl
    | no inspected unrelated =>
      simp only [compare, operands_eq_iff.mpr inspected, holds_eq_decide,
        decide_eq_false unrelated]
      rfl

lemma apply_arithmetic [Marking ι] (limits : Limits) (operation : Arithmetic) (i j : ι)
    (v w : Value ι) (s : State ι) :
    apply limits operation.symbol (.pair i v (.pair j w .nil)) s =
      (calculate limits operation v w, s) := by
  cases operation <;> rfl

lemma apply_comparison [Marking ι] (limits : Limits) (order : Comparison) (i j : ι)
    (v w : Value ι) (s : State ι) :
    apply limits order.symbol (.pair i v (.pair j w .nil)) s = (compare limits order v w, s) := by
  cases order <;> rfl

end Primitive

namespace Value

/-- Atoms, pairs and closures, without any integer from outside in what is shown of them. -/
def IsNative : Value ι → Prop
  | .atom _ => True
  | .pair _ car cdr => car.IsNative ∧ cdr.IsNative
  | .closure _ lambda _ _ _ => lambda.IsNative
  | .foreign _ => False

/-- Two things keep a value from being shown: an integer from outside, and a limit to nesting. -/
lemma obstacle_cases {room : Option Nat} {v : Value ι} {fault : Fault}
    (h : v.obstacle room = some fault) :
    (¬ v.IsNative ∧ ∃ digits, fault = .cannotPrint digits) ∨ room ≠ none ∧ fault = .tooDeep := by
  induction v generalizing room with
  | atom name => cases h
  | pair mark car cdr ihCar ihCdr =>
    rw [obstacle] at h
    by_cases hroom : room = some 0
    · rw [if_pos hroom] at h
      cases h
      exact .inr ⟨by simp [hroom], rfl⟩
    · rw [if_neg hroom] at h
      split at h
      · rename_i found
        cases h
        rcases ihCar found with ⟨hforeign, hfault⟩ | ⟨hlimited, hfault⟩
        · exact .inl ⟨fun native => hforeign native.1, hfault⟩
        · exact .inr ⟨by simpa using hlimited, hfault⟩
      · rcases ihCdr h with ⟨hforeign, hfault⟩ | hlimited
        · exact .inl ⟨fun native => hforeign native.2, hfault⟩
        · exact .inr hlimited
  | closure mark lambda formals body env ihLambda _ _ => exact ihLambda h
  | «foreign» n =>
    cases h
    exact .inl ⟨id, _, rfl⟩

/-- The fault that shows a value is reported, or what keeps the value from being shown. -/
lemma blame_cases (limits : Limits) (v : Value ι) (fault : String → Fault) :
    (∃ shown, v.blame limits fault = fault shown) ∨
      (¬ v.IsNative ∧ ∃ digits, v.blame limits fault = .cannotPrint digits) ∨
      limits.nesting ≠ none ∧ v.blame limits fault = .tooDeep := by
  unfold blame
  split
  · exact .inl ⟨_, rfl⟩
  · rename_i obstacle hdisplay
    unfold display at hdisplay
    split at hdisplay
    · cases hdisplay
    · unfold print at hdisplay
      split at hdisplay
      · rename_i found
        cases hdisplay
        exact .inr (obstacle_cases found)
      · cases hdisplay

/-- An operand that is no integer is a value of the wrong type, unless it is nested too deeply to be
shown. -/
lemma kind_blame (limits : Limits) (v : Value ι) (operation : String) :
    (v.blame limits (.notInteger operation)).kind = .type ∨
      limits.nesting ≠ none ∧ v.blame limits (.notInteger operation) = .tooDeep := by
  rcases v.blame_cases limits (.notInteger operation) with
    ⟨shown, hfault⟩ | ⟨-, digits, hfault⟩ | htooDeep
  · exact .inl (congrArg Fault.kind hfault)
  · exact .inl (congrArg Fault.kind hfault)
  · exact .inr htooDeep

end Value

/-- What comes of an arithmetic operation and of a comparison, for any two operands: the first check
that fails says, and otherwise the result is exact. An operand that is no integer is reported as of
the wrong type, unless there is a limit to nesting and it is nested too deeply to be shown; too many
digits are reported as a wrong value. -/
theorem arithmetic_law [Marking ι] (limits : Limits) (i j : ι) (v w : Value ι) (s s' : State ι)
    (outcome : Except Fault (Value ι)) :
    (∀ operation : Arithmetic,
      Primitive.apply limits operation.symbol (.pair i v (.pair j w .nil)) s = (outcome, s') ↔
        operation.Verdict limits v w outcome ∧ s' = s) ∧
    (∀ order : Comparison,
      Primitive.apply limits order.symbol (.pair i v (.pair j w .nil)) s = (outcome, s') ↔
        order.Verdict limits v w outcome ∧ s' = s) ∧
    (∀ (u : Value ι) (operation : String),
      (u.blame limits (.notInteger operation)).kind = .type ∨
        limits.nesting ≠ none ∧ u.blame limits (.notInteger operation) = .tooDeep) ∧
    (∀ count, (Fault.operandDigits count).kind = .value) ∧ Fault.resultDigits.kind = .value ∧
    Fault.divisionByZero.kind = .zeroDivision := by
  refine ⟨?_, ?_, fun u operation => u.kind_blame limits operation, fun _ => rfl, rfl, rfl⟩
  · intro operation
    rw [Primitive.apply_arithmetic, Prod.mk.injEq, Primitive.calculate_eq_iff, eq_comm (a := s)]
  · intro order
    rw [Primitive.apply_comparison, Prod.mk.injEq, Primitive.compare_eq_iff, eq_comm (a := s)]

/-- A value that an arithmetic operation has given. -/
def Value.IsComputed [Marking ι] (limits : Limits) (a : Value ι) : Prop :=
  ∃ (operation : Arithmetic) (i j : ι) (v w : Value ι) (s s' : State ι),
    Primitive.apply limits operation.symbol (.pair i v (.pair j w .nil)) s = (.ok a, s')

lemma Value.IsComputed.exists_name [Marking ι] {limits : Limits} {a : Value ι}
    (h : a.IsComputed limits) :
    ∃ name count n, a = .atom name ∧ Name.IsCanonical name ∧ Name.Denotes name count n ∧
      count ≤ 4300 := by
  obtain ⟨operation, i, j, v, w, s, s', h⟩ := h
  rw [Primitive.apply_arithmetic, Prod.mk.injEq, Primitive.calculate_eq_iff] at h
  cases h.1 with
  | result inspected exact canonical denotes few => exact ⟨_, _, _, rfl, canonical, denotes, few⟩

namespace Primitive

variable {limits : Limits} {x y : String} {p q : Nat} {m n : Int}

lemma compare_of_denotes (order : Comparison) (hx : Name.Denotes x p m) (hp : p ≤ 4300)
    (hy : Name.Denotes y q n) (hq : q ≤ 4300) :
    compare limits order (.atom x : Value ι) (.atom y) =
      .ok (.truth (decide (order.Relates m n))) := by
  simp only [compare, operands, operand_of_denotes hx, operand_of_denotes hy, if_pos hp, if_pos hq,
    holds_eq_decide]

lemma fault_of_calculate (operation : Arithmetic) (hx : Name.Denotes x p m) (hp : p ≤ 4300)
    (hy : Name.Denotes y q n) (hq : q ≤ 4300) {fault : Fault}
    (h : calculate limits operation (.atom x : Value ι) (.atom y) = .error fault) :
    fault = .divisionByZero ∨ fault = .resultDigits := by
  have hoperands : operands limits operation.symbol (.atom x : Value ι) (.atom y) = .ok (m, n) := by
    simp only [operands, operand_of_denotes hx, operand_of_denotes hy, if_pos hp, if_pos hq]
  have hverdict := calculate_eq_iff.mp h
  cases hverdict with
  | refused inspected =>
    rw [operands_eq_iff.mpr inspected] at hoperands
    cases hoperands
  | zero isDiv inspected => exact .inl rfl
  | long inspected exact canonical denotes many => exact .inr rfl

end Primitive

lemma Value.truth_eq_t {flag : Bool} : (truth flag : Value ι) = t ↔ flag = true := by
  cases flag with
  | true => exact iff_of_true rfl rfl
  | false => simp [truth, t, nil]

/-- Names that are both canonical are the same just if they denote the same integer. -/
lemma Name.IsCanonical.eq_iff {x y : String} {p q : Nat} {m n : Int} (hx : IsCanonical x)
    (hy : IsCanonical y) (hm : Denotes x p m) (hn : Denotes y q n) : x = y ↔ m = n := by
  constructor
  · rintro rfl
    exact (hm.unique hn).2
  · rintro rfl
    rw [hx.eq_decimal hm, hy.eq_decimal hn]

namespace Comparison

lemma not_relates_self (order : Comparison) (n : Int) : ¬ order.Relates n n := by
  cases order <;> exact Int.lt_irrefl n

/-- Of two integers just one is less or greater, or they are equal. -/
lemma count_relates (m n : Int) :
    [decide (less.Relates m n), decide (greater.Relates m n), decide (m = n)].count true = 1 := by
  rcases Int.lt_trichotomy m n with h | rfl | h
  · have hgreater : ¬ greater.Relates m n := Int.lt_asymm h
    rw [decide_eq_true (show less.Relates m n from h), decide_eq_false hgreater,
      decide_eq_false (Int.ne_of_lt h)]
    rfl
  · rw [decide_eq_false (not_relates_self less m), decide_eq_false (not_relates_self greater m),
      decide_eq_true rfl]
    rfl
  · have hless : ¬ less.Relates m n := Int.lt_asymm h
    rw [decide_eq_false hless, decide_eq_true (show greater.Relates m n from h),
      decide_eq_false (Int.ne_of_lt h).symm]
    rfl

end Comparison

open Primitive in
/-- Results of arithmetic have canonical names and are taken as operands again, and of two of them
just one is less, greater or of the same name. Of any two integers with few enough digits, none is
less or greater if they have the same name, and one is less just if the other is greater. -/
theorem computed_integers_compare_by_name [Marking ι] (limits : Limits) (i j : ι) (s : State ι) :
    let outcome (name : String) (v w : Value ι) :=
      (apply limits name (.pair i v (.pair j w .nil)) s).1
    (∀ a : Value ι, a.IsComputed limits →
      (∃ name, a = .atom name ∧ Name.IsCanonical name) ∧
        ∃ n, ∀ operation, operand limits operation a = .ok n) ∧
    (∀ a b : Value ι, a.IsComputed limits → b.IsComputed limits →
      (∀ (operation : Arithmetic) fault, outcome operation.symbol a b = .error fault →
        fault = .divisionByZero ∨ fault = .resultDigits) ∧
      ∃ less greater equal : Bool,
        outcome "<" a b = .ok (.truth less) ∧ outcome ">" a b = .ok (.truth greater) ∧
        outcome "==" a b = .ok (.truth equal) ∧ [less, greater, equal].count true = 1) ∧
    ∀ (x y : String) (p q : Nat) (m n : Int), Name.Denotes x p m → p ≤ 4300 →
      Name.Denotes y q n → q ≤ 4300 →
      (outcome "==" (.atom x) (.atom y) = .ok .t →
        outcome "<" (.atom x) (.atom y) = .ok .nil ∧ outcome ">" (.atom x) (.atom y) = .ok .nil) ∧
      (outcome "<" (.atom x) (.atom y) = .ok .t ↔ outcome ">" (.atom y) (.atom x) = .ok .t) := by
  intro outcome
  have hcompare (order : Comparison) (v w : Value ι) :
      outcome order.symbol v w = compare limits order v w :=
    congrArg Prod.fst (apply_comparison limits order i j v w s)
  have hequals (x y : String) : outcome "==" (.atom x) (.atom y) = .ok (.truth (x == y)) := rfl
  refine ⟨?_, ?_, ?_⟩
  · intro a ha
    obtain ⟨name, count, n, rfl, hcanonical, hdenotes, hfew⟩ := ha.exists_name
    refine ⟨⟨name, rfl, hcanonical⟩, n, fun operation => ?_⟩
    rw [operand_of_denotes hdenotes, if_pos hfew]
  · intro a b ha hb
    obtain ⟨x, p, m, rfl, hx, hm, hp⟩ := ha.exists_name
    obtain ⟨y, q, n, rfl, hy, hn, hq⟩ := hb.exists_name
    refine ⟨?_, decide (Comparison.less.Relates m n), decide (Comparison.greater.Relates m n),
      x == y, ?_, ?_, hequals x y, ?_⟩
    · intro operation fault hfault
      have hcalculate : outcome operation.symbol (.atom x) (.atom y) = _ :=
        congrArg Prod.fst (apply_arithmetic limits operation i j (.atom x) (.atom y) s)
      rw [hcalculate] at hfault
      exact fault_of_calculate operation hm hp hn hq hfault
    · exact (hcompare .less _ _).trans (compare_of_denotes .less hm hp hn hq)
    · exact (hcompare .greater _ _).trans (compare_of_denotes .greater hm hp hn hq)
    · have hname : (x == y) = decide (m = n) := by
        rw [Bool.eq_iff_iff, beq_iff_eq, decide_eq_true_iff]
        exact hx.eq_iff hy hm hn
      rw [hname]
      exact Comparison.count_relates m n
  · intro x y p q m n hm hp hn hq
    have hless : ∀ v w : Value ι, outcome "<" v w = compare limits .less v w := hcompare .less
    have hgreater : ∀ v w : Value ι, outcome ">" v w = compare limits .greater v w :=
      hcompare .greater
    rw [hless, hgreater, hgreater, compare_of_denotes .less hm hp hn hq,
      compare_of_denotes .greater hm hp hn hq, compare_of_denotes .greater hn hq hm hp]
    refine ⟨?_, Iff.rfl⟩
    intro hsame
    rw [hequals] at hsame
    obtain rfl : x = y := beq_iff_eq.mp (Value.truth_eq_t.mp (Except.ok.inj hsame))
    obtain ⟨-, rfl⟩ := hm.unique hn
    rw [decide_eq_false (Comparison.not_relates_self .less m),
      decide_eq_false (Comparison.not_relates_self .greater m)]
    exact ⟨rfl, rfl⟩

/-- A negative difference and a product that is zero, which a product of negative zero is as well,
and an integer with zeros in front. -/
theorem negative_and_zero_compare_by_name :
    let outcome (name : String) (v w : Value Unit) :=
      (Primitive.apply .none name (.pair () v (.pair () w .nil)) .empty).1
    let a : Value Unit := .atom "-2"
    let b : Value Unit := .atom "0"
    outcome "-" (.atom "+3") (.atom "005") = .ok a ∧ outcome "*" (.atom "-0") (.atom "7") = .ok b ∧
      (∃ less greater equal : Bool,
        outcome "<" a b = .ok (.truth less) ∧ outcome ">" a b = .ok (.truth greater) ∧
        outcome "==" a b = .ok (.truth equal) ∧ [less, greater, equal].count true = 1) ∧
      outcome "==" (.atom "-007") (.atom "-007") = .ok .t ∧
      outcome "<" (.atom "-007") (.atom "-007") = .ok .nil ∧
      outcome ">" (.atom "-007") (.atom "-007") = .ok .nil := by
  intro outcome a b
  have ha : outcome "-" (.atom "+3") (.atom "005") = .ok a := by decide +kernel
  have hb : outcome "*" (.atom "-0") (.atom "7") = .ok b := by decide +kernel
  have hsame : outcome "==" (.atom "-007") (.atom "-007") = .ok .t := by decide +kernel
  obtain ⟨-, hcompare, hequal⟩ :=
    computed_integers_compare_by_name .none () () (.empty : State Unit)
  have hseven : Name.Denotes "-007" 3 (-7) := Name.denotes_iff.mpr (by decide +kernel)
  obtain ⟨hnone, -⟩ := hequal "-007" "-007" 3 3 (-7) (-7) hseven (by omega) hseven (by omega)
  refine ⟨ha, hb, (hcompare a b ⟨.sub, (), (), _, _, _, _, Prod.ext ha rfl⟩
    ⟨.mul, (), (), _, _, _, _, Prod.ext hb rfl⟩).2, hsame, hnone hsame⟩

end Evlis
