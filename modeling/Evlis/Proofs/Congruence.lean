import Evlis.Proofs.Similarity

/-!
# Relations that primitives respect

Primitives take pairs apart, put values together into pairs and make atoms, and do nothing else
with values. So they respect every relation that relates the atoms that they make to themselves and
pairs if it relates their parts.
-/

namespace Evlis

variable {ι : Type}

/-- The names of the atoms that primitives make: those of the truth values and of integers. -/
def Primitive.Makes (name : String) : Prop :=
  name = "t" ∨ name = "nil" ∨ ∃ n : Int, name = Text.decimal n

/-- A relation between values of the same shape, which goes through pairs. -/
structure Value.Congruence (Q : Value ι → Value ι → Prop) : Prop where
  atom {name : String} (made : Primitive.Makes name) : Q (.atom name) (.atom name)
  pair {mark mark' : ι} {car cdr car' cdr' : Value ι} :
    Q (.pair mark car cdr) (.pair mark' car' cdr') ↔ Q car car' ∧ Q cdr cdr'
  similar {v w : Value ι} : Q v w → v.Similar (fun _ _ => True) w

lemma Value.Similar.refl (v : Value ι) : v.Similar (fun _ _ => True) v := by
  induction v with
  | atom name => exact .atom name
  | pair mark car cdr ihCar ihCdr => exact .pair ihCar ihCdr
  | closure mark lambda formals body env ihLambda ihFormals ihBody =>
    exact .closure ihLambda ihFormals ihBody trivial
  | «foreign» n => exact .foreign n

namespace Value.Congruence

variable {Q : Value ι → Value ι → Prop} {v w : Value ι}

lemma truth (hQ : Congruence Q) (flag : Bool) : Q (Value.truth flag) (Value.truth flag) := by
  cases flag
  · exact hQ.atom (.inr (.inl rfl))
  · exact hQ.atom (.inl rfl)

lemma exists_pair (hQ : Congruence Q) {mark : ι} {car cdr : Value ι}
    (h : Q (.pair mark car cdr) w) :
    ∃ mark' car' cdr', w = .pair mark' car' cdr' ∧ Q car car' ∧ Q cdr cdr' := by
  cases hQ.similar h with
  | @pair _ mark' _ _ car' cdr' _ _ => exact ⟨mark', car', cdr', rfl, hQ.pair.mp h⟩

lemma elements (hQ : Congruence Q) (h : Q v w) : List.Forall₂ Q v.elements w.elements := by
  induction v generalizing w with
  | pair mark car cdr _ ihCdr =>
    obtain ⟨mark', car', cdr', rfl, hcar, hcdr⟩ := hQ.exists_pair h
    rw [elements_pair, elements_pair]
    exact .cons hcar (ihCdr hcdr)
  | _ =>
    cases hQ.similar h
    exact .nil

end Value.Congruence

namespace Primitive

variable {Q : Value ι → Value ι → Prop} {limits : Limits} {v w v' w' result result' : Value ι}
  {s s' : State ι}

lemma nth?_congruent (hQ : Value.Congruence Q) (h : Q v w) {index : Nat}
    (hv : nth? index v = some result) (hw : nth? index w = some result') : Q result result' := by
  induction v generalizing w index with
  | pair mark car cdr _ ihCdr =>
    obtain ⟨mark', car', cdr', rfl, hcar, hcdr⟩ := hQ.exists_pair h
    rw [nth?] at hv hw
    by_cases hindex : index = 0
    · rw [if_pos hindex] at hv hw
      cases hv
      cases hw
      exact hcar
    · rw [if_neg hindex] at hv hw
      exact ihCdr hcdr hv hw
  | _ => cases hv

lemma makes_of_ofInt {n : Int} {name : String} (h : Name.ofInt n = .ok name) : Makes name := by
  unfold Name.ofInt at h
  split at h
  · cases h
    exact .inr (.inr ⟨n, rfl⟩)
  · cases h

lemma calculate_congruent (hQ : Value.Congruence Q) (hv : Q v v') (hw : Q w w')
    {operation : Arithmetic} (h : calculate limits operation v w = .ok result)
    (h' : calculate limits operation v' w' = .ok result') : Q result result' := by
  rw [calculate, operands_eq limits operation.symbol (hQ.similar hv) (hQ.similar hw)] at h
  rw [calculate] at h'
  cases hnumbers : operands limits operation.symbol v' w' with
  | error fault =>
    rw [hnumbers] at h
    cases h
  | ok numbers =>
    rw [hnumbers] at h h'
    dsimp only at h h'
    split at h
    · cases h
    · cases hname : Name.ofInt _ with
      | error fault =>
        rw [hname] at h
        cases h
      | ok name =>
        rw [hname] at h
        rename_i computed
        rw [computed] at h'
        dsimp only at h'
        rw [hname] at h'
        cases h
        cases h'
        exact hQ.atom (makes_of_ofInt hname)

lemma performUnary_congruent (hQ : Value.Congruence Q) (hv : Q v w) {operation : Unary}
    (h : (performUnary limits operation v s).1 = .ok result)
    (h' : (performUnary limits operation w s').1 = .ok result') : Q result result' := by
  cases operation with
  | car =>
    cases v with
    | pair mark car cdr =>
      obtain ⟨mark', car', cdr', rfl, hcar, -⟩ := hQ.exists_pair hv
      cases h
      cases h'
      exact hcar
    | _ => cases h
  | cdr =>
    cases v with
    | pair mark car cdr =>
      obtain ⟨mark', car', cdr', rfl, -, hcdr⟩ := hQ.exists_pair hv
      cases h
      cases h'
      exact hcdr
    | _ => cases h
  | atom =>
    cases h
    cases h'
    rw [(hQ.similar hv).isAtom_eq]
    exact hQ.truth _
  | null =>
    cases h
    cases h'
    rw [(hQ.similar hv).isNil_eq]
    exact hQ.truth _
  | print =>
    simp only [performUnary, (hQ.similar hv).print_eq] at h h'
    cases hprint : w.print limits <;> rw [hprint] at h h'
    · cases h
    · cases h
      cases h'
      exact hv
  | select index =>
    simp only [performUnary] at h h'
    split at h
    · rename_i found
      split at h'
      · rename_i found'
        cases h
        cases h'
        exact nth?_congruent hQ hv found found'
      · cases h'
    · cases h

lemma performBinary_congruent [Marking ι] (hQ : Value.Congruence Q) (hv : Q v v') (hw : Q w w')
    {operation : Binary} (h : (performBinary limits operation v w s).1 = .ok result)
    (h' : (performBinary limits operation v' w' s').1 = .ok result') : Q result result' := by
  cases operation with
  | cons =>
    cases h
    cases h'
    exact hQ.pair.mpr ⟨hv, hw⟩
  | and =>
    cases h
    cases h'
    rw [(hQ.similar hv).isNil_eq]
    split
    · exact hv
    · exact hw
  | or =>
    cases h
    cases h'
    rw [(hQ.similar hv).isNil_eq]
    split
    · exact hw
    · exact hv
  | equals =>
    simp only [performBinary, equals] at h h'
    split at h
    · cases hQ.similar hv
      cases hQ.similar hw
      cases h
      cases h'
      exact hQ.truth _
    · split at h <;> cases h
  | arithmetic operation => exact calculate_congruent hQ hv hw h h'
  | comparison order =>
    simp only [performBinary, compare] at h h'
    rw [operands_eq limits order.symbol (hQ.similar hv) (hQ.similar hw)] at h
    split at h
    · cases h
    · rename_i numbers
      rw [numbers] at h'
      cases h
      cases h'
      exact hQ.truth _

/-- How a primitive comes to a result: its name stands for an operation of one or of two
arguments, and there are as many. -/
lemma apply_eq_ok [Marking ι] {name : String} {arguments : Value ι}
    (h : (apply limits name arguments s).1 = .ok result) :
    ∃ s₁, (∃ operation v, resolve name = .ok (.unary operation) ∧ arguments.elements = [v] ∧
        (performUnary limits operation v s₁).1 = .ok result) ∨
      ∃ operation v w, resolve name = .ok (.binary operation) ∧ arguments.elements = [v, w] ∧
        (performBinary limits operation v w s₁).1 = .ok result := by
  obtain ⟨s₁, hfound, -⟩ := find_eq name s
  refine ⟨s₁, ?_⟩
  rw [apply, hfound] at h
  cases hresolve : resolve name with
  | error fault =>
    rw [hresolve] at h
    cases h
  | ok primitive =>
    rw [hresolve, Value.toList] at h
    dsimp only at h
    split at h
    · cases h
    · rename_i values listed
      have hvalues : arguments.elements = values := by
        split at listed
        · exact Except.ok.inj listed
        · cases listed
      split at h
      · exact .inl ⟨_, _, rfl, hvalues, h⟩
      · exact .inr ⟨_, _, _, rfl, hvalues, h⟩
      · cases h

/-- A primitive gives related results for related arguments, or the same fault, and prints the
same lines. -/
lemma apply_congruent [Marking ι] (hQ : Value.Congruence Q) (limits : Limits) (name : String)
    {arguments arguments' : Value ι} (h : Q arguments arguments') (s s' : State ι) :
    Like Q (apply limits name arguments s).1 (apply limits name arguments' s').1 ∧
      ∃ lines, (apply limits name arguments s).2.printed.toList = s.printed.toList ++ lines ∧
        (apply limits name arguments' s').2.printed.toList = s'.printed.toList ++ lines := by
  obtain ⟨hlike, hlines⟩ := apply_similar limits name (hQ.similar h) s s'
  refine ⟨?_, hlines⟩
  have hresults : ∀ result result', (apply limits name arguments s).1 = .ok result →
      (apply limits name arguments' s').1 = .ok result' → Q result result' := by
    intro result result' hok hok'
    have hvalues := hQ.elements h
    obtain ⟨s₁, ⟨operation, v, hname, hone, hdone⟩ | ⟨operation, v, w, hname, htwo, hdone⟩⟩ :=
      apply_eq_ok hok
    · obtain ⟨s₁', ⟨operation', v', hname', hone', hdone'⟩ | ⟨_, _, _, hname', -⟩⟩ :=
        apply_eq_ok hok'
      · rw [hname] at hname'
        cases hname'
        rw [hone, hone'] at hvalues
        rcases hvalues with _ | ⟨hv, -⟩
        exact performUnary_congruent hQ hv hdone hdone'
      · rw [hname] at hname'
        cases hname'
    · obtain ⟨s₁', ⟨_, _, hname', -⟩ | ⟨operation', v', w', hname', htwo', hdone'⟩⟩ :=
        apply_eq_ok hok'
      · rw [hname] at hname'
        cases hname'
      · rw [hname] at hname'
        cases hname'
        rw [htwo, htwo'] at hvalues
        rcases hvalues with _ | ⟨hv, _ | ⟨hw, -⟩⟩
        exact performBinary_congruent hQ hv hw hdone hdone'
  generalize (apply limits name arguments s).1 = outcome at hlike hresults
  generalize (apply limits name arguments' s').1 = outcome' at hlike hresults
  cases hlike with
  | ok _ => exact .ok (hresults _ _ rfl rfl)
  | error fault => exact .error fault

end Primitive

end Evlis
