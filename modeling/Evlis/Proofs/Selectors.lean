import Evlis.Proofs.ExactArithmetic

/-!
# Selectors

A name that denotes a positive integer selects the element of a chain of pairs at that place,
counted from one: what `car` gives behind so many times `cdr`, less one. It fails just if the chain
is too short, whatever the chain ends in. A name that denotes another integer is no primitive.
-/

namespace Evlis

variable {ι : Type}

namespace Primitive

/-- Apply `cdr` the given number of times, each time to what the last one gave, and then `car`. -/
def carAfter [Marking ι] (limits : Limits) (i : ι) :
    Nat → Value ι → State ι → Except Fault (Value ι) × State ι
  | 0, v, s => apply limits "car" (.pair i v .nil) s
  | count + 1, v, s =>
    match apply limits "cdr" (.pair i v .nil) s with
    | (.ok w, s) => carAfter limits i count w s
    | (.error fault, s) => (.error fault, s)

lemma nth?_eq_getElem? (index : Nat) (v : Value ι) : nth? index v = v.elements[index]? := by
  induction v generalizing index with
  | pair mark car cdr _ ih =>
    rw [nth?, Value.elements_pair]
    cases index with
    | zero => rfl
    | succ index =>
      rw [if_neg (Nat.succ_ne_zero index), ih, List.getElem?_cons_succ]
      rfl
  | _ => rfl

/-- Going along the chain, `cdr` by `cdr`, finds the element by its place. -/
lemma carAfter_of_nth? [Marking ι] (limits : Limits) (i : ι) {index : Nat} {v w : Value ι}
    (h : nth? index v = some w) (s : State ι) : carAfter limits i index v s = (.ok w, s) := by
  induction index generalizing v with
  | zero =>
    cases v with
    | pair mark car cdr =>
      cases h
      rfl
    | _ => cases h
  | succ index ih =>
    cases v with
    | pair mark car cdr => exact ih h
    | _ => cases h

lemma named?_of_denotes {name : String} {count : Nat} {n : Int} (h : Name.Denotes name count n) :
    named? name = none := by
  obtain ⟨hinteger, -⟩ := Name.denotes_iff.mp h
  unfold named?
  split
  iterate 16 · exact absurd hinteger (by decide +kernel)
  · rfl

lemma resolve_of_denotes {name : String} {count : Nat} {n : Int} (h : Name.Denotes name count n)
    (few : count ≤ 4300) :
    resolve name = if 0 < n then .ok (.unary (.select n)) else .error (.noPrimitive name) := by
  obtain ⟨hinteger, -⟩ := Name.denotes_iff.mp h
  rw [resolve, named?_of_denotes h]
  dsimp only
  rw [if_pos hinteger, Name.toInt_of_denotes h, if_pos few]

/-- A selector looks at its argument only. -/
lemma apply_of_denotes [Marking ι] {name : String} {count : Nat} {n : Int}
    (h : Name.Denotes name count n) (few : count ≤ 4300) (hn : 0 < n) (limits : Limits) (i : ι)
    (v : Value ι) (s : State ι) :
    apply limits name (.pair i v .nil) s = performUnary limits (.select n) v s := by
  rw [apply, find, resolve_of_denotes h few, if_pos hn]
  rfl

end Primitive

/-- Let a name denote an integer, with few enough digits. If the integer is positive, applying the
name to a value gives, behind `cdr` as often as there are elements in front, what `car` gives there,
provided that the chain of pairs is long enough; otherwise it reports that there is no such element,
unless there is a limit to nesting and the value is nested too deeply to be shown. If the integer is
not positive, the name is no primitive, whatever it is applied to. -/
theorem selector_law [Marking ι] (limits : Limits) {name : String} {count : Nat} {n : Int}
    (denotes : Name.Denotes name count n) (few : count ≤ 4300) (s : State ι) :
    (0 < n → ∀ (i : ι) (v : Value ι),
      (n ≤ v.length → ∃ w, Primitive.apply limits name (.pair i v .nil) s = (.ok w, s) ∧
        Primitive.carAfter limits i (n.toNat - 1) v s = (.ok w, s)) ∧
      (v.length < n → ∃ fault,
        Primitive.apply limits name (.pair i v .nil) s = (.error fault, s) ∧
        (v.IsNative → fault.kind = .index ∨ limits.nesting ≠ none ∧ fault = .tooDeep))) ∧
    (n ≤ 0 → ∀ arguments : Value ι, Primitive.apply limits name arguments s =
      (.error (.noPrimitive name), s.log (.primitiveMissing name))) := by
  refine ⟨fun hn i v => ?_, fun hn arguments => ?_⟩
  · have happly := Primitive.apply_of_denotes denotes few hn limits i v s
    rw [Primitive.performUnary] at happly
    refine ⟨fun hlong => ?_, fun hshort => ?_⟩
    · have hplace : n.toNat - 1 < v.elements.length := by
        rw [Value.length_elements]
        omega
      have hfound : Primitive.nth? (n.toNat - 1) v = some v.elements[n.toNat - 1] := by
        rw [Primitive.nth?_eq_getElem?, List.getElem?_eq_getElem hplace]
      rw [hfound] at happly
      exact ⟨_, happly, Primitive.carAfter_of_nth? limits i hfound s⟩
    · have hnone : Primitive.nth? (n.toNat - 1) v = none := by
        rw [Primitive.nth?_eq_getElem?, List.getElem?_eq_none_iff, Value.length_elements]
        omega
      rw [hnone] at happly
      refine ⟨_, happly, fun native => ?_⟩
      rcases v.blame_cases limits (.noElement n) with
        ⟨shown, hfault⟩ | ⟨hforeign, -⟩ | htooDeep
      · exact .inl (congrArg Fault.kind hfault)
      · exact absurd native hforeign
      · exact .inr htooDeep
  · rw [Primitive.apply, Primitive.find, Primitive.resolve_of_denotes denotes few,
      if_neg (Int.not_lt.mpr hn)]

/-- The last element of a chain that does not end in `nil`, the place behind it, and a name of
zero. -/
theorem selectors_at_end_of_chain :
    let v : Value Unit := .pair () (.atom "a") (.pair () (.atom "b") (.atom "c"))
    let outcome (name : String) := Primitive.apply .none name (.pair () v .nil) .empty
    (outcome "+02").1 = .ok (.atom "b") ∧ Primitive.carAfter .none () 1 v .empty = outcome "+02" ∧
      (∃ fault, (outcome "3").1 = .error fault ∧ fault.kind = .index) ∧
      (outcome "-0").1 = .error (.noPrimitive "-0") := by
  intro v outcome
  have htwo : Name.Denotes "+02" 2 2 := Name.denotes_iff.mpr (by decide +kernel)
  have hthree : Name.Denotes "3" 1 3 := Name.denotes_iff.mpr (by decide +kernel)
  have hzero : Name.Denotes "-0" 1 0 := Name.denotes_iff.mpr (by decide +kernel)
  have hnative : v.IsNative := ⟨trivial, trivial, trivial⟩
  obtain ⟨w, hw, hcdr⟩ := ((selector_law .none htwo (by omega) .empty).1 (by omega) () v).1
    (by decide)
  obtain ⟨fault, hfault, hkind⟩ :=
    ((selector_law .none hthree (by omega) .empty).1 (by omega) () v).2 (by decide)
  have hnone := (selector_law .none hzero (by omega) .empty).2 (by omega) (.pair () v .nil)
  refine ⟨by decide +kernel, hcdr.trans hw.symm, ⟨fault, congrArg Prod.fst hfault, ?_⟩,
    congrArg Prod.fst hnone⟩
  rcases hkind hnative with hindex | ⟨hlimited, -⟩
  · exact hindex
  · exact absurd rfl hlimited

end Evlis
