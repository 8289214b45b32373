import Evlis.Name
import Mathlib.Data.Nat.Digits.Defs

/-!
# What numerals denote

A name denotes an integer if it is an optional sign in front of one or more decimal digits, zeros in
front allowed. Among the names of an integer one is canonical, its decimal text. `Name.toInt` gives
the integer that a name denotes and `Name.ofInt` the canonical name of an integer, both up to a
number of digits.
-/

namespace Evlis

namespace Name

/-- The sign in front of the digits of an integer, and the factor it stands for. -/
inductive Sign : List Char → Int → Prop where
  | none : Sign [] 1
  | plus : Sign ['+'] 1
  | minus : Sign ['-'] (-1)

def IsDigits (digits : List Char) : Prop := digits ≠ [] ∧ ∀ c ∈ digits, c.isDigit = true

/-- The number that digits stand for by their places, the last one counting ones. -/
def placeValue (digits : List Char) : Nat :=
  Nat.ofDigits 10 (digits.reverse.map fun c => c.toNat - '0'.toNat)

/-- The name is a sign and `count` digits, and stands for `n`. -/
def Denotes (name : String) (count : Nat) (n : Int) : Prop :=
  ∃ sign unit digits, Sign sign unit ∧ IsDigits digits ∧ name.toList = sign ++ digits ∧
    count = digits.length ∧ n = unit * placeValue digits

/-- The name is `0`, or digits that do not start with a zero, behind a minus sign or none. -/
def IsCanonical (name : String) : Prop :=
  name = "0" ∨ ∃ sign first rest, (sign = [] ∨ sign = ['-']) ∧ first ≠ '0' ∧
    IsDigits (first :: rest) ∧ name.toList = sign ++ first :: rest

lemma magnitude_eq (digits : List Char) : magnitude digits = placeValue digits := by
  rw [placeValue, Nat.ofDigits_eq_foldr, List.map_reverse, List.foldr_reverse, List.foldl_map,
    magnitude]
  congr 1
  funext n c
  exact Nat.add_comm _ _

lemma isInteger_iff (name : String) :
    isInteger name = true ↔ IsDigits (unsigned name.toList) := by
  simp [isInteger, IsDigits]

/-- Every name is a sign and what stands behind it. -/
lemma exists_sign (name : String) :
    ∃ sign unit, Sign sign unit ∧ name.toList = sign ++ unsigned name.toList ∧
      value name = unit * placeValue (unsigned name.toList) := by
  unfold value
  split
  · rename_i digits h
    refine ⟨['-'], -1, .minus, ?_, ?_⟩
    · rw [h]
      rfl
    · rw [h, unsigned, magnitude_eq]
      omega
  · rename_i digits h
    refine ⟨['+'], 1, .plus, ?_, ?_⟩
    · rw [h]
      rfl
    · rw [h, unsigned, magnitude_eq]
      omega
  · rename_i hminus hplus
    have hself : unsigned name.toList = name.toList := by
      unfold unsigned
      split
      · rename_i rest h
        exact absurd h (hplus rest)
      · rename_i rest h
        exact absurd h (hminus rest)
      · rfl
    refine ⟨[], 1, .none, ?_, ?_⟩
    · rw [hself]
      rfl
    · rw [hself, magnitude_eq]
      omega

/-- A sign is told from the digits behind it. -/
lemma unsigned_append {sign digits : List Char} {unit : Int} (hsign : Sign sign unit)
    (hdigits : IsDigits digits) : unsigned (sign ++ digits) = digits := by
  cases hsign with
  | none =>
    obtain ⟨hne, hall⟩ := hdigits
    cases digits with
    | nil => exact absurd rfl hne
    | cons c rest =>
      have hc := hall c (by simp)
      have hplus : c ≠ '+' := by rintro rfl; exact absurd hc (by decide)
      have hminus : c ≠ '-' := by rintro rfl; exact absurd hc (by decide)
      simp [unsigned, hplus, hminus]
  | plus => rfl
  | minus => rfl

lemma Sign.unique {sign sign' digits digits' : List Char} {unit unit' : Int}
    (hsign : Sign sign unit) (hsign' : Sign sign' unit') (hdigits : IsDigits digits)
    (hdigits' : IsDigits digits') (h : sign ++ digits = sign' ++ digits') :
    unit = unit' ∧ digits = digits' := by
  have hsame : digits = digits' := by
    rw [← unsigned_append hsign hdigits, h, unsigned_append hsign' hdigits']
  subst hsame
  have hsigns := List.append_cancel_right h
  subst hsigns
  cases hsign <;> cases hsign' <;> exact ⟨rfl, rfl⟩

/-- The names that denote an integer are those that read as one. -/
theorem denotes_iff {name : String} {count : Nat} {n : Int} :
    Denotes name count n ↔ isInteger name = true ∧ digitCount name = count ∧ value name = n := by
  obtain ⟨sign, unit, hsign, hname, hvalue⟩ := exists_sign name
  rw [isInteger_iff]
  constructor
  · rintro ⟨sign', unit', digits, hsign', hdigits, hname', rfl, rfl⟩
    have hunsigned : unsigned name.toList = digits := by
      rw [hname', unsigned_append hsign' hdigits]
    rw [hunsigned] at hname hvalue ⊢
    obtain ⟨rfl, -⟩ := hsign.unique hsign' hdigits hdigits (hname.symm.trans hname')
    refine ⟨hdigits, ?_, hvalue⟩
    rw [digitCount, hunsigned]
  · rintro ⟨hdigits, rfl, rfl⟩
    exact ⟨sign, unit, _, hsign, hdigits, hname, rfl, hvalue⟩

lemma digit_lt_ten {c : Char} (h : c.isDigit = true) : c.toNat - '0'.toNat < 10 := by
  obtain ⟨hlow, hhigh⟩ := Char.isDigit_iff_toNat.mp h
  simp only [Char.reduceToNat] at hlow hhigh ⊢
  omega

lemma digitChar_of_isDigit {c : Char} (h : c.isDigit = true) :
    Nat.digitChar (c.toNat - '0'.toNat) = c := by
  obtain ⟨hlow, -⟩ := Char.isDigit_iff_toNat.mp h
  apply Char.toNat_inj.mp
  rw [Nat.toNat_digitChar_of_lt_ten (digit_lt_ten h)]
  simp only [Char.reduceToNat] at hlow ⊢
  omega

/-- Digits behind a positive number are digits of a number. -/
lemma toDigits_append_digits {n : Nat} (hn : 0 < n) {digits : List Char}
    (hdigits : ∀ c ∈ digits, c.isDigit = true) :
    Nat.toDigits 10 n ++ digits = Nat.toDigits 10 (Nat.ofDigitChars 10 digits n) := by
  induction digits generalizing n with
  | nil => simp
  | cons c digits ih =>
    have hc := hdigits c (by simp)
    have hone : Nat.toDigits 10 n ++ [c] = Nat.toDigits 10 (10 * n + (c.toNat - '0'.toNat)) := by
      rw [← Nat.toDigits_append_toDigits (by omega) hn (digit_lt_ten hc),
        Nat.toDigits_of_lt_base (digit_lt_ten hc), digitChar_of_isDigit hc]
    calc
      Nat.toDigits 10 n ++ c :: digits = (Nat.toDigits 10 n ++ [c]) ++ digits := by simp
      _ = Nat.toDigits 10 (10 * n + (c.toNat - '0'.toNat)) ++ digits := by rw [hone]
      _ = Nat.toDigits 10 (Nat.ofDigitChars 10 (c :: digits) n) := by
        rw [ih (by omega) (fun d hd => hdigits d (by simp [hd])), Nat.ofDigitChars_cons]

lemma placeValue_eq (digits : List Char) : placeValue digits = Nat.ofDigitChars 10 digits 0 := by
  rw [← magnitude_eq, Nat.ofDigitChars_eq_foldl, magnitude]

lemma placeValue_toDigits (n : Nat) : placeValue (Nat.toDigits 10 n) = n := by
  rw [placeValue_eq, Nat.ofDigitChars_ten_toDigits]

lemma isDigits_toDigits (n : Nat) : IsDigits (Nat.toDigits 10 n) :=
  ⟨Nat.toDigits_ne_nil, fun _ hc => Nat.isDigit_of_mem_toDigits (by omega) (by omega) hc⟩

/-- Digits that do not start with a zero are those of the number they stand for. -/
lemma toDigits_placeValue {first : Char} {rest : List Char} (hfirst : first ≠ '0')
    (hdigits : IsDigits (first :: rest)) :
    0 < placeValue (first :: rest) ∧
      Nat.toDigits 10 (placeValue (first :: rest)) = first :: rest := by
  have hdigit := hdigits.2 first (by simp)
  have hchar := digitChar_of_isDigit hdigit
  have hpos : 0 < first.toNat - '0'.toNat := by
    rw [Nat.pos_iff_ne_zero]
    intro hzero
    rw [hzero] at hchar
    exact hfirst hchar.symm
  have hall := toDigits_append_digits hpos fun c hc => hdigits.2 c (List.mem_cons_of_mem _ hc)
  rw [Nat.toDigits_of_lt_base (digit_lt_ten hdigit), hchar] at hall
  have hvalue : placeValue (first :: rest) =
      Nat.ofDigitChars 10 rest (first.toNat - '0'.toNat) := by
    rw [placeValue_eq, Nat.ofDigitChars_cons, Nat.mul_zero, Nat.zero_add]
  refine ⟨?_, ?_⟩
  · rw [hvalue, Nat.ofDigitChars_eq_ofDigitChars_zero]
    positivity
  · rw [hvalue]
    exact hall.symm

/-- The digits of a positive number do not start with a zero. -/
lemma exists_first_toDigits {n : Nat} (hn : 0 < n) :
    ∃ first rest, first ≠ '0' ∧ Nat.toDigits 10 n = first :: rest := by
  induction n using Nat.strong_induction_on with
  | _ n ih =>
    rw [Nat.toDigits_eq_if (by omega)]
    by_cases hten : n < 10
    · rw [if_pos hten]
      refine ⟨_, _, ?_, rfl⟩
      rw [ne_eq, Nat.digitChar_eq_zero]
      omega
    · rw [if_neg hten]
      obtain ⟨first, rest, hfirst, hdigits⟩ := ih (n / 10) (by omega) (by omega)
      rw [hdigits]
      exact ⟨first, _, hfirst, rfl⟩

end Name

namespace Text

/-- A decimal text is a minus sign or none in front of the digits of the absolute value. -/
lemma toList_decimal (n : Int) :
    (decimal n).toList = (if n < 0 then ['-'] else []) ++ Nat.toDigits 10 n.natAbs := by
  cases n with
  | ofNat n =>
    rw [if_neg (by simp)]
    exact Nat.toList_repr
  | negSucc n =>
    rw [if_pos (Int.negSucc_lt_zero n), decimal, String.toList_append, Nat.toList_repr]
    rfl

end Text

namespace Name

lemma denotes_decimal (n : Int) : Denotes (Text.decimal n) (Nat.repr n.natAbs).length n := by
  have hcount : (Nat.repr n.natAbs).length = (Nat.toDigits 10 n.natAbs).length := by
    rw [← String.length_toList, Nat.toList_repr]
  rw [hcount]
  by_cases hneg : n < 0
  · refine ⟨['-'], -1, _, .minus, isDigits_toDigits n.natAbs, ?_, rfl, ?_⟩
    · rw [Text.toList_decimal, if_pos hneg]
    · rw [placeValue_toDigits]
      omega
  · refine ⟨[], 1, _, .none, isDigits_toDigits n.natAbs, ?_, rfl, ?_⟩
    · rw [Text.toList_decimal, if_neg hneg]
    · rw [placeValue_toDigits]
      omega

lemma isCanonical_decimal (n : Int) : IsCanonical (Text.decimal n) := by
  by_cases hzero : n = 0
  · left
    rw [hzero]
    rfl
  · right
    obtain ⟨first, rest, hfirst, hdigits⟩ := exists_first_toDigits (Int.natAbs_pos.mpr hzero)
    refine ⟨if n < 0 then ['-'] else [], first, rest, ?_, hfirst, ?_, ?_⟩
    · by_cases hneg : n < 0 <;> simp [hneg]
    · rw [← hdigits]
      exact isDigits_toDigits _
    · rw [Text.toList_decimal, hdigits]

/-- Of the names that denote an integer only its decimal text is canonical. -/
lemma IsCanonical.eq_decimal {name : String} (h : IsCanonical name) {count : Nat} {n : Int}
    (hdenotes : Denotes name count n) : name = Text.decimal n := by
  rcases h with rfl | ⟨sign, first, rest, hsign, hfirst, hdigits, hname⟩
  · obtain ⟨-, -, rfl⟩ := denotes_iff.mp hdenotes
    rfl
  · obtain ⟨hpos, hvalue⟩ := toDigits_placeValue hfirst hdigits
    obtain ⟨sign', unit, digits, hsign', hdigits', hname', -, rfl⟩ := hdenotes
    rw [hname] at hname'
    rw [← String.toList_inj, hname, Text.toList_decimal]
    rcases hsign with rfl | rfl
    · obtain ⟨rfl, rfl⟩ := Sign.none.unique hsign' hdigits hdigits' hname'
      rw [if_neg (by omega), Int.one_mul, Int.natAbs_natCast, hvalue]
    · obtain ⟨rfl, rfl⟩ := Sign.minus.unique hsign' hdigits hdigits' hname'
      rw [if_pos (by omega), Int.neg_one_mul, Int.natAbs_neg, Int.natAbs_natCast, hvalue]

lemma Denotes.unique {name : String} {count count' : Nat} {n n' : Int} (h : Denotes name count n)
    (h' : Denotes name count' n') : count = count' ∧ n = n' := by
  obtain ⟨-, rfl, rfl⟩ := denotes_iff.mp h
  obtain ⟨-, rfl, rfl⟩ := denotes_iff.mp h'
  exact ⟨rfl, rfl⟩

lemma toInt_of_denotes {name : String} {count : Nat} {n : Int} (h : Denotes name count n) :
    toInt name = if count ≤ 4300 then .ok n else .error (.operandDigits count) := by
  obtain ⟨-, rfl, rfl⟩ := denotes_iff.mp h
  rfl

/-- The canonical name of an integer, if it has few enough digits. -/
theorem ofInt_eq_iff {n : Int} {r : Except Fault String} :
    ofInt n = r ↔ ∃ name count, IsCanonical name ∧ Denotes name count n ∧
      r = if count ≤ 4300 then .ok name else .error .resultDigits := by
  constructor
  · rintro rfl
    exact ⟨Text.decimal n, _, isCanonical_decimal n, denotes_decimal n, rfl⟩
  · rintro ⟨name, count, hcanonical, hdenotes, rfl⟩
    obtain rfl := hcanonical.eq_decimal hdenotes
    obtain ⟨rfl, -⟩ := hdenotes.unique (denotes_decimal n)
    rfl

end Name

end Evlis
