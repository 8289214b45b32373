import Evlis.Proofs.RoundTrip

/-!
# What the printed form tells

Two values print alike just if they show the same face: the same atoms and pairs, with closures of
lambda expressions of the same face in the same places. The text is read from the left: what a value
is shows in its first character, its parts follow, and none of them goes on into what stands behind
it. In a closure, the text of a pair stands in front of the closing `>`, which could be part of a
name. Main statement: `printed_form_determines_value`.
-/

namespace Evlis

open SExpr

variable {ι : Type}

/-- What is shown of a value; of a closure, that is its lambda expression. -/
inductive Face where
  | atom (name : String)
  | pair (car cdr : Face)
  | closure (lambda : Face)
  | foreign (n : Int)
deriving DecidableEq

namespace Value

def face : Value ι → Face
  | .atom name => .atom name
  | .pair _ car cdr => .pair car.face cdr.face
  | .closure _ lambda _ _ _ => .closure lambda.face
  | .foreign n => .foreign n

def isPair : Value ι → Bool
  | .pair _ _ _ => true
  | _ => false

/-- Values of atoms with names that a text can spell, of pairs, and of closures whose lambda
expressions are pairs. -/
def Showable : Value ι → Prop
  | .atom name => IsName name
  | .pair _ car cdr => car.Showable ∧ cdr.Showable
  | .closure _ lambda _ _ _ => lambda.isPair = true ∧ lambda.Showable
  | .foreign _ => False

instance decidableShowable : (v : Value ι) → Decidable v.Showable
  | .atom name => inferInstanceAs (Decidable (IsName name))
  | .pair _ car cdr =>
    have := decidableShowable car
    have := decidableShowable cdr
    inferInstanceAs (Decidable (car.Showable ∧ cdr.Showable))
  | .closure _ lambda _ _ _ =>
    have := decidableShowable lambda
    inferInstanceAs (Decidable (lambda.isPair = true ∧ lambda.Showable))
  | .foreign _ => isFalse id

def ClosureFree : Value ι → Prop
  | .pair _ car cdr => car.ClosureFree ∧ cdr.ClosureFree
  | .closure _ _ _ _ _ => False
  | _ => True

def chars (v : Value ι) : List Char := v.text.toList

def charsRest (v : Value ι) : List Char := v.textRest.toList

@[simp]
lemma chars_atom (name : String) : (atom name : Value ι).chars = name.toList := by
  simp [chars, text, write]

@[simp]
lemma chars_pair (mark : ι) (car cdr : Value ι) :
    (pair mark car cdr).chars = '(' :: (car.chars ++ cdr.charsRest) := by
  simp [chars, charsRest]

@[simp]
lemma chars_closure (mark : ι) (lambda formals body : Value ι) (env : Env ι) :
    (closure mark lambda formals body env).chars =
      '#' :: ("<closure ".toList ++ (lambda.chars ++ ['>'])) := by
  rw [chars, text, write, write_eq]
  simp [chars]

@[simp]
lemma charsRest_nil : (nil : Value ι).charsRest = [')'] := by
  simp [charsRest, nil, textRest, writeRest]

@[simp]
lemma charsRest_pair (mark : ι) (car cdr : Value ι) :
    (pair mark car cdr).charsRest = ' ' :: (car.chars ++ cdr.charsRest) := by
  simp [chars, charsRest]

/-- What stands behind the last pair of a list is printed behind a dot, unless it is `nil`. -/
lemma charsRest_of_dotted {v : Value ι} (hpair : v.isPair = false) (hnil : v ≠ .nil) :
    v.charsRest = ' ' :: '.' :: ' ' :: (v.chars ++ [')']) := by
  cases v with
  | atom name =>
    have hname : name ≠ "nil" := by
      rintro rfl
      exact hnil rfl
    simp [charsRest, chars, textRest, writeRest, text, write, hname]
  | pair mark car cdr => cases hpair
  | closure mark lambda formals body env =>
    rw [chars_closure, charsRest, textRest, writeRest, write_eq]
    simp [chars]
  | «foreign» n => simp [charsRest, chars, textRest, writeRest, text, write]

/-- The rest of a list is a list that ends, that goes on, or that has a dot. -/
lemma rest_cases (v : Value ι) :
    v = .nil ∨ (∃ mark car cdr, v = .pair mark car cdr) ∨ v.isPair = false ∧ v ≠ .nil := by
  cases v with
  | atom name =>
    by_cases hname : name = "nil"
    · exact .inl (by rw [hname]; rfl)
    · exact .inr (.inr ⟨rfl, by simpa [nil] using hname⟩)
  | pair mark car cdr => exact .inr (.inl ⟨mark, car, cdr, rfl⟩)
  | closure mark lambda formals body env => exact .inr (.inr ⟨rfl, nofun⟩)
  | «foreign» n => exact .inr (.inr ⟨rfl, nofun⟩)

lemma delimited_charsRest (v : Value ι) (rest : List Char) : Delimited (v.charsRest ++ rest) := by
  rcases v.rest_cases with rfl | ⟨mark, car, cdr, rfl⟩ | ⟨hpair, hnil⟩
  · rw [charsRest_nil]
    rintro c ⟨⟩
    decide
  · rw [charsRest_pair]
    rintro c ⟨⟩
    decide
  · rw [charsRest_of_dotted hpair hnil]
    rintro c ⟨⟩
    decide

lemma takeWhile_name {name : String} (h : IsName name) {rest : List Char} (hrest : Delimited rest) :
    (name.toList ++ rest).takeWhile Token.isNameChar = name.toList := by
  rw [List.takeWhile_append_of_pos h.2]
  cases rest with
  | nil => simp
  | cons c rest => simp [hrest c rfl]

lemma name_ne_cons {name : String} (h : IsName name) {c : Char} (hc : Token.isNameChar c = false)
    (rest rest' : List Char) : name.toList ++ rest ≠ c :: rest' := by
  obtain ⟨hne, hall⟩ := h
  cases hlist : name.toList with
  | nil => exact absurd (String.toList_eq_nil_iff.mp hlist) hne
  | cons d cs =>
    intro heq
    obtain ⟨rfl, -⟩ := List.cons.inj heq
    rw [hall d (by simp [hlist])] at hc
    cases hc

/-- No printed form starts with a dot. -/
lemma chars_ne_dot {v : Value ι} (h : v.Showable) (rest rest' : List Char) :
    v.chars ++ rest ≠ '.' :: rest' := by
  cases v with
  | atom name =>
    rw [chars_atom]
    exact name_ne_cons h (by decide) rest rest'
  | pair mark car cdr => simp
  | closure mark lambda formals body env => simp
  | «foreign» n => exact h.elim

/-- What stands behind a name does not go on with it. -/
def Stops (v : Value ι) (rest : List Char) : Prop := v.isAtom = true → Delimited rest

lemma stops_of_isPair {v : Value ι} (h : v.isPair = true) (rest : List Char) : v.Stops rest := by
  intro hatom
  cases v with
  | pair mark car cdr => cases hatom
  | _ => cases h

/-- At the head of a text, the printed form of the value is told from that of any value with another
face, and from what stands behind it. -/
def Legible (v : Value ι) : Prop :=
  ∀ (w : Value ι) (rest rest' : List Char), w.Showable → v.Stops rest → w.Stops rest' →
    v.chars ++ rest = w.chars ++ rest' → v.face = w.face ∧ rest = rest'

/-- The same for the value as the rest of a list. -/
def LegibleRest (v : Value ι) : Prop :=
  ∀ (w : Value ι) (rest rest' : List Char), w.Showable →
    v.charsRest ++ rest = w.charsRest ++ rest' → v.face = w.face ∧ rest = rest'

lemma legible_atom {name : String} (h : IsName name) : (atom name : Value ι).Legible := by
  intro w rest rest' hw hrest hrest' heq
  rw [chars_atom] at heq
  cases w with
  | atom other =>
    rw [chars_atom] at heq
    have hnames : name.toList = other.toList := by
      rw [← takeWhile_name h (hrest rfl), heq, takeWhile_name hw (hrest' rfl)]
    rw [hnames] at heq
    rw [String.toList_inj.mp hnames]
    exact ⟨rfl, List.append_cancel_left heq⟩
  | pair mark car cdr =>
    rw [chars_pair] at heq
    exact absurd heq (name_ne_cons h (by decide) _ _)
  | closure mark lambda formals body env =>
    rw [chars_closure] at heq
    exact absurd heq (name_ne_cons h (by decide) _ _)
  | «foreign» n => exact hw.elim

/-- The first element of a list and the rest of it are told from one another. -/
lemma legible_parts {mark mark' : ι} {car cdr car' cdr' : Value ι} (hcar : car.Legible)
    (hcdr : cdr.LegibleRest) (hw : (pair mark' car' cdr').Showable) {rest rest' : List Char}
    (heq : car.chars ++ (cdr.charsRest ++ rest) = car'.chars ++ (cdr'.charsRest ++ rest')) :
    (pair mark car cdr).face = (pair mark' car' cdr').face ∧ rest = rest' := by
  obtain ⟨hfirst, hothers⟩ := hcar car' _ _ hw.1 (fun _ => delimited_charsRest cdr rest)
    (fun _ => delimited_charsRest cdr' rest') heq
  obtain ⟨hrest, hbehind⟩ := hcdr cdr' rest rest' hw.2 hothers
  rw [face, face, hfirst, hrest]
  exact ⟨rfl, hbehind⟩

lemma legible_pair {mark : ι} {car cdr : Value ι} (hcar : car.Legible) (hcdr : cdr.LegibleRest) :
    (pair mark car cdr).Legible := by
  intro w rest rest' hw _ _ heq
  rw [chars_pair] at heq
  cases w with
  | atom name =>
    rw [chars_atom] at heq
    exact absurd heq.symm (name_ne_cons hw (by decide) _ _)
  | pair mark' car' cdr' =>
    rw [chars_pair, List.cons_append, List.cons_append, List.append_assoc, List.append_assoc] at heq
    exact legible_parts hcar hcdr hw (List.cons.inj heq).2
  | closure mark' lambda formals body env =>
    rw [chars_closure] at heq
    exact absurd (List.cons.inj heq).1 (by decide)
  | «foreign» n => exact hw.elim

lemma legible_closure {mark : ι} {lambda formals body : Value ι} {env : Env ι}
    (hpair : lambda.isPair = true) (hlambda : lambda.Legible) :
    (closure mark lambda formals body env).Legible := by
  intro w rest rest' hw _ _ heq
  rw [chars_closure] at heq
  cases w with
  | atom name =>
    rw [chars_atom] at heq
    exact absurd heq.symm (name_ne_cons hw (by decide) _ _)
  | pair mark' car cdr =>
    rw [chars_pair] at heq
    exact absurd (List.cons.inj heq).1 (by decide)
  | closure mark' lambda' formals' body' env' =>
    -- the lambda expressions are pairs, so that the closing sign ends no name
    simp only [chars_closure, List.cons_append, List.append_assoc, List.cons.injEq, true_and,
      List.append_cancel_left_eq] at heq
    obtain ⟨hface, hbehind⟩ := hlambda lambda' _ _ hw.2 (stops_of_isPair hpair _)
      (stops_of_isPair hw.1 _) heq
    rw [face, face, hface]
    exact ⟨rfl, (List.cons.inj hbehind).2⟩
  | «foreign» n => exact hw.elim

lemma legibleRest_nil : (nil : Value ι).LegibleRest := by
  intro w rest rest' hw heq
  rw [charsRest_nil] at heq
  rcases w.rest_cases with rfl | ⟨mark, car, cdr, rfl⟩ | ⟨hpair, hnil⟩
  · rw [charsRest_nil] at heq
    exact ⟨rfl, (List.cons.inj heq).2⟩
  · rw [charsRest_pair] at heq
    exact absurd (List.cons.inj heq).1 (by decide)
  · rw [charsRest_of_dotted hpair hnil] at heq
    exact absurd (List.cons.inj heq).1 (by decide)

lemma legibleRest_pair {mark : ι} {car cdr : Value ι} (hshow : car.Showable)
    (hcar : car.Legible) (hcdr : cdr.LegibleRest) : (pair mark car cdr).LegibleRest := by
  intro w rest rest' hw heq
  rw [charsRest_pair, List.cons_append, List.append_assoc] at heq
  rcases w.rest_cases with rfl | ⟨mark', car', cdr', rfl⟩ | ⟨hpair, hnil⟩
  · rw [charsRest_nil] at heq
    exact absurd (List.cons.inj heq).1 (by decide)
  · rw [charsRest_pair, List.cons_append, List.append_assoc] at heq
    exact legible_parts hcar hcdr hw (List.cons.inj heq).2
  · rw [charsRest_of_dotted hpair hnil] at heq
    exact absurd (List.cons.inj heq).2 (chars_ne_dot hshow _ _)

/-- Behind a dot, the text of a value is told as it is anywhere else. -/
lemma legibleRest_of_dotted {v : Value ι} (hpair : v.isPair = false) (hnil : v ≠ .nil)
    (h : v.Legible) : v.LegibleRest := by
  intro w rest rest' hw heq
  rw [charsRest_of_dotted hpair hnil] at heq
  rcases w.rest_cases with rfl | ⟨mark', car', cdr', rfl⟩ | ⟨hpair', hnil'⟩
  · rw [charsRest_nil] at heq
    exact absurd (List.cons.inj heq).1 (by decide)
  · simp only [charsRest_pair, List.cons_append, List.append_assoc] at heq
    exact absurd (List.cons.inj heq).2.symm (chars_ne_dot hw.1 _ _)
  · rw [charsRest_of_dotted hpair' hnil'] at heq
    simp only [List.cons_append, List.append_assoc, List.cons.injEq, true_and] at heq
    have hclosing (behind : List Char) : Delimited ([')'] ++ behind) := by
      rintro c ⟨⟩
      decide
    obtain ⟨hface, hbehind⟩ := h w _ _ hw (fun _ => hclosing rest) (fun _ => hclosing rest') heq
    exact ⟨hface, (List.cons.inj hbehind).2⟩

theorem legible_of_showable {v : Value ι} (h : v.Showable) : v.Legible ∧ v.LegibleRest := by
  induction v with
  | atom name =>
    have hatom : (atom name : Value ι).Legible := legible_atom h
    refine ⟨hatom, ?_⟩
    by_cases hnil : (atom name : Value ι) = .nil
    · rw [hnil]
      exact legibleRest_nil
    · exact legibleRest_of_dotted rfl hnil hatom
  | pair mark car cdr ihCar ihCdr =>
    obtain ⟨hcar, -⟩ := ihCar h.1
    obtain ⟨-, hcdr⟩ := ihCdr h.2
    exact ⟨legible_pair hcar hcdr, legibleRest_pair h.1 hcar hcdr⟩
  | closure mark lambda formals body env ihLambda _ _ =>
    have hclosure : (closure mark lambda formals body env).Legible :=
      legible_closure h.1 (ihLambda h.2).1
    exact ⟨hclosure, legibleRest_of_dotted rfl nofun hclosure⟩
  | «foreign» n => exact h.elim

/-- Nothing but the face of a value is printed. -/
lemma write_of_face {v w : Value ι} (h : v.face = w.face) :
    (∀ done, write done v = write done w) ∧ ∀ done, writeRest done v = writeRest done w := by
  induction v generalizing w with
  | atom name =>
    cases w <;> cases h
    exact ⟨fun _ => rfl, fun _ => rfl⟩
  | pair mark car cdr ihCar ihCdr =>
    cases w with
    | pair mark' car' cdr' =>
      obtain ⟨hcar, hcdr⟩ := Face.pair.inj h
      refine ⟨fun done => ?_, fun done => ?_⟩
      · rw [write, write, (ihCar hcar).1, (ihCdr hcdr).2]
      · rw [writeRest, writeRest, (ihCar hcar).1, (ihCdr hcdr).2]
    | _ => cases h
  | closure mark lambda formals body env ihLambda _ _ =>
    cases w with
    | closure mark' lambda' formals' body' env' =>
      obtain ⟨hwrite, -⟩ := ihLambda (Face.closure.inj h)
      refine ⟨fun done => ?_, fun done => ?_⟩
      · rw [write, write, hwrite]
      · rw [writeRest, writeRest, hwrite]
    | _ => cases h
  | «foreign» n =>
    cases w <;> cases h
    exact ⟨fun _ => rfl, fun _ => rfl⟩

theorem text_eq_iff {v w : Value ι} (hv : v.Showable) (hw : w.Showable) :
    v.text = w.text ↔ v.face = w.face := by
  constructor
  · intro htext
    have hend : Delimited [] := by
      rintro c ⟨⟩
    have hchars : v.chars ++ [] = w.chars ++ [] := by rw [chars, chars, htext]
    exact ((legible_of_showable hv).1 w [] [] hw (fun _ => hend) (fun _ => hend) hchars).1
  · intro hface
    exact (write_of_face hface).1 ""

/-- Without closures, values of one face are equal. -/
lemma alike_iff_face [DecidableEq ι] {v w : Value ι} (hv : v.ClosureFree) (hw : w.ClosureFree) :
    v.alike w = true ↔ v.face = w.face := by
  induction v generalizing w with
  | atom name => cases w <;> simp [alike, face]
  | pair mark car cdr ihCar ihCdr =>
    cases w with
    | pair mark' car' cdr' =>
      simp only [alike, face, Bool.and_eq_true, Face.pair.injEq, ihCar hv.1 hw.1, ihCdr hv.2 hw.2]
    | _ => simp [alike, face]
  | closure mark lambda formals body env => exact hv.elim
  | «foreign» n => cases w <;> simp [alike, face]

lemma Showable.obstacle {v : Value ι} (h : v.Showable) : v.obstacle none = none := by
  induction v with
  | atom name => rfl
  | pair mark car cdr ihCar ihCdr => simp [Value.obstacle, ihCar h.1, ihCdr h.2]
  | closure mark lambda formals body env ihLambda _ _ => exact ihLambda h.2
  | «foreign» n => exact h.elim

lemma text_of_print {limits : Limits} {v : Value ι} {shown : String}
    (h : v.print limits = .ok shown) : v.text = shown := by
  unfold print at h
  split at h
  · cases h
  · exact Except.ok.inj h

end Value

/-- Every value of atoms, pairs and closures has a printed form, if there is no limit to nesting.
Two of them have the same printed form just if they have the same face, which without closures means
that they are equal. -/
theorem printed_form_determines_value [DecidableEq ι] (v w : Value ι) (hv : v.Showable)
    (hw : w.Showable) :
    (∃ shown shown', v.print .none = .ok shown ∧ w.print .none = .ok shown') ∧
    ∀ limits shown shown', v.print limits = .ok shown → w.print limits = .ok shown' →
      (shown = shown' ↔ v.face = w.face) ∧
      (v.ClosureFree → w.ClosureFree → (shown = shown' ↔ v.alike w = true)) := by
  refine ⟨⟨v.text, w.text, ?_, ?_⟩, ?_⟩
  · rw [Value.print, Limits.none, hv.obstacle]
  · rw [Value.print, Limits.none, hw.obstacle]
  · intro limits shown shown' hshown hshown'
    rw [← Value.text_of_print hshown, ← Value.text_of_print hshown', Value.text_eq_iff hv hw]
    refine ⟨Iff.rfl, ?_⟩
    intro hfree hfree'
    rw [Value.alike_iff_face hfree hfree']

/-- Closures of one lambda expression print alike in all environments, and a dotted pair does not
print as a list. -/
theorem printed_forms_of_closures_and_pairs :
    let lambda : Value Unit := .ofSExpr (.ofList [.atom "lambda", .nil, .atom ">"])
    let closure (env : Env Unit) : Value Unit :=
      .pair () (.atom "<") (.closure () lambda .nil (.atom ">") env)
    let dotted : Value Unit := .pair () (.atom "a") (.atom "b")
    let listed : Value Unit := .pair () (.atom "a") (.pair () (.atom "b") .nil)
    (closure []).print .none = .ok "(< . #<closure (lambda nil >)>)" ∧
      (closure [⟨(), 3⟩]).print .none = .ok "(< . #<closure (lambda nil >)>)" ∧
      (closure []).face = (closure [⟨(), 3⟩]).face ∧
      dotted.print .none = .ok "(a . b)" ∧ listed.print .none = .ok "(a b)" ∧
      dotted.face ≠ listed.face ∧ dotted.alike listed = false := by
  intro lambda closure dotted listed
  have hshow (env : Env Unit) : (closure env).Showable :=
    (by decide : (closure []).Showable)
  have hshown (env : Env Unit) :
      (closure env).print .none = .ok "(< . #<closure (lambda nil >)>)" := by
    rfl
  have hdotted : dotted.print .none = .ok "(a . b)" := by decide +kernel
  have hlisted : listed.print .none = .ok "(a b)" := by decide +kernel
  have hclosures := printed_form_determines_value _ _ (hshow []) (hshow [⟨(), 3⟩])
  have hpairs := printed_form_determines_value dotted listed (by decide) (by decide)
  have hdiffer : ¬ "(a . b)" = "(a b)" := by decide
  obtain ⟨hface, hequal⟩ := hpairs.2 .none _ _ hdotted hlisted
  refine ⟨hshown [], hshown _, (hclosures.2 .none _ _ (hshown []) (hshown _)).1.mp rfl, hdotted,
    hlisted, fun h => hdiffer (hface.mpr h), Bool.eq_false_iff.mpr fun h => hdiffer ?_⟩
  exact (hequal ⟨trivial, trivial⟩ ⟨trivial, trivial, trivial⟩).mpr h

end Evlis
