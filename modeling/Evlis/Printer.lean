import Evlis.Value

/-!
# Printing values

Atoms print as their names, lists as `(e1 e2 ... en)`, chains that do not end in `nil` as
`(e1 ... en . tail)`, and closures as `#<closure (lambda ...)>`, without their environment.
-/

namespace Evlis

/-- How deep reading, evaluating and printing may nest; without a number there is no limit. -/
structure Limits where
  /-- Evaluations waiting for an inner one. -/
  depth : Option Nat
  /-- Lists inside lists. -/
  nesting : Option Nat
deriving DecidableEq

def Limits.none : Limits := ⟨.none, .none⟩

/-- The limits of a stack of `n` calls: a nested list takes one of them, an evaluation in order
four. -/
def Limits.ofCalls (n : Nat) : Limits := ⟨some (n / 4), some n⟩

namespace Value

variable {ι : Type}

mutual

def write (done : String) : Value ι → String
  | .atom name => done ++ name
  | .pair _ car cdr => writeRest (write (done ++ "(") car) cdr
  | .closure _ lambda _ _ _ => write (done ++ "#<closure ") lambda ++ ">"
  | .foreign n => done ++ Text.decimal n

def writeRest (done : String) : Value ι → String
  | .atom name => if name = "nil" then done ++ ")" else done ++ " . " ++ name ++ ")"
  | .pair _ car cdr => writeRest (write (done ++ " ") car) cdr
  | .closure _ lambda _ _ _ => write (done ++ " . #<closure ") lambda ++ ">)"
  | .foreign n => done ++ " . " ++ Text.decimal n ++ ")"

end

/-- What is written behind a text does not depend on the text. -/
theorem write_append (v : Value ι) :
    (∀ front done : String, write (front ++ done) v = front ++ write done v) ∧
      ∀ front done : String, writeRest (front ++ done) v = front ++ writeRest done v := by
  induction v with
  | atom name =>
    refine ⟨fun front done => ?_, fun front done => ?_⟩
    · simp only [write, String.append_assoc]
    · by_cases h : name = "nil" <;> simp [writeRest, h, String.append_assoc]
  | foreign n =>
    refine ⟨fun front done => ?_, fun front done => ?_⟩
    · simp only [write, String.append_assoc]
    · simp only [writeRest, String.append_assoc]
  | pair mark car cdr ihCar ihCdr =>
    refine ⟨fun front done => ?_, fun front done => ?_⟩
    · simp only [write, String.append_assoc, ihCar.1, ihCdr.2]
    · simp only [writeRest, String.append_assoc, ihCar.1, ihCdr.2]
  | closure mark lambda formals body env ihLambda _ _ =>
    refine ⟨fun front done => ?_, fun front done => ?_⟩
    · simp only [write, String.append_assoc, ihLambda.1]
    · simp only [writeRest, String.append_assoc, ihLambda.1]

def text (v : Value ι) : String := write "" v

def textRest (v : Value ι) : String := writeRest "" v

theorem write_eq (done : String) (v : Value ι) : write done v = done ++ v.text := by
  have h := (write_append v).1 done ""
  rwa [String.append_empty] at h

theorem writeRest_eq (done : String) (v : Value ι) : writeRest done v = done ++ v.textRest := by
  have h := (write_append v).2 done ""
  rwa [String.append_empty] at h

@[simp]
theorem text_pair (mark : ι) (car cdr : Value ι) :
    (pair mark car cdr).text = "(" ++ car.text ++ cdr.textRest := by
  rw [text, write, writeRest_eq, write_eq, String.empty_append]

@[simp]
theorem textRest_pair (mark : ι) (car cdr : Value ι) :
    (pair mark car cdr).textRest = " " ++ car.text ++ cdr.textRest := by
  rw [textRest, writeRest, writeRest_eq, write_eq, String.empty_append]

/-- The first reason, from left to right, why a value has no printed form: an integer from
outside, or lists nested deeper than `room` says. -/
def obstacle (room : Option Nat) : Value ι → Option Fault
  | .atom _ => none
  | .pair _ car cdr =>
    if room = some 0 then some .tooDeep
    else
      match obstacle (room.map Nat.pred) car with
      | some fault => some fault
      | none => obstacle room cdr
  | .closure _ lambda _ _ _ => obstacle room lambda
  | .foreign n => some (.cannotPrint (Text.decimal n))

/-- The printed form of a value, if it has one. -/
def print (limits : Limits) (v : Value ι) : Except Fault String :=
  match obstacle limits.nesting v with
  | some fault => .error fault
  | none => .ok v.text

/-- A value as reports show it; an integer from outside shows its digits. -/
def display (limits : Limits) : Value ι → Except Fault String
  | .foreign n => .ok (Text.decimal n)
  | v => v.print limits

/-- A value as reports show it where its sort matters. -/
def represent (limits : Limits) : Value ι → Except Fault String
  | .atom name => .ok ("Atom(" ++ Text.quoted name ++ ")")
  | .pair mark car cdr =>
    ((Value.pair mark car cdr).print limits).map fun shown => "<Pair " ++ shown ++ ">"
  | v => v.display limits

/-- The fault that shows a value, or what keeps the value from being shown. -/
def blame (limits : Limits) (v : Value ι) (fault : String → Fault) : Fault :=
  match v.display limits with
  | .ok shown => fault shown
  | .error obstacle => obstacle

def toList (limits : Limits) (v : Value ι) : Except Fault (List (Value ι)) :=
  if v.ending.isNil then .ok v.elements
  else .error (v.ending.blame limits .improperTail)

end Value

end Evlis
