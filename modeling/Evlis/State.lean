import Evlis.Event

/-!
# Frames and the state of an evaluation

A frame binds names to values by two lists that are walked side by side. A frame made by `letrec`
is pending at first and gets its bindings later, once and all together. The state holds all frames
by number, so that a closure may refer to a frame that binds the closure itself.
-/

namespace Evlis

/-- One scope of bindings. -/
inductive Frame (ι : Type) where
  | pending
  | filled (names values : Value ι)
deriving DecidableEq

namespace Frame

variable {ι : Type}

/-- The value at the first place where the name stands, as far as both lists go. -/
def findIn [DecidableEq ι] (name : Value ι) : Value ι → Value ι → Option (Value ι)
  | .pair _ n names, .pair _ v values =>
    if n.alike name then some v else findIn name names values
  | _, _ => none

def find [DecidableEq ι] (frame : Frame ι) (name : Value ι) : Option (Value ι) :=
  match frame with
  | .pending => none
  | .filled names values => findIn name names values

/-- The bindings of a frame behind those in `done`. -/
def writeBindings (limits : Limits) (done : String) (first : Bool) :
    Value ι → Value ι → Except Fault String
  | .pair _ n names, .pair _ v values =>
    match n.display limits with
    | .error fault => .error fault
    | .ok name =>
      match v.display limits with
      | .error fault => .error fault
      | .ok value =>
        let done := if first then done else done ++ ", "
        writeBindings limits (done ++ name ++ ": " ++ value) false names values
  | _, _ => .ok done

/-- The bindings of a frame in braces. -/
def text (limits : Limits) : Frame ι → Except Fault String
  | .pending => .ok "\x7b\x7d"
  | .filled names values =>
    (writeBindings limits "\x7b" true names values).map fun shown => shown ++ "\x7d"

end Frame

/-- What an evaluation reads and changes: the frames, the supply of marks, the lines printed so
far, and the events so far. -/
structure State (ι : Type) where
  frames : Array (Frame ι)
  mark : ι
  printed : Array String
  events : Array (Event ι)
deriving DecidableEq

namespace State

variable {ι : Type}

/-- No frames, and nothing reported. -/
def empty [Marking ι] : State ι := ⟨#[], Marking.first, #[], #[]⟩

def fresh [Marking ι] (s : State ι) : ι × State ι :=
  (s.mark, { s with mark := Marking.next s.mark })

def cons [Marking ι] (car cdr : Value ι) (s : State ι) : Value ι × State ι :=
  let (mark, s) := s.fresh
  (.pair mark car cdr, s)

/-- Put elements, given last first, in front of a list. -/
def chain [Marking ι] : List (Value ι) → Value ι → State ι → Value ι × State ι
  | [], tail, s => (tail, s)
  | e :: elements, tail, s =>
    let (tail, s) := s.cons e tail
    chain elements tail s

def list [Marking ι] (elements : List (Value ι)) (s : State ι) : Value ι × State ι :=
  chain elements.reverse .nil s

/-- Bring a program text into the state, behind elements that are given last first. -/
def loadOnto [Marking ι] (seen : List (Value ι)) : SExpr → State ι → Value ι × State ι
  | .atom name, s => chain seen (.atom name) s
  | .pair car cdr, s =>
    let (car, s) := loadOnto [] car s
    loadOnto (car :: seen) cdr s

def load [Marking ι] (e : SExpr) (s : State ι) : Value ι × State ι := loadOnto [] e s

theorem chain_unit (elements : List (Value Unit)) (tail : Value Unit) (s : State Unit) :
    chain elements tail s = (elements.foldl (fun tail v => .pair () v tail) tail, s) := by
  induction elements generalizing tail with
  | nil => rfl
  | cons e elements ih => exact ih _

theorem loadOnto_unit (seen : List (Value Unit)) (e : SExpr) (s : State Unit) :
    loadOnto seen e s = (Value.ofSExprOnto seen e, s) := by
  induction e generalizing seen with
  | atom name => rw [loadOnto, chain_unit, Value.ofSExprOnto]
  | pair car cdr ihCar ihCdr => simp only [loadOnto, ihCar, ihCdr, Value.ofSExprOnto]

/-- With trivial marks, a program text is brought into a state by turning it into a value. -/
@[simp]
theorem load_unit (e : SExpr) (s : State Unit) : load e s = (Value.ofSExpr e, s) :=
  loadOnto_unit [] e s

/-- Add a frame; its number is returned. -/
def addFrame (frame : Frame ι) (s : State ι) : Nat × State ι :=
  (s.frames.size, { s with frames := s.frames.push frame })

def link [Marking ι] (frame : Nat) (env : Env ι) (s : State ι) : Env ι × State ι :=
  let (mark, s) := s.fresh
  (⟨mark, frame⟩ :: env, s)

def extend [Marking ι] (frame : Frame ι) (env : Env ι) (s : State ι) : Env ι × State ι :=
  let (number, s) := s.addFrame frame
  s.link number env

/-- Install the bindings of a pending frame. -/
def fill (number : Nat) (names values : Value ι) (s : State ι) : Except Fault (State ι) :=
  match s.frames[number]? with
  | some .pending => .ok { s with frames := s.frames.setIfInBounds number (.filled names values) }
  | _ => .error .frameFilled

/-- The value of a name in the innermost frame that binds it. -/
def lookup? [DecidableEq ι] (s : State ι) (name : Value ι) : Env ι → Option (Value ι)
  | [] => none
  | rib :: outer =>
    match s.frames[rib.frame]? with
    | none => lookup? s name outer
    | some frame =>
      match frame.find name with
      | some v => some v
      | none => lookup? s name outer

def lookup [DecidableEq ι] (limits : Limits) (s : State ι) (env : Env ι) (name : Value ι) :
    Except Fault (Value ι) :=
  match s.lookup? name env with
  | some v => .ok v
  | none => .error (name.blame limits .unbound)

/-- The texts of the frames of an environment, innermost first. -/
def frameTexts (limits : Limits) (s : State ι) (env : Env ι) : Except Fault (List String) :=
  env.mapM fun rib => ((s.frames[rib.frame]?).getD .pending).text limits

/-- The innermost frame of an environment, and a sign that there are others. -/
def envText (limits : Limits) (s : State ι) (env : Env ι) : Except Fault String :=
  match env with
  | [] => .ok ""
  | rib :: outer =>
    (((s.frames[rib.frame]?).getD .pending).text limits).map fun shown =>
      if outer.isEmpty then shown else shown ++ " -> ..."

def envChain (limits : Limits) (s : State ι) (env : Env ι) : Except Fault String :=
  (s.frameTexts limits env).map fun texts =>
    "<Environment chain: " ++ " -> ".intercalate texts ++ ">"

def log (event : Event ι) (s : State ι) : State ι :=
  { s with events := s.events.push event }

def printLine (line : String) (s : State ι) : State ι :=
  { s with printed := s.printed.push line }

end State

end Evlis
