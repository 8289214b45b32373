import Evlis.CommandLine.FileTree
import Evlis.CommandLine.Options
import Evlis.Config
import Evlis.Interpreter
import Evlis.Log
import Evlis.Text.Utf8

/-!
# Running from the command line

One run: the words of the command line, the variables, the files and the standard input determine
what is written to the standard output and to the standard error, and the exit status. Some faults
are no business of the program and end the run without a status.
-/

namespace Evlis.CommandLine

/-- A fault that ends a run without an exit status. -/
inductive Escape where
  | fault (cause : Fault)
  | setting (cause : SettingFault)
  | level (cause : Log.LevelFault)
  /-- The level from which on events are shown is turned to no value. -/
  | levelEmptied
  /-- The size of a crew that is needed is turned to no value. -/
  | workersEmptied
  | undecodable (cause : Text.DecodeFault)
  /-- The name of a file holds the character that ends names. -/
  | nameEnds
  /-- The number of nested calls does not fit a machine word. -/
  | limitTooLarge
  /-- The size of a stack does not fit a machine word. -/
  | stackTooLarge
  | stackNegative
  | stackInvalid (size : Int)
deriving DecidableEq

def decodeMessage (fault : Text.DecodeFault) : String :=
  let place :=
    if fault.size = 1 then
      "byte 0x" ++ String.ofList (Text.hexadecimal 2 fault.byte.toNat) ++ " in position "
        ++ Nat.repr fault.position
    else
      "bytes in position " ++ Nat.repr fault.position ++ "-"
        ++ Nat.repr (fault.position + fault.size - 1)
  let reason := match fault.reason with
    | .invalidStart => "invalid start byte"
    | .invalidContinuation => "invalid continuation byte"
    | .truncated => "unexpected end of data"
  "'utf-8' codec can't decode " ++ place ++ ": " ++ reason

def Escape.message : Escape → String
  | .fault cause => cause.message
  | .setting cause => cause.message
  | .level cause => cause.message
  | .levelEmptied => "'list' object has no attribute 'upper'"
  | .workersEmptied => "'<' not supported between instances of 'list' and 'int'"
  | .undecodable cause => decodeMessage cause
  | .nameEnds => "embedded null byte"
  | .limitTooLarge => "Python int too large to convert to C int"
  | .stackTooLarge => "Python int too large to convert to C ssize_t"
  | .stackNegative => "size must be 0 or a positive value"
  | .stackInvalid size => "size not valid: " ++ Text.decimal size ++ " bytes"

/-- Something on the standard error: text, or the trace of a fault. -/
inductive Notice where
  | text (text : String)
  | trace (kind : Fault.Kind)
deriving DecidableEq

structure Report where
  status : Except Escape Nat
  output : String
  notices : List Notice

def usage : String :=
  "usage: forklisp [-h] [-p] [--max-workers MAX_WORKERS] [--no-echo]\n" ++
  "                [--log-level LOG_LEVEL]\n" ++
  "                [file]\n"

def helpText : String :=
  usage ++ "\n" ++
  "Evaluate one S-expression program and print its value.\n" ++
  "\n" ++
  "positional arguments:\n" ++
  "  file                  program file (default: stdin)\n" ++
  "\n" ++
  "options:\n" ++
  "  -h, --help            show this help message and exit\n" ++
  "  -p, --parallel        evaluate call arguments concurrently (fork-join)\n" ++
  "  --max-workers MAX_WORKERS\n" ++
  "                        fan-out cap for -p\n" ++
  "  --no-echo             do not echo the program text before the result\n" ++
  "  --log-level LOG_LEVEL\n" ++
  "                        DEBUG, INFO, WARNING, ...\n"

structure Surroundings where
  vars : Variables
  file : String → Except FileFault (List UInt8)
  input : String

/-- The text of the program, why it cannot be had, or what ends the run. -/
def programText (surroundings : Surroundings) (name : Option String) :
    Except (Escape ⊕ String) String :=
  match name.filter (· ≠ "") with
  | none => .ok (Text.unifyLines surroundings.input)
  | some name =>
    if name.toList.contains '\x00' then .error (.inl .nameEnds)
    else
      match surroundings.file name with
      | .error fault => .error (.inr (fault.message name))
      | .ok bytes =>
        match Text.decode bytes with
        | .error fault => .error (.inl (.undecodable fault))
        | .ok text => .ok (Text.unifyLines text)

/-- How many calls may be nested if nothing is said. -/
def leastCalls : Int := 1000

/-- The limits that a number of nested calls makes. -/
def callLimits (calls : Int) : Except Escape Limits :=
  let calls := max leastCalls calls
  if calls < Int.pow 2 31 then .ok (.ofCalls calls.toNat) else .error .limitTooLarge

/-- Whether a worker can have a stack of the given size; zero stands for the usual one. -/
def checkStack (size : Int) : Except Escape Unit :=
  if size < -Int.pow 2 63 || Int.pow 2 63 ≤ size then .error .stackTooLarge
  else if size < 0 then .error .stackNegative
  else if size = 0 || 32768 ≤ size then .ok ()
  else .error (.stackInvalid size)

def prepare (options : Options) (config : Config) : Except Escape Limits := do
  let limits ← callLimits config.recursionLimit
  if config.parallel then
    checkStack config.stackSize
    if options.workers = .emptied then throw .workersEmptied
  return limits

def stackRoom : Int := Int.pow 2 36

/-- The interpreter for a run. If there is no room for the stack of a worker, none can be
started. -/
def interpreter (config : Config) : Except Fault Interpreter := do
  let interpreter ← Interpreter.create config.parallel (some config.workers)
  if config.stackSize ≤ stackRoom then return interpreter
  else return ⟨interpreter.strategy.refuse .noThread⟩

def eventNotices (threshold : Int) (events : Array (Event Unit)) : List Notice :=
  match Log.render threshold (events.toList.map .ofEvent) with
  | "" => []
  | lines => [.text lines]

/-- The record that goes with a fault of the program. -/
def abortNotices (threshold : Int) (kind : Fault.Kind) : List Notice :=
  let record : Log.Record := ⟨"forklisp", 10, "Evaluation aborted"⟩
  if record.isShown threshold then [.text record.line, .trace kind] else []

def printedText (lines : Array String) : String :=
  lines.foldl (fun text line => (text ++ line).push '\n') ""

/-- Report how a program has ended, behind what is already written. -/
def conclude (threshold : Int) (echoed : String) (result : Except Fault String)
    (s : State Unit) : Report :=
  let output := echoed ++ printedText s.printed
  let notices := eventNotices threshold s.events
  match result with
  | .ok value => ⟨.ok 0, (output ++ value).push '\n', notices⟩
  | .error .tooDeep => ⟨.ok 1, output, notices ++ [.text "error: recursion too deep\n"]⟩
  | .error fault =>
    if fault.kind.isLanguage then
      ⟨.ok 1, output, notices ++ abortNotices threshold fault.kind
        ++ [.text ("error: " ++ fault.message ++ "\n")]⟩
    else ⟨.error (.fault fault), output, notices⟩

def runWith (fuel : Nat) (surroundings : Surroundings) (options : Options) (config : Config)
    (threshold : Int) : Option Report :=
  match programText surroundings options.file with
  | .error (.inl escape) => some ⟨.error escape, "", []⟩
  | .error (.inr message) =>
    some ⟨.ok 1, "", [.text ("error: cannot read program: " ++ message ++ "\n")]⟩
  | .ok source =>
    let echoed := if options.echo then source.push '\n' else ""
    match prepare options config with
    | .error escape => some ⟨.error escape, echoed, []⟩
    | .ok limits =>
      match interpreter config with
      | .error fault => some (conclude threshold echoed (.error fault) .empty)
      | .ok interpreter =>
        match interpreter.runOnce fuel limits source with
        | none => none
        | some (result, s) => some (conclude threshold echoed result s)

/-- The level from which on events are shown. -/
def showFrom (options : Options) (config : Config) : Except Escape Int :=
  if options.logLevel = .emptied then .error .levelEmptied
  else (Log.threshold config.logLevel).mapError .level

def run (fuel : Nat) (surroundings : Surroundings) (arguments : List String) : Option Report :=
  match Options.parse arguments with
  | .error .help => some ⟨.ok 0, helpText, []⟩
  | .error (.misuse message) =>
    some ⟨.ok 2, "", [.text (usage ++ "forklisp: error: " ++ message ++ "\n")]⟩
  | .ok options =>
    match Config.ofVariables surroundings.vars with
    | .error fault => some ⟨.error (.setting fault), "", []⟩
    | .ok config =>
      let config :=
        config.override options.parallel options.workers.value? options.logLevel.value?
      match showFrom options config with
      | .error escape => some ⟨.error escape, "", []⟩
      | .ok threshold => runWith fuel surroundings options config threshold

end Evlis.CommandLine
