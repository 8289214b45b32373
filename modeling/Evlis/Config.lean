import Evlis.Text.Integer
import Evlis.Text.Quoted

/-!
# Settings

The settings of a run. They have defaults, are taken from the variables of the surroundings, and
may be overridden by options.
-/

namespace Evlis

/-- The variables a run is started with. -/
abbrev Variables := List (String × String)

/-- A variable should be an integer and is not. -/
structure SettingFault where
  var : String
  raw : String
deriving DecidableEq

def SettingFault.message (fault : SettingFault) : String :=
  fault.var ++ " must be an integer, got " ++ Text.quoted fault.raw

namespace Variables

/-- The text of a variable that is set to more than white space. -/
def given? (vars : Variables) (var : String) : Option String :=
  (vars.lookup var).filter fun raw => !Text.isBlankText raw

/-- The words for yes. No letter outside ASCII becomes a letter of one of them in lower case. -/
def isYes (word : String) : Bool :=
  ["1", "true", "yes", "on"].contains word.toLower

/-- A variable that is set to yes or to something else. -/
def flag (vars : Variables) (var : String) (default : Bool) : Bool :=
  match vars.given? var with
  | none => default
  | some raw => isYes (Text.trim raw)

def integer (vars : Variables) (var : String) (default : Int) : Except SettingFault Int :=
  match vars.given? var with
  | none => .ok default
  | some raw =>
    match Text.integer? (Text.trim raw) with
    | some n => .ok n
    | none => .error ⟨var, raw⟩

end Variables

structure Config where
  parallel : Bool := false
  workers : Int := 32
  /-- How many calls may be nested. -/
  recursionLimit : Int := 20000
  /-- The bytes of stack that a worker gets. -/
  stackSize : Int := 67108864
  logLevel : String := "WARNING"
deriving DecidableEq

namespace Config

/-- The settings that variables make; the first that is no integer is reported. -/
def ofVariables (vars : Variables) : Except SettingFault Config := do
  let defaults : Config := {}
  let workers ← vars.integer "FORKLISP_MAX_WORKERS" defaults.workers
  let recursionLimit ← vars.integer "FORKLISP_RECURSION_LIMIT" defaults.recursionLimit
  let stackSize ← vars.integer "FORKLISP_THREAD_STACK_SIZE" defaults.stackSize
  return {
    parallel := vars.flag "FORKLISP_PARALLEL" defaults.parallel
    workers, recursionLimit, stackSize
    logLevel := (vars.lookup "FORKLISP_LOG_LEVEL").getD defaults.logLevel }

def override (config : Config) (parallel : Option Bool) (workers : Option Int)
    (logLevel : Option String) : Config :=
  { config with
    parallel := parallel.getD config.parallel
    workers := workers.getD config.workers
    logLevel := logLevel.getD config.logLevel }

end Config

end Evlis
