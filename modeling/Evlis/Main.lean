import Evlis.CommandLine

/-!
# The command

The outer layer of the command: it gathers what a run depends on, and writes what the run reports.
-/

namespace Evlis.CommandLine

def variableNames : List String :=
  ["FORKLISP_PARALLEL", "FORKLISP_MAX_WORKERS", "FORKLISP_RECURSION_LIMIT",
   "FORKLISP_THREAD_STACK_SIZE", "FORKLISP_LOG_LEVEL"]

def readVariables : IO Variables := do
  let mut found : Variables := []
  for name in variableNames do
    match ← IO.getEnv name with
    | some value => found := found ++ [(name, value)]
    | none => pure ()
  return found

/-- Why a file could not be read. A code may have either sign. -/
def fileFault : IO.Error → FileFault
  | .noFileOrDirectory .. => .missing
  | .permissionDenied .. => .denied
  | .inappropriateType _ code _ =>
    if code = 21 || code = 0 - 21 then .directory else .notDirectory
  | .invalidArgument _ code reason =>
    if code = 36 || code = 0 - 36 then .nameTooLong else .other reason
  | e => .other (toString e)

/-- The bytes of the file that the command line names. -/
def readNamed (arguments : List String) : IO (String → Except FileFault (List UInt8)) := do
  match Options.parse arguments with
  | .ok { file := some name, .. } =>
    if name = "" then return fun _ => .error .missing
    try
      let bytes ← IO.FS.readBinFile name
      return fun _ => .ok bytes.toList
    catch e => return fun _ => .error (fileFault e)
  | _ => return fun _ => .error .missing

/-- All of a stream, behind what is already read. -/
partial def readAll (stream : IO.FS.Stream) (done : String) : IO String := do
  let line ← stream.getLine
  if line.isEmpty then return done else readAll stream (done ++ line)

/-- The standard input, unless the command line names a file. -/
def readInput (arguments : List String) : IO String := do
  match Options.parse arguments with
  | .ok options =>
    if (options.file.filter (· ≠ "")).isSome then return "" else readAll (← IO.getStdin) ""
  | .error _ => return ""

def writeNotice (stream : IO.FS.Stream) : Notice → IO Unit
  | .text text => stream.putStr text
  | .trace kind => stream.putStr ("traceback " ++ kind.label ++ "\n")

/-- Run the command and write what it reports; the result is the exit status. -/
def command (arguments : List String) : IO UInt32 := do
  let surroundings : Surroundings :=
    ⟨← readVariables, ← readNamed arguments, ← readInput arguments⟩
  match run (Nat.pow 2 62) surroundings arguments with
  | none => return 1
  | some report =>
    (← IO.getStdout).putStr report.output
    let stderr ← IO.getStderr
    report.notices.forM (writeNotice stderr)
    match report.status with
    | .ok status => return status.toUInt32
    | .error escape =>
      stderr.putStr (escape.message ++ "\n")
      return 1

end Evlis.CommandLine

def main (arguments : List String) : IO UInt32 := Evlis.CommandLine.command arguments
