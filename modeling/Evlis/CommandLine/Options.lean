import Evlis.Text.Integer
import Evlis.Text.Quoted

/-!
# Options

The words of a command line: switches, their values, and the name of a file. Long switches may be
cut short as long as they are not mistaken, short ones may be joined, and after `--` there are no
switches.
-/

namespace Evlis.CommandLine

inductive Switch where
  | help
  | parallel
  | workers
  | noEcho
  | logLevel
deriving DecidableEq

namespace Switch

/-- All spellings, in the order they are listed in. -/
def spellings : List (String × Switch) :=
  [("-h", help), ("--help", help), ("-p", parallel), ("--parallel", parallel),
   ("--max-workers", workers), ("--no-echo", noEcho), ("--log-level", logLevel)]

def label : Switch → String
  | help => "-h/--help"
  | parallel => "-p/--parallel"
  | workers => "--max-workers"
  | noEcho => "--no-echo"
  | logLevel => "--log-level"

def takesValue : Switch → Bool
  | workers | logLevel => true
  | help | parallel | noEcho => false

end Switch

/-- Why there are no options to work with. -/
inductive Stop where
  | help
  | misuse (message : String)
deriving DecidableEq

inductive Word where
  /-- The name of a file, or a value. -/
  | plain (text : String)
  /-- The end of the switches. -/
  | divider
  /-- A switch, whether it is a short one, and what is attached to it. -/
  | switch (switch : Switch) (short : Bool) (attached : Option String)
  | unknown (text : String)
deriving DecidableEq

namespace Word

/-- The text in front of the first equals sign and the text behind it. -/
def splitAtEquals (text : List Char) : List Char × Option String :=
  match text.dropWhile (· ≠ '=') with
  | [] => (text, none)
  | _ :: value => (text.takeWhile (· ≠ '='), some (String.ofList value))

/-- The spellings that a word may stand for, with what is attached to it. -/
def candidates (text : List Char) : List (String × Word) :=
  match text with
  | '-' :: '-' :: _ =>
    let (name, attached) := splitAtEquals text
    (Switch.spellings.filter fun s => name.isPrefixOf s.1.toList).map fun s =>
      (s.1, .switch s.2 false attached)
  | '-' :: c :: attached =>
    (Switch.spellings.filter fun s => s.1.toList = ['-', c]).map fun s =>
      (s.1, .switch s.2 true (some (String.ofList attached)))
  | _ => []

/-- Whether a word is a negative number, with or without a decimal point. -/
def isNegativeNumber (text : List Char) : Bool :=
  let isDigit c := (Text.digitValue? c).isSome
  let allDigits (cs : List Char) := !cs.isEmpty && cs.all isDigit
  let body := if text.getLast? = some '\n' then text.dropLast else text
  match body with
  | '-' :: rest =>
    allDigits rest ||
      (match rest.dropWhile isDigit with
       | '.' :: places => allDigits places
       | _ => false)
  | _ => false

/-- What a word in front of `--` is. -/
def ofString (text : String) : Except Stop Word :=
  let chars := text.toList
  match chars with
  | '-' :: second :: _ =>
    match Switch.spellings.lookup text with
    | some s => .ok (.switch s (second ≠ '-') none)
    | none =>
      let (name, attached) := splitAtEquals chars
      match attached, Switch.spellings.lookup (String.ofList name) with
      | some value, some s => .ok (.switch s (second ≠ '-') (some value))
      | _, _ =>
        match candidates chars with
        | [(_, word)] => .ok word
        | [] =>
          if isNegativeNumber chars || chars.contains ' ' then .ok (.plain text)
          else .ok (.unknown text)
        | several =>
          .error (.misuse ("ambiguous option: " ++ text ++ " could match "
            ++ ", ".intercalate (several.map Prod.fst)))
  | _ => .ok (.plain text)

def ofStrings : List String → Except Stop (List Word)
  | [] => .ok []
  | "--" :: rest => .ok (.divider :: rest.map .plain)
  | text :: rest => do
    let word ← ofString text
    let words ← ofStrings rest
    return word :: words

end Word

/-- What a command line says about a setting. -/
inductive Choice (α : Type) where
  | unsaid
  /-- The setting is turned to no value. -/
  | emptied
  | value (a : α)
deriving DecidableEq

def Choice.value? {α : Type} : Choice α → Option α
  | .unsaid | .emptied => none
  | .value a => some a

structure Options where
  file : Option String := none
  parallel : Option Bool := none
  workers : Choice Int := .unsaid
  echo : Bool := true
  logLevel : Choice String := .unsaid
deriving DecidableEq

namespace Options

def complaint (s : Switch) (message : String) : Stop :=
  .misuse ("argument " ++ s.label ++ ": " ++ message)

/-- A value that is attached to a switch which takes none. -/
def ignored (s : Switch) (attached : String) : Stop :=
  complaint s ("ignored explicit argument " ++ Text.quoted attached)

def turn (s : Switch) (options : Options) : Except Stop Options :=
  match s with
  | .help => .error .help
  | .parallel => .ok { options with parallel := some true }
  | .noEcho => .ok { options with echo := false }
  | .workers | .logLevel => .error (complaint s "expected one argument")

/-- Turn a switch to a value. A value `--` counts as the mark that it is elsewhere, so that the
switch is left without a value. -/
def turnTo (s : Switch) (value : String) (options : Options) : Except Stop Options :=
  match s with
  | .workers =>
    if value = "--" then .ok { options with workers := .emptied }
    else
      match Text.integer? value with
      | some n => .ok { options with workers := .value n }
      | none => .error (complaint s ("invalid int value: " ++ Text.quoted value))
  | .logLevel =>
    .ok { options with logLevel := if value = "--" then .emptied else .value value }
  | .help | .parallel | .noEcho => .error (ignored s value)

/-- The short switches that are joined to `s`, in order. -/
def joined (s : Switch) : List Char → Except Stop (List Switch)
  | [] => .ok [s]
  | c :: rest =>
    match Switch.spellings.lookup (String.ofList ['-', c]) with
    | some next => (joined next rest).map (s :: ·)
    | none => .error (ignored s (String.ofList (c :: rest)))

def turnAll (switches : List Switch) (options : Options) : Except Stop Options :=
  switches.foldlM (fun options s => turn s options) options

def turnAttached (s : Switch) (short : Bool) (attached : String) (options : Options) :
    Except Stop Options :=
  if s.takesValue then turnTo s attached options
  else if short && attached ≠ "" then do
    let switches ← joined s attached.toList
    turnAll switches options
  else .error (ignored s attached)

/-- Follow the words. `fresh` says that no word stands between here and the place where the file
name was taken or may be taken, and `extra` holds the words there is no use for, last first. -/
def follow (options : Options) (named fresh : Bool) (extra : List String) :
    List Word → Except Stop (Options × List String)
  | [] => .ok (options, extra.reverse)
  | .plain text :: rest =>
    if named then follow options named false (text :: extra) rest
    else follow { options with file := some text } true true extra rest
  | .divider :: rest =>
    if !named || fresh then follow options named false extra rest
    else follow options named false ("--" :: extra) rest
  | .unknown text :: rest => follow options named false (text :: extra) rest
  | .switch s short (some attached) :: rest =>
    match turnAttached s short attached options with
    | .error stop => .error stop
    | .ok options => follow options named false extra rest
  | .switch s _ none :: .plain value :: rest =>
    if s.takesValue then
      match turnTo s value options with
      | .error stop => .error stop
      | .ok options => follow options named false extra rest
    else
      match turn s options with
      | .error stop => .error stop
      | .ok options => follow options named false extra (.plain value :: rest)
  | .switch s _ none :: rest =>
    match turn s options with
    | .error stop => .error stop
    | .ok options => follow options named false extra rest

def parse (arguments : List String) : Except Stop Options := do
  let words ← Word.ofStrings arguments
  let (options, extra) ← follow {} false false [] words
  if extra.isEmpty then return options
  else throw (.misuse ("unrecognized arguments: " ++ " ".intercalate extra))

end Options

end Evlis.CommandLine
