import Evlis.Event

/-!
# Logs

Records carry a channel, a level and a message. A log shows those from a level on, one on a line.
-/

namespace Evlis.Log

/-- The letters outside ASCII whose capital forms are letters of ASCII. -/
def capitalForms : List (Char × String) :=
  [('ß', "SS"), ('ı', "I"), ('ſ', "S"), ('ﬀ', "FF"), ('ﬁ', "FI"), ('ﬂ', "FL"), ('ﬃ', "FFI"),
   ('ﬄ', "FFL"), ('ﬅ', "ST"), ('ﬆ', "ST")]

/-- A word in capitals, as far as they are letters of ASCII. -/
def capitals (word : String) : String :=
  String.join (word.toList.map fun c => (capitalForms.lookup c).getD (String.singleton c.toUpper))

def levels : List (String × Int) :=
  [("CRITICAL", 50), ("FATAL", 50), ("ERROR", 40), ("WARNING", 30), ("WARN", 30), ("INFO", 20),
   ("DEBUG", 10), ("NOTSET", 0)]

def levelName (level : Int) : String :=
  match levels.find? fun entry => entry.2 = level with
  | some entry => entry.1
  | none => "Level " ++ Text.decimal level

/-- A word that is known and yet no level. -/
inductive LevelFault where
  /-- It names the basic format of records. -/
  | format
  /-- It names the table of the styles that formats are written in. -/
  | styles
deriving DecidableEq

def basicFormat : String := "%(levelname)s:%(name)s:%(message)s"

/-- The styles that formats are written in: the sign that tells them apart, the kind of style, and
the basic format in that style. -/
def formatStyles : List (String × String × String) :=
  [("%", "PercentStyle", basicFormat),
   ("\x7b", "StrFormatStyle", "\x7blevelname\x7d:\x7bname\x7d:\x7bmessage\x7d"),
   ("$", "StringTemplateStyle", "$\x7blevelname\x7d:$\x7bname\x7d:$\x7bmessage\x7d")]

/-- An entry of the table of styles as it is shown. -/
def styleText (entry : String × String × String) : String :=
  Text.quoted entry.1 ++ ": (<class 'logging." ++ entry.2.1 ++ "'>, " ++ Text.quoted entry.2.2 ++ ")"

def LevelFault.message : LevelFault → String
  | .format => "Unknown level: " ++ Text.quoted basicFormat
  | .styles =>
    "Level not an integer or a valid string: \x7b"
      ++ ", ".intercalate (formatStyles.map styleText) ++ "\x7d"

/-- The level from which on records are shown; for unknown words it is that of warnings. -/
def threshold (word : String) : Except LevelFault Int :=
  match capitals word with
  | "BASIC_FORMAT" => .error .format
  | "_STYLES" => .error .styles
  | name => .ok ((levels.lookup name).getD 30)

structure Record where
  channel : String
  level : Int
  message : String
deriving DecidableEq

/-- The record of an event; events are for those who look for errors in programs. -/
def Record.ofEvent {ι : Type} (event : Event ι) : Record := ⟨event.channel, 10, event.message⟩

def Record.isShown (threshold : Int) (record : Record) : Bool :=
  0 < record.level && threshold ≤ record.level

/-- A record as a line; the channel without a name is the root of all. -/
def Record.line (record : Record) : String :=
  (if record.channel = "" then "root" else record.channel) ++ " - MainThread - "
    ++ levelName record.level ++ " - " ++ record.message ++ "\n"

def render (threshold : Int) (records : List Record) : String :=
  String.join ((records.filter (·.isShown threshold)).map Record.line)

end Evlis.Log
