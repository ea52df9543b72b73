import InfixCalc.Fault
import InfixCalc.Log.Level

namespace InfixCalc

/-- An exception, and above it the calls that it came through as far as they are known. -/
structure Log.Exception where
  calls : String := ""
  name : String
  text : String
  deriving DecidableEq, Repr

structure Log.Record where
  severity : Log.Severity
  logger : String
  message : String
  exception : Option Log.Exception := none
  deriving DecidableEq, Repr

inductive Log.Sink
  | console
  | file (path : String)
  deriving DecidableEq, Repr

structure Log where
  level : Nat := 0
  sinks : List Log.Sink := []
  deriving DecidableEq, Repr

namespace Log

def root : String := "rpnkalk"

def logger (name : String) : String := root ++ "." ++ name

def threshold (l : Log) : Nat := if l.level = 0 then Level.warning.number else l.level

def admits (l : Log) (r : Record) : Bool := l.threshold ≤ r.severity.number

def Exception.shown (e : Exception) : String :=
  e.calls ++ e.name ++ (if e.text.isEmpty then "" else ": " ++ e.text)

def text (message : String) : Option Exception → String
  | none => message
  | some e => message ++ "\n" ++ e.shown

def entry (time level logger text : String) : String :=
  time ++ " [" ++ level ++ "] " ++ logger ++ ": " ++ text

def debug (name message : String) : Record := { severity := Level.debug.severity, logger := logger name, message }

def Record.text (r : Record) : String := Log.text r.message r.exception

def Record.entry (time : String) (r : Record) : String :=
  Log.entry time r.severity.name r.logger r.text

/-- What a record is written to. A log that was never set up has no sinks; its records go to the console
without what an entry has in front. -/
def deliver (l : Log) (time : String) (r : Record) : List (Sink × String) :=
  if !l.admits r then []
  else if l.sinks.isEmpty then [(.console, r.text ++ "\n")]
  else l.sinks.map (·, r.entry time ++ "\n")

/-- Sets the level and the sinks: the console, and the file if one is named. A file that cannot be opened
is a fault, by which time the level and the console are in force. -/
def setup (canOpen : String → Bool) (level : Nat) (file : Option String) : Log × Option Fault :=
  match file with
  | none => (⟨level, [.console]⟩, none)
  | some path =>
    if path.isEmpty then (⟨level, [.console]⟩, none)
    else if canOpen path then (⟨level, [.console, .file path]⟩, none)
    else (⟨level, [.console]⟩, some (.unopened path))

end Log
end InfixCalc
