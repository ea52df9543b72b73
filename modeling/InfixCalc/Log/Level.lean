import InfixCalc.Text.LetterCase

namespace InfixCalc.Log

structure Severity where
  number : Int
  name : String
  deriving DecidableEq, Repr

inductive Level
  | debug | info | warning | error | critical
  deriving DecidableEq, Repr

namespace Level

def all : List Level := [.debug, .info, .warning, .error, .critical]

def name : Level → String
  | .debug => "DEBUG"
  | .info => "INFO"
  | .warning => "WARNING"
  | .error => "ERROR"
  | .critical => "CRITICAL"

def number : Level → Nat
  | .debug => 10
  | .info => 20
  | .warning => 30
  | .error => 40
  | .critical => 50

def severity (level : Level) : Severity := ⟨level.number, level.name⟩

def aliases : List (String × Level) := [("WARN", .warning), ("FATAL", .critical)]

def ofName? (s : String) : Option Level :=
  (all.find? (·.name = s)).or (aliases.lookup s)

end Level

/-- The number that a level text sets: case does not matter, `NOTSET` is zero, and any unknown text
stands for `WARNING`. -/
def levelNumber (s : String) : Nat :=
  let s := Text.upper s
  if s = "NOTSET" then 0 else ((Level.ofName? s).getD .warning).number

end InfixCalc.Log
