import InfixCalc.Text.Blank
import InfixCalc.Text.LetterCase

namespace InfixCalc

def version : String := "1.0.0"

inductive Command
  | help | exit | show
  deriving DecidableEq, Repr

namespace Command

def name : Command → String
  | .help => "help"
  | .exit => "exit"
  | .show => "show"

def words : List (String × Command) :=
  [("help", .help), ("h", .help), ("exit", .exit), ("quit", .exit), ("q", .exit), ("show", .show),
    ("s", .show)]

def ofLine? (line : String) : Option Command := words.lookup (Text.lower (Text.trim line))

def helpText : String :=
  "rpnkalk version " ++ version ++ "

Available commands:
  help / h    Show this help
  exit / q    Leave the calculator
  show / s    Show calculation history

Anything else is evaluated as an expression, for example:
  2 + 3 * 4        -> 14.00
  (2 + 3) * 4      -> 20.00
  1.5 + 2.25       -> 3.75

Supported: non-negative decimal numbers, + - * /, parentheses.
"

end Command
end InfixCalc
