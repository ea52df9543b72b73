import InfixCalc.Arguments
import InfixCalc.Decimal.Numeral
import InfixCalc.Text.Quoted

namespace InfixCalc.Arguments

inductive Flag
  | help | eval | format | precision | rpn | strict | version | logLevel | logFile | selfCheck
  deriving DecidableEq, Repr

namespace Flag

def names : List (String × Flag) :=
  [("-h", .help), ("--help", .help), ("-e", .eval), ("--eval", .eval), ("--format", .format),
    ("-p", .precision), ("--precision", .precision), ("--rpn", .rpn), ("--strict", .strict),
    ("-v", .version), ("--version", .version), ("--log-level", .logLevel), ("--log-file", .logFile),
    ("--health-check", .selfCheck)]

def ofName? (name : String) : Option Flag := names.lookup name

def takesValue : Flag → Bool
  | .eval | .format | .precision | .logLevel | .logFile => true
  | _ => false

def complain (f : Flag) (message : String) : Stop :=
  .refused ("argument " ++ "/".intercalate ((names.filter (·.2 = f)).map (·.1)) ++ ": " ++ message)

def formats : List (String × Format) := [("json", .json), ("human", .human)]

def levels : List (String × Log.Level) :=
  [("DEBUG", .debug), ("INFO", .info), ("WARNING", .warning), ("ERROR", .error)]

def choose (f : Flag) (words : List (String × α)) (text : String) : Except Stop (Given α) :=
  match words.lookup text with
  | some a => .ok (.value a)
  | none =>
    .error (f.complain ("invalid choice: " ++ Text.quoted text ++ " (choose from "
      ++ ", ".intercalate (words.map (Text.quoted ·.1)) ++ ")"))

def integer (f : Flag) (text : String) : Except Stop (Given Int) :=
  match Decimal.integer? text with
  | .ok n => .ok (.value n)
  | .error _ => .error (f.complain ("invalid int value: " ++ Text.quoted text))

def given (text : String) (read : String → Except Stop (Given α)) : Except Stop (Given α) :=
  if text = "--" then .ok .blank else read text

def assign (f : Flag) (text : String) (a : Arguments) : Except Stop Arguments :=
  match f with
  | .eval => return { a with expression := ← given text (.ok <| .value ·) }
  | .format => return { a with format := ← given text (choose f formats) }
  | .precision => return { a with precision := ← given text (integer f) }
  | .logLevel => return { a with logLevel := ← given text (choose f levels) }
  | .logFile => return { a with logFile := ← given text (.ok <| .value ·) }
  | _ => .ok a

def raise (f : Flag) (a : Arguments) : Except Stop Arguments :=
  match f with
  | .help => .error .help
  | .rpn => .ok { a with showRpn := true }
  | .strict => .ok { a with strict := true }
  | .version => .ok { a with version := true }
  | .selfCheck => .ok { a with selfCheck := true }
  | _ => .ok a

end Flag
end InfixCalc.Arguments
