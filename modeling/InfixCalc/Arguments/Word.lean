import InfixCalc.Arguments.Flag
import InfixCalc.Text.DecimalDigit

namespace InfixCalc.Arguments

inductive Word
  | plain (s : String)
  | flag (f : Flag) (name : String) (attached : Option String)
  | unknown (s : String)
  | dashes
  deriving DecidableEq, Repr

namespace Word

def cut? (s : String) : Option (String × String) :=
  let name := s.toList.takeWhile (· ≠ '=')
  match s.toList.dropWhile (· ≠ '=') with
  | [] => none
  | _ :: value => some (String.ofList name, String.ofList value)

def isNegativeNumber (cs : List Char) : Bool :=
  match cs with
  | '-' :: cs =>
    let cs := if cs.getLast? = some '\n' then cs.dropLast else cs
    match cs.dropWhile Text.isDecimal with
    | [] => !cs.isEmpty
    | '.' :: fraction => !fraction.isEmpty && fraction.all Text.isDecimal
    | _ => false
  | _ => false

/-- The options that an abbreviated or joined name may mean. After two dashes every beginning of a name
counts, after one dash only the first letter. -/
def candidates (s : String) : List (String × Flag × Option String) :=
  match s.toList with
  | '-' :: '-' :: _ =>
    let (start, attached) := match cut? s with
      | some (name, value) => (name, some value)
      | none => (s, none)
    (Flag.names.filter fun n => start.toList.isPrefixOf n.1.toList).map fun n => (n.1, n.2, attached)
  | '-' :: c :: rest =>
    (Flag.names.filter (·.1 = String.ofList ['-', c])).map fun n => (n.1, n.2, some (String.ofList rest))
  | _ => []

def ofString (s : String) : Except Stop Word :=
  if s.toList.head? ≠ some '-' then .ok (.plain s)
  else
    match Flag.ofName? s with
    | some f => .ok (.flag f s none)
    | none =>
      if s = "-" then .ok (.plain s)
      else
        match (cut? s).bind fun (name, value) => (Flag.ofName? name).map (·, name, value) with
        | some (f, name, value) => .ok (.flag f name (some value))
        | none =>
          match candidates s with
          | [(name, f, attached)] => .ok (.flag f name attached)
          | [] =>
            if isNegativeNumber s.toList || s.toList.contains ' ' then .ok (.plain s) else .ok (.unknown s)
          | several =>
            .error (.refused ("ambiguous option: " ++ s ++ " could match "
              ++ ", ".intercalate (several.map (·.1))))

def ofList : List String → Except Stop (List Word)
  | [] => .ok []
  | s :: ss =>
    if s = "--" then .ok (.dashes :: ss.map .plain)
    else return (← ofString s) :: (← ofList ss)

end Word
end InfixCalc.Arguments
