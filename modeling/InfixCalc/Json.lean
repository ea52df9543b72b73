import InfixCalc.Decimal.Shortest

/-!
JSON objects of plain members, one to a line. Beyond RFC 8259 the numbers `NaN`, `Infinity` and
`-Infinity` are written for floats that are not finite.
-/

namespace InfixCalc.Json

inductive Scalar
  | bool (b : Bool)
  | number (x : Float)
  | string (s : String)
  deriving DecidableEq

def escape (c : Char) : List Char :=
  match c with
  | '"' => ['\\', '"']
  | '\\' => ['\\', '\\']
  | '\n' => ['\\', 'n']
  | '\r' => ['\\', 'r']
  | '\t' => ['\\', 't']
  | '\x08' => ['\\', 'b']
  | '\x0c' => ['\\', 'f']
  | c => if c.toNat < 0x20 then '\\' :: 'u' :: (Nat.toDigits 16 c.toNat).leftpad 4 '0' else [c]

def string (s : String) : List Char := '"' :: s.toList.flatMap escape ++ ['"']

def number (x : Float) : List Char :=
  match Decimal.Binary64.ofFloat x with
  | .nan => "NaN".toList
  | .infinite negative => Decimal.sign negative ++ "Infinity".toList
  | b => b.toShortest

def Scalar.write : Scalar → List Char
  | .bool b => (if b then "true" else "false").toList
  | .number x => Json.number x
  | .string s => Json.string s

def member (m : String × Scalar) : List Char := string m.1 ++ ':' :: ' ' :: m.2.write

def object (members : List (String × Scalar)) : List Char :=
  if members.isEmpty then ['{', '}']
  else "\x7b\n  ".toList ++ [',', '\n', ' ', ' '].intercalate (members.map member) ++ "\n\x7d".toList

end InfixCalc.Json
