import InfixCalc.Text.Printable

namespace InfixCalc.Text

def hex (width n : Nat) : List Char := (Nat.toDigits 16 n).leftpad width '0'

def escape (mark c : Char) : List Char :=
  if c = mark ∨ c = '\\' then ['\\', c]
  else if c = '\n' then ['\\', 'n']
  else if c = '\r' then ['\\', 'r']
  else if c = '\t' then ['\\', 't']
  else if isPrintable c then [c]
  else if c.toNat ≤ 0xFF then '\\' :: 'x' :: hex 2 c.toNat
  else if c.toNat ≤ 0xFFFF then '\\' :: 'u' :: hex 4 c.toNat
  else '\\' :: 'U' :: hex 8 c.toNat

def quotationMark (cs : List Char) : Char :=
  if cs.contains '\'' && !cs.contains '"' then '"' else '\''

def quoted (s : String) : String :=
  let mark := quotationMark s.toList
  String.ofList (mark :: s.toList.flatMap (escape mark) ++ [mark])

/-- A quoted text cut after `limit` characters, its marks and escapes counted: a longer one has no
closing mark and may end inside an escape. -/
def quotedWithin (limit : Nat) (s : String) : String := String.ofList ((quoted s).toList.take limit)

end InfixCalc.Text
