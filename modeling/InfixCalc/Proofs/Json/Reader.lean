import InfixCalc.Json
import InfixCalc.Proofs.Json.Grammar

/-!
A reader of JSON texts. Beyond RFC 8259 it takes `NaN`, `Infinity` and `-Infinity` for numbers. Each part
gives what it has read and what is left of the text.
-/

namespace InfixCalc.Json

open Decimal

inductive Value
  | null
  | bool (b : Bool)
  | number (x : Float)
  | string (s : String)
  | array (elements : List Value)
  | object (members : List (String × Value))

def skip (cs : List Char) : List Char := cs.dropWhile (spaces.contains ·)

def hexValue? (c : Char) : Option ℕ :=
  if isDigit c then some (c.toNat - '0'.toNat)
  else if 'a' ≤ c ∧ c ≤ 'f' then some (c.toNat - 'a'.toNat + 10)
  else if 'A' ≤ c ∧ c ≤ 'F' then some (c.toNat - 'A'.toNat + 10)
  else none

def hexNumber? (ds : List Char) : Option ℕ :=
  ds.foldlM (fun n d => (hexValue? d).map (16 * n + ·)) 0

def readUnit : List Char → Option (ℕ × List Char)
  | a :: b :: c :: d :: cs => (hexNumber? [a, b, c, d]).map (·, cs)
  | _ => none

def readUnicode (cs : List Char) : Option (Char × List Char) := do
  let (unit, cs) ← readUnit cs
  if unit < 0xD800 ∨ 0xE000 ≤ unit then some (Char.ofNat unit, cs)
  else
    let (low, cs) ← readUnit (← ['\\', 'u'].isPrefixOf? cs)
    if unit < 0xDC00 ∧ 0xDC00 ≤ low ∧ low < 0xE000 then
      some (Char.ofNat (0x10000 + (unit - 0xD800) * 0x400 + (low - 0xDC00)), cs)
    else none

def escapes : List (Char × Char) :=
  [('"', '"'), ('\\', '\\'), ('/', '/'), ('b', '\x08'), ('f', '\x0c'), ('n', '\n'), ('r', '\r'), ('t', '\t')]

def readChar : List Char → Option (Char × List Char)
  | '\\' :: 'u' :: cs => readUnicode cs
  | '\\' :: c :: cs => (escapes.lookup c).map (·, cs)
  | c :: cs => if c = '"' ∨ c = '\\' ∨ c.toNat < 0x20 then none else some (c, cs)
  | [] => none

def readChars : ℕ → List Char → Option (List Char × List Char)
  | 0, _ => none
  | n + 1, cs =>
    match readChar cs with
    | some (c, rest) => (readChars n rest).map fun p => (c :: p.1, p.2)
    | none => (['"'].isPrefixOf? cs).map ([], ·)

def readString (cs : List Char) : Option (String × List Char) := do
  let cs ← ['"'].isPrefixOf? cs
  let (s, rest) ← readChars cs.length cs
  some (String.ofList s, rest)

def spanMark (marks : List Char) : List Char → List Char × List Char
  | [] => ([], [])
  | c :: cs => if c ∈ marks then ([c], cs) else ([], c :: cs)

def spanInteger : List Char → Option (List Char × List Char)
  | [] => none
  | c :: cs =>
    if c = '0' then some (['0'], cs)
    else if isDigit c then some (c :: cs.takeWhile isDigit, cs.dropWhile isDigit)
    else none

def spanBehind (mark cs : List Char) : Option (List Char × List Char) :=
  let ds := cs.takeWhile isDigit
  if ds = [] then none else some (mark ++ ds, cs.dropWhile isDigit)

def spanFraction (cs : List Char) : List Char × List Char :=
  let (point, rest) := spanMark ['.'] cs
  if point = [] then ([], cs) else (spanBehind point rest).getD ([], cs)

def spanExponent (cs : List Char) : List Char × List Char :=
  let (e, rest) := spanMark ['e', 'E'] cs
  let (s, rest) := spanMark ['-', '+'] rest
  if e = [] then ([], cs) else (spanBehind (e ++ s) rest).getD ([], cs)

def spanNumber (cs : List Char) : Option (List Char × List Char) := do
  let (s, cs) := spanMark ['-'] cs
  let (i, cs) ← spanInteger cs
  let (f, cs) := spanFraction cs
  let (e, cs) := spanExponent cs
  some (s ++ (i ++ (f ++ e)), cs)

def readNumber (cs : List Char) : Option (Value × List Char) := do
  let (text, rest) ← spanNumber cs
  let n ← Numeral.ofString? (String.ofList text)
  some (.number n.toFloat, rest)

def words : List (String × Value) :=
  [("null", .null), ("true", .bool true), ("false", .bool false),
    ("NaN", .number Numeral.nan.toFloat), ("Infinity", .number (Binary64.infinity false)),
    ("-Infinity", .number (Binary64.infinity true))]

def readWord (cs : List Char) : Option (Value × List Char) :=
  words.findSome? fun w => (w.1.toList.isPrefixOf? cs).map (w.2, ·)

def readPlain (cs : List Char) : Option (Value × List Char) :=
  (readNumber cs).or (((readString cs).map fun p => (.string p.1, p.2)).or (readWord cs))

section
variable {α : Type} (readItem : List Char → Option (α × List Char)) (close : Char)

def readItems : ℕ → List Char → Option (List α × List Char)
  | 0, _ => none
  | n + 1, cs => do
    let (item, rest) ← readItem cs
    match skip rest with
    | ',' :: rest => (readItems n (skip rest)).map fun p => (item :: p.1, p.2)
    | c :: rest => if c = close then some ([item], rest) else none
    | [] => none

def readBracketed (cs : List Char) : Option (List α × List Char) :=
  match [close].isPrefixOf? (skip cs) with
  | some rest => some ([], rest)
  | none => readItems readItem close cs.length (skip cs)

end

def readMember (readValue : List Char → Option (Value × List Char)) (cs : List Char) :
    Option ((String × Value) × List Char) := do
  let (key, rest) ← readString cs
  let (v, rest) ← readValue (skip (← [':'].isPrefixOf? (skip rest)))
  some ((key, v), rest)

def readValue : ℕ → List Char → Option (Value × List Char)
  | 0, cs => readPlain cs
  | depth + 1, cs =>
    match cs with
    | '{' :: cs =>
      (readBracketed (readMember (readValue depth)) '}' cs).map fun p => (.object p.1, p.2)
    | '[' :: cs => (readBracketed (readValue depth) ']' cs).map fun p => (.array p.1, p.2)
    | cs => readPlain cs

def read (text : String) : Option Value := do
  let (v, rest) ← readValue text.toList.length (skip text.toList)
  if skip rest = [] then some v else none

end InfixCalc.Json
