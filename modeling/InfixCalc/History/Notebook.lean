import InfixCalc.Calculator
import InfixCalc.History

namespace InfixCalc

structure Notebook where
  settings : Settings := {}
  history : History := {}
  cursors : List History.Cursor := []

namespace Notebook

inductive Request
  | record (expression : String) (value : Float)
  | evaluate (expression : String)
  | lines (places : Option Int)
  | line (index : Int) (places : Option Int)
  | entries
  | iterate
  | next (cursor : Int)
  | setPlaces (places : Int)

inductive Reply
  | entry (e : History.Entry)
  | outcome (o : Outcome)
  | lines (ls : List String)
  | line (s : String)
  | entries (es : List History.Entry)
  | cursor (number : Nat)
  | next (e : Option History.Entry)
  | places (n : Int)
  | fault (f : Fault)

def place? (length : Nat) (index : Int) : Option Nat :=
  let i := if index < 0 then index + length else index
  if 0 ≤ i ∧ i < length then some i.toNat else none

def reply (make : α → Reply) : Except Fault α → Reply
  | .ok a => make a
  | .error f => .fault f

def line (b : Notebook) (index : Int) (places : Int) : Except Fault String :=
  match (place? b.history.size index).bind (b.history.entries[·]?) with
  | some e => e.line places
  | none => .error .noEntry

def next (b : Notebook) (cursor : Int) : Notebook × Reply :=
  match place? b.cursors.length cursor with
  | none => (b, .fault .noEntry)
  | some i =>
    match b.cursors[i]? with
    | none => (b, .fault .noEntry)
    | some c => ({ b with cursors := b.cursors.set i c.next.2 }, .next c.next.1)

def evaluate (b : Notebook) (expression : String) : Notebook × Reply :=
  match Calculator.evaluate b.settings none expression with
  | .error f => (b, .fault f)
  | .ok o =>
    match o.ok, o.value with
    | true, some x => ({ b with history := b.history.record expression x }, .outcome o)
    | _, _ => (b, .outcome o)

def answer (b : Notebook) : Request → Notebook × Reply
  | .record expression value =>
    ({ b with history := b.history.record expression value }, .entry (.of expression value))
  | .evaluate expression => b.evaluate expression
  | .lines places => (b, reply .lines (b.history.lines (places.getD b.settings.places)))
  | .line index places => (b, reply .line (b.line index (places.getD b.settings.places)))
  | .entries => (b, .entries b.history.entries)
  | .iterate => ({ b with cursors := b.cursors ++ [b.history.cursor] }, .cursor b.cursors.length)
  | .next cursor => b.next cursor
  | .setPlaces n => ({ b with settings := { b.settings with places := n } }, .places n)

end Notebook
end InfixCalc
