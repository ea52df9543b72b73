import InfixCalc.Calculator

namespace InfixCalc.SelfCheck

structure Reference where
  version : String
  value : String → Float

def samples : List String :=
  ["2+3*4", "(2+3)*4", "10-3-2", "20/4/5", "1.5+2.25", "((7))", "100/8*(3-1.5)"]

def dividing : String := "1/0"

def isClose (a b : Float) : Bool :=
  a == b || (a.isFinite && b.isFinite && (b - a).abs ≤ 1e-12 * max a.abs b.abs)

structure Check where
  passed : Bool
  line : String
  records : List Log.Record

def checkSample (settings : Settings) (expression : String) (expected : Float) : Except Fault Check := do
  let o ← Calculator.evaluate settings (some true) expression
  let records := Calculator.records expression o
  match o.ok, o.value with
  | true, some x =>
    if isClose x expected then
      return ⟨true, "[OK] " ++ expression ++ " = " ++ Decimal.shortest x, records⟩
    else pure ()
  | _, _ => pure ()
  return ⟨false, "[FAIL] " ++ expression ++ ": expected " ++ Decimal.shortest expected ++ ", got "
    ++ o.summary, records⟩

def checkDivision (settings : Settings) : Except Fault Check := do
  let o ← Calculator.evaluate settings none dividing
  let records := Calculator.records dividing o
  if o.failedWith (some "DIVISION_BY_ZERO") then
    return ⟨true, "[OK] Division by zero is reported", records⟩
  else return ⟨false, "[FAIL] Division by zero not reported: " ++ o.summary, records⟩

def rule : String := String.ofList (List.replicate 50 '-')

structure Report where
  text : String
  records : List Log.Record
  passed : Bool

def run (reference : Reference) (settings : Settings) : Except Fault Report := do
  let checks ← samples.mapM fun s => checkSample settings s (reference.value s)
  let checks := checks ++ [← checkDivision settings]
  let failed := checks.countP (!·.passed)
  let head := ["Running rpnkalk health check...", rule, "[OK] SymPy " ++ reference.version ++ " available as reference"]
  let counts := "Results: " ++ toString (checks.length - failed) ++ " passed, " ++ toString failed ++ " failed"
  let verdict :=
    if failed = 0 then "[OK] All health checks passed!" else "[WARN] Some health checks failed."
  let lines := head ++ checks.map (·.line) ++ [rule, counts, "", verdict]
  return ⟨String.join (lines.map (· ++ "\n")), checks.flatMap (·.records), failed = 0⟩

end InfixCalc.SelfCheck
