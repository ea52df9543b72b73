import InfixCalc.Outcome.Display
import InfixCalc.Proofs.Calculator.Meaning
import InfixCalc.Proofs.Calculator.WellFormed
import InfixCalc.Proofs.Json.Write
import Mathlib.Data.List.ReduceOption

namespace InfixCalc

open Decimal

namespace Outcome

theorem number_mem_members_iff {o : Outcome} {k : String} {x : Float} :
    (k, Json.Scalar.number x) ∈ o.members ↔ k = "result" ∧ o.value = some x := by
  rw [members, List.mem_cons, List.reduceOption_mem_iff]
  simp [eq_comm, and_comm]

theorem finite_members_iff {o : Outcome} :
    (∀ m ∈ o.members, m.2.Finite) ↔ ∀ x, o.value = some x → (Binary64.ofFloat x).isFinite := by
  refine ⟨fun h x hx => h _ (number_mem_members_iff.2 ⟨rfl, hx⟩), fun h m hm => ?_⟩
  obtain ⟨k, v⟩ := m
  cases v with
  | bool | string => trivial
  | number x => exact h x (number_mem_members_iff.1 hm).2

theorem isText_print_json_iff (o : Outcome) (places : Int) (showRpn : Bool) :
    Json.IsText (o.print places ⟨.json, showRpn⟩).text.toList ↔
      ∀ x, o.value = some x → (Binary64.ofFloat x).isFinite := by
  have htext : (o.print places ⟨.json, showRpn⟩).text.toList = Json.object o.members ++ ['\n'] := by
    simp [print, toJson]
  rw [htext, Json.isText_object_append_iff _ (show Json.IsSpace ['\n'] from rfl), finite_members_iff]

end Outcome

namespace Rpn

def Tree.Overflows : Tree → Prop
  | leaf _ => False
  | node l r o => l.Overflows ∨ r.Overflows ∨ ∃ x y z, l.value = .ok x ∧ r.value = .ok y ∧
      o.operator.apply x y = .ok z ∧ (Binary64.ofFloat x).isFinite ∧ (Binary64.ofFloat y).isFinite ∧
      ¬(Binary64.ofFloat z).isFinite

theorem Tree.overflows_of_value {tree : Tree} (hleaves : ∀ t ∈ tree.postorder, t.Finite) {z : Float}
    (hvalue : tree.value = .ok z) (hz : ¬(Binary64.ofFloat z).isFinite) : tree.Overflows := by
  induction tree generalizing z with
  | leaf t =>
    obtain ⟨x, hx, hfinite⟩ := hleaves t.1 (by simp [postorder]) t.2
    rw [value, hx] at hvalue
    cases hvalue
    exact absurd hfinite hz
  | node l r o ihl ihr =>
    simp only [postorder, List.mem_append] at hleaves
    rw [value] at hvalue
    obtain ⟨x, hl, hvalue⟩ := exists_of_bind_eq_ok hvalue
    obtain ⟨y, hr, hvalue⟩ := exists_of_bind_eq_ok hvalue
    by_cases hx : (Binary64.ofFloat x).isFinite
    · by_cases hy : (Binary64.ofFloat y).isFinite
      · have happly : o.operator.apply x y = .ok z := by
          cases happly : o.operator.apply x y with
          | error e => simp [happly, Except.mapError] at hvalue
          | ok w => simpa [happly, Except.mapError] using hvalue
        exact .inr (.inr ⟨x, y, z, hl, hr, happly, hx, hy, hz⟩)
      · exact .inr (.inl (ihr (fun t ht => hleaves t (.inl (.inr ht))) hr hy))
    · exact .inl (ihl (fun t ht => hleaves t (.inl (.inl ht))) hl hx)

end Rpn

namespace Calculator

open Infix

theorem finite_of_mem_rpn {settings : Settings} {strict : Option Bool} {s : String} {us : List Token}
    (h : rpn settings strict s = .ok us) : ∀ t ∈ us, t.Finite := by
  rw [rpn_eq] at h
  split at h
  · cases h
  · split at h
    · cases h
    · obtain ⟨hfinite, a, hyield, rfl⟩ := Infix.ofTokens_eq_ok_iff.1 h
      exact fun t ht => hfinite t (hyield ▸ (a.mem_yield_of_mem_postorder ht).1)

theorem eq_ok_of_report_eq_success {result : Except Failure Outcome} {x : Float} {text : String}
    (h : report .failure result = .ok (.success x text)) : result = .ok (.success x text) := by
  cases result with
  | ok o => exact congrArg _ (Except.ok.inj h)
  | error f =>
    cases f with
    | fault f => cases h
    | error e => simp [report, Outcome.success, Outcome.failure] at h

theorem exists_tree_of_success {settings : Settings} {strict : Option Bool} {s : String} {x : Float}
    {text : String} (h : evaluate settings strict s = .ok (.success x text)) :
    ∃ tree : Rpn.Tree, rpn settings strict s = .ok tree.postorder ∧ tree.value = .ok x := by
  obtain ⟨us, hrpn, h⟩ := exists_of_bind_eq_ok (eq_ok_of_report_eq_success h)
  obtain ⟨y, hvalue, h⟩ := exists_of_bind_eq_ok h
  have hy : some y = some x := congrArg Outcome.value (Except.ok.inj h)
  obtain ⟨tree, rfl, htree⟩ := Rpn.value_eq_ok_iff.1 hvalue
  exact ⟨tree, hrpn, Option.some.inj hy ▸ htree⟩

/-- What is printed of an expression as JSON is a JSON text just if the value, if there is one, is finite.
The member for the value is a number of JSON just then; where it is none, an operation on finite numbers
has overflowed. -/
theorem isText_print_json_iff_isFinite (settings : Settings) (strict : Option Bool) (s : String)
    (places : Int) (showRpn : Bool) :
    ∃ o, evaluate settings strict s = .ok o ∧ (o.print places ⟨.json, showRpn⟩).fault = none ∧
      (Json.IsText (o.print places ⟨.json, showRpn⟩).text.toList ↔
        ∀ x, ("result", Json.Scalar.number x) ∈ o.members → (Binary64.ofFloat x).isFinite) ∧
      ∀ x, ("result", Json.Scalar.number x) ∈ o.members → o.value = some x ∧
        (Json.IsNumber (Json.number x) ↔ (Binary64.ofFloat x).isFinite) ∧
        (¬(Binary64.ofFloat x).isFinite → ∃ tree : Rpn.Tree, rpn settings strict s = .ok tree.postorder ∧
          tree.value = .ok x ∧ tree.Overflows) := by
  have hiff (o : Outcome) : Json.IsText (o.print places ⟨.json, showRpn⟩).text.toList ↔
      ∀ x, ("result", Json.Scalar.number x) ∈ o.members → (Binary64.ofFloat x).isFinite := by
    simp only [o.isText_print_json_iff, Outcome.number_mem_members_iff, true_and]
  rcases evaluate_cases settings strict s with ⟨x, text, -, heval⟩ | ⟨e, -, heval⟩
  · refine ⟨_, heval, rfl, hiff _, fun y hy => ?_⟩
    obtain ⟨-, hy⟩ := Outcome.number_mem_members_iff.1 hy
    obtain rfl : x = y := by simpa [Outcome.success] using hy
    refine ⟨hy, Json.isNumber_number_iff, fun hnot => ?_⟩
    obtain ⟨tree, hrpn, hvalue⟩ := exists_tree_of_success heval
    exact ⟨tree, hrpn, hvalue, Rpn.Tree.overflows_of_value (finite_of_mem_rpn hrpn) hvalue hnot⟩
  · refine ⟨_, heval, rfl, hiff _, fun y hy => ?_⟩
    obtain ⟨-, hy⟩ := Outcome.number_mem_members_iff.1 hy
    cases hy

def digitsToken (ds : List Char) : Token.Of .number := ⟨⟨.number, String.ofList ds, 0⟩, rfl⟩

theorem written_digitsToken {ds : List Char} (h : IsDigits ds) : (digitsToken ds).1.Written := by
  change IsLiteral (String.ofList ds).toList
  rw [String.toList_ofList]
  exact .whole h

theorem value_digitsToken {ds : List Char} (h : IsDigits ds) :
    (digitsToken ds).1.value = .ok (Numeral.finite false (digitsValue ds) 0).toFloat := by
  have hliteral : IsLiteral ds := .whole h
  simp only [digitsToken, Token.value, Numeral.ofString?, hliteral.plain_eq, hliteral.ofChars?_eq,
    h.decimal?_eq]

def product (a b : Token.Of .number) : Expr .sum :=
  .product (.mul (.factor (.number a)) ⟨⟨.operator, "*", 0⟩, .mul, rfl, rfl⟩ (.inl rfl) (.number b))

def unspaced (e : Expr .sum) : String := String.ofList (e.yield.flatMap (·.text.toList))

theorem length_unspaced_product (a b : Token.Of .number) :
    (unspaced (product a b)).length = a.1.text.length + 1 + b.1.text.length := by
  have hsymbol : "*".toList.length = 1 := by decide
  simp only [unspaced, product, Expr.yield, String.length_ofList, List.flatMap_append, List.flatMap_cons,
    List.flatMap_nil, List.length_append, List.length_nil, hsymbol, String.length_toList]
  omega

theorem evaluate_product {settings : Settings} {strict : Option Bool} {a b : Token.Of .number} {x y : Float}
    (hlen : (unspaced (product a b)).length ≤ settings.maxLength) (ha : a.1.Written) (hb : b.1.Written)
    (hx : a.1.value = .ok x ∧ (Binary64.ofFloat x).isFinite)
    (hy : b.1.value = .ok y ∧ (Binary64.ofFloat y).isFinite) :
    evaluate settings strict (unspaced (product a b)) =
      .ok (.success (x * y) (Rpn.text (product a b).tree.postorder)) := by
  have ho : Token.Written ⟨.operator, "*", 0⟩ := ⟨'*', by decide, by decide⟩
  have hw : ∀ t ∈ (product a b).yield, t.Written := by
    simpa [product, Expr.yield] using ⟨ha, ho, hb⟩
  have hf : ∀ t ∈ (product a b).yield, t.Finite := by
    have hfa : a.1.Finite := fun _ => ⟨x, hx⟩
    have hfb : b.1.Finite := fun _ => ⟨y, hy⟩
    have hfo : Token.Finite ⟨.operator, "*", 0⟩ := fun hkind => by cases hkind
    simpa [product, Expr.yield] using ⟨hfa, hfo, hfb⟩
  have hs : Spelled (product a b).yield (unspaced (product a b)).toList := by
    rw [unspaced, String.toList_ofList]
    exact .flatMap _
  have hvalue : (product a b).tree.value = .ok (x * y) := by
    simp only [product, Expr.tree, Rpn.Tree.value, hx.1, hy.1]
    rfl
  rw [evaluate_of_spelled hw hs hlen, outcome_yield _ hf, hvalue]
  rfl

theorem not_forall_isText_print_json :
    ¬∀ (settings : Settings) (strict : Option Bool) (s : String) (o : Outcome) (places : Int)
      (showRpn : Bool), evaluate settings strict s = .ok o →
        Json.IsText (o.print places ⟨.json, showRpn⟩).text.toList := by
  intro h
  let ds : List Char := '1' :: List.replicate 155 '0'
  let x : Float := (Numeral.finite false (digitsValue ds) 0).toFloat
  have hds : IsDigits ds := ⟨by simp [ds], List.forall_mem_cons.2 ⟨by decide, Json.isDigit_of_mem_zeros⟩⟩
  have hx : (digitsToken ds).1.value = .ok x ∧ (Binary64.ofFloat x).isFinite :=
    ⟨value_digitsToken hds, by decide +kernel⟩
  have hproduct : ¬(Binary64.ofFloat (x * x)).isFinite := by decide +kernel
  have hlen : (unspaced (product (digitsToken ds) (digitsToken ds))).length ≤ (10000 : Int) := by
    simp only [length_unspaced_product, digitsToken, String.length_ofList, ds, List.length_cons,
      List.length_replicate]
    decide
  have hw := written_digitsToken hds
  have heval : evaluate {} none (unspaced (product (digitsToken ds) (digitsToken ds))) = _ :=
    evaluate_product hlen hw hw hx hx
  exact hproduct ((Outcome.isText_print_json_iff _ 2 false).1 (h {} none _ _ 2 false heval) _ rfl)

end Calculator
end InfixCalc
