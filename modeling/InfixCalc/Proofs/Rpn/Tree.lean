import InfixCalc.Rpn.Value
import Mathlib.Data.List.Forall2

namespace InfixCalc

abbrev Token.Of (k : Token.Kind) := { t : Token // t.kind = k }

def Token.Readable (t : Token) : Prop := t.kind = .number → ∃ x, t.value = .ok x

structure OperatorToken where
  token : Token
  operator : Operator
  kind_eq : token.kind = .operator
  text_eq : token.text = operator.symbol

namespace Rpn

inductive Tree
  | leaf (number : Token.Of .number)
  | node (left right : Tree) (operator : OperatorToken)

namespace Tree

def postorder : Tree → List Token
  | leaf t => [t.1]
  | node l r o => l.postorder ++ r.postorder ++ [o.token]

def value : Tree → Except Failure Float
  | leaf t => t.1.value.mapError .fault
  | node l r o => do
    let x ← l.value
    let y ← r.value
    (o.operator.apply x y).mapError fun e => .error (.operatorFailed o.operator.symbol e)

def DividesByZero : Tree → Prop
  | leaf _ => False
  | node l r o => l.DividesByZero ∨ r.DividesByZero ∨
      (o.operator = .div ∧ ∃ y, r.value = .ok y ∧ y == 0)

theorem any_toOption_value_iff (tree : Tree) :
    tree.value.toOption.any (· == 0) ↔ ∃ y, tree.value = .ok y ∧ y == 0 := by
  cases tree.value <;> simp [Except.toOption]

instance decidableDividesByZero : (tree : Tree) → Decidable tree.DividesByZero
  | leaf _ => isFalse id
  | node l r o =>
    have := l.decidableDividesByZero
    have := r.decidableDividesByZero
    have := decidable_of_iff _ r.any_toOption_value_iff
    inferInstanceAs (Decidable (l.DividesByZero ∨ r.DividesByZero ∨ o.operator = .div ∧ _))

end Tree

theorem applySymbol_operator (o : OperatorToken) (x y : Float) :
    Operator.applySymbol o.token.text x y = o.operator.apply x y := by
  rw [Operator.applySymbol, o.text_eq, Operator.ofSymbol?_symbol]

theorem step_number {t : Token} (h : t.kind = .number) (operands : List Float) (position : Nat) :
    step operands position t = (t.value.mapError .fault).map (· :: operands) := by
  unfold step
  rw [h]
  cases t.value <;> rfl

theorem step_operator (o : OperatorToken) (x y : Float) (operands : List Float) (position : Nat) :
    step (y :: x :: operands) position o.token =
      ((o.operator.apply x y).mapError fun e => .error (.operatorFailed o.operator.symbol e)).map
        (· :: operands) := by
  unfold step
  rw [o.kind_eq]
  simp only [applySymbol_operator]
  rw [o.text_eq]
  unfold Operator.apply
  cases o.operator with
  | add | sub | mul => rfl
  | div => by_cases h : (y == 0) = true <;> simp [h, Except.map, Except.mapError]

theorem run_singleton (operands : List Float) (position : Nat) (t : Token) :
    run operands position [t] = step operands position t := by
  rw [run]
  cases step operands position t <;> rfl

theorem run_postorder (tree : Tree) (operands : List Float) (position : Nat) :
    run operands position tree.postorder = tree.value.map (· :: operands) := by
  induction tree generalizing operands position with
  | leaf t => rw [Tree.postorder, run_singleton, step_number t.2, Tree.value]
  | node l r o ihl ihr =>
    rw [Tree.postorder, run_append, run_append, ihl, Tree.value]
    cases l.value with
    | error e => rfl
    | ok x =>
      simp only [Except.map, bind, Except.bind, ihr]
      cases r.value with
      | error e => rfl
      | ok y =>
        simp only [run_singleton, step_operator]
        rfl

theorem value_postorder (tree : Tree) : value tree.postorder = tree.value := by
  rw [value, run_postorder]
  cases tree.value <;> rfl

theorem Tree.value_cases {tree : Tree} (h : ∀ t ∈ tree.postorder, t.Readable) :
    (¬tree.DividesByZero ∧ ∃ x, tree.value = .ok x) ∨
      (tree.DividesByZero ∧ tree.value =
        .error (.error (.operatorFailed Operator.div.symbol .divisionByZero))) := by
  induction tree with
  | leaf t =>
    obtain ⟨x, hx⟩ := h t.1 (by simp [postorder]) t.2
    exact .inl ⟨id, x, by rw [value, hx]; rfl⟩
  | node l r o ihl ihr =>
    simp only [postorder, List.mem_append] at h
    rcases ihl fun t ht => h t (.inl (.inl ht)) with ⟨hl, x, hx⟩ | ⟨hl, hx⟩
    · rcases ihr fun t ht => h t (.inl (.inr ht)) with ⟨hr, y, hy⟩ | ⟨hr, hy⟩
      · simp only [DividesByZero, value, hx, hy, hl, hr, false_or, bind, Except.bind]
        unfold Operator.apply
        cases o.operator with
        | add | sub | mul => exact .inl ⟨by simp, _, rfl⟩
        | div =>
          by_cases hzero : (y == 0) = true
          · exact .inr ⟨⟨rfl, y, rfl, hzero⟩, by simp [hzero, Except.mapError]⟩
          · refine .inl ⟨?_, x / y, by simp [hzero, Except.mapError]⟩
            rintro ⟨-, z, hz, hzero'⟩
            cases hz
            exact hzero hzero'
      · exact .inr ⟨.inr (.inl hr), by rw [value, hx, hy]; rfl⟩
    · exact .inr ⟨.inl hl, by rw [value, hx]; rfl⟩

abbrev Computed (trees : List Tree) (operands : List Float) : Prop :=
  List.Forall₂ (fun tree x => tree.value = .ok x) trees operands

theorem Computed.step {trees : List Tree} {operands operands' : List Float} (h : Computed trees operands)
    {position : Nat} {t : Token} (hstep : step operands position t = .ok operands') :
    ∃ trees', Computed trees' operands' ∧
      trees'.reverse.flatMap Tree.postorder = trees.reverse.flatMap Tree.postorder ++ [t] := by
  cases hk : t.kind with
  | number =>
    rw [step_number hk] at hstep
    cases hv : t.value with
    | error f => rw [hv] at hstep; cases hstep
    | ok x =>
      rw [hv] at hstep
      cases hstep
      refine ⟨.leaf ⟨t, hk⟩ :: trees, .cons ?_ h, by simp [Tree.postorder]⟩
      rw [Tree.value, hv]
      rfl
  | operator =>
    cases h with
    | nil => simp [Rpn.step, hk] at hstep
    | @cons r y _ _ hr h =>
      cases h with
      | nil => simp [Rpn.step, hk] at hstep
      | @cons l x trees _ hl h =>
        cases ho : Operator.ofSymbol? t.text with
        | none => simp [Rpn.step, hk, Operator.applySymbol, ho] at hstep
        | some o =>
          let op : OperatorToken := ⟨t, o, hk, Operator.ofSymbol?_eq_some_iff.1 ho⟩
          change Rpn.step _ position op.token = _ at hstep
          rw [step_operator] at hstep
          cases happly : op.operator.apply x y with
          | error e => rw [happly] at hstep; cases hstep
          | ok z =>
            rw [happly] at hstep
            cases hstep
            refine ⟨.node l r op :: trees, .cons ?_ h, by simp [Tree.postorder, op]⟩
            rw [Tree.value, hl, hr]
            simp only [bind, Except.bind, happly]
            rfl
  | opening | closing | stray => simp [Rpn.step, hk] at hstep

theorem Computed.run {trees : List Tree} {operands operands' : List Float} (h : Computed trees operands)
    {position : Nat} {ts : List Token} (hrun : run operands position ts = .ok operands') :
    ∃ trees', Computed trees' operands' ∧
      trees'.reverse.flatMap Tree.postorder = trees.reverse.flatMap Tree.postorder ++ ts := by
  induction ts generalizing trees operands position with
  | nil =>
    cases hrun
    exact ⟨trees, h, by simp⟩
  | cons t ts ih =>
    rw [Rpn.run] at hrun
    cases hstep : Rpn.step operands position t with
    | error e => rw [hstep] at hrun; cases hrun
    | ok operands₁ =>
      rw [hstep] at hrun
      obtain ⟨trees₁, h₁, hpost₁⟩ := h.step hstep
      obtain ⟨trees', h', hpost'⟩ := ih h₁ hrun
      exact ⟨trees', h', by rw [hpost', hpost₁, List.append_assoc]; rfl⟩

theorem value_eq_ok_iff {ts : List Token} {x : Float} :
    value ts = .ok x ↔ ∃ tree : Tree, tree.postorder = ts ∧ tree.value = .ok x := by
  constructor
  · intro h
    unfold value at h
    split at h
    · next y hrun =>
      cases h
      obtain ⟨trees, hc, hpost⟩ := Computed.run .nil hrun
      cases hc with
      | cons hv hc =>
        cases hc
        exact ⟨_, by simpa using hpost, hv⟩
    · cases h
    · cases h
  · rintro ⟨tree, rfl, h⟩
    rw [value_postorder, h]

end Rpn
end InfixCalc
