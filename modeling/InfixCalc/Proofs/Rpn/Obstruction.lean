import InfixCalc.Proofs.Rpn.Tree
import Mathlib.Data.List.Induction

/-!
The evaluation of any list of tokens. It fails at the first token that cannot be taken after those before
it; a list without such a token has a value if one operand is left, and is then the postorder of one tree.
-/

namespace InfixCalc

def OperatorToken.ofToken? (t : Token) : Option OperatorToken :=
  if hk : t.kind = .operator then
    match ho : Operator.ofSymbol? t.text with
    | some o => some ⟨t, o, hk, Operator.ofSymbol?_eq_some_iff.1 ho⟩
    | none => none
  else none

@[simp] theorem OperatorToken.ofToken?_token (o : OperatorToken) : ofToken? o.token = some o := by
  have ho : Operator.ofSymbol? o.token.text = some o.operator := Operator.ofSymbol?_eq_some_iff.2 o.text_eq
  rw [ofToken?, dif_pos o.kind_eq]
  split <;> simp_all

theorem Operator.exists_apply_eq_ok {o : Operator} {y : Float} (h : ¬(o = .div ∧ y == 0)) (x : Float) :
    ∃ z, o.apply x y = .ok z := by
  cases o with
  | add | sub | mul => exact ⟨_, rfl⟩
  | div => exact ⟨x / y, if_neg fun hzero => h ⟨rfl, hzero⟩⟩

def Nowhere (P : List α → α → ε → Prop) (l : List α) : Prop :=
  ∀ before a after e, l = before ++ a :: after → ¬P before a e

theorem nowhere_append_singleton_iff {P : List α → α → ε → Prop} {l : List α} {a : α} :
    Nowhere P (l ++ [a]) ↔ Nowhere P l ∧ ∀ e, ¬P l a e := by
  constructor
  · intro h
    refine ⟨fun before b after e hl => h before b (after ++ [a]) e ?_, fun e => h l a [] e rfl⟩
    rw [hl, List.append_assoc]
    rfl
  · rintro ⟨hl, ha⟩ before b after e hsplit
    rcases List.eq_nil_or_concat after with rfl | ⟨after, c, rfl⟩
    · obtain ⟨rfl, hlast⟩ := List.append_inj' hsplit rfl
      cases hlast
      exact ha e
    · rw [List.concat_eq_append, ← List.cons_append, ← List.append_assoc] at hsplit
      obtain ⟨rfl, -⟩ := List.append_inj' hsplit rfl
      exact hl before b after e rfl

theorem nowhere_or_first (P : List α → α → ε → Prop) (l : List α) : Nowhere P l ∨
    ∃ before a after e, l = before ++ a :: after ∧ Nowhere P before ∧ P before a e := by
  induction l using List.reverseRecOn with
  | nil => exact .inl fun before a after e h => absurd h (by simp)
  | append_singleton l a ih =>
    rcases ih with hl | ⟨before, b, after, e, rfl, hbefore, hb⟩
    · by_cases ha : ∃ e, P l a e
      · obtain ⟨e, ha⟩ := ha
        exact .inr ⟨l, a, [], e, rfl, hl, ha⟩
      · exact .inl (nowhere_append_singleton_iff.2 ⟨hl, not_exists.1 ha⟩)
    · exact .inr ⟨before, b, after ++ [a], e, by simp, hbefore, hb⟩

namespace Rpn

namespace Tree

def shift (trees : List Tree) (t : Token) : Option (List Tree) :=
  if hk : t.kind = .number then some (.leaf ⟨t, hk⟩ :: trees)
  else
    match OperatorToken.ofToken? t, trees with
    | some o, r :: l :: trees => some (.node l r o :: trees)
    | _, _ => none

theorem foldlM_shift_postorder (tree : Tree) (trees : List Tree) :
    tree.postorder.foldlM shift trees = some (tree :: trees) := by
  induction tree generalizing trees with
  | leaf t => simp [postorder, shift, t.2]
  | node l r o ihl ihr => simp [postorder, ihl, ihr, shift, o.kind_eq]

theorem foldlM_shift_flatMap (trees : List Tree) :
    (trees.reverse.flatMap postorder).foldlM shift [] = some trees := by
  induction trees with
  | nil => rfl
  | cons tree trees ih => simp [ih, foldlM_shift_postorder]

theorem postorder_injective : Function.Injective postorder := by
  intro a b h
  have hshift := congrArg (List.foldlM shift []) h
  simpa [foldlM_shift_postorder] using hshift

theorem eq_of_flatMap_eq_append {last tree : Tree} {trees : List Tree} {ts : List Token}
    (h : (last :: trees).reverse.flatMap postorder = ts ++ tree.postorder) : tree = last := by
  have hshift := foldlM_shift_flatMap (last :: trees)
  rw [h, List.foldlM_append] at hshift
  obtain ⟨trees', -, hlast⟩ := Option.bind_eq_some_iff.1 hshift
  rw [foldlM_shift_postorder] at hlast
  exact (List.cons.inj (Option.some.inj hlast)).1

end Tree

def balance (ts : List Token) : Int := ts.countP (·.kind = .number) - ts.countP (·.kind = .operator)

theorem balance_append (ts us : List Token) : balance (ts ++ us) = balance ts + balance us := by
  simp only [balance, List.countP_append]
  omega

theorem Tree.balance_postorder (tree : Tree) : balance tree.postorder = 1 := by
  induction tree with
  | leaf t => simp [postorder, balance, t.2]
  | node l r o ihl ihr =>
    have ho : balance [o.token] = -1 := by simp [balance, o.kind_eq]
    rw [postorder, balance_append, balance_append, ihl, ihr, ho]
    rfl

theorem balance_flatMap (trees : List Tree) :
    balance (trees.reverse.flatMap Tree.postorder) = trees.length := by
  induction trees with
  | nil => rfl
  | cons tree trees ih => simp [balance_append, ih, tree.balance_postorder]

theorem Computed.balance_eq {trees : List Tree} {operands : List Float} (h : Computed trees operands) :
    balance (trees.reverse.flatMap Tree.postorder) = operands.length := by
  rw [balance_flatMap, h.length_eq]

inductive Obstruction (before : List Token) (t : Token) : Failure → Prop
  | unreadable : t.kind = .number → Decimal.Numeral.ofString? t.text = none →
    Obstruction before t (.fault (.notNumber t.text))
  | unexpected : t.kind ≠ .number → t.kind ≠ .operator →
    Obstruction before t (.error (.malformed (.unexpected t.text (before.length + 1))))
  | missing : t.kind = .operator → balance before < 2 →
    Obstruction before t (.error (.missingOperands t.text (before.length + 1)))
  | unsupported : t.kind = .operator → 2 ≤ balance before → (∀ o : Operator, t.text ≠ o.symbol) →
    Obstruction before t (.error (.malformed (.unsupported t.text)))
  | division {ts : List Token} {right : Tree} {y : Float} : t.kind = .operator → 2 ≤ balance before →
    t.text = Operator.div.symbol → before = ts ++ right.postorder → right.value = .ok y → y == 0 →
    Obstruction before t (.error (.operatorFailed t.text .divisionByZero))

def Unobstructed (ts : List Token) : Prop :=
  ∀ before t after e, ts = before ++ t :: after → ¬Obstruction before t e

theorem Computed.exists_operands {trees : List Tree} {operands : List Float} (h : Computed trees operands)
    (hbalance : 2 ≤ balance (trees.reverse.flatMap Tree.postorder)) :
    ∃ l r trees' x y operands', trees = r :: l :: trees' ∧ operands = y :: x :: operands' ∧
      r.value = .ok y := by
  rw [h.balance_eq] at hbalance
  cases h with
  | nil => simp at hbalance
  | cons hr h =>
    cases h with
    | nil => simp at hbalance
    | cons hl h => exact ⟨_, _, _, _, _, _, rfl, rfl, hr⟩

theorem Computed.step_of_obstruction {trees : List Tree} {operands : List Float} (h : Computed trees operands)
    {t : Token} {e : Failure} (ht : Obstruction (trees.reverse.flatMap Tree.postorder) t e) :
    Rpn.step operands ((trees.reverse.flatMap Tree.postorder).length + 1) t = .error e := by
  cases ht with
  | unreadable hk hn =>
    rw [step_number hk, Token.value, hn]
    rfl
  | unexpected hnumber hoperator => cases hk : t.kind <;> simp_all [Rpn.step]
  | missing hk hbalance =>
    rw [h.balance_eq] at hbalance
    rcases operands with _ | ⟨y, _ | ⟨x, operands⟩⟩
    · simp [Rpn.step, hk]
    · simp [Rpn.step, hk]
    · simp only [List.length_cons] at hbalance
      omega
  | unsupported hk hbalance hno =>
    obtain ⟨l, r, trees, x, y, operands, rfl, rfl, -⟩ := h.exists_operands hbalance
    have hnone : Operator.ofSymbol? t.text = none :=
      Option.eq_none_iff_forall_ne_some.2 fun o ho => hno o (Operator.ofSymbol?_eq_some_iff.1 ho)
    simp [Rpn.step, hk, Operator.applySymbol, hnone]
  | division hk hbalance htext hright hvalue hzero =>
    obtain ⟨l, r, trees, x, y, operands, rfl, rfl, hr⟩ := h.exists_operands hbalance
    obtain rfl := Tree.eq_of_flatMap_eq_append hright
    obtain rfl := Except.ok.inj (hr.symm.trans hvalue)
    have happly : Operator.applySymbol t.text x y = .error .divisionByZero := by
      rw [htext, Operator.applySymbol, Operator.ofSymbol?_symbol]
      exact if_pos hzero
    simp [Rpn.step, hk, happly]

theorem Computed.exists_obstruction {trees : List Tree} {operands : List Float} (h : Computed trees operands)
    {t : Token} {position : Nat} {e : Failure} (hstep : Rpn.step operands position t = .error e) :
    ∃ e', Obstruction (trees.reverse.flatMap Tree.postorder) t e' := by
  cases hk : t.kind with
  | number =>
    cases hn : Decimal.Numeral.ofString? t.text with
    | none => exact ⟨_, .unreadable hk hn⟩
    | some n => simp [Rpn.step, hk, Token.value, hn] at hstep
  | opening | closing | stray => exact ⟨_, .unexpected (by simp [hk]) (by simp [hk])⟩
  | operator =>
    by_cases hbalance : 2 ≤ balance (trees.reverse.flatMap Tree.postorder)
    · obtain ⟨l, r, trees, x, y, operands, rfl, rfl, hr⟩ := h.exists_operands hbalance
      cases ho : Operator.ofSymbol? t.text with
      | none =>
        refine ⟨_, .unsupported hk hbalance fun o htext => ?_⟩
        rw [Operator.ofSymbol?_eq_some_iff.2 htext] at ho
        cases ho
      | some o =>
        have htext := Operator.ofSymbol?_eq_some_iff.1 ho
        by_cases hdiv : o = .div ∧ y == 0
        · obtain ⟨rfl, hzero⟩ := hdiv
          have hright : (r :: l :: trees).reverse.flatMap Tree.postorder =
              (l :: trees).reverse.flatMap Tree.postorder ++ r.postorder := by simp
          exact ⟨_, .division hk hbalance htext hright hr hzero⟩
        · obtain ⟨z, hz⟩ := Operator.exists_apply_eq_ok hdiv x
          simp [Rpn.step, hk, Operator.applySymbol, ho, hz] at hstep
    · exact ⟨_, .missing hk (by omega)⟩

theorem unobstructed_or_first (ts : List Token) : Unobstructed ts ∨
    ∃ before t after e, ts = before ++ t :: after ∧ Unobstructed before ∧ Obstruction before t e :=
  nowhere_or_first Obstruction ts

theorem Unobstructed.exists_run {ts : List Token} (h : Unobstructed ts) :
    ∃ operands, run [] 1 ts = .ok operands := by
  induction ts using List.reverseRecOn with
  | nil => exact ⟨[], rfl⟩
  | append_singleton ts t ih =>
    obtain ⟨hts, ht⟩ := nowhere_append_singleton_iff.1 h
    obtain ⟨operands, hrun⟩ := ih hts
    obtain ⟨trees, hc, hpost⟩ := Computed.run .nil hrun
    cases hstep : step operands (1 + ts.length) t with
    | ok operands' =>
      refine ⟨operands', ?_⟩
      rw [run_append, hrun]
      exact (run_singleton ..).trans hstep
    | error e =>
      obtain ⟨e', hobstruct⟩ := hc.exists_obstruction hstep
      have hts : trees.reverse.flatMap Tree.postorder = ts := by simpa using hpost
      exact absurd (hts ▸ hobstruct) (ht e')

theorem run_of_obstruction {before after : List Token} {t : Token} {e : Failure}
    (hbefore : Unobstructed before) (ht : Obstruction before t e) :
    run [] 1 (before ++ t :: after) = .error e := by
  obtain ⟨operands, hrun⟩ := hbefore.exists_run
  obtain ⟨trees, hc, hpost⟩ := Computed.run .nil hrun
  have hts : trees.reverse.flatMap Tree.postorder = before := by simpa using hpost
  subst hts
  have hstep := hc.step_of_obstruction ht
  rw [Nat.add_comm] at hstep
  rw [run_append, hrun]
  simp only [bind, Except.bind, run, hstep]

/-- Evaluation fails at the first obstructed token, if there is one, and for what obstructs it. Without such
a token a list has a value if there is one more number than there are operators, and else it is malformed. A
list with a value is the postorder of exactly one tree, and the value is that of the tree. -/
theorem value_outcome (ts : List Token) :
    (Unobstructed ts ∨
      ∃ before t after e, ts = before ++ t :: after ∧ Unobstructed before ∧ Obstruction before t e) ∧
    (∀ before t after e, ts = before ++ t :: after → Unobstructed before → Obstruction before t e →
      value ts = .error e) ∧
    (Unobstructed ts → (balance ts = 1 → ∃ x, value ts = .ok x) ∧
      (balance ts ≠ 1 → value ts = .error (.error (.malformed .operands)))) ∧
    ∀ x, value ts = .ok x →
      ∃ tree : Tree, tree.postorder = ts ∧ tree.value = .ok x ∧ ∀ other : Tree, other.postorder = ts → other = tree := by
  refine ⟨unobstructed_or_first ts, ?_, fun h => ?_, fun x hx => ?_⟩
  · rintro before t after e rfl hbefore ht
    rw [value, run_of_obstruction hbefore ht]
  · obtain ⟨operands, hrun⟩ := h.exists_run
    obtain ⟨trees, hc, hpost⟩ := Computed.run .nil hrun
    have hbalance : balance ts = operands.length := by
      rw [← hc.balance_eq, hpost]
      rfl
    rw [value, hrun, hbalance]
    rcases operands with _ | ⟨x, _ | ⟨y, operands⟩⟩
    · exact ⟨by simp, fun _ => rfl⟩
    · exact ⟨fun _ => ⟨x, rfl⟩, by simp⟩
    · exact ⟨fun hone => by simp only [List.length_cons] at hone; omega, fun _ => rfl⟩
  · obtain ⟨tree, hpost, hvalue⟩ := value_eq_ok_iff.1 hx
    exact ⟨tree, hpost, hvalue, fun other hother => Tree.postorder_injective (hother.trans hpost.symm)⟩

example : value [⟨.number, "2", 0⟩, ⟨.number, "0", 1⟩, ⟨.operator, "/", 2⟩, ⟨.operator, "+", 3⟩] =
    .error (.error (.operatorFailed "/" .divisionByZero)) := by decide +kernel

end Rpn
end InfixCalc
