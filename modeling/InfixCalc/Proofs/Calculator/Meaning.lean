import InfixCalc.Proofs.Calculator.Outcome

namespace InfixCalc

namespace Infix

theorem Expr.mem_yield_of_mem_postorder (e : Expr l) {t : Token} (h : t ∈ e.tree.postorder) :
    t ∈ e.yield := by
  rw [← e.postorder_arrangement] at h
  have hmem := (e.arrangement.mem_yield_of_mem_postorder h).1
  rwa [e.yield_arrangement] at hmem

structure Computes (ts us : List Token) (x : Float) : Prop where
  finite : ∀ t ∈ ts, t.Finite
  arranged : ∃ a : Arrangement .sum, a.yield = ts ∧ a.postorder = us
  valued : ∃ tree : Rpn.Tree, tree.postorder = us ∧ tree.value = .ok x

theorem computes_iff {ts us : List Token} {x : Float} :
    Computes ts us x ↔ Rpn.ofTokens ts = .ok us ∧ Rpn.value us = .ok x := by
  rw [ofTokens_eq_ok_iff, Rpn.value_eq_ok_iff]
  exact ⟨fun ⟨hf, ha, hv⟩ => ⟨⟨hf, ha⟩, hv⟩, fun ⟨⟨hf, ha⟩, hv⟩ => ⟨hf, ha, hv⟩⟩

theorem Computes.ne_nil {ts us : List Token} {x : Float} (h : Computes ts us x) : ts ≠ [] := by
  rintro rfl
  obtain ⟨hconv, hvalue⟩ := computes_iff.1 h
  cases hconv
  cases hvalue

end Infix

namespace Calculator

open Infix

theorem outcome_yield (e : Expr .sum) (hf : ∀ t ∈ e.yield, t.Finite) :
    outcome e.yield =
      report .failure (e.tree.value.map fun x => .success x (Rpn.text e.tree.postorder)) := by
  rw [outcome, e.ofTokens_yield hf]
  simp only [bind, Except.bind, Rpn.value_postorder]
  cases e.tree.value <;> rfl

theorem evaluate_of_spelled {settings : Settings} {strict : Option Bool} {e : Expr .sum} {s : String}
    (hw : ∀ t ∈ e.yield, t.Written) (hs : Spelled e.yield s.toList) (hlen : s.length ≤ settings.maxLength) :
    evaluate settings strict s = outcome e.yield := by
  have hword := hs.map_word_ofString hw e.yield_isChain e.kind_ne_stray (strict.getD settings.strict)
  have hne : Token.ofString (strict.getD settings.strict) s ≠ [] := by
    intro hnil
    rw [hnil] at hword
    exact e.yield_ne_nil (List.map_eq_nil_iff.1 hword.symm)
  rw [evaluate_of_outcome hlen hne, outcome_congr hword]

/-- An infix expression, however it is spaced, has the value of its tree, and fails only where the tree
divides by zero. -/
theorem evaluate_expr (settings : Settings) (strict : Option Bool) (e : Expr .sum) {s : String}
    (hw : ∀ t ∈ e.yield, t.Written) (hf : ∀ t ∈ e.yield, t.Finite) (hs : Spelled e.yield s.toList)
    (hlen : s.length ≤ settings.maxLength) :
    (¬e.tree.DividesByZero → ∃ x, e.tree.value = .ok x ∧
      evaluate settings strict s = .ok (.success x (Rpn.text e.tree.postorder))) ∧
    (e.tree.DividesByZero → ∃ o, evaluate settings strict s = .ok o ∧ o.ok = false ∧ o.value = none ∧
      o.errorCode = some "OPERATOR_ERROR" ∧ o.causeCode = some "DIVISION_BY_ZERO") := by
  rw [evaluate_of_spelled hw hs hlen, outcome_yield e hf]
  have hreadable : ∀ t ∈ e.tree.postorder, t.Readable := fun t ht =>
    (hf t (e.mem_yield_of_mem_postorder ht)).readable
  rcases Rpn.Tree.value_cases hreadable with ⟨hd, x, hx⟩ | ⟨hd, hx⟩
  · exact ⟨fun _ => ⟨x, hx, by rw [hx]; rfl⟩, fun h => absurd h hd⟩
  · exact ⟨fun h => absurd hd h, fun _ => ⟨_, by rw [hx]; rfl, rfl, rfl, rfl, rfl⟩⟩

theorem evaluate_expr_quotient :
    evaluate {} (some true) "(1.5 +2)/ 4" = .ok (.success 0.875 "1.5 2 + 4 /") := by
  let sum : Expr .sum := .add (.product (.factor (.number ⟨⟨.number, "1.5", 1⟩, rfl⟩)))
    ⟨⟨.operator, "+", 5⟩, .add, rfl, rfl⟩ (.inl rfl) (.factor (.number ⟨⟨.number, "2", 6⟩, rfl⟩))
  let e : Expr .sum := .product (.mul
    (.factor (.group ⟨⟨.opening, "(", 0⟩, rfl⟩ sum ⟨⟨.closing, ")", 7⟩, rfl⟩))
    ⟨⟨.operator, "/", 8⟩, .div, rfl, rfl⟩ (.inr rfl) (.number ⟨⟨.number, "4", 10⟩, rfl⟩))
  have htokens : e.yield = Token.ofString true "(1.5 +2)/ 4" := by decide +kernel
  have hw : ∀ t ∈ e.yield, t.Written := htokens ▸ fun _ => Token.written_of_mem_ofString
  have hf : ∀ t ∈ e.yield, t.Finite := by
    have hconv : Rpn.ofTokens e.yield = .ok e.tree.postorder := by decide +kernel
    exact (ofTokens_eq_ok_iff.1 hconv).1
  have hs : Spelled e.yield "(1.5 +2)/ 4".toList := htokens ▸ Spelled.of_scan _
  have hd : ¬e.tree.DividesByZero := by decide +kernel
  obtain ⟨x, hx, heval⟩ := (evaluate_expr {} (some true) e hw hf hs (by decide)).1 hd
  have hvalue : e.tree.value = .ok 0.875 := by decide +kernel
  rw [hvalue] at hx
  cases hx
  exact heval

/-- Whatever can be put into an order that has a value gets that value, all else a failure. -/
theorem evaluate_computes (settings : Settings) (strict : Option Bool) (s : String) :
    (∃ us x, s.length ≤ settings.maxLength ∧
      Computes (Token.ofString (strict.getD settings.strict) s) us x ∧
      evaluate settings strict s = .ok (.success x (Rpn.text us))) ∨
    (¬∃ us x, s.length ≤ settings.maxLength ∧
      Computes (Token.ofString (strict.getD settings.strict) s) us x) ∧
      ∃ e, evaluate settings strict s = .ok (.failure e) := by
  by_cases hlen : s.length ≤ settings.maxLength
  · by_cases hne : Token.ofString (strict.getD settings.strict) s = []
    · refine .inr ⟨fun ⟨us, x, _, h⟩ => h.ne_nil hne, .noTokens s, ?_⟩
      rw [evaluate_eq, if_neg (by omega), if_pos hne]
    · rw [evaluate_of_outcome hlen hne]
      have hreadable : ∀ t ∈ Token.ofString (strict.getD settings.strict) s, t.Readable :=
        fun t ht => (Token.written_of_mem_ofString ht).readable
      rcases outcome_cases hreadable with ⟨us, x, hconv, hvalue, hout⟩ | ⟨hout, hnone⟩
      · exact .inl ⟨us, x, hlen, computes_iff.2 ⟨hconv, hvalue⟩, hout⟩
      · refine .inr ⟨?_, hout⟩
        rintro ⟨us, x, -, h⟩
        obtain ⟨hconv, hvalue⟩ := computes_iff.1 h
        exact hnone us x hconv hvalue
  · refine .inr ⟨fun ⟨us, x, h, _⟩ => hlen h, .tooLong settings.maxLength, ?_⟩
    rw [evaluate_eq, if_pos (by omega)]

theorem not_forall_isSentence_of_ok :
    ¬∀ (settings : Settings) (strict : Option Bool) (s : String) (o : Outcome),
      evaluate settings strict s = .ok o → o.ok →
        IsSentence (Token.ofString (strict.getD settings.strict) s) := by
  intro h
  have hok : evaluate {} (some false) "2 3 +" = .ok (.success 5 "2 3 +") := by decide +kernel
  obtain ⟨e, he⟩ := h {} (some false) "2 3 +" _ hok rfl
  have htokens : Token.ofString false "2 3 +" =
      [⟨.number, "2", 0⟩, ⟨.number, "3", 2⟩, ⟨.operator, "+", 4⟩] := by decide +kernel
  have hchain : e.yield.IsChain Token.Apart := e.yield_isChain
  rw [he, Option.getD_some, htokens] at hchain
  exact (List.isChain_cons_cons.1 hchain).1 ⟨.inl rfl, .inl rfl⟩

end Calculator
end InfixCalc
