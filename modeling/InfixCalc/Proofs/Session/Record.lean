import InfixCalc.Proofs.Calculator.Spacing
import InfixCalc.Proofs.Infix.Grammar
import InfixCalc.Proofs.Session.Turn

namespace InfixCalc

open Infix

theorem Calculator.length_le_of_ok {settings : Settings} {strict : Option Bool} {s : String} {o : Outcome}
    (heval : evaluate settings strict s = .ok o) (hok : o.ok) : s.length ≤ settings.maxLength := by
  by_contra hlong
  rw [evaluate_eq, if_pos (by omega)] at heval
  cases heval
  cases hok

theorem Infix.IsSentence.evaluate_squeeze {settings : Settings} {strict : Option Bool} {s : String}
    (hs : IsSentence (Token.ofString (strict.getD settings.strict) s))
    (hlen : s.length ≤ settings.maxLength) :
    Calculator.evaluate settings strict (Text.squeeze s) = Calculator.evaluate settings strict s := by
  obtain ⟨e, he⟩ := hs
  exact Calculator.evaluate_squeeze hlen (he ▸ e.yield_ne_nil) (he ▸ e.yield_isChain)

namespace Session

theorem answers_of_fault_eq_none {s : Session} {h : History} {e : Event}
    (hfault : (s.turn h e).fault = none) : s.Answers h e (s.turn h e) := by
  refine answers_turn fun hshows => ?_
  by_contra hplaces
  obtain ⟨why, hwhy⟩ := exists_turn_fault hshows hplaces
  rw [hfault] at hwhy
  cases hwhy

/-- An infix expression that has a value has the same value and the same form when it is evaluated as it
stands in the history, without the spaces. A session records that text with that value. -/
theorem evaluate_recorded (s : Session) (raw : String) (o : Outcome)
    (hsentence : IsSentence (Token.ofString s.settings.strict (Text.trim raw)))
    (heval : Calculator.evaluate s.settings none (Text.trim raw) = .ok o) (hok : o.ok) :
    ∃ (e : History.Entry) (rpn : String), e.expression = Text.squeeze (Text.trim raw) ∧
      o = .success e.value rpn ∧
      Calculator.evaluate s.settings none e.expression = .ok (.success e.value rpn) ∧
      (∀ h : History, (h.record (Text.trim raw) e.value).entries = h.entries ++ [e]) ∧
      ∀ h, (s.turn h (.line raw)).fault = none →
        (s.turn h (.line raw)).history.entries = h.entries ++ [e] := by
  rcases Calculator.evaluate_cases s.settings none (Text.trim raw) with ⟨x, rpn, -, hvalue⟩ | ⟨e, -, hfails⟩
  · obtain rfl := Except.ok.inj (heval.symm.trans hvalue)
    have hmode : IsSentence (Token.ofString ((none : Option Bool).getD s.settings.strict) (Text.trim raw)) :=
      hsentence
    have hsqueeze := hmode.evaluate_squeeze (Calculator.length_le_of_ok heval hok)
    refine ⟨.of (Text.trim raw) x, rpn, rfl, rfl, hsqueeze.trans heval, fun h => rfl, fun h hfault => ?_⟩
    rw [(answers_of_fault_eq_none hfault).history, after, List.filterMap_cons, recorded_of_success hvalue]
    rfl
  · cases heval.symm.trans hfails
    cases hok

theorem evaluate_recorded_product :
    (turn {} {} (.line " ( 1 . + .x 2.5 )\t* . 4 ")).history.entries = [⟨"(1.+.x2.5)\t*.4", 14⟩] ∧
      Calculator.evaluate {} none "(1.+.x2.5)\t*.4" = .ok (.success 14 "1 2.5 + 4 *") := by
  have htokens : Token.ofString false (Text.trim " ( 1 . + .x 2.5 )\t* . 4 ") =
      [⟨.opening, "(", 0⟩, ⟨.number, "1", 2⟩, ⟨.operator, "+", 6⟩, ⟨.number, "2.5", 11⟩, ⟨.closing, ")", 15⟩,
        ⟨.operator, "*", 17⟩, ⟨.number, "4", 21⟩] := by decide +kernel
  let sum : Expr .sum := .add (.product (.factor (.number ⟨⟨.number, "1", 2⟩, rfl⟩)))
    ⟨⟨.operator, "+", 6⟩, .add, rfl, rfl⟩ (.inl rfl) (.factor (.number ⟨⟨.number, "2.5", 11⟩, rfl⟩))
  let e : Expr .sum := .product (.mul
    (.factor (.group ⟨⟨.opening, "(", 0⟩, rfl⟩ sum ⟨⟨.closing, ")", 15⟩, rfl⟩))
    ⟨⟨.operator, "*", 17⟩, .mul, rfl, rfl⟩ (.inl rfl) (.number ⟨⟨.number, "4", 21⟩, rfl⟩))
  have hline : Calculator.evaluate {} none (Text.trim " ( 1 . + .x 2.5 )\t* . 4 ") =
      .ok (.success 14 "1 2.5 + 4 *") := by decide +kernel
  obtain ⟨entry, rpn, hexpression, ho, heval, -, hturn⟩ :=
    evaluate_recorded {} " ( 1 . + .x 2.5 )\t* . 4 " _ ⟨e, htokens.symm⟩ hline rfl
  obtain ⟨expression, x⟩ := entry
  have hsqueezed : Text.squeeze (Text.trim " ( 1 . + .x 2.5 )\t* . 4 ") = "(1.+.x2.5)\t*.4" := by
    decide +kernel
  obtain rfl : expression = "(1.+.x2.5)\t*.4" := hexpression.trans hsqueezed
  obtain ⟨rfl, rfl⟩ : 14 = x ∧ "1 2.5 + 4 *" = rpn := by simpa [Outcome.success] using ho
  exact ⟨hturn {} (by decide +kernel), heval⟩

end Session
end InfixCalc
