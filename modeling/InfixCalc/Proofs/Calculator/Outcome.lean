import InfixCalc.Calculator
import InfixCalc.Proofs.Rpn.Failure
import InfixCalc.Proofs.Rpn.Word

namespace InfixCalc

theorem Token.Written.readable {t : Token} (h : t.Written) : t.Readable := fun hk => by
  have hshape : t.kind.Shape t.text.toList := h
  rw [hk] at hshape
  obtain ⟨n, hn⟩ := IsLiteral.exists_numeral hshape
  rw [String.ofList_toList] at hn
  exact ⟨n.toFloat, by rw [value, hn]⟩

namespace Calculator

def outcome (ts : List Token) : Except Fault Outcome :=
  report .failure do
    let us ← Rpn.ofTokens ts
    let value ← Rpn.value us
    return .success value (Rpn.text us)

theorem rpn_eq (settings : Settings) (strict : Option Bool) (expression : String) :
    rpn settings strict expression =
      if settings.maxLength < expression.length then .error (.error (.tooLong settings.maxLength))
      else if Token.ofString (strict.getD settings.strict) expression = [] then
        .error (.error (.noTokens expression))
      else Rpn.ofTokens (Token.ofString (strict.getD settings.strict) expression) := by
  unfold rpn tokens
  simp only [List.isEmpty_iff]
  split
  · rfl
  · by_cases hnil : Token.ofString (strict.getD settings.strict) expression = []
    · rw [if_pos hnil, if_pos hnil]
    · rw [if_neg hnil, if_neg hnil]

theorem evaluate_eq (settings : Settings) (strict : Option Bool) (expression : String) :
    evaluate settings strict expression =
      if settings.maxLength < expression.length then .ok (.failure (.tooLong settings.maxLength))
      else if Token.ofString (strict.getD settings.strict) expression = [] then
        .ok (.failure (.noTokens expression))
      else outcome (Token.ofString (strict.getD settings.strict) expression) := by
  rw [evaluate, rpn_eq]
  split
  · rfl
  · split <;> rfl

theorem evaluate_of_outcome {settings : Settings} {strict : Option Bool} {s : String}
    (hlen : s.length ≤ settings.maxLength)
    (hne : Token.ofString (strict.getD settings.strict) s ≠ []) :
    evaluate settings strict s = outcome (Token.ofString (strict.getD settings.strict) s) := by
  rw [evaluate_eq, if_neg (by omega), if_neg hne]

theorem outcome_congr {ts us : List Token} (h : ts.map Token.word = us.map Token.word) :
    outcome ts = outcome us := by
  have key (ts : List Token) : outcome (ts.map Token.unplaced) = outcome ts := by
    unfold outcome
    rw [Rpn.ofTokens_unplaced]
    cases Rpn.ofTokens ts with
    | error e =>
      cases e with
      | fault f => rfl
      | error e => cases e <;> rfl
    | ok us =>
      simp only [Except.map, Except.mapError, bind, Except.bind, Rpn.value_unplaced, Rpn.text_unplaced]
  rw [← key, Token.map_unplaced_eq h, key]

theorem outcome_stages {ts : List Token} (hts : ∀ t ∈ ts, t.Readable) :
    (∃ us x, Rpn.ofTokens ts = .ok us ∧ Rpn.value us = .ok x ∧
      outcome ts = .ok (.success x (Rpn.text us))) ∨
    (∃ e, Rpn.ofTokens ts = .error (.error e) ∧ Rpn.ConversionFailure (.error e) ∧
      outcome ts = .ok (.failure e)) ∨
    ∃ us e, Rpn.ofTokens ts = .ok us ∧ Rpn.value us = .error (.error e) ∧
      Rpn.ValueFailure (.error e) ∧ outcome ts = .ok (.failure e) := by
  unfold outcome
  cases hconv : Rpn.ofTokens ts with
  | error f =>
    have hfails := Rpn.ofTokens_failsOnly hts f hconv
    obtain ⟨e, rfl⟩ := hfails.exists_error
    exact .inr (.inl ⟨e, rfl, hfails, rfl⟩)
  | ok us =>
    obtain ⟨-, a, rfl, rfl⟩ := Infix.ofTokens_eq_ok_iff.1 hconv
    have hmem {t : Token} (ht : t ∈ a.postorder) := a.mem_yield_of_mem_postorder ht
    simp only [bind, Except.bind]
    cases hvalue : Rpn.value a.postorder with
    | ok x => exact .inl ⟨_, x, rfl, hvalue, rfl⟩
    | error f =>
      have hfails := Rpn.value_failsOnly (fun t ht => hts t (hmem ht).1) (fun t ht => (hmem ht).2) f hvalue
      obtain ⟨e, rfl⟩ := hfails.exists_error
      exact .inr (.inr ⟨_, e, rfl, hvalue, hfails, rfl⟩)

theorem outcome_cases {ts : List Token} (hts : ∀ t ∈ ts, t.Readable) :
    (∃ us x, Rpn.ofTokens ts = .ok us ∧ Rpn.value us = .ok x ∧
      outcome ts = .ok (.success x (Rpn.text us))) ∨
    (∃ e, outcome ts = .ok (.failure e)) ∧
      ∀ us x, Rpn.ofTokens ts = .ok us → Rpn.value us ≠ .ok x := by
  rcases outcome_stages hts with h | ⟨e, hconv, -, hout⟩ | ⟨us, e, hconv, hvalue, -, hout⟩
  · exact .inl h
  · exact .inr ⟨⟨e, hout⟩, fun us x hus => by cases hconv.symm.trans hus⟩
  · exact .inr ⟨⟨e, hout⟩, fun us x hus => by cases hconv.symm.trans hus; simp [hvalue]⟩

end Calculator
end InfixCalc
