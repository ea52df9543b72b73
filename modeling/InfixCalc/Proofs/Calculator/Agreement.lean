import InfixCalc.Proofs.Rpn.RoundTrip
import InfixCalc.Proofs.Calculator.Outcome
import InfixCalc.Proofs.Text.Words

namespace InfixCalc

theorem Token.Written.isWord {t : Token} (h : t.Written)
    (hk : t.kind = .number ∨ ∃ o : OperatorToken, o.token = t) : Text.IsWord t.text := by
  have hshape : t.kind.Shape t.text.toList := h
  refine ⟨fun hempty => ?_, ?_⟩
  · obtain ⟨c, w, htext, -⟩ := hshape.exists_cons
    rw [hempty] at htext
    cases htext
  · rcases hk with hk | ⟨o, rfl⟩
    · rw [hk] at hshape
      have hp : literalChars.all fun c => !Text.isSpace c := by decide
      simpa using IsLiteral.forall_mem hp hshape
    · rw [o.kind_eq] at hshape
      obtain ⟨c, hc, htext⟩ := hshape
      have hp : operatorChars.all fun c => !Text.isSpace c := by decide
      have hspace := List.all_eq_true.1 hp c hc
      simpa [htext] using hspace

namespace Calculator

def conversionCodes : List String := ["TOO_LONG", "NO_TOKENS", "UNKNOWN_TOKEN", "UNMATCHED_PAREN"]

def valueCodes : List String := ["INSUFFICIENT_OPERANDS", "MALFORMED_EXPRESSION", "OPERATOR_ERROR"]

inductive Refused : Error → Prop
  | tooLong (limit : Int) : Refused (.tooLong limit)
  | noTokens (expression : String) : Refused (.noTokens expression)
  | conversion {e : Error} : Rpn.ConversionFailure (.error e) → Refused e

theorem Refused.code_mem {e : Error} (h : Refused e) : e.code ∈ conversionCodes := by
  rcases h with _ | _ | (_ | _) <;> simp [Error.code, conversionCodes]

theorem Refused.causeCode?_eq_none {e : Error} (h : Refused e) : e.causeCode? = none := by
  rcases h with _ | _ | (_ | _) <;> rfl

theorem code_mem_valueCodes {e : Error} (h : Rpn.ValueFailure (.error e)) : e.code ∈ valueCodes := by
  rcases h with _ | _ | _ <;> simp [Error.code, valueCodes]

theorem rpn_cases (settings : Settings) (strict : Option Bool) (s : String) :
    (∃ us, rpn settings strict s = .ok us ∧
      ∀ t ∈ us, t.Written ∧ (t.kind = .number ∨ ∃ o : OperatorToken, o.token = t)) ∨
    ∃ e, rpn settings strict s = .error (.error e) ∧ Refused e := by
  have hreadable : ∀ t ∈ Token.ofString (strict.getD settings.strict) s, t.Readable := fun t ht =>
    (Token.written_of_mem_ofString ht).readable
  rw [rpn_eq]
  split
  · exact .inr ⟨_, rfl, .tooLong _⟩
  · split
    · exact .inr ⟨_, rfl, .noTokens s⟩
    · cases hconv : Rpn.ofTokens (Token.ofString (strict.getD settings.strict) s) with
      | error f =>
        have hfails := Rpn.ofTokens_failsOnly hreadable f hconv
        obtain ⟨e, rfl⟩ := hfails.exists_error
        exact .inr ⟨e, rfl, .conversion hfails⟩
      | ok us =>
        refine .inl ⟨us, rfl, fun t ht => ⟨Rpn.written_of_mem_ofTokens hconv t ht, ?_⟩⟩
        obtain ⟨-, a, -, rfl⟩ := Infix.ofTokens_eq_ok_iff.1 hconv
        exact (a.mem_yield_of_mem_postorder ht).2

theorem evaluate_of_rpn_eq_ok {settings : Settings} {strict : Option Bool} {s : String} {us : List Token}
    (h : rpn settings strict s = .ok us)
    (hus : ∀ t ∈ us, t.Written ∧ (t.kind = .number ∨ ∃ o : OperatorToken, o.token = t)) :
    (∃ x, evaluate settings strict s = .ok (.success x (Rpn.text us))) ∨
      ∃ e, Rpn.ValueFailure (.error e) ∧ evaluate settings strict s = .ok (.failure e) := by
  rw [evaluate, h]
  cases hvalue : Rpn.value us with
  | ok x =>
    refine .inl ⟨x, ?_⟩
    simp [bind, Except.bind, pure, Except.pure, hvalue, report]
  | error f =>
    have hfails := Rpn.value_failsOnly (fun t ht => (hus t ht).1.readable) (fun t ht => (hus t ht).2) f hvalue
    obtain ⟨e, rfl⟩ := hfails.exists_error
    refine .inr ⟨e, hfails, ?_⟩
    simp [bind, Except.bind, hvalue, report]

/-- Validation accepts what conversion does. What is refused is refused by all three in the same words
and with a code of conversion; what has a form either has a value beside that form, from which the
form is read back, or fails with a code of evaluation. So the code tells which of the two failed. -/
theorem convert_validate_evaluate (settings : Settings) (strict : Option Bool) (s : String) :
    (validate settings strict s = .ok (true, none) ↔ ∃ ws, convert settings strict s = .ok ws) ∧
    ∃ o, evaluate settings strict s = .ok o ∧
      ((∃ e, convert settings strict s = .error (.error e) ∧ e.code ∈ conversionCodes ∧
        validate settings strict s = .ok (false, some e.message) ∧
        o.ok = false ∧ o.error = some e.message ∧ o.errorCode = some e.code ∧ o.causeCode = none) ∨
      ∃ ws, convert settings strict s = .ok ws ∧
        (o.ok = true ∧ o.rpn = some (" ".intercalate ws) ∧ Text.words (" ".intercalate ws) = ws ∨
        o.ok = false ∧ ∃ code ∈ valueCodes, o.errorCode = some code)) ∧
      ((∃ code ∈ conversionCodes, o.errorCode = some code) ↔
        ∃ f, convert settings strict s = .error f) ∧
      ((∃ code ∈ valueCodes, o.errorCode = some code) ↔
        o.ok = false ∧ ∃ ws, convert settings strict s = .ok ws) := by
  have hapart : ∀ code ∈ conversionCodes, code ∉ valueCodes := by decide
  rcases rpn_cases settings strict s with ⟨us, hrpn, hus⟩ | ⟨e, hrpn, he⟩
  · have hconvert : convert settings strict s = .ok (us.map (·.text)) := by
      rw [convert, hrpn]
      rfl
    have hvalidate : validate settings strict s = .ok (true, none) := by
      rw [validate, hrpn]
      rfl
    refine ⟨iff_of_true hvalidate ⟨_, hconvert⟩, ?_⟩
    rcases evaluate_of_rpn_eq_ok hrpn hus with ⟨x, heval⟩ | ⟨e, he, heval⟩
    · have hwords : Text.words (" ".intercalate (us.map (·.text))) = us.map (·.text) := by
        refine Text.words_intercalate (List.forall_mem_map.2 fun t ht => ?_)
        exact (hus t ht).1.isWord (hus t ht).2
      exact ⟨_, heval, .inr ⟨_, hconvert, .inl ⟨rfl, rfl, hwords⟩⟩, by simp [Outcome.success, hconvert],
        by simp [Outcome.success]⟩
    · have hcode := code_mem_valueCodes he
      refine ⟨_, heval, .inr ⟨_, hconvert, .inr ⟨rfl, _, hcode, rfl⟩⟩, ?_, ?_⟩
      · simp only [hconvert, reduceCtorEq, exists_false, iff_false]
        rintro ⟨code, hmem, heq⟩
        exact hapart code hmem (Option.some.inj heq ▸ hcode)
      · exact iff_of_true ⟨_, hcode, rfl⟩ ⟨rfl, _, hconvert⟩
  · have hconvert : convert settings strict s = .error (.error e) := by
      rw [convert, hrpn]
      rfl
    have hvalidate : validate settings strict s = .ok (false, some e.message) := by
      rw [validate, hrpn]
      rfl
    have heval : evaluate settings strict s = .ok (.failure e) := by
      rw [evaluate, hrpn]
      rfl
    refine ⟨by simp [hvalidate, hconvert], _, heval, .inl ⟨e, hconvert, he.code_mem, hvalidate, rfl, rfl, rfl,
      he.causeCode?_eq_none⟩, ?_, ?_⟩
    · exact iff_of_true ⟨_, he.code_mem, rfl⟩ ⟨_, hconvert⟩
    · simp only [hconvert, reduceCtorEq, exists_false, and_false, iff_false]
      rintro ⟨code, hmem, heq⟩
      exact hapart _ he.code_mem (Option.some.inj heq ▸ hmem)

end Calculator
end InfixCalc
