import InfixCalc.Proofs.Rpn.RoundTrip
import InfixCalc.Proofs.Rpn.Waiting
import InfixCalc.Proofs.Calculator.Outcome

namespace InfixCalc

namespace Outcome

structure Succeeded (o : Outcome) : Prop where
  ok : o.ok = true
  value : ∃ x, o.value = some x
  rpn : ∃ text, o.rpn = some text ∧ text ≠ ""
  error : o.error = none
  errorCode : o.errorCode = none
  causeCode : o.causeCode = none

def failureCodes : List String :=
  ["TOO_LONG", "NO_TOKENS", "UNKNOWN_TOKEN", "UNMATCHED_PAREN", "INSUFFICIENT_OPERANDS",
    "MALFORMED_EXPRESSION", "OPERATOR_ERROR"]

structure Failed (o : Outcome) : Prop where
  ok : o.ok = false
  value : o.value = none
  rpn : o.rpn = none
  error : ∃ message, o.error = some message ∧ message ≠ ""
  errorCode : ∃ code ∈ failureCodes, o.errorCode = some code
  causeCode : o.causeCode = if o.errorCode = some "OPERATOR_ERROR" then some "DIVISION_BY_ZERO" else none

end Outcome

namespace Text

def Opens (p s : String) : Prop := p.toList <+: s.toList

theorem Opens.refl (p : String) : Opens p p := List.prefix_refl _

theorem Opens.append {p s : String} (h : Opens p s) (t : String) : Opens p (s ++ t) := by
  rw [Opens, String.toList_append]
  exact h.trans (List.prefix_append _ _)

theorem Opens.ne_empty {p s : String} (h : Opens p s) (hp : p ≠ "") : s ≠ "" := by
  rintro rfl
  exact hp (String.toList_eq_nil_iff.1 (List.prefix_nil.1 h))

theorem Opens.comparable {p q s : String} (hp : Opens p s) (hq : Opens q s) : Opens p q ∨ Opens q p :=
  List.prefix_or_prefix_of_prefix hp hq

instance (p s : String) : Decidable (Opens p s) := inferInstanceAs (Decidable (p.toList <+: s.toList))

end Text

namespace Rpn

theorem text_ne_empty {us : List Token} (hne : us ≠ []) (hw : ∀ t ∈ us, t.Written) : text us ≠ "" := by
  obtain ⟨t, us, rfl⟩ := List.exists_cons_of_ne_nil hne
  obtain ⟨c, w, htext, -⟩ := Token.Kind.Shape.exists_cons (hw t (by simp))
  have hopens : Text.Opens t.text (text (t :: us)) := by
    cases us with
    | nil => exact Text.Opens.refl t.text
    | cons u us =>
      rw [Text.Opens, toList_text_cons_cons]
      exact List.prefix_append _ _
  refine hopens.ne_empty fun h => ?_
  rw [h] at htext
  cases htext

end Rpn

namespace Calculator

open Text

inductive Reported : Error → Prop
  | tooLong (limit : Int) : Reported (.tooLong limit)
  | noTokens (expression : String) : Reported (.noTokens expression)
  | conversion {e : Error} : Rpn.ConversionFailure (.error e) → Reported e
  | value {e : Error} : Rpn.ValueFailure (.error e) → Reported e

def messageStarts : List String :=
  ["Input too long (max ", "could not tokenize expression: ", "invalid token: ", "invalid expression: ",
    "not enough operands for operator '", "error while applying operator '",
    "malformed expression: extra or missing operands"]

theorem Reported.opens_message {e : Error} (h : Reported e) : ∃ p ∈ messageStarts, Opens p e.message := by
  cases h with
  | tooLong limit => exact ⟨_, by decide, ((Opens.refl "Input too long (max ").append _).append _⟩
  | noTokens s => exact ⟨_, by decide, (Opens.refl "could not tokenize expression: ").append _⟩
  | conversion h =>
    cases h with
    | unknown t => exact ⟨_, by decide, (Opens.refl "invalid token: ").append _⟩
    | unmatched which => exact ⟨_, by decide, (Opens.refl "invalid expression: ").append _⟩
  | value h =>
    cases h with
    | missing o position =>
      exact ⟨_, by decide, (((Opens.refl "not enough operands for operator '").append _).append _).append _⟩
    | division =>
      exact ⟨_, by decide, (((Opens.refl "error while applying operator '").append _).append _).append _⟩
    | operands => exact ⟨_, by decide, Opens.refl "malformed expression: extra or missing operands"⟩

theorem Reported.not_opens_message {e : Error} (h : Reported e) :
    ¬Opens "malformed expression: un" e.message := by
  obtain ⟨p, hp, hopens⟩ := h.opens_message
  have hapart : ∀ p ∈ messageStarts,
      ¬Opens p "malformed expression: un" ∧ ¬Opens "malformed expression: un" p := by decide
  exact fun hun => (hopens.comparable hun).elim (hapart p hp).1 (hapart p hp).2

theorem Reported.message_ne_unexpected {e : Error} (h : Reported e) (text : String) (position : Nat) :
    e.message ≠ (Malformed.unexpected text position).message := by
  have hopens : Opens "malformed expression: un" "malformed expression: unexpected token '" := by decide
  intro heq
  exact h.not_opens_message (heq ▸ ((hopens.append _).append _).append _)

theorem Reported.message_ne_unsupported {e : Error} (h : Reported e) (operator : String) :
    e.message ≠ (Malformed.unsupported operator).message := by
  have hopens : Opens "malformed expression: un" "malformed expression: unsupported operator '" := by decide
  intro heq
  exact h.not_opens_message (heq ▸ (hopens.append _).append _)

theorem Reported.failed {e : Error} (h : Reported e) : (Outcome.failure e).Failed where
  ok := rfl
  value := rfl
  rpn := rfl
  error := by
    obtain ⟨p, hp, hopens⟩ := h.opens_message
    have hne : ∀ p ∈ messageStarts, p ≠ "" := by decide
    exact ⟨_, rfl, hopens.ne_empty (hne p hp)⟩
  errorCode := by
    refine ⟨e.code, ?_, rfl⟩
    rcases h with _ | _ | (_ | _) | (_ | _ | _) <;> simp [Error.code, Outcome.failureCodes]
  causeCode := by rcases h with _ | _ | (_ | _) | (_ | _ | _) <;> rfl

theorem evaluate_cases (settings : Settings) (strict : Option Bool) (s : String) :
    (∃ x text, text ≠ "" ∧ evaluate settings strict s = .ok (.success x text)) ∨
      ∃ e, Reported e ∧ evaluate settings strict s = .ok (.failure e) := by
  have hreadable : ∀ t ∈ Token.ofString (strict.getD settings.strict) s, t.Readable := fun t ht =>
    (Token.written_of_mem_ofString ht).readable
  rw [evaluate_eq]
  split
  · exact .inr ⟨_, .tooLong _, rfl⟩
  · split
    · exact .inr ⟨_, .noTokens _, rfl⟩
    · rcases outcome_stages hreadable with ⟨us, x, hconv, hvalue, hout⟩ | ⟨e, -, he, hout⟩ |
        ⟨us, e, -, -, he, hout⟩
      · have hne : us ≠ [] := by
          rintro rfl
          cases hvalue
        exact .inl ⟨x, _, Rpn.text_ne_empty hne (Rpn.written_of_mem_ofTokens hconv), hout⟩
      · exact .inr ⟨e, .conversion he, hout⟩
      · exact .inr ⟨e, .value he, hout⟩

/-- Every text has an outcome, which is a value with its form or a message with its code. No message
is about a token or an operator that only other lists can have, and wherever the rank of a waiting
operator is asked for, it has one. -/
theorem evaluate_succeeded_or_failed (settings : Settings) (strict : Option Bool) (s : String) :
    (∃ o, evaluate settings strict s = .ok o ∧ (o.Succeeded ∨ o.Failed) ∧
      (∀ text position, o.error ≠ some (Malformed.unexpected text position).message) ∧
      ∀ operator, o.error ≠ some (Malformed.unsupported operator).message) ∧
    ∀ (ts : List Token) (y : Rpn.Yard), ts.foldlM Rpn.Yard.accept {} = .ok y →
      ∀ t ∈ y.waiting, t.kind = .opening ∨ t.kind = .operator ∧ (Operator.ofSymbol? t.text).isSome := by
  constructor
  · rcases evaluate_cases settings strict s with ⟨x, text, hne, heval⟩ | ⟨e, he, heval⟩
    · exact ⟨_, heval, .inl ⟨rfl, ⟨x, rfl⟩, ⟨text, rfl, hne⟩, rfl, rfl, rfl⟩, nofun, nofun⟩
    · refine ⟨_, heval, .inr he.failed, fun text position h => ?_, fun operator h => ?_⟩
      · exact he.message_ne_unexpected text position (Option.some.inj h)
      · exact he.message_ne_unsupported operator (Option.some.inj h)
  · intro ts y hread
    have hempty : Rpn.Yard.Ranked {} := by simp [Rpn.Yard.Ranked]
    exact hempty.foldlM hread

theorem evaluate_succeeded_or_failed_open_sum :
    let sum : Token := ⟨.operator, "+", 2⟩
    [⟨.opening, "(", 0⟩, ⟨.number, "1", 1⟩, sum].foldlM Rpn.Yard.accept {} =
        .ok ⟨[⟨.number, "1", 1⟩], [sum, ⟨.opening, "(", 0⟩]⟩ ∧
      (sum.kind = .opening ∨ sum.kind = .operator ∧ (Operator.ofSymbol? sum.text).isSome) := by
  intro sum
  have hread : [⟨.opening, "(", 0⟩, ⟨.number, "1", 1⟩, sum].foldlM Rpn.Yard.accept {} =
      .ok ⟨[⟨.number, "1", 1⟩], [sum, ⟨.opening, "(", 0⟩]⟩ := by decide +kernel
  exact ⟨hread, (evaluate_succeeded_or_failed {} none "(1+").2 _ _ hread sum (by simp)⟩

end Calculator
end InfixCalc
