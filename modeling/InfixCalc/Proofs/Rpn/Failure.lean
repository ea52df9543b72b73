import InfixCalc.Proofs.Infix.Reading

namespace InfixCalc

def FailsOnly (P : ε → Prop) (x : Except ε α) : Prop := ∀ e, x = .error e → P e

theorem FailsOnly.ok {P : ε → Prop} (a : α) : FailsOnly P (.ok a) := nofun

theorem FailsOnly.error {P : ε → Prop} {e : ε} (h : P e) : FailsOnly P (.error e : Except ε α) := by
  rintro _ ⟨⟩
  exact h

theorem FailsOnly.bind {P : ε → Prop} {x : Except ε α} {f : α → Except ε β} (hx : FailsOnly P x)
    (hf : ∀ a, x = .ok a → FailsOnly P (f a)) : FailsOnly P (x >>= f) := by
  cases x with
  | error e => exact .error (hx e rfl)
  | ok a => exact hf a rfl

theorem exists_of_bind_eq_ok {x : Except ε α} {f : α → Except ε β} {b : β} (h : (x >>= f) = .ok b) :
    ∃ a, x = .ok a ∧ f a = .ok b := by
  cases x with
  | error e => cases h
  | ok a => exact ⟨a, rfl, h⟩

theorem toOption_eq_some_iff {x : Except ε α} {a : α} : x.toOption = some a ↔ x = .ok a := by
  cases x <;> simp [Except.toOption]

namespace Rpn

inductive ConversionFailure : Failure → Prop
  | unknown (t : Token) : ConversionFailure (.error (.unknownToken t))
  | unmatched (which : Unmatched) : ConversionFailure (.error (.unmatched which))

inductive ValueFailure : Failure → Prop
  | missing (o : Operator) (position : Nat) : ValueFailure (.error (.missingOperands o.symbol position))
  | division : ValueFailure (.error (.operatorFailed Operator.div.symbol .divisionByZero))
  | operands : ValueFailure (.error (.malformed .operands))

theorem ConversionFailure.exists_error {f : Failure} (h : ConversionFailure f) : ∃ e, f = .error e := by
  cases h <;> exact ⟨_, rfl⟩

theorem ValueFailure.exists_error {f : Failure} (h : ValueFailure f) : ∃ e, f = .error e := by
  cases h <;> exact ⟨_, rfl⟩

theorem Yard.accept_failsOnly {t : Token} (ht : t.Readable) (y : Yard) :
    FailsOnly ConversionFailure (y.accept t) := by
  unfold accept
  cases hk : t.kind with
  | number =>
    obtain ⟨x, hx⟩ := ht hk
    simp only [hx]
    split
    · exact .ok _
    · exact .error (.unknown t)
  | opening => exact .ok _
  | closing =>
    simp only
    split
    · exact .error (.unmatched _)
    · exact .ok _
  | operator =>
    simp only
    split
    · exact .error (.unknown t)
    · exact .ok _
  | stray => exact .error (.unknown t)

theorem ofTokens_failsOnly {ts : List Token} (hts : ∀ t ∈ ts, t.Readable) :
    FailsOnly ConversionFailure (ofTokens ts) := by
  refine .bind ?_ fun y _ => ?_
  · generalize ({} : Yard) = y
    induction ts generalizing y with
    | nil => exact .ok _
    | cons t ts ih =>
      rw [List.foldlM_cons]
      exact .bind (y.accept_failsOnly (hts t (by simp))) fun y' _ => ih (fun u hu => hts u (by simp [hu])) y'
  · unfold Yard.finish
    split
    · exact .error (.unmatched _)
    · exact .ok _

theorem step_failsOnly {t : Token} (ht : t.Readable)
    (hk : t.kind = .number ∨ ∃ o : OperatorToken, o.token = t) (operands : List Float) (position : Nat) :
    FailsOnly ValueFailure (step operands position t) := by
  rcases hk with hk | ⟨o, rfl⟩
  · obtain ⟨x, hx⟩ := ht hk
    rw [step_number hk, hx]
    exact .ok _
  · rcases operands with _ | ⟨y, _ | ⟨x, operands⟩⟩
    · simp only [step, o.kind_eq, o.text_eq]
      exact .error (.missing o.operator position)
    · simp only [step, o.kind_eq, o.text_eq]
      exact .error (.missing o.operator position)
    · rw [step_operator]
      unfold Operator.apply
      cases o.operator with
      | add | sub | mul => exact .ok _
      | div =>
        simp only
        split
        · exact .error .division
        · exact .ok _

theorem value_failsOnly {ts : List Token} (hts : ∀ t ∈ ts, t.Readable)
    (hk : ∀ t ∈ ts, t.kind = .number ∨ ∃ o : OperatorToken, o.token = t) :
    FailsOnly ValueFailure (value ts) := by
  have hrun (operands : List Float) (position : Nat) : FailsOnly ValueFailure (run operands position ts) := by
    induction ts generalizing operands position with
    | nil => exact .ok _
    | cons t ts ih =>
      have hstep := step_failsOnly (hts t (by simp)) (hk t (by simp)) operands position
      rw [run]
      cases h : step operands position t with
      | error e => exact .error (hstep e h)
      | ok operands => exact ih (fun u hu => hts u (by simp [hu])) (fun u hu => hk u (by simp [hu])) _ _
  unfold value
  split
  · exact .ok _
  · exact .error .operands
  · next e he => exact .error (hrun [] 1 e he)

end Rpn
end InfixCalc
