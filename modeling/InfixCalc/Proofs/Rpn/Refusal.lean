import InfixCalc.Proofs.Rpn.Obstruction
import InfixCalc.Proofs.Rpn.Waiting

namespace InfixCalc.Rpn

inductive Refusal (before : List Token) (t : Token) : Failure → Prop
  | unreadable : t.kind = .number → Decimal.Numeral.ofString? t.text = none →
    Refusal before t (.fault (.notNumber t.text))
  | infinite {x : Float} : t.kind = .number → t.value = .ok x →
    (Decimal.Binary64.ofFloat x).isFinite = false → Refusal before t (.error (.unknownToken t))
  | unranked : t.kind = .operator → (∀ o : Operator, t.text ≠ o.symbol) →
    Refusal before t (.error (.unknownToken t))
  | stray : t.kind = .stray → Refusal before t (.error (.unknownToken t))
  | unmatched : t.kind = .closing →
    before.countP (·.kind = .closing) = before.countP (·.kind = .opening) →
    Refusal before t (.error (.unmatched .closing))

namespace Yard

variable {before : List Token} {y : Yard}

theorem accept_of_refusal (hy : (y.depth : Int) = nesting before) {t : Token} {e : Failure}
    (h : Refusal before t e) : y.accept t = .error e := by
  cases h with
  | unreadable hk hn =>
    have hvalue : t.value = .error (.notNumber t.text) := by rw [Token.value, hn]
    simp only [accept, hk, hvalue]
  | infinite hk hx hinfinite => simp [accept, hk, hx, hinfinite]
  | unranked hk hno =>
    have hnone : Operator.ofSymbol? t.text = none :=
      Option.eq_none_iff_forall_ne_some.2 fun o ho => hno o (Operator.ofSymbol?_eq_some_iff.1 ho)
    simp only [accept, hk, hnone]
  | stray hk => simp only [accept, hk]
  | unmatched hk hcount =>
    rw [accept_closing hk]
    rcases y.pop_release_cases with ⟨-, herror⟩ | ⟨z, -, hdepth⟩
    · exact herror
    · rw [nesting] at hy
      omega

theorem refusal_or_accept (hy : (y.depth : Int) = nesting before) (t : Token) :
    (∃ e, Refusal before t e) ∨ ∃ z, y.accept t = .ok z := by
  cases hk : t.kind with
  | number =>
    cases hn : Decimal.Numeral.ofString? t.text with
    | none => exact .inl ⟨_, .unreadable hk hn⟩
    | some n =>
      have hvalue : t.value = .ok n.toFloat := by rw [Token.value, hn]
      cases hfinite : (Decimal.Binary64.ofFloat n.toFloat).isFinite with
      | false => exact .inl ⟨_, .infinite hk hvalue hfinite⟩
      | true => exact .inr ⟨_, accept_number hk (fun _ => ⟨_, hvalue, hfinite⟩) y⟩
  | opening => exact .inr ⟨_, accept_opening hk y⟩
  | closing =>
    rcases y.pop_release_cases with ⟨hzero, -⟩ | ⟨z, hz, -⟩
    · refine .inl ⟨_, .unmatched hk ?_⟩
      rw [nesting] at hy
      omega
    · exact .inr ⟨z, (accept_closing hk y).trans hz⟩
  | operator =>
    by_cases ho : ∃ o : Operator, t.text = o.symbol
    · obtain ⟨o, ho⟩ := ho
      exact .inr ⟨_, accept_operator ⟨t, o, hk, ho⟩ y⟩
    · exact .inl ⟨_, .unranked hk (not_exists.1 ho)⟩
  | stray => exact .inl ⟨_, .stray hk⟩

theorem depth_eq_nesting {ts : List Token} (h : ts.foldlM accept {} = .ok y) :
    (y.depth : Int) = nesting ts := by
  rw [depth_foldlM h, show depth {} = 0 from rfl, Int.natCast_zero, Int.zero_add]

theorem exists_foldlM_of_nowhere {ts : List Token} (h : Nowhere Refusal ts) :
    ∃ y, ts.foldlM accept {} = .ok y := by
  induction ts using List.reverseRecOn with
  | nil => exact ⟨{}, rfl⟩
  | append_singleton ts t ih =>
    obtain ⟨hts, ht⟩ := nowhere_append_singleton_iff.1 h
    obtain ⟨y, hy⟩ := ih hts
    rcases refusal_or_accept (depth_eq_nesting hy) t with ⟨e, he⟩ | ⟨z, hz⟩
    · exact absurd he (ht e)
    · exact ⟨z, (foldlM_append hy [t]).trans (foldlM_cons hz [])⟩

end Yard

theorem ofTokens_of_refusal {before after : List Token} {t : Token} {e : Failure}
    (hbefore : Nowhere Refusal before) (ht : Refusal before t e) :
    ofTokens (before ++ t :: after) = .error e := by
  obtain ⟨y, hy⟩ := Yard.exists_foldlM_of_nowhere hbefore
  have haccept := Yard.accept_of_refusal (Yard.depth_eq_nesting hy) ht
  rw [ofTokens, Yard.foldlM_append hy, List.foldlM_cons, haccept]
  rfl

theorem ofTokens_of_nowhere {ts : List Token} (h : Nowhere Refusal ts) :
    (0 < nesting ts ∧ ofTokens ts = .error (.error (.unmatched .opening))) ∨
      nesting ts = 0 ∧ ∃ us, ofTokens ts = .ok us := by
  obtain ⟨y, hy⟩ := Yard.exists_foldlM_of_nowhere h
  rw [ofTokens, hy, ← Yard.depth_eq_nesting hy]
  rcases y.finish_cases with ⟨hdepth, hfinish⟩ | ⟨hdepth, us, hfinish⟩
  · exact .inl ⟨by omega, hfinish⟩
  · exact .inr ⟨by omega, us, hfinish⟩

/-- Conversion fails at the first token that is refused, if there is one, and for what it is refused. Without
such a token it succeeds if there are as many closing as opening parentheses, and it can only fail if there
are fewer, for that reason. Whatever waits, the rank of an operator that waits is known. -/
theorem ofTokens_outcome (ts : List Token) :
    (Nowhere Refusal ts ∨
      ∃ before t after e, ts = before ++ t :: after ∧ Nowhere Refusal before ∧ Refusal before t e) ∧
    (∀ before t after e, ts = before ++ t :: after → Nowhere Refusal before → Refusal before t e →
      ofTokens ts = .error e) ∧
    (Nowhere Refusal ts →
      (ofTokens ts = .error (.error (.unmatched .opening)) ↔
        ts.countP (·.kind = .closing) < ts.countP (·.kind = .opening)) ∧
      ((∃ us, ofTokens ts = .ok us) ↔ ts.countP (·.kind = .opening) = ts.countP (·.kind = .closing)) ∧
      ∀ e, ofTokens ts = .error e → e = .error (.unmatched .opening)) ∧
    ∀ before after y, ts = before ++ after → before.foldlM Yard.accept {} = .ok y →
      ∀ t ∈ y.waiting, t.kind = .opening ∨ t.kind = .operator ∧ (Operator.ofSymbol? t.text).isSome := by
  refine ⟨nowhere_or_first Refusal ts, ?_, fun h => ?_, fun before after y _ hread => ?_⟩
  · rintro before t after e rfl hbefore ht
    exact ofTokens_of_refusal hbefore ht
  · rcases ofTokens_of_nowhere h with ⟨hopen, hfail⟩ | ⟨hclosed, us, hus⟩
    · rw [nesting] at hopen
      rw [hfail]
      refine ⟨iff_of_true rfl (by omega), iff_of_false (by simp) (by omega), ?_⟩
      rintro _ ⟨⟩
      rfl
    · rw [nesting] at hclosed
      rw [hus]
      refine ⟨iff_of_false (by simp) (by omega), iff_of_true ⟨us, rfl⟩ (by omega), ?_⟩
      rintro _ ⟨⟩
  · have hempty : Yard.Ranked {} := by simp [Yard.Ranked]
    exact hempty.foldlM hread

example : ofTokens [⟨.number, "1", 0⟩, ⟨.closing, ")", 1⟩, ⟨.stray, "x", 2⟩, ⟨.opening, "(", 3⟩] =
    .error (.error (.unmatched .closing)) := by decide +kernel

end InfixCalc.Rpn
