import InfixCalc.Proofs.Calculator.Outcome
import InfixCalc.Proofs.Token.Mask

namespace InfixCalc

namespace Rpn

theorem ofTokens_append_stray {ts : List Token} {y : Yard} (h : ts.foldlM Yard.accept {} = .ok y)
    {u : Token} (hu : u.kind = .stray) (us : List Token) :
    ofTokens (ts ++ u :: us) = .error (.error (.unknownToken u)) := by
  have haccept : y.accept u = .error (.error (.unknownToken u)) := by rw [Yard.accept, hu]
  rw [ofTokens, Yard.foldlM_append h, List.foldlM_cons, haccept]
  rfl

theorem ofTokens_cons_stray {u : Token} (hu : u.kind = .stray) (us : List Token) :
    ofTokens (u :: us) = .error (.error (.unknownToken u)) :=
  ofTokens_append_stray (List.foldlM_nil ..) hu us

end Rpn

namespace Token

variable {s : String} {ts us : List Token}

theorem ofString_false_append (hsplit : ofString true s = ts ++ us) (hts : ∀ t ∈ ts, t.kind ≠ .stray) :
    ofString false s = ts ++ us.filter (·.kind ≠ .stray) := by
  change (ofString true s).filter (·.kind ≠ .stray) = _
  rw [hsplit, List.filter_append, List.filter_eq_self.2 (by simpa using hts)]

theorem ofString_false_eq (hts : ∀ t ∈ ofString true s, t.kind ≠ .stray) :
    ofString false s = ofString true s := by
  simpa using ofString_false_append (List.append_nil _).symm hts

theorem kind_of_isStray (h : ∀ c ∈ s.toList, isStray c) {strict : Bool} {t : Token}
    (ht : t ∈ ofString strict s) : t.kind = .stray := by
  obtain ⟨before, after, hslice, -⟩ := (fits_of_mem_ofString ht).slice
  obtain ⟨c, w, htext, hstart, -⟩ := (fits_of_mem_ofString ht).shape.exists_cons
  have hc : isStray c := h c (by simp [hslice, htext])
  rw [← (Kind.starts_iff.1 hstart).2, (Kind.starts_iff.1 (isStray_iff.1 hc)).2]

end Token

namespace Calculator

theorem outcome_of_error {ts : List Token} {e : Error} (h : Rpn.ofTokens ts = .error (.error e)) :
    outcome ts = .ok (.failure e) := by
  rw [outcome, h]
  rfl

theorem evaluate_of_isStray {s : String} (h : ∀ c ∈ s.toList, isStray c) (settings : Settings)
    (strict : Option Bool) : ∃ e, evaluate settings strict s = .ok (.failure e) := by
  rw [evaluate_eq]
  split
  · exact ⟨_, rfl⟩
  · split
    · exact ⟨_, rfl⟩
    · next hne =>
      obtain ⟨t, ts, hts⟩ := List.exists_cons_of_ne_nil hne
      have ht : t.kind = .stray := Token.kind_of_isStray h (by rw [hts]; exact List.mem_cons_self)
      rw [hts]
      exact ⟨_, outcome_of_error (Rpn.ofTokens_cons_stray ht ts)⟩

theorem evaluate_false_eq {s : String} (settings : Settings)
    (hts : ∀ t ∈ Token.ofString true s, t.kind ≠ .stray) :
    evaluate settings (some true) s = evaluate settings (some false) s := by
  rw [evaluate_eq, evaluate_eq, Option.getD_some, Option.getD_some, Token.ofString_false_eq hts]

theorem evaluate_first_stray {settings : Settings} {s : String} (hlen : s.length ≤ settings.maxLength)
    {ts us : List Token} {u : Token} (hsplit : Token.ofString true s = ts ++ u :: us)
    (hts : ∀ t ∈ ts, t.kind ≠ .stray) (hu : u.kind = .stray) :
    ((∃ f, ts.foldlM Rpn.Yard.accept {} = .error f) ∧ ∃ e,
      evaluate settings (some true) s = .ok (.failure e) ∧
      evaluate settings (some false) s = .ok (.failure e)) ∨
    (∃ y, ts.foldlM Rpn.Yard.accept {} = .ok y) ∧
      evaluate settings (some true) s = .ok (.failure (.unknownToken u)) := by
  have hne : Token.ofString ((some true).getD settings.strict) s ≠ [] := by
    rw [Option.getD_some, hsplit]
    simp
  rw [evaluate_of_outcome hlen hne, Option.getD_some, hsplit]
  cases hfold : ts.foldlM Rpn.Yard.accept {} with
  | ok y => exact .inr ⟨⟨y, rfl⟩, outcome_of_error (Rpn.ofTokens_append_stray hfold hu us)⟩
  | error f =>
    have hreadable : ∀ t ∈ ts ++ u :: us, t.Readable := hsplit ▸ fun t ht =>
      (Token.written_of_mem_ofString ht).readable
    have hfails := Rpn.ofTokens_append_of_error hfold
    obtain ⟨e, rfl⟩ := (Rpn.ofTokens_failsOnly hreadable f (hfails _)).exists_error
    have hlenient := Token.ofString_false_append hsplit hts
    have hne' : Token.ofString ((some false).getD settings.strict) s ≠ [] := by
      rw [Option.getD_some, hlenient]
      intro hnil
      rw [(List.append_eq_nil_iff.1 hnil).1] at hfold
      cases hfold
    refine .inl ⟨⟨_, rfl⟩, e, outcome_of_error (hfails _), ?_⟩
    rw [evaluate_of_outcome hlen hne', Option.getD_some, hlenient]
    exact outcome_of_error (hfails _)

/-- Without stray tokens both modes answer alike. Otherwise the strict one fails, either as the lenient
one, since the text is too long or something before the first stray token cannot be converted, or with
that token. So what succeeds in the strict mode has the same outcome in the lenient one. -/
theorem evaluate_strict_or_lenient (settings : Settings) (s : String) :
    ((∀ t ∈ Token.ofString true s, t.kind ≠ .stray) ∧
      evaluate settings (some true) s = evaluate settings (some false) s ∨
    ∃ ts u us o, Token.ofString true s = ts ++ u :: us ∧ (∀ t ∈ ts, t.kind ≠ .stray) ∧ u.kind = .stray ∧
      evaluate settings (some true) s = .ok o ∧ o.ok = false ∧
      ((settings.maxLength < s.length ∨ ∃ f, ts.foldlM Rpn.Yard.accept {} = .error f) ∧
        evaluate settings (some false) s = .ok o ∨
      (s.length ≤ settings.maxLength ∧ ∃ y, ts.foldlM Rpn.Yard.accept {} = .ok y) ∧
        o.errorCode = some "UNKNOWN_TOKEN" ∧ o.error = some ("invalid token: " ++ u.text))) ∧
    ∀ o, evaluate settings (some true) s = .ok o → o.ok → evaluate settings (some false) s = .ok o := by
  cases hfind : (Token.ofString true s).find? (·.kind = .stray) with
  | none =>
    have hts : ∀ t ∈ Token.ofString true s, t.kind ≠ .stray := by simpa using hfind
    have heq := evaluate_false_eq settings hts
    exact ⟨.inl ⟨hts, heq⟩, fun o ho _ => heq ▸ ho⟩
  | some u =>
    obtain ⟨hu, ts, us, hsplit, hts⟩ := List.find?_eq_some_iff_append.1 hfind
    have hu : u.kind = .stray := by simpa using hu
    have hts : ∀ t ∈ ts, t.kind ≠ .stray := by simpa using hts
    have key : ∃ e, evaluate settings (some true) s = .ok (.failure e) ∧
        ((settings.maxLength < s.length ∨ ∃ f, ts.foldlM Rpn.Yard.accept {} = .error f) ∧
          evaluate settings (some false) s = .ok (.failure e) ∨
        (s.length ≤ settings.maxLength ∧ ∃ y, ts.foldlM Rpn.Yard.accept {} = .ok y) ∧
          e = .unknownToken u) := by
      by_cases hlen : s.length ≤ settings.maxLength
      · rcases evaluate_first_stray hlen hsplit hts hu with ⟨hf, e, hstrict, hlenient⟩ | ⟨hy, hstrict⟩
        · exact ⟨e, hstrict, .inl ⟨.inr hf, hlenient⟩⟩
        · exact ⟨_, hstrict, .inr ⟨⟨hlen, hy⟩, rfl⟩⟩
      · have hlong : settings.maxLength < s.length := by omega
        refine ⟨.tooLong settings.maxLength, ?_, .inl ⟨.inl hlong, ?_⟩⟩ <;>
          rw [evaluate_eq, if_pos hlong]
    obtain ⟨e, hstrict, hcases⟩ := key
    refine ⟨.inr ⟨ts, u, us, .failure e, hsplit, hts, hu, hstrict, rfl, hcases.imp_right ?_⟩, ?_⟩
    · rintro ⟨hread, rfl⟩
      exact ⟨hread, rfl, rfl⟩
    · intro o ho hok
      cases hstrict.symm.trans ho
      cases hok

theorem evaluate_strict_or_lenient_quotient :
    evaluate {} (some true) "(1.5+2)/4" = .ok (.success 0.875 "1.5 2 + 4 /") ∧
      evaluate {} (some false) "(1.5+2)/4" = .ok (.success 0.875 "1.5 2 + 4 /") := by
  have hstrict : evaluate {} (some true) "(1.5+2)/4" = .ok (.success 0.875 "1.5 2 + 4 /") := by
    decide +kernel
  exact ⟨hstrict, (evaluate_strict_or_lenient {} "(1.5+2)/4").2 _ hstrict rfl⟩

/-- The lenient mode answers as the strict one does for the text with blanks in place of the stray characters,
which part the tokens around them. Only a refusal of the whole text quotes a different one. -/
theorem evaluate_mask (s : String) :
    Token.ofString true (Token.mask s) = Token.ofString false s ∧
    (∀ t ∈ Token.ofString false s, ∀ i, t.Covers i → ¬Token.Dropped (Token.ofString true s) i) ∧
    ∀ settings,
      evaluate settings (some true) (Token.mask s) = evaluate settings (some false) s ∨
      evaluate settings (some true) (Token.mask s) = .ok (.failure (.noTokens (Token.mask s))) ∧
        evaluate settings (some false) s = .ok (.failure (.noTokens s)) := by
  have htokens := Token.ofString_mask s
  refine ⟨htokens, fun t ht i => Token.not_dropped_of_covers ht, fun settings => ?_⟩
  rw [evaluate_eq, evaluate_eq, Option.getD_some, Option.getD_some, htokens, Token.length_mask]
  by_cases hlong : settings.maxLength < s.length
  · exact .inl (by rw [if_pos hlong, if_pos hlong])
  · rw [if_neg hlong, if_neg hlong]
    by_cases hnil : Token.ofString false s = []
    · exact .inr ⟨if_pos hnil, if_pos hnil⟩
    · exact .inl (by rw [if_neg hnil, if_neg hnil])

example : Token.mask "1.5.2x.3" = "1.5 2  3" := by decide +kernel

end Calculator
end InfixCalc
