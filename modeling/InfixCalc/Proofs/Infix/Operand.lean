import InfixCalc.Proofs.Infix.Reading

namespace InfixCalc

open Rpn

namespace Rpn.Yard

def behind (us : List Token) (y : Yard) : Yard := { y with output := y.output ++ us.reverse }

theorem release_behind (us : List Token) (y : Yard) (p : Token → Bool) :
    (y.behind us).release p = (y.release p).behind us := by
  simp [release, behind]

theorem accept_behind (us : List Token) (y : Yard) (t : Token) :
    (y.behind us).accept t = (y.accept t).map (behind us) := by
  unfold accept
  cases t.kind with
  | number =>
    cases t.value with
    | error f => rfl
    | ok x =>
      simp only
      split <;> rfl
  | opening => rfl
  | closing =>
    simp only [release_behind]
    obtain ⟨output, _ | ⟨l, waiting⟩⟩ := y.release (·.kind ≠ .opening) <;> rfl
  | operator =>
    cases Operator.ofSymbol? t.text with
    | none => rfl
    | some o =>
      simp only [release_behind]
      rfl
  | stray => rfl

theorem foldlM_behind (us : List Token) (y : Yard) (ts : List Token) :
    ts.foldlM accept (y.behind us) = (ts.foldlM accept y).map (behind us) := by
  induction ts generalizing y with
  | nil => rfl
  | cons t ts ih =>
    rw [List.foldlM_cons, List.foldlM_cons, accept_behind]
    cases y.accept t with
    | error e => rfl
    | ok y => exact ih y

theorem finish_behind (us : List Token) (y : Yard) :
    (y.behind us).finish = y.finish.map (us ++ ·) := by
  unfold finish behind
  split <;> simp [Except.map]

end Rpn.Yard

namespace Infix

/-- The tokens that stand for one operand, and what they become. -/
inductive Operand : List Token → List Token → Prop
  | number {n : Token} : n.kind = .number → n.Finite → Operand [n] [n]
  | group {l r : Token} {ts us : List Token} : l.kind = .opening → r.kind = .closing →
    ofTokens ts = .ok us → Operand (l :: (ts ++ [r])) us

namespace Operand

variable {ts us : List Token}

theorem foldlM (h : Operand ts us) (y : Yard) : ts.foldlM Yard.accept y = .ok (y.pass us) := by
  cases h with
  | number hk hn => exact Yard.foldlM_cons (Yard.accept_number hk hn y) []
  | @group l r ts us hl hr hus =>
    obtain ⟨hf, a, rfl, rfl⟩ := ofTokens_eq_ok_iff.1 hus
    obtain ⟨z, hz, hd⟩ := a.foldlM_yield hf (y.push l) (by simp [Yard.precedes, hl])
    rw [Yard.foldlM_cons (Yard.accept_opening hl y), Yard.foldlM_append hz,
      Yard.foldlM_cons (hd.accept_closing hl hr)]
    rfl

theorem ofTokens_eq_ok (h : Operand ts us) : ofTokens ts = .ok us := by
  rw [ofTokens, h.foldlM]
  simp [bind, Except.bind, Yard.finish]

theorem parenthesized (h : Operand ts us) {l r : Token} (hl : l.kind = .opening) (hr : r.kind = .closing) :
    Operand (l :: (ts ++ [r])) us :=
  .group hl hr h.ofTokens_eq_ok

theorem ofTokens_append (h : Operand ts us) {before : List Token} {y : Yard}
    (hy : before.foldlM Yard.accept {} = .ok y) (after : List Token) :
    ofTokens (before ++ ts ++ after) =
      (after.foldlM Yard.accept { waiting := y.waiting } >>= Yard.finish).map
        fun vs => y.output.reverse ++ us ++ vs := by
  have hpass : y.pass us = Yard.behind (y.output.reverse ++ us) { waiting := y.waiting } := by
    simp [Yard.pass, Yard.behind]
  rw [ofTokens, List.append_assoc, Yard.foldlM_append hy, Yard.foldlM_append (h.foldlM y), hpass,
    Yard.foldlM_behind]
  cases after.foldlM Yard.accept { waiting := y.waiting } with
  | error e => rfl
  | ok z => exact Yard.finish_behind _ z

end Operand

theorem Expr.finite_of_tree_eq {e e' : Expr .sum} (h : e.tree = e'.tree) (hf : ∀ t ∈ e.yield, t.Finite) :
    ∀ t ∈ e'.yield, t.Finite := by
  intro t ht hk
  have hpost : t ∈ e'.arrangement.postorder := e'.arrangement.mem_postorder_iff.2 (by simp [ht, hk])
  rw [e'.postorder_arrangement, ← h, ← e.postorder_arrangement] at hpost
  exact hf t (e.yield_arrangement ▸ (e.arrangement.mem_yield_of_mem_postorder hpost).1) hk

/-- Around an operand conversion either fails, always with the same error, or puts what the operand becomes
in one piece between the same tokens; so a group may stand for a number and the other way round. In
particular parentheses change nothing around a single operand or a whole list, nor wherever an expression has
the same tree without them. -/
theorem ofTokens_operand (before after : List Token) :
    ((∃ e, ∀ ts us, Operand ts us → ofTokens (before ++ ts ++ after) = .error e) ∨
      ∃ left right, ∀ ts us, Operand ts us → ofTokens (before ++ ts ++ after) = .ok (left ++ us ++ right)) ∧
    (∀ ts us l r, Operand ts us → l.kind = .opening → r.kind = .closing →
      ofTokens (before ++ l :: (ts ++ [r]) ++ after) = ofTokens (before ++ ts ++ after)) ∧
    (∀ ts us l r, ofTokens ts = .ok us → l.kind = .opening → r.kind = .closing →
      ofTokens (l :: (ts ++ [r])) = .ok us) ∧
    ∀ e e' : Expr .sum, e.tree = e'.tree → (∀ t ∈ e.yield, t.Finite) →
      ofTokens e.yield = ofTokens e'.yield := by
  have hcontext : (∃ e, ∀ ts us, Operand ts us → ofTokens (before ++ ts ++ after) = .error e) ∨
      ∃ left right, ∀ ts us, Operand ts us →
        ofTokens (before ++ ts ++ after) = .ok (left ++ us ++ right) := by
    cases hbefore : before.foldlM Yard.accept {} with
    | error e =>
      refine .inl ⟨e, fun ts us _ => ?_⟩
      rw [List.append_assoc]
      exact ofTokens_append_of_error hbefore _
    | ok y =>
      cases hafter : after.foldlM Yard.accept { waiting := y.waiting } >>= Yard.finish with
      | error e => exact .inl ⟨e, fun ts us h => by rw [h.ofTokens_append hbefore, hafter]; rfl⟩
      | ok vs => exact .inr ⟨_, vs, fun ts us h => by rw [h.ofTokens_append hbefore, hafter]; rfl⟩
  refine ⟨hcontext, fun ts us l r h hl hr => ?_, fun ts us l r h hl hr => ?_, fun e e' htree hf => ?_⟩
  · have hgroup := h.parenthesized hl hr
    rcases hcontext with ⟨e, he⟩ | ⟨left, right, hok⟩
    · rw [he ts us h, he _ us hgroup]
    · rw [hok ts us h, hok _ us hgroup]
  · exact (Operand.group hl hr h).ofTokens_eq_ok
  · rw [e.ofTokens_yield hf, e'.ofTokens_yield (Expr.finite_of_tree_eq htree hf), htree]

end Infix
end InfixCalc
