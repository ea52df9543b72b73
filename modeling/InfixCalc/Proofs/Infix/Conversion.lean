import InfixCalc.Proofs.Infix.Grammar

namespace InfixCalc

open Infix

def Token.Finite (t : Token) : Prop :=
  t.kind = .number → ∃ x, t.value = .ok x ∧ (Decimal.Binary64.ofFloat x).isFinite

theorem Token.Finite.readable {t : Token} (h : t.Finite) : t.Readable := fun hk =>
  (h hk).imp fun _ hx => hx.1

theorem OperatorToken.Additive.rank_eq {o : OperatorToken} (h : o.Additive) : o.operator.rank = 1 := by
  rcases h with h | h <;> rw [h] <;> rfl

theorem OperatorToken.Multiplicative.rank_eq {o : OperatorToken} (h : o.Multiplicative) :
    o.operator.rank = 2 := by
  rcases h with h | h <;> rw [h] <;> rfl

def Infix.Level.rank : Level → Nat
  | sum => 1
  | product => 2
  | factor => 3

namespace Rpn.Yard

def pass (y : Yard) (ts : List Token) : Yard := { y with output := ts.reverse ++ y.output }

@[simp] theorem pass_waiting (y : Yard) (ts : List Token) : (y.pass ts).waiting = y.waiting := rfl

@[simp] theorem pass_output (y : Yard) (ts : List Token) :
    (y.pass ts).output = ts.reverse ++ y.output := rfl

@[simp] theorem pass_pass (y : Yard) (ts us : List Token) : (y.pass ts).pass us = y.pass (ts ++ us) := by
  simp [pass]

def push (y : Yard) (t : Token) : Yard := { y with waiting := t :: y.waiting }

@[simp] theorem push_waiting (y : Yard) (t : Token) : (y.push t).waiting = t :: y.waiting := rfl

@[simp] theorem push_output (y : Yard) (t : Token) : (y.push t).output = y.output := rfl

def pop (y : Yard) : Except Failure Yard :=
  match y.waiting with
  | [] => .error (.error (.unmatched .closing))
  | _ :: waiting => .ok { y with waiting }

theorem precedes_operator (o : OperatorToken) (rank : Nat) :
    precedes rank o.token = decide (rank ≤ o.operator.rank) := by
  simp [precedes, o.kind_eq, o.text_eq]

theorem kind_of_precedes {rank : Nat} {t : Token} (h : precedes rank t) : t.kind = .operator := by
  simp [precedes] at h
  exact h.1

theorem precedes_mono {rank rank' : Nat} (hle : rank ≤ rank') {t : Token} (h : precedes rank' t) :
    precedes rank t := by
  simp only [precedes, Bool.and_eq_true, decide_eq_true_eq, Option.any_eq_true] at h ⊢
  obtain ⟨hk, o, ho, hr⟩ := h
  exact ⟨hk, o, ho, by omega⟩

theorem release_eq_self {p : Token → Bool} {y : Yard} (h : ∀ t ∈ y.waiting.head?, p t = false) :
    y.release p = y := by
  obtain ⟨output, waiting⟩ := y
  cases waiting with
  | nil => rfl
  | cons t ts =>
    have ht : p t = false := h t rfl
    simp [release, ht]

theorem foldlM_append {y z : Yard} {ts : List Token} (h : ts.foldlM accept y = .ok z) (us : List Token) :
    (ts ++ us).foldlM accept y = us.foldlM accept z := by
  rw [List.foldlM_append, h]
  rfl

theorem foldlM_cons {y z : Yard} {t : Token} (h : y.accept t = .ok z) (ts : List Token) :
    (t :: ts).foldlM accept y = ts.foldlM accept z := by
  rw [List.foldlM_cons, h]
  rfl

theorem foldlM_cons_eq_ok_iff {y z : Yard} {t : Token} {ts : List Token} :
    (t :: ts).foldlM accept y = .ok z ↔ ∃ y', y.accept t = .ok y' ∧ ts.foldlM accept y' = .ok z := by
  rw [List.foldlM_cons]
  cases y.accept t with
  | error e => exact ⟨nofun, nofun⟩
  | ok y' => exact ⟨fun h => ⟨y', rfl, h⟩, by rintro ⟨_, ⟨⟩, h⟩; exact h⟩

theorem accept_number {t : Token} (hk : t.kind = .number) (ht : t.Finite) (y : Yard) :
    y.accept t = .ok (y.pass [t]) := by
  obtain ⟨x, hx, hfinite⟩ := ht hk
  simp [accept, hk, hx, hfinite, pass]

theorem accept_opening {t : Token} (hk : t.kind = .opening) (y : Yard) :
    y.accept t = .ok (y.push t) := by
  simp [accept, hk, push]

theorem accept_operator (o : OperatorToken) (y : Yard) :
    y.accept o.token = .ok ((y.release (precedes o.operator.rank)).push o.token) := by
  simp [accept, o.kind_eq, o.text_eq, push]

theorem accept_closing {t : Token} (hk : t.kind = .closing) (y : Yard) :
    y.accept t = (y.release (·.kind ≠ .opening)).pop := by
  simp only [accept, hk]
  rfl

theorem finite_of_accept {y z : Yard} {t : Token} (h : y.accept t = .ok z) : t.Finite := fun hk => by
  cases hv : t.value with
  | error f => simp [accept, hk, hv] at h
  | ok x =>
    refine ⟨x, rfl, ?_⟩
    by_contra hfinite
    simp [accept, hk, hv, hfinite] at h

theorem accept_cases {y z : Yard} {t : Token} (h : y.accept t = .ok z) :
    (t.kind = .number ∧ z = y.pass [t]) ∨ (t.kind = .opening ∧ z = y.push t) ∨
      (t.kind = .closing ∧ (y.release (·.kind ≠ .opening)).pop = .ok z) ∨
      ∃ o : OperatorToken, o.token = t ∧ z = (y.release (precedes o.operator.rank)).push t := by
  cases hk : t.kind with
  | number =>
    rw [accept_number hk (finite_of_accept h)] at h
    exact .inl ⟨rfl, (Except.ok.inj h).symm⟩
  | opening =>
    rw [accept_opening hk] at h
    exact .inr (.inl ⟨rfl, (Except.ok.inj h).symm⟩)
  | closing => exact .inr (.inr (.inl ⟨rfl, accept_closing hk y ▸ h⟩))
  | operator =>
    cases ho : Operator.ofSymbol? t.text with
    | none => simp [accept, hk, ho] at h
    | some o =>
      let op : OperatorToken := ⟨t, o, hk, Operator.ofSymbol?_eq_some_iff.1 ho⟩
      have haccept : y.accept op.token = .ok z := h
      rw [accept_operator] at haccept
      exact .inr (.inr (.inr ⟨op, rfl, (Except.ok.inj haccept).symm⟩))
  | stray => simp [accept, hk] at h

/-- The yard `z` is `y` but for operators of at least some rank that have not left it yet. -/
def Defers (rank : Nat) (y z : Yard) : Prop :=
  ∃ held, (∀ t ∈ held, precedes rank t) ∧ z.waiting = held ++ y.waiting ∧ held.reverse ++ z.output = y.output

theorem Defers.refl (rank : Nat) (y : Yard) : Defers rank y y := ⟨[], by simp, rfl, rfl⟩

theorem Defers.mono {rank rank' : Nat} (hle : rank ≤ rank') {y z : Yard} (h : Defers rank' y z) :
    Defers rank y z := by
  obtain ⟨held, hheld, h⟩ := h
  exact ⟨held, fun t ht => precedes_mono hle (hheld t ht), h⟩

theorem Defers.release_eq {rank : Nat} {y z : Yard} (h : Defers rank y z) {p : Token → Bool}
    (hp : ∀ t, precedes rank t → p t) : z.release p = y.release p := by
  obtain ⟨held, hheld, hw, ho⟩ := h
  have hall : ∀ t ∈ held, p t := fun t ht => hp t (hheld t ht)
  simp [release, hw, ← ho, List.takeWhile_append_of_pos hall, List.dropWhile_append_of_pos hall]

theorem not_precedes_three (t : Token) : precedes 3 t = false := by
  rw [← Bool.not_eq_true]
  intro h
  simp only [precedes, Bool.and_eq_true, Option.any_eq_true, decide_eq_true_eq] at h
  obtain ⟨-, o, -, hr⟩ := h
  cases o <;> simp [Operator.rank] at hr

theorem Defers.eq {y z : Yard} (h : Defers 3 y z) : z = y := by
  rw [← release_eq_self (y := z) fun t _ => not_precedes_three t, h.release_eq fun _ ht => ht,
    release_eq_self fun t _ => not_precedes_three t]

theorem Defers.accept_operator {rank : Nat} {y z : Yard} (h : Defers rank y z)
    (hy : ∀ t ∈ y.waiting.head?, precedes rank t = false) {o : OperatorToken}
    (ho : o.operator.rank = rank) : z.accept o.token = .ok (y.push o.token) := by
  rw [Yard.accept_operator, ho, h.release_eq fun _ ht => ht, release_eq_self hy]

theorem Defers.accept_closing {y z : Yard} {l r : Token} (hl : l.kind = .opening) (hr : r.kind = .closing)
    {ts : List Token} (h : Defers 1 ((y.push l).pass ts) z) : z.accept r = .ok (y.pass ts) := by
  have hout : ∀ t, precedes 1 t → t.kind ≠ .opening := fun t ht => by simp [kind_of_precedes ht]
  rw [Yard.accept_closing hr, h.release_eq (by simpa using hout), release_eq_self (by simp [hl])]
  rfl

theorem Defers.accept_unmatched {y z : Yard} (h : Defers 1 y z) (hy : y.waiting = []) {r : Token}
    (hr : r.kind = .closing) : z.accept r = .error (.error (.unmatched .closing)) := by
  have hout : ∀ t, precedes 1 t → t.kind ≠ .opening := fun t ht => by simp [kind_of_precedes ht]
  rw [Yard.accept_closing hr, h.release_eq (by simpa using hout), release_eq_self (by simp [hy]), pop, hy]

theorem Defers.finish {rank : Nat} {y z : Yard} (h : Defers rank y z) (hy : y.waiting = []) :
    z.finish = .ok y.output.reverse := by
  obtain ⟨held, hheld, hw, hout⟩ := h
  have hnone : z.waiting.any (·.kind = .opening) = false := by
    rw [List.any_eq_false]
    intro t ht
    simp [kind_of_precedes (hheld t (by simpa [hw, hy] using ht))]
  rw [Yard.finish, hnone, ← hout]
  simp [hw, hy]

theorem Defers.push {rank : Nat} {y z : Yard} {o : OperatorToken} (ho : rank ≤ o.operator.rank)
    {ts : List Token} (h : Defers rank ((y.push o.token).pass ts) z) :
    Defers rank (y.pass (ts ++ [o.token])) z := by
  obtain ⟨held, hheld, hw, hout⟩ := h
  refine ⟨held ++ [o.token], fun t ht => ?_, by simp [hw], by simp [hout]⟩
  rcases List.mem_append.1 ht with ht | ht
  · exact hheld t ht
  · rw [List.mem_singleton.1 ht, precedes_operator]
    simpa using ho

theorem foldlM_operator {o : OperatorToken} {rank : Nat} (hrank : o.operator.rank ≤ rank) {y : Yard}
    (hy : ∀ t ∈ y.waiting.head?, precedes o.operator.rank t = false) {ts us ts' us' : List Token}
    (hts : ∃ z, ts.foldlM accept y = .ok z ∧ Defers o.operator.rank (y.pass ts') z)
    (hus : ∃ z, us.foldlM accept ((y.pass ts').push o.token) = .ok z ∧
      Defers rank (((y.pass ts').push o.token).pass us') z) :
    ∃ z, (ts ++ o.token :: us).foldlM accept y = .ok z ∧
      Defers o.operator.rank (y.pass (ts' ++ us' ++ [o.token])) z := by
  obtain ⟨z, hz, hd⟩ := hts
  obtain ⟨w, hw, hd'⟩ := hus
  refine ⟨w, ?_, ?_⟩
  · rw [foldlM_append hz, foldlM_cons (hd.accept_operator hy rfl), hw]
  · have hlast := (hd'.mono hrank).push le_rfl
    rwa [pass_pass, ← List.append_assoc] at hlast

end Rpn.Yard

theorem Rpn.ofTokens_append_of_error {ts : List Token} {f : Failure} (h : ts.foldlM Rpn.Yard.accept {} = .error f)
    (us : List Token) : Rpn.ofTokens (ts ++ us) = .error f := by
  rw [Rpn.ofTokens, List.foldlM_append, h]
  rfl

namespace Infix.Arrangement

open Rpn

theorem foldlM_yield (a : Arrangement l) (hf : ∀ t ∈ a.yield, t.Finite) (y : Yard)
    (hy : ∀ t ∈ y.waiting.head?, Yard.precedes l.rank t = false) :
    ∃ z, a.yield.foldlM Yard.accept y = .ok z ∧ Yard.Defers l.rank (y.pass a.postorder) z := by
  induction a generalizing y with
  | empty => exact ⟨y, rfl, .refl _ _⟩
  | number before t ih =>
    simp only [yield, List.mem_append, List.mem_singleton] at hf
    obtain ⟨z, hz, hd⟩ := ih (fun u hu => hf u (.inl hu)) y fun u _ => Yard.not_precedes_three u
    refine ⟨_, ?_, .refl _ _⟩
    rw [yield, Yard.foldlM_append hz, Yard.foldlM_cons (Yard.accept_number t.2 (hf t (.inr rfl)) z),
      hd.eq, Yard.pass_pass]
    rfl
  | group before l e r ihb ihe =>
    simp only [yield, List.mem_append, List.mem_cons, List.not_mem_nil, or_false] at hf
    obtain ⟨z, hz, hd⟩ := ihb (fun u hu => hf u (.inl (.inl hu))) y fun u _ => Yard.not_precedes_three u
    obtain ⟨w, hw, hd'⟩ := ihe (fun u hu => hf u (.inl (.inr (.inr hu)))) (z.push l.1) (by
      simp [Yard.precedes, l.2])
    refine ⟨_, ?_, .refl _ _⟩
    rw [yield, List.append_assoc, List.cons_append, Yard.foldlM_append hz,
      Yard.foldlM_cons (Yard.accept_opening l.2 z), Yard.foldlM_append hw,
      Yard.foldlM_cons (hd'.accept_closing l.2 r.2), hd.eq, Yard.pass_pass]
    rfl
  | factor f ih =>
    obtain ⟨z, hz, hd⟩ := ih hf y fun u _ => Yard.not_precedes_three u
    exact ⟨z, hz, hd.mono (by decide)⟩
  | mul a o ho b iha ihb =>
    simp only [yield, List.mem_append, List.mem_cons] at hf
    rw [Level.rank, ← ho.rank_eq] at hy iha ⊢
    exact Yard.foldlM_operator (ho.rank_eq.trans_le (by decide)) hy
      (iha (fun u hu => hf u (.inl hu)) y hy)
      (ihb (fun u hu => hf u (.inr (.inr hu))) _ fun u _ => Yard.not_precedes_three u)
  | product p ih =>
    have hy' : ∀ t ∈ y.waiting.head?, Yard.precedes 2 t = false := fun t ht => by
      rw [← Bool.not_eq_true]
      intro h
      exact Bool.false_ne_true ((hy t ht).symm.trans (Yard.precedes_mono (by decide) h))
    obtain ⟨z, hz, hd⟩ := ih hf y hy'
    exact ⟨z, hz, hd.mono (by decide)⟩
  | add a o ho b iha ihb =>
    simp only [yield, List.mem_append, List.mem_cons] at hf
    rw [Level.rank, ← ho.rank_eq] at hy iha ⊢
    exact Yard.foldlM_operator (ho.rank_eq.trans_le (by decide)) hy
      (iha (fun u hu => hf u (.inl hu)) y hy)
      (ihb (fun u hu => hf u (.inr (.inr hu))) _ (by
        simp [Yard.precedes_operator, ho.rank_eq, Level.rank]))

theorem ofTokens_yield (a : Arrangement .sum) (hf : ∀ t ∈ a.yield, t.Finite) :
    Rpn.ofTokens a.yield = .ok a.postorder := by
  obtain ⟨z, hz, hd⟩ := a.foldlM_yield hf {} (by simp)
  have hfinish := hd.finish rfl
  rw [Rpn.ofTokens, hz]
  simpa [bind, Except.bind] using hfinish

end Infix.Arrangement

theorem Infix.Expr.ofTokens_yield (e : Expr .sum) (hf : ∀ t ∈ e.yield, t.Finite) :
    Rpn.ofTokens e.yield = .ok e.tree.postorder := by
  have harrange := e.arrangement.ofTokens_yield (by simpa using hf)
  rwa [e.yield_arrangement, e.postorder_arrangement] at harrange

end InfixCalc
