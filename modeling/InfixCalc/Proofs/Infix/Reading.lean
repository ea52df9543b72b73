import InfixCalc.Proofs.Infix.Conversion

/-!
What the yard has read so far: an arrangement that is still open. Every list that passes the yard is
therefore arranged, and leaves it in postorder.
-/

namespace InfixCalc.Infix

open Rpn

/-- The inside of a pair of parentheses, read up to some point: a sum and a product that wait for their
right side, and the operands behind them. -/
structure Slot where
  sum? : Option (Arrangement .sum × { o : OperatorToken // o.Additive }) := none
  product? : Option (Arrangement .product × { o : OperatorToken // o.Multiplicative }) := none
  place : Arrangement .factor := .empty

namespace Slot

def product (s : Slot) : Arrangement .product :=
  match s.product? with
  | none => .factor s.place
  | some (a, o) => .mul a o.1 o.2 s.place

def sum (s : Slot) : Arrangement .sum :=
  match s.sum? with
  | none => .product s.product
  | some (a, o) => .add a o.1 o.2 s.product

def sumYard (s : Slot) (y : Yard) : Yard :=
  match s.sum? with
  | none => y
  | some (a, o) => (y.pass a.postorder).push o.1.token

def productYard (s : Slot) (y : Yard) : Yard :=
  match s.product? with
  | none => s.sumYard y
  | some (a, o) => ((s.sumYard y).pass a.postorder).push o.1.token

def yard (s : Slot) (y : Yard) : Yard := (s.productYard y).pass s.place.postorder

theorem defers_product (s : Slot) (y : Yard) :
    Yard.Defers 2 ((s.sumYard y).pass s.product.postorder) (s.yard y) := by
  obtain ⟨sum?, _ | ⟨a, o⟩, place⟩ := s
  · exact .refl ..
  · have h := Yard.Defers.push o.2.rank_eq.ge (.refl 2
      (Yard.pass (((({ sum? } : Slot).sumYard y).pass a.postorder).push o.1.token) place.postorder))
    rwa [Yard.pass_pass, ← List.append_assoc] at h

theorem defers_sum (s : Slot) (y : Yard) : Yard.Defers 1 (y.pass s.sum.postorder) (s.yard y) := by
  have hproduct := (s.defers_product y).mono (by decide : 1 ≤ 2)
  obtain ⟨_ | ⟨a, o⟩, product?, place⟩ := s
  · exact hproduct
  · have h := Yard.Defers.push o.2.rank_eq.ge hproduct
    rwa [Yard.pass_pass, ← List.append_assoc] at h

theorem sumYard_head {s : Slot} {y : Yard} (hy : ∀ t ∈ y.waiting.head?, Yard.precedes 1 t = false) :
    ∀ t ∈ (s.sumYard y).waiting.head?, Yard.precedes 2 t = false := by
  obtain ⟨_ | ⟨a, o⟩, product?, place⟩ := s
  · intro t ht
    rw [← Bool.not_eq_true]
    intro h
    exact Bool.false_ne_true ((hy t ht).symm.trans (Yard.precedes_mono (by decide) h))
  · simp [sumYard, Yard.precedes_operator, o.2.rank_eq]

theorem accept_operator (s : Slot) {y : Yard} (hy : ∀ t ∈ y.waiting.head?, Yard.precedes 1 t = false)
    (o : OperatorToken) : ∃ s' : Slot, (s.yard y).accept o.token = .ok (s'.yard y) ∧
      s'.sum.yield = s.sum.yield ++ [o.token] := by
  have ho : o.Additive ∨ o.Multiplicative := by
    unfold OperatorToken.Additive OperatorToken.Multiplicative
    cases o.operator <;> simp
  rcases ho with ho | ho
  · refine ⟨{ sum? := some (s.sum, ⟨o, ho⟩) }, (s.defers_sum y).accept_operator hy ho.rank_eq, ?_⟩
    simp [sum, product, Arrangement.yield]
  · refine ⟨{ sum? := s.sum?, product? := some (s.product, ⟨o, ho⟩) },
      (s.defers_product y).accept_operator (sumYard_head hy) ho.rank_eq, ?_⟩
    obtain ⟨_ | ⟨a, o'⟩, product?, place⟩ := s <;> simp [sum, product, Arrangement.yield]

theorem yield_extend (s : Slot) {place : Arrangement .factor} {ts : List Token}
    (h : place.yield = s.place.yield ++ ts) : { s with place }.sum.yield = s.sum.yield ++ ts := by
  obtain ⟨_ | ⟨a, o⟩, _ | ⟨b, o'⟩, place'⟩ := s <;> simp_all [sum, product, Arrangement.yield]

theorem yard_extend (s : Slot) {place : Arrangement .factor} {ts : List Token}
    (h : place.postorder = s.place.postorder ++ ts) (y : Yard) :
    { s with place }.yard y = (s.yard y).pass ts := by
  rw [yard, yard, h, ← Yard.pass_pass]
  rfl

end Slot

/-- An arrangement that is still open: the slot that is being read and those around it, the innermost
first, each with the parenthesis that interrupts it. -/
structure Reading where
  around : List (Slot × Token.Of .opening) := []
  slot : Slot := {}

namespace Reading

def around.yard : List (Slot × Token.Of .opening) → Yard
  | [] => {}
  | (s, l) :: outer => (s.yard (around.yard outer)).push l.1

def around.yield : List (Slot × Token.Of .opening) → List Token
  | [] => []
  | (s, l) :: outer => around.yield outer ++ s.sum.yield ++ [l.1]

def yard (r : Reading) : Yard := r.slot.yard (around.yard r.around)

def yield (r : Reading) : List Token := around.yield r.around ++ r.slot.sum.yield

theorem around.yard_head (outer : List (Slot × Token.Of .opening)) :
    ∀ t ∈ (around.yard outer).waiting.head?, Yard.precedes 1 t = false := by
  cases outer with
  | nil => simp [around.yard]
  | cons sl outer => simp [around.yard, Yard.precedes, sl.2.2]

theorem defers (r : Reading) :
    Yard.Defers 1 ((around.yard r.around).pass r.slot.sum.postorder) r.yard :=
  r.slot.defers_sum _

theorem accept (r : Reading) {t : Token} {z : Yard} (h : r.yard.accept t = .ok z) :
    t.Finite ∧ ∃ r' : Reading, r'.yard = z ∧ r'.yield = r.yield ++ [t] := by
  refine ⟨Yard.finite_of_accept h, ?_⟩
  rcases Yard.accept_cases h with ⟨hk, rfl⟩ | ⟨hk, rfl⟩ | ⟨hk, -⟩ | ⟨o, rfl, -⟩
  · have hplace : (Arrangement.number r.slot.place ⟨t, hk⟩).yield = r.slot.place.yield ++ [t] := rfl
    refine ⟨{ r with slot := { r.slot with place := .number r.slot.place ⟨t, hk⟩ } }, ?_, ?_⟩
    · exact r.slot.yard_extend rfl _
    · rw [yield, yield, r.slot.yield_extend hplace, List.append_assoc]
  · refine ⟨{ around := (r.slot, ⟨t, hk⟩) :: r.around }, rfl, ?_⟩
    simp [yield, around.yield, Slot.sum, Slot.product, Arrangement.yield]
  · obtain ⟨_ | ⟨⟨s, l⟩, outer⟩, slot⟩ := r
    · rw [(defers ⟨[], slot⟩).accept_unmatched rfl hk] at h
      cases h
    · rw [(defers ⟨(s, l) :: outer, slot⟩).accept_closing l.2 hk, Except.ok.injEq] at h
      have hplace : (Arrangement.group s.place l slot.sum ⟨t, hk⟩).yield =
          s.place.yield ++ (l.1 :: slot.sum.yield ++ [t]) := by simp [Arrangement.yield]
      refine ⟨⟨outer, { s with place := .group s.place l slot.sum ⟨t, hk⟩ }⟩, ?_, ?_⟩
      · rw [← h]
        exact s.yard_extend rfl _
      · rw [yield, s.yield_extend hplace]
        simp [yield, around.yield]
  · obtain ⟨slot, haccept, hyield⟩ := r.slot.accept_operator (around.yard_head r.around) o
    refine ⟨{ r with slot }, Except.ok.inj (haccept.symm.trans h), ?_⟩
    simp [yield, hyield]

theorem foldlM_accept (r : Reading) {ts : List Token} {z : Yard}
    (h : ts.foldlM Yard.accept r.yard = .ok z) :
    (∀ t ∈ ts, t.Finite) ∧ ∃ r' : Reading, r'.yard = z ∧ r'.yield = r.yield ++ ts := by
  induction ts generalizing r with
  | nil =>
    cases h
    exact ⟨by simp, r, rfl, by simp⟩
  | cons t ts ih =>
    obtain ⟨y, haccept, hts⟩ := Yard.foldlM_cons_eq_ok_iff.1 h
    obtain ⟨hf, r₁, rfl, hyield₁⟩ := r.accept haccept
    obtain ⟨hfs, r', hyard, hyield⟩ := ih r₁ hts
    refine ⟨by simpa using ⟨hf, hfs⟩, r', hyard, ?_⟩
    rw [hyield, hyield₁, List.append_assoc]
    rfl

theorem finish (r : Reading) {ts : List Token} (h : r.yard.finish = .ok ts) :
    r.yield = r.slot.sum.yield ∧ r.slot.sum.postorder = ts := by
  obtain ⟨_ | ⟨⟨s, l⟩, outer⟩, slot⟩ := r
  · have hfinish := (defers ⟨[], slot⟩).finish rfl
    refine ⟨by simp [yield, around.yield], ?_⟩
    simpa [around.yard] using hfinish.symm.trans h
  · obtain ⟨held, -, hwaiting, -⟩ := defers ⟨(s, l) :: outer, slot⟩
    have hopen : (yard ⟨(s, l) :: outer, slot⟩).waiting.any (·.kind = .opening) := by
      rw [hwaiting]
      simp [around.yard, l.2]
    rw [Yard.finish, if_pos hopen] at h
    cases h

end Reading

theorem ofTokens_eq_ok_iff {ts us : List Token} : Rpn.ofTokens ts = .ok us ↔
    (∀ t ∈ ts, t.Finite) ∧ ∃ a : Arrangement .sum, a.yield = ts ∧ a.postorder = us := by
  constructor
  · intro h
    rw [Rpn.ofTokens] at h
    cases hz : ts.foldlM Yard.accept {} with
    | error e => rw [hz] at h; cases h
    | ok z =>
      rw [hz] at h
      obtain ⟨hf, r, rfl, hyield⟩ := Reading.foldlM_accept {} hz
      obtain ⟨hsum, hpost⟩ := r.finish h
      exact ⟨hf, r.slot.sum, by rw [← hsum, hyield]; rfl, hpost⟩
  · rintro ⟨hf, a, rfl, rfl⟩
    exact a.ofTokens_yield hf

/-- An infix expression is put into the postorder of its tree, which consists of the very same tokens.
Only a number that is not finite can prevent it. -/
theorem ofTokens_expr_iff (e : Expr .sum) (us : List Token) :
    Rpn.ofTokens e.yield = .ok us ↔ (∀ t ∈ e.yield, t.Finite) ∧ us = e.tree.postorder := by
  constructor
  · intro h
    have hf : ∀ t ∈ e.yield, t.Finite := (ofTokens_eq_ok_iff.1 h).1
    exact ⟨hf, Except.ok.inj (h.symm.trans (e.ofTokens_yield hf))⟩
  · rintro ⟨hf, rfl⟩
    exact e.ofTokens_yield hf

end InfixCalc.Infix
