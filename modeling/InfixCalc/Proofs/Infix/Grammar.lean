import InfixCalc.Proofs.Rpn.Tree
import InfixCalc.Proofs.Token.Spelling

/-!
The infix grammar, and a looser one in which an operator may find any number of operands on its sides.
Infix lists are what the calculator is for, the looser ones are what it can put into another order.
-/

namespace InfixCalc

def OperatorToken.Additive (o : OperatorToken) : Prop := o.operator = .add ∨ o.operator = .sub

def OperatorToken.Multiplicative (o : OperatorToken) : Prop := o.operator = .mul ∨ o.operator = .div

namespace Infix

inductive Level
  | sum | product | factor

/-- Derivation trees of `E ::= T | E (+|-) T`, `T ::= F | T (*|/) F`, `F ::= NUMBER | ( E )`. -/
inductive Expr : Level → Type
  | number (t : Token.Of .number) : Expr .factor
  | group (l : Token.Of .opening) (e : Expr .sum) (r : Token.Of .closing) : Expr .factor
  | factor (f : Expr .factor) : Expr .product
  | mul (a : Expr .product) (o : OperatorToken) (ho : o.Multiplicative) (b : Expr .factor) :
      Expr .product
  | product (p : Expr .product) : Expr .sum
  | add (a : Expr .sum) (o : OperatorToken) (ho : o.Additive) (b : Expr .product) : Expr .sum

namespace Expr

def yield : Expr l → List Token
  | number t => [t.1]
  | group l e r => l.1 :: e.yield ++ [r.1]
  | factor f => f.yield
  | mul a o _ b => a.yield ++ o.token :: b.yield
  | product p => p.yield
  | add a o _ b => a.yield ++ o.token :: b.yield

def tree : Expr l → Rpn.Tree
  | number t => .leaf t
  | group _ e _ => e.tree
  | factor f => f.tree
  | mul a o _ b => .node a.tree b.tree o
  | product p => p.tree
  | add a o _ b => .node a.tree b.tree o

end Expr

def IsSentence (ts : List Token) : Prop := ∃ e : Expr .sum, e.yield = ts

/-- Derivation trees of `E ::= T | E (+|-) T`, `T ::= F | T (*|/) F`, `F ::= ε | F NUMBER | F ( E )`. -/
inductive Arrangement : Level → Type
  | empty : Arrangement .factor
  | number (before : Arrangement .factor) (t : Token.Of .number) : Arrangement .factor
  | group (before : Arrangement .factor) (l : Token.Of .opening) (e : Arrangement .sum)
      (r : Token.Of .closing) : Arrangement .factor
  | factor (f : Arrangement .factor) : Arrangement .product
  | mul (a : Arrangement .product) (o : OperatorToken) (ho : o.Multiplicative) (b : Arrangement .factor) :
      Arrangement .product
  | product (p : Arrangement .product) : Arrangement .sum
  | add (a : Arrangement .sum) (o : OperatorToken) (ho : o.Additive) (b : Arrangement .product) :
      Arrangement .sum

namespace Arrangement

def yield : Arrangement l → List Token
  | empty => []
  | number before t => before.yield ++ [t.1]
  | group before l e r => before.yield ++ l.1 :: e.yield ++ [r.1]
  | factor f => f.yield
  | mul a o _ b => a.yield ++ o.token :: b.yield
  | product p => p.yield
  | add a o _ b => a.yield ++ o.token :: b.yield

def postorder : Arrangement l → List Token
  | empty => []
  | number before t => before.postorder ++ [t.1]
  | group before _ e _ => before.postorder ++ e.postorder
  | factor f => f.postorder
  | mul a o _ b => a.postorder ++ b.postorder ++ [o.token]
  | product p => p.postorder
  | add a o _ b => a.postorder ++ b.postorder ++ [o.token]

theorem mem_yield_of_mem_postorder (a : Arrangement l) {t : Token} (h : t ∈ a.postorder) :
    t ∈ a.yield ∧ (t.kind = .number ∨ ∃ o : OperatorToken, o.token = t) := by
  induction a with
  | empty => simp [postorder] at h
  | number before s ih =>
    rcases List.mem_append.1 h with h | h
    · exact ⟨by simp [yield, ih h], (ih h).2⟩
    · rw [List.mem_singleton.1 h]
      exact ⟨by simp [yield], .inl s.2⟩
  | group before l e r ihb ihe =>
    rcases List.mem_append.1 h with h | h
    · exact ⟨by simp [yield, ihb h], (ihb h).2⟩
    · exact ⟨by simp [yield, ihe h], (ihe h).2⟩
  | factor f ih => exact ih h
  | product p ih => exact ih h
  | mul a o _ b iha ihb | add a o _ b iha ihb =>
    rcases List.mem_append.1 h with h | h
    · rcases List.mem_append.1 h with h | h
      · exact ⟨by simp [yield, iha h], (iha h).2⟩
      · exact ⟨by simp [yield, ihb h], (ihb h).2⟩
    · rw [List.mem_singleton.1 h]
      exact ⟨by simp [yield], .inr ⟨o, rfl⟩⟩

theorem postorder_perm (a : Arrangement l) :
    a.postorder.Perm (a.yield.filter fun t => t.kind = .number ∨ t.kind = .operator) := by
  induction a with
  | empty => exact .refl _
  | number before t ih => simpa [postorder, yield, t.2] using ih.append_right [t.1]
  | group before l e r ihb ihe => simpa [postorder, yield, l.2, r.2] using ihb.append ihe
  | factor f ih => exact ih
  | product p ih => exact ih
  | mul a o _ b iha ihb | add a o _ b iha ihb =>
    have hlast := (List.perm_append_singleton o.token b.postorder).trans (ihb.cons o.token)
    simpa [postorder, yield, o.kind_eq] using iha.append hlast

theorem mem_postorder_iff (a : Arrangement l) {t : Token} :
    t ∈ a.postorder ↔ t ∈ a.yield ∧ (t.kind = .number ∨ t.kind = .operator) := by
  simpa using a.postorder_perm.mem_iff

end Arrangement

namespace Expr

def arrangement : Expr l → Arrangement l
  | number t => .number .empty t
  | group l e r => .group .empty l e.arrangement r
  | factor f => .factor f.arrangement
  | mul a o ho b => .mul a.arrangement o ho b.arrangement
  | product p => .product p.arrangement
  | add a o ho b => .add a.arrangement o ho b.arrangement

@[simp] theorem yield_arrangement (e : Expr l) : e.arrangement.yield = e.yield := by
  induction e <;> simp [arrangement, Arrangement.yield, yield, *]

@[simp] theorem postorder_arrangement (e : Expr l) :
    e.arrangement.postorder = e.tree.postorder := by
  induction e <;> simp [arrangement, Arrangement.postorder, tree, Rpn.Tree.postorder, *]

theorem yield_ne_nil (e : Expr l) : e.yield ≠ [] := by
  induction e with
  | factor f ih => exact ih
  | product p ih => exact ih
  | number | group | mul | add => simp [yield]

theorem kind_ne_stray (e : Expr l) : ∀ t ∈ e.yield, t.kind ≠ .stray := by
  induction e with
  | number t => simp [yield, t.2]
  | group l e r ih => simpa [yield, l.2, r.2, or_imp, forall_and] using ih
  | factor f ih => exact ih
  | product p ih => exact ih
  | mul a o _ b iha ihb | add a o _ b iha ihb =>
    simpa [yield, o.kind_eq, or_imp, forall_and] using ⟨iha, ihb⟩

theorem yield_isChain (e : Expr l) : e.yield.IsChain Token.Apart := by
  have join {ts us : List Token} {t : Token} (ht : ¬t.kind.Grows) (hts : ts.IsChain Token.Apart)
      (hus : us.IsChain Token.Apart) : (ts ++ t :: us).IsChain Token.Apart :=
    List.isChain_append.2 ⟨hts, List.isChain_cons.2 ⟨fun _ _ h => ht h.1, hus⟩,
      fun _ _ _ h h' => ht (by simp_all)⟩
  induction e with
  | number t => exact List.isChain_singleton _
  | group l e r ih =>
    have hl : ¬l.1.kind.Grows := by simp [Token.Kind.Grows, l.2]
    have hr : ¬r.1.kind.Grows := by simp [Token.Kind.Grows, r.2]
    exact List.isChain_cons.2 ⟨fun _ _ h => hl h.1, join hr ih List.isChain_nil⟩
  | factor f ih => exact ih
  | product p ih => exact ih
  | mul a o _ b iha ihb | add a o _ b iha ihb =>
    have ho : ¬o.token.kind.Grows := by simp [Token.Kind.Grows, o.kind_eq]
    exact join ho iha ihb

end Expr
end Infix
end InfixCalc
