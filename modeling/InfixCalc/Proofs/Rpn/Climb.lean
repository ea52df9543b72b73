import InfixCalc.Proofs.Rpn.Obstruction
import InfixCalc.Proofs.Rpn.Waiting
import Mathlib.Data.Set.List

namespace InfixCalc

theorem OperatorToken.token_injective : Function.Injective OperatorToken.token := fun o o' h =>
  Option.some.inj (by rw [← ofToken?_token o, h, ofToken?_token o'])

namespace Rpn.Yard

theorem Ranked.exists_operators {y : Yard} (hy : y.Ranked) {ts : List Token} (hts : ts ⊆ y.waiting)
    (hk : ∀ t ∈ ts, t.kind ≠ .opening) : ∃ os : List OperatorToken, os.map (·.token) = ts := by
  rw [← Set.mem_range, Set.range_list_map]
  intro t ht
  obtain ⟨hkind, hsome⟩ := (hy t (hts ht)).resolve_left (hk t ht)
  obtain ⟨o, ho⟩ := Option.isSome_iff_exists.1 hsome
  exact ⟨⟨t, o, hkind, Operator.ofSymbol?_eq_some_iff.1 ho⟩, rfl⟩

/-- Tokens that wait, the innermost first: opening parentheses, and operators none of which is right above
one that binds as tightly. -/
inductive Climbing : List Token → Prop
  | nil : Climbing []
  | opening {t : Token} {ts : List Token} : t.kind = .opening → Climbing ts → Climbing (t :: ts)
  | operator (o : OperatorToken) {ts : List Token} :
    (∀ t ∈ ts.head?, precedes o.operator.rank t = false) → Climbing ts → Climbing (o.token :: ts)

namespace Climbing

variable {ts us : List Token}

theorem suffix (h : Climbing ts) (hus : us <:+ ts) : Climbing us := by
  induction h with
  | nil => exact List.suffix_nil.1 hus ▸ nil
  | opening hk hts ih =>
    rcases List.suffix_cons_iff.1 hus with rfl | hus
    · exact .opening hk hts
    · exact ih hus
  | operator o hhead hts ih =>
    rcases List.suffix_cons_iff.1 hus with rfl | hus
    · exact .operator o hhead hts
    · exact ih hus

theorem release {y : Yard} (h : Climbing y.waiting) (p : Token → Bool) : Climbing (y.release p).waiting :=
  h.suffix (List.dropWhile_suffix p)

theorem pop {y z : Yard} (h : Climbing y.waiting) (hpop : y.pop = .ok z) : Climbing z.waiting := by
  obtain ⟨output, _ | ⟨t, waiting⟩⟩ := y
  · cases hpop
  · cases hpop
    exact h.suffix (List.suffix_cons t waiting)

theorem push_operator {y : Yard} (h : Climbing y.waiting) (o : OperatorToken) :
    Climbing ((y.release (precedes o.operator.rank)).push o.token).waiting := by
  refine .operator o (fun t ht => ?_) (h.release _)
  have hstop := List.head?_dropWhile_not (precedes o.operator.rank) y.waiting
  rwa [show (y.waiting.dropWhile _).head? = some t from ht] at hstop

theorem accept {y z : Yard} (h : Climbing y.waiting) {t : Token} (haccept : y.accept t = .ok z) :
    Climbing z.waiting := by
  rcases accept_cases haccept with ⟨-, rfl⟩ | ⟨hk, rfl⟩ | ⟨-, hpop⟩ | ⟨o, rfl, rfl⟩
  · exact h
  · exact .opening hk h
  · exact (h.release _).pop hpop
  · exact h.push_operator o

theorem foldlM {y z : Yard} (h : Climbing y.waiting) (hread : ts.foldlM Yard.accept y = .ok z) :
    Climbing z.waiting :=
  kept_foldlM (P := fun y => Climbing y.waiting) (fun h haccept => h.accept haccept) h hread

theorem of_operator {o : OperatorToken} (h : Climbing (o.token :: ts)) :
    (∀ t ∈ ts.head?, precedes o.operator.rank t = false) ∧ Climbing ts := by
  generalize hus : o.token :: ts = us at h
  cases h with
  | nil => cases hus
  | opening hk hts =>
    obtain ⟨rfl, -⟩ := List.cons.inj hus
    cases o.kind_eq.symm.trans hk
  | operator o' hhead hts =>
    obtain ⟨ho, rfl⟩ := List.cons.inj hus
    exact OperatorToken.token_injective ho ▸ ⟨hhead, hts⟩

theorem isChain_ranks {os : List OperatorToken} (h : Climbing (os.map (·.token) ++ ts)) :
    (os.map (·.operator.rank)).IsChain (· > ·) := by
  induction os with
  | nil => exact .nil
  | cons o os ih =>
    obtain ⟨hhead, hbelow⟩ := h.of_operator
    cases os with
    | nil => exact .singleton _
    | cons o' os =>
      have hlow : o'.operator.rank < o.operator.rank := by simpa [precedes_operator] using hhead
      exact List.isChain_cons_cons.2 ⟨hlow, ih hbelow⟩

theorem length_lt (h : Climbing ts) {rank : Nat} (hrank : 0 < rank)
    (hhead : ∀ t ∈ ts.head?, precedes rank t = false) :
    ts.length < 3 * ts.countP (·.kind = .opening) + rank := by
  -- The bound counts what is on top by its rank: a parenthesis starts anew, an operator takes up one rank.
  induction h generalizing rank with
  | nil => simpa using hrank
  | @opening t ts hk hts ih =>
    have hbelow := ih (by decide) fun u _ => not_precedes_three u
    rw [List.length_cons, List.countP_cons_of_pos (by simpa using hk)]
    omega
  | @operator o ts hstop hts ih =>
    have hpos : 0 < o.operator.rank := by cases o.operator <;> decide
    have hlow : o.operator.rank < rank := by simpa [precedes_operator] using hhead
    have hbelow := ih hpos hstop
    rw [List.length_cons, List.countP_cons_of_neg (by simp [o.kind_eq])]
    omega

end Climbing

/-- Whatever has been read, only opening parentheses and operators of known rank wait. There are as many of
the parentheses as are not closed yet, and the operators between two of them are of falling rank from the
innermost on. So while tokens are let out the rank of any operator that comes to the top is known, and with
`k` parentheses open no more than `3 * k + 2` tokens wait. -/
theorem waiting_climbs {ts : List Token} {y : Yard} (h : ts.foldlM accept {} = .ok y) :
    (∀ t ∈ y.waiting, t.kind = .opening ∨ t.kind = .operator ∧ (Operator.ofSymbol? t.text).isSome) ∧
    (y.depth : Int) = nesting ts ∧
    (∀ above between below, y.waiting = above ++ between ++ below → (∀ t ∈ between, t.kind ≠ .opening) →
      ∃ os : List OperatorToken, between = os.map (·.token) ∧ (os.map (·.operator.rank)).Pairwise (· > ·)) ∧
    (∀ t below, t :: below <:+ y.waiting → t.kind = .operator → ∃ o, Operator.ofSymbol? t.text = some o) ∧
    ∀ k : Nat, nesting ts = k → ∀ held, held <:+ y.waiting → held.length ≤ 3 * k + 2 := by
  have hranked : y.Ranked := Ranked.foldlM (y := {}) (by simp [Ranked]) h
  have hclimbing : Climbing y.waiting := Climbing.foldlM (y := {}) .nil h
  have hdepth : (y.depth : Int) = nesting ts := by simpa [depth] using depth_foldlM h
  refine ⟨hranked, hdepth, fun above between below hw hk => ?_, fun t below hsuffix hk => ?_,
    fun k hk held hheld => ?_⟩
  · have hsuffix : between ++ below <:+ y.waiting := ⟨above, by rw [hw, List.append_assoc]⟩
    have hsubset : between ⊆ y.waiting := fun t ht => hsuffix.subset (List.mem_append_left below ht)
    obtain ⟨os, rfl⟩ := hranked.exists_operators hsubset hk
    exact ⟨os, rfl, (hclimbing.suffix hsuffix).isChain_ranks.pairwise⟩
  · rcases hranked t (hsuffix.subset List.mem_cons_self) with hopening | ⟨-, hsome⟩
    · cases hopening.symm.trans hk
    · exact Option.isSome_iff_exists.1 hsome
  · have hlength := hclimbing.length_lt (show 0 < 3 by decide) fun t _ => not_precedes_three t
    have hle := hheld.length_le
    rw [depth] at hdepth
    omega

theorem waiting_climbs_product_of_sums : ∃ y, (Token.scan "1+2*(3-4/(5+6*").foldlM accept {} = .ok y ∧
    y.waiting.map (·.text) = ["*", "+", "(", "/", "-", "(", "*", "+"] ∧ y.waiting.length ≤ 3 * 2 + 2 := by
  have hread : ((Token.scan "1+2*(3-4/(5+6*").foldlM accept {}).toOption.map (·.waiting.map (·.text)) =
      some ["*", "+", "(", "/", "-", "(", "*", "+"] := by decide +kernel
  cases hy : (Token.scan "1+2*(3-4/(5+6*").foldlM accept {} with
  | error e => simp [hy, Except.toOption] at hread
  | ok y =>
    obtain ⟨-, -, -, -, hlength⟩ := waiting_climbs hy
    refine ⟨y, rfl, by simpa [hy, Except.toOption] using hread, ?_⟩
    exact hlength 2 (by decide +kernel) y.waiting (List.suffix_refl _)

end Rpn.Yard
end InfixCalc
