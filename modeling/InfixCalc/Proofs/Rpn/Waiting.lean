import InfixCalc.Proofs.Infix.Conversion

namespace InfixCalc

def nesting (ts : List Token) : Int := ts.countP (·.kind = .opening) - ts.countP (·.kind = .closing)

@[simp] theorem nesting_nil : nesting [] = 0 := rfl

theorem nesting_append (ts us : List Token) : nesting (ts ++ us) = nesting ts + nesting us := by
  simp only [nesting, List.countP_append]
  omega

theorem nesting_cons (t : Token) (ts : List Token) : nesting (t :: ts) = nesting [t] + nesting ts :=
  nesting_append [t] ts

theorem nesting_opening {t : Token} (h : t.kind = .opening) : nesting [t] = 1 := by simp [nesting, h]

theorem nesting_closing {t : Token} (h : t.kind = .closing) : nesting [t] = -1 := by simp [nesting, h]

theorem nesting_of_ne {t : Token} (ho : t.kind ≠ .opening) (hc : t.kind ≠ .closing) : nesting [t] = 0 := by
  simp [nesting, ho, hc]

namespace Rpn.Yard

theorem kept_foldlM {P : Yard → Prop} (hstep : ∀ {y z : Yard} {t : Token}, P y → y.accept t = .ok z → P z)
    {y z : Yard} (hy : P y) {ts : List Token} (h : ts.foldlM accept y = .ok z) : P z := by
  induction ts generalizing y with
  | nil =>
    cases h
    exact hy
  | cons t ts ih =>
    obtain ⟨y', haccept, hts⟩ := foldlM_cons_eq_ok_iff.1 h
    exact ih (hstep hy haccept) hts

def Ranked (y : Yard) : Prop :=
  ∀ t ∈ y.waiting, t.kind = .opening ∨ t.kind = .operator ∧ (Operator.ofSymbol? t.text).isSome

theorem Ranked.release {y : Yard} (hy : y.Ranked) (p : Token → Bool) : (y.release p).Ranked :=
  fun t ht => hy t ((List.dropWhile_suffix p).subset ht)

theorem Ranked.push {y : Yard} (hy : y.Ranked) {t : Token}
    (ht : t.kind = .opening ∨ t.kind = .operator ∧ (Operator.ofSymbol? t.text).isSome) :
    (y.push t).Ranked := by
  rw [Ranked, push_waiting, List.forall_mem_cons]
  exact ⟨ht, hy⟩

theorem Ranked.pop {y z : Yard} (hy : y.Ranked) (h : y.pop = .ok z) : z.Ranked := by
  obtain ⟨output, _ | ⟨t, waiting⟩⟩ := y
  · cases h
  · cases h
    exact (List.forall_mem_cons.1 hy).2

theorem Ranked.accept {y z : Yard} (hy : y.Ranked) {t : Token} (h : y.accept t = .ok z) : z.Ranked := by
  rcases accept_cases h with ⟨-, rfl⟩ | ⟨hk, rfl⟩ | ⟨-, hpop⟩ | ⟨o, rfl, rfl⟩
  · exact hy
  · exact hy.push (.inl hk)
  · exact (hy.release _).pop hpop
  · exact (hy.release _).push (.inr ⟨o.kind_eq, by rw [o.text_eq, Operator.ofSymbol?_symbol]; rfl⟩)

theorem Ranked.foldlM {y z : Yard} (hy : y.Ranked) {ts : List Token}
    (h : ts.foldlM Yard.accept y = .ok z) : z.Ranked :=
  kept_foldlM (fun hy h => hy.accept h) hy h

def depth (y : Yard) : Nat := y.waiting.countP (·.kind = .opening)

theorem depth_push (y : Yard) (t : Token) :
    (y.push t).depth = y.depth + if t.kind = .opening then 1 else 0 := by
  simp [depth, List.countP_cons]

theorem depth_release {p : Token → Bool} (hp : ∀ t, p t → t.kind ≠ .opening) (y : Yard) :
    (y.release p).depth = y.depth := by
  have hnone : (y.waiting.takeWhile p).countP (·.kind = .opening) = 0 := by
    rw [List.countP_eq_zero]
    intro t ht
    simpa using hp t (List.mem_takeWhile_imp ht)
  rw [depth, depth, ← List.takeWhile_append_dropWhile (p := p) (l := y.waiting), List.countP_append, hnone,
    Nat.zero_add]
  rfl

theorem pop_release_cases (y : Yard) :
    (y.depth = 0 ∧ (y.release (·.kind ≠ .opening)).pop = .error (.error (.unmatched .closing))) ∨
      ∃ z, (y.release (·.kind ≠ .opening)).pop = .ok z ∧ y.depth = z.depth + 1 := by
  rw [← depth_release (p := (·.kind ≠ .opening)) (by simp) y]
  cases hw : (y.release (·.kind ≠ .opening)).waiting with
  | nil => exact .inl ⟨by rw [depth, hw, List.countP_nil], by rw [pop, hw]⟩
  | cons t waiting =>
    have ht : t.kind = .opening := by
      have hstop := List.head?_dropWhile_not (fun t : Token => decide (t.kind ≠ .opening)) y.waiting
      rw [show y.waiting.dropWhile _ = t :: waiting from hw] at hstop
      simpa using hstop
    exact .inr ⟨_, by rw [pop, hw], by rw [depth, hw]; simp [depth, ht]⟩

theorem depth_accept {y z : Yard} {t : Token} (h : y.accept t = .ok z) :
    (z.depth : Int) = y.depth + nesting [t] := by
  rcases accept_cases h with ⟨hk, rfl⟩ | ⟨hk, rfl⟩ | ⟨hk, hpop⟩ | ⟨o, rfl, rfl⟩
  · simp [nesting_of_ne, hk, depth]
  · simp [nesting_opening hk, hk, depth_push]
  · rcases y.pop_release_cases with ⟨-, herror⟩ | ⟨z', hz, hdepth⟩
    · cases hpop.symm.trans herror
    · cases hpop.symm.trans hz
      simp [nesting_closing hk, hdepth]
  · have hrelease : (y.release (precedes o.operator.rank)).depth = y.depth :=
      depth_release (fun t ht => by simp [kind_of_precedes ht]) y
    simp [nesting_of_ne, o.kind_eq, depth_push, hrelease]

theorem depth_foldlM {y z : Yard} {ts : List Token} (h : ts.foldlM accept y = .ok z) :
    (z.depth : Int) = y.depth + nesting ts := by
  induction ts generalizing y with
  | nil =>
    cases h
    simp
  | cons t ts ih =>
    obtain ⟨y', haccept, hts⟩ := foldlM_cons_eq_ok_iff.1 h
    rw [ih hts, depth_accept haccept, nesting_cons t ts, Int.add_assoc]

theorem finish_cases (y : Yard) : (0 < y.depth ∧ y.finish = .error (.error (.unmatched .opening))) ∨
    y.depth = 0 ∧ ∃ us, y.finish = .ok us := by
  have hopen : y.waiting.any (·.kind = .opening) ↔ 0 < y.depth := by
    rw [List.any_eq_true]
    exact List.countP_pos_iff.symm
  unfold finish
  by_cases h : 0 < y.depth
  · exact .inl ⟨h, if_pos (hopen.2 h)⟩
  · exact .inr ⟨by omega, _, if_neg fun hany => h (hopen.1 hany)⟩

end Rpn.Yard
end InfixCalc
