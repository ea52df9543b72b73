import InfixCalc.Proofs.Infix.Reading
import InfixCalc.Proofs.Rpn.Waiting
import InfixCalc.Proofs.Rpn.Word
import Mathlib.Data.List.FinRange
import Mathlib.Data.List.Perm.Basic
import Mathlib.Data.Set.List

namespace InfixCalc

theorem pair_sublist_append_iff {x y : α} {l l' : List α} : [x, y].Sublist (l ++ l') ↔
    [x, y].Sublist l ∨ (x ∈ l ∧ y ∈ l') ∨ [x, y].Sublist l' := by
  rw [List.sublist_append_iff]
  constructor
  · rintro ⟨_ | ⟨a, _ | ⟨b, k⟩⟩, k', hk, hl, hl'⟩
    · exact .inr (.inr (hk ▸ hl'))
    · obtain ⟨rfl, rfl⟩ : x = a ∧ [y] = k' := by simpa using hk
      exact .inr (.inl ⟨List.singleton_sublist.1 hl, List.singleton_sublist.1 hl'⟩)
    · obtain ⟨rfl, rfl, rfl, -⟩ : x = a ∧ y = b ∧ k = [] ∧ k' = [] := by simpa using hk
      exact .inl hl
  · rintro (h | ⟨hx, hy⟩ | h)
    · exact ⟨_, [], rfl, h, List.nil_sublist _⟩
    · exact ⟨[x], [y], rfl, List.singleton_sublist.2 hx, List.singleton_sublist.2 hy⟩
    · exact ⟨[], _, rfl, List.nil_sublist _, h⟩

theorem exists_of_append_eq_append_cons {l l' before after : List α} {x : α}
    (h : l ++ l' = before ++ x :: after) :
    (∃ r, l = before ++ x :: r ∧ after = r ++ l') ∨
      ∃ r, before = l ++ r ∧ l' = r ++ x :: after := by
  rcases List.append_eq_append_iff.1 h with ⟨r, hbefore, hl'⟩ | ⟨_ | ⟨y, r⟩, hl, hafter⟩
  · exact .inr ⟨r, hbefore, hl'⟩
  · exact .inr ⟨[], by simpa using hl.symm, hafter.symm⟩
  · rw [List.cons_append, List.cons.injEq] at hafter
    exact .inl ⟨r, hafter.1 ▸ hl, hafter.2⟩

theorem exists_drop_eq_of_lt {l : List α} {i j : Nat} (hij : i < j) (hj : j < l.length) :
    ∃ between after, l.drop (i + 1) = between ++ l[j] :: after ∧
      l.take j = l.take i ++ l[i] :: between := by
  refine ⟨(l.take j).drop (i + 1), l.drop (j + 1), ?_, ?_⟩
  · have hle : i + 1 ≤ (l.take j).length := by
      rw [List.length_take]
      omega
    rw [← List.drop_eq_getElem_cons hj, ← List.drop_append_of_le_length hle, List.take_append_drop]
  · have hi : i < (l.take j).length := by
      rw [List.length_take]
      omega
    have hsplit := List.take_append_drop i (l.take j)
    rwa [List.take_take, Nat.min_eq_left hij.le, List.drop_eq_getElem_cons hi, List.getElem_take,
      eq_comm] at hsplit

theorem nesting_congr {ts us : List Token} (h : ts.map Token.word = us.map Token.word) :
    nesting ts = nesting us := by
  have hcount (k : Token.Kind) (ts : List Token) :
      ts.countP (·.kind = k) = (ts.map Token.word).countP (·.1 = k) := by
    rw [List.countP_map]
    rfl
  rw [nesting, nesting, hcount, hcount, h, ← hcount, ← hcount]

theorem OperatorToken.nesting_eq (o : OperatorToken) : nesting [o.token] = 0 :=
  nesting_of_ne (by simp [o.kind_eq]) (by simp [o.kind_eq])

structure Balanced (ts : List Token) : Prop where
  nesting_eq : nesting ts = 0
  nonneg : ∀ before, before <+: ts → 0 ≤ nesting before

namespace Balanced

variable {ts us : List Token}

theorem nil : Balanced [] := ⟨rfl, fun before h => by simp [List.prefix_nil.1 h]⟩

theorem append (hts : Balanced ts) (hus : Balanced us) : Balanced (ts ++ us) := by
  refine ⟨by rw [nesting_append, hts.nesting_eq, hus.nesting_eq, Int.add_zero], fun before h => ?_⟩
  obtain ⟨after, h⟩ := h
  rcases List.append_eq_append_iff.1 h with ⟨r, rfl, -⟩ | ⟨r, rfl, rfl⟩
  · exact hts.nonneg before (List.prefix_append _ _)
  · rw [nesting_append, hts.nesting_eq, Int.zero_add]
    exact hus.nonneg r (List.prefix_append _ _)

theorem singleton {t : Token} (ho : t.kind ≠ .opening) (hc : t.kind ≠ .closing) : Balanced [t] := by
  have hzero := nesting_of_ne ho hc
  refine ⟨hzero, fun before h => ?_⟩
  rcases List.prefix_cons_iff.1 h with rfl | ⟨r, rfl, hr⟩
  · rfl
  · rw [List.prefix_nil.1 hr, hzero]

theorem enclosed (hts : Balanced ts) {l r : Token} (hl : l.kind = .opening) (hr : r.kind = .closing) :
    Balanced (l :: ts ++ [r]) := by
  have hopen := nesting_opening hl
  have hclose := nesting_closing hr
  constructor
  · rw [nesting_append, nesting_cons l ts, hts.nesting_eq, hopen, hclose]
    rfl
  · intro before h
    rw [List.cons_append, List.prefix_cons_iff] at h
    rcases h with rfl | ⟨before, rfl, hbefore⟩
    · rfl
    · rw [nesting_cons l before, hopen]
      rcases List.prefix_concat_iff.1 hbefore with rfl | hbefore
      · rw [nesting_append, hts.nesting_eq, hclose]
        decide
      · have := hts.nonneg before hbefore
        omega

end Balanced

theorem Infix.Arrangement.balanced_yield (a : Arrangement l) : Balanced a.yield := by
  induction a with
  | empty => exact .nil
  | number before t ih => exact ih.append (.singleton (by simp [t.2]) (by simp [t.2]))
  | group before l e r ihb ihe =>
    rw [yield, List.append_assoc]
    exact ihb.append (ihe.enclosed l.2 r.2)
  | factor f ih => exact ih
  | product p ih => exact ih
  | mul a o _ b iha ihb | add a o _ b iha ihb =>
    rw [yield, List.append_cons]
    exact (iha.append (.singleton (by simp [o.kind_eq]) (by simp [o.kind_eq]))).append ihb

/-- Whether `y` is in a list behind tokens that open at most `n` more parentheses than they close. -/
def Exposed (n : Int) (y : Token) (ts : List Token) : Prop :=
  ∃ before after, ts = before ++ y :: after ∧ nesting before ≤ n

namespace Exposed

variable {n : Int} {x y : Token} {ts us : List Token}

theorem mem (h : Exposed n y ts) : y ∈ ts := by
  obtain ⟨before, after, rfl, -⟩ := h
  simp

theorem of_append (h : Exposed n y (ts ++ us)) : Exposed n y ts ∨ Exposed (n - nesting ts) y us := by
  obtain ⟨before, after, hsplit, hn⟩ := h
  rcases exists_of_append_eq_append_cons hsplit with ⟨r, rfl, -⟩ | ⟨r, rfl, rfl⟩
  · exact .inl ⟨before, r, rfl, hn⟩
  · rw [nesting_append] at hn
    exact .inr ⟨r, after, rfl, by omega⟩

theorem of_cons (h : Exposed n y (x :: us)) : x = y ∨ Exposed (n - nesting [x]) y us := by
  rw [← List.singleton_append] at h
  rcases h.of_append with h | h
  · exact .inl (List.mem_singleton.1 h.mem).symm
  · exact .inr h

end Exposed

theorem Balanced.not_exposed {ts : List Token} (hts : Balanced ts) {n : Int} (hn : n < 0) (y : Token) :
    ¬Exposed n y ts := by
  rintro ⟨before, after, rfl, hle⟩
  have := hts.nonneg before (List.prefix_append _ _)
  omega

def Followed (P : List Token → Prop) (x : Token) (ts : List Token) : Prop :=
  ∃ before after, ts = before ++ x :: after ∧ P after

namespace Followed

variable {P : List Token → Prop} {x y t : Token} {ts us : List Token}

theorem of_append (hP : ∀ ts us, P (ts ++ us) → P ts ∨ y ∈ us) (h : Followed P x (ts ++ us)) :
    Followed P x ts ∨ (x ∈ ts ∧ y ∈ us) ∨ Followed P x us := by
  obtain ⟨before, after, hsplit, hafter⟩ := h
  rcases exists_of_append_eq_append_cons hsplit with ⟨r, rfl, rfl⟩ | ⟨r, rfl, rfl⟩
  · rcases hP r us hafter with hr | hy
    · exact .inl ⟨before, r, rfl, hr⟩
    · exact .inr (.inl ⟨by simp, hy⟩)
  · exact .inr (.inr ⟨r, after, rfl, hafter⟩)

theorem of_cons (h : Followed P x (t :: us)) : (t = x ∧ P us) ∨ Followed P x us := by
  obtain ⟨_ | ⟨u, before⟩, after, hsplit, hafter⟩ := h
  · obtain ⟨rfl, rfl⟩ := List.cons.inj hsplit
    exact .inl ⟨rfl, hafter⟩
  · obtain ⟨rfl, rfl⟩ := List.cons.inj hsplit
    exact .inr ⟨before, after, rfl, hafter⟩

theorem not_nil : ¬Followed P x [] := by
  rintro ⟨before, after, hsplit, -⟩
  simp at hsplit

theorem not_singleton (hnil : ¬P []) : ¬Followed P x [t] := fun h => by
  rcases h.of_cons with ⟨-, h⟩ | h
  · exact hnil h
  · exact not_nil h

end Followed

namespace Infix.Arrangement

open Rpn

theorem precedes_of_exposed (a : Arrangement l) {y : Token} (hy : y.kind = .operator)
    (h : Exposed 0 y a.yield) : Yard.precedes l.rank y := by
  induction a with
  | empty => exact absurd h.mem (by simp [yield])
  | number before t ih =>
    rcases h.of_append with h | h
    · exact ih h
    · rw [List.mem_singleton.1 h.mem, t.2] at hy
      cases hy
  | group before l e r ihb ihe =>
    rcases h.of_append with h | h
    · rcases h.of_append with h | h
      · exact ihb h
      · rcases h.of_cons with h | h
        · rw [← h, l.2] at hy
          cases hy
        · refine absurd h (e.balanced_yield.not_exposed ?_ y)
          rw [before.balanced_yield.nesting_eq, nesting_opening l.2]
          decide
    · rw [List.mem_singleton.1 h.mem, r.2] at hy
      cases hy
  | factor f ih => exact Yard.precedes_mono (by decide) (ih h)
  | product p ih => exact Yard.precedes_mono (by decide) (ih h)
  | mul a o ho b iha ihb | add a o ho b iha ihb =>
    rcases h.of_append with h | h
    · exact iha h
    · rcases h.of_cons with rfl | h
      · simp [Yard.precedes_operator, ho.rank_eq, Level.rank]
      · rw [a.balanced_yield.nesting_eq, o.nesting_eq] at h
        exact Yard.precedes_mono (by decide) (ihb h)

/-- What holds of the tokens behind `x` only if `y` is among them brings `x` out before `y`, unless `x` is an
operator that waits for its right side. -/
theorem sublist_postorder (a : Arrangement l) {P : List Token → Prop} {x y : Token}
    (hP : ∀ ts us, P (ts ++ us) → P ts ∨ y ∈ us) (hnil : ¬P [])
    (hright : ∀ (o : OperatorToken) {l' : Level} (b : Arrangement l'), o.token = x →
      o.operator.rank < l'.rank → ¬P b.yield)
    (hx : x.kind = .number ∨ x.kind = .operator) (hy : y.kind = .number ∨ y.kind = .operator)
    (h : Followed P x a.yield) : [x, y].Sublist a.postorder := by
  induction a with
  | empty => exact absurd h Followed.not_nil
  | number before t ih =>
    rw [postorder, pair_sublist_append_iff]
    rcases h.of_append hP with h | ⟨hxb, hyt⟩ | h
    · exact .inl (ih h)
    · exact .inr (.inl ⟨before.mem_postorder_iff.2 ⟨hxb, hx⟩, hyt⟩)
    · exact absurd h (Followed.not_singleton hnil)
  | group before l e r ihb ihe =>
    have hlx : l.1 ≠ x := by
      rintro rfl
      simp [l.2] at hx
    have hyl : y ≠ l.1 := by
      rintro rfl
      simp [l.2] at hy
    have hyr : y ≠ r.1 := by
      rintro rfl
      simp [r.2] at hy
    rw [postorder, pair_sublist_append_iff]
    rw [yield, List.append_assoc] at h
    rcases h.of_append hP with h | ⟨hxb, hye⟩ | h
    · exact .inl (ihb h)
    · have hye : y ∈ e.yield := by simpa [hyl, hyr] using hye
      exact .inr (.inl ⟨before.mem_postorder_iff.2 ⟨hxb, hx⟩, e.mem_postorder_iff.2 ⟨hye, hy⟩⟩)
    · refine .inr (.inr (ihe ?_))
      rcases (h.of_cons.resolve_left fun h => hlx h.1).of_append hP with h | ⟨-, hr⟩ | h
      · exact h
      · exact absurd (List.mem_singleton.1 hr) hyr
      · exact absurd h (Followed.not_singleton hnil)
  | factor f ih => exact ih h
  | product p ih => exact ih h
  | mul a o ho b iha ihb | add a o ho b iha ihb =>
    rw [postorder, pair_sublist_append_iff, pair_sublist_append_iff]
    rcases h.of_append hP with h | ⟨hxa, hyb⟩ | h
    · exact .inl (.inl (iha h))
    · have hxa := a.mem_postorder_iff.2 ⟨hxa, hx⟩
      rcases List.mem_cons.1 hyb with rfl | hyb
      · exact .inr (.inl ⟨List.mem_append_left _ hxa, List.mem_singleton_self _⟩)
      · exact .inl (.inr (.inl ⟨hxa, b.mem_postorder_iff.2 ⟨hyb, hy⟩⟩))
    · rcases h.of_cons with ⟨ho', hb⟩ | h
      · exact absurd hb (hright o b ho' (by simp [ho.rank_eq, Level.rank]))
      · exact .inl (.inr (.inr (ihb h)))

theorem number_first (a : Arrangement l) {x y : Token} (hx : x.kind = .number)
    (hy : y.kind = .number ∨ y.kind = .operator) (h : Followed (y ∈ ·) x a.yield) :
    [x, y].Sublist a.postorder := by
  refine a.sublist_postorder (fun ts us => List.mem_append.1) (by simp) (fun o _ _ ho _ => ?_) (.inl hx) hy h
  rw [← ho, o.kind_eq] at hx
  cases hx

theorem operator_first (a : Arrangement l) {x y : Token} (hx : x.kind = .operator) (hy : y.kind = .operator)
    (hrank : ∀ rank, Yard.precedes rank y → Yard.precedes rank x)
    (h : Followed (Exposed 0 y) x a.yield) : [x, y].Sublist a.postorder := by
  refine a.sublist_postorder (fun ts us hexposed => hexposed.of_append.imp_right Exposed.mem)
    (fun hexposed => by simpa using hexposed.mem) (fun o l' b ho hlt hexposed => ?_) (.inr hx) (.inr hy) h
  have hprecedes := hrank _ (b.precedes_of_exposed hy hexposed)
  rw [← ho, Yard.precedes_operator, decide_eq_true_eq] at hprecedes
  omega

end Infix.Arrangement

def Token.placed (t : Token) (position : Int) : Token := { t with position }

namespace Rpn

variable {ts us : List Token}

def numbered (ts : List Token) (i : Fin ts.length) : Token := (ts.get i).placed i.val

theorem numbered_injective (ts : List Token) : Function.Injective (numbered ts) := fun i j h => by
  have hposition := congrArg Token.position h
  exact Fin.ext (Int.ofNat.inj hposition)

theorem map_word_ofFn_placed (ts : List Token) (position : Fin ts.length → Int) :
    (List.ofFn fun i => (ts.get i).placed (position i)).map Token.word = ts.map Token.word := by
  conv => rhs; rw [← List.ofFn_get ts, List.map_ofFn]
  rw [List.map_ofFn]
  rfl

theorem exists_places (h : ofTokens ts = .ok us) : ∃ places : List (Fin ts.length),
    ofTokens (List.ofFn (numbered ts)) = .ok (places.map (numbered ts)) ∧
      ∀ position : Fin ts.length → Int, ofTokens (List.ofFn fun i => (ts.get i).placed (position i)) =
        .ok (places.map fun i => (ts.get i).placed (position i)) := by
  obtain ⟨vs, hvs⟩ := exists_ofTokens_of_map_word (map_word_ofFn_placed ts fun i => i.val) h
  have hplaces : ∃ places, List.map (numbered ts) places = vs := by
    obtain ⟨-, a, hyield, rfl⟩ := Infix.ofTokens_eq_ok_iff.1 hvs
    change _ ∈ Set.range (List.map (numbered ts))
    rw [Set.range_list_map]
    intro v hv
    exact List.mem_ofFn.1 (hyield ▸ (a.mem_yield_of_mem_postorder hv).1)
  obtain ⟨places, rfl⟩ := hplaces
  refine ⟨places, hvs, fun position => ?_⟩
  -- A token that has its place for its position can be given any other one.
  let move (t : Token) : Token :=
    if hlt : t.position.toNat < ts.length then t.placed (position ⟨t.position.toNat, hlt⟩) else t
  have hmove (i : Fin ts.length) : move (numbered ts i) = (ts.get i).placed (position i) := by
    have hlt : (numbered ts i).position.toNat < ts.length := i.isLt
    exact dif_pos hlt
  have hword (t : Token) : (move t).word = t.word := by
    unfold move
    split <;> rfl
  have hmap := ofTokens_map hword (List.ofFn (numbered ts))
  rw [show ofTokens (List.ofFn (numbered ts)) = _ from hvs, List.map_ofFn] at hmap
  simpa [Function.comp_def, hmove, Except.map, Except.mapError] using hmap

theorem nesting_take_ofFn_numbered (ts : List Token) (n : Nat) :
    nesting ((List.ofFn (numbered ts)).take n) = nesting (ts.take n) := by
  apply nesting_congr
  rw [List.map_take, List.map_take]
  exact congrArg _ (map_word_ofFn_placed ts fun i => i.val)

theorem exists_ofFn_numbered_eq {i j : Fin ts.length} (hij : i < j) : ∃ before between after,
    List.ofFn (numbered ts) = before ++ numbered ts i :: (between ++ numbered ts j :: after) ∧
      nesting before = nesting (ts.take i) ∧
      nesting (before ++ numbered ts i :: between) = nesting (ts.take j) := by
  have hj : j.val < (List.ofFn (numbered ts)).length := by rw [List.length_ofFn]; exact j.isLt
  obtain ⟨between, after, hdrop, htake⟩ := exists_drop_eq_of_lt hij hj
  rw [List.getElem_ofFn] at hdrop htake
  refine ⟨(List.ofFn (numbered ts)).take i, between, after, ?_, nesting_take_ofFn_numbered ts i, ?_⟩
  · have hi : i.val < (List.ofFn (numbered ts)).length := by rw [List.length_ofFn]; exact i.isLt
    rw [← hdrop]
    nth_rewrite 1 [← List.take_append_drop i (List.ofFn (numbered ts)), List.drop_eq_getElem_cons hi]
    rw [List.getElem_ofFn]
  · rw [← nesting_take_ofFn_numbered ts j, htake]

theorem sublist_of_map_numbered {i j : Fin ts.length} {places : List (Fin ts.length)}
    (h : [numbered ts i, numbered ts j].Sublist (places.map (numbered ts))) : [i, j].Sublist places := by
  obtain ⟨k, hk, hmap⟩ := List.sublist_map_iff.1 h
  obtain rfl : [i, j] = k := (numbered_injective ts).list_map hmap
  exact hk

/-- Conversion gives out the numbers and the operators of a list, each once, and in an order that does not
depend on the positions the tokens carry. Nothing overtakes a number, and an operator is only overtaken by
those that bind more tightly or are nested deeper. -/
theorem ofTokens_places (h : ofTokens ts = .ok us) : ∃ places : List (Fin ts.length),
    us = places.map ts.get ∧
      (∀ position : Fin ts.length → Int, ofTokens (List.ofFn fun i => (ts.get i).placed (position i)) =
        .ok (places.map fun i => (ts.get i).placed (position i))) ∧
      places.Perm ((List.finRange ts.length).filter fun i =>
        (ts.get i).kind = .number ∨ (ts.get i).kind = .operator) ∧
      (∀ i j, i < j → (ts.get i).kind = .number →
        (ts.get j).kind = .number ∨ (ts.get j).kind = .operator → [i, j].Sublist places) ∧
      ∀ (i j : Fin ts.length) (o o' : Operator), i < j →
        (ts.get i).kind = .operator → (ts.get i).text = o.symbol →
        (ts.get j).kind = .operator → (ts.get j).text = o'.symbol →
        o'.rank ≤ o.rank → nesting (ts.take j) ≤ nesting (ts.take i) → [i, j].Sublist places := by
  obtain ⟨places, hnumbered, hposition⟩ := exists_places h
  obtain ⟨-, a, hyield, hpostorder⟩ := Infix.ofTokens_eq_ok_iff.1 hnumbered
  refine ⟨places, ?_, hposition, ?_, ?_, ?_⟩
  · have hget := hposition fun i => (ts.get i).position
    change ofTokens (List.ofFn ts.get) = .ok (places.map ts.get) at hget
    rw [List.ofFn_get, h] at hget
    exact Except.ok.inj hget
  · have hperm := a.postorder_perm
    rw [hpostorder, hyield, List.ofFn_eq_map, List.filter_map,
      List.map_perm_map_iff (numbered_injective ts)] at hperm
    exact hperm
  · intro i j hij hi hj
    obtain ⟨before, between, after, hsplit, -, -⟩ := exists_ofFn_numbered_eq hij
    apply sublist_of_map_numbered
    rw [← hpostorder]
    exact a.number_first hi hj ⟨before, _, hyield.trans hsplit, by simp⟩
  · intro i j o o' hij hi ho hj ho' hrank hnesting
    obtain ⟨before, between, after, hsplit, hbefore, hbetween⟩ := exists_ofFn_numbered_eq hij
    rw [nesting_append, nesting_cons, hbefore] at hbetween
    apply sublist_of_map_numbered
    rw [← hpostorder]
    refine a.operator_first hi hj (fun rank hprecedes => ?_)
      ⟨before, _, hyield.trans hsplit, between, after, rfl, ?_⟩
    · have hx := Yard.precedes_operator ⟨numbered ts i, o, hi, ho⟩ rank
      have hy := Yard.precedes_operator ⟨numbered ts j, o', hj, ho'⟩ rank
      rw [hx, decide_eq_true_eq]
      rw [hy, decide_eq_true_eq] at hprecedes
      exact hprecedes.trans hrank
    · rw [nesting_of_ne (t := numbered ts i) (hi ▸ nofun) (hi ▸ nofun)] at hbetween
      omega

theorem ofTokens_places_difference :
    let ts : List Token :=
      [⟨.number, "1", 0⟩, ⟨.operator, "-", 0⟩, ⟨.number, "2", 0⟩, ⟨.operator, "-", 0⟩, ⟨.number, "3", 0⟩]
    ∃ places : List (Fin 5), ofTokens ts = .ok (places.map ts.get) ∧ [1, 3].Sublist places := by
  intro ts
  have h : ofTokens ts = .ok (([0, 2, 1, 4, 3] : List (Fin 5)).map ts.get) := by decide +kernel
  obtain ⟨places, hus, -, -, -, hoperator⟩ := ofTokens_places h
  exact ⟨places, hus ▸ h, hoperator 1 3 .sub .sub (by decide) rfl rfl rfl rfl (by decide) (by decide)⟩

end Rpn
end InfixCalc
