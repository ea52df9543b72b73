import InfixCalc.Proofs.Token.Spelling

namespace InfixCalc

open Text Decimal

namespace Token

def Straddles (t : Token) (i : Int) : Prop := t.position < i ∧ i < t.stop

theorem Straddles.covers {t : Token} {i : Int} (h : t.Straddles i) : t.Covers i := ⟨h.1.le, h.2⟩

def moved (n : Nat) (t : Token) : Token := { t with position := t.position + n }

theorem map_word_moved (n : Nat) (ts : List Token) : (ts.map (moved n)).map word = ts.map word := by
  rw [List.map_map]
  rfl

theorem scanFrom_moved (covered position n : Nat) (cs : List Char) :
    scanFrom covered (position + n) cs = (scanFrom covered position cs).map (moved n) := by
  induction cs generalizing covered position with
  | nil => rfl
  | cons c cs ih =>
    have hnext : position + n + 1 = position + 1 + n := by omega
    cases covered with
    | succ k => rw [scanFrom, scanFrom, hnext, ih]
    | zero =>
      rw [scanFrom, scanFrom, hnext]
      split
      · exact ih 0 _
      · simp [ih, moved]

theorem map_word_scanFrom_eq (position : Nat) (cs : List Char) :
    (scanFrom 0 position cs).map word = (scanFrom 0 0 cs).map word := by
  rw [← Nat.zero_add position, scanFrom_moved, map_word_moved]

theorem within_of_mem_scanFrom {position : Nat} {cs : List Char} {t : Token}
    (h : t ∈ scanFrom 0 position cs) : position ≤ t.position ∧ t.stop ≤ position + cs.length := by
  obtain ⟨before, after, hcs, hpos⟩ := ((Tokenization.of_scanFrom position cs).fits t h).slice
  have hlen := congrArg List.length hcs
  simp only [List.length_append, String.length_toList] at hlen
  rw [stop]
  omega

theorem Kind.extent_append_of_le {c : Char} (hc : isBlank c = false) {cs ds : List Char}
    (h : (ofChar c).extent (cs ++ ds) ≤ cs.length) :
    (ofChar c).extent (cs ++ ds) = (ofChar c).extent cs := by
  have hwhole := shape_take_extent hc (cs ++ ds)
  rw [List.take_append_of_le_length h] at hwhole
  have hpart := shape_take_extent hc cs
  apply le_antisymm
  · have hle := hwhole.length_le_extent (List.take_prefix _ cs)
    rwa [List.length_take_of_le h] at hle
  · have hle := hpart.length_le_extent ((List.take_prefix _ cs).trans (List.prefix_append cs ds))
    rwa [List.length_take_of_le (extent_le _ _)] at hle

variable {position border : Nat} {cs ds : List Char}

theorem scanFrom_append (hborder : position + cs.length = border)
    (h : ∀ t ∈ scanFrom 0 position (cs ++ ds), ¬t.Straddles border) :
    scanFrom 0 position (cs ++ ds) = scanFrom 0 position cs ++ scanFrom 0 border ds := by
  induction position, cs using scan_induction with
  | nil position =>
    rw [List.length_nil] at hborder
    rw [← hborder]
    rfl
  | blank position c cs hc ih =>
    rw [List.length_cons] at hborder
    rw [List.cons_append, scanFrom_cons_of_isBlank hc] at h ⊢
    rw [scanFrom_cons_of_isBlank hc]
    exact ih (by omega) h
  | token position c cs hc ih =>
    rw [List.length_cons] at hborder
    rw [List.cons_append, scanFrom_cons hc, List.forall_mem_cons] at h
    obtain ⟨hfirst, h⟩ := h
    have hle : (Kind.ofChar c).extent (cs ++ ds) ≤ cs.length := by
      by_contra hlt
      have hmax := (Kind.ofChar c).extent_le (cs ++ ds)
      refine hfirst ⟨?_, ?_⟩
      · simp; omega
      · rw [stop, String.length_ofList, List.length_cons, List.length_take_of_le hmax]
        simp; omega
    have hextent := Kind.extent_append_of_le hc hle
    rw [hextent] at hle h
    rw [List.drop_append_of_le_length hle] at h
    rw [List.cons_append, scanFrom_cons hc, scanFrom_cons hc, hextent,
      List.take_append_of_le_length hle, List.drop_append_of_le_length hle, List.cons_append]
    congr 1
    exact ih (by rw [List.length_drop]; omega) h

theorem not_straddles_of_map_word (hborder : position + cs.length = border)
    (h : (scanFrom 0 position (cs ++ ds)).map word =
      (scanFrom 0 position cs).map word ++ (scanFrom 0 border ds).map word) :
    ∀ t ∈ scanFrom 0 position (cs ++ ds), ¬t.Straddles border := by
  induction position, cs using scan_induction with
  | nil position =>
    intro t ht hst
    have := (within_of_mem_scanFrom ht).1
    have := hst.1
    rw [List.length_nil] at hborder
    omega
  | blank position c cs hc ih =>
    rw [List.length_cons] at hborder
    rw [List.cons_append, scanFrom_cons_of_isBlank hc] at h ⊢
    rw [scanFrom_cons_of_isBlank hc] at h
    exact ih (by omega) h
  | token position c cs hc ih =>
    rw [List.length_cons] at hborder
    rw [List.cons_append, scanFrom_cons hc] at h ⊢
    rw [scanFrom_cons hc, List.map_cons, List.map_cons, List.cons_append, List.cons.injEq] at h
    obtain ⟨hfirst, h⟩ := h
    have hmax := (Kind.ofChar c).extent_le (cs ++ ds)
    have hle : (Kind.ofChar c).extent (cs ++ ds) ≤ cs.length := by
      have hlen := congrArg (·.2.length) hfirst
      simp only [word, String.length_ofList, List.length_cons, List.length_take_of_le hmax,
        List.length_take_of_le ((Kind.ofChar c).extent_le cs)] at hlen
      have := (Kind.ofChar c).extent_le cs
      omega
    have hextent := Kind.extent_append_of_le hc hle
    rw [hextent] at hle h ⊢
    rw [List.drop_append_of_le_length hle] at h ⊢
    rw [List.forall_mem_cons]
    refine ⟨fun hst => ?_, ih (by rw [List.length_drop]; omega) h⟩
    have hlt := hst.2
    rw [stop, String.length_ofList, List.length_cons, List.take_append_of_le_length hle,
      List.length_take_of_le hle] at hlt
    simp at hlt
    omega

theorem not_straddles_of_isBlank {w : List Char} (hne : w ≠ []) (hw : ∀ c ∈ w, isBlank c) :
    ∀ t ∈ scanFrom 0 0 (cs ++ (w ++ ds)), ¬t.Straddles cs.length := by
  intro t ht hst
  obtain ⟨c, w, rfl⟩ := List.exists_cons_of_ne_nil hne
  have hcovered := (Tokenization.of_scanFrom 0 (cs ++ c :: (w ++ ds))).covered cs c (w ++ ds) rfl
  exact hcovered.1 ⟨t, ht, by simpa using hst.covers⟩ (hw c (by simp))

theorem map_word_ofString_congr {s s' : String} (h : (scan s).map word = (scan s').map word)
    (strict : Bool) : (ofString strict s).map word = (ofString strict s').map word := by
  have key (ts : List Token) :
      (ts.filter (·.kind ≠ .stray)).map word = (ts.map word).filter (·.1 ≠ .stray) := by
    rw [List.filter_map]
    rfl
  cases strict with
  | true => exact h
  | false =>
    change ((scan s).filter _).map word = ((scan s').filter _).map word
    rw [key, key, h]

variable {a w b : String}

theorem scan_append_eq_scanFrom (a b : String) :
    scan (a ++ b) = scanFrom 0 0 (a.toList ++ b.toList) := by
  rw [scan, String.toList_append]

theorem scan_append (h : ∀ t ∈ scan (a ++ b), ¬t.Straddles a.length) :
    scan (a ++ b) = scan a ++ scanFrom 0 a.length b.toList := by
  rw [scan_append_eq_scanFrom] at h ⊢
  exact scanFrom_append (by rw [Nat.zero_add, String.length_toList]) h

theorem scan_insert (hne : w ≠ "") (hw : ∀ c ∈ w.toList, isBlank c) :
    scan (a ++ w ++ b) = scan a ++ scanFrom 0 (a.length + w.length) b.toList := by
  have hne : w.toList ≠ [] := fun h => hne (String.toList_eq_nil_iff.1 h)
  have hblank : ∀ t ∈ scanFrom 0 0 (a.toList ++ (w.toList ++ b.toList)), ¬t.Straddles a.toList.length :=
    not_straddles_of_isBlank hne hw
  rw [String.append_assoc, scan_append_eq_scanFrom, String.toList_append,
    scanFrom_append (Nat.zero_add _) hblank, scanFrom_gap hw, String.length_toList, String.length_toList]
  rfl

theorem map_word_scan_insert_iff (hne : w ≠ "") (hw : ∀ c ∈ w.toList, isBlank c) :
    (scan (a ++ w ++ b)).map word = (scan (a ++ b)).map word ↔
      ∀ t ∈ scan (a ++ b), ¬t.Straddles a.length := by
  have hinsert : (scan (a ++ w ++ b)).map word =
      (scan a).map word ++ (scanFrom 0 a.length b.toList).map word := by
    rw [scan_insert hne hw, List.map_append, map_word_scanFrom_eq, map_word_scanFrom_eq a.length]
  constructor
  · intro h
    rw [hinsert] at h
    rw [scan_append_eq_scanFrom] at h ⊢
    exact not_straddles_of_map_word (by rw [Nat.zero_add, String.length_toList]) h.symm
  · intro h
    rw [hinsert, scan_append h, List.map_append]

theorem scan_insert_eq_map (hne : w ≠ "") (hw : ∀ c ∈ w.toList, isBlank c)
    (h : ∀ t ∈ scan (a ++ b), ¬t.Straddles a.length) :
    scan (a ++ w ++ b) =
      (scan (a ++ b)).map fun t : Token => if a.length ≤ t.position then t.moved w.length else t := by
  have hbefore : ∀ t ∈ scan a, (if a.length ≤ t.position then t.moved w.length else t) = t := by
    intro t ht
    have hstop := (within_of_mem_scanFrom ht).2
    have hlt := ((Tokenization.of_scanFrom 0 a.toList).fits t ht).position_lt_stop
    rw [String.length_toList] at hstop
    exact if_neg (by omega)
  have hbehind : ∀ t ∈ scanFrom 0 a.length b.toList,
      (if a.length ≤ t.position then t.moved w.length else t) = t.moved w.length := fun t ht =>
    if_pos (within_of_mem_scanFrom ht).1
  rw [scan_insert hne hw, scan_append h, scanFrom_moved, List.map_append, List.map_congr_left hbefore,
    List.map_congr_left hbehind, List.map_id']

end Token
end InfixCalc
