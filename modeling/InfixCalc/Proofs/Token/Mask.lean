import InfixCalc.Proofs.Token.Boundary
import InfixCalc.Proofs.Token.Skip
import Mathlib.Data.List.Pairwise

namespace InfixCalc.Token

open Text

def Dropped (ts : List Token) (i : Int) : Prop := ∃ t ∈ ts, t.kind = .stray ∧ t.Covers i

instance (ts : List Token) (i : Int) : Decidable (Dropped ts i) := by
  unfold Dropped Covers
  infer_instance

def maskFrom (ts : List Token) (position : Nat) (cs : List Char) : List Char :=
  cs.mapIdx fun i c => if Dropped ts (position + i) then ' ' else c

/-- A text in which each character of a stray token is replaced by a blank. -/
def mask (s : String) : String := String.ofList (maskFrom (ofString true s) 0 s.toList)

theorem dropped_cons_iff {t : Token} {ts : List Token} {i : Int} :
    Dropped (t :: ts) i ↔ (t.kind = .stray ∧ t.Covers i) ∨ Dropped ts i := by
  simp [Dropped]

theorem not_dropped_of_covers {position : Nat} {cs : List Char} {t : Token}
    (ht : t ∈ keptFrom position cs) {i : Int} (hcovers : t.Covers i) :
    ¬Dropped (scanFrom 0 position cs) i := by
  rintro ⟨u, hu, hstray, hcovers'⟩
  obtain ⟨ht, hkind⟩ := List.mem_filter.1 ht
  have hne : t ≠ u := by
    rintro rfl
    simp [hstray] at hkind
  have hordered := (Tokenization.of_scanFrom position cs).ordered
  have hapart : (scanFrom 0 position cs).Pairwise fun t u => ¬(t.Covers i ∧ u.Covers i) := by
    refine hordered.imp fun {t u} hle hboth => ?_
    have := hboth.1.2
    have := hboth.2.1
    omega
  have hsymm : Std.Symm fun t u : Token => ¬(t.Covers i ∧ u.Covers i) := ⟨fun _ _ h h' => h h'.symm⟩
  exact hapart.forall ht hu hne ⟨hcovers, hcovers'⟩

section

variable {ts us : List Token} {position : Nat} {cs ds x : List Char}

@[simp] theorem length_maskFrom : (maskFrom ts position cs).length = cs.length := by
  rw [maskFrom, List.length_mapIdx]

theorem getElem_maskFrom {i : Nat} (hi : i < (maskFrom ts position cs).length) (hi' : i < cs.length) :
    (maskFrom ts position cs)[i] = if Dropped ts (position + i) then ' ' else cs[i] := by
  simp [maskFrom]

theorem maskFrom_append : maskFrom ts position (cs ++ ds) =
    maskFrom ts position cs ++ maskFrom ts (position + cs.length) ds := by
  have hplace (i : Nat) : (position : Int) + (i + cs.length : Nat) = (position + cs.length : Nat) + i := by
    omega
  simp only [maskFrom, List.mapIdx_append, hplace]

theorem maskFrom_congr (h : ∀ i < cs.length, Dropped ts (position + i) ↔ Dropped us (position + i)) :
    maskFrom ts position cs = maskFrom us position cs := by
  refine List.ext_getElem (by simp) fun i hi hi' => ?_
  have hlt : i < cs.length := by rwa [length_maskFrom] at hi
  rw [getElem_maskFrom hi hlt, getElem_maskFrom hi' hlt]
  simp only [h i hlt]

theorem maskFrom_eq_self (h : ∀ i < cs.length, ¬Dropped ts (position + i)) :
    maskFrom ts position cs = cs := by
  refine List.ext_getElem (by simp) fun i hi hi' => ?_
  rw [getElem_maskFrom hi hi', if_neg (h i hi')]

theorem maskFrom_eq_replicate (h : ∀ i < cs.length, Dropped ts (position + i)) :
    maskFrom ts position cs = List.replicate cs.length ' ' := by
  refine List.ext_getElem (by simp) fun i hi _ => ?_
  have hlt : i < cs.length := by rwa [length_maskFrom] at hi
  rw [getElem_maskFrom hi hlt, if_pos (h i hlt), List.getElem_replicate]

theorem prefix_of_prefix_maskFrom (h : x <+: maskFrom ts position cs)
    (hx : ∀ c ∈ x, isBlank c = false) : x <+: cs := by
  rw [List.prefix_iff_getElem] at h ⊢
  obtain ⟨hlen, h⟩ := h
  have hle : x.length ≤ cs.length := by rwa [length_maskFrom] at hlen
  refine ⟨hle, fun i hi => ?_⟩
  have hmask := h i hi
  rw [getElem_maskFrom (hi.trans_le hlen) (hi.trans_le hle)] at hmask
  split at hmask
  · have hblank := hx x[i] (List.getElem_mem hi)
    rw [hmask] at hblank
    cases hblank
  · exact hmask

end

theorem length_mask (s : String) : (mask s).length = s.length := by
  rw [mask, String.length_ofList, length_maskFrom, String.length_toList]

theorem Kind.Shape.extent_append_maskFrom {k : Kind} {c : Char} {w cs : List Char} (h : k.Shape (c :: w))
    (hextent : k.extent (w ++ cs) = w.length) (ts : List Token) (position : Nat) :
    k.extent (w ++ maskFrom ts position cs) = w.length := by
  refine h.extent_append_of_forall fun x hx hlonger => ?_
  have hx : x <+: cs := prefix_of_prefix_maskFrom hx fun d hd => hlonger.isBlank_eq_false (by simp [hd])
  have hle := hlonger.length_le_extent ((List.prefix_append_right_inj w).2 hx)
  rw [hextent, List.length_append] at hle
  exact List.eq_nil_of_length_eq_zero (by omega)

theorem maskFrom_cons_append {t : Token} {position : Nat} (hposition : t.position = position)
    {us : List Token} (hus : ∀ u ∈ us, t.stop ≤ u.position) (cs : List Char) :
    maskFrom (t :: us) position (t.text.toList ++ cs) =
      (if t.kind = .stray then List.replicate t.text.length ' ' else t.text.toList) ++
        maskFrom us (position + t.text.length) cs := by
  rw [← String.length_toList]
  have hstop : t.stop = position + t.text.toList.length := by rw [stop, hposition, String.length_toList]
  have hfirst (i : Nat) (hi : i < t.text.toList.length) :
      Dropped (t :: us) (position + i) ↔ t.kind = .stray := by
    have hcovers : t.Covers (position + i) := ⟨by omega, by omega⟩
    have hbehind : ¬Dropped us (position + i) := by
      rintro ⟨u, hu, -, hcovers⟩
      have := hus u hu
      have := hcovers.1
      omega
    simp [dropped_cons_iff, hcovers, hbehind]
  have hpast (i : Nat) : Dropped (t :: us) ((position + t.text.toList.length : Nat) + i) ↔
      Dropped us ((position + t.text.toList.length : Nat) + i) := by
    have hcovers : ¬t.Covers ((position + t.text.toList.length : Nat) + i) := fun h => by
      have := h.2
      omega
    rw [dropped_cons_iff, or_iff_right fun h => hcovers h.2]
  rw [maskFrom_append, maskFrom_congr fun i _ => hpast i]
  congr 1
  split
  · next hstray => exact maskFrom_eq_replicate fun i hi => (hfirst i hi).2 hstray
  · next hstray => exact maskFrom_eq_self fun i hi => mt (hfirst i hi).1 hstray

theorem scanFrom_maskFrom (position : Nat) (cs : List Char) :
    scanFrom 0 position (maskFrom (scanFrom 0 position cs) position cs) = keptFrom position cs := by
  induction position, cs using written_induction with
  | nil position => rfl
  | blank position c cs hc ih =>
    have hfirst : ¬Dropped (scanFrom 0 (position + 1) cs) position := by
      rintro ⟨t, ht, -, hcovers⟩
      have := (within_of_mem_scanFrom ht).1
      have := hcovers.1
      omega
    have hmask : maskFrom (scanFrom 0 (position + 1) cs) position (c :: cs) =
        c :: maskFrom (scanFrom 0 (position + 1) cs) (position + 1) cs := by
      rw [← List.singleton_append, maskFrom_append, maskFrom_eq_self (by simpa using hfirst)]
      rfl
    rw [scanFrom_cons_of_isBlank hc, hmask, scanFrom_cons_of_isBlank hc, ih,
      keptFrom_cons_of_isSkipped (by simp [isSkipped, hc])]
  | token t position cs hposition ht hend ih =>
    have hbehind : ∀ u ∈ scanFrom 0 (position + t.text.length) cs, t.stop ≤ u.position := fun u hu => by
      have := (within_of_mem_scanFrom hu).1
      rw [stop]
      omega
    rw [keptFrom, ht.scanFrom_append_of_extent hend, ← hposition, maskFrom_cons_append hposition hbehind]
    split
    · next hstray =>
      have hgap : ∀ c ∈ List.replicate t.text.length ' ', isBlank c := fun c hc => by
        rw [List.eq_of_mem_replicate hc]
        rfl
      rw [scanFrom_gap hgap, List.length_replicate, ih, List.filter_cons_of_neg (by simpa using hstray)]
      rfl
    · next hkept =>
      have hend' : ∀ c w, t.text.toList = c :: w → t.kind.extent
          (w ++ maskFrom (scanFrom 0 (position + t.text.length) cs) (position + t.text.length) cs) =
          w.length := fun c w htext => by
        have hshape : t.kind.Shape (c :: w) := htext ▸ ht
        exact hshape.extent_append_maskFrom (hend c w htext) _ _
      rw [ht.scanFrom_append_of_extent hend', ih, ← hposition,
        List.filter_cons_of_pos (by simpa using hkept)]
      rfl

theorem ofString_mask (s : String) : ofString true (mask s) = ofString false s := by
  change scanFrom 0 0 (String.ofList _).toList = keptFrom 0 s.toList
  rw [String.toList_ofList]
  exact scanFrom_maskFrom 0 s.toList

end InfixCalc.Token
