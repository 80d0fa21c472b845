import BatmanAdv.Packet
import Mathlib.Algebra.GroupWithZero.Nat
import Mathlib.Algebra.BigOperators.Group.List.Basic
import Mathlib.Algebra.Order.BigOperators.Group.List
import Mathlib.Algebra.Order.Ring.Nat
import Mathlib.Tactic.SplitIfs

/-!
# The ring of recent link qualities (`ring_buffer.c`)

A neighbour keeps the last `TQ_GLOBAL_WINDOW_SIZE` link qualities and their average over the
non-zero ones.
-/

namespace BatmanAdv

abbrev TqRecv := Vector Byte tqGlobalWindowSize

def ringBufferSet (lqRecv : TqRecv) (lqIndex value : Byte) : TqRecv × Byte :=
  (lqRecv.setIfInBounds lqIndex.toNat value,
    BitVec.ofNat 8 ((lqIndex.toNat + 1) % tqGlobalWindowSize))

/-- One round of the loop of `ring_buffer_avg`; `count` and `sum` are `uint16_t`. -/
def avgStep (acc : BitVec 16 × BitVec 16) (lq : Byte) : BitVec 16 × BitVec 16 :=
  if lq ≠ 0 then (acc.1 + 1, acc.2 + lq.setWidth 16) else acc

def ringBufferAvg (lqRecv : TqRecv) : Byte :=
  let (count, sum) := lqRecv.toList.foldl avgStep (0, 0)
  if count = 0 then 0 else BitVec.ofNat 8 (sum.toNat / count.toNat)

/-! ## The average -/

def nonzeroValues (l : List Byte) : List ℕ := (l.map BitVec.toNat).filter (· ≠ 0)

theorem sum_nonzeroValues_le {l : List Byte} {bound : ℕ} (h : ∀ lq ∈ l, lq.toNat ≤ bound) :
    (nonzeroValues l).sum ≤ (nonzeroValues l).length * bound := by
  apply List.sum_le_card_nsmul
  intro x hx
  obtain ⟨lq, hlq, rfl⟩ := List.mem_map.mp (List.mem_filter.mp hx).1
  exact h lq hlq

theorem nonzeroValues_perm {l l' : List Byte} (h : l.Perm l') : (nonzeroValues l).Perm (nonzeroValues l') :=
  (h.map BitVec.toNat).filter _

theorem le_sum_div_length {l : List ℕ} {lo : ℕ} (hne : l ≠ []) (h : ∀ x ∈ l, lo ≤ x) :
    lo ≤ l.sum / l.length := by
  rw [Nat.le_div_iff_mul_le (List.length_pos_of_ne_nil hne), Nat.mul_comm]
  exact List.card_nsmul_le_sum l lo h

theorem sum_div_length_le {l : List ℕ} {hi : ℕ} (h : ∀ x ∈ l, x ≤ hi) : l.sum / l.length ≤ hi :=
  Nat.div_le_of_le_mul (List.sum_le_card_nsmul l hi h)

/-- The accumulators of `ring_buffer_avg` do not overflow. -/
theorem foldl_avgStep (l : List Byte) (count sum : BitVec 16)
    (hcount : count.toNat + l.length < 65536) (hsum : sum.toNat + 255 * l.length < 65536) :
    (l.foldl avgStep (count, sum)).1.toNat = count.toNat + (nonzeroValues l).length ∧
      (l.foldl avgStep (count, sum)).2.toNat = sum.toNat + (nonzeroValues l).sum := by
  induction l generalizing count sum with
  | nil => simp [nonzeroValues]
  | cons lq l ih =>
    rw [List.length_cons] at hcount hsum
    have hlq := lq.isLt
    by_cases h0 : lq = 0
    · have h := ih count sum (by omega) (by omega)
      simpa [avgStep, nonzeroValues, h0] using h
    · have hne : lq.toNat ≠ 0 := fun h => h0 (BitVec.eq_of_toNat_eq h)
      have hc : (count + 1).toNat = count.toNat + 1 := by
        rw [BitVec.toNat_add, show BitVec.toNat (1 : BitVec 16) = 1 from rfl]; omega
      have hs : (sum + lq.setWidth 16).toNat = sum.toNat + lq.toNat := by
        rw [BitVec.toNat_add, BitVec.toNat_setWidth]; omega
      have h := ih (count + 1) (sum + lq.setWidth 16) (by omega) (by omega)
      rw [hc, hs] at h
      simp only [List.foldl_cons, avgStep, ne_eq, h0, not_false_eq_true, if_true]
      rw [h.1, h.2]
      unfold nonzeroValues
      simp [hne]
      omega

theorem ringBufferAvg_toNat (lqRecv : TqRecv) :
    (ringBufferAvg lqRecv).toNat =
      (nonzeroValues lqRecv.toList).sum / (nonzeroValues lqRecv.toList).length := by
  have hlen : lqRecv.toList.length = 10 := lqRecv.length_toList
  obtain ⟨hc, hs⟩ := foldl_avgStep lqRecv.toList 0 0 (by rw [hlen]; simp) (by rw [hlen]; simp)
  have hbound : (nonzeroValues lqRecv.toList).sum ≤ (nonzeroValues lqRecv.toList).length * 255 :=
    sum_nonzeroValues_le fun lq _ => Nat.le_of_lt_succ lq.isLt
  unfold ringBufferAvg
  generalize lqRecv.toList.foldl avgStep (0, 0) = acc at hc hs
  obtain ⟨count, sum⟩ := acc
  simp only [BitVec.ofNat_eq_ofNat, BitVec.toNat_ofNat, Nat.zero_mod, Nat.zero_add] at hc hs
  show BitVec.toNat (if count = 0 then 0 else BitVec.ofNat 8 (sum.toNat / count.toNat)) = _
  split_ifs with h0
  · rw [h0] at hc
    rw [← hc]
    simp
  · rw [← hc, ← hs, BitVec.toNat_ofNat]
    rw [← hc, ← hs] at hbound
    have hpos : 0 < count.toNat := Nat.pos_of_ne_zero fun h => h0 (BitVec.eq_of_toNat_eq h)
    have hdiv := Nat.div_le_of_le_mul hbound
    exact Nat.mod_eq_of_lt (by omega)

theorem ringBufferAvg_le {lqRecv : TqRecv} {bound : ℕ} (h : ∀ lq ∈ lqRecv.toList, lq.toNat ≤ bound) :
    (ringBufferAvg lqRecv).toNat ≤ bound := by
  rw [ringBufferAvg_toNat]
  exact Nat.div_le_of_le_mul (sum_nonzeroValues_le h)

theorem length_nonzeroValues_le (l : List Byte) : (nonzeroValues l).length ≤ (nonzeroValues l).sum := by
  have hpos : ∀ x ∈ nonzeroValues l, 1 ≤ x := by
    intro x hx
    have hne : x ≠ 0 := by simpa using (List.mem_filter.mp hx).2
    omega
  simpa using List.card_nsmul_le_sum (nonzeroValues l) 1 hpos

theorem ringBufferAvg_pos {lqRecv : TqRecv} {lq : Byte} (hmem : lq ∈ lqRecv.toList) (hlq : 1 ≤ lq.toNat) :
    1 ≤ (ringBufferAvg lqRecv).toNat := by
  rw [ringBufferAvg_toNat]
  have hvalue : lq.toNat ∈ nonzeroValues lqRecv.toList :=
    List.mem_filter.mpr ⟨List.mem_map_of_mem hmem, by simp; omega⟩
  exact Nat.div_pos (length_nonzeroValues_le _) (List.length_pos_of_mem hvalue)

theorem value_mem_ringBufferSet (lqRecv : TqRecv) {lqIndex : Byte} (value : Byte)
    (h : lqIndex.toNat < tqGlobalWindowSize) : value ∈ (ringBufferSet lqRecv lqIndex value).1.toList := by
  unfold ringBufferSet
  rw [Vector.toList_setIfInBounds]
  exact List.mem_set (by rw [lqRecv.length_toList]; exact h) _

theorem ringBufferSet_index (lqRecv : TqRecv) (lqIndex value : Byte) :
    (ringBufferSet lqRecv lqIndex value).2.toNat < tqGlobalWindowSize := by
  have hmod : (lqIndex.toNat + 1) % tqGlobalWindowSize < tqGlobalWindowSize := Nat.mod_lt _ (by decide)
  unfold ringBufferSet
  rw [BitVec.toNat_ofNat]
  exact Nat.lt_of_le_of_lt (Nat.mod_le _ _) hmod

theorem mem_ringBufferSet {lqRecv : TqRecv} {lqIndex value lq : Byte}
    (h : lq ∈ (ringBufferSet lqRecv lqIndex value).1.toList) : lq ∈ lqRecv.toList ∨ lq = value := by
  unfold ringBufferSet at h
  rw [Vector.toList_setIfInBounds] at h
  exact List.mem_or_eq_of_mem_set h

end BatmanAdv
