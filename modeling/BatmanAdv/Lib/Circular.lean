import Mathlib.Data.List.Rotate

/-!
# Circular buffers

A buffer of `n` places is written at an index that goes around. Read from there on, it holds the last `n`
values that were written, the oldest first, behind what it was filled with where there are fewer.
-/

namespace Circular

variable {α : Type*} {n i : ℕ} {fill : α} {buf l : List α}

/-- The last `n` values of `l`, after `fill` where there are fewer. -/
def recent (n : ℕ) (fill : α) (l : List α) : List α :=
  List.replicate (n - l.length) fill ++ l.drop (l.length - n)

theorem recent_nil (n : ℕ) (fill : α) : recent n fill [] = List.replicate n fill := by
  simp [recent]

/-- A new value takes the place of the oldest one. -/
theorem recent_concat (hn : 0 < n) (fill : α) (l : List α) (a : α) :
    recent n fill (l ++ [a]) = (recent n fill l).tail ++ [a] := by
  unfold recent
  rw [List.length_append, List.length_singleton]
  by_cases hfull : n ≤ l.length
  · have hskip : l.length + 1 - n = l.length - n + 1 := by omega
    have hle : l.length - n + 1 ≤ l.length := by omega
    have hnone : n - (l.length + 1) = 0 := by omega
    rw [hskip, List.drop_append_of_le_length hle, hnone, Nat.sub_eq_zero_of_le hfull]
    simp
  · have hmore : n - l.length = n - (l.length + 1) + 1 := by omega
    have hskip : l.length + 1 - n = 0 := by omega
    have hskip' : l.length - n = 0 := by omega
    rw [hskip, hskip', hmore, List.replicate_succ]
    simp

/-- The buffer holds the last values of `l`, and is written at `i` next. -/
structure Holds (buf : List α) (i n : ℕ) (fill : α) (l : List α) : Prop where
  length : buf.length = n
  index : i = l.length % n
  rotate : buf.rotate i = recent n fill l

namespace Holds

theorem new (n : ℕ) (fill : α) : Holds (List.replicate n fill) 0 n fill [] := by
  refine ⟨List.length_replicate, (Nat.zero_mod n).symm, ?_⟩
  rw [List.rotate_zero, recent_nil]

theorem index_lt (h : Holds buf i n fill l) (hn : 0 < n) : i < n := by
  rw [h.index]
  exact Nat.mod_lt _ hn

/-- The order apart, the buffer is what it holds. -/
theorem perm (h : Holds buf i n fill l) : buf.Perm (recent n fill l) := by
  rw [← h.rotate]
  exact (List.rotate_perm buf i).symm

/-- **A write** at the index, which then goes on. -/
theorem set (h : Holds buf i n fill l) (hn : 0 < n) (a : α) :
    Holds (buf.set i a) ((i + 1) % n) n fill (l ++ [a]) := by
  have hlt : i < buf.length := h.length ▸ h.index_lt hn
  refine ⟨by rw [List.length_set, h.length], ?_, ?_⟩
  · rw [h.index, Nat.mod_add_mod, List.length_append, List.length_singleton]
  · obtain ⟨pre, x, post, rfl, rfl⟩ : ∃ pre x post, buf = pre ++ x :: post ∧ pre.length = i :=
      ⟨buf.take i, buf[i], buf.drop (i + 1), by simp, by simp; omega⟩
    have hset : (pre ++ x :: post).set pre.length a = pre ++ [a] ++ post := by simp
    have hlen : (pre ++ [a] ++ post).length = n := by
      rw [← hset, List.length_set, h.length]
    have hold := h.rotate
    rw [List.rotate_append_length_eq] at hold
    rw [hset, ← hlen, List.rotate_mod, hlen, recent_concat hn, ← hold]
    have hend : pre.length + 1 = (pre ++ [a]).length := by simp
    rw [hend, List.rotate_append_length_eq]
    simp

end Holds

end Circular
