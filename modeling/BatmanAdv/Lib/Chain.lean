import Mathlib.Data.List.Nodup
import Mathlib.Logic.Function.Basic

/-!
# Singly linked chains in memory

Cells with a `next` pointer, at addresses that are allocated and freed. `Seg cell p l q` says that from
`p` the pointers lead through the cells of `l`, an address and a datum each, to `q`; a null-terminated
list is a segment to `none`. Writing to a cell changes the segments through it, and no others.
-/

namespace Linked

variable {α : Type*}

structure Cell (α : Type*) where
  data : α
  next : Option ℕ

/-- The live cells; there are finitely many, none of them from `brk` on. -/
structure Mem (α : Type*) where
  cell : ℕ → Option (Cell α)
  brk : ℕ
  cell_of_brk_le : ∀ a, brk ≤ a → cell a = none

namespace Mem

def empty : Mem α := ⟨fun _ => none, 0, fun _ _ => rfl⟩

def write (m : Mem α) (a : ℕ) (c : Cell α) : Mem α where
  cell := Function.update m.cell a (some c)
  brk := max m.brk (a + 1)
  cell_of_brk_le b hb := by
    rw [Function.update_of_ne (by omega)]
    exact m.cell_of_brk_le b (by omega)

def free (m : Mem α) (a : ℕ) : Mem α where
  cell := Function.update m.cell a none
  brk := m.brk
  cell_of_brk_le b hb := by
    by_cases hba : b = a
    · rw [hba, Function.update_self]
    · rw [Function.update_of_ne hba]
      exact m.cell_of_brk_le b hb

/-- A write to the `next` of a live cell. -/
def setNext (m : Mem α) (a : ℕ) (next : Option ℕ) : Option (Mem α) :=
  (m.cell a).map fun c => m.write a ⟨c.data, next⟩

@[simp] theorem cell_write (m : Mem α) (a : ℕ) (c : Cell α) :
    (m.write a c).cell = Function.update m.cell a (some c) := rfl

@[simp] theorem cell_free (m : Mem α) (a : ℕ) : (m.free a).cell = Function.update m.cell a none := rfl

theorem setNext_of_cell {m : Mem α} {a : ℕ} {c : Cell α} (h : m.cell a = some c) (next : Option ℕ) :
    m.setNext a next = some (m.write a ⟨c.data, next⟩) := by
  unfold setNext
  rw [h]
  rfl

end Mem

/-- An allocator: it never hands out the address of a live cell. -/
structure Malloc (α : Type*) where
  addr : Mem α → Option ℕ
  fresh : ∀ m a, addr m = some a → m.cell a = none

/-- The allocator that always takes the first address above all live cells. -/
def Malloc.bump : Malloc α where
  addr m := some m.brk
  fresh m a h := by
    obtain rfl := Option.some.inj h
    exact m.cell_of_brk_le _ (Nat.le_refl _)

/-! ## Segments -/

/-- From `p` through the cells of `l` to `q`. -/
def Seg (cell : ℕ → Option (Cell α)) (p : Option ℕ) : List (ℕ × α) → Option ℕ → Prop
  | [], q => p = q
  | x :: l, q => p = some x.1 ∧ ∃ next, cell x.1 = some ⟨x.2, next⟩ ∧ Seg cell next l q

variable {cell cell' : ℕ → Option (Cell α)} {p q : Option ℕ} {l l' : List (ℕ × α)} {x y : ℕ × α}
  {a : ℕ}

@[simp] theorem seg_nil : Seg cell p [] q ↔ p = q := Iff.rfl

@[simp] theorem seg_cons :
    Seg cell p (x :: l) q ↔ p = some x.1 ∧ ∃ next, cell x.1 = some ⟨x.2, next⟩ ∧ Seg cell next l q :=
  Iff.rfl

theorem seg_append : Seg cell p (l ++ l') q ↔ ∃ r, Seg cell p l r ∧ Seg cell r l' q := by
  induction l generalizing p with
  | nil => simp
  | cons x l ih =>
    simp only [List.cons_append, seg_cons, ih]
    constructor
    · rintro ⟨hp, next, hx, r, hl, hl'⟩
      exact ⟨r, ⟨hp, next, hx, hl⟩, hl'⟩
    · rintro ⟨r, ⟨hp, next, hx, hl⟩, hl'⟩
      exact ⟨hp, next, hx, r, hl, hl'⟩

theorem Seg.congr (h : Seg cell p l q) (heq : ∀ x ∈ l, cell' x.1 = cell x.1) : Seg cell' p l q := by
  induction l generalizing p with
  | nil => exact h
  | cons x l ih =>
    obtain ⟨hp, next, hx, hl⟩ := h
    refine ⟨hp, next, ?_, ih hl fun y hy => heq y (List.mem_cons_of_mem _ hy)⟩
    rw [heq x List.mem_cons_self]
    exact hx

theorem Seg.update (h : Seg cell p l q) (ha : a ∉ l.map Prod.fst) (c : Option (Cell α)) :
    Seg (Function.update cell a c) p l q := by
  apply h.congr
  intro x hx
  apply Function.update_of_ne
  rintro rfl
  exact ha (List.mem_map_of_mem hx)

theorem Seg.live (h : Seg cell p l q) (hx : x ∈ l) : ∃ next, cell x.1 = some ⟨x.2, next⟩ := by
  induction l generalizing p with
  | nil => exact absurd hx List.not_mem_nil
  | cons y l ih =>
    obtain ⟨_, next, hy, hl⟩ := h
    rcases List.mem_cons.mp hx with rfl | hx
    · exact ⟨next, hy⟩
    · exact ih hl hx

theorem Seg.head (h : Seg cell p l none) : p = l.head?.map Prod.fst := by
  cases l with
  | nil => exact h
  | cons x l => exact h.1

theorem Seg.next (h : Seg cell p (l ++ x :: l') none) :
    cell x.1 = some ⟨x.2, l'.head?.map Prod.fst⟩ := by
  obtain ⟨_, _, _, next, hx, hrest⟩ := seg_append.mp h
  rw [hx, hrest.head]

/-- A new cell is linked behind the last one. -/
theorem Seg.link (h : Seg cell p (l ++ [y]) none) (hnodup : ((l ++ [y]).map Prod.fst).Nodup)
    (hx : x.1 ∉ (l ++ [y]).map Prod.fst) :
    Seg (Function.update (Function.update cell x.1 (some ⟨x.2, none⟩)) y.1 (some ⟨y.2, some x.1⟩)) p
      (l ++ [y] ++ [x]) none := by
  obtain ⟨r, hl, rfl, next, hy, rfl⟩ := seg_append.mp h
  rw [List.map_append, List.nodup_append] at hnodup
  have hyl : y.1 ∉ l.map Prod.fst := fun hmem => hnodup.2.2 _ hmem _ (by simp) rfl
  have hxl : x.1 ∉ l.map Prod.fst := fun hmem => hx (by simp at hmem ⊢; exact .inl hmem)
  have hxy : x.1 ≠ y.1 := fun heq => hx (by simp [heq])
  rw [List.append_assoc, seg_append]
  refine ⟨some y.1, (hl.update hxl _).update hyl _, rfl, some x.1, Function.update_self _ _ _, rfl, none,
    ?_, rfl⟩
  rw [Function.update_of_ne hxy, Function.update_self]

theorem Seg.unlink (h : Seg cell p (l ++ y :: x :: l') none)
    (hnodup : ((l ++ y :: x :: l').map Prod.fst).Nodup) :
    ∃ next, cell x.1 = some ⟨x.2, next⟩ ∧ (∃ c, cell y.1 = some ⟨y.2, c⟩) ∧
      Seg (Function.update cell y.1 (some ⟨y.2, next⟩)) p (l ++ y :: l') none := by
  obtain ⟨r, hl, rfl, r', hy, rfl, next, hx, hl'⟩ := seg_append.mp h
  simp only [List.map_append, List.map_cons, List.nodup_append, List.nodup_cons, List.mem_cons,
    not_or] at hnodup
  refine ⟨next, hx, ⟨_, hy⟩, seg_append.mpr ⟨some y.1, ?_, rfl, next, Function.update_self _ _ _, ?_⟩⟩
  · exact hl.update (fun hmem => hnodup.2.2 _ hmem _ (.inl rfl) rfl) _
  · exact hl'.update hnodup.2.1.1.2 _

end Linked
