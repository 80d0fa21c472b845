import Mathlib.Data.List.Chain
import Mathlib.Data.List.Nodup
import Mathlib.Logic.Function.Basic

/-!
# Linked lists (`list-batman.c`)

A list is a ring of `next` pointers through its head and its entries; the head also points to the last
entry. `list_del` is told the entry before the one it deletes, and cuts the ring between the two: if it
is told an earlier one, or the head, the entries between them are cut off as well.
-/

namespace BatmanAdv

/-- A `struct list_head *`: `NULL`, the head of the list, or one of its entries. -/
inductive ListPtr where
  | null
  | head
  | entry (ptr : ℕ)
  deriving DecidableEq

/-- `struct list_head_first`, and the `next` of the entries. -/
structure ListHeadFirst where
  next : ListPtr → ListPtr
  prev : ListPtr

namespace ListHeadFirst

/-! ## The functions -/

def init : ListHeadFirst := ⟨Function.update (fun _ => .null) .head .head, .head⟩

/-- `INIT_LIST_HEAD_FIRST` where the memory may hold anything. -/
def initListHeadFirst (m : ListHeadFirst) : ListHeadFirst :=
  ⟨Function.update m.next .head .head, .head⟩

def setNext (m : ListHeadFirst) (ptr next : ListPtr) : ListHeadFirst :=
  { m with next := Function.update m.next ptr next }

def listAddBetween (m : ListHeadFirst) (new prev next : ListPtr) : ListHeadFirst :=
  (m.setNext new next).setNext prev new

def listAdd (m : ListHeadFirst) (new : ListPtr) : ListHeadFirst :=
  let m := m.listAddBetween new .head (m.next .head)
  if m.prev = .head then { m with prev := new } else m

def listAddTail (m : ListHeadFirst) (new : ListPtr) : ListHeadFirst :=
  let m := m.listAddBetween new m.prev .head
  { m with prev := new }

def listAddBefore (m : ListHeadFirst) (prevNode nextNode newNode : ListPtr) : ListHeadFirst :=
  (m.setNext prevNode newNode).setNext newNode nextNode

def listDel (m : ListHeadFirst) (prevEntry entry : ListPtr) : ListHeadFirst :=
  let m := if m.prev = entry then { m with prev := prevEntry } else m
  let m := m.setNext prevEntry (m.next entry)
  m.setNext entry .null

def listEmpty (m : ListHeadFirst) : Bool := m.next .head == .head

/-- `list_for_each_safe` down to the first entry with `found`, with a `prev_list_head` kept behind it.
Returns the two, or `none` where there is no such entry. Without a result after `fuel` rounds, or at a
`NULL`, there is none at all. -/
def findEntry (m : ListHeadFirst) (found : ℕ → Bool) : ℕ → ListPtr → ListPtr → Option (Option (ListPtr × ℕ))
  | 0, _, _ => none
  | _ + 1, _, .head => some none
  | _ + 1, _, .null => none
  | fuel + 1, prev, .entry pos =>
    if found pos then some (some (prev, pos))
    else findEntry m found fuel (.entry pos) (m.next (.entry pos))

/-! ## Rings -/

def lastPtr (xs : List ℕ) : ListPtr := xs.getLast?.elim .head .entry

def firstPtr (xs : List ℕ) : ListPtr := xs.head?.elim .head .entry

/-- **The list in memory holds these entries**, in this order. -/
structure Lists (m : ListHeadFirst) (xs : List ℕ) : Prop where
  ring : (ListPtr.head :: (xs.map .entry ++ [.head])).IsChain (m.next · = ·)
  nodup : xs.Nodup
  prev : m.prev = lastPtr xs

variable {m : ListHeadFirst} {xs a b : List ℕ} {x : ℕ}

@[simp] theorem lastPtr_concat (xs : List ℕ) (x : ℕ) : lastPtr (xs ++ [x]) = .entry x := by
  simp [lastPtr]

theorem lastPtr_cons (x : ℕ) (xs : List ℕ) :
    lastPtr (x :: xs) = if xs = [] then .entry x else lastPtr xs := by
  unfold lastPtr
  cases xs with
  | nil => rfl
  | cons y ys => simp [List.getLast?_cons_cons]

theorem lastPtr_append (a b : List ℕ) :
    lastPtr (a ++ b) = if b = [] then lastPtr a else lastPtr b := by
  cases b using List.reverseRecOn with
  | nil => simp
  | append_singleton b x =>
    rw [← List.append_assoc, lastPtr_concat, lastPtr_concat, if_neg (by simp)]

/-- The head and the entries end with the last one. -/
theorem exists_concat_lastPtr (xs : List ℕ) :
    ∃ pre, ListPtr.head :: xs.map .entry = pre ++ [lastPtr xs] := by
  cases xs using List.reverseRecOn with
  | nil => exact ⟨[], rfl⟩
  | append_singleton xs x => exact ⟨.head :: xs.map .entry, by simp⟩

theorem lastPtr_eq_entry (h : lastPtr xs = .entry x) : x ∈ xs := by
  cases xs using List.reverseRecOn with
  | nil => cases h
  | append_singleton xs y =>
    rw [lastPtr_concat] at h
    cases h
    simp

theorem lastPtr_eq_head (h : lastPtr xs = .head) : xs = [] := by
  cases xs using List.reverseRecOn with
  | nil => rfl
  | append_singleton xs y =>
    rw [lastPtr_concat] at h
    cases h

theorem nodup_ptrs (h : xs.Nodup) : (ListPtr.head :: xs.map .entry).Nodup := by
  refine List.nodup_cons.mpr ⟨by simp, h.map fun a b hab => ?_⟩
  cases hab
  rfl

theorem isChain_congr {next next' : ListPtr → ListPtr} {ps : List ListPtr} {q : ListPtr}
    (h : (ps ++ [q]).IsChain (next · = ·)) (heq : ∀ p ∈ ps, next' p = next p) :
    (ps ++ [q]).IsChain (next' · = ·) := by
  induction ps with
  | nil => simp
  | cons p ps ih =>
    rw [List.cons_append, List.isChain_cons] at h ⊢
    refine ⟨fun r hr => ?_, ih h.2 fun p' hp' => heq p' (List.mem_cons_of_mem _ hp')⟩
    rw [heq p List.mem_cons_self]
    exact h.1 r hr

theorem ring_append {pre : List ListPtr} (hpre : ListPtr.head :: a.map .entry = pre ++ [lastPtr a]) :
    ListPtr.head :: ((a ++ b).map .entry ++ [.head]) = pre ++ lastPtr a :: (b.map .entry ++ [.head]) := by
  rw [List.map_append, List.append_assoc, ← List.cons_append, hpre]
  simp

theorem lists_initListHeadFirst (m : ListHeadFirst) : m.initListHeadFirst.Lists [] := by
  refine ⟨?_, List.nodup_nil, rfl⟩
  simp [initListHeadFirst]

theorem lists_init : init.Lists [] := lists_initListHeadFirst ⟨fun _ => .null, .null⟩

/-- Where the ring enters an entry, it has come from the one before. -/
theorem Lists.next_lastPtr (h : m.Lists (a ++ b)) : m.next (lastPtr a) = firstPtr b := by
  obtain ⟨pre, hpre⟩ := exists_concat_lastPtr a
  have hring := h.ring
  rw [ring_append hpre] at hring
  cases b with
  | nil => exact (List.isChain_append_cons_cons.mp hring).2.1
  | cons x b => exact (List.isChain_append_cons_cons.mp hring).2.1

theorem Lists.next_head (h : m.Lists xs) : m.next .head = firstPtr xs :=
  Lists.next_lastPtr (a := []) h

theorem Lists.next_entry (h : m.Lists (a ++ x :: b)) : m.next (.entry x) = firstPtr b := by
  have hnext := Lists.next_lastPtr (m := m) (a := a ++ [x]) (b := b) (by simpa using h)
  rwa [lastPtr_concat] at hnext

theorem firstPtr_eq_head (h : firstPtr xs = .head) : xs = [] := by
  cases xs with
  | nil => rfl
  | cons y xs => cases h

theorem firstPtr_eq_entry (h : firstPtr xs = .entry x) : ∃ ys, xs = x :: ys := by
  cases xs with
  | nil => cases h
  | cons y ys =>
    cases h
    exact ⟨ys, rfl⟩

theorem Lists.unique {ys : List ℕ} (h : m.Lists xs) (h' : m.Lists ys) : xs = ys := by
  have hsuffix : ∀ c xs ys : List ℕ, m.Lists (c ++ xs) → m.Lists (c ++ ys) → xs = ys := by
    intro c xs ys h h'
    induction xs generalizing c ys with
    | nil =>
      have hfirst : firstPtr ys = firstPtr [] := h'.next_lastPtr.symm.trans h.next_lastPtr
      exact (firstPtr_eq_head hfirst).symm
    | cons x xs ih =>
      have hfirst : firstPtr ys = firstPtr (x :: xs) := h'.next_lastPtr.symm.trans h.next_lastPtr
      obtain ⟨ys, rfl⟩ := firstPtr_eq_entry hfirst
      rw [ih (c ++ [x]) ys (by simpa using h) (by simpa using h')]
  exact hsuffix [] xs ys h h'

/-! ## What the functions do to a list -/

theorem next_listAdd (m : ListHeadFirst) (new : ListPtr) : (m.listAdd new).next =
    Function.update (Function.update m.next new (m.next .head)) .head new := by
  unfold listAdd
  dsimp only
  split_ifs
  · rfl
  · rfl

theorem prev_listAdd (m : ListHeadFirst) (new : ListPtr) :
    (m.listAdd new).prev = if m.prev = .head then new else m.prev := by
  have hkept : (m.listAddBetween new .head (m.next .head)).prev = m.prev := rfl
  unfold listAdd
  dsimp only
  rw [hkept]
  split_ifs
  · rfl
  · exact hkept

theorem next_listDel (m : ListHeadFirst) (prevEntry entry : ListPtr) : (m.listDel prevEntry entry).next =
    Function.update (Function.update m.next prevEntry (m.next entry)) entry .null := by
  unfold listDel
  dsimp only
  split_ifs
  · rfl
  · rfl

theorem prev_listDel (m : ListHeadFirst) (prevEntry entry : ListPtr) :
    (m.listDel prevEntry entry).prev = if m.prev = entry then prevEntry else m.prev := by
  unfold listDel
  dsimp only
  split_ifs
  · rfl
  · rfl

/-- The pointers before the last one are neither that one nor an entry from elsewhere. -/
theorem ne_of_mem_pre {pre : List ListPtr} (hpre : ListPtr.head :: a.map .entry = pre ++ [lastPtr a])
    (ha : a.Nodup) (hx : x ∉ a) {p : ListPtr} (hp : p ∈ pre) : p ≠ lastPtr a ∧ p ≠ .entry x := by
  have hnodup := nodup_ptrs ha
  rw [hpre] at hnodup
  constructor
  · rintro rfl
    exact (List.nodup_append.mp hnodup).2.2 _ hp _ List.mem_cons_self rfl
  · rintro rfl
    have hmem : ListPtr.entry x ∈ ListPtr.head :: a.map .entry := by
      rw [hpre]
      exact List.mem_append_left _ hp
    exact hx (by simpa using hmem)

theorem ne_of_mem_post (h : (a ++ b).Nodup) (hx : x ∉ b) {p : ListPtr} (hp : p ∈ b.map ListPtr.entry) :
    p ≠ lastPtr a ∧ p ≠ .entry x := by
  obtain ⟨y, hy, rfl⟩ := List.mem_map.mp hp
  constructor
  · intro heq
    exact (List.nodup_append.mp h).2.2 y (lastPtr_eq_entry heq.symm) y hy rfl
  · rintro ⟨⟩
    exact hx hy

/-- **An entry is linked in** behind `lastPtr a`. -/
theorem Lists.insert {m' : ListHeadFirst} (h : m.Lists (a ++ b)) (hx : x ∉ a ++ b)
    (hnext : m'.next = Function.update (Function.update m.next (.entry x) (firstPtr b)) (lastPtr a) (.entry x))
    (hprev : m'.prev = lastPtr (a ++ x :: b)) : m'.Lists (a ++ x :: b) := by
  have hxa : x ∉ a := fun hmem => hx (List.mem_append_left b hmem)
  have hlast : ListPtr.entry x ≠ lastPtr a := fun heq => hxa (lastPtr_eq_entry heq.symm)
  obtain ⟨pre, hpre⟩ := exists_concat_lastPtr a
  have hring := h.ring
  rw [ring_append hpre, List.isChain_split] at hring
  refine ⟨?_, List.nodup_middle.mpr (List.nodup_cons.mpr ⟨hx, h.nodup⟩), hprev⟩
  rw [ring_append hpre, List.isChain_split, List.map_cons, List.cons_append, List.isChain_cons_cons,
    List.isChain_cons]
  refine ⟨?_, ?_, fun r hr => ?_, ?_⟩
  · apply isChain_congr hring.1
    intro p hp
    obtain ⟨hplast, hpx⟩ := ne_of_mem_pre hpre (List.nodup_append.mp h.nodup).1 hxa hp
    rw [hnext, Function.update_of_ne hplast, Function.update_of_ne hpx]
  · show m'.next (lastPtr a) = .entry x
    rw [hnext, Function.update_self]
  · show m'.next (.entry x) = r
    rw [hnext, Function.update_of_ne hlast, Function.update_self, ← h.next_lastPtr]
    exact (List.isChain_cons.mp hring.2).1 r hr
  · apply isChain_congr (List.isChain_cons.mp hring.2).2
    intro p hp
    obtain ⟨hplast, hpx⟩ := ne_of_mem_post h.nodup (fun hmem => hx (List.mem_append_right a hmem)) hp
    rw [hnext, Function.update_of_ne hplast, Function.update_of_ne hpx]

theorem Lists.listAdd (h : m.Lists xs) (hx : x ∉ xs) : (m.listAdd (.entry x)).Lists (x :: xs) := by
  refine Lists.insert (a := []) h hx ?_ ?_
  · rw [next_listAdd, h.next_head]
    rfl
  · rw [prev_listAdd, h.prev]
    show _ = lastPtr (x :: xs)
    rw [lastPtr_cons]
    by_cases hempty : xs = []
    · rw [if_pos hempty, if_pos (by rw [hempty]; rfl)]
    · rw [if_neg hempty, if_neg (mt lastPtr_eq_head hempty)]

theorem Lists.listAddTail (h : m.Lists xs) (hx : x ∉ xs) :
    (m.listAddTail (.entry x)).Lists (xs ++ [x]) := by
  rw [← List.append_nil xs] at h hx
  refine h.insert hx ?_ (lastPtr_concat xs x).symm
  show Function.update (Function.update m.next (.entry x) .head) m.prev (.entry x) = _
  rw [h.prev, List.append_nil]
  rfl

/-- **`list_add_before`** told the entry before `next_node`, or the head where there is none. -/
theorem Lists.listAddBefore {y : ℕ} (h : m.Lists (a ++ y :: b)) (hx : x ∉ a ++ y :: b) :
    (m.listAddBefore (lastPtr a) (.entry y) (.entry x)).Lists (a ++ x :: y :: b) := by
  have hlast : lastPtr a ≠ .entry x := fun heq => hx (List.mem_append_left _ (lastPtr_eq_entry heq))
  refine h.insert hx (Function.update_comm hlast _ _ _) ?_
  -- the last entry stays the last one
  show m.prev = _
  rw [h.prev, lastPtr_append, lastPtr_append, if_neg (by simp), if_neg (by simp), lastPtr_cons x,
    if_neg (by simp)]

/-- **`list_del`** told the entry `lastPtr a`, or the head where there is none: the entries from there to
the deleted one are gone. -/
theorem Lists.listDel {c : List ℕ} (h : m.Lists (a ++ (c ++ x :: b))) :
    (m.listDel (lastPtr a) (.entry x)).Lists (a ++ b) := by
  have hnodup := List.nodup_append.mp h.nodup
  have hxa : x ∉ a := fun hmem => hnodup.2.2 x hmem x (by simp) rfl
  have hxb : x ∉ b := (List.nodup_cons.mp (List.nodup_append.mp hnodup.2.1).2.1).1
  have hlast : lastPtr a ≠ .entry x := fun heq => hxa (lastPtr_eq_entry heq)
  have hsub : (a ++ b).Sublist (a ++ (c ++ x :: b)) :=
    List.Sublist.append_left ((List.sublist_cons_self x b).trans (List.sublist_append_right c _)) a
  have hnodup' : (a ++ b).Nodup := h.nodup.sublist hsub
  refine ⟨?_, hnodup', ?_⟩
  · obtain ⟨pre, hpre⟩ := exists_concat_lastPtr a
    have hring := h.ring
    rw [ring_append hpre, List.isChain_split] at hring
    have hbehind : (ListPtr.entry x :: (b.map .entry ++ [.head])).IsChain (m.next · = ·) := by
      have htail := (List.isChain_cons.mp hring.2).2
      rw [List.map_append, List.map_cons, List.append_assoc, List.cons_append] at htail
      exact (List.isChain_append.mp htail).2.1
    rw [ring_append hpre, List.isChain_split, List.isChain_cons]
    refine ⟨?_, fun r hr => ?_, ?_⟩
    · apply isChain_congr hring.1
      intro p hp
      obtain ⟨hplast, hpx⟩ := ne_of_mem_pre hpre hnodup.1 hxa hp
      rw [next_listDel, Function.update_of_ne hpx, Function.update_of_ne hplast]
    · show (m.listDel (lastPtr a) (.entry x)).next (lastPtr a) = r
      rw [next_listDel, Function.update_of_ne hlast, Function.update_self]
      exact (List.isChain_cons.mp hbehind).1 r hr
    · apply isChain_congr (List.isChain_cons.mp hbehind).2
      intro p hp
      obtain ⟨hplast, hpx⟩ := ne_of_mem_post hnodup' hxb hp
      rw [next_listDel, Function.update_of_ne hpx, Function.update_of_ne hplast]
  · have hwhole : lastPtr (a ++ (c ++ x :: b)) = if b = [] then .entry x else lastPtr b := by
      rw [lastPtr_append, if_neg (by simp), lastPtr_append, if_neg (by simp), lastPtr_cons]
    rw [prev_listDel, h.prev, hwhole, lastPtr_append]
    by_cases hb : b = []
    · rw [if_pos hb, if_pos rfl, if_pos hb]
    · rw [if_neg hb, if_neg (fun heq => hxb (lastPtr_eq_entry heq)), if_neg hb]

theorem Lists.listEmpty_iff (h : m.Lists xs) : m.listEmpty = true ↔ xs = [] := by
  unfold ListHeadFirst.listEmpty
  rw [beq_iff_eq, h.next_head]
  refine ⟨firstPtr_eq_head, ?_⟩
  rintro rfl
  rfl

/-! ## Looking for an entry -/

variable {found : ℕ → Bool} {fuel : ℕ}

/-- From some entry of the list on, with the entries before it in `c`. -/
theorem Lists.findEntry_from {c : List ℕ} (h : m.Lists (c ++ (a ++ x :: b)))
    (hbefore : ∀ y ∈ a, found y = false) (hx : found x = true) (hfuel : a.length < fuel) :
    m.findEntry found fuel (lastPtr c) (firstPtr (a ++ x :: b)) = some (some (lastPtr (c ++ a), x)) := by
  induction a generalizing c fuel with
  | nil =>
    obtain ⟨fuel, rfl⟩ := Nat.exists_eq_succ_of_ne_zero (Nat.ne_of_gt hfuel)
    rw [List.append_nil]
    exact if_pos hx
  | cons y a ih =>
    obtain ⟨fuel, rfl⟩ := Nat.exists_eq_succ_of_ne_zero (Nat.ne_of_gt (Nat.zero_lt_of_lt hfuel))
    have hy : ¬ found y = true := by simp [hbefore y List.mem_cons_self]
    have hnext : m.next (.entry y) = firstPtr (a ++ x :: b) := Lists.next_entry h
    have hrest := ih (c := c ++ [y]) (by simpa using h)
      (fun z hz => hbefore z (List.mem_cons_of_mem _ hz)) (Nat.lt_of_succ_lt_succ hfuel)
    rw [lastPtr_concat, List.append_assoc, List.singleton_append, ← hnext] at hrest
    exact (if_neg hy).trans hrest

/-- **The loop that looks for an entry** finds the first one, and the one before it. -/
theorem Lists.findEntry_eq_some (h : m.Lists (a ++ x :: b)) (hbefore : ∀ y ∈ a, found y = false)
    (hx : found x = true) (hfuel : a.length < fuel) :
    m.findEntry found fuel .head (m.next .head) = some (some (lastPtr a, x)) := by
  rw [h.next_head]
  exact Lists.findEntry_from (c := []) h hbefore hx hfuel

end ListHeadFirst

end BatmanAdv
