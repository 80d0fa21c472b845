import BatmanAdv.Hash
import BatmanAdv.Lib.Chain

/-!
# The hash table in memory (`hash.c`)

The functions of `hash.c` on buckets that are cells of memory (`struct element_t`), chained by `next`
pointers. A result of `none` is a bucket read after it was freed, or a loop that has not ended after `fuel` rounds.

A table in memory stands for a `Hashtable` of buckets, each with its address. The functions do to that
table what those of `BatmanAdv.Hash` do.
-/

namespace BatmanAdv

namespace Pointers

open Linked

variable {α κ : Type*}

/-- `struct hashtable_t`; a head is an entry of `table` below `size`. -/
structure Hashtable where
  table : ℕ → Option ℕ
  elements : ℤ
  size : ℕ

/-- `struct hash_it_t`; `firstBucket` points into the table. -/
structure HashIt where
  index : ℤ
  bucket : Option ℕ
  prevBucket : Option ℕ
  firstBucket : Option ℕ

/-! ## The functions -/

def hashNew (size : ℕ) : Hashtable := ⟨fun _ => none, 0, size⟩

section Functions

variable (cb : HashCallbacks κ) (key : α → κ) (fuel : ℕ) (malloc : Malloc α)

/-- The loop of `hash_add`, `hash_find` and `hash_remove` down a chain: `prev_bucket` and `bucket`
where it ends, at the first bucket with this key or behind the last one. -/
def chainLoop (m : Mem α) (keydata : κ) :
    ℕ → Option ℕ → Option ℕ → Option (Option ℕ × Option ℕ)
  | 0, _, _ => none
  | _ + 1, prevBucket, none => some (prevBucket, none)
  | fuel + 1, prevBucket, some bucket =>
    match m.cell bucket with
    | none => none
    | some elem =>
      if cb.compare (key elem.data) keydata then some (prevBucket, some bucket)
      else chainLoop m keydata fuel (some bucket) elem.next

def hashAdd (m : Mem α) (hash : Hashtable) (data : α) : Option (Mem α × Hashtable × ℤ) :=
  let index := cb.choose (key data) hash.size
  match chainLoop cb key m (key data) fuel none (hash.table index) with
  | none => none
  | some (_, some _) => some (m, hash, -1)
  -- found the tail of the list, add new element
  | some (prevBucket, none) =>
    match malloc.addr m with
    | none => some (m, hash, -1)
    | some bucket =>
      let m := m.write bucket ⟨data, none⟩
      match prevBucket with
      | none =>
        some (m, { hash with
          table := Function.update hash.table index (some bucket)
          elements := hash.elements + 1 }, 0)
      | some prevBucket =>
        (m.setNext prevBucket (some bucket)).map fun m =>
          (m, { hash with elements := hash.elements + 1 }, 0)

/-- Returns the data, or `none` for `NULL`. -/
def hashFind (m : Mem α) (hash : Hashtable) (keydata : κ) : Option (Option α) :=
  match chainLoop cb key m keydata fuel none (hash.table (cb.choose keydata hash.size)) with
  | none => none
  | some (_, none) => some none
  | some (_, some bucket) => (m.cell bucket).map fun elem => some elem.data

/-- Returns the data of the removed bucket as well. -/
def hashRemoveBucket (m : Mem α) (hash : Hashtable) (hashIt : HashIt) :
    Option (Mem α × Hashtable × α) :=
  match hashIt.bucket with
  | none => none
  | some bucket =>
    match m.cell bucket with
    | none => none
    | some elem =>
      match hashIt.prevBucket, hashIt.firstBucket with
      | some prevBucket, _ =>
        (m.setNext prevBucket elem.next).map fun m =>
          (m.free bucket, { hash with elements := hash.elements - 1 }, elem.data)
      | none, some firstBucket =>
        some (m.free bucket, { hash with
          table := Function.update hash.table firstBucket elem.next
          elements := hash.elements - 1 }, elem.data)
      | none, none => some (m.free bucket, { hash with elements := hash.elements - 1 }, elem.data)

/-- Returns the removed data as well, or `none` for `NULL`. -/
def hashRemove (m : Mem α) (hash : Hashtable) (keydata : κ) :
    Option (Mem α × Hashtable × Option α) :=
  let index := cb.choose keydata hash.size
  match chainLoop cb key m keydata fuel none (hash.table index) with
  | none => none
  | some (_, none) => some (m, hash, none)
  | some (prevBucket, some bucket) =>
    let hashIt : HashIt :=
      { index := index
        bucket := some bucket
        prevBucket := prevBucket
        firstBucket := if some bucket = hash.table index then some index else none }
    (hashRemoveBucket m hash hashIt).map fun r => (r.1, r.2.1, some r.2.2)

/-- One chain of `hash_resize`. -/
def resizeChain : ℕ → Mem α → Hashtable → Option ℕ → Option (Mem α × Hashtable)
  | 0, _, _, _ => none
  | _ + 1, m, newHash, none => some (m, newHash)
  | n + 1, m, newHash, some bucket =>
    match m.cell bucket with
    | none => none
    | some elem =>
      match hashAdd cb key fuel malloc m newHash elem.data with
      | none => none
      | some (m, newHash, _) =>
        match m.cell bucket with
        | none => none
        | some elem => resizeChain n m newHash elem.next

/-- One chain of `hash_delete`, which leaves the data alone. -/
def deleteChain : ℕ → Mem α → Option ℕ → Option (Mem α)
  | 0, _, _ => none
  | _ + 1, m, none => some m
  | n + 1, m, some bucket =>
    match m.cell bucket with
    | none => none
    | some elem => deleteChain n (m.free bucket) elem.next

def hashDelete (m : Mem α) (hash : Hashtable) : Option (Mem α) :=
  (List.range hash.size).foldlM (fun m i => deleteChain fuel m (hash.table i)) m

def hashResize (m : Mem α) (hash : Hashtable) (size : ℕ) : Option (Mem α × Hashtable) :=
  let copied := (List.range hash.size).foldlM
    (fun (m, newHash) i => resizeChain cb key fuel malloc fuel m newHash (hash.table i))
    (m, hashNew size)
  copied.bind fun (m, newHash) => (hashDelete fuel m hash).map fun m => (m, newHash)

end Functions

/-- The search of `hash_iterate` through the table, from `index` on. -/
def nextChain (hash : Hashtable) (index : ℕ) : Option HashIt :=
  ((List.range' index (hash.size - index)).find? fun i => (hash.table i).isSome).map fun (i : ℕ) =>
    { index := i, bucket := hash.table i, prevBucket := none, firstBucket := some i }

/-- What `hash_iterate` finds out about the bucket it returned last. -/
inductive Checked where
  /-- It was the first of its chain and was removed: the new first one is next. -/
  | first (iter : HashIt)
  /-- The iterator points to the bucket whose successor is next, or to none. -/
  | sane (iter : HashIt)

def checkBucket (m : Mem α) (hash : Hashtable) (iter : HashIt) : Option Checked :=
  match iter.bucket with
  | none => some (.sane iter)
  | some bucket =>
    match iter.firstBucket, iter.prevBucket with
    | some firstBucket, _ =>
      -- we're on the first element and it got removed after the last iteration
      if hash.table firstBucket ≠ some bucket then
        match hash.table firstBucket with
        | some first =>
          some (.first
            { iter with
              prevBucket := none
              bucket := some first
              firstBucket := some iter.index.toNat })
        | none => some (.sane { iter with bucket := none })
      else some (.sane iter)
    | none, some prevBucket =>
      -- we're not on the first element, and the bucket got removed after the last iteration
      (m.cell prevBucket).map fun prev =>
        if prev.next ≠ some bucket then .sane { iter with bucket := some prevBucket } else .sane iter
    | none, none => some (.sane iter)

/-- Returns the iterator, or `none` for `NULL`. -/
def hashIterate (m : Mem α) (hash : Hashtable) (iterIn : Option HashIt) : Option (Option HashIt) :=
  let iter := iterIn.getD ⟨-1, none, none, none⟩
  match checkBucket m hash iter with
  | none => none
  | some (.first iter) => some (some iter)
  | some (.sane iter) =>
    match iter.bucket with
    | none => some (nextChain hash (iter.index + 1).toNat)
    | some bucket =>
      match m.cell bucket with
      | none => none
      | some elem =>
        match elem.next with
        | some next =>
          some (some { iter with prevBucket := some bucket, bucket := some next, firstBucket := none })
        | none => some (nextChain hash (iter.index + 1).toNat)

/-- `while ((it = hash_iterate(h, it)) != NULL)`, with `hash_remove_bucket` for the buckets `removes`
says, which is told all buckets returned so far. Returns these as well, each with its data. -/
def iterateLoop (removes : List (ℕ × α) → Bool) :
    ℕ → Mem α → Hashtable → Option HashIt → List (ℕ × α) →
      Option (Mem α × Hashtable × List (ℕ × α))
  | 0, _, _, _, _ => none
  | fuel + 1, m, hash, it, visited =>
    match hashIterate m hash it with
    | none => none
    | some none => some (m, hash, visited)
    | some (some it) =>
      match it.bucket.bind fun bucket => (m.cell bucket).map fun elem => (bucket, elem.data) with
      | none => none
      | some x =>
        let visited := visited ++ [x]
        if removes visited then
          match hashRemoveBucket m hash it with
          | none => none
          | some (m, hash, _) => iterateLoop removes fuel m hash (some it) visited
        else iterateLoop removes fuel m hash (some it) visited

/-! ## Tables in memory -/

/-- The table of buckets, an address and its data each, that a table in memory stands for. -/
structure Rep (m : Mem α) (hash : Hashtable) (t : BatmanAdv.Hashtable (ℕ × α)) : Prop where
  size_eq : t.size = hash.size
  elements_eq : hash.elements = t.elements
  count : t.elements = t.buckets.length
  seg : ∀ i < hash.size, Seg m.cell (hash.table i) (t.table i) none
  nodup : (t.buckets.map Prod.fst).Nodup

variable {m m' : Mem α} {hash hash' : Hashtable} {t : BatmanAdv.Hashtable (ℕ × α)}

theorem Rep.mem_buckets (h : Rep m hash t) {i : ℕ} (hi : i < hash.size) {x : ℕ × α}
    (hx : x ∈ t.table i) : x ∈ t.buckets :=
  Hashtable.mem_buckets.mpr ⟨i, h.size_eq ▸ hi, hx⟩

theorem Rep.live (h : Rep m hash t) {x : ℕ × α} (hx : x ∈ t.buckets) :
    ∃ next, m.cell x.1 = some ⟨x.2, next⟩ := by
  obtain ⟨i, hi, hx⟩ := Hashtable.mem_buckets.mp hx
  exact (h.seg i (h.size_eq ▸ hi)).live hx

theorem Rep.length_table (h : Rep m hash t) {i : ℕ} (hi : i < hash.size) :
    (t.table i).length ≤ t.elements := by
  obtain ⟨before, after, hold, _⟩ := exists_buckets_update t (h.size_eq.symm ▸ hi)
  rw [h.count, hold]
  simp only [List.length_append]
  omega

theorem Rep.nodup_table (h : Rep m hash t) {i : ℕ} (hi : i < hash.size) :
    ((t.table i).map Prod.fst).Nodup := by
  obtain ⟨before, after, hold, _⟩ := exists_buckets_update t (h.size_eq.symm ▸ hi)
  have hnodup := h.nodup
  rw [hold, List.map_append, List.map_append, List.nodup_append, List.nodup_append] at hnodup
  exact hnodup.1.2.1

theorem Rep.fst_ne (h : Rep m hash t) {i j : ℕ} (hi : i < hash.size) (hj : j < hash.size)
    (hij : i ≠ j) {x y : ℕ × α} (hx : x ∈ t.table i) (hy : y ∈ t.table j) : x.1 ≠ y.1 := by
  have hnodup := h.nodup
  unfold Hashtable.buckets at hnodup
  rw [List.map_flatMap, List.nodup_flatMap] at hnodup
  have hsymm : Std.Symm (Function.onFun List.Disjoint fun i => (t.table i).map Prod.fst) :=
    ⟨fun _ _ hd => List.disjoint_symm hd⟩
  have hdisj := hnodup.2.forall (List.mem_range.mpr (h.size_eq.symm ▸ hi))
    (List.mem_range.mpr (h.size_eq.symm ▸ hj)) hij
  intro heq
  exact hdisj (List.mem_map_of_mem hx) (heq ▸ List.mem_map_of_mem hy)

theorem Rep.update (h : Rep m hash t) {i n : ℕ} {chain : List (ℕ × α)}
    (hsize : hash'.size = hash.size) (htable : ∀ j, j ≠ i → hash'.table j = hash.table j)
    (hcell : ∀ j < hash.size, j ≠ i → ∀ x ∈ t.table j, m'.cell x.1 = m.cell x.1)
    (hseg : Seg m'.cell (hash'.table i) chain none) (helements : hash'.elements = n)
    (hcount : n = (⟨Function.update t.table i chain, n, t.size⟩ :
      BatmanAdv.Hashtable (ℕ × α)).buckets.length)
    (hnodup : ((⟨Function.update t.table i chain, n, t.size⟩ :
      BatmanAdv.Hashtable (ℕ × α)).buckets.map Prod.fst).Nodup) :
    Rep m' hash' ⟨Function.update t.table i chain, n, t.size⟩ where
  size_eq := h.size_eq.trans hsize.symm
  elements_eq := helements
  count := hcount
  seg j hj := by
    dsimp only
    by_cases hji : j = i
    · rw [hji, Function.update_self]
      exact hseg
    · rw [Function.update_of_ne hji, htable j hji]
      exact (h.seg j (hsize ▸ hj)).congr (hcell j (hsize ▸ hj) hji)
  nodup := hnodup

theorem Rep.congr (h : Rep m hash t) (hcell : ∀ x ∈ t.buckets, m'.cell x.1 = m.cell x.1) :
    Rep m' hash t where
  size_eq := h.size_eq
  elements_eq := h.elements_eq
  count := h.count
  seg i hi := (h.seg i hi).congr fun x hx => hcell x (h.mem_buckets hi hx)
  nodup := h.nodup

theorem Rep.hashNew (m : Mem α) (size : ℕ) : Rep m (hashNew size) (BatmanAdv.hashNew size) where
  size_eq := rfl
  elements_eq := rfl
  count := by rw [buckets_hashNew]; rfl
  seg _ _ := rfl
  nodup := by simp

/-! ## Walking down a chain -/

section Refinement

variable {cb : HashCallbacks κ} {key : α → κ} {fuel : ℕ} {malloc : Malloc α}

theorem chainLoop_append {p : Option ℕ} {pre post : List (ℕ × α)} {keydata : κ}
    (hseg : Seg m.cell p (pre ++ post) none)
    (hpre : ∀ x ∈ pre, cb.compare (key x.2) keydata = false) (fuel : ℕ) (prevBucket : Option ℕ) :
    chainLoop cb key m keydata (pre.length + fuel) prevBucket p =
      chainLoop cb key m keydata fuel ((pre.getLast?.map Prod.fst).or prevBucket)
        (post.head?.map Prod.fst) := by
  induction pre generalizing p prevBucket with
  | nil =>
    rw [List.length_nil, Nat.zero_add, hseg.head]
    rfl
  | cons x pre ih =>
    obtain ⟨rfl, next, hx, hrest⟩ := hseg
    rw [List.length_cons, Nat.add_right_comm, chainLoop, hx]
    dsimp only
    rw [if_neg (by simp [hpre x List.mem_cons_self]),
      ih hrest fun y hy => hpre y (List.mem_cons_of_mem _ hy)]
    congr 1
    rw [List.getLast?_cons]
    cases pre.getLast? with
    | none => rfl
    | some y => rfl

theorem chainLoop_none {p : Option ℕ} {l : List (ℕ × α)} {keydata : κ} (hseg : Seg m.cell p l none)
    (hall : ∀ x ∈ l, cb.compare (key x.2) keydata = false) (hfuel : l.length < fuel)
    (prevBucket : Option ℕ) :
    chainLoop cb key m keydata fuel prevBucket p =
      some ((l.getLast?.map Prod.fst).or prevBucket, none) := by
  obtain ⟨n, rfl⟩ := Nat.exists_eq_add_of_lt hfuel
  rw [← l.append_nil] at hseg
  rw [Nat.add_assoc, chainLoop_append hseg hall]
  rfl

theorem chainLoop_some {p : Option ℕ} {pre post : List (ℕ × α)} {x : ℕ × α} {keydata : κ}
    (hseg : Seg m.cell p (pre ++ x :: post) none)
    (hpre : ∀ y ∈ pre, cb.compare (key y.2) keydata = false)
    (hx : cb.compare (key x.2) keydata = true) (hfuel : pre.length < fuel) (prevBucket : Option ℕ) :
    chainLoop cb key m keydata fuel prevBucket p =
      some ((pre.getLast?.map Prod.fst).or prevBucket, some x.1) := by
  obtain ⟨n, rfl⟩ := Nat.exists_eq_add_of_lt hfuel
  obtain ⟨next, hcell⟩ := hseg.live (List.mem_append_right pre List.mem_cons_self)
  rw [Nat.add_assoc, chainLoop_append hseg hpre, List.head?_cons, Option.map_some, chainLoop, hcell]
  dsimp only
  rw [if_pos hx]

/-! ## The functions refine those on lists -/

/-- **`hash_find`.** -/
theorem Rep.hashFind (h : Rep m hash t) (hcb : cb.Lawful) (hsize : 0 < hash.size)
    (hfuel : t.elements < fuel) (keydata : κ) :
    hashFind cb key fuel m hash keydata =
      some ((BatmanAdv.hashFind cb (key ∘ Prod.snd) t keydata).map Prod.snd) := by
  have hi := hcb.choose_lt keydata hash.size hsize
  have hlen := (h.length_table hi).trans_lt hfuel
  have hseg := h.seg _ hi
  unfold Pointers.hashFind BatmanAdv.hashFind
  rw [h.size_eq]
  cases hfind : (t.table (cb.choose keydata hash.size)).find?
      fun x => cb.compare ((key ∘ Prod.snd) x) keydata with
  | none =>
    have hall : ∀ x ∈ t.table (cb.choose keydata hash.size),
        cb.compare (key x.2) keydata = false := by
      intro x hx
      simpa using List.find?_eq_none.mp hfind x hx
    rw [chainLoop_none hseg hall hlen]
    rfl
  | some x =>
    obtain ⟨hx, pre, post, htable, hpre⟩ := List.find?_eq_some_iff_append.mp hfind
    rw [htable] at hseg hlen
    obtain ⟨next, hcell⟩ := hseg.live (List.mem_append_right pre List.mem_cons_self)
    rw [chainLoop_some hseg (fun y hy => by simpa using hpre y hy) hx
      (by rw [List.length_append] at hlen; omega)]
    dsimp only
    rw [hcell]
    rfl

theorem hashFind_none_iff_any {keydata : κ} :
    BatmanAdv.hashFind cb (key ∘ Prod.snd) t keydata = none ↔
      ((t.table (cb.choose keydata t.size)).any
        fun x => cb.compare ((key ∘ Prod.snd) x) keydata) = false := by
  unfold BatmanAdv.hashFind
  rw [List.find?_eq_none, List.any_eq_false]

/-- **`hash_add`** of a key that is there. -/
theorem Rep.hashAdd_of_some (h : Rep m hash t) (hcb : cb.Lawful) (hsize : 0 < hash.size)
    (hfuel : t.elements < fuel) {data : α} {x : ℕ × α}
    (hfind : BatmanAdv.hashFind cb (key ∘ Prod.snd) t (key data) = some x) :
    hashAdd cb key fuel malloc m hash data = some (m, hash, -1) := by
  have hi := hcb.choose_lt (key data) hash.size hsize
  have hlen := (h.length_table hi).trans_lt hfuel
  have hseg := h.seg _ hi
  unfold BatmanAdv.hashFind at hfind
  rw [h.size_eq] at hfind
  obtain ⟨hx, pre, post, htable, hpre⟩ := List.find?_eq_some_iff_append.mp hfind
  rw [htable] at hseg hlen
  unfold Pointers.hashAdd
  dsimp only
  rw [chainLoop_some hseg (fun y hy => by simpa using hpre y hy) hx
    (by rw [List.length_append] at hlen; omega)]

/-- A new bucket behind the last one of its chain. What was live elsewhere stays as it is. -/
theorem Rep.link (h : Rep m hash t) {i : ℕ} (hi : i < hash.size) {a : ℕ} (hfree : m.cell a = none)
    (data : α) :
    ∃ m' hash',
      (match (t.table i).getLast?.map Prod.fst with
        | none =>
          some (m.write a ⟨data, none⟩, { hash with
            table := Function.update hash.table i (some a)
            elements := hash.elements + 1 }, (0 : ℤ))
        | some prevBucket =>
          ((m.write a ⟨data, none⟩).setNext prevBucket (some a)).map fun m =>
            (m, { hash with elements := hash.elements + 1 }, 0)) = some (m', hash', 0) ∧
      Rep m' hash' ⟨Function.update t.table i (t.table i ++ [(a, data)]), t.elements + 1, t.size⟩ ∧
      hash'.size = hash.size ∧
      ∀ b, (m.cell b).isSome → b ∉ t.buckets.map Prod.fst → m'.cell b = m.cell b := by
  have hnew : ∀ x ∈ t.buckets, x.1 ≠ a := by
    rintro x hx rfl
    obtain ⟨next, hcell⟩ := h.live hx
    rw [hfree] at hcell
    cases hcell
  have hmem : ∀ x ∈ t.table i, x ∈ t.buckets := fun x hx => h.mem_buckets hi hx
  have hother : ∀ j < hash.size, ∀ x ∈ t.table j, x.1 ≠ a :=
    fun j hj x hx => hnew x (h.mem_buckets hj hx)
  obtain ⟨before, after, hold, hbuckets⟩ := exists_buckets_update t (h.size_eq.symm ▸ hi)
  have hperm : (before ++ (t.table i ++ [(a, data)]) ++ after).Perm ((a, data) :: t.buckets) := by
    rw [hold, ← List.append_assoc before, List.append_assoc _ [(a, data)], List.singleton_append]
    exact List.perm_middle
  have hcount : t.elements + 1 = (before ++ (t.table i ++ [(a, data)]) ++ after).length := by
    rw [hperm.length_eq, List.length_cons, h.count]
  have hnodup : ((before ++ (t.table i ++ [(a, data)]) ++ after).map Prod.fst).Nodup := by
    rw [(hperm.map Prod.fst).nodup_iff, List.map_cons, List.nodup_cons]
    refine ⟨fun hin => ?_, h.nodup⟩
    obtain ⟨x, hx, heq⟩ := List.mem_map.mp hin
    exact hnew x hx heq
  have helements : hash.elements + 1 = ((t.elements + 1 : ℕ) : ℤ) := by
    rw [h.elements_eq]
    rfl
  rw [← hbuckets _ (t.elements + 1)] at hcount hnodup
  have hseg := h.seg i hi
  have hwas := h.nodup_table hi
  have hlive : ∀ b, (m.cell b).isSome → b ≠ a := by
    rintro b hb rfl
    rw [hfree] at hb
    cases hb
  rcases List.eq_nil_or_concat (t.table i) with hnil | ⟨l, y, hconcat⟩
  · rw [hnil]
    refine ⟨_, _, rfl, ?_, rfl, fun b hb _ => Function.update_of_ne (hlive b hb) _ _⟩
    rw [hnil] at hcount hnodup
    apply h.update
    · rfl
    · exact fun j hj => Function.update_of_ne hj _ _
    · exact fun j hj _ x hx => Function.update_of_ne (hother j hj x hx) _ _
    · refine ⟨Function.update_self _ _ _, none, ?_, rfl⟩
      exact Function.update_self _ _ _
    · exact helements
    · exact hcount
    · exact hnodup
  · rw [List.concat_eq_append] at hconcat
    have hy : y ∈ t.table i := by rw [hconcat]; simp
    obtain ⟨next, hcell⟩ := h.live (hmem y hy)
    have hcell' : (m.write a ⟨data, none⟩).cell y.1 = some ⟨y.2, next⟩ := by
      rw [Mem.cell_write, Function.update_of_ne (hnew y (hmem y hy))]
      exact hcell
    have hlast : (t.table i).getLast?.map Prod.fst = some y.1 := by
      rw [hconcat, List.getLast?_append, List.getLast?_singleton]
      rfl
    rw [hlast]
    dsimp only
    rw [Mem.setNext_of_cell hcell']
    refine ⟨_, _, rfl, ?_, rfl, fun b hb hnot => ?_⟩
    · apply h.update
      · rfl
      · exact fun j _ => rfl
      · intro j hj hji x hx
        rw [Mem.cell_write, Mem.cell_write, Function.update_of_ne (h.fst_ne hj hi hji hx hy),
          Function.update_of_ne (hother j hj x hx)]
      · have hnot : (a, data).1 ∉ (t.table i).map Prod.fst := by
          intro hin
          obtain ⟨x, hx, heq⟩ := List.mem_map.mp hin
          exact hnew x (hmem x hx) heq
        rw [hconcat] at hseg hwas hnot ⊢
        exact hseg.link hwas hnot
      · exact helements
      · exact hcount
      · exact hnodup
    · rw [Mem.cell_write, Mem.cell_write, Function.update_of_ne, Function.update_of_ne (hlive b hb)]
      rintro rfl
      exact hnot (List.mem_map_of_mem (hmem y hy))

/-- **`hash_add`** of a new key. -/
theorem Rep.hashAdd_of_none (h : Rep m hash t) (hcb : cb.Lawful) (hsize : 0 < hash.size)
    (hfuel : t.elements < fuel) {data : α} {a : ℕ} (ha : malloc.addr m = some a)
    (hfind : BatmanAdv.hashFind cb (key ∘ Prod.snd) t (key data) = none) :
    ∃ m' hash', hashAdd cb key fuel malloc m hash data = some (m', hash', 0) ∧
      Rep m' hash' (BatmanAdv.hashAdd cb (key ∘ Prod.snd) t (a, data)).1 ∧
      hash'.size = hash.size ∧
      ∀ b, (m.cell b).isSome → b ∉ t.buckets.map Prod.fst → m'.cell b = m.cell b := by
  have hi := hcb.choose_lt (key data) hash.size hsize
  have hany := hashFind_none_iff_any.mp hfind
  rw [h.size_eq] at hany
  have hall : ∀ x ∈ t.table (cb.choose (key data) hash.size),
      cb.compare (key x.2) (key data) = false := by
    intro x hx
    simpa using List.any_eq_false.mp hany x hx
  obtain ⟨m', hash', hlink, hrep, hsame, hframe⟩ := h.link hi (malloc.fresh m a ha) data
  refine ⟨m', hash', ?_, ?_, hsame, hframe⟩
  · unfold Pointers.hashAdd
    dsimp only
    rw [chainLoop_none (h.seg _ hi) hall ((h.length_table hi).trans_lt hfuel), Option.or_none, ha]
    exact hlink
  · unfold BatmanAdv.hashAdd
    dsimp only [Function.comp_apply]
    rw [h.size_eq] at hrep ⊢
    rw [if_neg]
    · exact hrep
    · simpa using hany

/-- The iterator points to the bucket behind these ones of the chain of an index. -/
structure Points (it : HashIt) (i : ℕ) (pre : List (ℕ × α)) (bucket : ℕ) : Prop where
  bucket_eq : it.bucket = some bucket
  place : pre = [] ∧ it.prevBucket = none ∧ it.firstBucket = some i ∨
    ∃ l y, pre = l ++ [y] ∧ it.prevBucket = some y.1 ∧ it.firstBucket = none

/-- **`hash_remove_bucket`.** -/
theorem Rep.hashRemoveBucket (h : Rep m hash t) {i : ℕ} (hi : i < hash.size)
    {pre post : List (ℕ × α)} {x : ℕ × α} (htable : t.table i = pre ++ x :: post) {it : HashIt}
    (hit : Points it i pre x.1) :
    ∃ m' hash', hashRemoveBucket m hash it = some (m', hash', x.2) ∧
      Rep m' hash' ⟨Function.update t.table i (pre ++ post), t.elements - 1, t.size⟩ ∧
      hash'.size = hash.size := by
  have hx : x ∈ t.table i := by rw [htable]; simp
  have hxt := h.mem_buckets hi hx
  obtain ⟨before, after, hold, hbuckets⟩ := exists_buckets_update t (h.size_eq.symm ▸ hi)
  have hperm : t.buckets.Perm (x :: (before ++ (pre ++ post) ++ after)) := by
    rw [hold, htable, ← List.append_assoc before, ← List.append_assoc before,
      List.append_assoc _ (x :: post), List.append_assoc _ post, List.cons_append]
    exact List.perm_middle
  have hcount : t.elements = (before ++ (pre ++ post) ++ after).length + 1 := by
    rw [h.count, hperm.length_eq, List.length_cons]
  have hnodup := h.nodup
  rw [(hperm.map Prod.fst).nodup_iff, List.map_cons, List.nodup_cons] at hnodup
  have helements : hash.elements - 1 = ((t.elements - 1 : ℕ) : ℤ) := by
    rw [h.elements_eq, hcount]
    simp
  rw [← hbuckets _ (t.elements - 1)] at hcount hnodup
  have hcount' : t.elements - 1 = _ := Nat.sub_eq_of_eq_add hcount
  have hseg := h.seg i hi
  have hwas := h.nodup_table hi
  rw [htable] at hseg hwas
  have hnot : x.1 ∉ (pre ++ post).map Prod.fst := by
    rw [List.map_append, List.map_cons, List.nodup_middle, List.nodup_cons] at hwas
    rw [List.map_append]
    exact hwas.1
  have hother : ∀ j < hash.size, j ≠ i → ∀ y ∈ t.table j, y.1 ≠ x.1 :=
    fun j hj hji y hy => h.fst_ne hj hi hji hy hx
  unfold Pointers.hashRemoveBucket
  rw [hit.bucket_eq]
  dsimp only
  rcases hit.place with ⟨rfl, hprev, hfirst⟩ | ⟨l, y, rfl, hprev, hfirst⟩
  · obtain ⟨hhead, next, hcell, hrest⟩ := hseg
    rw [hcell, hprev, hfirst]
    refine ⟨_, _, rfl, ?_, rfl⟩
    apply h.update
    · rfl
    · exact fun j hj => Function.update_of_ne hj _ _
    · exact fun j hj hji y hy => Function.update_of_ne (hother j hj hji y hy) _ _
    · dsimp only
      rw [Function.update_self, Mem.cell_free]
      exact hrest.update (List.nodup_cons.mp hwas).1 none
    · exact helements
    · exact hcount'
    · exact hnodup.2
  · rw [List.append_assoc, List.singleton_append] at hseg hwas htable
    have hy : y ∈ t.table i := by rw [htable]; simp
    obtain ⟨next, hcell, ⟨c, hcell'⟩, hrest⟩ := hseg.unlink hwas
    rw [hcell, hprev, hfirst]
    dsimp only
    rw [Mem.setNext_of_cell hcell']
    refine ⟨_, _, rfl, ?_, rfl⟩
    apply h.update
    · rfl
    · exact fun j _ => rfl
    · intro j hj hji z hz
      rw [Mem.cell_free, Mem.cell_write, Function.update_of_ne (hother j hj hji z hz),
        Function.update_of_ne (h.fst_ne hj hi hji hz hy)]
    · rw [List.append_assoc, List.singleton_append] at hnot ⊢
      exact hrest.update hnot none
    · exact helements
    · exact hcount'
    · exact hnodup.2

theorem Rep.hashRemove (h : Rep m hash t) (hcb : cb.Lawful) (hsize : 0 < hash.size)
    (hfuel : t.elements < fuel) (keydata : κ) :
    ∃ m' hash', hashRemove cb key fuel m hash keydata =
        some (m', hash', (BatmanAdv.hashRemove cb (key ∘ Prod.snd) t keydata).2.map Prod.snd) ∧
      Rep m' hash' (BatmanAdv.hashRemove cb (key ∘ Prod.snd) t keydata).1 ∧
      hash'.size = hash.size := by
  have hi := hcb.choose_lt keydata hash.size hsize
  have hlen := (h.length_table hi).trans_lt hfuel
  have hseg := h.seg _ hi
  unfold Pointers.hashRemove BatmanAdv.hashRemove
  dsimp only
  rw [h.size_eq]
  cases hfind : (t.table (cb.choose keydata hash.size)).find?
      fun x => cb.compare ((key ∘ Prod.snd) x) keydata with
  | none =>
    have hall : ∀ x ∈ t.table (cb.choose keydata hash.size),
        cb.compare (key x.2) keydata = false := by
      intro x hx
      simpa using List.find?_eq_none.mp hfind x hx
    rw [chainLoop_none hseg hall hlen]
    exact ⟨m, hash, rfl, h, rfl⟩
  | some x =>
    obtain ⟨hx, pre, post, htable, hpre⟩ := List.find?_eq_some_iff_append.mp hfind
    rw [htable] at hseg hlen
    have hloop := chainLoop_some hseg (fun y hy => by simpa using hpre y hy) hx
      (Nat.lt_of_le_of_lt (by rw [List.length_append]; omega) hlen) none
    have hit : Points
        { index := cb.choose keydata hash.size
          bucket := some x.1
          prevBucket := (pre.getLast?.map Prod.fst).or none
          firstBucket :=
            if some x.1 = hash.table (cb.choose keydata hash.size) then
              some (cb.choose keydata hash.size)
            else none } (cb.choose keydata hash.size) pre x.1 := by
      refine ⟨rfl, ?_⟩
      have hhead := hseg.head
      rcases List.eq_nil_or_concat pre with rfl | ⟨l, y, rfl⟩
      · exact .inl ⟨rfl, rfl, if_pos hhead.symm⟩
      · refine .inr ⟨l, y, List.concat_eq_append, ?_, if_neg fun heq => ?_⟩
        · rw [List.concat_eq_append, List.getLast?_append, List.getLast?_singleton]
          rfl
        · -- the first bucket of the chain is another one
          rw [hhead, eq_comm] at heq
          obtain ⟨z, hz, hzx⟩ := Option.map_eq_some_iff.mp heq
          have hzpre : z ∈ l.concat y := by
            rw [List.head?_append_of_ne_nil _ (by simp)] at hz
            exact List.mem_of_mem_head? hz
          have hwas := h.nodup_table hi
          rw [htable, List.map_append, List.nodup_append] at hwas
          exact hwas.2.2 z.1 (List.mem_map_of_mem hzpre) x.1 (by simp) hzx
    obtain ⟨m', hash', hremove, hrep, hsame⟩ := h.hashRemoveBucket hi htable hit
    rw [hloop]
    dsimp only
    rw [hremove]
    refine ⟨m', hash', rfl, ?_, hsame⟩
    have herase : (t.table (cb.choose keydata hash.size)).eraseP
        (fun x => cb.compare ((key ∘ Prod.snd) x) keydata) = pre ++ post := by
      rw [htable, List.eraseP_append_right _ fun b hb => by simpa using hpre b hb,
        List.eraseP_cons_of_pos (p := fun x => cb.compare ((key ∘ Prod.snd) x) keydata) hx]
    unfold BatmanAdv.hashRemoveBucket
    rw [herase]
    exact hrep

end Refinement

end Pointers

end BatmanAdv
