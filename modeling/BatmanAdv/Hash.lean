import Mathlib.Data.List.Perm.Basic
import Mathlib.Data.List.Range
import Mathlib.Logic.Function.Basic
import Mathlib.Tactic.SplitIfs

/-!
# The hash table (`hash.c`)

A table of `size` chains. The callbacks compare two keys and choose the chain of a key; what a bucket
holds is found by the key of its data. The data are the structures the source stores pointers to, so
that writing through such a pointer is `Hashtable.map`.

`Hashtable.buckets` lists the data in the order of `hash_iterate`.
-/

namespace BatmanAdv

variable {α κ : Type*}

/-- `hashdata_compare_cb` and `hashdata_choose_cb`. -/
structure HashCallbacks (κ : Type*) where
  /-- Whether `compare` returns 0. -/
  compare : κ → κ → Bool
  choose : κ → ℕ → ℕ

/-- What `hash.c` relies on: `compare` is an equivalence, and `choose` an index of the table that is
the same for equal keys. -/
structure HashCallbacks.Lawful (cb : HashCallbacks κ) : Prop where
  refl : ∀ a, cb.compare a a = true
  symm : ∀ a b, cb.compare a b = true → cb.compare b a = true
  trans : ∀ a b c, cb.compare a b = true → cb.compare b c = true → cb.compare a c = true
  choose_congr : ∀ a b size, cb.compare a b = true → cb.choose a size = cb.choose b size
  choose_lt : ∀ a size, 0 < size → cb.choose a size < size

/-- `struct hashtable_t`; only the chains below `size` exist. -/
structure Hashtable (α : Type*) where
  table : ℕ → List α
  elements : ℕ
  size : ℕ

namespace Hashtable

/-- The data of all buckets, in the order of `hash_iterate`. -/
def buckets (hash : Hashtable α) : List α := (List.range hash.size).flatMap hash.table

/-- A write to the data the buckets point to. -/
def map (hash : Hashtable α) (f : α → α) : Hashtable α :=
  { hash with table := fun i => (hash.table i).map f }

end Hashtable

variable (cb : HashCallbacks κ) (key : α → κ)

def hashNew (size : ℕ) : Hashtable α := ⟨fun _ => [], 0, size⟩

/-- Returns the table and 0, or -1 where the key is already there. -/
def hashAdd (hash : Hashtable α) (data : α) : Hashtable α × ℤ :=
  let index := cb.choose (key data) hash.size
  if (hash.table index).any fun bucket => cb.compare (key bucket) (key data) then (hash, -1)
  else
    ({ hash with
        table := Function.update hash.table index (hash.table index ++ [data])
        elements := hash.elements + 1 }, 0)

def hashFind (hash : Hashtable α) (keydata : κ) : Option α :=
  (hash.table (cb.choose keydata hash.size)).find? fun bucket => cb.compare (key bucket) keydata

/-- `hash_remove_bucket`: unlinks the first bucket of chain `index` that `isBucket` points out. -/
def hashRemoveBucket (hash : Hashtable α) (index : ℕ) (isBucket : α → Bool) : Hashtable α :=
  { hash with
    table := Function.update hash.table index ((hash.table index).eraseP isBucket)
    elements := hash.elements - 1 }

/-- Returns the table and the data removed from it, if any. -/
def hashRemove (hash : Hashtable α) (keydata : κ) : Hashtable α × Option α :=
  let index := cb.choose keydata hash.size
  let isBucket := fun bucket => cb.compare (key bucket) keydata
  match (hash.table index).find? isBucket with
  | none => (hash, none)
  | some data => (hashRemoveBucket hash index isBucket, some data)

def hashResize (hash : Hashtable α) (size : ℕ) : Hashtable α :=
  hash.buckets.foldl (fun newHash data => (hashAdd cb key newHash data).1) (hashNew size)

/-! ## Chains and buckets -/

theorem Hashtable.mem_buckets {hash : Hashtable α} {data : α} :
    data ∈ hash.buckets ↔ ∃ i < hash.size, data ∈ hash.table i := by
  simp [Hashtable.buckets]

@[simp] theorem Hashtable.buckets_map (hash : Hashtable α) (f : α → α) :
    (hash.map f).buckets = hash.buckets.map f := by
  simp [Hashtable.buckets, Hashtable.map, List.map_flatMap]

@[simp] theorem buckets_hashNew (size : ℕ) : (hashNew size : Hashtable α).buckets = [] := by
  simp [Hashtable.buckets, hashNew]

theorem exists_flatMap_update (table : ℕ → List α) {i size : ℕ} (hi : i < size) :
    ∃ before after : List α, ∀ chain,
      (List.range size).flatMap (Function.update table i chain) = before ++ chain ++ after := by
  obtain ⟨a, b, hab⟩ := List.append_of_mem (List.mem_range.mpr hi)
  have hnodup : (a ++ i :: b).Nodup := hab ▸ List.nodup_range
  rw [List.nodup_append, List.nodup_cons] at hnodup
  have hother : ∀ (l : List ℕ) (chain : List α), i ∉ l →
      l.flatMap (Function.update table i chain) = l.flatMap table := by
    intro l chain hl
    refine List.flatMap_congr fun j hj => Function.update_of_ne ?_ _ _
    rintro rfl
    exact hl hj
  refine ⟨a.flatMap table, b.flatMap table, fun chain => ?_⟩
  have ha : i ∉ a := fun h => hnodup.2.2 i h i (by simp) rfl
  rw [hab, List.flatMap_append, List.flatMap_cons, Function.update_self, hother a chain ha,
    hother b chain hnodup.2.1.1, List.append_assoc]

theorem exists_buckets_update (hash : Hashtable α) {i : ℕ} (hi : i < hash.size) :
    ∃ before after : List α, hash.buckets = before ++ hash.table i ++ after ∧
      ∀ chain elements,
        (⟨Function.update hash.table i chain, elements, hash.size⟩ : Hashtable α).buckets =
          before ++ chain ++ after := by
  obtain ⟨before, after, h⟩ := exists_flatMap_update hash.table hi
  refine ⟨before, after, ?_, fun chain _ => h chain⟩
  have := h (hash.table i)
  rwa [Function.update_eq_self] at this

/-! ## Well-formed tables -/

/-- What every operation keeps: each bucket is in the chain of its key, no two have equal keys, and
`elements` counts them. -/
structure Hashtable.Ok (hash : Hashtable α) : Prop where
  size_pos : 0 < hash.size
  placed : ∀ i < hash.size, ∀ data ∈ hash.table i, cb.choose (key data) hash.size = i
  distinct : hash.buckets.Pairwise fun a b => cb.compare (key a) (key b) = false
  elements_eq : hash.elements = hash.buckets.length

variable {cb key} {hash : Hashtable α}

theorem Hashtable.Ok.hashNew {size : ℕ} (h : 0 < size) :
    (hashNew size : Hashtable α).Ok cb key where
  size_pos := h
  placed _ _ _ hdata := absurd hdata (by simp [BatmanAdv.hashNew])
  distinct := by simp
  elements_eq := by rw [buckets_hashNew]; rfl

theorem HashCallbacks.Lawful.compare_false_symm (hcb : cb.Lawful) {a b : κ}
    (h : cb.compare a b = false) : cb.compare b a = false := by
  by_contra hba
  rw [hcb.symm b a (by simpa using hba)] at h
  exact Bool.noConfusion h

theorem Hashtable.Ok.eq_of_compare (ok : hash.Ok cb key) (hcb : cb.Lawful) {a b : α}
    (ha : a ∈ hash.buckets) (hb : b ∈ hash.buckets) (h : cb.compare (key a) (key b) = true) :
    a = b := by
  by_contra hne
  have : Std.Symm fun a b : α => cb.compare (key a) (key b) = false :=
    ⟨fun _ _ => hcb.compare_false_symm⟩
  have := ok.distinct.forall ha hb hne
  rw [h] at this
  exact Bool.noConfusion this

theorem Hashtable.Ok.mem_table_choose (ok : hash.Ok cb key) (hcb : cb.Lawful) {data : α} {k : κ}
    (h : cb.compare (key data) k = true) :
    data ∈ hash.table (cb.choose k hash.size) ↔ data ∈ hash.buckets := by
  rw [Hashtable.mem_buckets, ← hcb.choose_congr _ _ _ h]
  constructor
  · exact fun hmem => ⟨_, hcb.choose_lt _ _ ok.size_pos, hmem⟩
  · rintro ⟨i, hi, hmem⟩
    rwa [ok.placed i hi data hmem]

/-! ## Finding -/

theorem Hashtable.Ok.hashFind_eq_some_iff (ok : hash.Ok cb key) (hcb : cb.Lawful) {k : κ} {data : α} :
    hashFind cb key hash k = some data ↔ data ∈ hash.buckets ∧ cb.compare (key data) k = true := by
  constructor
  · intro h
    have hcmp : cb.compare (key data) k = true :=
      List.find?_some (p := fun bucket => cb.compare (key bucket) k) h
    exact ⟨(ok.mem_table_choose hcb hcmp).mp (List.mem_of_find?_eq_some h), hcmp⟩
  · rintro ⟨hmem, hcmp⟩
    cases hfind : hashFind cb key hash k with
    | none =>
      have := List.find?_eq_none.mp hfind data ((ok.mem_table_choose hcb hcmp).mpr hmem)
      exact absurd hcmp this
    | some data' =>
      have hcmp' : cb.compare (key data') k = true :=
        List.find?_some (p := fun bucket => cb.compare (key bucket) k) hfind
      have hmem' := (ok.mem_table_choose hcb hcmp').mp (List.mem_of_find?_eq_some hfind)
      rw [ok.eq_of_compare hcb hmem' hmem (hcb.trans _ _ _ hcmp' (hcb.symm _ _ hcmp))]

theorem Hashtable.Ok.hashFind_eq_none_iff (ok : hash.Ok cb key) (hcb : cb.Lawful) {k : κ} :
    hashFind cb key hash k = none ↔ ∀ data ∈ hash.buckets, cb.compare (key data) k = false := by
  constructor
  · intro h data hmem
    by_contra hcmp
    rw [(ok.hashFind_eq_some_iff hcb).mpr ⟨hmem, by simpa using hcmp⟩] at h
    exact absurd h (by simp)
  · intro h
    refine List.find?_eq_none.mpr fun data hmem => ?_
    rw [h data (Hashtable.mem_buckets.mpr ⟨_, hcb.choose_lt _ _ ok.size_pos, hmem⟩)]
    simp

/-! ## Adding, removing and resizing -/

theorem Hashtable.Ok.placed_update (ok : hash.Ok cb key) {i : ℕ} {chain : List α}
    (hchain : ∀ data ∈ chain, cb.choose (key data) hash.size = i) :
    ∀ j < hash.size, ∀ data ∈ Function.update hash.table i chain j,
      cb.choose (key data) hash.size = j := by
  intro j hj data hdata
  by_cases hji : j = i
  · subst hji
    rw [Function.update_self] at hdata
    exact hchain data hdata
  · rw [Function.update_of_ne hji] at hdata
    exact ok.placed j hj data hdata

/-- Adding an unknown key: the table holds the new data and what it held before. -/
theorem hashAdd_of_none (ok : hash.Ok cb key) (hcb : cb.Lawful) {data : α}
    (h : hashFind cb key hash (key data) = none) :
    (hashAdd cb key hash data).2 = 0 ∧
      (hashAdd cb key hash data).1.buckets.Perm (data :: hash.buckets) ∧
      (hashAdd cb key hash data).1.Ok cb key := by
  have hfresh := (ok.hashFind_eq_none_iff hcb).mp h
  have hany : ¬ ((hash.table (cb.choose (key data) hash.size)).any
      fun bucket => cb.compare (key bucket) (key data)) = true := by
    rw [List.any_eq_true]
    rintro ⟨b, hb, hcmp⟩
    exact List.find?_eq_none.mp h b hb hcmp
  have hi := hcb.choose_lt (key data) _ ok.size_pos
  obtain ⟨before, after, hold, hnew⟩ := exists_buckets_update hash hi
  unfold hashAdd
  rw [if_neg hany]
  have hperm : (before ++ (hash.table (cb.choose (key data) hash.size) ++ [data]) ++ after).Perm
      (data :: hash.buckets) := by
    rw [hold, ← List.append_assoc before, List.append_assoc _ [data], List.singleton_append]
    exact List.perm_middle
  refine ⟨rfl, by rw [hnew]; exact hperm, ok.size_pos, ok.placed_update ?_, ?_, ?_⟩
  · intro b hb
    rcases List.mem_append.mp hb with hb | hb
    · exact ok.placed _ hi b hb
    · rw [List.mem_singleton.mp hb]
  · rw [hnew]
    refine (hperm.pairwise_iff hcb.compare_false_symm).mpr (List.pairwise_cons.mpr ⟨?_, ok.distinct⟩)
    exact fun b hb => hcb.compare_false_symm (hfresh b hb)
  · rw [hnew, hperm.length_eq, List.length_cons, ← ok.elements_eq]

theorem hashRemoveBucket_spec (ok : hash.Ok cb key) (hcb : cb.Lawful) {data : α} {isBucket : α → Bool}
    {i : ℕ} (hi : i < hash.size) (hfind : (hash.table i).find? isBucket = some data) :
    hash.buckets.Perm (data :: (hashRemoveBucket hash i isBucket).buckets) ∧
      (hashRemoveBucket hash i isBucket).Ok cb key := by
  obtain ⟨before, after, hold, hnew⟩ := exists_buckets_update hash hi
  obtain ⟨hdata, pre, post, htable, hpre⟩ := List.find?_eq_some_iff_append.mp hfind
  have herase : (hash.table i).eraseP isBucket = pre ++ post := by
    rw [htable, List.eraseP_append_right _ fun b hb => by simpa using hpre b hb,
      List.eraseP_cons_of_pos hdata]
  have hperm : hash.buckets.Perm (data :: (before ++ (pre ++ post) ++ after)) := by
    rw [hold, htable, ← List.append_assoc before, ← List.append_assoc before,
      List.append_assoc _ (data :: post), List.append_assoc _ post, List.cons_append]
    exact List.perm_middle
  have hdistinct := (hperm.pairwise_iff hcb.compare_false_symm).mp ok.distinct
  unfold hashRemoveBucket
  refine ⟨by rw [hnew, herase]; exact hperm, ok.size_pos, ok.placed_update ?_, ?_, ?_⟩
  · exact fun b hb => ok.placed i hi b (List.mem_of_mem_eraseP hb)
  · rw [hnew, herase]
    exact (List.pairwise_cons.mp hdistinct).2
  · rw [hnew, herase, ok.elements_eq, hperm.length_eq, List.length_cons, Nat.add_sub_cancel]

theorem hashRemove_of_none {k : κ} (h : hashFind cb key hash k = none) :
    hashRemove cb key hash k = (hash, none) := by
  unfold hashFind at h
  unfold hashRemove
  simp only [h]

theorem hashRemove_of_some (ok : hash.Ok cb key) (hcb : cb.Lawful) {k : κ} {data : α}
    (h : hashFind cb key hash k = some data) :
    (hashRemove cb key hash k).2 = some data ∧
      hash.buckets.Perm (data :: (hashRemove cb key hash k).1.buckets) ∧
      (hashRemove cb key hash k).1.Ok cb key := by
  have hspec := hashRemoveBucket_spec ok hcb (hcb.choose_lt k _ ok.size_pos) h
  unfold hashFind at h
  unfold hashRemove
  simp only [h]
  exact ⟨trivial, hspec⟩

theorem Hashtable.Ok.map (ok : hash.Ok cb key) {f : α → α} (hf : ∀ data, key (f data) = key data) :
    (hash.map f).Ok cb key where
  size_pos := ok.size_pos
  placed i hi data hdata := by
    obtain ⟨data', hmem, rfl⟩ := List.mem_map.mp hdata
    rw [hf]
    exact ok.placed i hi data' hmem
  distinct := by
    rw [Hashtable.buckets_map, List.pairwise_map]
    simpa only [hf] using ok.distinct
  elements_eq := by
    rw [Hashtable.buckets_map, List.length_map]
    exact ok.elements_eq

theorem hashResize_spec (ok : hash.Ok cb key) (hcb : cb.Lawful) {size : ℕ} (hsize : 0 < size) :
    (hashResize cb key hash size).buckets.Perm hash.buckets ∧
      (hashResize cb key hash size).Ok cb key := by
  suffices key' : ∀ (l : List α) (acc : Hashtable α), acc.Ok cb key →
      (acc.buckets ++ l).Pairwise (fun a b => cb.compare (key a) (key b) = false) →
      (l.foldl (fun newHash data => (hashAdd cb key newHash data).1) acc).buckets.Perm
          (acc.buckets ++ l) ∧
        (l.foldl (fun newHash data => (hashAdd cb key newHash data).1) acc).Ok cb key by
    have := key' hash.buckets (hashNew size) (Hashtable.Ok.hashNew hsize) (by simpa using ok.distinct)
    rwa [buckets_hashNew, List.nil_append] at this
  intro l
  induction l with
  | nil => intro acc hacc _; simpa using hacc
  | cons data l ih =>
    intro acc hacc hdis
    have hnone : hashFind cb key acc (key data) = none :=
      (hacc.hashFind_eq_none_iff hcb).mpr fun b hb =>
        (List.pairwise_append.mp hdis).2.2 b hb data (by simp)
    obtain ⟨_, hperm, hok⟩ := hashAdd_of_none hacc hcb hnone
    have hperm' : ((hashAdd cb key acc data).1.buckets ++ l).Perm (acc.buckets ++ data :: l) :=
      (hperm.append_right l).trans List.perm_middle.symm
    obtain ⟨h1, h2⟩ := ih _ hok ((hperm'.pairwise_iff hcb.compare_false_symm).mpr hdis)
    exact ⟨h1.trans hperm', h2⟩

end BatmanAdv
