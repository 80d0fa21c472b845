import BatmanAdv.HashPointers
import BatmanAdv.State

/-!
# The hash table is a finite map

A sequence of `hash_add`, `hash_remove` and `hash_resize` on a table in memory does what the same
operations do on a map from keys to data, and the table stands for this map.
-/

namespace BatmanAdv

namespace Pointers

open Linked

variable {α κ : Type*} (cb : HashCallbacks κ) (key : α → κ)

/-! ## The map -/

inductive HashOp (α κ : Type*) where
  | add (data : α)
  | remove (data : κ)
  | resize (size : ℕ)

/-- What an operation returns; a pointer to a table says nothing of its own. -/
inductive HashRet (α : Type*) where
  | int (ret : ℤ)
  | data (data : Option α)
  | hash

/-- The operations on a map; keys that compare equal are one key. -/
def HashOp.spec (map : κ → Option α) : HashOp α κ → (κ → Option α) × HashRet α
  | .add data =>
    if (map (key data)).isSome then (map, .int (-1))
    else (fun k => if cb.compare (key data) k then some data else map k, .int 0)
  | .remove keydata =>
    (fun k => if cb.compare keydata k then none else map k, .data (map keydata))
  | .resize _ => (map, .hash)

def specOps (map : κ → Option α) : List (HashOp α κ) → (κ → Option α) × List (HashRet α)
  | [] => (map, [])
  | op :: ops =>
    let (map, ret) := op.spec cb key map
    let (map, rets) := specOps map ops
    (map, ret :: rets)

/-- The size of the table behind an operation. -/
def HashOp.sizeAfter (size : ℕ) : HashOp α κ → ℕ
  | .resize size' => size'
  | _ => size

def sizeAfter (size : ℕ) (ops : List (HashOp α κ)) : ℕ := ops.foldl HashOp.sizeAfter size

/-! ## The operations in memory -/

section Run

variable (fuel : ℕ) (malloc : Malloc α)

def HashOp.run (m : Mem α) (hash : Hashtable) : HashOp α κ → Option (Mem α × Hashtable × HashRet α)
  | .add data => (hashAdd cb key fuel malloc m hash data).map fun r => (r.1, r.2.1, .int r.2.2)
  | .remove keydata => (hashRemove cb key fuel m hash keydata).map fun r => (r.1, r.2.1, .data r.2.2)
  | .resize size => (hashResize cb key fuel malloc m hash size).map fun r => (r.1, r.2, .hash)

def runOps (m : Mem α) (hash : Hashtable) :
    List (HashOp α κ) → Option (Mem α × Hashtable × List (HashRet α))
  | [] => some (m, hash, [])
  | op :: ops =>
    (op.run cb key fuel malloc m hash).bind fun (m, hash, ret) =>
      (runOps m hash ops).map fun (m, hash, rets) => (m, hash, ret :: rets)

end Run

variable {cb key} {m m' m₀ : Mem α} {hash hash' newHash : Hashtable}
  {t s : BatmanAdv.Hashtable (ℕ × α)} {fuel n : ℕ} {malloc : Malloc α} {map : κ → Option α}
  {done : List α}

/-! ## `hash_delete` -/

theorem deleteChain_spec {p : Option ℕ} {l : List (ℕ × α)} (hseg : Seg m.cell p l none)
    (hnodup : (l.map Prod.fst).Nodup) (hfuel : l.length < n) :
    ∃ m', deleteChain n m p = some m' ∧ ∀ b, b ∉ l.map Prod.fst → m'.cell b = m.cell b := by
  induction l generalizing m p n with
  | nil =>
    obtain ⟨n, rfl⟩ := Nat.exists_eq_succ_of_ne_zero (Nat.ne_zero_of_lt hfuel)
    obtain rfl := seg_nil.mp hseg
    exact ⟨m, rfl, fun _ _ => rfl⟩
  | cons x l ih =>
    obtain ⟨n, rfl⟩ := Nat.exists_eq_succ_of_ne_zero (Nat.ne_zero_of_lt hfuel)
    obtain ⟨rfl, next, hcell, hrest⟩ := hseg
    obtain ⟨hnot, hnodup'⟩ := List.nodup_cons.mp hnodup
    obtain ⟨m', hdelete, hframe⟩ := ih (m := m.free x.1) (hrest.update hnot none) hnodup'
      (Nat.lt_of_succ_lt_succ hfuel)
    refine ⟨m', ?_, fun b hb => ?_⟩
    · rw [deleteChain, hcell]
      exact hdelete
    · rw [List.map_cons, List.mem_cons, not_or] at hb
      rw [hframe b hb.2]
      exact Function.update_of_ne hb.1 _ _

/-- **`hash_delete`** frees the buckets of the table, and nothing else. -/
theorem Rep.hashDelete (h : Rep m hash t) (hfuel : t.elements < fuel) :
    ∃ m', hashDelete fuel m hash = some m' ∧
      ∀ b, b ∉ t.buckets.map Prod.fst → m'.cell b = m.cell b := by
  have hfold : ∀ (l : List ℕ) (m' : Mem α), l.Nodup → (∀ i ∈ l, i < hash.size) →
      (∀ i ∈ l, ∀ x ∈ t.table i, m'.cell x.1 = m.cell x.1) →
      ∃ m'', l.foldlM (fun m i => deleteChain fuel m (hash.table i)) m' = some m'' ∧
        ∀ b, (∀ i ∈ l, b ∉ (t.table i).map Prod.fst) → m''.cell b = m'.cell b := by
    intro l
    induction l with
    | nil => exact fun m' _ _ _ => ⟨m', rfl, fun _ _ => rfl⟩
    | cons i l ih =>
      intro m' hnodup hlt hcell
      obtain ⟨hnot, hnodup'⟩ := List.nodup_cons.mp hnodup
      have hi := hlt i List.mem_cons_self
      obtain ⟨m1, hchain, hframe⟩ := deleteChain_spec ((h.seg i hi).congr (hcell i List.mem_cons_self))
        (h.nodup_table hi) ((h.length_table hi).trans_lt hfuel)
      obtain ⟨m2, hrest, hframe'⟩ := ih m1 hnodup' (fun j hj => hlt j (List.mem_cons_of_mem _ hj))
        fun j hj x hx => by
          rw [hframe x.1, hcell j (List.mem_cons_of_mem _ hj) x hx]
          intro hin
          obtain ⟨y, hy, hyx⟩ := List.mem_map.mp hin
          refine h.fst_ne hi (hlt j (List.mem_cons_of_mem _ hj)) ?_ hy hx hyx
          rintro rfl
          exact hnot hj
      refine ⟨m2, ?_, fun b hb => ?_⟩
      · rw [List.foldlM_cons, hchain]
        exact hrest
      · rw [hframe' b fun j hj => hb j (List.mem_cons_of_mem _ hj), hframe b (hb i List.mem_cons_self)]
  obtain ⟨m', hdelete, hframe⟩ := hfold (List.range hash.size) m List.nodup_range
    (fun i hi => List.mem_range.mp hi) fun _ _ _ _ => rfl
  refine ⟨m', hdelete, fun b hb => hframe b fun i hi hin => hb ?_⟩
  obtain ⟨x, hx, rfl⟩ := List.mem_map.mp hin
  exact List.mem_map_of_mem (h.mem_buckets (List.mem_range.mp hi) hx)

/-! ## `hash_resize` -/

/-- The new table holds these data of the old one, which is still where it was. -/
structure Copied (cb : HashCallbacks κ) (key : α → κ) (m₀ : Mem α) (t : BatmanAdv.Hashtable (ℕ × α))
    (m : Mem α) (newHash : Hashtable) (s : BatmanAdv.Hashtable (ℕ × α)) (done : List α) : Prop where
  rep : Rep m newHash s
  ok : s.Ok cb (key ∘ Prod.snd)
  perm : (s.buckets.map Prod.snd).Perm done
  old : ∀ x ∈ t.buckets, m.cell x.1 = m₀.cell x.1 ∧ x.1 ∉ s.buckets.map Prod.fst

theorem Copied.elements (h : Copied cb key m₀ t m newHash s done) : s.elements = done.length := by
  rw [h.rep.count, ← h.perm.length_eq, List.length_map]

theorem Copied.add (h : Copied cb key m₀ t m newHash s done) (hrep : Rep m₀ hash t) (hcb : cb.Lawful)
    (hmalloc : ∀ m, (malloc.addr m).isSome) (hfuel : done.length < fuel) {x : ℕ × α}
    (hnew : ∀ d ∈ done, cb.compare (key d) (key x.2) = false) :
    ∃ m' newHash' s', hashAdd cb key fuel malloc m newHash x.2 = some (m', newHash', 0) ∧
      newHash'.size = newHash.size ∧ Copied cb key m₀ t m' newHash' s' (done ++ [x.2]) := by
  obtain ⟨a, ha⟩ := Option.isSome_iff_exists.mp (hmalloc m)
  have hsize : 0 < newHash.size := h.rep.size_eq ▸ h.ok.size_pos
  have hnone : BatmanAdv.hashFind cb (key ∘ Prod.snd) s (key x.2) = none := by
    refine (h.ok.hashFind_eq_none_iff hcb).mpr fun y hy => ?_
    exact hnew y.2 (h.perm.mem_iff.mp (List.mem_map_of_mem hy))
  obtain ⟨m', newHash', hadd, hrep', hsame, hframe⟩ := h.rep.hashAdd_of_none hcb hsize
    (h.elements ▸ hfuel) ha hnone
  have hspec : _ ∧ (BatmanAdv.hashAdd cb (key ∘ Prod.snd) s (a, x.2)).1.buckets.Perm _ ∧ _ :=
    BatmanAdv.hashAdd_of_none h.ok hcb hnone
  obtain ⟨_, hperm, hok⟩ := hspec
  refine ⟨m', newHash', _, hadd, hsame, hrep', hok, ?_, fun y hy => ?_⟩
  · refine (hperm.map Prod.snd).trans ?_
    refine (h.perm.cons x.2).trans ?_
    exact (List.perm_append_singleton x.2 done).symm
  · obtain ⟨hcell, hnot⟩ := h.old y hy
    obtain ⟨next, hlive⟩ := hrep.live hy
    have hsome : (m.cell y.1).isSome := by
      rw [hcell, hlive]
      rfl
    refine ⟨(hframe y.1 hsome hnot).trans hcell, fun hin => ?_⟩
    rw [(hperm.map Prod.fst).mem_iff, List.map_cons, List.mem_cons] at hin
    rcases hin with hin | hin
    · rw [hin, malloc.fresh m a ha] at hsome
      cases hsome
    · exact hnot hin

theorem Copied.chain (hrep : Rep m₀ hash t) (hcb : cb.Lawful)
    (hmalloc : ∀ m, (malloc.addr m).isSome) {l : List (ℕ × α)} {rest : List α}
    (h : Copied cb key m₀ t m newHash s done) {p : Option ℕ} (hseg : Seg m₀.cell p l none)
    (hin : ∀ x ∈ l, x ∈ t.buckets)
    (hdis : (done ++ (l.map Prod.snd ++ rest)).Pairwise fun a b => cb.compare (key a) (key b) = false)
    (hfuel : (done ++ (l.map Prod.snd ++ rest)).length < fuel) (hn : l.length < n) :
    ∃ m' newHash' s', resizeChain cb key fuel malloc n m newHash p = some (m', newHash') ∧
      newHash'.size = newHash.size ∧ Copied cb key m₀ t m' newHash' s' (done ++ l.map Prod.snd) := by
  induction l generalizing m newHash s done p n with
  | nil =>
    obtain ⟨n, rfl⟩ := Nat.exists_eq_succ_of_ne_zero (Nat.ne_zero_of_lt hn)
    obtain rfl := seg_nil.mp hseg
    refine ⟨m, newHash, s, rfl, rfl, ?_⟩
    rwa [List.map_nil, List.append_nil]
  | cons x l ih =>
    obtain ⟨n, rfl⟩ := Nat.exists_eq_succ_of_ne_zero (Nat.ne_zero_of_lt hn)
    obtain ⟨rfl, next, hcell, hrest⟩ := hseg
    have hx := hin x List.mem_cons_self
    have hdone : done.length < fuel := by
      simp only [List.length_append] at hfuel
      omega
    obtain ⟨m1, newHash1, s1, hadd, hsame, h1⟩ := h.add hrep hcb hmalloc hdone (x := x) fun d hd =>
      (List.pairwise_append.mp hdis).2.2 d hd x.2 (by simp)
    rw [List.map_cons, List.cons_append, ← List.singleton_append, ← List.append_assoc] at hdis hfuel
    obtain ⟨m2, newHash2, s2, hchain, hsame', h2⟩ := ih h1 hrest
      (fun y hy => hin y (List.mem_cons_of_mem _ hy)) hdis hfuel (Nat.lt_of_succ_lt_succ hn)
    refine ⟨m2, newHash2, s2, ?_, hsame'.trans hsame, ?_⟩
    · rw [resizeChain, (h.old x hx).1, hcell]
      dsimp only
      rw [hadd]
      dsimp only
      rw [(h1.old x hx).1, hcell]
      exact hchain
    · rw [List.map_cons, ← List.singleton_append, ← List.append_assoc]
      exact h2

/-- **`hash_resize`** keeps every entry. -/
theorem Rep.hashResize (h : Rep m hash t) (ok : t.Ok cb (key ∘ Prod.snd)) (hcb : cb.Lawful)
    (hmalloc : ∀ m, (malloc.addr m).isSome) (hfuel : t.elements < fuel) {size : ℕ} (hsize : 0 < size) :
    ∃ m' newHash s, hashResize cb key fuel malloc m hash size = some (m', newHash) ∧
      newHash.size = size ∧ Rep m' newHash s ∧ s.Ok cb (key ∘ Prod.snd) ∧
      (s.buckets.map Prod.snd).Perm (t.buckets.map Prod.snd) := by
  have hdis : (t.buckets.map Prod.snd).Pairwise fun a b => cb.compare (key a) (key b) = false :=
    List.pairwise_map.mpr ok.distinct
  have hlen : (t.buckets.map Prod.snd).length < fuel := by rwa [List.length_map, ← h.count]
  have hbuckets : t.buckets = (List.range hash.size).flatMap t.table := by
    rw [← h.size_eq]
    rfl
  have hfold : ∀ (l pre : List ℕ) (m' : Mem α) (newHash : Hashtable)
      (s : BatmanAdv.Hashtable (ℕ × α)), List.range hash.size = pre ++ l →
      Copied cb key m t m' newHash s ((pre.flatMap t.table).map Prod.snd) →
      ∃ m'' newHash' s',
        l.foldlM (fun r i => resizeChain cb key fuel malloc fuel r.1 r.2 (hash.table i))
          (m', newHash) = some (m'', newHash') ∧ newHash'.size = newHash.size ∧
        Copied cb key m t m'' newHash' s' (t.buckets.map Prod.snd) := by
    intro l
    induction l with
    | nil =>
      intro pre m' newHash s hrange hcopied
      rw [List.append_nil] at hrange
      refine ⟨m', newHash, s, rfl, rfl, ?_⟩
      rw [hbuckets, hrange]
      exact hcopied
    | cons i l ih =>
      intro pre m' newHash s hrange hcopied
      have hi : i < hash.size := List.mem_range.mp (by rw [hrange]; simp)
      have hall : t.buckets.map Prod.snd = (pre.flatMap t.table).map Prod.snd ++
          ((t.table i).map Prod.snd ++ (l.flatMap t.table).map Prod.snd) := by
        rw [hbuckets, hrange]
        simp
      obtain ⟨m1, newHash1, s1, hchain, hsame, h1⟩ := Copied.chain h hcb hmalloc hcopied (h.seg i hi)
        (fun x hx => h.mem_buckets hi hx) (hall ▸ hdis) (hall ▸ hlen)
        ((h.length_table hi).trans_lt hfuel)
      obtain ⟨m2, newHash2, s2, hrest, hsame', h2⟩ := ih (pre ++ [i]) m1 newHash1 s1
        (by rw [hrange]; simp) (by simpa using h1)
      refine ⟨m2, newHash2, s2, ?_, hsame'.trans hsame, h2⟩
      rw [List.foldlM_cons]
      dsimp only
      rw [hchain]
      exact hrest
  have hstart : Copied cb key m t m (Pointers.hashNew size) (BatmanAdv.hashNew size) [] := by
    refine ⟨Rep.hashNew m size, Hashtable.Ok.hashNew hsize, ?_, fun x _ => ⟨rfl, ?_⟩⟩
    · rw [buckets_hashNew]
      exact .nil
    · rw [buckets_hashNew]
      exact List.not_mem_nil
  obtain ⟨m1, newHash, s, hcopy, hsame, hcopied⟩ := hfold (List.range hash.size) [] m _ _ rfl hstart
  obtain ⟨m2, hdelete, hframe⟩ := (h.congr fun x hx => (hcopied.old x hx).1).hashDelete hfuel
  refine ⟨m2, newHash, s, ?_, hsame, hcopied.rep.congr fun x hx => hframe _ fun hin => ?_, hcopied.ok,
    hcopied.perm⟩
  · show Option.bind ((List.range hash.size).foldlM
      (fun r i => resizeChain cb key fuel malloc fuel r.1 r.2 (hash.table i))
      (m, Pointers.hashNew size)) _ = _
    rw [hcopy, Option.bind_some]
    dsimp only
    rw [hdelete]
    rfl
  · obtain ⟨y, hy, hyx⟩ := List.mem_map.mp hin
    exact (hcopied.old y hy).2 (hyx ▸ List.mem_map_of_mem hx)

/-! ## Sequences of operations -/

/-- The table in memory stands for the map: its data are those of the map, and are well placed. -/
structure Stands (cb : HashCallbacks κ) (key : α → κ) (m : Mem α) (hash : Hashtable)
    (t : BatmanAdv.Hashtable (ℕ × α)) (map : κ → Option α) : Prop where
  rep : Rep m hash t
  ok : t.Ok cb (key ∘ Prod.snd)
  map_iff : ∀ k d, map k = some d ↔ d ∈ t.buckets.map Prod.snd ∧ cb.compare (key d) k = true

theorem Stands.find (h : Stands cb key m hash t map) (hcb : cb.Lawful) (k : κ) :
    (BatmanAdv.hashFind cb (key ∘ Prod.snd) t k).map Prod.snd = map k := by
  apply Option.ext
  intro d
  rw [h.map_iff, Option.map_eq_some_iff]
  constructor
  · rintro ⟨x, hfind, rfl⟩
    obtain ⟨hx, hcmp⟩ := (h.ok.hashFind_eq_some_iff hcb).mp hfind
    exact ⟨List.mem_map_of_mem hx, hcmp⟩
  · rintro ⟨hd, hcmp⟩
    obtain ⟨x, hx, rfl⟩ := List.mem_map.mp hd
    exact ⟨x, (h.ok.hashFind_eq_some_iff hcb).mpr ⟨hx, hcmp⟩, rfl⟩

theorem Stands.size_pos (h : Stands cb key m hash t map) : 0 < hash.size := h.rep.size_eq ▸ h.ok.size_pos

theorem Stands.find_none (h : Stands cb key m hash t map) (hcb : cb.Lawful) {k : κ}
    (hnone : map k = none) : BatmanAdv.hashFind cb (key ∘ Prod.snd) t k = none := by
  rw [← h.find hcb, Option.map_eq_none_iff] at hnone
  exact hnone

theorem HashOp.spec_add_of_some {data d : α} (h : map (key data) = some d) :
    (HashOp.add data).spec cb key map = (map, .int (-1)) := by
  show (if (map (key data)).isSome then _ else _) = _
  rw [h]
  rfl

theorem HashOp.spec_add_of_none {data : α} (h : map (key data) = none) :
    (HashOp.add data).spec cb key map =
      (fun k => if cb.compare (key data) k then some data else map k, .int 0) := by
  show (if (map (key data)).isSome then _ else _) = _
  rw [h]
  rfl

/-- **`hash_add`.** -/
theorem Stands.add (h : Stands cb key m hash t map) (hcb : cb.Lawful)
    (hmalloc : ∀ m, (malloc.addr m).isSome) (hfuel : t.elements < fuel) (data : α) :
    ∃ m' hash' t' ret, hashAdd cb key fuel malloc m hash data = some (m', hash', ret) ∧
      ((HashOp.add data).spec cb key map).2 = .int ret ∧
      Stands cb key m' hash' t' ((HashOp.add data).spec cb key map).1 ∧
      t'.elements ≤ t.elements + 1 ∧ hash'.size = hash.size ∧
      (ret = -1 ∧ m' = m ∧ hash' = hash ∨ ret = 0 ∧ map (key data) = none) := by
  cases hmap : map (key data) with
  | some d =>
    rw [HashOp.spec_add_of_some hmap]
    rw [← h.find hcb, Option.map_eq_some_iff] at hmap
    obtain ⟨x, hfind, _⟩ := hmap
    refine ⟨m, hash, t, -1, h.rep.hashAdd_of_some hcb h.size_pos hfuel hfind, rfl, h, Nat.le_succ _,
      rfl, .inl ⟨rfl, rfl, rfl⟩⟩
  | none =>
    rw [HashOp.spec_add_of_none hmap]
    have hnone := h.find_none hcb hmap
    obtain ⟨a, ha⟩ := Option.isSome_iff_exists.mp (hmalloc m)
    obtain ⟨m', hash', hadd, hrep, hsame, _⟩ := h.rep.hashAdd_of_none hcb h.size_pos hfuel ha hnone
    have hspec : _ ∧ (BatmanAdv.hashAdd cb (key ∘ Prod.snd) t (a, data)).1.buckets.Perm _ ∧ _ :=
      BatmanAdv.hashAdd_of_none h.ok hcb hnone
    obtain ⟨_, hperm, hok⟩ := hspec
    refine ⟨m', hash', _, 0, hadd, rfl, ⟨hrep, hok, fun k d => ?_⟩, ?_, hsame, .inr ⟨rfl, rfl⟩⟩
    · dsimp only
      rw [(hperm.map Prod.snd).mem_iff, List.map_cons, List.mem_cons]
      by_cases hk : cb.compare (key data) k = true
      · rw [if_pos hk]
        constructor
        · intro hd
          obtain rfl := Option.some.inj hd
          exact ⟨.inl rfl, hk⟩
        · rintro ⟨rfl | hd, hcmp⟩
          · rfl
          · -- a key that compares equal would have been found
            have hold := (h.map_iff (key data) d).mpr
              ⟨hd, hcb.trans _ _ _ hcmp (hcb.symm _ _ hk)⟩
            rw [hmap] at hold
            cases hold
      · rw [if_neg hk, h.map_iff]
        constructor
        · exact fun hd => ⟨.inr hd.1, hd.2⟩
        · rintro ⟨rfl | hd, hcmp⟩
          · exact absurd hcmp hk
          · exact ⟨hd, hcmp⟩
    · rw [hrep.count, hperm.length_eq, List.length_cons, h.rep.count]

/-- **`hash_remove`.** -/
theorem Stands.remove (h : Stands cb key m hash t map) (hcb : cb.Lawful) (hfuel : t.elements < fuel)
    (keydata : κ) :
    ∃ m' hash' t', hashRemove cb key fuel m hash keydata = some (m', hash', map keydata) ∧
      Stands cb key m' hash' t' ((HashOp.remove (α := α) keydata).spec cb key map).1 ∧
      t'.elements ≤ t.elements ∧ hash'.size = hash.size := by
  obtain ⟨m', hash', hremove, hrep, hsame⟩ : ∃ m' hash', hashRemove cb key fuel m hash keydata = _ ∧ _ :=
    h.rep.hashRemove hcb h.size_pos hfuel keydata
  have hfound := h.find hcb keydata
  show ∃ m' hash' t', _ ∧
    Stands cb key m' hash' t' (fun k => if cb.compare keydata k then none else map k) ∧ _
  cases hfind : BatmanAdv.hashFind cb (key ∘ Prod.snd) t keydata with
  | none =>
    rw [BatmanAdv.hashRemove_of_none hfind] at hremove hrep
    rw [hfind] at hfound
    refine ⟨m', hash', t, by rw [hremove, ← hfound], ⟨hrep, h.ok, fun k d => ?_⟩, le_rfl, hsame⟩
    by_cases hk : cb.compare keydata k = true
    · rw [if_pos hk]
      refine iff_of_false (by simp) ?_
      rintro ⟨hd, hcmp⟩
      have hold := (h.map_iff keydata d).mpr ⟨hd, hcb.trans _ _ _ hcmp (hcb.symm _ _ hk)⟩
      rw [← hfound] at hold
      cases hold
    · rw [if_neg hk, h.map_iff]
  | some x =>
    obtain ⟨hdata, hperm, hok⟩ := BatmanAdv.hashRemove_of_some h.ok hcb hfind
    obtain ⟨hx, hxkey⟩ := (h.ok.hashFind_eq_some_iff hcb).mp hfind
    rw [hfind] at hfound
    rw [hdata] at hremove
    refine ⟨m', hash', _, by rw [hremove, ← hfound], ⟨hrep, hok, fun k d => ?_⟩, ?_, hsame⟩
    · have hmem := fun d => (hperm.map Prod.snd).mem_iff (a := d)
      simp only [List.map_cons, List.mem_cons] at hmem
      by_cases hk : cb.compare keydata k = true
      · rw [if_pos hk]
        refine iff_of_false (by simp) ?_
        rintro ⟨hd, hcmp⟩
        obtain ⟨y, hy, rfl⟩ := List.mem_map.mp hd
        have hdis := (List.pairwise_cons.mp
          ((hperm.pairwise_iff hcb.compare_false_symm).mp h.ok.distinct)).1 y hy
        have hsame : cb.compare (key x.2) (key y.2) = true :=
          hcb.trans _ _ _ hxkey (hcb.trans _ _ _ hk (hcb.symm _ _ hcmp))
        rw [Function.comp_apply, Function.comp_apply, hsame] at hdis
        cases hdis
      · rw [if_neg hk, h.map_iff, hmem]
        constructor
        · rintro ⟨rfl | hd, hcmp⟩
          · exact absurd (hcb.trans _ _ _ (hcb.symm _ _ hxkey) hcmp) hk
          · exact ⟨hd, hcmp⟩
        · exact fun hd => ⟨.inr hd.1, hd.2⟩
    · rw [hrep.count, h.rep.count, hperm.length_eq, List.length_cons]
      exact Nat.le_succ _

/-- **One operation.** -/
theorem Stands.run (h : Stands cb key m hash t map) (hcb : cb.Lawful)
    (hmalloc : ∀ m, (malloc.addr m).isSome) (hfuel : t.elements < fuel) (op : HashOp α κ)
    (hresize : ∀ size, op = .resize size → 0 < size) :
    ∃ m' hash' t', op.run cb key fuel malloc m hash = some (m', hash', (op.spec cb key map).2) ∧
      Stands cb key m' hash' t' (op.spec cb key map).1 ∧ t'.elements ≤ t.elements + 1 ∧
      hash'.size = op.sizeAfter hash.size := by
  cases op with
  | add data =>
    obtain ⟨m', hash', t', ret, hadd, hret, hstands, hle, hsame, _⟩ := h.add hcb hmalloc hfuel data
    refine ⟨m', hash', t', ?_, hstands, hle, hsame⟩
    rw [hret]
    unfold HashOp.run
    dsimp only
    rw [hadd]
    rfl
  | remove keydata =>
    obtain ⟨m', hash', t', hremove, hstands, hle, hsame⟩ := h.remove hcb hfuel keydata
    refine ⟨m', hash', t', ?_, hstands, hle.trans (Nat.le_succ _), hsame⟩
    unfold HashOp.run
    dsimp only
    rw [hremove]
    rfl
  | resize size =>
    obtain ⟨m', hash', s, hresized, hsame, hrep, hok, hperm⟩ :=
      h.rep.hashResize h.ok hcb hmalloc hfuel (hresize size rfl)
    refine ⟨m', hash', s, ?_, ⟨hrep, hok, fun k d => ?_⟩, ?_, hsame⟩
    · unfold HashOp.run
      dsimp only
      rw [hresized]
      rfl
    · rw [hperm.mem_iff]
      exact h.map_iff k d
    · have hlen := hperm.length_eq
      rw [List.length_map, List.length_map, ← hrep.count, ← h.rep.count] at hlen
      omega

/-- **A sequence of operations.** -/
theorem Stands.runOps (hcb : cb.Lawful) (hmalloc : ∀ m, (malloc.addr m).isSome)
    (ops : List (HashOp α κ)) (h : Stands cb key m hash t map)
    (hresize : ∀ size, .resize size ∈ ops → 0 < size) (hfuel : t.elements + ops.length ≤ fuel) :
    ∃ m' hash' t', runOps cb key fuel malloc m hash ops =
        some (m', hash', (specOps cb key map ops).2) ∧
      Stands cb key m' hash' t' (specOps cb key map ops).1 ∧
      t'.elements ≤ t.elements + ops.length ∧ hash'.size = sizeAfter hash.size ops := by
  induction ops generalizing m hash t map with
  | nil => exact ⟨m, hash, t, rfl, h, le_rfl, rfl⟩
  | cons op ops ih =>
    rw [List.length_cons] at hfuel
    have hlt : t.elements < fuel := by omega
    obtain ⟨m1, hash1, t1, hrun, h1, hle, hsize⟩ := h.run hcb hmalloc hlt op fun size hop =>
      hresize size (hop ▸ List.mem_cons_self)
    obtain ⟨m2, hash2, t2, hruns, h2, hle', hsize'⟩ := ih h1
      (fun size hmem => hresize size (List.mem_cons_of_mem _ hmem)) (by omega)
    refine ⟨m2, hash2, t2, ?_, h2, by rw [List.length_cons]; omega, ?_⟩
    · rw [Pointers.runOps, hrun, Option.bind_some]
      dsimp only
      rw [hruns]
      rfl
    · rw [hsize', hsize]
      rfl

/-- **The hash table refines a finite map.** Every sequence of operations, from `hash_new` on, returns what
it returns on the map; the table then finds what is in the map, adds what is not, counts its entries, has the
size last asked for, and has each one in the chain of its index. -/
theorem hash_refines_map (hcb : cb.Lawful) (hmalloc : ∀ m, (malloc.addr m).isSome) (m₀ : Mem α)
    {size : ℕ} (hsize : 0 < size) (ops : List (HashOp α κ))
    (hresize : ∀ size, .resize size ∈ ops → 0 < size) (hfuel : ops.length < fuel) :
    let spec := specOps cb key (fun _ => none) ops
    ∃ m hash, runOps cb key fuel malloc m₀ (hashNew size) ops = some (m, hash, spec.2) ∧
      (∀ k, hashFind cb key fuel m hash k = some (spec.1 k)) ∧
      (∀ data, ∃ m' hash' ret, hashAdd cb key fuel malloc m hash data = some (m', hash', ret) ∧
        (ret = -1 ∧ m' = m ∧ hash' = hash ↔ (spec.1 (key data)).isSome)) ∧
      ∃ t, Rep m hash t ∧ hash.elements = t.buckets.length ∧ hash.size = sizeAfter size ops ∧
        (∀ k d, spec.1 k = some d ↔
          d ∈ t.buckets.map Prod.snd ∧ cb.compare (key d) k = true) ∧
        (t.buckets.Pairwise fun x y => cb.compare (key x.2) (key y.2) = false) ∧
        ∀ i < hash.size, ∀ x ∈ t.table i, cb.choose (key x.2) hash.size = i := by
  intro spec
  have hstart : Stands cb key m₀ (hashNew size) (BatmanAdv.hashNew size) fun _ => none := by
    refine ⟨Rep.hashNew m₀ size, Hashtable.Ok.hashNew hsize, fun k d => ?_⟩
    rw [buckets_hashNew]
    simp
  have hzero : (BatmanAdv.hashNew size : BatmanAdv.Hashtable (ℕ × α)).elements = 0 := rfl
  have hroom : (BatmanAdv.hashNew size : BatmanAdv.Hashtable (ℕ × α)).elements + ops.length ≤ fuel := by
    rw [hzero]
    omega
  obtain ⟨m, hash, t, hruns, h, hle, hlast⟩ := hstart.runOps hcb hmalloc ops hresize hroom
  have hlt : t.elements < fuel := by omega
  refine ⟨m, hash, hruns, fun k => ?_, fun data => ?_, t, h.rep, ?_, hlast, h.map_iff, h.ok.distinct,
    ?_⟩
  · rw [h.rep.hashFind hcb h.size_pos hlt, h.find hcb]
  · obtain ⟨m', hash', t', ret, hadd, hret, _, _, _, hcase⟩ := h.add hcb hmalloc hlt data
    refine ⟨m', hash', ret, hadd, ?_⟩
    rcases hcase with ⟨rfl, rfl, rfl⟩ | ⟨rfl, hnone⟩
    · refine iff_of_true ⟨rfl, rfl, rfl⟩ ?_
      rw [Option.isSome_iff_ne_none]
      intro hnone
      rw [HashOp.spec_add_of_none hnone] at hret
      cases hret
    · refine iff_of_false (fun hall => absurd hall.1 (by decide)) ?_
      rw [hnone]
      exact Bool.false_ne_true
  · rw [h.rep.elements_eq, h.rep.count]
  · intro i hi x hx
    rw [← h.rep.size_eq] at hi ⊢
    exact h.ok.placed i hi x hx

/-- An address is added twice, the table resized, and the address removed. -/
theorem hash_refines_map_twice :
    let mac : Mac := ⟨2, 0, 0, 0, 0, 0x0a⟩
    ∃ m hash, runOps macCallbacks id 5 Malloc.bump Mem.empty (hashNew 128)
        [.add mac, .add mac, .resize 4, .remove mac] =
      some (m, hash, [.int 0, .int (-1), .hash, .data (some mac)]) ∧ hash.size = 4 := by
  intro mac
  let ops : List (HashOp Mac Mac) := [.add mac, .add mac, .resize 4, .remove mac]
  have hrefines : ∃ m hash, runOps macCallbacks id 5 Malloc.bump Mem.empty (hashNew 128) ops =
      some (m, hash, (specOps macCallbacks id (fun _ => none) ops).2) ∧ _ :=
    hash_refines_map macCallbacks_lawful (fun _ => rfl) Mem.empty (by decide) ops (by simp [ops])
      (by decide)
  obtain ⟨m, hash, hruns, _, _, _, _, _, hsize, _⟩ := hrefines
  exact ⟨m, hash, hruns, hsize⟩

end Pointers

end BatmanAdv
