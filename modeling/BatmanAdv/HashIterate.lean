import BatmanAdv.HashPointers

/-!
# Going through the table while removing from it

`hash_iterate` finds the bucket behind the one it returned last. If that one was removed in between, its
address only tells it so: the head of the chain, or the bucket before it, does not point there any more.
The loop returns every bucket once, and what is not removed stays.
-/

namespace BatmanAdv

namespace Pointers

open Linked

variable {α : Type*} {m m' : Mem α} {hash hash' : Hashtable} {t : BatmanAdv.Hashtable (ℕ × α)}
  {i j : ℕ} {pre post : List (ℕ × α)} {x y : ℕ × α} {it it' : HashIt}

/-! ## What is still to come -/

def restFrom (t : BatmanAdv.Hashtable (ℕ × α)) (i : ℕ) : List (ℕ × α) :=
  (List.range' i (t.size - i)).flatMap t.table

/-- The iterator has returned `x`. -/
structure Reached (t : BatmanAdv.Hashtable (ℕ × α)) (it : HashIt) (i : ℕ) (pre : List (ℕ × α))
    (x : ℕ × α) (post : List (ℕ × α)) : Prop where
  lt : i < t.size
  index_eq : it.index = i
  points : Points it i pre x.1
  table_eq : t.table i = pre ++ x :: post

/-- The iterator has returned `bucket`, which may have been removed since. -/
structure Left (t : BatmanAdv.Hashtable (ℕ × α)) (it : HashIt) (i : ℕ) (pre : List (ℕ × α))
    (bucket : ℕ) (post : List (ℕ × α)) : Prop where
  lt : i < t.size
  index_eq : it.index = i
  points : Points it i pre bucket
  table_eq : (∃ data, t.table i = pre ++ (bucket, data) :: post) ∨
    t.table i = pre ++ post ∧ bucket ∉ (pre ++ post).map Prod.fst

/-- With these buckets to come, `hash_iterate` returns the first of them. -/
def Returns (m : Mem α) (hash : Hashtable) (t : BatmanAdv.Hashtable (ℕ × α)) (iterIn : Option HashIt) :
    List (ℕ × α) → Prop
  | [] => hashIterate m hash iterIn = some none
  | x :: r => ∃ it i pre post, hashIterate m hash iterIn = some (some it) ∧
      Reached t it i pre x post ∧ post ++ restFrom t (i + 1) = r

def keptBuckets (removes : List (ℕ × α) → Bool) :
    List (ℕ × α) → List (ℕ × α) → List (ℕ × α)
  | _, [] => []
  | visited, x :: r =>
    if removes (visited ++ [x]) then keptBuckets removes (visited ++ [x]) r
    else x :: keptBuckets removes (visited ++ [x]) r

theorem restFrom_of_lt (hi : i < t.size) : restFrom t i = t.table i ++ restFrom t (i + 1) := by
  unfold restFrom
  rw [show t.size - i = t.size - (i + 1) + 1 by omega, List.range'_succ, List.flatMap_cons]

theorem restFrom_of_le (hi : t.size ≤ i) : restFrom t i = [] := by
  unfold restFrom
  rw [Nat.sub_eq_zero_of_le hi]
  rfl

theorem buckets_eq_restFrom (t : BatmanAdv.Hashtable (ℕ × α)) : t.buckets = restFrom t 0 := by
  unfold Hashtable.buckets restFrom
  rw [List.range_eq_range', Nat.sub_zero]

theorem buckets_eq_append (hi : i < t.size) :
    t.buckets = (List.range i).flatMap t.table ++ (t.table i ++ restFrom t (i + 1)) := by
  rw [← restFrom_of_lt hi]
  unfold Hashtable.buckets restFrom
  rw [← List.flatMap_append, List.range_eq_range', List.range_eq_range']
  congr 1
  have := List.range'_append_1 (s := 0) (m := i) (n := t.size - i)
  rw [Nat.zero_add] at this
  rw [this]
  congr 1
  omega

theorem restFrom_update {chain : List (ℕ × α)} {n : ℕ} :
    restFrom ⟨Function.update t.table i chain, n, t.size⟩ (i + 1) = restFrom t (i + 1) ∧
      (List.range i).flatMap (Function.update t.table i chain) = (List.range i).flatMap t.table := by
  constructor
  · unfold restFrom
    apply List.flatMap_congr
    intro j hj
    apply Function.update_of_ne
    have := (List.mem_range'_1.mp hj).1
    omega
  · apply List.flatMap_congr
    intro j hj
    apply Function.update_of_ne
    have := List.mem_range.mp hj
    omega

/-! ## One call -/

theorem Rep.nextChain (h : Rep m hash t) {iterIn : Option HashIt} (j : ℕ)
    (hiter : hashIterate m hash iterIn = some (nextChain hash j)) :
    Returns m hash t iterIn (restFrom t j) := by
  have hfind : ∀ n j, hash.size - j = n →
      (restFrom t j = [] ∧ (List.range' j n).find? (fun i => (hash.table i).isSome) = none) ∨
      ∃ i x post, i < hash.size ∧ t.table i = x :: post ∧
        restFrom t j = x :: (post ++ restFrom t (i + 1)) ∧
        (List.range' j n).find? (fun i => (hash.table i).isSome) = some i := by
    intro n
    induction n with
    | zero =>
      intro j hj
      refine .inl ⟨restFrom_of_le ?_, rfl⟩
      rw [h.size_eq]
      omega
    | succ n ih =>
      intro j hj
      have hlt : j < hash.size := by omega
      have hhead := (h.seg j hlt).head
      rw [List.range'_succ, List.find?_cons, restFrom_of_lt (h.size_eq.symm ▸ hlt)]
      cases htable : t.table j with
      | nil =>
        rw [htable] at hhead
        rw [hhead]
        exact ih (j + 1) (by omega)
      | cons x post =>
        rw [htable] at hhead
        rw [hhead]
        exact .inr ⟨j, x, post, hlt, htable, rfl, rfl⟩
  rcases hfind (hash.size - j) j rfl with ⟨hnil, hnone⟩ | ⟨i, x, post, hi, htable, hrest, hsome⟩
  · rw [hnil]
    show hashIterate m hash iterIn = some none
    rw [hiter, Pointers.nextChain, hnone]
    rfl
  · rw [hrest]
    have hhead := (h.seg i hi).head
    rw [htable] at hhead
    refine ⟨{ index := i, bucket := hash.table i, prevBucket := none, firstBucket := some i }, i, [], post,
      ?_, ⟨h.size_eq.symm ▸ hi, rfl, ⟨hhead, .inl ⟨rfl, rfl, rfl⟩⟩, htable⟩, rfl⟩
    rw [hiter, Pointers.nextChain, hsome]
    rfl

/-- The iterator points to a bucket of the table: the one behind it is next. -/
theorem Rep.iterate_sane (h : Rep m hash t) (hi : i < t.size)
    (hcheck : checkBucket m hash it = some (.sane it')) (hbucket : it'.bucket = some y.1)
    (hindex : it'.index = i) (htable : t.table i = pre ++ y :: post) :
    Returns m hash t (some it) (post ++ restFrom t (i + 1)) := by
  have hseg := h.seg i (h.size_eq ▸ hi)
  rw [htable] at hseg
  have hcell := hseg.next
  cases post with
  | nil =>
    rw [List.nil_append]
    refine h.nextChain (i + 1) ?_
    unfold hashIterate
    dsimp only [Option.getD_some]
    rw [hcheck]
    dsimp only
    rw [hbucket]
    dsimp only
    rw [hcell]
    dsimp only [List.head?_nil, Option.map_none]
    rw [hindex]
    rfl
  | cons x post =>
    refine ⟨{ it' with prevBucket := some y.1, bucket := some x.1, firstBucket := none }, i, pre ++ [y],
      post, ?_, ⟨hi, hindex, ⟨rfl, .inr ⟨pre, y, rfl, rfl, rfl⟩⟩, ?_⟩, rfl⟩
    · unfold hashIterate
      dsimp only [Option.getD_some]
      rw [hcheck]
      dsimp only
      rw [hbucket]
      dsimp only
      rw [hcell]
      rfl
    · rw [htable, List.append_assoc]
      rfl

/-- **`hash_iterate`** returns the first bucket of those to come, whether or not the last one was
removed. -/
theorem Left.returns {bucket : ℕ} (hleft : Left t it i pre bucket post) (h : Rep m hash t) :
    Returns m hash t (some it) (post ++ restFrom t (i + 1)) := by
  have hi : i < hash.size := h.size_eq ▸ hleft.lt
  have hseg := h.seg i hi
  have hbucket := hleft.points.bucket_eq
  rcases hleft.table_eq with ⟨data, htable⟩ | ⟨htable, hgone⟩
  · -- it is still there
    rw [htable] at hseg
    refine h.iterate_sane hleft.lt (y := (bucket, data)) ?_ hbucket hleft.index_eq htable
    unfold checkBucket
    rw [hbucket]
    dsimp only
    rcases hleft.points.place with ⟨rfl, hprev, hfirst⟩ | ⟨l, y, rfl, hprev, hfirst⟩
    · rw [hfirst]
      dsimp only
      rw [if_neg (by rw [hseg.head]; simp)]
    · rw [hfirst, hprev]
      dsimp only
      rw [List.append_assoc, List.singleton_append] at hseg
      rw [hseg.next]
      simp
  · rw [htable] at hseg
    rcases hleft.points.place with ⟨rfl, hprev, hfirst⟩ | ⟨l, y, rfl, hprev, hfirst⟩
    · -- the first one of its chain is gone
      have hhead := hseg.head
      rw [List.nil_append] at hhead htable hgone
      have hne : hash.table i ≠ some bucket := by
        intro heq
        rw [hhead] at heq
        obtain ⟨z, hz, rfl⟩ := Option.map_eq_some_iff.mp heq
        exact hgone (List.mem_map_of_mem (List.mem_of_mem_head? hz))
      cases post with
      | nil =>
        refine h.nextChain (i + 1) ?_
        unfold hashIterate checkBucket
        dsimp only [Option.getD_some]
        rw [hbucket, hfirst]
        dsimp only
        rw [if_pos hne, hhead, hleft.index_eq]
        rfl
      | cons x post =>
        refine ⟨{ it with prevBucket := none, bucket := some x.1, firstBucket := some it.index.toNat },
          i, [], post, ?_, ⟨hleft.lt, hleft.index_eq, ⟨rfl, .inl ⟨rfl, rfl, ?_⟩⟩, htable⟩, rfl⟩
        · unfold hashIterate checkBucket
          dsimp only [Option.getD_some]
          rw [hbucket, hfirst]
          dsimp only
          rw [if_pos hne, hhead]
          rfl
        · dsimp only
          rw [hleft.index_eq]
          rfl
    · -- one further down is gone
      rw [List.append_assoc, List.singleton_append] at hseg htable
      have hcell := hseg.next
      have hne : post.head?.map Prod.fst ≠ some bucket := by
        intro heq
        obtain ⟨z, hz, rfl⟩ := Option.map_eq_some_iff.mp heq
        exact hgone (List.mem_map_of_mem (List.mem_append_right _ (List.mem_of_mem_head? hz)))
      have hcheck : checkBucket m hash it = some (.sane { it with bucket := some y.1 }) := by
        unfold checkBucket
        rw [hbucket, hfirst, hprev]
        dsimp only
        rw [hcell, Option.map_some, if_pos hne]
      exact h.iterate_sane hleft.lt hcheck rfl hleft.index_eq htable

/-! ## The loop -/

/-- What comes first: the iterator is not there yet, or has returned a bucket. -/
def Resumes (t : BatmanAdv.Hashtable (ℕ × α)) (iterIn : Option HashIt) (r : List (ℕ × α)) : Prop :=
  iterIn = none ∧ r = t.buckets ∨
    ∃ it i pre bucket post, iterIn = some it ∧ Left t it i pre bucket post ∧
      r = post ++ restFrom t (i + 1)

theorem Resumes.returns {iterIn : Option HashIt} {r : List (ℕ × α)} (hr : Resumes t iterIn r)
    (h : Rep m hash t) : Returns m hash t iterIn r := by
  rcases hr with ⟨rfl, rfl⟩ | ⟨it, i, pre, bucket, post, rfl, hleft, rfl⟩
  · rw [buckets_eq_restFrom]
    exact h.nextChain 0 rfl
  · exact hleft.returns h

theorem Reached.kept (hreached : Reached t it i pre x post) : Left t it i pre x.1 post :=
  ⟨hreached.lt, hreached.index_eq, hreached.points, .inl ⟨x.2, hreached.table_eq⟩⟩

theorem Reached.buckets_eq (hreached : Reached t it i pre x post) :
    t.buckets = ((List.range i).flatMap t.table ++ pre) ++ x :: (post ++ restFrom t (i + 1)) := by
  rw [buckets_eq_append hreached.lt, hreached.table_eq]
  simp

/-- **Removing it** with `hash_remove_bucket`. -/
theorem Reached.removed (hreached : Reached t it i pre x post) (h : Rep m hash t) :
    ∃ m' hash' t', hashRemoveBucket m hash it = some (m', hash', x.2) ∧ Rep m' hash' t' ∧
      Left t' it i pre x.1 post ∧ restFrom t' (i + 1) = restFrom t (i + 1) ∧
      t'.buckets = ((List.range i).flatMap t.table ++ pre) ++ (post ++ restFrom t (i + 1)) := by
  obtain ⟨m', hash', hremove, hrep, _⟩ := h.hashRemoveBucket (h.size_eq ▸ hreached.lt)
    hreached.table_eq hreached.points
  have hwas := h.nodup_table (h.size_eq ▸ hreached.lt)
  rw [hreached.table_eq, List.map_append, List.map_cons, List.nodup_middle, List.nodup_cons,
    ← List.map_append] at hwas
  obtain ⟨hrest, hbefore⟩ : _ ∧ (List.range i).flatMap (Function.update t.table i (pre ++ post)) = _ :=
    restFrom_update (t := t) (n := t.elements - 1)
  refine ⟨m', hash', _, hremove, hrep, ⟨hreached.lt, hreached.index_eq, hreached.points, .inr ⟨?_, hwas.1⟩⟩,
    hrest, ?_⟩
  · exact Function.update_self _ _ _
  · have hlt : i < (⟨Function.update t.table i (pre ++ post), t.elements - 1, t.size⟩ :
        BatmanAdv.Hashtable (ℕ × α)).size := hreached.lt
    rw [buckets_eq_append hlt, hrest]
    dsimp only
    rw [hbefore, Function.update_self]
    simp

theorem Resumes.loop (removes : List (ℕ × α) → Bool) {iterIn : Option HashIt} {r : List (ℕ × α)}
    (hr : Resumes t iterIn r) (h : Rep m hash t) {kept : List (ℕ × α)} (hkept : t.buckets = kept ++ r)
    {fuel : ℕ} (hfuel : r.length < fuel) (visited : List (ℕ × α)) :
    ∃ m' hash' t', iterateLoop removes fuel m hash iterIn visited = some (m', hash', visited ++ r) ∧
      Rep m' hash' t' ∧ t'.buckets = kept ++ keptBuckets removes visited r := by
  obtain ⟨fuel, rfl⟩ := Nat.exists_eq_succ_of_ne_zero (Nat.ne_zero_of_lt hfuel)
  induction r generalizing m hash t iterIn kept fuel visited with
  | nil =>
    have hnull : hashIterate m hash iterIn = some none := hr.returns h
    refine ⟨m, hash, t, ?_, h, hkept⟩
    rw [iterateLoop, hnull, List.append_nil]
  | cons x r ih =>
    obtain ⟨fuel, rfl⟩ := Nat.exists_eq_succ_of_ne_zero (Nat.ne_zero_of_lt (Nat.lt_of_succ_lt_succ hfuel))
    have hr' : Returns m hash t iterIn (x :: r) := hr.returns h
    obtain ⟨it, i, pre, post, hiter, hreached, rfl⟩ := hr'
    have hbuckets := hreached.buckets_eq
    have hkept' : kept = (List.range i).flatMap t.table ++ pre :=
      List.append_cancel_right (hkept.symm.trans hbuckets)
    obtain ⟨next, hcell⟩ := h.live (x := x) (by rw [hkept]; simp)
    have hread : (it.bucket.bind fun bucket => (m.cell bucket).map fun elem => (bucket, elem.data)) =
        some x := by
      rw [hreached.points.bucket_eq, Option.bind_some, hcell]
      rfl
    rw [List.length_cons] at hfuel
    have hall : visited ++ x :: (post ++ restFrom t (i + 1)) =
        (visited ++ [x]) ++ (post ++ restFrom t (i + 1)) := by simp
    rw [iterateLoop, hiter]
    dsimp only
    rw [hread]
    dsimp only
    rw [keptBuckets, hall]
    by_cases hremoves : removes (visited ++ [x]) = true
    · obtain ⟨m1, hash1, t1, hremove, hrep, hleft, hrest, hbuckets1⟩ := hreached.removed h
      rw [if_pos hremoves, if_pos hremoves, hremove]
      refine ih (t := t1) (.inr ⟨it, i, pre, x.1, post, rfl, hleft, by rw [hrest]⟩) hrep ?_
        (visited ++ [x]) fuel (by omega)
      rw [hbuckets1, hkept']
    · rw [if_neg hremoves, if_neg hremoves, List.append_cons kept]
      refine ih (.inr ⟨it, i, pre, x.1, post, rfl, hreached.kept, rfl⟩) h ?_ (visited ++ [x]) fuel
        (by omega)
      rw [hkept]
      simp

/-- **Iterating with removals.** The loop over a table ends, returns each of its buckets once, in their
order, and leaves those that were not removed. -/
theorem hash_iterate_exact (removes : List (ℕ × α) → Bool) (h : Rep m hash t) {fuel : ℕ}
    (hfuel : t.buckets.length < fuel) :
    ∃ m' hash' t', iterateLoop removes fuel m hash none [] = some (m', hash', t.buckets) ∧
      (t.buckets.map Prod.fst).Nodup ∧ Rep m' hash' t' ∧
      t'.buckets = keptBuckets removes [] t.buckets := by
  have hstart : Resumes t none t.buckets := .inl ⟨rfl, rfl⟩
  obtain ⟨m', hash', t', hloop, hrep, hbuckets⟩ := hstart.loop removes h (List.nil_append _).symm hfuel []
  exact ⟨m', hash', t', hloop, h.nodup, hrep, hbuckets⟩

def threeBuckets : BatmanAdv.Hashtable (ℕ × ℕ) :=
  ⟨Function.update (fun _ => []) 0 [(7, 10), (3, 11), (5, 12)], 3, 2⟩

def threeBucketsMem : Mem ℕ :=
  ((Mem.empty.write 7 ⟨10, some 3⟩).write 3 ⟨11, some 5⟩).write 5 ⟨12, none⟩

theorem threeBuckets_rep :
    Rep threeBucketsMem ⟨Function.update (fun _ => none) 0 (some 7), 3, 2⟩ threeBuckets where
  size_eq := rfl
  elements_eq := rfl
  count := by decide
  seg i hi := by
    by_cases h : i = 0
    · subst h
      refine ⟨rfl, some 3, ?_, rfl, some 5, ?_, rfl, none, ?_, rfl⟩
      · rfl
      · rfl
      · rfl
    · unfold threeBuckets
      dsimp only
      rw [Function.update_of_ne h, Function.update_of_ne h]
      rfl
  nodup := by decide

/-- The first two buckets of the chain are removed. -/
theorem hash_iterate_exact_three : ∃ m' hash' t',
    iterateLoop (fun visited => decide (visited.length ≤ 2)) 4 threeBucketsMem
        ⟨Function.update (fun _ => none) 0 (some 7), 3, 2⟩ none [] =
      some (m', hash', [(7, 10), (3, 11), (5, 12)]) ∧
    Rep m' hash' t' ∧ t'.buckets = [(5, 12)] := by
  obtain ⟨m', hash', t', hloop, _, hrep, hbuckets⟩ :=
    hash_iterate_exact (fun visited => decide (visited.length ≤ 2)) threeBuckets_rep
      (show threeBuckets.buckets.length < 4 by decide)
  exact ⟨m', hash', t', hloop, hrep, hbuckets⟩

end Pointers

end BatmanAdv
