import BatmanAdv.Reachable

/-!
# How `update_orig` chooses the router

One pass over the neighbours an OGM did not come via, which have missed it, and the one it came via last.
The best `tq_avg` wins; where two are the same, the later one if more of our packets were heard back over
it, and the current router in any case. So the router is always a best neighbour, but it is not always
the one before: a neighbour that is considered after it and ties with it replaces it if its
`bcast_own_sum` is higher, and one considered before it does not.
-/

namespace BatmanAdv

open Transition

variable {p : Platform} {g : Garbage p} {s s' : State p} {router : Option ℕ}

/-! ## The scan -/

/-- The ranking of neighbours with the `bcast_own_sum` of their originators. -/
def Rank.scan (router : Option ℕ) (r : Rank p) (l : List (NeighNode p × Byte)) : Rank p :=
  l.foldl (fun r x => r.consider router (fun _ => x.2) x.1) r

namespace Rank

@[simp] theorem scan_nil (r : Rank p) : r.scan router [] = r := rfl

@[simp] theorem scan_cons (r : Rank p) (x : NeighNode p × Byte) (l : List (NeighNode p × Byte)) :
    r.scan router (x :: l) = (r.consider router (fun _ => x.2) x.1).scan router l := rfl

theorem scan_append (r : Rank p) (l l' : List (NeighNode p × Byte)) :
    r.scan router (l ++ l') = (r.scan router l).scan router l' := List.foldl_append

/-- **Induction over the scan.** -/
theorem scan_induct {Q : Rank p → Prop} {r : Rank p} {l : List (NeighNode p × Byte)} (hr : Q r)
    (hstep : ∀ r, Q r → ∀ x ∈ l, Q (r.consider router (fun _ => x.2) x.1)) : Q (r.scan router l) :=
  List.foldlRecOn l _ hr hstep

/-- What is known about the best neighbour so far: where there is none, no quality was above 0. -/
def Sound (r : Rank p) (seen : List (NeighNode p)) : Prop :=
  (∀ n ∈ seen, n.tqAvg.toNat ≤ r.maxTq.toNat) ∧
    ((r.best = none ∧ r.maxTq = 0) ∨ ∃ n ∈ seen, r.best = some n ∧ r.maxTq = n.tqAvg)

theorem Sound.consider {r : Rank p} {seen : List (NeighNode p)} (h : r.Sound seen) (own : ℕ → Byte)
    (n : NeighNode p) : (r.consider router own n).Sound (seen ++ [n]) := by
  obtain ⟨hmax, hbest⟩ := h
  unfold Rank.consider
  split_ifs with hc
  · have hle : r.maxTq.toNat ≤ n.tqAvg.toNat := by
      rcases hc with hgt | ⟨heq, _⟩ | ⟨_, heq⟩
      · exact hgt.le
      · rw [heq]
      · rw [heq]
    refine ⟨fun m hm => ?_, .inr ⟨n, by simp, rfl, rfl⟩⟩
    rcases List.mem_append.mp hm with hm | hm
    · exact (hmax m hm).trans hle
    · rw [List.mem_singleton.mp hm]
  · refine ⟨fun m hm => ?_, ?_⟩
    · rcases List.mem_append.mp hm with hm | hm
      · exact hmax m hm
      · rw [List.mem_singleton.mp hm]
        exact not_lt.mp fun hgt => hc (.inl hgt)
    · rcases hbest with hnone | ⟨m, hm, hsome⟩
      · exact .inl hnone
      · exact .inr ⟨m, List.mem_append_left _ hm, hsome⟩

/-- **The scan finds a best neighbour.** -/
theorem Sound.scan {r : Rank p} {seen : List (NeighNode p)} (h : r.Sound seen)
    (l : List (NeighNode p × Byte)) : (r.scan router l).Sound (seen ++ l.map Prod.fst) := by
  induction l generalizing r seen with
  | nil => simpa using h
  | cons x l ih =>
    rw [scan_cons, List.map_cons, List.append_cons]
    exact ih (h.consider _ _)

theorem maxTq_scan_le {r : Rank p} {l : List (NeighNode p × Byte)} {bound : ℕ} (hr : r.maxTq.toNat ≤ bound)
    (hl : ∀ x ∈ l, x.1.tqAvg.toNat ≤ bound) : (r.scan router l).maxTq.toNat ≤ bound := by
  refine scan_induct (Q := fun r : Rank p => r.maxTq.toNat ≤ bound) hr fun r hr x hx => ?_
  unfold Rank.consider
  split_ifs
  · exact hl x hx
  · exact hr

/-- A neighbour with the best quality that is the router is taken when the scan comes to it. -/
theorem consider_router {r : Rank p} {own : ℕ → Byte} {n : NeighNode p} (hrouter : router = some n.ptr)
    (hle : r.maxTq.toNat ≤ n.tqAvg.toNat) : r.consider router own n = ⟨n.tqAvg, own n.origNode, some n⟩ := by
  unfold Rank.consider
  rw [if_pos]
  rcases hle.lt_or_eq with hlt | heq
  · exact .inl hlt
  · exact .inr (.inr ⟨hrouter, (BitVec.eq_of_toNat_eq heq).symm⟩)

/-- From another neighbour of the best quality the scan does not come back. -/
theorem scan_best_ne {r : Rank p} {l : List (NeighNode p × Byte)} {ptr : ℕ}
    (hr : ∃ m, r.best = some m ∧ m.ptr ≠ ptr) (hl : ∀ x ∈ l, x.1.ptr ≠ ptr) :
    ∃ m, (r.scan router l).best = some m ∧ m.ptr ≠ ptr := by
  refine scan_induct (Q := fun r : Rank p => ∃ m, r.best = some m ∧ m.ptr ≠ ptr) hr fun r hr x hx => ?_
  unfold Rank.consider
  split_ifs
  · exact ⟨x.1, rfl, hl x hx⟩
  · exact hr

/-- **Behind the router**, a neighbour replaces it exactly if it ties with more of our packets heard
back. -/
theorem scan_behind_iff {n : NeighNode p} {own : Byte} {l : List (NeighNode p × Byte)}
    (hrouter : router = some n.ptr) (hl : ∀ x ∈ l, x.1.ptr ≠ n.ptr ∧ x.1.tqAvg.toNat ≤ n.tqAvg.toNat) :
    ((⟨n.tqAvg, own, some n⟩ : Rank p).scan router l).best.map (·.ptr) = some n.ptr ↔
      ∀ x ∈ l, x.1.tqAvg = n.tqAvg → x.2.toNat ≤ own.toNat := by
  induction l with
  | nil => simp
  | cons x l ih =>
    have hx := hl x List.mem_cons_self
    have hl' := fun y hy => hl y (List.mem_cons_of_mem x hy)
    rw [scan_cons, List.forall_mem_cons]
    by_cases htie : x.1.tqAvg = n.tqAvg ∧ x.2.toNat > own.toNat
    · have htaken : (⟨n.tqAvg, own, some n⟩ : Rank p).consider router (fun _ => x.2) x.1 =
          ⟨x.1.tqAvg, x.2, some x.1⟩ := if_pos (.inr (.inl htie))
      have hother : ∃ m, ((⟨x.1.tqAvg, x.2, some x.1⟩ : Rank p).scan router l).best = some m ∧
          m.ptr ≠ n.ptr := scan_best_ne ⟨x.1, rfl, hx.1⟩ fun y hy => (hl' y hy).1
      obtain ⟨m, hm, hne⟩ := hother
      rw [htaken, hm]
      constructor
      · exact fun h => absurd (Option.some.inj h) hne
      · exact fun h => absurd (h.1 htie.1) (not_le.mpr htie.2)
    · have hkept : (⟨n.tqAvg, own, some n⟩ : Rank p).consider router (fun _ => x.2) x.1 =
          ⟨n.tqAvg, own, some n⟩ := by
        refine if_neg ?_
        rintro (hgt | ⟨heq, hgt⟩ | ⟨hptr, _⟩)
        · exact absurd hx.2 (not_le.mpr hgt)
        · exact htie ⟨heq, hgt⟩
        · rw [hrouter] at hptr
          exact hx.1 (Option.some.inj hptr).symm
      rw [hkept, ih hl']
      exact ⟨fun h => ⟨fun heq => not_lt.mp fun hgt => htie ⟨heq, hgt⟩, h⟩, fun h => h.2⟩

end Rank

/-! ## The neighbours `update_orig` ranks -/

/-- A neighbour an OGM did not come via. -/
def NeighNode.missed (isDuplicate : Bool) (n : NeighNode p) : NeighNode p :=
  if isDuplicate then n else n.pushTq 0

/-- The neighbours an OGM did not come via, after their ring buffers are written. -/
def OrigNode.others (o : OrigNode p) (neigh : Mac) (ifIncoming : ℕ) (isDuplicate : Bool) :
    List (NeighNode p) :=
  (o.neighList.filter fun n => !n.isVia neigh ifIncoming).map (·.missed isDuplicate)

/-- The `tq_avg` of the neighbour an OGM came via, after its ring buffer is written. -/
def OrigNode.senderAvg (o : OrigNode p) (neigh : Mac) (ifIncoming : ℕ) (tq : Byte) : Byte :=
  match o.neighVia neigh ifIncoming with
  | some n => (n.pushTq tq).tqAvg
  | none => ((NeighNode.new 0 neigh 0 ifIncoming : NeighNode p).pushTq tq).tqAvg

/-- The `bcast_own_sum` it is ranked with: a new neighbour points to the entry of its address, which may
be new too. -/
def State.senderSum (s : State p) (g : Garbage p) (o : OrigNode p) (neigh : Mac) (ifIncoming : ℕ) : Byte :=
  match o.neighVia neigh ifIncoming with
  | some n => s.bcastOwnSum g n.origNode ifIncoming
  | none => ((s.findOrigNode neigh).getD (OrigNode.new s.nextPtr neigh)).bcastOwnSum ifIncoming

/-- `o` is an entry whose neighbours differ in pointer and in address or interface. -/
structure State.Entry (s : State p) (o : OrigNode p) : Prop where
  mem : o ∈ s.origs
  neigh_lt : ∀ n ∈ o.neighList, n.ptr < s.nextPtr
  distinct : o.neighList.Pairwise fun a b =>
    a.ptr ≠ b.ptr ∧ ¬ (a.addr = b.addr ∧ a.ifIncoming = b.ifIncoming)

theorem State.Wf.entry (h : s.Wf) {o : OrigNode p} (ho : o ∈ s.origs) : s.Entry o :=
  ⟨ho, (h.node o ho).neigh_lt, (h.node o ho).distinct⟩

variable {o : OrigNode p} {neigh : Mac} {ifIncoming : ℕ} {dup : Bool} {pkt : BatmanPacket} {t : Time}

theorem NeighNode.missed_ptr (n : NeighNode p) : (n.missed dup).ptr = n.ptr := by
  unfold NeighNode.missed
  cases dup <;> rfl

theorem NeighNode.missed_origNode (n : NeighNode p) : (n.missed dup).origNode = n.origNode := by
  unfold NeighNode.missed
  cases dup <;> rfl

theorem NeighNode.missed_isVia (n : NeighNode p) :
    (n.missed dup).isVia neigh ifIncoming = n.isVia neigh ifIncoming := by
  unfold NeighNode.missed
  cases dup <;> rfl

theorem NeighNode.receive_ptr (n : NeighNode p) : (n.receive pkt dup t).ptr = n.ptr :=
  (n.sameLink_receive pkt dup t).ptr

theorem NeighNode.receive_isVia (n : NeighNode p) :
    (n.receive pkt dup t).isVia neigh ifIncoming = n.isVia neigh ifIncoming := by
  unfold NeighNode.receive
  cases dup <;> rfl

theorem NeighNode.receive_tqAvg (n : NeighNode p) : (n.receive pkt dup t).tqAvg = (n.pushTq pkt.tq).tqAvg := by
  unfold NeighNode.receive
  cases dup <;> rfl

theorem OrigNode.pushZero_eq : (o.pushZero neigh ifIncoming dup).neighList =
    o.neighList.map fun n => if n.isVia neigh ifIncoming then n else n.missed dup := by
  rw [OrigNode.neighList_pushZero]
  refine List.map_congr_left fun n _ => ?_
  unfold NeighNode.missed
  cases n.isVia neigh ifIncoming <;> cases dup <;> rfl

theorem OrigNode.filter_isVia_pushZero (c : Bool → Bool) :
    ((o.pushZero neigh ifIncoming dup).neighList.filter fun n => c (n.isVia neigh ifIncoming)) =
      (o.neighList.filter fun n => c (n.isVia neigh ifIncoming)).map fun n =>
        if n.isVia neigh ifIncoming then n else n.missed dup := by
  rw [OrigNode.pushZero_eq, List.filter_map]
  congr 1
  apply List.filter_congr
  intro n _
  dsimp only [Function.comp_apply]
  cases hvia : n.isVia neigh ifIncoming with
  | true => simp [hvia]
  | false => simp [hvia, NeighNode.missed_isVia]

theorem OrigNode.filter_pushZero :
    ((o.pushZero neigh ifIncoming dup).neighList.filter fun n => !n.isVia neigh ifIncoming) =
      o.others neigh ifIncoming dup := by
  refine (OrigNode.filter_isVia_pushZero (!·)).trans (List.map_congr_left fun n hn => ?_)
  have hvia : ¬ n.isVia neigh ifIncoming = true := by simpa using (List.mem_filter.mp hn).2
  exact if_neg hvia

theorem OrigNode.neighVia_pushZero :
    (o.pushZero neigh ifIncoming dup).neighVia neigh ifIncoming = o.neighVia neigh ifIncoming := by
  unfold OrigNode.neighVia
  congr 1
  refine (OrigNode.filter_isVia_pushZero id).trans ((List.map_congr_left fun n hn => ?_).trans (List.map_id _))
  exact if_pos (List.mem_filter.mp hn).2

theorem State.orig?_modOrig {ptr ptr' : ℕ} {f : OrigNode p → OrigNode p} (hptr : ∀ o, (f o).ptr = o.ptr) :
    (s.modOrig ptr f).orig? ptr' = (s.orig? ptr').map fun o => if o.ptr = ptr then f o else o := by
  unfold State.orig?
  rw [State.origs_modOrig, List.find?_map]
  congr 2
  funext o
  dsimp only [Function.comp_apply]
  split_ifs <;> simp [hptr]

theorem State.bcastOwnSum_modOrig {ptr ptr' i : ℕ} {f : OrigNode p → OrigNode p}
    (hptr : ∀ o, (f o).ptr = o.ptr) (hsum : ∀ o, (f o).bcastOwnSum = o.bcastOwnSum) :
    (s.modOrig ptr f).bcastOwnSum g ptr' i = s.bcastOwnSum g ptr' i := by
  unfold State.bcastOwnSum
  rw [State.orig?_modOrig hptr]
  cases s.orig? ptr' with
  | none => rfl
  | some o =>
    dsimp only [Option.map_some]
    split_ifs
    · rw [hsum]
    · rfl

/-- What `update_orig` has made of the entry `o` before `update_routes`: `o'`, with `sender` the
neighbour the OGM came via. -/
structure OrigNode.Ranked (o : OrigNode p) (neigh : Mac) (pkt : BatmanPacket) (ifIncoming : ℕ)
    (isDuplicate : Bool) (o' : OrigNode p) (sender : NeighNode p) : Prop where
  ptr : o'.ptr = o.ptr
  mem_iff : ∀ n, n ∈ o'.neighList ↔ n ∈ o.others neigh ifIncoming isDuplicate ∨ n = sender
  other_ptr : ∀ n ∈ o.others neigh ifIncoming isDuplicate, n.ptr ≠ sender.ptr
  avg : sender.tqAvg = o.senderAvg neigh ifIncoming pkt.tq
  via : sender.isVia neigh ifIncoming = true
  ptr_iff : ∀ n ∈ o.neighList, sender.ptr = n.ptr ↔ n.isVia neigh ifIncoming = true

def State.scanned (s : State p) (g : Garbage p) (o : OrigNode p) (neigh : Mac) (ifIncoming : ℕ)
    (isDuplicate : Bool) (sender : NeighNode p) : List (NeighNode p × Byte) :=
  (o.others neigh ifIncoming isDuplicate).map (fun n => (n, s.bcastOwnSum g n.origNode ifIncoming)) ++
    [(sender, s.senderSum g o neigh ifIncoming)]

theorem OrigNode.mem_others {n : NeighNode p} (hn : n ∈ o.others neigh ifIncoming dup) :
    ∃ m ∈ o.neighList, m.isVia neigh ifIncoming = false ∧ n = m.missed dup := by
  obtain ⟨m, hm, rfl⟩ := List.mem_map.mp hn
  obtain ⟨hm, hvia⟩ := List.mem_filter.mp hm
  exact ⟨m, hm, by simpa using hvia, rfl⟩

theorem State.Entry.eq_of_isVia (h : s.Entry o) {a b : NeighNode p} (ha : a ∈ o.neighList)
    (hb : b ∈ o.neighList) (hva : a.isVia neigh ifIncoming = true) (hvb : b.isVia neigh ifIncoming = true) :
    a = b := by
  rw [NeighNode.isVia_iff] at hva hvb
  by_contra hne
  exact (NeighNode.apart_of_pairwise h.distinct ha hb hne).2
    ⟨hva.1.trans hvb.1.symm, hva.2.trans hvb.2.symm⟩

theorem State.Entry.eq_of_ptr (h : s.Entry o) {a b : NeighNode p} (ha : a ∈ o.neighList)
    (hb : b ∈ o.neighList) (hptr : a.ptr = b.ptr) : a = b := by
  by_contra hne
  exact (NeighNode.apart_of_pairwise h.distinct ha hb hne).1 hptr

theorem State.Entry.ranked_some (h : s.Entry o) {n : NeighNode p}
    (hvia : o.neighVia neigh ifIncoming = some n) :
    o.Ranked neigh pkt ifIncoming dup
      ((o.pushZero neigh ifIncoming dup).receive n.ptr pkt dup t) (n.receive pkt dup t) := by
  obtain ⟨hn, haddr⟩ := OrigNode.neighVia_some hvia
  have hnvia := NeighNode.isVia_iff.mpr haddr
  refine ⟨rfl, fun m => ?_, fun m hm => ?_, ?_, n.receive_isVia.trans hnvia, fun m hm => ?_⟩
  · rw [OrigNode.neighList_receive, OrigNode.pushZero_eq, List.map_map, List.mem_map]
    constructor
    · rintro ⟨k, hk, rfl⟩
      dsimp only [Function.comp_apply]
      by_cases hkn : k = n
      · rw [hkn, if_pos hnvia, if_pos rfl]
        exact .inr rfl
      · have hkvia : ¬ k.isVia neigh ifIncoming = true := fun hkvia => hkn (h.eq_of_isVia hk hn hkvia hnvia)
        have hkptr : k.ptr ≠ n.ptr := fun hptr => hkn (h.eq_of_ptr hk hn hptr)
        rw [if_neg hkvia, NeighNode.missed_ptr, if_neg hkptr]
        exact .inl (List.mem_map_of_mem (List.mem_filter.mpr ⟨hk, by simpa using hkvia⟩))
    · rintro (hm | rfl)
      · obtain ⟨k, hk, hkvia, rfl⟩ := OrigNode.mem_others hm
        have hkn : k.ptr ≠ n.ptr := by
          intro hptr
          rw [h.eq_of_ptr hk hn hptr, hnvia] at hkvia
          cases hkvia
        have hkvia' : ¬ k.isVia neigh ifIncoming = true := by simp [hkvia]
        refine ⟨k, hk, ?_⟩
        dsimp only [Function.comp_apply]
        rw [if_neg hkvia', NeighNode.missed_ptr, if_neg hkn]
      · refine ⟨n, hn, ?_⟩
        dsimp only [Function.comp_apply]
        rw [if_pos hnvia, if_pos rfl]
  · obtain ⟨k, hk, hkvia, rfl⟩ := OrigNode.mem_others hm
    rw [NeighNode.missed_ptr, NeighNode.receive_ptr]
    intro hptr
    rw [h.eq_of_ptr hk hn hptr, hnvia] at hkvia
    cases hkvia
  · rw [NeighNode.receive_tqAvg]
    unfold OrigNode.senderAvg
    rw [hvia]
  · rw [NeighNode.receive_ptr]
    constructor
    · intro hptr
      rwa [← h.eq_of_ptr hn hm hptr]
    · intro hmvia
      rw [h.eq_of_isVia hm hn hmvia hnvia]

theorem State.Entry.ranked_none (h : s.Entry o) (hvia : o.neighVia neigh ifIncoming = none) {next e : ℕ}
    (hnext : s.nextPtr ≤ next) :
    o.Ranked neigh pkt ifIncoming dup
      (({ o.pushZero neigh ifIncoming dup with
          neighList := (o.pushZero neigh ifIncoming dup).neighList ++
            [NeighNode.new next neigh e ifIncoming] } : OrigNode p).receive next pkt dup t)
      ((NeighNode.new next neigh e ifIncoming).receive pkt dup t) := by
  have hnone : ∀ n ∈ o.neighList, n.isVia neigh ifIncoming = false := by
    intro n hn
    have hno := OrigNode.neighVia_none hvia n hn
    rw [← NeighNode.isVia_iff] at hno
    simpa using hno
  have hlist : (o.pushZero neigh ifIncoming dup).neighList = o.others neigh ifIncoming dup := by
    rw [← OrigNode.filter_pushZero, List.filter_eq_self.mpr]
    intro n hn
    rw [OrigNode.pushZero_eq] at hn
    obtain ⟨m, hm, rfl⟩ := List.mem_map.mp hn
    simp [hnone m hm, NeighNode.missed_isVia]
  have hother : ∀ n ∈ o.others neigh ifIncoming dup, n.ptr ≠ next := by
    intro n hn
    obtain ⟨m, hm, _, rfl⟩ := OrigNode.mem_others hn
    rw [NeighNode.missed_ptr]
    exact ((h.neigh_lt m hm).trans_le hnext).ne
  refine ⟨rfl, fun m => ?_, fun m hm => ?_, ?_, ?_, fun m hm => ?_⟩
  · rw [OrigNode.neighList_receive]
    dsimp only
    rw [hlist, List.map_append, List.mem_append]
    have hkeep : (o.others neigh ifIncoming dup).map
        (fun n => if n.ptr = next then n.receive pkt dup t else n) = o.others neigh ifIncoming dup := by
      refine (List.map_congr_left fun n hn => ?_).trans (List.map_id _)
      exact if_neg (hother n hn)
    rw [hkeep]
    refine or_congr_right ?_
    rw [List.map_cons, List.map_nil, List.mem_singleton, if_pos]
    rfl
  · rw [NeighNode.receive_ptr]
    exact hother m hm
  · rw [NeighNode.receive_tqAvg]
    unfold OrigNode.senderAvg
    rw [hvia]
    rfl
  · exact (NeighNode.receive_isVia _).trans (NeighNode.isVia_iff.mpr ⟨rfl, rfl⟩)
  · rw [NeighNode.receive_ptr, hnone m hm]
    constructor
    · exact fun hptr => absurd hptr ((h.neigh_lt m hm).trans_le hnext).ne'
    · exact fun hfalse => absurd hfalse Bool.false_ne_true

theorem State.Table.findOrigNode_pushZero (h : s.Table) (neigh : Mac) (ifIncoming : ℕ) (dup : Bool)
    (ptr : ℕ) :
    (((s.modOrig ptr (·.pushZero neigh ifIncoming dup)).findOrigNode neigh).getD
        (OrigNode.new s.nextPtr neigh)).bcastOwnSum =
      ((s.findOrigNode neigh).getD (OrigNode.new s.nextPtr neigh)).bcastOwnSum := by
  have h' : (s.modOrig ptr (·.pushZero neigh ifIncoming dup)).Table := h.modOrig (fun _ => rfl) fun _ => rfl
  cases hf : s.findOrigNode neigh with
  | some e =>
    obtain ⟨he, horig⟩ := (State.findOrigNode_eq_some_iff h.ok).mp hf
    have hmem : (if e.ptr = ptr then e.pushZero neigh ifIncoming dup else e) ∈
        (s.modOrig ptr (·.pushZero neigh ifIncoming dup)).origs :=
      State.mem_origs_modOrig.mpr ⟨e, he, rfl⟩
    have horig' : (if e.ptr = ptr then e.pushZero neigh ifIncoming dup else e).orig = neigh := by
      split_ifs <;> exact horig
    rw [(State.findOrigNode_eq_some_iff h'.ok).mpr ⟨hmem, horig'⟩, Option.getD_some, Option.getD_some]
    split_ifs <;> rfl
  | none =>
    have hnone : ∀ e ∈ (s.modOrig ptr (·.pushZero neigh ifIncoming dup)).origs, e.orig ≠ neigh := by
      refine State.forall_modOrig ((State.findOrigNode_eq_none_iff h.ok).mp hf) fun e _ _ he => ?_
      exact he
    rw [(State.findOrigNode_eq_none_iff h'.ok).mpr hnone]

/-- The neighbours the OGM did not come via are ranked in the order of the list. -/
theorem State.Table.rankOthers_pushZero (h : s.Table) (ho : o ∈ s.origs) (g : Garbage p) (neigh : Mac)
    (ifIncoming : ℕ) (dup : Bool) :
    (s.modOrig o.ptr (·.pushZero neigh ifIncoming dup)).rankOthers g o.ptr neigh ifIncoming =
      (⟨0, 0, none⟩ : Rank p).scan o.router
        ((o.others neigh ifIncoming dup).map fun n => (n, s.bcastOwnSum g n.origNode ifIncoming)) := by
  have hat := h.origAt_modOrig ho (f := (·.pushZero neigh ifIncoming dup)) (fun _ => rfl) fun _ => rfl
  have hsum : ∀ ptr, (s.modOrig o.ptr (·.pushZero neigh ifIncoming dup)).bcastOwnSum g ptr ifIncoming =
      s.bcastOwnSum g ptr ifIncoming := fun ptr => State.bcastOwnSum_modOrig (fun _ => rfl) fun _ => rfl
  unfold State.rankOthers Rank.scan
  rw [hat, List.foldl_map]
  dsimp only
  rw [OrigNode.filter_pushZero]
  congr 1
  funext r n
  rw [← hsum]
  rfl

theorem State.Table.receive (h : s.Table) {o' : OrigNode p} (ho : o' ∈ s.origs) (hptr : o'.ptr = o.ptr)
    (hrouter : o'.router = o.router) (n : NeighNode p) (pkt : BatmanPacket) (dup : Bool) (t : Time) :
    (s.modOrig o.ptr (·.receive n.ptr pkt dup t)).Table ∧
      o'.receive n.ptr pkt dup t ∈ (s.modOrig o.ptr (·.receive n.ptr pkt dup t)).origs ∧
      ((s.modOrig o.ptr (·.receive n.ptr pkt dup t)).origAt o.ptr).router = o.router := by
  rw [← hptr]
  refine ⟨h.modOrig (fun _ => rfl) fun _ => rfl, State.mem_modOrig_self ho _, ?_⟩
  rw [h.origAt_modOrig ho (f := (·.receive n.ptr pkt dup t)) (fun _ => rfl) fun _ => rfl]
  exact hrouter

theorem Rank.consider_receive {rank : Rank p} {own : ℕ → Byte} {n : NeighNode p} {sum : Byte}
    (hsum : own n.origNode = sum) :
    rank.consider router own (n.receive pkt dup t) = rank.scan router [(n.receive pkt dup t, sum)] := by
  rw [Rank.scan_cons, Rank.scan_nil, ← hsum]
  unfold Rank.consider
  rw [(n.sameLink_receive pkt dup t).origNode]

theorem State.Table.viaNeighbor_some (h : s.Table) (ho : o ∈ s.origs) {n : NeighNode p}
    (hvia : o.neighVia neigh ifIncoming = some n) : s.viaNeighbor o.ptr neigh ifIncoming = (s, n) := by
  unfold State.viaNeighbor
  rw [h.origAt_of_mem ho, hvia]

theorem State.Table.viaNeighbor_none (h : s.Table) (ho : o ∈ s.origs)
    (hvia : o.neighVia neigh ifIncoming = none) :
    ∃ (s' : State p) (next e : ℕ),
      s.viaNeighbor o.ptr neigh ifIncoming = (s', NeighNode.new next neigh e ifIncoming) ∧ s.nextPtr ≤ next ∧
        s'.Table ∧
        { o with neighList := o.neighList ++ [NeighNode.new next neigh e ifIncoming] } ∈ s'.origs ∧
        ∀ g : Garbage p, s'.bcastOwnSum g e ifIncoming =
          ((s.findOrigNode neigh).getD (OrigNode.new s.nextPtr neigh)).bcastOwnSum ifIncoming := by
  obtain ⟨h2, hle, hold, x, hx, hptr, heq⟩ := h.getOrigNode neigh
  have hread := h.origAt_of_mem ho
  unfold State.viaNeighbor
  rw [hread, hvia]
  dsimp only
  generalize s.getOrigNode neigh = got at *
  obtain ⟨s2, origNeighNode⟩ := got
  dsimp only at h2 hle hold hx hptr ⊢
  refine ⟨_, s2.nextPtr, origNeighNode, rfl, hle, ?_, State.mem_modOrig_self (hold o ho) fun o =>
    { o with neighList := o.neighList ++ [NeighNode.new s2.nextPtr neigh origNeighNode ifIncoming] }, fun g => ?_⟩
  · have hmod : (s2.modOrig o.ptr fun o => { o with neighList := o.neighList ++
        [NeighNode.new s2.nextPtr neigh origNeighNode ifIncoming] }).Table :=
      h2.modOrig (fun _ => rfl) fun _ => rfl
    exact hmod.congr rfl (Nat.le_succ _)
  · have hsum : (s2.modOrig o.ptr fun o => { o with neighList := o.neighList ++
        [NeighNode.new s2.nextPtr neigh origNeighNode ifIncoming] }).bcastOwnSum g origNeighNode ifIncoming =
          s2.bcastOwnSum g origNeighNode ifIncoming := State.bcastOwnSum_modOrig (fun _ => rfl) fun _ => rfl
    refine hsum.trans ?_
    unfold State.bcastOwnSum
    rw [← hptr, h2.orig?_of_mem hx, heq]

/-- **What `update_orig` ranks.** -/
theorem State.Table.rankNeighbors (h : s.Table) (he : s.Entry o) (g : Garbage p) (neigh : Mac)
    (pkt : BatmanPacket) (ifIncoming : ℕ) (dup : Bool) (t : Time) :
    let ranked := s.rankNeighbors g o.ptr neigh pkt ifIncoming dup t
    ranked.1.Table ∧ ∃ o' ∈ ranked.1.origs, ∃ sender,
      o.Ranked neigh pkt ifIncoming dup o' sender ∧
        ranked.2 = (⟨0, 0, none⟩ : Rank p).scan o.router (s.scanned g o neigh ifIncoming dup sender) := by
  dsimp only
  unfold State.rankNeighbors
  have h1 : (s.modOrig o.ptr (·.pushZero neigh ifIncoming dup)).Table := h.modOrig (fun _ => rfl) fun _ => rfl
  have ho1 := State.mem_modOrig_self he.mem (·.pushZero neigh ifIncoming dup)
  have hsum1 : ∀ ptr, (s.modOrig o.ptr (·.pushZero neigh ifIncoming dup)).bcastOwnSum g ptr ifIncoming =
      s.bcastOwnSum g ptr ifIncoming := fun ptr => State.bcastOwnSum_modOrig (fun _ => rfl) fun _ => rfl
  have hothers := h.rankOthers_pushZero he.mem g neigh ifIncoming dup
  have hfind := h.findOrigNode_pushZero neigh ifIncoming dup o.ptr
  have hnext : (s.modOrig o.ptr (·.pushZero neigh ifIncoming dup)).nextPtr = s.nextPtr := rfl
  dsimp only
  generalize s.modOrig o.ptr (·.pushZero neigh ifIncoming dup) = s1 at *
  have hsum : ∀ (s2 : State p) (n : NeighNode p) (ptr : ℕ),
      (s2.modOrig o.ptr (·.receive n.ptr pkt dup t)).bcastOwnSum g ptr ifIncoming =
        s2.bcastOwnSum g ptr ifIncoming :=
    fun s2 n ptr => State.bcastOwnSum_modOrig (fun _ => rfl) fun _ => rfl
  rw [hothers]
  cases hvia : o.neighVia neigh ifIncoming with
  | some n =>
    have heq : s1.viaNeighbor o.ptr neigh ifIncoming = (s1, n) :=
      h1.viaNeighbor_some ho1 (OrigNode.neighVia_pushZero.trans hvia)
    rw [heq]
    obtain ⟨htable, hmem, hrouter⟩ := h1.receive (o := o) ho1 rfl rfl n pkt dup t
    have hlast : (s1.modOrig o.ptr (·.receive n.ptr pkt dup t)).bcastOwnSum g n.origNode ifIncoming =
        s.senderSum g o neigh ifIncoming := by
      rw [hsum, hsum1]
      unfold State.senderSum
      rw [hvia]
    refine ⟨htable, _, hmem, _, he.ranked_some hvia, ?_⟩
    dsimp only
    rw [hrouter, Rank.consider_receive hlast, ← Rank.scan_append]
    rfl
  | none =>
    obtain ⟨s2, next, e, heq, hle, h2, ho2, hown⟩ :=
      h1.viaNeighbor_none ho1 (OrigNode.neighVia_pushZero.trans hvia)
    rw [hnext] at hle
    replace heq : s1.viaNeighbor o.ptr neigh ifIncoming = (s2, NeighNode.new next neigh e ifIncoming) := heq
    rw [heq]
    obtain ⟨htable, hmem, hrouter⟩ :=
      h2.receive (o := o) ho2 rfl rfl (NeighNode.new next neigh e ifIncoming) pkt dup t
    have hlast : (s2.modOrig o.ptr (·.receive next pkt dup t)).bcastOwnSum g e ifIncoming =
        s.senderSum g o neigh ifIncoming := by
      refine (hsum s2 (NeighNode.new next neigh e ifIncoming) e).trans ((hown g).trans ?_)
      unfold State.senderSum
      rw [hvia, hnext]
      exact congrFun hfind ifIncoming
    refine ⟨htable, _, hmem, _, he.ranked_none hvia hle, ?_⟩
    dsimp only
    rw [hrouter, Rank.consider_receive hlast, ← Rank.scan_append]
    rfl

theorem OrigNode.router_setRouter (o : OrigNode p) (best : Option (NeighNode p)) :
    (o.setRouter best).router = best.map (·.ptr) := by
  unfold OrigNode.setRouter
  by_cases h : o.router = best.map (·.ptr)
  · rw [if_neg (not_not.mpr h)]
    exact h
  · rw [if_pos h]

/-- **The entry `update_orig` leaves**, its router being the best one of the scan. -/
theorem State.Table.updateOrig (h : s.Table) (he : s.Entry o) (g : Garbage p) (neigh : Mac)
    (pkt : BatmanPacket) (ifIncoming : ℕ) (hna : List Byte) (dup : Bool) (t gwTime : Time) :
    let s' := s.updateOrig g o.ptr neigh pkt ifIncoming hna dup t gwTime
    s'.Table ∧ ∃ o' ∈ s'.origs, ∃ sender, o.Ranked neigh pkt ifIncoming dup o' sender ∧
      o'.router = ((⟨0, 0, none⟩ : Rank p).scan o.router
        (s.scanned g o neigh ifIncoming dup sender)).best.map (·.ptr) := by
  obtain ⟨h1, o1, ho1, sender, hranked, hrank⟩ := h.rankNeighbors he g neigh pkt ifIncoming dup t
  dsimp only
  unfold State.updateOrig
  generalize s.rankNeighbors g o.ptr neigh pkt ifIncoming dup t = ranked at h1 ho1 hrank ⊢
  obtain ⟨s1, rank⟩ := ranked
  dsimp only at h1 ho1 hrank ⊢
  unfold State.updateRoutes
  obtain ⟨hrouter, _⟩ := updateRoutes_snd s1.hwAddrs s1.currTime s1.trans (s1.origAt o.ptr) rank.best
    (some hna) (tmpHnaBuffLen hna.length pkt.numHna)
  rw [OrigNode.router_setRouter] at hrouter
  generalize BatmanAdv.updateRoutes s1.hwAddrs s1.currTime s1.trans (s1.origAt o.ptr) rank.best
    (some hna) (tmpHnaBuffLen hna.length pkt.numHna) = routed at hrouter
  obtain ⟨trans, routes⟩ := routed
  dsimp only at hrouter ⊢
  have hmod : (s1.modOrig o.ptr (·.withRoutes routes)).Table := h1.modOrig (fun _ => rfl) fun _ => rfl
  have h2 : ({ s1.modOrig o.ptr (·.withRoutes routes) with trans := trans } : State p).Table :=
    hmod.congr rfl le_rfl
  have ho2 : o1.withRoutes routes ∈
      ({ s1.modOrig o.ptr (·.withRoutes routes) with trans := trans } : State p).origs :=
    State.mem_origs_modOrig.mpr ⟨o1, ho1, if_pos hranked.ptr⟩
  generalize ({ s1.modOrig o.ptr (·.withRoutes routes) with trans := trans } : State p) = s2 at h2 ho2 ⊢
  have hflags : ∀ s3 : State p, s3.Table → o1.withRoutes routes ∈ s3.origs →
      (s3.modOrig o.ptr fun o => { o with gwflags := pkt.gwflags }).Table ∧
        { o1.withRoutes routes with gwflags := pkt.gwflags } ∈
          (s3.modOrig o.ptr fun o => { o with gwflags := pkt.gwflags }).origs :=
    fun s3 h3 ho3 => ⟨h3.modOrig (fun _ => rfl) fun _ => rfl,
      State.mem_origs_modOrig.mpr ⟨_, ho3, if_pos hranked.ptr⟩⟩
  have hset : (s2.setGwflags o.ptr pkt.gwflags gwTime).Table ∧
      { o1.withRoutes routes with gwflags := pkt.gwflags } ∈
        (s2.setGwflags o.ptr pkt.gwflags gwTime).origs := by
    unfold State.setGwflags
    dsimp only
    split_ifs
    · exact hflags _ (h2.congr rfl le_rfl) ho2
    · exact hflags _ h2 ho2
  refine ⟨hset.1, _, hset.2, sender, ⟨hranked.ptr, hranked.mem_iff, hranked.other_ptr, hranked.avg,
    hranked.via, hranked.ptr_iff⟩, ?_⟩
  rw [← hrank]
  exact hrouter

/-! ## The best neighbour is the router -/

/-- The next place of the ring is one of the ring. -/
def NeighNode.RingOk (n : NeighNode p) : Prop := n.tqIndex.toNat < tqGlobalWindowSize

theorem NeighNode.kept_ringOk : NeighNode.Kept (p := p) NeighNode.RingOk where
  new _ _ _ _ := Nat.zero_lt_succ _
  touch _ _ h := h
  pushTq n value _ := ringBufferSet_index n.tqRecv n.tqIndex value
  receive n pkt dup t _ := by
    have hindex := ringBufferSet_index n.tqRecv n.tqIndex pkt.tq
    unfold NeighNode.receive NeighNode.RingOk
    cases dup <;> exact hindex
  count _ _ _ _ h := h

theorem NeighNode.pushTq_avg_pos {n : NeighNode p} (h : n.RingOk) {tq : Byte} (htq : 1 ≤ tq.toNat) :
    1 ≤ (n.pushTq tq).tqAvg.toNat :=
  ringBufferAvg_pos (value_mem_ringBufferSet n.tqRecv tq h) htq

theorem OrigNode.senderAvg_pos (h : ∀ n ∈ o.neighList, n.RingOk) {tq : Byte} (htq : 1 ≤ tq.toNat) :
    1 ≤ (o.senderAvg neigh ifIncoming tq).toNat := by
  unfold OrigNode.senderAvg
  cases hvia : o.neighVia neigh ifIncoming with
  | some n => exact NeighNode.pushTq_avg_pos (h n (OrigNode.neighVia_some hvia).1) htq
  | none => exact NeighNode.pushTq_avg_pos (NeighNode.kept_ringOk.new _ _ _ _) htq

/-- The scan finds a neighbour with the highest `tq_avg`, if there is one above 0. -/
theorem OrigNode.Ranked.scan_best {o' : OrigNode p} {sender : NeighNode p}
    (hranked : o.Ranked neigh pkt ifIncoming dup o' sender) (s : State p) (g : Garbage p) :
    (((⟨0, 0, none⟩ : Rank p).scan o.router (s.scanned g o neigh ifIncoming dup sender)).best = none ∧
      ∀ n ∈ o'.neighList, n.tqAvg.toNat ≤ 0) ∨
      ∃ r ∈ o'.neighList, ((⟨0, 0, none⟩ : Rank p).scan o.router
        (s.scanned g o neigh ifIncoming dup sender)).best = some r ∧
          ∀ n ∈ o'.neighList, n.tqAvg.toNat ≤ r.tqAvg.toNat := by
  have hstart : (⟨0, 0, none⟩ : Rank p).Sound [] := ⟨by simp, .inl ⟨rfl, rfl⟩⟩
  have hsound : ((⟨0, 0, none⟩ : Rank p).scan o.router (s.scanned g o neigh ifIncoming dup sender)).Sound
      ([] ++ (s.scanned g o neigh ifIncoming dup sender).map Prod.fst) := hstart.scan _
  obtain ⟨hmax, hbest⟩ := hsound
  have hseen : ∀ n, n ∈ o'.neighList ↔
      n ∈ [] ++ (s.scanned g o neigh ifIncoming dup sender).map Prod.fst := by
    intro n
    rw [hranked.mem_iff]
    unfold State.scanned
    simp
  rcases hbest with ⟨hnone, hzero⟩ | ⟨r, hr, hsome, hmaxTq⟩
  · rw [hzero] at hmax
    exact .inl ⟨hnone, fun n hn => hmax n ((hseen n).mp hn)⟩
  · rw [hmaxTq] at hmax
    exact .inr ⟨r, (hseen r).mpr hr, hsome, fun n hn => hmax n ((hseen n).mp hn)⟩

/-- **The router is a best neighbour.** In every reachable state the neighbours of an entry differ in
address or interface; and for every such entry, whatever the order of its neighbours and the contents of
their rings, `update_orig` makes a neighbour with the highest `tq_avg` of all the router. -/
theorem router_best (p : Platform) :
    (∀ (cfg : Config) (tr : List (State p × Event p)) (s : State p), Run p cfg tr s →
      s.Table ∧ ∀ o ∈ s.origs, s.Entry o ∧ ∀ n ∈ o.neighList, n.RingOk) ∧
      ∀ (s : State p) (o : OrigNode p) (g : Garbage p) (neigh : Mac) (pkt : BatmanPacket)
        (ifIncoming : ℕ) (hna : List Byte) (dup : Bool) (t gwTime : Time),
        s.Table → s.Entry o → (∀ n ∈ o.neighList, n.RingOk) → 1 ≤ pkt.tq.toNat →
          ∃ o' ∈ (s.updateOrig g o.ptr neigh pkt ifIncoming hna dup t gwTime).origs,
            o'.ptr = o.ptr ∧ ∃ r ∈ o'.neighList, o'.router = some r.ptr ∧
              ∀ n ∈ o'.neighList, n.tqAvg.toNat ≤ r.tqAvg.toNat := by
  refine ⟨fun cfg tr s hrun => ⟨hrun.wf.table, fun o ho => ⟨hrun.wf.entry ho, ?_⟩⟩, ?_⟩
  · exact hrun.neighs NeighNode.kept_ringOk o ho
  · intro s o g neigh pkt ifIncoming hna dup t gwTime h he hring htq
    obtain ⟨_, o', ho', sender, hranked, hrouter⟩ :=
      h.updateOrig he g neigh pkt ifIncoming hna dup t gwTime
    have hsender : 1 ≤ sender.tqAvg.toNat := hranked.avg ▸ OrigNode.senderAvg_pos hring htq
    refine ⟨o', ho', hranked.ptr, ?_⟩
    rcases hranked.scan_best s g with ⟨-, hzero⟩ | ⟨r, hr, hsome, hmax⟩
    · have hle := hzero sender ((hranked.mem_iff sender).mpr (.inr rfl))
      exact absurd (hsender.trans hle) (by decide)
    · refine ⟨r, hr, ?_, hmax⟩
      rw [hrouter, hsome]
      rfl

/-- A known neighbour and a new one, after the link to `A` is up. -/
theorem router_best_linkUp : ∃ tr s, Run Net.p64 Net.cfg tr s ∧
    tr.map Prod.snd = Net.linkUp Net.p64 ∧ ∃ o ∈ s.origs, ∀ neigh ∈ [Net.macA, Net.macB],
      ∃ o' ∈ (s.updateOrig (Net.zeros Net.p64) o.ptr neigh (Net.ogm neigh Net.macA 0 3 1400).pkt 0 []
        false 1400 1400).origs,
        o'.ptr = o.ptr ∧ ∃ r ∈ o'.neighList, o'.router = some r.ptr ∧
          ∀ n ∈ o'.neighList, n.tqAvg.toNat ≤ r.tqAvg.toNat := by
  obtain ⟨tr, s, hrun, hevents, hcheck⟩ := Run.of_exec Net.cfg (Net.linkUp Net.p64)
    (fun _ (s : State Net.p64) => decide (∃ o ∈ s.origs, o.orig = Net.macA)) (by decide +kernel)
  obtain ⟨o, ho, _⟩ := of_decide_eq_true hcheck
  obtain ⟨hreach, hbest⟩ := router_best Net.p64
  obtain ⟨htable, hentries⟩ := hreach Net.cfg tr s hrun
  obtain ⟨hentry, hring⟩ := hentries o ho
  exact ⟨tr, s, hrun, hevents, o, ho, fun neigh _ =>
    hbest s o _ neigh _ 0 [] false 1400 1400 htable hentry hring (show 1 ≤ (255 : Byte).toNat by decide)⟩

/-! ## Ties -/

def behind (ptr : ℕ) (l : List (NeighNode p)) : List (NeighNode p) :=
  (l.dropWhile fun n => n.ptr ≠ ptr).tail

/-- The neighbours considered after the router `r`, if it is not the one the OGM comes via: those behind
it in the list, and the one the OGM comes via. None of them ties with `r` and has a higher
`bcast_own_sum`. -/
def State.TiesKept (s : State p) (g : Garbage p) (o : OrigNode p) (r : NeighNode p) (neigh : Mac)
    (tq : Byte) (ifIncoming : ℕ) (isDuplicate : Bool) : Prop :=
  r.isVia neigh ifIncoming = true ∨
    (∀ n ∈ behind r.ptr o.neighList, n.isVia neigh ifIncoming = false →
      (n.missed isDuplicate).tqAvg = (r.missed isDuplicate).tqAvg →
        (s.bcastOwnSum g n.origNode ifIncoming).toNat ≤ (s.bcastOwnSum g r.origNode ifIncoming).toNat) ∧
      (o.senderAvg neigh ifIncoming tq = (r.missed isDuplicate).tqAvg →
        (s.senderSum g o neigh ifIncoming).toNat ≤ (s.bcastOwnSum g r.origNode ifIncoming).toNat)

instance (s : State p) (g : Garbage p) (o : OrigNode p) (r : NeighNode p) (neigh : Mac) (tq : Byte)
    (ifIncoming : ℕ) (isDuplicate : Bool) :
    Decidable (s.TiesKept g o r neigh tq ifIncoming isDuplicate) :=
  inferInstanceAs (Decidable (_ ∨ _))

theorem State.Entry.behind_eq (h : s.Entry o) {r : NeighNode p} {a b : List (NeighNode p)}
    (hsplit : o.neighList = a ++ r :: b) : behind r.ptr o.neighList = b := by
  have hdistinct := h.distinct
  rw [hsplit] at hdistinct ⊢
  have hne : ∀ n ∈ a, n.ptr ≠ r.ptr := fun n hn =>
    ((List.pairwise_append.mp hdistinct).2.2 n hn r List.mem_cons_self).1
  unfold behind
  rw [List.dropWhile_append_of_pos (by simpa using hne), List.dropWhile_cons_of_neg (by simp)]
  rfl

/-- The router is considered last: it stays. -/
theorem OrigNode.Ranked.scan_sender {o' : OrigNode p} {sender : NeighNode p}
    (hranked : o.Ranked neigh pkt ifIncoming dup o' sender) (g : Garbage p)
    (hrouter : o.router = some sender.ptr) (hle : ∀ n ∈ o'.neighList, n.tqAvg.toNat ≤ sender.tqAvg.toNat) :
    ((⟨0, 0, none⟩ : Rank p).scan o.router
      (s.scanned g o neigh ifIncoming dup sender)).best.map (·.ptr) = some sender.ptr := by
  unfold State.scanned
  rw [Rank.scan_append, Rank.scan_cons, Rank.scan_nil, Rank.consider_router hrouter]
  · rfl
  · refine Rank.maxTq_scan_le (Nat.zero_le _) fun x hx => ?_
    obtain ⟨n, hn, rfl⟩ := List.mem_map.mp hx
    exact hle n ((hranked.mem_iff n).mpr (.inl hn))

/-- The neighbours the OGM did not come via, with the router among them. -/
theorem OrigNode.others_eq {r : NeighNode p} {a b : List (NeighNode p)} (hsplit : o.neighList = a ++ r :: b)
    (hvia : r.isVia neigh ifIncoming = false) : o.others neigh ifIncoming dup =
      (a.filter fun n => !n.isVia neigh ifIncoming).map (·.missed dup) ++
        r.missed dup :: (b.filter fun n => !n.isVia neigh ifIncoming).map (·.missed dup) := by
  unfold OrigNode.others
  rw [hsplit, List.filter_append, List.filter_cons, if_pos (by simp [hvia]), List.map_append, List.map_cons]

/-- The router is not considered last: what comes after it decides. -/
theorem State.Entry.scan_other_iff (he : s.Entry o) {r sender : NeighNode p} {o' : OrigNode p}
    (hr : r ∈ o.neighList) (hranked : o.Ranked neigh pkt ifIncoming dup o' sender) (g : Garbage p)
    (hrouter : o.router = some r.ptr) (hvia : r.isVia neigh ifIncoming = false)
    (hle : ∀ n ∈ o'.neighList, n.tqAvg.toNat ≤ (r.missed dup).tqAvg.toNat) :
    ((⟨0, 0, none⟩ : Rank p).scan o.router
      (s.scanned g o neigh ifIncoming dup sender)).best.map (·.ptr) = some r.ptr ↔
        s.TiesKept g o r neigh pkt.tq ifIncoming dup := by
  obtain ⟨a, b, hsplit⟩ := List.append_of_mem hr
  have hbehind := he.behind_eq hsplit
  have hmem : ∀ n ∈ o.others neigh ifIncoming dup, n.tqAvg.toNat ≤ (r.missed dup).tqAvg.toNat :=
    fun n hn => hle n ((hranked.mem_iff n).mpr (.inl hn))
  have hsender : sender.ptr ≠ (r.missed dup).ptr ∧
      sender.tqAvg.toNat ≤ (r.missed dup).tqAvg.toNat := by
    refine ⟨fun hptr => ?_, hle sender ((hranked.mem_iff sender).mpr (.inr rfl))⟩
    rw [(hranked.ptr_iff r hr).mp (hptr.trans r.missed_ptr)] at hvia
    cases hvia
  have hptr : r.ptr = (r.missed dup).ptr := r.missed_ptr.symm
  unfold State.scanned
  rw [OrigNode.others_eq hsplit hvia] at hmem ⊢
  rw [List.map_append, List.map_cons, List.append_assoc, Rank.scan_append, List.cons_append,
    Rank.scan_cons, Rank.consider_router (by rw [hrouter, NeighNode.missed_ptr]), hptr,
    Rank.scan_behind_iff (by rw [hrouter, NeighNode.missed_ptr])]
  · rw [List.forall_mem_append, List.forall_mem_singleton]
    unfold State.TiesKept
    rw [hvia, hbehind, hranked.avg, NeighNode.missed_origNode]
    simp only [Bool.false_eq_true, false_or]
    refine and_congr_left fun _ => ⟨fun hall n hn hnvia => ?_, fun hall x hx => ?_⟩
    · have hties := hall _ (List.mem_map_of_mem (List.mem_map_of_mem
        (List.mem_filter.mpr ⟨hn, by rw [hnvia]; rfl⟩)))
      rwa [NeighNode.missed_origNode] at hties
    · obtain ⟨m, hm, rfl⟩ := List.mem_map.mp hx
      obtain ⟨n, hn, rfl⟩ := List.mem_map.mp hm
      obtain ⟨hn, hnvia⟩ := List.mem_filter.mp hn
      rw [NeighNode.missed_origNode]
      exact hall n hn (by simpa using hnvia)
  · rw [List.forall_mem_append, List.forall_mem_singleton]
    refine ⟨fun x hx => ?_, hsender⟩
    obtain ⟨m, hm, rfl⟩ := List.mem_map.mp hx
    refine ⟨?_, hmem m (List.mem_append_right _ (List.mem_cons_of_mem _ hm))⟩
    obtain ⟨n, hn, rfl⟩ := List.mem_map.mp hm
    have hdistinct := he.distinct
    rw [hsplit] at hdistinct
    have hpair := (List.pairwise_cons.mp (List.pairwise_append.mp hdistinct).2.1).1 n
      (List.mem_filter.mp hn).1
    rw [NeighNode.missed_ptr, NeighNode.missed_ptr]
    exact hpair.1.symm
  · refine Rank.maxTq_scan_le (Nat.zero_le _) fun x hx => ?_
    obtain ⟨n, hn, rfl⟩ := List.mem_map.mp hx
    exact hmem n (List.mem_append_left _ hn)

/-- **Ties and the router.** If the current router has the highest `tq_avg` after the ring buffers are
written, it stays the router exactly if no neighbour considered after it ties with a higher
`bcast_own_sum`. -/
theorem router_kept_iff {r : NeighNode p} (h : s.Table) (he : s.Entry o) (hr : r ∈ o.neighList)
    (hrouter : o.router = some r.ptr) (g : Garbage p) (neigh : Mac) (pkt : BatmanPacket)
    (ifIncoming : ℕ) (hna : List Byte) (dup : Bool) (t gwTime : Time)
    (hmax : ∃ r' ∈ ((s.updateOrig g o.ptr neigh pkt ifIncoming hna dup t gwTime).origAt o.ptr).neighList,
      r'.ptr = r.ptr ∧
        ∀ n ∈ ((s.updateOrig g o.ptr neigh pkt ifIncoming hna dup t gwTime).origAt o.ptr).neighList,
          n.tqAvg.toNat ≤ r'.tqAvg.toNat) :
    ((s.updateOrig g o.ptr neigh pkt ifIncoming hna dup t gwTime).origAt o.ptr).router = some r.ptr ↔
      s.TiesKept g o r neigh pkt.tq ifIncoming dup := by
  obtain ⟨h', o', ho', sender, hranked, hnew⟩ :=
    h.updateOrig he g neigh pkt ifIncoming hna dup t gwTime
  have hat := h'.origAt_of_mem ho'
  rw [hranked.ptr] at hat
  rw [hat] at hmax ⊢
  obtain ⟨r', hr', hptr', hle⟩ := hmax
  rw [hnew]
  by_cases hvia : r.isVia neigh ifIncoming = true
  · have hsender : sender.ptr = r.ptr := (hranked.ptr_iff r hr).mpr hvia
    obtain rfl : r' = sender := by
      rcases (hranked.mem_iff r').mp hr' with hother | rfl
      · exact absurd (hptr'.trans hsender.symm) (hranked.other_ptr r' hother)
      · rfl
    rw [← hsender] at hrouter ⊢
    exact iff_of_true (hranked.scan_sender g hrouter hle) (.inl hvia)
  · obtain rfl : r' = r.missed dup := by
      rcases (hranked.mem_iff r').mp hr' with hother | rfl
      · obtain ⟨m, hm, _, rfl⟩ := OrigNode.mem_others hother
        rw [NeighNode.missed_ptr] at hptr'
        rw [he.eq_of_ptr hm hr hptr']
      · exact absurd ((hranked.ptr_iff r hr).mp hptr') hvia
    exact he.scan_other_iff hr hranked g hrouter (by simpa using hvia) hle

/-- `A` and `B` are neighbours, `B` is heard to rebroadcast one more of the own packets, and `A` is the
router towards `C`. -/
def Net.ties : List (Event Net.p64) :=
  [.sendBegin 1000, .sendNext 1000 0, .sendNext 1000 0, .sendNext 1000 0,
    .ogm (Net.zeros Net.p64) (Net.echo Net.macA Net.me0 0 1 1100),
    .ogm (Net.zeros Net.p64) (Net.echo Net.macB Net.me0 0 1 1100),
    .sendBegin 2000, .sendNext 2000 0, .sendNext 2000 0, .sendNext 2000 0,
    .ogm (Net.zeros Net.p64) (Net.echo Net.macB Net.me0 0 2 2100),
    .ogm (Net.zeros Net.p64) (Net.ogm Net.macA Net.macA 0 1 2200),
    .ogm (Net.zeros Net.p64) (Net.ogm Net.macA Net.macA 0 2 2300),
    .ogm (Net.zeros Net.p64) (Net.ogm Net.macA Net.macC 0 1 2400)]

/-- What `update_orig` leaves of the entry `o` of `C` for a packet that comes via `neigh`. -/
def Net.afterTie (s : State Net.p64) (o : OrigNode Net.p64) (neigh : Mac) : OrigNode Net.p64 :=
  (s.updateOrig (Net.zeros Net.p64) o.ptr neigh
    { (Net.ogm neigh Net.macC 0 3 2600).pkt with tq := 12 } 0 [] false 2600 2600).origAt o.ptr

/-- The router of `o`, with the highest `tq_avg` once the rings are written for a packet via `neigh`. -/
def Net.Ties (s : State Net.p64) (o : OrigNode Net.p64) (r : NeighNode Net.p64) (neigh : Mac) : Prop :=
  o.router = some r.ptr ∧ ∃ r' ∈ (Net.afterTie s o neigh).neighList, r'.ptr = r.ptr ∧
    ∀ n ∈ (Net.afterTie s o neigh).neighList, n.tqAvg.toNat ≤ r'.tqAvg.toNat

instance (s : State Net.p64) (o : OrigNode Net.p64) (r : NeighNode Net.p64) (neigh : Mac) :
    Decidable (Net.Ties s o r neigh) :=
  inferInstanceAs (Decidable (_ ∧ _))

/-- `B` is the router towards `C`. -/
def Net.tiesOverB : List (Event Net.p64) :=
  Net.ties.dropLast ++
    [.ogm (Net.zeros Net.p64) (Net.ogm Net.macB Net.macB 0 1 2200),
      .ogm (Net.zeros Net.p64) (Net.ogm Net.macB Net.macB 0 2 2300),
      .ogm (Net.zeros Net.p64) (Net.ogm Net.macB Net.macC 0 1 2400)]

/-- The next packet of `C` comes via `A`, which ties with the router `B`, with fewer of our packets heard back. -/
theorem router_kept_same : ∃ tr s, Run Net.p64 Net.cfg tr s ∧ tr.map Prod.snd = Net.tiesOverB ∧
    ∃ o ∈ s.origs, ∃ r ∈ o.neighList, Net.Ties s o r Net.macA ∧
      (∃ n ∈ (Net.afterTie s o Net.macA).neighList, n.ptr ≠ r.ptr ∧
        ∀ m ∈ (Net.afterTie s o Net.macA).neighList, m.tqAvg.toNat ≤ n.tqAvg.toNat) ∧
      (Net.afterTie s o Net.macA).router = some r.ptr := by
  obtain ⟨tr, s, hrun, hevents, hcheck⟩ := Run.of_exec Net.cfg Net.tiesOverB
    (fun _ (s : State Net.p64) => decide (∃ o ∈ s.origs, ∃ r ∈ o.neighList, Net.Ties s o r Net.macA ∧
      (∃ n ∈ (Net.afterTie s o Net.macA).neighList, n.ptr ≠ r.ptr ∧
        ∀ m ∈ (Net.afterTie s o Net.macA).neighList, m.tqAvg.toNat ≤ n.tqAvg.toNat) ∧
      s.TiesKept (Net.zeros Net.p64) o r Net.macA 12 0 false)) (by decide +kernel)
  obtain ⟨o, ho, r, hr, hties, hother, hkept⟩ := of_decide_eq_true hcheck
  refine ⟨tr, s, hrun, hevents, o, ho, r, hr, hties, hother, ?_⟩
  exact (router_kept_iff hrun.wf.table (hrun.wf.entry ho) hr hties.1 (Net.zeros Net.p64) Net.macA
    { (Net.ogm Net.macA Net.macC 0 3 2600).pkt with tq := 12 } 0 [] false 2600 2600 hties.2).mpr hkept

/-- Where `A` is the router, it comes via `B`, which ties with `A` and is a new neighbour at the end of the list. -/
theorem router_not_kept : ∃ tr s, Run Net.p64 Net.cfg tr s ∧ tr.map Prod.snd = Net.ties ∧
    ∃ o ∈ s.origs, ∃ r ∈ o.neighList, Net.Ties s o r Net.macB ∧
      (Net.afterTie s o Net.macB).router ≠ some r.ptr := by
  obtain ⟨tr, s, hrun, hevents, hcheck⟩ := Run.of_exec Net.cfg Net.ties
    (fun _ (s : State Net.p64) => decide (∃ o ∈ s.origs, ∃ r ∈ o.neighList, Net.Ties s o r Net.macB ∧
      (Net.afterTie s o Net.macB).router ≠ some r.ptr)) (by decide +kernel)
  exact ⟨tr, s, hrun, hevents, of_decide_eq_true hcheck⟩

end BatmanAdv
