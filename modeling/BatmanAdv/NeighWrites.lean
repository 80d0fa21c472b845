import BatmanAdv.LastWrites
import BatmanAdv.Lib.Circular
import BatmanAdv.Ranking

/-!
# What `update_orig` writes to the neighbours

`update_orig` pushes 0 to the rings of the neighbours that missed a packet, and its `tq` to the ring of the one
it came via, whose `last_ttl` it writes too unless the packet is a duplicate. These writes of a run, told apart by
the neighbour they are made to, are all there is of a ring and of a `last_ttl`: nothing else that happens to a
neighbour touches them, and none has two histories, as no two neighbours of a node share a pointer.
-/

namespace BatmanAdv

open Transition

variable {p : Platform} {s s' : State p} {g : Garbage p} {rx : Ogm}

/-! ## The writes -/

/-- The value pushed to the ring of a neighbour, and its new `last_ttl` if that is written. -/
structure NeighWrite where
  tq : Byte
  lastTtl : Option Byte

def State.neighWrites (s : State p) (origNode : ℕ) (neigh : Mac) (pkt : BatmanPacket) (ifIncoming : ℕ)
    (isDuplicate : Bool) : List (ℕ × NeighWrite) :=
  let missed := (s.origAt origNode).neighList.filter fun n => !(n.isVia neigh ifIncoming || isDuplicate)
  let s := s.modOrig origNode (·.pushZero neigh ifIncoming isDuplicate)
  -- behind the loop, the neighbour the packet came via may have to be created
  missed.map (fun n => (n.ptr, ⟨0, none⟩)) ++
    [((s.viaNeighbor origNode neigh ifIncoming).2.ptr, ⟨pkt.tq, if isDuplicate then none else some pkt.ttl⟩)]

def State.ogmWrites (s : State p) (g : Garbage p) (rx : Ogm) : List (ℕ × NeighWrite) :=
  if s.UpdatesOrig g rx then
    let c := s.counted g rx
    let r := c.rate rx
    r.state.neighWrites c.origNode rx.neigh r.pkt rx.ifIncoming c.isDuplicate
  else []

def Event.neighWrites (s : State p) : Event p → List (ℕ × NeighWrite)
  | .ogm g rx => s.ogmWrites g rx
  | _ => []

def neighWrites (tr : List (State p × Event p)) : List (ℕ × NeighWrite) :=
  tr.flatMap fun x => x.2.neighWrites x.1

def writtenTo (ptr : ℕ) (writes : List (ℕ × NeighWrite)) : List NeighWrite :=
  writes.filterMap fun x => if x.1 = ptr then some x.2 else none

@[simp] theorem writtenTo_append (ptr : ℕ) (writes writes' : List (ℕ × NeighWrite)) :
    writtenTo ptr (writes ++ writes') = writtenTo ptr writes ++ writtenTo ptr writes' := List.filterMap_append

theorem writtenTo_eq_nil {ptr : ℕ} {writes : List (ℕ × NeighWrite)} (h : ∀ x ∈ writes, x.1 ≠ ptr) :
    writtenTo ptr writes = [] := by
  apply List.filterMap_eq_nil_iff.mpr
  intro x hx
  exact if_neg (h x hx)

theorem writtenTo_cons_self (ptr : ℕ) (write : NeighWrite) (writes : List (ℕ × NeighWrite)) :
    writtenTo ptr ((ptr, write) :: writes) = write :: writtenTo ptr writes := by
  simp [writtenTo]

/-! ## One neighbour -/

/-- The ring of a neighbour holds the last of these values, `tq_avg` is their average, and `last_ttl` is the last
that was written. -/
structure NeighNode.Remembers (n : NeighNode p) (log : List NeighWrite) : Prop where
  holds : Circular.Holds n.tqRecv.toList n.tqIndex.toNat tqGlobalWindowSize 0 (log.map (·.tq))
  avg : n.tqAvg = ringBufferAvg n.tqRecv
  lastTtl : n.lastTtl = (log.filterMap (·.lastTtl)).getLast?.getD 0

namespace NeighNode.Remembers

variable {n : NeighNode p} {log : List NeighWrite}

theorem new (ptr : ℕ) (addr : Mac) (origNode ifIncoming : ℕ) :
    (NeighNode.new ptr addr origNode ifIncoming : NeighNode p).Remembers [] := by
  have havg : (0 : Byte) = ringBufferAvg (Vector.replicate tqGlobalWindowSize 0) := by decide
  refine ⟨?_, havg, rfl⟩
  show Circular.Holds (Vector.replicate tqGlobalWindowSize (0 : Byte)).toList 0 _ _ _
  rw [Vector.toList_replicate]
  exact .new _ _

/-- **One call of `ring_buffer_set`**, with `ring_buffer_avg` behind it. -/
theorem pushTq (h : n.Remembers log) (value : Byte) : (n.pushTq value).Remembers (log ++ [⟨value, none⟩]) := by
  have hset := h.holds.set (by decide : 0 < tqGlobalWindowSize) value
  have hindex : (BitVec.ofNat 8 ((n.tqIndex.toNat + 1) % tqGlobalWindowSize)).toNat =
      (n.tqIndex.toNat + 1) % tqGlobalWindowSize := by
    rw [BitVec.toNat_ofNat]
    have hlt : (n.tqIndex.toNat + 1) % tqGlobalWindowSize < tqGlobalWindowSize := Nat.mod_lt _ (by decide)
    exact Nat.mod_eq_of_lt (hlt.trans (by decide))
  refine ⟨?_, rfl, ?_⟩
  · show Circular.Holds (n.tqRecv.setIfInBounds n.tqIndex.toNat value).toList
      (BitVec.ofNat 8 ((n.tqIndex.toNat + 1) % tqGlobalWindowSize)).toNat _ _ _
    rw [Vector.toList_setIfInBounds, hindex, List.map_append]
    exact hset
  · rw [List.filterMap_append]
    exact h.lastTtl.trans (by simp)

theorem receive (h : n.Remembers log) (pkt : BatmanPacket) (dup : Bool) (t : Time) :
    (n.receive pkt dup t).Remembers (log ++ [⟨pkt.tq, if dup then none else some pkt.ttl⟩]) := by
  have hpush := h.pushTq pkt.tq
  have htq : (log ++ [(⟨pkt.tq, none⟩ : NeighWrite)]).map (·.tq) = log.map (·.tq) ++ [pkt.tq] := List.map_append
  have hholds := hpush.holds
  rw [htq] at hholds
  unfold NeighNode.receive
  cases dup
  · refine ⟨?_, hpush.avg, ?_⟩
    · rw [List.map_append]
      exact hholds
    · simp
  · exact ⟨hpush.holds, hpush.avg, hpush.lastTtl⟩

theorem touch (h : n.Remembers log) (t : Time) : (n.touch t).Remembers log := ⟨h.holds, h.avg, h.lastTtl⟩

theorem countPacket (h : n.Remembers log) (front : ℕ → ℕ → p.Word) (d : ℤ) (m : Bool) :
    (n.countPacket front d m).Remembers log := ⟨h.holds, h.avg, h.lastTtl⟩

theorem avg_toNat (h : n.Remembers log) :
    n.tqAvg.toNat = (nonzeroValues (Circular.recent tqGlobalWindowSize 0 (log.map (·.tq)))).sum /
      (nonzeroValues (Circular.recent tqGlobalWindowSize 0 (log.map (·.tq)))).length := by
  have hperm := nonzeroValues_perm h.holds.perm
  rw [h.avg, ringBufferAvg_toNat, hperm.sum_eq, hperm.length_eq]

end NeighNode.Remembers

/-! ## All neighbours -/

/-- Every ring remembers what these calls pushed to it, and no two neighbours share a pointer. -/
structure State.Recorded (s : State p) (writes : List (ℕ × NeighWrite)) : Prop where
  table : s.Table
  known : ∀ x ∈ writes, x.1 < s.nextPtr
  ptr_lt : ∀ o ∈ s.origs, ∀ n ∈ o.neighList, n.ptr < s.nextPtr
  nodup : ∀ o ∈ s.origs, (o.neighList.map (·.ptr)).Nodup
  apart : ∀ o ∈ s.origs, ∀ o' ∈ s.origs, ∀ n ∈ o.neighList, ∀ n' ∈ o'.neighList, n.ptr = n'.ptr → o.ptr = o'.ptr
  remembers : ∀ o ∈ s.origs, ∀ n ∈ o.neighList, n.Remembers (writtenTo n.ptr writes)

/-- The neighbours of `o'` are some of those of `o`, and their rings remember these calls. -/
def OrigNode.Follows (writes : List (ℕ × NeighWrite)) (o o' : OrigNode p) : Prop :=
  o'.ptr = o.ptr ∧ ∃ (l : List (NeighNode p)) (k : NeighNode p → NeighNode p),
    l.Sublist o.neighList ∧ o'.neighList = l.map k ∧ (∀ n, (k n).ptr = n.ptr) ∧
      ∀ n ∈ l, (k n).Remembers (writtenTo n.ptr writes)

namespace State.Recorded

variable {writes new : List (ℕ × NeighWrite)}

theorem of_follows (h : s.Recorded writes) (htable : s'.Table) (hnext : s.nextPtr ≤ s'.nextPtr)
    (hnew : ∀ x ∈ new, x.1 < s'.nextPtr)
    (hfrom : ∀ o' ∈ s'.origs, o'.neighList = [] ∨ ∃ o ∈ s.origs, o.Follows (writes ++ new) o') :
    s'.Recorded (writes ++ new) := by
  -- where a neighbour comes from
  have hneigh : ∀ o' ∈ s'.origs, ∀ n' ∈ o'.neighList, ∃ o ∈ s.origs, o'.ptr = o.ptr ∧
      ∃ n ∈ o.neighList, n'.ptr = n.ptr ∧ n'.Remembers (writtenTo n.ptr (writes ++ new)) := by
    intro o' ho' n' hn'
    obtain hnil | ⟨o, ho, hptr, l, k, hsub, hlist, hk, hring⟩ := hfrom o' ho'
    · rw [hnil] at hn'
      exact absurd hn' List.not_mem_nil
    · rw [hlist] at hn'
      obtain ⟨n, hn, rfl⟩ := List.mem_map.mp hn'
      exact ⟨o, ho, hptr, n, hsub.subset hn, hk n, hring n hn⟩
  refine ⟨htable, fun x hx => ?_, fun o' ho' n' hn' => ?_, fun o' ho' => ?_, ?_, fun o' ho' n' hn' => ?_⟩
  · rcases List.mem_append.mp hx with hx | hx
    · exact (h.known x hx).trans_le hnext
    · exact hnew x hx
  · obtain ⟨o, ho, -, n, hn, hptr, -⟩ := hneigh o' ho' n' hn'
    rw [hptr]
    exact (h.ptr_lt o ho n hn).trans_le hnext
  · obtain hnil | ⟨o, ho, -, l, k, hsub, hlist, hk, -⟩ := hfrom o' ho'
    · rw [hnil]
      exact List.nodup_nil
    · have hsame : o'.neighList.map (·.ptr) = l.map (·.ptr) := by
        rw [hlist, List.map_map]
        exact List.map_congr_left fun n _ => hk n
      rw [hsame]
      exact (h.nodup o ho).sublist (hsub.map _)
  · intro a ha b hb n hn m hm hptr
    obtain ⟨a', ha', haptr, n', hn', hnptr, -⟩ := hneigh a ha n hn
    obtain ⟨b', hb', hbptr, m', hm', hmptr, -⟩ := hneigh b hb m hm
    rw [haptr, hbptr]
    exact h.apart a' ha' b' hb' n' hn' m' hm' (by rw [← hnptr, ← hmptr, hptr])
  · obtain ⟨o, ho, -, n, hn, hptr, hring⟩ := hneigh o' ho' n' hn'
    rw [hptr]
    exact hring

theorem of_sublist (h : s.Recorded writes) (htable : s'.Table) (hnext : s.nextPtr ≤ s'.nextPtr)
    (hfrom : ∀ o' ∈ s'.origs, o'.neighList = [] ∨
      ∃ o ∈ s.origs, o'.ptr = o.ptr ∧ o'.neighList.Sublist o.neighList) : s'.Recorded writes := by
  rw [← List.append_nil writes]
  refine h.of_follows htable hnext (by simp) fun o' ho' => ?_
  obtain hnil | ⟨o, ho, hptr, hsub⟩ := hfrom o' ho'
  · exact .inl hnil
  · refine .inr ⟨o, ho, hptr, o'.neighList, id, hsub, (List.map_id _).symm, fun _ => rfl, fun n hn => ?_⟩
    rw [List.append_nil]
    exact h.remembers o ho n (hsub.subset hn)

theorem of_origHash (h : s.Recorded writes) (hhash : s'.origHash = s.origHash) (hnext : s.nextPtr ≤ s'.nextPtr) :
    s'.Recorded writes := by
  refine h.of_sublist (h.table.congr hhash hnext) hnext fun o ho => .inr ⟨o, ?_, rfl, .refl _⟩
  unfold State.origs at ho ⊢
  rwa [hhash] at ho

/-- **The neighbours of one entry are written**, and `new` is what is pushed to their rings. -/
theorem modOrig (h : s.Recorded writes) {ptr : ℕ} {f : OrigNode p → OrigNode p}
    {k : OrigNode p → NeighNode p → NeighNode p} (hptr : ∀ o, (f o).ptr = o.ptr) (horig : ∀ o, (f o).orig = o.orig)
    (hlist : ∀ o, (f o).neighList = o.neighList.map (k o)) (hk : ∀ o n, (k o n).ptr = n.ptr)
    (hnew : ∀ x ∈ new, ∃ o ∈ s.origs, o.ptr = ptr ∧ ∃ n ∈ o.neighList, n.ptr = x.1)
    (hring : ∀ o ∈ s.origs, o.ptr = ptr → ∀ n ∈ o.neighList, ∀ log, n.Remembers log →
      (k o n).Remembers (log ++ writtenTo n.ptr new)) : (s.modOrig ptr f).Recorded (writes ++ new) := by
  refine h.of_follows (h.table.modOrig hptr horig) le_rfl (fun x hx => ?_) fun o' ho' => .inr ?_
  · obtain ⟨o, ho, -, n, hn, heq⟩ := hnew x hx
    exact heq ▸ h.ptr_lt o ho n hn
  · obtain ⟨o, ho, rfl⟩ := mem_origs_modOrig.mp ho'
    refine ⟨o, ho, ?_⟩
    split_ifs with heq
    · refine ⟨hptr o, o.neighList, k o, .refl _, hlist o, hk o, fun n hn => ?_⟩
      rw [writtenTo_append]
      exact hring o ho heq n hn _ (h.remembers o ho n hn)
    · refine ⟨rfl, o.neighList, id, .refl _, (List.map_id _).symm, fun _ => rfl, fun n hn => ?_⟩
      -- what is pushed is pushed to neighbours of the other entry
      have hnone : writtenTo n.ptr new = [] := by
        apply writtenTo_eq_nil
        intro x hx hxn
        obtain ⟨y, hy, hyptr, m, hm, hmx⟩ := hnew x hx
        exact heq ((h.apart o ho y hy n hn m hm (hxn.symm.trans hmx.symm)).trans hyptr)
      rw [writtenTo_append, hnone, List.append_nil]
      exact h.remembers o ho n hn

theorem modOrig_quiet (h : s.Recorded writes) (ptr : ℕ) {f : OrigNode p → OrigNode p}
    {k : OrigNode p → NeighNode p → NeighNode p} (hptr : ∀ o, (f o).ptr = o.ptr) (horig : ∀ o, (f o).orig = o.orig)
    (hlist : ∀ o, (f o).neighList = o.neighList.map (k o)) (hk : ∀ o n, (k o n).ptr = n.ptr)
    (hring : ∀ o n log, n.Remembers log → (k o n).Remembers log) : (s.modOrig ptr f).Recorded writes := by
  rw [← List.append_nil writes]
  refine h.modOrig hptr horig hlist hk (by simp) fun o _ _ n _ log hn => ?_
  rw [writtenTo_eq_nil (by simp), List.append_nil]
  exact hring o n log hn

theorem modOrig_entry (h : s.Recorded writes) (ptr : ℕ) {f : OrigNode p → OrigNode p}
    (hptr : ∀ o, (f o).ptr = o.ptr) (horig : ∀ o, (f o).orig = o.orig)
    (hlist : ∀ o, (f o).neighList = o.neighList) : (s.modOrig ptr f).Recorded writes :=
  h.modOrig_quiet (k := fun _ => id) ptr hptr horig (fun o => by rw [List.map_id, hlist]) (fun _ _ => rfl)
    fun _ _ _ hn => hn

theorem getOrigNode (h : s.Recorded writes) (addr : Mac) : (s.getOrigNode addr).1.Recorded writes := by
  have hcalm := State.Calm.getOrigNode h.table addr
  refine h.of_sublist hcalm.table hcalm.nextPtr fun o' ho' => ?_
  rcases State.getOrigNode_cases h.table.ok addr with ⟨o, -, -, heq⟩ | ⟨-, hash, heq, hperm, -⟩
  · rw [heq] at ho'
    exact .inr ⟨o', ho', rfl, .refl _⟩
  · rw [heq] at ho'
    rcases List.mem_cons.mp (hperm.mem_iff.mp ho') with rfl | ho
    · exact .inl rfl
    · exact .inr ⟨o', ho, rfl, .refl _⟩

/-- An entry after a neighbour was made has one more neighbour at most. -/
theorem entry_createNeighbor {origNode origNeighNode ifIncoming : ℕ} {neigh : Mac} {o' : OrigNode p}
    (ho' : o' ∈ (s.createNeighbor origNode origNeighNode neigh ifIncoming).1.origs) :
    ∃ o ∈ s.origs, o'.ptr = o.ptr ∧ (o'.neighList = o.neighList ∨ o.ptr = origNode ∧
      o'.neighList = o.neighList ++ [NeighNode.new s.nextPtr neigh origNeighNode ifIncoming]) := by
  obtain ⟨o, ho, rfl⟩ := (mem_origs_modOrig (s := s)).mp ho'
  split_ifs with heq
  · exact ⟨o, ho, rfl, .inr ⟨heq, rfl⟩⟩
  · exact ⟨o, ho, rfl, .inl rfl⟩

theorem neigh_createNeighbor {origNode origNeighNode ifIncoming : ℕ} {neigh : Mac} {o' : OrigNode p}
    (ho' : o' ∈ (s.createNeighbor origNode origNeighNode neigh ifIncoming).1.origs) {n : NeighNode p}
    (hn : n ∈ o'.neighList) : (∃ o ∈ s.origs, o'.ptr = o.ptr ∧ n ∈ o.neighList) ∨
      o'.ptr = origNode ∧ n = NeighNode.new s.nextPtr neigh origNeighNode ifIncoming := by
  obtain ⟨o, ho, hptr, hlist | ⟨heq, hlist⟩⟩ := entry_createNeighbor ho'
  · exact .inl ⟨o, ho, hptr, hlist ▸ hn⟩
  · rw [hlist] at hn
    rcases List.mem_append.mp hn with hn | hn
    · exact .inl ⟨o, ho, hptr, hn⟩
    · exact .inr ⟨hptr.trans heq, List.mem_singleton.mp hn⟩

/-- **A neighbour is made**: its pointer is new, so nothing has been pushed to it. -/
theorem createNeighbor (h : s.Recorded writes) (origNode origNeighNode : ℕ) (neigh : Mac) (ifIncoming : ℕ) :
    (s.createNeighbor origNode origNeighNode neigh ifIncoming).1.Recorded writes := by
  have htable := (State.Calm.createNeighbor h.table origNode origNeighNode neigh ifIncoming).table
  refine ⟨htable, fun x hx => Nat.lt_succ_of_lt (h.known x hx), fun o' ho' n hn => ?_, fun o' ho' => ?_, ?_,
    fun o' ho' n hn => ?_⟩
  · rcases neigh_createNeighbor ho' hn with ⟨o, ho, -, hn⟩ | ⟨-, rfl⟩
    · exact Nat.lt_succ_of_lt (h.ptr_lt o ho n hn)
    · exact Nat.lt_succ_self _
  · obtain ⟨o, ho, -, hlist | ⟨-, hlist⟩⟩ := entry_createNeighbor ho'
    · rw [hlist]
      exact h.nodup o ho
    · rw [hlist, List.map_append]
      refine List.nodup_append.mpr ⟨h.nodup o ho, List.nodup_singleton _, ?_⟩
      intro a ha b hb
      obtain ⟨n, hn, rfl⟩ := List.mem_map.mp ha
      rw [List.mem_singleton.mp hb]
      exact (h.ptr_lt o ho n hn).ne
  · intro a ha b hb n hn m hm hptr
    rcases neigh_createNeighbor ha hn with ⟨a', ha', haptr, hn⟩ | ⟨haptr, rfl⟩
    · rcases neigh_createNeighbor hb hm with ⟨b', hb', hbptr, hm⟩ | ⟨-, rfl⟩
      · rw [haptr, hbptr]
        exact h.apart a' ha' b' hb' n hn m hm hptr
      · exact absurd hptr (h.ptr_lt a' ha' n hn).ne
    · rcases neigh_createNeighbor hb hm with ⟨b', hb', -, hm⟩ | ⟨hbptr, -⟩
      · exact absurd hptr (h.ptr_lt b' hb' m hm).ne'
      · exact haptr.trans hbptr.symm
  · rcases neigh_createNeighbor ho' hn with ⟨o, ho, -, hn⟩ | ⟨-, rfl⟩
    · exact h.remembers o ho n hn
    · have hnone : writtenTo s.nextPtr writes = [] := writtenTo_eq_nil fun x hx => (h.known x hx).ne
      show NeighNode.Remembers _ (writtenTo s.nextPtr writes)
      rw [hnone]
      exact .new _ _ _ _

/-! ## The functions `batman()` calls -/

theorem modNeigh_touch (h : s.Recorded writes) (ptr neigh : ℕ) (t : Time) :
    (s.modOrig ptr (·.modNeigh neigh (·.touch t))).Recorded writes := by
  refine h.modOrig_quiet (k := fun _ n => if n.ptr = neigh then n.touch t else n) ptr (fun _ => rfl)
    (fun _ => rfl) (fun _ => rfl) (fun _ n => ?_) fun _ n log hn => ?_
  · split_ifs <;> rfl
  · split_ifs
    · exact hn.touch t
    · exact hn

theorem countRealPackets (h : s.Recorded writes) (neigh : Mac) (pkt : BatmanPacket) (ifIncoming : ℕ) :
    (s.countRealPackets g neigh pkt ifIncoming).1.Recorded writes := by
  unfold State.countRealPackets
  exact (h.getOrigNode pkt.orig).modOrig_quiet _ (fun _ => rfl) (fun _ => rfl) (fun _ => rfl)
    (fun _ _ => rfl) fun _ _ _ hn => hn.countPacket _ _ _

theorem countOgm (h : s.Recorded writes) : (s.countOgm g rx).state.Recorded writes := by
  unfold State.countOgm
  dsimp only
  have hget := (h.countRealPackets (g := g) rx.neigh rx.pkt rx.ifIncoming).getOrigNode rx.pkt.orig
  split_ifs
  · exact hget
  · exact hget.getOrigNode rx.neigh

theorem counted (h : s.Recorded writes) (g : Garbage p) (rx : Ogm) : (s.counted g rx).state.Recorded writes := by
  have hclock : ({ s with currTime := rx.rcvdTime } : State p).Recorded writes := h.of_origHash rfl le_rfl
  exact hclock.countOgm

theorem selfNeighbor (h : s.Recorded writes) (origNeighNode ifIncoming : ℕ) :
    (s.selfNeighbor origNeighNode ifIncoming).1.Recorded writes := by
  unfold State.selfNeighbor
  dsimp only
  split
  · exact h
  · exact h.createNeighbor _ _ _ _

theorem rate {c : Counted p} (h : c.state.Recorded writes) (rx : Ogm) : (c.rate rx).state.Recorded writes := by
  have hself := h.selfNeighbor c.origNeighNode rx.ifIncoming
  have htouch : State.Recorded (if c.origNode = c.origNeighNode then
      (c.state.selfNeighbor c.origNeighNode rx.ifIncoming).1.modOrig c.origNode
        (·.modNeigh (c.state.selfNeighbor c.origNeighNode rx.ifIncoming).2.ptr (·.touch rx.rcvdTime))
      else (c.state.selfNeighbor c.origNeighNode rx.ifIncoming).1) writes := by
    split_ifs
    · exact hself.modNeigh_touch _ _ _
    · exact hself
  have hvalid := htouch.modOrig_entry c.origNode (f := fun o => { o with lastValid := rx.rcvdTime })
    (fun _ => rfl) (fun _ => rfl) fun _ => rfl
  exact hvalid.modOrig_entry c.origNeighNode (fun _ => rfl) (fun _ => rfl) fun _ => rfl

theorem markOwnBcast (h : s.Recorded writes) : (s.markOwnBcast rx).Recorded writes := by
  unfold State.markOwnBcast
  dsimp only
  have hget := h.getOrigNode rx.neigh
  split_ifs
  · exact hget.modOrig_entry _ (fun _ => rfl) (fun _ => rfl) fun _ => rfl
  · exact hget

theorem viaNeighbor (h : s.Recorded writes) (origNode : ℕ) (neigh : Mac) (ifIncoming : ℕ) :
    (s.viaNeighbor origNode neigh ifIncoming).1.Recorded writes := by
  unfold State.viaNeighbor
  split
  · exact h
  · exact (h.getOrigNode neigh).createNeighbor _ _ _ _

theorem endUpdate (h : s.Recorded writes) (origNode : ℕ) (best : Option (NeighNode p)) (rx : Ogm) :
    (s.endUpdate origNode best rx).Recorded writes := by
  unfold State.endUpdate
  have hroutes : (s.updateRoutes origNode best (some rx.hna)
      (tmpHnaBuffLen rx.hna.length rx.pkt.numHna)).Recorded writes := by
    unfold State.updateRoutes
    generalize BatmanAdv.updateRoutes s.hwAddrs s.currTime s.trans (s.origAt origNode) best (some rx.hna)
      (tmpHnaBuffLen rx.hna.length rx.pkt.numHna) = routed
    have hmod : (s.modOrig origNode (·.withRoutes routed.2)).Recorded writes :=
      h.modOrig_entry origNode (fun _ => rfl) (fun _ => rfl) fun _ => rfl
    exact hmod.of_origHash rfl le_rfl
  obtain ⟨hhash, hptr, -⟩ := (s.updateRoutes origNode best (some rx.hna)
    (tmpHnaBuffLen rx.hna.length rx.pkt.numHna)).setGwflags_frame origNode rx.pkt.gwflags rx.gwTime
  have hflags := hroutes.modOrig_entry origNode (f := fun o => { o with gwflags := rx.pkt.gwflags })
    (fun _ => rfl) (fun _ => rfl) fun _ => rfl
  exact hflags.of_origHash hhash hptr.ge

theorem mayQueue (h : s.Recorded writes) (hqueue : s.MayQueue s') : s'.Recorded writes := by
  obtain rfl | ⟨f, -, -, rfl⟩ := hqueue
  · exact h
  · exact h.of_origHash rfl (Nat.le_succ _)

/-! ## The ranking -/

variable {origNode ifIncoming : ℕ} {neigh : Mac} {dup : Bool} {o : OrigNode p}

/-- The pushes of 0 to the neighbours of a list with `c`. -/
theorem writtenTo_missed {l : List (NeighNode p)} (hnodup : (l.map (·.ptr)).Nodup) (c : NeighNode p → Bool)
    {n : NeighNode p} (hn : n ∈ l) :
    writtenTo n.ptr ((l.filter c).map fun m => (m.ptr, (⟨0, none⟩ : NeighWrite))) =
      if c n then [⟨0, none⟩] else [] := by
  have hother : ∀ a : List (NeighNode p), n.ptr ∉ a.map (·.ptr) →
      writtenTo n.ptr ((a.filter c).map fun m => (m.ptr, (⟨0, none⟩ : NeighWrite))) = [] := by
    intro a ha
    apply writtenTo_eq_nil
    intro x hx hxn
    obtain ⟨m, hm, rfl⟩ := List.mem_map.mp hx
    exact ha (hxn ▸ List.mem_map_of_mem (List.mem_filter.mp hm).1)
  obtain ⟨a, b, rfl⟩ := List.append_of_mem hn
  rw [List.map_append, List.map_cons, List.nodup_middle, List.nodup_cons, List.mem_append, not_or] at hnodup
  rw [List.filter_append, List.map_append, writtenTo_append, hother a hnodup.1.1, List.nil_append,
    List.filter_cons]
  split_ifs
  · rw [List.map_cons, writtenTo_cons_self, hother b hnodup.1.2]
  · exact hother b hnodup.1.2

/-- **The loop of `update_orig`** pushes 0 to the rings of the neighbours that missed the packet. -/
theorem pushZero (h : s.Recorded writes) (ho : o ∈ s.origs) (neigh : Mac) (ifIncoming : ℕ) (dup : Bool) :
    (s.modOrig o.ptr (·.pushZero neigh ifIncoming dup)).Recorded
      (writes ++ (o.neighList.filter fun n => !(n.isVia neigh ifIncoming || dup)).map fun n => (n.ptr, ⟨0, none⟩)) := by
  refine h.modOrig (k := fun _ n => if n.isVia neigh ifIncoming || dup then n else n.pushTq 0)
    (fun _ => rfl) (fun _ => rfl) (fun _ => rfl) (fun _ n => ?_) (fun x hx => ?_)
    fun y hy hptr n hn log hlog => ?_
  · split_ifs <;> rfl
  · obtain ⟨n, hn, rfl⟩ := List.mem_map.mp hx
    exact ⟨o, ho, rfl, n, (List.mem_filter.mp hn).1, rfl⟩
  · obtain rfl := h.table.eq_of_ptr hy ho hptr
    rw [writtenTo_missed (h.nodup y hy) _ hn]
    cases hvia : n.isVia neigh ifIncoming || dup with
    | true => simpa using hlog
    | false => simpa using hlog.pushTq 0

/-- **The ring of the neighbour the packet came via** gets its `tq`. -/
theorem receive (h : s.Recorded writes) (ho : o ∈ s.origs) {n : NeighNode p} (hn : n ∈ o.neighList)
    (pkt : BatmanPacket) (dup : Bool) (t : Time) :
    (s.modOrig o.ptr (·.receive n.ptr pkt dup t)).Recorded
      (writes ++ [(n.ptr, ⟨pkt.tq, if dup then none else some pkt.ttl⟩)]) := by
  refine h.modOrig (k := fun _ m => if m.ptr = n.ptr then m.receive pkt dup t else m)
    (fun _ => rfl) (fun _ => rfl) (fun _ => rfl) (fun _ m => ?_) (fun x hx => ?_)
    fun y hy hptr m hm log hlog => ?_
  · split_ifs
    · exact (m.sameLink_receive pkt dup t).ptr
    · rfl
  · rw [List.mem_singleton.mp hx]
    exact ⟨o, ho, rfl, n, hn, rfl⟩
  · by_cases heq : m.ptr = n.ptr
    · rw [if_pos heq, ← heq, writtenTo_cons_self]
      exact hlog.receive pkt dup t
    · rw [if_neg heq, writtenTo_eq_nil (by simpa using Ne.symm heq), List.append_nil]
      exact hlog

theorem mem_viaNeighbor (h : s.Recorded writes) (ho : o ∈ s.origs) (neigh : Mac) (ifIncoming : ℕ) :
    ∃ o' ∈ (s.viaNeighbor o.ptr neigh ifIncoming).1.origs, o'.ptr = o.ptr ∧
      (s.viaNeighbor o.ptr neigh ifIncoming).2 ∈ o'.neighList := by
  cases hvia : o.neighVia neigh ifIncoming with
  | some n =>
    rw [h.table.viaNeighbor_some ho hvia]
    exact ⟨o, ho, rfl, (OrigNode.neighVia_some hvia).1⟩
  | none =>
    obtain ⟨s2, next, e, heq, -, -, ho2, -⟩ := h.table.viaNeighbor_none ho hvia
    rw [heq]
    exact ⟨_, ho2, rfl, List.mem_append_right _ List.mem_cons_self⟩

/-- **`update_orig` writes the rings it says.** -/
theorem rankNeighbors (h : s.Recorded writes) (ho : o ∈ s.origs) (neigh : Mac) (pkt : BatmanPacket) (ifIncoming : ℕ)
    (dup : Bool) (t : Time) : (s.rankNeighbors g o.ptr neigh pkt ifIncoming dup t).1.Recorded
      (writes ++ s.neighWrites o.ptr neigh pkt ifIncoming dup) := by
  unfold State.rankNeighbors State.neighWrites
  dsimp only
  rw [h.table.origAt_of_mem ho, ← List.append_assoc]
  have hzero := h.pushZero ho neigh ifIncoming dup
  have ho1 := State.mem_modOrig_self ho (·.pushZero neigh ifIncoming dup)
  have hvia := hzero.viaNeighbor o.ptr neigh ifIncoming
  obtain ⟨o2, ho2, hptr, hn⟩ := hzero.mem_viaNeighbor ho1 neigh ifIncoming
  have hlast := hvia.receive ho2 hn pkt dup t
  rw [hptr] at hlast
  exact hlast

/-! ## Steps and runs -/

theorem batmanOgm_of_process (hs : s.Wf) (h : s.Recorded writes) (g : Garbage p)
    (hprocess : s.ogmCase rx = .process) :
    (s.batmanOgm g rx).1.Recorded (writes ++ s.ogmWrites g rx) := by
  have hcount := h.counted g rx
  have hrate := hcount.rate rx
  rw [State.batmanOgm_of_process hprocess]
  unfold State.ogmWrites
  by_cases hcall : s.UpdatesOrig g rx
  · rw [if_pos hcall]
    obtain ⟨-, hknown, hranks⟩ := hcall
    obtain ⟨-, hat, -⟩ := State.counted_writes (g := g) hs hprocess
    obtain ⟨o, ho, hptr, -⟩ := (State.Calm.rate hcount.table rx).keepsAt hat
    have hrank := hrate.rankNeighbors (g := g) ho rx.neigh ((s.counted g rx).rate rx).pkt rx.ifIncoming
      (s.counted g rx).isDuplicate rx.rcvdTime
    rw [hptr] at hrank
    refine State.Recorded.mayQueue ?_ (Counted.mayQueue_finish g hknown)
    rw [State.ranked_eq_endUpdate hranks]
    exact hrank.endUpdate _ _ rx
  · rw [if_neg hcall, List.append_nil]
    cases hknown : (s.counted g rx).unknownNeigh rx with
    | true =>
      rw [Counted.finish_of_unknown g hknown]
      exact hcount
    | false =>
      have hranked : (s.counted g rx).ranked g rx = ((s.counted g rx).rate rx).state :=
        if_neg fun hranks => hcall ⟨hprocess, hknown, hranks⟩
      refine State.Recorded.mayQueue ?_ (Counted.mayQueue_finish g hknown)
      rw [hranked]
      exact hrate

theorem batmanOgm_of_not_process (h : s.Recorded writes) (g : Garbage p) (hprocess : s.ogmCase rx ≠ .process) :
    (s.batmanOgm g rx).1.Recorded writes := by
  have hclock : ({ s with currTime := rx.rcvdTime } : State p).Recorded writes := h.of_origHash rfl le_rfl
  cases hc : s.ogmCase rx with
  | ignored =>
    rw [State.batmanOgm_of_ignored hc]
    exact hclock
  | ownOrig =>
    rw [State.batmanOgm_of_ownOrig hc]
    exact hclock.markOwnBcast
  | noTq =>
    rw [State.batmanOgm_of_noTq hc]
    exact hclock.countRealPackets _ _ _
  | process => exact absurd hc hprocess

/-- **A step** records the calls it makes. -/
theorem step (hs : s.Wf) (h : s.Recorded writes) {e : Event p} (hstep : BatmanAdv.step s e = some s') :
    s'.Recorded (writes ++ e.neighWrites s) := by
  have htable := (step_wf hs hstep).table
  have hnext := step_nextPtr hs hstep
  rcases step_cases hs hstep with ⟨g, rx, rfl, -, rfl, -⟩ | ⟨g, currTime, gwTime, rfl, rfl⟩ | ⟨hogm, -, hquiet⟩
  · show (s.batmanOgm g rx).1.Recorded (writes ++ s.ogmWrites g rx)
    by_cases hprocess : s.ogmCase rx = .process
    · exact h.batmanOgm_of_process hs g hprocess
    · have hnone : s.ogmWrites g rx = [] := if_neg fun hcall => hprocess hcall.1
      rw [hnone, List.append_nil]
      exact h.batmanOgm_of_not_process g hprocess
  · show (s.purgeOrig g currTime gwTime).Recorded (writes ++ [])
    rw [List.append_nil]
    refine h.of_sublist htable hnext fun x hx => ?_
    obtain ⟨o, ho, -, hpurged⟩ := (State.origs_purgeOrig g currTime gwTime hs).2.1 x hx
    refine .inr ⟨o, ho, hpurged.ptr, ?_⟩
    rw [hpurged.neighList]
    exact List.filter_sublist
  · have hnone : e.neighWrites s = [] := by
      cases e with
      | ogm g rx => exact absurd rfl (hogm g rx)
      | _ => rfl
    rw [hnone, List.append_nil]
    refine h.of_sublist htable hnext fun x hx => ?_
    obtain ⟨o, ho, hsame⟩ := hquiet.mem hx
    refine .inr ⟨o, ho, ?_, ?_⟩
    · rw [hsame]
    · rw [hsame]

end State.Recorded

/-- **A run** records the calls of its steps. -/
theorem Run.recorded {cfg : Config} {tr : List (State p × Event p)} (h : Run p cfg tr s) :
    s.Recorded (neighWrites tr) := by
  have hboot : (cfg.boot p).Recorded [] := by
    have hnil := (cfg.origs_boot p).1
    refine ⟨(cfg.boot_wf p).table, by simp, ?_, ?_, ?_, ?_⟩
    · exact cfg.forall_origs_boot
    · exact cfg.forall_origs_boot
    · exact cfg.forall_origs_boot
    · exact cfg.forall_origs_boot
  have hinv := Trace.invariant (I := fun tr (s : State p) => s.Wf ∧ s.Recorded (neighWrites tr)) h
    ⟨cfg.boot_wf p, hboot⟩ fun pre t e u ⟨ht, hI⟩ hstep => by
      refine ⟨step_wf ht hstep, ?_⟩
      unfold neighWrites
      rw [List.flatMap_append, List.flatMap_singleton]
      exact hI.step ht hstep
  exact hinv.2


end BatmanAdv
