import BatmanAdv.NeighWrites

/-!
# What the rings remember

`ring_buffer_set` is called by `update_orig` alone: with 0 for the neighbours that missed a packet, and
with its `tq` for the one it came via. The calls of a run, told apart by the neighbour they are made for,
are all that is in the rings.
-/

namespace BatmanAdv

open Transition

variable {p : Platform} {s s' : State p} {g : Garbage p} {rx : Ogm}

/-! ## The calls of `ring_buffer_set` -/

/-- The calls `update_orig` makes, with the neighbour and the value of each. -/
def State.ringBufferSets (s : State p) (origNode : ℕ) (neigh : Mac) (tq : Byte) (ifIncoming : ℕ)
    (isDuplicate : Bool) : List (ℕ × Byte) :=
  let missed := (s.origAt origNode).neighList.filter fun n => !(n.isVia neigh ifIncoming || isDuplicate)
  let s := s.modOrig origNode (·.pushZero neigh ifIncoming isDuplicate)
  -- behind the loop, the neighbour the packet came via may have to be created
  missed.map (fun n => (n.ptr, 0)) ++ [((s.viaNeighbor origNode neigh ifIncoming).2.ptr, tq)]

def State.ogmRingBufferSets (s : State p) (g : Garbage p) (rx : Ogm) : List (ℕ × Byte) :=
  if s.UpdatesOrig g rx then
    let c := s.counted g rx
    let r := c.rate rx
    r.state.ringBufferSets c.origNode rx.neigh r.pkt.tq rx.ifIncoming c.isDuplicate
  else []

def Event.ringBufferSets (s : State p) : Event p → List (ℕ × Byte)
  | .ogm g rx => s.ogmRingBufferSets g rx
  | _ => []

def ringBufferSets (tr : List (State p × Event p)) : List (ℕ × Byte) :=
  tr.flatMap fun x => x.2.ringBufferSets x.1

/-- The values that were pushed to the ring of one neighbour, the oldest first. -/
def pushedTo (ptr : ℕ) (sets : List (ℕ × Byte)) : List Byte :=
  sets.filterMap fun x => if x.1 = ptr then some x.2 else none

/-! ## The calls and the writes -/

theorem pushedTo_map (ptr : ℕ) (writes : List (ℕ × NeighWrite)) :
    pushedTo ptr (writes.map fun x => (x.1, x.2.tq)) = (writtenTo ptr writes).map (·.tq) := by
  unfold pushedTo writtenTo
  rw [List.filterMap_map, List.map_filterMap]
  refine List.filterMap_congr fun x _ => ?_
  dsimp only [Function.comp_apply]
  split_ifs <;> rfl

theorem State.ringBufferSets_eq (s : State p) (origNode : ℕ) (neigh : Mac) (pkt : BatmanPacket) (ifIncoming : ℕ)
    (isDuplicate : Bool) : s.ringBufferSets origNode neigh pkt.tq ifIncoming isDuplicate =
      (s.neighWrites origNode neigh pkt ifIncoming isDuplicate).map fun x => (x.1, x.2.tq) := by
  unfold State.ringBufferSets State.neighWrites
  dsimp only
  rw [List.map_append, List.map_map]
  rfl

theorem Event.ringBufferSets_eq (s : State p) (e : Event p) :
    e.ringBufferSets s = (e.neighWrites s).map fun x => (x.1, x.2.tq) := by
  cases e with
  | ogm g rx =>
    show s.ogmRingBufferSets g rx = (s.ogmWrites g rx).map _
    unfold State.ogmRingBufferSets State.ogmWrites
    split_ifs
    · exact State.ringBufferSets_eq _ _ _ _ _ _
    · rfl
  | _ => rfl

/-- The calls made for a neighbour are the values written to it. -/
theorem pushedTo_ringBufferSets (ptr : ℕ) (tr : List (State p × Event p)) :
    pushedTo ptr (ringBufferSets tr) = (writtenTo ptr (neighWrites tr)).map (·.tq) := by
  have hcalls : ringBufferSets tr = (neighWrites tr).map fun x => (x.1, x.2.tq) := by
    unfold ringBufferSets neighWrites
    rw [List.map_flatMap]
    exact List.flatMap_congr fun x _ => Event.ringBufferSets_eq x.1 x.2
  rw [hcalls, pushedTo_map]

/-! ## What is in a ring -/

/-- The last values that a run pushed to the ring of a neighbour, after zeros where there are fewer. -/
def lastPushed (ptr : ℕ) (tr : List (State p × Event p)) : List Byte :=
  Circular.recent tqGlobalWindowSize 0 (pushedTo ptr (ringBufferSets tr))

/-- The accumulators of `ring_buffer_avg` are exact after every round of its loop. -/
theorem foldl_avgStep_take (lqRecv : TqRecv) (i : ℕ) :
    ((lqRecv.toList.take i).foldl avgStep (0, 0)).1.toNat = (nonzeroValues (lqRecv.toList.take i)).length ∧
      ((lqRecv.toList.take i).foldl avgStep (0, 0)).2.toNat = (nonzeroValues (lqRecv.toList.take i)).sum := by
  have hlen : (lqRecv.toList.take i).length ≤ 10 := by
    rw [List.length_take]
    exact (Nat.min_le_right _ _).trans lqRecv.length_toList.le
  have hzero : (0 : BitVec 16).toNat = 0 := rfl
  obtain ⟨hcount, hsum⟩ := foldl_avgStep (lqRecv.toList.take i) 0 0 (by omega) (by omega)
  rw [hzero, Nat.zero_add] at hcount hsum
  exact ⟨hcount, hsum⟩

/-- **The ring of a neighbour** in a reachable state: read from `tq_index` on, which is in range, it is the
last `TQ_GLOBAL_WINDOW_SIZE` values that `update_orig` pushed to it since it was zeroed, and `tq_avg` is the
mean of those that are not 0, rounded down, or 0 where all are. So `tq_avg` is between the smallest and the
largest of them; no accumulator wraps on the way to it. -/
theorem ring_eq_lastPushed {cfg : Config} {tr : List (State p × Event p)} (h : Run p cfg tr s) {o : OrigNode p}
    (ho : o ∈ s.origs) {n : NeighNode p} (hn : n ∈ o.neighList) :
    n.tqIndex.toNat < tqGlobalWindowSize ∧
      n.tqRecv.toList.rotate n.tqIndex.toNat = lastPushed n.ptr tr ∧
      n.tqAvg.toNat = (nonzeroValues (lastPushed n.ptr tr)).sum / (nonzeroValues (lastPushed n.ptr tr)).length ∧
      (nonzeroValues (lastPushed n.ptr tr) = [] → n.tqAvg = 0) ∧
      (∀ lo hi, (nonzeroValues (lastPushed n.ptr tr)).min? = some lo →
        (nonzeroValues (lastPushed n.ptr tr)).max? = some hi → lo ≤ n.tqAvg.toNat ∧ n.tqAvg.toNat ≤ hi) ∧
      ∀ i, ((n.tqRecv.toList.take i).foldl avgStep (0, 0)).1.toNat =
          (nonzeroValues (n.tqRecv.toList.take i)).length ∧
        ((n.tqRecv.toList.take i).foldl avgStep (0, 0)).2.toNat =
          (nonzeroValues (n.tqRecv.toList.take i)).sum := by
  have hring := h.recorded.remembers o ho n hn
  have hlast : lastPushed n.ptr tr =
      Circular.recent tqGlobalWindowSize 0 ((writtenTo n.ptr (neighWrites tr)).map (·.tq)) := by
    unfold lastPushed
    rw [pushedTo_ringBufferSets]
  have havg : n.tqAvg.toNat = (nonzeroValues (lastPushed n.ptr tr)).sum /
      (nonzeroValues (lastPushed n.ptr tr)).length := by
    rw [hlast]
    exact hring.avg_toNat
  refine ⟨hring.holds.index_lt (by decide), hring.holds.rotate.trans hlast.symm, havg, fun hnil => ?_,
    fun lo hi hlo hhi => ?_,
    foldl_avgStep_take n.tqRecv⟩
  · rw [hnil] at havg
    exact BitVec.eq_of_toNat_eq havg
  · rw [List.min?_eq_some_iff] at hlo
    rw [List.max?_eq_some_iff] at hhi
    rw [havg]
    exact ⟨le_sum_div_length (List.ne_nil_of_mem hlo.1) hlo.2, sum_div_length_le hhi.2⟩

/-- `A` is heard over both interfaces: the ring of one link has two values, and that of the other the 0 of a
packet that it missed. -/
theorem ring_eq_lastPushed_linkUp :
    ∃ tr s, Run Net.p64 Net.cfg tr s ∧ ∃ o ∈ s.origs, ∃ n ∈ o.neighList, ∃ m ∈ o.neighList,
      pushedTo n.ptr (ringBufferSets tr) = [12, 11] ∧ pushedTo m.ptr (ringBufferSets tr) = [0] ∧
      n.tqIndex.toNat < tqGlobalWindowSize ∧ n.tqAvg.toNat = 11 ∧
      m.tqRecv.toList.rotate m.tqIndex.toNat = lastPushed m.ptr tr := by
  obtain ⟨tr, s, hrun, -, hend⟩ := Run.of_exec Net.cfg
    (Net.linkUp Net.p64 ++ [.ogm (Net.zeros _) (Net.echo Net.macA Net.me1 1 1 1400),
      .ogm (Net.zeros _) (Net.ogm Net.macA Net.macA 1 3 1500),
      .ogm (Net.zeros _) (Net.ogm Net.macA Net.macA 0 3 1600)])
    (fun tr (s : State Net.p64) => decide (∃ o ∈ s.origs, ∃ n ∈ o.neighList, ∃ m ∈ o.neighList,
      pushedTo n.ptr (ringBufferSets tr) = [12, 11] ∧ pushedTo m.ptr (ringBufferSets tr) = [0]))
    (by decide +kernel)
  obtain ⟨o, ho, n, hn, m, hm, hpushed, hmissed⟩ := of_decide_eq_true hend
  obtain ⟨hindex, -, havg, -⟩ := ring_eq_lastPushed hrun ho hn
  have hmean : n.tqAvg.toNat = 11 := by
    rw [havg]
    unfold lastPushed
    rw [hpushed]
    rfl
  exact ⟨tr, s, hrun, o, ho, n, hn, m, hm, hpushed, hmissed, hindex, hmean, (ring_eq_lastPushed hrun ho hm).2.1⟩

end BatmanAdv
