import BatmanAdv.Moves
import Mathlib.Tactic.GCongr
import Mathlib.Tactic.Linarith
import Mathlib.Tactic.Positivity

/-!
# `batman()` is a sequence of writes

The functions `batman()` calls, one after the other, as sequences of `Move`s.
-/

namespace BatmanAdv

open Relation

variable {p : Platform} {g : Garbage p} {rx : Ogm} {s : State p}

/-! ## The header -/

theorem State.ogmCase_foreign (h : s.ogmCase rx ≠ .ignored) : rx.neigh ∉ s.hwAddrs := by
  unfold State.ogmCase at h
  intro hmem
  rw [← isMyMac_eq_true] at hmem
  simp [hmem] at h

theorem State.ogmCase_orig (h : s.ogmCase rx = .noTq ∨ s.ogmCase rx = .process) :
    rx.pkt.orig ∉ s.hwAddrs := by
  unfold State.ogmCase at h
  intro hmem
  rw [← isMyMac_eq_true] at hmem
  simp only [hmem, if_true] at h
  split_ifs at h <;> simp at h

theorem State.ogmCase_ownOrig (h : s.ogmCase rx = .ownOrig) : rx.pkt.orig ∈ s.hwAddrs := by
  unfold State.ogmCase at h
  by_contra hmem
  rw [← isMyMac_eq_true] at hmem
  simp only [hmem, Bool.false_eq_true, if_false] at h
  split_ifs at h

/-! ## Counting -/

theorem State.countRealPackets_moves (hs : s.Wf) (horig : rx.pkt.orig ∉ s.hwAddrs) :
    Moves g rx s (s.countRealPackets g rx.neigh rx.pkt rx.ifIncoming).1 := by
  have hcreate : Moves g rx s (s.getOrigNode rx.pkt.orig).1 := .single (.write (.create s _ horig))
  exact hcreate.tail (.count _ _ (hs.at_getOrigNode rx.pkt.orig))

/-- After the windows are updated, only entries may be created. -/
theorem State.countOgm_moves (hs : s.Wf) (horig : rx.pkt.orig ∉ s.hwAddrs)
    (hneigh : rx.neigh ∉ s.hwAddrs) :
    Writes rx (s.countRealPackets g rx.neigh rx.pkt rx.ifIncoming).1 (s.countOgm g rx).state ∧
      (s.countOgm g rx).state.At (s.countOgm g rx).origNode rx.pkt.orig ∧
      (s.countOgm g rx).state.At (s.countOgm g rx).origNeighNode rx.neigh := by
  have hcount : Moves g rx s (s.countRealPackets g rx.neigh rx.pkt rx.ifIncoming).1 :=
    State.countRealPackets_moves hs horig
  unfold State.countOgm
  generalize s.countRealPackets g rx.neigh rx.pkt rx.ifIncoming = counted at hcount
  obtain ⟨s1, dup⟩ := counted
  have hs1 := hcount.wf hs
  have hget : Write rx s1 (s1.getOrigNode rx.pkt.orig).1 := .create s1 _ (hcount.hwAddrs ▸ horig)
  have hat := hs1.at_getOrigNode rx.pkt.orig
  dsimp only
  generalize s1.getOrigNode rx.pkt.orig = got at hget hat
  obtain ⟨s2, origNode⟩ := got
  dsimp only at hget hat ⊢
  have hs2 := hget.wf hs1
  have haddrs : s2.hwAddrs = s.hwAddrs :=
    (Move.hwAddrs (g := g) (.write hget)).trans hcount.hwAddrs
  by_cases hsingle : rx.isSingleHopNeigh = true
  · simp only [hsingle, if_true]
    refine ⟨.single hget, hat, ?_⟩
    rwa [show rx.neigh = rx.pkt.orig by simpa [Ogm.isSingleHopNeigh] using hsingle]
  · simp only [hsingle, Bool.false_eq_true, if_false]
    have hget' : Write rx s2 (s2.getOrigNode rx.neigh).1 := .create s2 _ (haddrs ▸ hneigh)
    exact ⟨(ReflTransGen.single hget).tail hget', hget'.at hs2 hat, hs2.at_getOrigNode rx.neigh⟩

/-! ## Link quality -/

/-- With at most 64 packets counted, the asymmetry penalty is a share of `TQ_MAX_VALUE`. -/
theorem tqAsymPenaltyOf_bounds {realPacketCount : Byte}
    (h : realPacketCount.toNat ≤ tqLocalWindowSize) :
    0 ≤ tqAsymPenaltyOf realPacketCount ∧ tqAsymPenaltyOf realPacketCount ≤ 255 := by
  unfold tqAsymPenaltyOf tqMaxValue tqLocalWindowSize at *
  dsimp only
  generalize hm : ((64 : ℕ) : ℤ) - (realPacketCount.toNat : ℤ) = missing
  have h0 : 0 ≤ missing := by omega
  have h64 : missing ≤ 64 := by omega
  have hcube : 0 ≤ 255 * missing * missing * missing := by positivity
  have hcube' : 255 * missing * missing * missing ≤ 255 * 64 * 64 * 64 := by gcongr
  push_cast
  rw [Int.tdiv_eq_ediv_of_nonneg hcube]
  omega

theorem penalizedTq_le {tq tqOwn : Byte} {tqAsymPenalty : ℤ} (h0 : 0 ≤ tqAsymPenalty)
    (h255 : tqAsymPenalty ≤ 255) : (penalizedTq tq tqOwn tqAsymPenalty).toNat ≤ tq.toNat := by
  have htq := tq.isLt
  have hown := tqOwn.isLt
  unfold penalizedTq tqMaxValue
  have hprod : (tq.toNat : ℤ) * tqOwn.toNat * tqAsymPenalty ≤ tq.toNat * 255 * 255 := by
    gcongr
    exact_mod_cast Nat.le_of_lt_succ hown
  have hnonneg : 0 ≤ (tq.toNat : ℤ) * tqOwn.toNat * tqAsymPenalty := by positivity
  rw [Int.tdiv_eq_ediv_of_nonneg hnonneg, BitVec.toNat_ofInt]
  generalize (tq.toNat : ℤ) * tqOwn.toNat * tqAsymPenalty = prod at hprod hnonneg
  push_cast
  omega

theorem State.selfNeighbor_moves (hs : s.Wf) {origNeighNode : ℕ}
    (hat : s.At origNeighNode rx.neigh) :
    Writes rx s (s.selfNeighbor origNeighNode rx.ifIncoming).1 ∧
      (s.selfNeighbor origNeighNode rx.ifIncoming).2.realPacketCount.toNat ≤ tqLocalWindowSize := by
  obtain ⟨hmem, _, horig⟩ := hs.origAt_mem hat
  unfold State.selfNeighbor
  dsimp only
  rw [horig]
  cases hvia : (s.origAt origNeighNode).neighVia rx.neigh rx.ifIncoming with
  | some n => exact ⟨.refl, (hs.node _ hmem).count_le n (OrigNode.neighVia_some hvia).1⟩
  | none => exact ⟨.single (.neighbor s _ _ hat (.inr hat) hvia), Nat.zero_le _⟩

/-- The time is written to the entry, and to the neighbour where it came straight from the originator. -/
theorem Writes.touch {s1 : State p} (h : Writes rx s s1) (origNode origNeighNode neigh : ℕ) :
    Writes rx s
      ((if origNode = origNeighNode then
          s1.modOrig origNode (·.modNeigh neigh (·.touch rx.rcvdTime))
        else s1).modOrig origNode fun o => { o with lastValid := rx.rcvdTime }) := by
  have htouch : Writes rx s (if origNode = origNeighNode then
      s1.modOrig origNode (·.modNeigh neigh (·.touch rx.rcvdTime)) else s1) := by
    split_ifs
    · exact h.tail (.valid _ _ _)
    · exact h
  exact htouch.tail (.entry _ origNode fun o => (rx.rcvdTime, o.tqOwn, o.tqAsymPenalty, o.gwflags))

/-- **Rating a packet** only lowers its `tq`, and the link is good where anything is left. -/
theorem Counted.rate_moves {c : Counted p} (hs : c.state.Wf)
    (hneigh : c.state.At c.origNeighNode rx.neigh) :
    Writes rx c.state (c.rate rx).state ∧
      (c.rate rx).pkt = { rx.pkt with tq := (c.rate rx).pkt.tq } ∧
      (c.rate rx).pkt.tq.toNat ≤ rx.pkt.tq.toNat ∧
      ((c.rate rx).isBidirectional = true ↔ 1 ≤ (c.rate rx).pkt.tq.toNat) := by
  obtain ⟨hself, hcount⟩ := State.selfNeighbor_moves hs hneigh
  unfold Counted.rate State.isBidirectionalNeigh
  generalize c.state.selfNeighbor c.origNeighNode rx.ifIncoming = self at hself hcount
  obtain ⟨s1, n⟩ := self
  dsimp only at hself hcount ⊢
  refine ⟨?_, rfl, ?_, by simp [tqTotalBidrectLimit]⟩
  · have hvalid := Writes.touch hself c.origNode c.origNeighNode n.ptr
    exact hvalid.tail (.entry _ c.origNeighNode fun o => (o.lastValid, _, _, o.gwflags))
  · obtain ⟨h0, h255⟩ := tqAsymPenaltyOf_bounds hcount
    exact penalizedTq_le h0 h255

/-! ## Ranking -/

theorem Rank.best_consider {router : Option ℕ} {sum : ℕ → Byte} {r : Rank p} {n m : NeighNode p}
    (h : (r.consider router sum n).best = some m) : r.best = some m ∨ m = n := by
  unfold Rank.consider at h
  split_ifs at h
  · exact .inr (Option.some.inj h).symm
  · exact .inl h

theorem Rank.best_foldl {router : Option ℕ} {sum : ℕ → Byte} {l : List (NeighNode p)} {r : Rank p}
    {m : NeighNode p} (h : (l.foldl (Rank.consider router sum) r).best = some m) :
    r.best = some m ∨ m ∈ l := by
  induction l generalizing r with
  | nil => exact .inl h
  | cons n l ih =>
    rcases ih h with hbest | hmem
    · rcases Rank.best_consider hbest with hbest | rfl
      · exact .inl hbest
      · exact .inr List.mem_cons_self
    · exact .inr (List.mem_cons_of_mem _ hmem)

theorem State.rankOthers_best {origNode : ℕ} {m : NeighNode p}
    (h : (s.rankOthers g origNode rx.neigh rx.ifIncoming).best = some m) :
    m ∈ (s.origAt origNode).neighList := by
  unfold State.rankOthers at h
  rcases Rank.best_foldl h with hnone | hmem
  · exact absurd hnone (by simp)
  · exact (List.mem_filter.mp hmem).1

/-- The neighbour the packet came via is in the list, with its pointer and interface. -/
def State.Lists (s : State p) (origNode : ℕ) (n : NeighNode p) : Prop :=
  ∃ n' ∈ (s.origAt origNode).neighList, n'.ptr = n.ptr ∧ n'.ifIncoming = n.ifIncoming

theorem Writes.lists {s' : State p} (h : Writes rx s s') (hs : s.Wf) {ptr : ℕ} {addr : Mac}
    (hat : s.At ptr addr) {n : NeighNode p} (hn : s.Lists ptr n) : s'.Lists ptr n := by
  obtain ⟨n', hn', hptr, hif⟩ := hn
  obtain ⟨n'', hn'', h1, _, h3, _⟩ := (h.extends_origAt hs hat).neigh n' hn'
  exact ⟨n'', hn'', h1.trans hptr, h3.trans hif⟩

theorem State.viaNeighbor_moves (hs : s.Wf) {origNode : ℕ} (hat : s.At origNode rx.pkt.orig)
    (hneigh : rx.neigh ∉ s.hwAddrs) :
    Writes rx s (s.viaNeighbor origNode rx.neigh rx.ifIncoming).1 ∧
      (s.viaNeighbor origNode rx.neigh rx.ifIncoming).1.Lists origNode
        (s.viaNeighbor origNode rx.neigh rx.ifIncoming).2 := by
  unfold State.viaNeighbor
  cases hvia : (s.origAt origNode).neighVia rx.neigh rx.ifIncoming with
  | some n => exact ⟨.refl, n, (OrigNode.neighVia_some hvia).1, rfl, rfl⟩
  | none =>
    have hget : Write rx s (s.getOrigNode rx.neigh).1 := .create s _ hneigh
    have hs1 := hget.wf hs
    have hat1 := hget.at hs hat
    rw [← hs.origAt_getOrigNode hat hs1] at hvia
    have hnew : Write rx (s.getOrigNode rx.neigh).1 _ :=
      .neighbor _ _ _ (hs.at_getOrigNode rx.neigh) (.inl hat1) hvia
    refine ⟨(ReflTransGen.single hget).tail hnew, ?_⟩
    refine ⟨NeighNode.new (s.getOrigNode rx.neigh).1.nextPtr rx.neigh (s.getOrigNode rx.neigh).2
      rx.ifIncoming, ?_, rfl, rfl⟩
    have hs2 := hnew.wf hs1
    obtain ⟨hmem, hptr, _⟩ := hs1.origAt_mem hat1
    have hmem2 : ({ (s.getOrigNode rx.neigh).1.origAt origNode with
        neighList := ((s.getOrigNode rx.neigh).1.origAt origNode).neighList ++
          [NeighNode.new (s.getOrigNode rx.neigh).1.nextPtr rx.neigh (s.getOrigNode rx.neigh).2
            rx.ifIncoming] } : OrigNode p) ∈
        ((s.getOrigNode rx.neigh).1.createNeighbor origNode (s.getOrigNode rx.neigh).2 rx.neigh
          rx.ifIncoming).1.origs :=
      State.mem_origs_modOrig.mpr ⟨_, hmem, if_pos hptr⟩
    have heq := hs2.origAt_of_mem hmem2
    dsimp only at heq ⊢
    rw [hptr] at heq
    rw [heq]
    exact List.mem_append_right _ List.mem_cons_self

theorem State.rankNeighbors_moves (hs : s.Wf) {origNode : ℕ} (hat : s.At origNode rx.pkt.orig)
    (hneigh : rx.neigh ∉ s.hwAddrs) {pkt : BatmanPacket} (htq : pkt.tq.toNat ≤ rx.pkt.tq.toNat)
    (httl : pkt.ttl = rx.pkt.ttl) (dup : Bool) :
    Writes rx s (s.rankNeighbors g origNode rx.neigh pkt rx.ifIncoming dup rx.rcvdTime).1 ∧
      ∀ m, (s.rankNeighbors g origNode rx.neigh pkt rx.ifIncoming dup rx.rcvdTime).2.best = some m →
        (s.rankNeighbors g origNode rx.neigh pkt rx.ifIncoming dup rx.rcvdTime).1.Lists origNode m := by
  unfold State.rankNeighbors
  dsimp only
  have h1 : Writes rx s (s.modOrig origNode (·.pushZero rx.neigh rx.ifIncoming dup)) :=
    .single (.pushZero s origNode dup hat)
  generalize s.modOrig origNode (·.pushZero rx.neigh rx.ifIncoming dup) = s1 at h1
  have hs1 := h1.wf hs
  have hat1 := h1.at hs hat
  have hbest1 : ∀ m, (s1.rankOthers g origNode rx.neigh rx.ifIncoming).best = some m →
      s1.Lists origNode m := fun m hm => ⟨m, State.rankOthers_best hm, rfl, rfl⟩
  obtain ⟨h12, hlists⟩ := State.viaNeighbor_moves hs1 hat1 (h1.hwAddrs ▸ hneigh)
  have hbest2 := fun m hm => h12.lists hs1 hat1 (hbest1 m hm)
  generalize s1.rankOthers g origNode rx.neigh rx.ifIncoming = rank at hbest2
  generalize s1.viaNeighbor origNode rx.neigh rx.ifIncoming = via at h12 hlists hbest2
  obtain ⟨s2, n⟩ := via
  dsimp only at h12 hlists hbest2
  have hs2 := h12.wf hs1
  have hat2 := h12.at hs1 hat1
  have h23 : Write rx s2 (s2.modOrig origNode (·.receive n.ptr pkt dup rx.rcvdTime)) :=
    .receive s2 origNode hat2 n.ptr pkt htq httl dup
  refine ⟨(h1.trans h12).tail h23, fun m hm => ?_⟩
  rcases Rank.best_consider hm with hm | rfl
  · exact Writes.lists (.single h23) hs2 hat2 (hbest2 m hm)
  · obtain ⟨n', hn', hptr, hif⟩ := Writes.lists (.single h23) hs2 hat2 hlists
    exact ⟨n', hn', hptr.trans (n.sameLink_receive pkt dup _).ptr.symm,
      hif.trans (n.sameLink_receive pkt dup _).ifIncoming.symm⟩

theorem State.setGwflags_moves (origNode : ℕ) (gwflags : Byte) (gwTime : Time) :
    Writes rx s (s.setGwflags origNode gwflags gwTime) := by
  have hgw : Writes rx s (if (s.origAt origNode).gwflags ≠ gwflags then
      { s with gwList := updateGwList origNode gwflags gwTime s.gwList } else s) := by
    split_ifs
    · exact .single (.gateway s _)
    · exact .refl
  exact hgw.tail (.entry _ origNode fun o => (o.lastValid, o.tqOwn, o.tqAsymPenalty, gwflags))

theorem State.updateOrig_moves (hs : s.Wf) {origNode : ℕ} (hat : s.At origNode rx.pkt.orig)
    (hneigh : rx.neigh ∉ s.hwAddrs) {pkt : BatmanPacket} (htq : pkt.tq.toNat ≤ rx.pkt.tq.toNat)
    (httl : pkt.ttl = rx.pkt.ttl) (dup : Bool) :
    Writes rx s (s.updateOrig g origNode rx.neigh pkt rx.ifIncoming rx.hna dup rx.rcvdTime
      rx.gwTime) := by
  obtain ⟨hrank, hbest⟩ := State.rankNeighbors_moves (g := g) hs hat hneigh htq httl dup
  unfold State.updateOrig
  generalize s.rankNeighbors g origNode rx.neigh pkt rx.ifIncoming dup rx.rcvdTime = ranked
    at hrank hbest
  have hroute := hrank.tail (.route ranked.1 origNode (hrank.at hs hat) ranked.2.best hbest rx.hna
    (tmpHnaBuffLen rx.hna.length pkt.numHna))
  exact hroute.trans (State.setGwflags_moves _ _ _)

theorem Counted.ranked_moves {c : Counted p} (hs : c.state.Wf) (hat : c.state.At c.origNode rx.pkt.orig)
    (hat' : c.state.At c.origNeighNode rx.neigh) (hneigh : rx.neigh ∉ c.state.hwAddrs) :
    Writes rx c.state (c.ranked g rx) := by
  obtain ⟨hmoves, hpkt, htq, _⟩ := Counted.rate_moves hs hat'
  unfold Counted.ranked
  dsimp only
  split_ifs
  · refine hmoves.trans (State.updateOrig_moves (hmoves.wf hs) (hmoves.at hs hat)
      (hmoves.hwAddrs ▸ hneigh) htq ?_ _)
    rw [hpkt]
  · exact hmoves

/-! ## The whole of `batman()` -/

/-- At most one forwarded packet is queued. -/
def State.MayQueue (t t' : State p) : Prop :=
  t' = t ∨ ∃ f : ForwNode, f.ptr = t.nextPtr ∧ f.own = false ∧
    t' = { t with forwList := f :: t.forwList, nextPtr := t.nextPtr + 1 }

theorem State.MayQueue.moves {t t' : State p} (h : t.MayQueue t') : Moves g rx t t' := by
  rcases h with rfl | ⟨f, hptr, hown, rfl⟩
  · exact .refl
  · exact .single (.forward t f hptr hown)

theorem State.scheduleForwardPacket_mayQueue (g : Garbage p) (origNode : ℕ) (neigh : Mac)
    (pkt : BatmanPacket) (hna : List Byte) (directlinkFlag : Bool) (now : Time) (ifOutgoing : ℕ) :
    s.MayQueue
      (s.scheduleForwardPacket g origNode neigh pkt hna directlinkFlag now ifOutgoing) := by
  unfold State.scheduleForwardPacket
  by_cases httl : pkt.ttl.toNat ≤ 1
  · exact .inl (if_pos httl)
  · exact .inr ⟨_, rfl, rfl, if_neg httl⟩

/-- How `batman()` ends. -/
theorem Counted.finish_cases (c : Counted p) (g : Garbage p) (rx : Ogm) :
    c.finish g rx = c.state ∨ c.finish g rx = c.ranked g rx ∨
      ∃ flag, c.finish g rx = c.forward g rx flag := by
  unfold Counted.finish
  by_cases hunknown : c.unknownNeigh rx = true
  · exact .inl (if_pos hunknown)
  · rw [if_neg hunknown]
    cases c.handed rx with
    | dropped => exact .inr (.inl rfl)
    | singleHop => exact .inr (.inr ⟨true, rfl⟩)
    | multihop => exact .inr (.inr ⟨false, rfl⟩)

theorem Counted.finish_of_unknown {c : Counted p} (g : Garbage p) (hunknown : c.unknownNeigh rx = true) :
    c.finish g rx = c.state := if_pos hunknown

/-- Where the neighbour is known, the packet goes through the ranking and may be queued. -/
theorem Counted.mayQueue_finish {c : Counted p} (g : Garbage p) (hknown : c.unknownNeigh rx = false) :
    (c.ranked g rx).MayQueue (c.finish g rx) := by
  unfold Counted.finish
  rw [if_neg (by simp [hknown])]
  cases c.handed rx with
  | dropped => exact .inl rfl
  | singleHop => exact State.scheduleForwardPacket_mayQueue _ _ _ _ _ _ _ _
  | multihop => exact State.scheduleForwardPacket_mayQueue _ _ _ _ _ _ _ _

theorem Counted.finish_moves {c : Counted p} (hs : c.state.Wf) (hat : c.state.At c.origNode rx.pkt.orig)
    (hat' : c.state.At c.origNeighNode rx.neigh) (hneigh : rx.neigh ∉ c.state.hwAddrs) :
    ∃ t, Writes rx c.state t ∧ t.MayQueue (c.finish g rx) := by
  have hranked := Counted.ranked_moves (g := g) hs hat hat' hneigh
  cases hknown : c.unknownNeigh rx with
  | true => exact ⟨c.state, .refl, .inl (Counted.finish_of_unknown g hknown)⟩
  | false => exact ⟨c.ranked g rx, hranked, Counted.mayQueue_finish g hknown⟩

theorem State.markOwnBcast_moves (hneigh : rx.neigh ∉ s.hwAddrs) (horig : rx.pkt.orig ∈ s.hwAddrs) :
    Writes rx s (s.markOwnBcast rx) := by
  have hget : Write rx s (s.getOrigNode rx.neigh).1 := .create s _ hneigh
  have haddrs : (s.getOrigNode rx.neigh).1.hwAddrs = s.hwAddrs :=
    Writes.hwAddrs (ReflTransGen.single hget)
  unfold State.markOwnBcast
  generalize s.getOrigNode rx.neigh = got at hget haddrs
  obtain ⟨s1, origNeighNode⟩ := got
  dsimp only at hget haddrs ⊢
  split_ifs
  · exact (ReflTransGen.single hget).tail (.own s1 origNeighNode
      (fun o => Function.update o.bcastOwn rx.ifIncoming (bitMark (o.bcastOwn rx.ifIncoming) 0))
      (fun o => Function.update o.bcastOwnSum rx.ifIncoming
        (BitVec.ofNat 8 (bitPacketCount (bitMark (o.bcastOwn rx.ifIncoming) 0))))
      (haddrs ▸ horig))
  · exact .single hget

def State.Counts (s : State p) (rx : Ogm) : Prop := s.ogmCase rx = .noTq ∨ s.ogmCase rx = .process

instance (s : State p) (rx : Ogm) : Decidable (s.Counts rx) := inferInstanceAs (Decidable (_ ∨ _))

def State.countState (s : State p) (g : Garbage p) (rx : Ogm) : State p :=
  (({ s with currTime := rx.rcvdTime } : State p).countRealPackets g rx.neigh rx.pkt
    rx.ifIncoming).1

theorem State.forwList_countState (s : State p) (g : Garbage p) (rx : Ogm) :
    (s.countState g rx).forwList = s.forwList := by
  show (({ s with currTime := rx.rcvdTime } : State p).getOrigNode rx.pkt.orig).1.forwList = _
  rw [State.getOrigNode_frame]

def State.counted (s : State p) (g : Garbage p) (rx : Ogm) : Counted p :=
  ({ s with currTime := rx.rcvdTime } : State p).countOgm g rx

theorem State.countState_moves (hs : s.Wf) (h : s.Counts rx) : Moves g rx s (s.countState g rx) := by
  have hclock : Move g rx s { s with currTime := rx.rcvdTime } := .write (.clock s)
  exact (ReflTransGen.single hclock).trans
    (State.countRealPackets_moves (hclock.wf hs) (State.ogmCase_orig h))

theorem State.counted_writes (hs : s.Wf) (h : s.ogmCase rx = .process) :
    Writes rx (s.countState g rx) (s.counted g rx).state ∧
      (s.counted g rx).state.At (s.counted g rx).origNode rx.pkt.orig ∧
      (s.counted g rx).state.At (s.counted g rx).origNeighNode rx.neigh := by
  have hclock : Move g rx s { s with currTime := rx.rcvdTime } := .write (.clock s)
  have h' : ({ s with currTime := rx.rcvdTime } : State p).ogmCase rx = .process := h
  exact State.countOgm_moves (g := g) (hclock.wf hs) (State.ogmCase_orig (.inr h'))
    (State.ogmCase_foreign (by rw [h']; simp))

theorem State.counted_moves (hs : s.Wf) (h : s.ogmCase rx = .process) :
    Moves g rx s (s.counted g rx).state ∧
      (s.counted g rx).state.At (s.counted g rx).origNode rx.pkt.orig ∧
      (s.counted g rx).state.At (s.counted g rx).origNeighNode rx.neigh ∧
      rx.neigh ∉ (s.counted g rx).state.hwAddrs := by
  obtain ⟨hwrites, hat, hat'⟩ := State.counted_writes (g := g) hs h
  have hall : Moves g rx s (s.counted g rx).state :=
    (State.countState_moves hs (.inr h)).trans hwrites.moves
  have hneigh : rx.neigh ∉ s.hwAddrs := State.ogmCase_foreign (by rw [h]; simp)
  exact ⟨hall, hat, hat', by rw [Moves.hwAddrs hall]; exact hneigh⟩

/-! ### The branches -/

theorem State.batmanOgm_of_ignored (h : s.ogmCase rx = .ignored) :
    s.batmanOgm g rx = ({ s with currTime := rx.rcvdTime }, .dropped) := by
  have h' : ({ s with currTime := rx.rcvdTime } : State p).ogmCase rx = .ignored := h
  unfold State.batmanOgm
  dsimp only
  rw [h']

theorem State.batmanOgm_of_ownOrig (h : s.ogmCase rx = .ownOrig) :
    s.batmanOgm g rx = (({ s with currTime := rx.rcvdTime } : State p).markOwnBcast rx, .dropped) := by
  have h' : ({ s with currTime := rx.rcvdTime } : State p).ogmCase rx = .ownOrig := h
  unfold State.batmanOgm
  dsimp only
  rw [h']

theorem State.batmanOgm_of_noTq (h : s.ogmCase rx = .noTq) :
    s.batmanOgm g rx = (s.countState g rx, .dropped) := by
  have h' : ({ s with currTime := rx.rcvdTime } : State p).ogmCase rx = .noTq := h
  unfold State.batmanOgm
  dsimp only
  rw [h']
  rfl

theorem State.batmanOgm_of_process (h : s.ogmCase rx = .process) :
    s.batmanOgm g rx = ((s.counted g rx).finish g rx, (s.counted g rx).handed rx) := by
  have h' : ({ s with currTime := rx.rcvdTime } : State p).ogmCase rx = .process := h
  unfold State.batmanOgm
  dsimp only
  rw [h']
  rfl

/-- Only an OGM that is processed is handed on. -/
theorem State.batmanOgm_dropped (g : Garbage p) (h : s.ogmCase rx ≠ .process) :
    (s.batmanOgm g rx).2 = .dropped := by
  cases hc : s.ogmCase rx with
  | ignored => rw [State.batmanOgm_of_ignored hc]
  | ownOrig => rw [State.batmanOgm_of_ownOrig hc]
  | noTq => rw [State.batmanOgm_of_noTq hc]
  | process => exact absurd hc h

/-! ### All of it -/

/-- **`batman()` on one OGM.** It only writes entries, or it counts the packet and stops, or it counts
the packet, writes entries and perhaps queues a packet. -/
theorem State.batmanOgm_cases (hs : s.Wf) (g : Garbage p) (rx : Ogm) :
    ¬ s.Counts rx ∧ Writes rx s (s.batmanOgm g rx).1 ∨
      s.ogmCase rx = .noTq ∧ (s.batmanOgm g rx).1 = s.countState g rx ∨
      s.ogmCase rx = .process ∧
        ∃ t, Writes rx (s.countState g rx) t ∧ t.MayQueue (s.batmanOgm g rx).1 := by
  have hclock : Write rx s { s with currTime := rx.rcvdTime } := .clock s
  unfold State.Counts
  cases hc : s.ogmCase rx with
  | ignored =>
    refine .inl ⟨by simp, ?_⟩
    rw [State.batmanOgm_of_ignored hc]
    exact .single hclock
  | ownOrig =>
    refine .inl ⟨by simp, ?_⟩
    have hneigh : rx.neigh ∉ s.hwAddrs := State.ogmCase_foreign (by rw [hc]; simp)
    rw [State.batmanOgm_of_ownOrig hc]
    exact (ReflTransGen.single hclock).trans (State.markOwnBcast_moves hneigh (State.ogmCase_ownOrig hc))
  | noTq =>
    refine .inr (.inl ⟨rfl, ?_⟩)
    rw [State.batmanOgm_of_noTq hc]
  | process =>
    obtain ⟨_, hat, hat', hneigh⟩ := State.counted_moves (g := g) hs hc
    obtain ⟨hwrites, _, _⟩ := State.counted_writes (g := g) hs hc
    have hwf := hwrites.wf ((State.countState_moves hs (.inr hc)).wf hs)
    obtain ⟨t, hfinish, hqueue⟩ := Counted.finish_moves (g := g) hwf hat hat' hneigh
    refine .inr (.inr ⟨rfl, t, hwrites.trans hfinish, ?_⟩)
    rw [State.batmanOgm_of_process hc]
    exact hqueue

/-- **`batman()` on one OGM** is a sequence of writes. -/
theorem State.batmanOgm_moves (hs : s.Wf) : Moves g rx s (s.batmanOgm g rx).1 := by
  rcases State.batmanOgm_cases hs g rx with ⟨_, hwrites⟩ | ⟨hnoTq, heq⟩ |
    ⟨hprocess, t, hwrites, hqueue⟩
  · exact hwrites.moves
  · rw [heq]
    exact State.countState_moves hs (.inl hnoTq)
  · exact (State.countState_moves hs (.inr hprocess)).trans (hwrites.moves.trans hqueue.moves)

end BatmanAdv
