import BatmanAdv.Forwarding
import BatmanAdv.LinkQuality
import BatmanAdv.Ranking

/-!
# Own OGMs heard back

An OGM gives its quality to the neighbour it came via, and to no other. What `isBidirectionalNeigh` leaves of
that quality is nothing where no own OGM was heard back from this neighbour.
-/

namespace BatmanAdv

open Transition

variable {p : Platform} {s s' : State p} {g : Garbage p} {rx : Ogm} {e : Event p}

/-! ## What is stored about a neighbour -/

/-- The link qualities of a neighbour are bounded by its originator and its address. -/
def State.Rates (bound : Mac → Mac → ℕ) (s : State p) : Prop :=
  ∀ o ∈ s.origs, ∀ n ∈ o.neighList, n.Bounded (bound o.orig n.addr) 255

variable {bound : Mac → Mac → ℕ}

theorem NeighNode.Bounded.mapRates {n n' : NeighNode p} {orig : Mac} (h : n.Bounded (bound orig n.addr) 255)
    (haddr : n'.addr = n.addr) (hrecv : n'.tqRecv = n.tqRecv) (havg : n'.tqAvg = n.tqAvg)
    (httl : n'.lastTtl = n.lastTtl) : n'.Bounded (bound orig n'.addr) 255 := by
  refine ⟨?_, ?_, ?_⟩
  · rw [hrecv, haddr]
    exact h.recv
  · rw [havg, haddr]
    exact h.avg
  · rw [httl]
    exact h.ttl

namespace State.Rates

theorem modOrig (h : s.Rates bound) (ptr : ℕ) {f : OrigNode p → OrigNode p} (horig : ∀ o, (f o).orig = o.orig)
    (hf : ∀ o ∈ s.origs, o.ptr = ptr → (∀ n ∈ o.neighList, n.Bounded (bound o.orig n.addr) 255) →
      ∀ n ∈ (f o).neighList, n.Bounded (bound o.orig n.addr) 255) : (s.modOrig ptr f).Rates bound := by
  refine State.forall_modOrig h fun o ho hptr hn => ?_
  rw [horig]
  exact hf o ho hptr hn

theorem getOrigNode (h : s.Rates bound) (hs : s.Wf) (addr : Mac) : (s.getOrigNode addr).1.Rates bound := by
  intro o ho
  rcases hs.mem_getOrigNode ho with ho | ⟨rfl, -⟩
  · exact h o ho
  · exact fun n hn => absurd hn List.not_mem_nil

theorem createNeighbor (h : s.Rates bound) (neigh : Mac) (origNode origNeighNode ifIncoming : ℕ) :
    (s.createNeighbor origNode origNeighNode neigh ifIncoming).1.Rates bound := by
  have hmod : (s.modOrig origNode fun o => { o with neighList := o.neighList ++
      [NeighNode.new s.nextPtr neigh origNeighNode ifIncoming] }).Rates bound := by
    refine h.modOrig _ (fun _ => rfl) fun o _ _ hn n hn' => ?_
    rcases List.mem_append.mp hn' with hn' | hn'
    · exact hn n hn'
    · rw [List.mem_singleton.mp hn']
      exact NeighNode.bounded_new _ _ _ _ _ _
  exact hmod

/-! ### Counting and rating -/

theorem countRealPackets (h : s.Rates bound) (hs : s.Wf) (g : Garbage p) (rx : Ogm) :
    (s.countRealPackets g rx.neigh rx.pkt rx.ifIncoming).1.Rates bound := by
  unfold State.countRealPackets
  dsimp only
  refine (h.getOrigNode hs rx.pkt.orig).modOrig _ (fun _ => rfl) fun o _ _ hn n hn' => ?_
  obtain ⟨n', hn'', rfl⟩ := List.mem_map.mp hn'
  exact (hn n' hn'').mapRates rfl rfl rfl rfl

theorem counted (h : s.Rates bound) (hs : s.Wf) (hprocess : s.ogmCase rx = .process) :
    (s.counted g rx).state.Rates bound := by
  have hclock : ({ s with currTime := rx.rcvdTime } : State p).Wf := hs.congr rfl le_rfl rfl
  have hcounted : ({ s with currTime := rx.rcvdTime } : State p).Rates bound := h
  have hcount : Moves g rx { s with currTime := rx.rcvdTime }
      (({ s with currTime := rx.rcvdTime } : State p).countRealPackets g rx.neigh rx.pkt rx.ifIncoming).1 :=
    State.countRealPackets_moves hclock (State.ogmCase_orig (.inr hprocess))
  have hs1 := hcount.wf hclock
  have horig := (hcounted.countRealPackets hclock g rx).getOrigNode hs1 rx.pkt.orig
  unfold State.counted State.countOgm
  dsimp only
  split_ifs
  · exact horig
  · refine horig.getOrigNode ?_ rx.neigh
    refine hs1.getOrigNode ?_
    rw [hcount.hwAddrs]
    exact State.ogmCase_orig (.inr hprocess)

theorem rate {c : Counted p} (h : c.state.Rates bound) (rx : Ogm) : (c.rate rx).state.Rates bound := by
  have hself : (c.state.selfNeighbor c.origNeighNode rx.ifIncoming).1.Rates bound := by
    unfold State.selfNeighbor
    dsimp only
    split
    · exact h
    · exact h.createNeighbor _ _ _ _
  unfold Counted.rate State.isBidirectionalNeigh
  generalize c.state.selfNeighbor c.origNeighNode rx.ifIncoming = self at hself
  obtain ⟨s1, n⟩ := self
  dsimp only at hself ⊢
  have htouch : (if c.origNode = c.origNeighNode then
      s1.modOrig c.origNode (·.modNeigh n.ptr (·.touch rx.rcvdTime)) else s1).Rates bound := by
    split_ifs
    · refine hself.modOrig _ (fun _ => rfl) fun o _ _ hn m hm => ?_
      obtain ⟨m', hm', rfl⟩ := List.mem_map.mp hm
      dsimp only
      split_ifs
      · exact (hn m' hm').mapRates rfl rfl rfl rfl
      · exact hn m' hm'
    · exact hself
  have hvalid := htouch.modOrig c.origNode (f := fun o => { o with lastValid := rx.rcvdTime })
    (fun _ => rfl) fun o _ _ hn => hn
  generalize tqOwnOf _ n.realPacketCount = tqOwn
  generalize tqAsymPenaltyOf n.realPacketCount = tqAsymPenalty
  exact hvalid.modOrig c.origNeighNode (f := fun o => { o with tqOwn := tqOwn, tqAsymPenalty := tqAsymPenalty })
    (fun _ => rfl) fun o _ _ hn => hn

/-! ### Ranking -/

theorem viaNeighbor (h : s.Rates bound) (hs : s.Wf) {o : OrigNode p} (ho : o ∈ s.origs)
    (horig : o.orig = rx.pkt.orig) (hneigh : rx.neigh ∉ s.hwAddrs) :
    (s.viaNeighbor o.ptr rx.neigh rx.ifIncoming).1.Rates bound ∧
      (s.viaNeighbor o.ptr rx.neigh rx.ifIncoming).1.Wf ∧
      ∃ o' ∈ (s.viaNeighbor o.ptr rx.neigh rx.ifIncoming).1.origs, o'.ptr = o.ptr ∧ o'.orig = o.orig ∧
        (s.viaNeighbor o.ptr rx.neigh rx.ifIncoming).2 ∈ o'.neighList ∧
        (s.viaNeighbor o.ptr rx.neigh rx.ifIncoming).2.addr = rx.neigh := by
  obtain ⟨hwrites, -⟩ := State.viaNeighbor_moves hs ⟨o, ho, rfl, horig⟩ hneigh
  refine ⟨?_, hwrites.wf hs, ?_⟩
  · unfold State.viaNeighbor
    split
    · exact h
    · exact (h.getOrigNode hs rx.neigh).createNeighbor _ _ _ _
  · cases hvia : o.neighVia rx.neigh rx.ifIncoming with
    | some n =>
      obtain ⟨hn, haddr, -⟩ := OrigNode.neighVia_some hvia
      rw [hs.table.viaNeighbor_some ho hvia]
      exact ⟨o, ho, rfl, rfl, hn, haddr⟩
    | none =>
      obtain ⟨s2, next, e, heq, -, -, ho2, -⟩ := hs.table.viaNeighbor_none ho hvia
      rw [heq]
      exact ⟨_, ho2, rfl, rfl, List.mem_append_right _ List.mem_cons_self, rfl⟩

theorem rankNeighbors (h : s.Rates bound) (hs : s.Wf) {origNode : ℕ} (hat : s.At origNode rx.pkt.orig)
    (hneigh : rx.neigh ∉ s.hwAddrs) {pkt : BatmanPacket} (htq : pkt.tq.toNat ≤ bound rx.pkt.orig rx.neigh)
    (dup : Bool) :
    (s.rankNeighbors g origNode rx.neigh pkt rx.ifIncoming dup rx.rcvdTime).1.Rates bound := by
  have h1 : (s.modOrig origNode (·.pushZero rx.neigh rx.ifIncoming dup)).Rates bound := by
    refine h.modOrig _ (fun _ => rfl) fun o _ _ hn n hn' => ?_
    obtain ⟨n', hn'', rfl⟩ := List.mem_map.mp hn'
    split_ifs
    · exact hn n' hn''
    · exact (hn n' hn'').pushTq (Nat.zero_le _)
  have hzero : Write rx s (s.modOrig origNode (·.pushZero rx.neigh rx.ifIncoming dup)) :=
    .pushZero s origNode dup hat
  have hs1 := hzero.wf hs
  have hat1 := hzero.at hs hat
  have haddrs := Move.hwAddrs (g := g) (.write hzero)
  unfold State.rankNeighbors
  dsimp only
  generalize s.modOrig origNode (·.pushZero rx.neigh rx.ifIncoming dup) = s1 at *
  obtain ⟨o, ho, rfl, horig⟩ := hat1
  obtain ⟨hrates, hwf, o', ho', hptr, horig', hvia, haddr⟩ := h1.viaNeighbor hs1 ho horig (haddrs ▸ hneigh)
  generalize s1.viaNeighbor o.ptr rx.neigh rx.ifIncoming = via at *
  obtain ⟨s2, n⟩ := via
  dsimp only at *
  refine hrates.modOrig _ (fun _ => rfl) fun x hx hxptr hn m hm => ?_
  obtain rfl := hwf.eq_of_ptr hx ho' (hxptr.trans hptr.symm)
  obtain ⟨m', hm', rfl⟩ := List.mem_map.mp hm
  split_ifs with hmptr
  · obtain rfl := (hwf.node x hx).eq_of_ptr hm' hvia hmptr
    have hbounded := hn m' hm'
    rw [horig', horig, haddr] at hbounded
    rw [horig', horig, (m'.sameLink_receive pkt dup rx.rcvdTime).addr, haddr]
    exact hbounded.receive htq (Nat.le_of_lt_succ pkt.ttl.isLt) dup rx.rcvdTime
  · exact hn m' hm'

theorem updateOrig (h : s.Rates bound) (hs : s.Wf) {origNode : ℕ} (hat : s.At origNode rx.pkt.orig)
    (hneigh : rx.neigh ∉ s.hwAddrs) {pkt : BatmanPacket} (htq : pkt.tq.toNat ≤ bound rx.pkt.orig rx.neigh)
    (dup : Bool) :
    (s.updateOrig g origNode rx.neigh pkt rx.ifIncoming rx.hna dup rx.rcvdTime rx.gwTime).Rates bound := by
  have hrank := h.rankNeighbors (g := g) hs hat hneigh htq dup
  unfold State.updateOrig
  generalize s.rankNeighbors g origNode rx.neigh pkt rx.ifIncoming dup rx.rcvdTime = ranked at hrank
  obtain ⟨s1, rank⟩ := ranked
  dsimp only at hrank ⊢
  have hrouted : (s1.updateRoutes origNode rank.best (some rx.hna)
      (tmpHnaBuffLen rx.hna.length pkt.numHna)).Rates bound :=
    State.Rates.modOrig (s := s1) (f := (·.withRoutes (BatmanAdv.updateRoutes s1.hwAddrs s1.currTime s1.trans
      (s1.origAt origNode) rank.best (some rx.hna) (tmpHnaBuffLen rx.hna.length pkt.numHna)).2)) hrank origNode
      (fun _ => rfl) fun o _ _ hn => hn
  generalize s1.updateRoutes origNode rank.best (some rx.hna) (tmpHnaBuffLen rx.hna.length pkt.numHna) = s2
    at hrouted
  unfold State.setGwflags
  dsimp only
  split_ifs
  · exact State.Rates.modOrig (f := fun o => { o with gwflags := pkt.gwflags })
      (s := { s2 with gwList := updateGwList origNode pkt.gwflags rx.gwTime s2.gwList }) hrouted origNode
      (fun _ => rfl) fun o _ _ hn => hn
  · exact hrouted.modOrig origNode (f := fun o => { o with gwflags := pkt.gwflags }) (fun _ => rfl)
      fun o _ _ hn => hn

theorem ranked {c : Counted p} (h : c.state.Rates bound) (hs : c.state.Wf)
    (hat : c.state.At c.origNode rx.pkt.orig) (hat' : c.state.At c.origNeighNode rx.neigh)
    (hneigh : rx.neigh ∉ c.state.hwAddrs) (htq : (c.rate rx).pkt.tq.toNat ≤ bound rx.pkt.orig rx.neigh) :
    (c.ranked g rx).Rates bound := by
  obtain ⟨hwrites, -⟩ := Counted.rate_moves hs hat'
  have hrate := h.rate rx
  have hother : rx.neigh ∉ (c.rate rx).state.hwAddrs := by
    rw [Moves.hwAddrs (g := g) hwrites.moves]
    exact hneigh
  have hwf := hwrites.wf hs
  have hat1 := hwrites.at hs hat
  unfold Counted.ranked
  generalize c.rate rx = r at *
  dsimp only
  by_cases hranks : c.ranks rx = true
  · rw [if_pos hranks]
    exact hrate.updateOrig hwf hat1 hother htq c.isDuplicate
  · rw [if_neg hranks]
    exact hrate

/-! ### `batman()` -/

theorem finish {c : Counted p} (h : c.state.Rates bound) (hranked : (c.ranked g rx).Rates bound) :
    (c.finish g rx).Rates bound := by
  rcases c.finish_cases g rx with heq | heq | ⟨flag, heq⟩
  · rw [heq]
    exact h
  · rw [heq]
    exact hranked
  · rw [heq]
    unfold Counted.forward
    rw [State.scheduleForwardPacket_eq]
    split_ifs
    · exact hranked
    · exact hranked

theorem markOwnBcast (h : s.Rates bound) (hs : s.Wf) (rx : Ogm) : (s.markOwnBcast rx).Rates bound := by
  have hget := h.getOrigNode hs rx.neigh
  unfold State.markOwnBcast
  generalize s.getOrigNode rx.neigh = got at hget
  obtain ⟨s1, origNeighNode⟩ := got
  dsimp only at hget ⊢
  split_ifs
  · exact hget.modOrig _ (fun _ => rfl) fun o _ _ hn => hn
  · exact hget

theorem batmanOgm (h : s.Rates bound) (hs : s.Wf)
    (htq : s.ogmCase rx = .process → ((s.counted g rx).rate rx).pkt.tq.toNat ≤ bound rx.pkt.orig rx.neigh) :
    (s.batmanOgm g rx).1.Rates bound := by
  have hclock : ({ s with currTime := rx.rcvdTime } : State p).Wf := hs.congr rfl le_rfl rfl
  have hrates : ({ s with currTime := rx.rcvdTime } : State p).Rates bound := h
  cases hcase : s.ogmCase rx with
  | ignored =>
    rw [State.batmanOgm_of_ignored hcase]
    exact hrates
  | ownOrig =>
    rw [State.batmanOgm_of_ownOrig hcase]
    exact hrates.markOwnBcast hclock rx
  | noTq =>
    rw [State.batmanOgm_of_noTq hcase]
    exact hrates.countRealPackets hclock g rx
  | process =>
    rw [State.batmanOgm_of_process hcase]
    obtain ⟨hmoves, hat, hat', hneigh⟩ := State.counted_moves (g := g) hs hcase
    have hcounted := h.counted (g := g) hs hcase
    exact hcounted.finish (hcounted.ranked (hmoves.wf hs) hat hat' hneigh (htq hcase))

theorem purgeOrig (h : s.Rates bound) (hs : s.Wf) (currTime gwTime : Time) :
    (s.purgeOrig g currTime gwTime).Rates bound := by
  obtain ⟨-, hfrom, -⟩ := State.origs_purgeOrig g currTime gwTime hs
  intro x hx n hn
  obtain ⟨o, ho, -, hpurged⟩ := hfrom x hx
  rw [hpurged.neighList] at hn
  rw [hpurged.orig]
  exact h o ho n (List.mem_filter.mp hn).1

theorem of_quiet (h : s.Rates bound) (hquiet : s.Quiet s') : s'.Rates bound := by
  intro o' ho' n hn
  obtain ⟨o, ho, hsame⟩ := hquiet.mem ho'
  rw [hsame] at hn ⊢
  exact h o ho n hn

end State.Rates

/-- **The link qualities in a step**: those of an OGM go to the neighbour it came via, as
`isBidirectionalNeigh` has rated them. -/
theorem step_rates (hs : s.Wf) (h : s.Rates bound) (htq : ∀ g rx, e = .ogm g rx → s.ogmCase rx = .process →
    ((s.counted g rx).rate rx).pkt.tq.toNat ≤ bound rx.pkt.orig rx.neigh) (hstep : step s e = some s') :
    s'.Rates bound := by
  rcases step_cases hs hstep with ⟨g, rx, rfl, -, rfl, -⟩ | ⟨g, currTime, gwTime, -, rfl⟩ | ⟨-, -, hquiet⟩
  · exact h.batmanOgm hs (htq g rx rfl)
  · exact h.purgeOrig hs currTime gwTime
  · exact h.of_quiet hquiet

/-! ## Own OGMs heard back -/

/-- No own OGM was heard back from the originator of this entry, on any interface. -/
def OrigNode.Unheard (o : OrigNode p) : Prop := ∀ ifNum, ∀ i < 64, winBit (o.bcastOwn ifNum) i = false

theorem OrigNode.unheard_new (ptr : ℕ) (addr : Mac) : (OrigNode.new ptr addr : OrigNode p).Unheard :=
  fun _ i _ => winBit_bitInit i

theorem OrigNode.Unheard.of_sameOwn {o o' : OrigNode p} (h : o.Unheard) (hsame : o.SameOwn o') : o'.Unheard := by
  intro ifNum i hi
  rw [hsame.bcastOwn]
  exact h ifNum i hi

theorem OrigNode.Unheard.shift {o : OrigNode p} (h : o.Unheard) (ifOutgoing : ℕ) :
    (o.shiftBcastOwn ifOutgoing).Unheard := by
  intro ifNum i hi
  by_cases hif : ifNum = ifOutgoing
  · subst hif
    rw [winBit_shiftBcastOwn o hi, h ifNum (i - 1) (by omega), Bool.and_false]
  · have hsame : (o.shiftBcastOwn ifOutgoing).bcastOwn ifNum = o.bcastOwn ifNum := Function.update_of_ne hif _ _
    rw [hsame]
    exact h ifNum i hi

theorem OrigNode.Unheard.bcastOwnSum {o : OrigNode p} (h : o.Unheard) (hcounted : o.OwnCounted) (ifNum : ℕ) :
    o.bcastOwnSum ifNum = 0 := by
  have hcount := hcounted ifNum
  have hzero : setBits (o.bcastOwn ifNum) = 0 := by
    unfold setBits
    refine List.countP_eq_zero.mpr fun i hi => ?_
    rw [h ifNum i (List.mem_range.mp hi)]
    exact Bool.false_ne_true
  exact BitVec.eq_of_toNat_eq (hcount.trans hzero)

/-- Own OGMs were heard back from these addresses alone. -/
def State.HeardBack (two : Mac → Prop) (s : State p) : Prop := ∀ o ∈ s.origs, two o.orig ∨ o.Unheard

theorem State.HeardBack.origin {two : Mac → Prop} (h : s.HeardBack two) {o : OrigNode p} (ho : s.Origin o) :
    two o.orig ∨ o.Unheard := by
  rcases ho with ho | ⟨-, hnew⟩
  · exact h o ho
  · rw [hnew]
    exact .inr (OrigNode.unheard_new _ _)

/-- A direct rebroadcast of an own OGM is what it takes. -/
theorem step_heardBack {two : Mac → Prop} (hs : s.Wf) (h : s.HeardBack two)
    (hecho : ∀ g rx, e = .ogm g rx → s.ogmCase rx = .ownOrig → rx.hasDirectlinkFlag = true → two rx.neigh)
    (hstep : step s e = some s') : s'.HeardBack two := by
  intro o' ho'
  obtain ⟨o, ho, hstepped⟩ := step_own hs hstep ho'
  have hold := h.origin ho
  cases hstepped with
  | sent ifOutgoing _ _ hsame =>
    rw [hsame.orig]
    exact hold.imp_right fun hunheard => (hunheard.shift ifOutgoing).of_sameOwn hsame
  | same _ _ hsame =>
    rw [hsame.orig]
    exact hold.imp_right fun hunheard => hunheard.of_sameOwn hsame
  | echo g rx he hown hsame =>
    by_cases hmarks : s.Marks rx ∧ o.orig = rx.neigh
    · rw [if_pos hmarks] at hsame
      have horig : o'.orig = o.orig := hsame.orig
      rw [horig, hmarks.2]
      exact .inl (hecho g rx he hown hmarks.1.1)
    · rw [if_neg hmarks] at hsame
      rw [hsame.orig]
      exact hold.imp_right fun hunheard => hunheard.of_sameOwn hsame

theorem tqOwnOf_zero (realPacketCount : Byte) : tqOwnOf 0 realPacketCount = 0 := by
  unfold tqOwnOf
  dsimp only
  rw [if_pos]
  left
  split_ifs with hgt
  · exact absurd hgt (Nat.not_lt_zero _)
  · decide

theorem penalizedTq_zero (tq : Byte) (tqAsymPenalty : ℤ) : penalizedTq tq 0 tqAsymPenalty = 0 := by
  unfold penalizedTq
  simp

/-- **A link in one direction has no quality.** -/
theorem State.rated_of_unheard (hs : s.Wf) (hcounted : ∀ o ∈ s.origs, o.OwnCounted)
    (hprocess : s.ogmCase rx = .process) (hunheard : ∀ o ∈ s.origs, o.orig = rx.neigh → o.Unheard) :
    ((s.counted g rx).rate rx).pkt.tq = 0 := by
  obtain ⟨hmoves, -, hat', -⟩ := State.counted_moves (g := g) hs hprocess
  generalize s.counted g rx = c at *
  obtain ⟨hself, -⟩ := State.selfNeighbor_moves (hmoves.wf hs) hat'
  unfold Counted.rate State.isBidirectionalNeigh
  generalize c.state.selfNeighbor c.origNeighNode rx.ifIncoming = self at hself
  obtain ⟨s1, n⟩ := self
  dsimp only at hself ⊢
  have hvalid := Writes.touch hself c.origNode c.origNeighNode n.ptr
  have hall : Moves g rx s _ := hmoves.trans hvalid.moves
  obtain ⟨hmem, -, horig⟩ := (hall.wf hs).origAt_mem (hvalid.at (hmoves.wf hs) hat')
  obtain ⟨-, hkeeps⟩ := hall.keepsOwn hs (State.ogmCase_orig (.inr hprocess))
  obtain ⟨o, ho, hsame⟩ := hkeeps _ hmem
  have hsum : o.bcastOwnSum rx.ifIncoming = 0 := by
    rcases ho with ho | ⟨-, hnew⟩
    · exact (hunheard o ho (hsame.orig.symm.trans horig)).bcastOwnSum (hcounted o ho) _
    · rw [hnew]
      rfl
  rw [hsame.bcastOwnSum, hsum, tqOwnOf_zero, penalizedTq_zero]

end BatmanAdv
