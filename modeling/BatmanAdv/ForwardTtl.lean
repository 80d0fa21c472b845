import BatmanAdv.Forwarding
import BatmanAdv.NeighWrites

/-!
# The ttl of forwarded OGMs

Where `schedule_forward_packet` takes the `ttl` from the router, it is the one that `update_orig` last wrote to
`last_ttl`. Nothing is written for a duplicate, over which a neighbour may be made and become the router, so that
`last_ttl` can be 0 there, and an OGM that was processed with a ttl of 1 or 0 is written like any other.
-/

namespace BatmanAdv

open Transition

variable {p : Platform} {g : Garbage p} {rx : Ogm} {s s' s'' : State p} {neigh : Mac} {ifIncoming : ℕ}
  {o o' o'' : OrigNode p}

/-! ## Up to `update_orig` -/

/-- The same neighbour, with the same ring and `last_ttl`. -/
structure NeighNode.SameRing (n n' : NeighNode p) : Prop where
  ptr : n'.ptr = n.ptr
  addr : n'.addr = n.addr
  ifIncoming : n'.ifIncoming = n.ifIncoming
  tqRecv : n'.tqRecv = n.tqRecv
  tqIndex : n'.tqIndex = n.tqIndex
  tqAvg : n'.tqAvg = n.tqAvg
  lastTtl : n'.lastTtl = n.lastTtl

namespace NeighNode.SameRing

variable {n n' n'' : NeighNode p}

theorem refl (n : NeighNode p) : n.SameRing n := ⟨rfl, rfl, rfl, rfl, rfl, rfl, rfl⟩

theorem trans (h : n.SameRing n') (h' : n'.SameRing n'') : n.SameRing n'' :=
  ⟨h'.ptr.trans h.ptr, h'.addr.trans h.addr, h'.ifIncoming.trans h.ifIncoming, h'.tqRecv.trans h.tqRecv,
    h'.tqIndex.trans h.tqIndex, h'.tqAvg.trans h.tqAvg, h'.lastTtl.trans h.lastTtl⟩

theorem isVia (h : n.SameRing n') : n'.isVia neigh ifIncoming = n.isVia neigh ifIncoming := by
  unfold NeighNode.isVia
  rw [h.addr, h.ifIncoming]

theorem pushTq_tqAvg (h : n.SameRing n') (value : Byte) : (n'.pushTq value).tqAvg = (n.pushTq value).tqAvg := by
  unfold NeighNode.pushTq
  dsimp only
  rw [h.tqRecv, h.tqIndex]

theorem missed_tqAvg (h : n.SameRing n') (dup : Bool) : (n'.missed dup).tqAvg = (n.missed dup).tqAvg := by
  unfold NeighNode.missed
  cases dup
  · exact h.pushTq_tqAvg 0
  · exact h.tqAvg

end NeighNode.SameRing

/-- A neighbour that has just been made for the OGM. -/
structure NeighNode.Made (neigh : Mac) (ifIncoming : ℕ) (n : NeighNode p) : Prop where
  via : n.isVia neigh ifIncoming = true
  tqRecv : n.tqRecv = Vector.replicate tqGlobalWindowSize 0
  tqIndex : n.tqIndex = 0

/-- The entry before `update_orig`: a neighbour may have been made for the OGM. -/
structure OrigNode.Heard (neigh : Mac) (ifIncoming : ℕ) (o o' : OrigNode p) : Prop where
  orig : o'.orig = o.orig
  router : o'.router = o.router
  old : ∀ n ∈ o.neighList, ∃ n' ∈ o'.neighList, n.SameRing n'
  old_or_made : ∀ n' ∈ o'.neighList, (∃ n ∈ o.neighList, n.SameRing n') ∨
    n'.Made neigh ifIncoming ∧ ∀ n ∈ o.neighList, n.isVia neigh ifIncoming = false

namespace OrigNode.Heard

theorem refl (o : OrigNode p) : o.Heard neigh ifIncoming o :=
  ⟨rfl, rfl, fun n hn => ⟨n, hn, .refl n⟩, fun n hn => .inl ⟨n, hn, .refl n⟩⟩

theorem trans (h : o.Heard neigh ifIncoming o') (h' : o'.Heard neigh ifIncoming o'') :
    o.Heard neigh ifIncoming o'' where
  orig := h'.orig.trans h.orig
  router := h'.router.trans h.router
  old n hn := by
    obtain ⟨n', hn', hsame⟩ := h.old n hn
    obtain ⟨n'', hn'', hsame'⟩ := h'.old n' hn'
    exact ⟨n'', hn'', hsame.trans hsame'⟩
  old_or_made n'' hn'' := by
    obtain ⟨n', hn', hsame'⟩ | ⟨hmade, hnone⟩ := h'.old_or_made n'' hn''
    · obtain ⟨n, hn, hsame⟩ | ⟨hmade, hnone⟩ := h.old_or_made n' hn'
      · exact .inl ⟨n, hn, hsame.trans hsame'⟩
      · exact .inr ⟨⟨hsame'.isVia.trans hmade.via, hsame'.tqRecv.trans hmade.tqRecv,
          hsame'.tqIndex.trans hmade.tqIndex⟩, hnone⟩
    · refine .inr ⟨hmade, fun n hn => ?_⟩
      obtain ⟨n', hn', hsame⟩ := h.old n hn
      exact hsame.isVia.symm.trans (hnone n' hn')

theorem map {k : NeighNode p → NeighNode p} (hk : ∀ n : NeighNode p, n.SameRing (k n)) (horig : o'.orig = o.orig)
    (hrouter : o'.router = o.router) (hlist : o'.neighList = o.neighList.map k) :
    o.Heard neigh ifIncoming o' where
  orig := horig
  router := hrouter
  old n hn := ⟨k n, hlist ▸ List.mem_map_of_mem hn, hk n⟩
  old_or_made n' hn' := by
    rw [hlist] at hn'
    obtain ⟨n, hn, rfl⟩ := List.mem_map.mp hn'
    exact .inl ⟨n, hn, hk n⟩

theorem entry (horig : o'.orig = o.orig) (hrouter : o'.router = o.router) (hlist : o'.neighList = o.neighList) :
    o.Heard neigh ifIncoming o' :=
  map .refl horig hrouter (by rw [hlist, List.map_id'])

/-- The quality of the link that the OGM came over is that of the same ring, or of a new one. -/
theorem senderAvg (h : o.Heard neigh ifIncoming o') (he : s.Entry o) (tq : Byte) :
    o'.senderAvg neigh ifIncoming tq = o.senderAvg neigh ifIncoming tq := by
  unfold OrigNode.senderAvg
  cases hvia' : o'.neighVia neigh ifIncoming with
  | some n' =>
    have hn' := OrigNode.neighVia_some hvia'
    obtain ⟨n, hn, hsame⟩ | ⟨hmade, hnone⟩ := h.old_or_made n' hn'.1
    · have hnvia : n.isVia neigh ifIncoming = true := hsame.isVia.symm.trans (NeighNode.isVia_iff.mpr hn'.2)
      cases hvia : o.neighVia neigh ifIncoming with
      | none => exact absurd (NeighNode.isVia_iff.mp hnvia) (OrigNode.neighVia_none hvia n hn)
      | some m =>
        have hm := OrigNode.neighVia_some hvia
        obtain rfl := he.eq_of_isVia hm.1 hn (NeighNode.isVia_iff.mpr hm.2) hnvia
        exact hsame.pushTq_tqAvg tq
    · cases hvia : o.neighVia neigh ifIncoming with
      | some m =>
        have hm := OrigNode.neighVia_some hvia
        exact absurd ((hnone m hm.1).symm.trans (NeighNode.isVia_iff.mpr hm.2)) Bool.false_ne_true
      | none =>
        dsimp only
        unfold NeighNode.pushTq
        dsimp only
        rw [hmade.tqRecv, hmade.tqIndex]
        rfl
  | none =>
    cases hvia : o.neighVia neigh ifIncoming with
    | none => rfl
    | some m =>
      have hm := OrigNode.neighVia_some hvia
      obtain ⟨m', hm', hsame⟩ := h.old m hm.1
      exact absurd (NeighNode.isVia_iff.mp (hsame.isVia.trans (NeighNode.isVia_iff.mpr hm.2)))
        (OrigNode.neighVia_none hvia' m' hm')

end OrigNode.Heard

/-- An entry made for the OGM has no other neighbour than the one it came via. -/
structure OrigNode.New (neigh : Mac) (ifIncoming : ℕ) (o : OrigNode p) : Prop where
  router : o.router = none
  via : ∀ n ∈ o.neighList, n.isVia neigh ifIncoming = true

/-- Every entry is one from before, or new. -/
def State.Heard (neigh : Mac) (ifIncoming : ℕ) (s s' : State p) : Prop :=
  ∀ o' ∈ s'.origs, (∃ o ∈ s.origs, o.Heard neigh ifIncoming o') ∨ o'.New neigh ifIncoming

namespace State.Heard

theorem of_origHash (hhash : s'.origHash = s.origHash) : s.Heard neigh ifIncoming s' := by
  intro o ho
  unfold State.origs at ho
  rw [hhash] at ho
  exact .inl ⟨o, ho, .refl o⟩

theorem trans (h : s.Heard neigh ifIncoming s') (h' : s'.Heard neigh ifIncoming s'') :
    s.Heard neigh ifIncoming s'' := by
  intro o'' ho''
  obtain ⟨o', ho', hheard'⟩ | hnew := h' o'' ho''
  · obtain ⟨o, ho, hheard⟩ | hnew := h o' ho'
    · exact .inl ⟨o, ho, hheard.trans hheard'⟩
    · refine .inr ⟨hheard'.router.trans hnew.router, fun n hn => ?_⟩
      obtain ⟨n', hn', hsame⟩ | ⟨hmade, -⟩ := hheard'.old_or_made n hn
      · exact hsame.isVia.trans (hnew.via n' hn')
      · exact hmade.via
  · exact .inr hnew

theorem modOrig {ptr : ℕ} {f : OrigNode p → OrigNode p}
    (hf : ∀ o ∈ s.origs, o.ptr = ptr → o.Heard neigh ifIncoming (f o)) :
    s.Heard neigh ifIncoming (s.modOrig ptr f) := by
  intro o' ho'
  obtain ⟨o, ho, rfl⟩ := mem_origs_modOrig.mp ho'
  refine .inl ⟨o, ho, ?_⟩
  split_ifs with heq
  · exact hf o ho heq
  · exact .refl o

theorem getOrigNode (h : s.Table) (addr : Mac) : s.Heard neigh ifIncoming (s.getOrigNode addr).1 := by
  intro o' ho'
  obtain ⟨o, -, -, heq⟩ | ⟨-, hash, heq, hperm, -⟩ := State.getOrigNode_cases h.ok addr
  · rw [heq] at ho'
    exact .inl ⟨o', ho', .refl o'⟩
  · rw [heq] at ho'
    obtain rfl | hold := List.mem_cons.mp (hperm.mem_iff.mp ho')
    · exact .inr ⟨rfl, fun n hn => absurd hn List.not_mem_nil⟩
    · exact .inl ⟨o', hold, .refl o'⟩

theorem counted (hs : s.Wf) (g : Garbage p) (rx : Ogm) :
    s.Heard neigh ifIncoming (s.counted g rx).state := by
  have hclock : s.Heard neigh ifIncoming { s with currTime := rx.rcvdTime } := .of_origHash rfl
  have htable : ({ s with currTime := rx.rcvdTime } : State p).Table := hs.table.congr rfl le_rfl
  refine hclock.trans ?_
  unfold State.counted State.countOgm State.countRealPackets
  dsimp only
  generalize ({ s with currTime := rx.rcvdTime } : State p) = t at htable
  have hget : t.Heard neigh ifIncoming (t.getOrigNode rx.pkt.orig).1 := .getOrigNode htable rx.pkt.orig
  have htable1 := (State.Calm.getOrigNode htable rx.pkt.orig).table
  generalize t.getOrigNode rx.pkt.orig = got at hget htable1
  have hcount : got.1.Heard neigh ifIncoming (got.1.modOrig got.2 fun o =>
      o.countPacket g.front rx.neigh rx.ifIncoming rx.pkt.seqno) := by
    refine modOrig fun o _ _ => .map (fun n => ?_) rfl rfl rfl
    exact ⟨rfl, rfl, rfl, rfl, rfl, rfl, rfl⟩
  have htable2 : (got.1.modOrig got.2 fun o =>
      o.countPacket g.front rx.neigh rx.ifIncoming rx.pkt.seqno).Table := htable1.modOrig (fun _ => rfl) fun _ => rfl
  have hget2 := hcount.trans (.getOrigNode htable2 rx.pkt.orig)
  have htable3 := (State.Calm.getOrigNode htable2 rx.pkt.orig).table
  split_ifs
  · exact hget.trans hget2
  · exact (hget.trans hget2).trans (.getOrigNode htable3 rx.neigh)

theorem selfNeighbor (h : s.Table) {origNeighNode : ℕ} (hat : s.At origNeighNode neigh) :
    s.Heard neigh ifIncoming (s.selfNeighbor origNeighNode ifIncoming).1 := by
  obtain ⟨o, ho, rfl, rfl⟩ := hat
  unfold State.selfNeighbor
  dsimp only
  rw [h.origAt_of_mem ho]
  cases hvia : o.neighVia o.orig ifIncoming with
  | some n => exact .of_origHash rfl
  | none =>
    have hmade : s.Heard o.orig ifIncoming (s.modOrig o.ptr fun x =>
        { x with neighList := x.neighList ++ [NeighNode.new s.nextPtr o.orig o.ptr ifIncoming] }) := by
      refine modOrig fun x hx hptr => ?_
      obtain rfl := h.eq_of_ptr hx ho hptr
      refine ⟨rfl, rfl, fun n hn => ⟨n, List.mem_append_left _ hn, .refl n⟩, fun n hn => ?_⟩
      rcases List.mem_append.mp hn with hn | hn
      · exact .inl ⟨n, hn, .refl n⟩
      · rw [List.mem_singleton.mp hn]
        refine .inr ⟨⟨NeighNode.isVia_iff.mpr ⟨rfl, rfl⟩, rfl, rfl⟩, fun m hm => ?_⟩
        have hnone := OrigNode.neighVia_none hvia m hm
        rw [← NeighNode.isVia_iff] at hnone
        simpa using hnone
    exact hmade.trans (.of_origHash rfl)

theorem rate {c : Counted p} (h : c.state.Table) (hat : c.state.At c.origNeighNode rx.neigh) :
    c.state.Heard rx.neigh rx.ifIncoming (c.rate rx).state := by
  have hself : c.state.Heard rx.neigh rx.ifIncoming (c.state.selfNeighbor c.origNeighNode rx.ifIncoming).1 :=
    .selfNeighbor h hat
  unfold Counted.rate State.isBidirectionalNeigh
  generalize c.state.selfNeighbor c.origNeighNode rx.ifIncoming = self at hself
  obtain ⟨s1, n⟩ := self
  dsimp only at hself ⊢
  have htouch : s1.Heard rx.neigh rx.ifIncoming (if c.origNode = c.origNeighNode then
      s1.modOrig c.origNode (·.modNeigh n.ptr (·.touch rx.rcvdTime)) else s1) := by
    split_ifs
    · refine modOrig fun o _ _ => .map (k := fun m => if m.ptr = n.ptr then m.touch rx.rcvdTime else m)
        (fun m => ?_) rfl rfl rfl
      split_ifs
      · exact ⟨rfl, rfl, rfl, rfl, rfl, rfl, rfl⟩
      · exact .refl m
    · exact .of_origHash rfl
  refine (hself.trans htouch).trans (State.Heard.trans (modOrig fun o _ _ => ?_) (modOrig fun o _ _ => ?_))
  · exact .entry rfl rfl rfl
  · exact .entry rfl rfl rfl

theorem entryBefore (hs : s.Wf) (g : Garbage p) (hprocess : s.ogmCase rx = .process) :
    (∃ o ∈ s.origs, o.orig = rx.pkt.orig ∧ o.Heard rx.neigh rx.ifIncoming (s.entryBefore g rx)) ∨
      (s.entryBefore g rx).New rx.neigh rx.ifIncoming := by
  obtain ⟨hmoves, hat, hat', -⟩ := State.counted_moves (g := g) hs hprocess
  have hcounted := hmoves.wf hs
  have hrate := (Counted.rate_moves hcounted hat').1
  obtain ⟨hmem, -, horig⟩ := (hrate.wf hcounted).origAt_mem (hrate.at hcounted hat)
  have hheard : s.Heard rx.neigh rx.ifIncoming ((s.counted g rx).rate rx).state :=
    (State.Heard.counted hs g rx).trans (.rate hcounted.table hat')
  rcases hheard _ hmem with ⟨o, ho, hfrom⟩ | hnew
  · exact .inl ⟨o, ho, hfrom.orig.symm.trans horig, hfrom⟩
  · exact .inr hnew

end State.Heard

/-! ## The router that is used -/

/-- `schedule_forward_packet` may come to use this neighbour of the entry `o`: it did not send the OGM, its
`tq_avg` is not 0, and it is the router already or, where `update_orig` is called, no neighbour has a higher
`tq_avg` once the rings are written. -/
def State.Candidate (s : State p) (g : Garbage p) (rx : Ogm) (o : OrigNode p) (n : NeighNode p) : Prop :=
  n.addr ≠ rx.neigh ∧
    if s.UpdatesOrig g rx then
      (n.missed (s.counted g rx).isDuplicate).tqAvg ≠ 0 ∧
        (∀ m ∈ o.others rx.neigh rx.ifIncoming (s.counted g rx).isDuplicate,
          m.tqAvg.toNat ≤ (n.missed (s.counted g rx).isDuplicate).tqAvg.toNat) ∧
        (o.senderAvg rx.neigh rx.ifIncoming ((s.counted g rx).rate rx).pkt.tq).toNat ≤
          (n.missed (s.counted g rx).isDuplicate).tqAvg.toNat
    else o.router = some n.ptr ∧ n.tqAvg ≠ 0

instance (s : State p) (g : Garbage p) (rx : Ogm) (o : OrigNode p) (n : NeighNode p) :
    Decidable (s.Candidate g rx o n) := by
  unfold State.Candidate
  infer_instance

theorem NeighNode.missed_addr (n : NeighNode p) (dup : Bool) : (n.missed dup).addr = n.addr := by
  unfold NeighNode.missed
  cases dup <;> rfl

theorem NeighNode.missed_lastTtl (n : NeighNode p) (dup : Bool) : (n.missed dup).lastTtl = n.lastTtl := by
  unfold NeighNode.missed
  cases dup <;> rfl

theorem State.forwardEntry_of_not_ranks (hranks : ¬ (s.counted g rx).ranks rx = true) :
    s.forwardEntry g rx = s.entryBefore g rx := by
  unfold State.forwardEntry State.entryBefore Counted.ranked
  dsimp only
  rw [if_neg hranks]

/-- The entry that an OGM is forwarded for comes from the ranking. -/
theorem State.forwardEntry_ranked (hs : s.Wf) (hprocess : s.ogmCase rx = .process)
    (hranks : (s.counted g rx).ranks rx = true) :
    ((s.counted g rx).rate rx).state.Entry (s.entryBefore g rx) ∧ ∃ sender,
      (s.entryBefore g rx).Ranked rx.neigh ((s.counted g rx).rate rx).pkt rx.ifIncoming
        (s.counted g rx).isDuplicate (s.forwardEntry g rx) sender ∧
      (s.forwardEntry g rx).router = ((⟨0, 0, none⟩ : Rank p).scan (s.entryBefore g rx).router
        (((s.counted g rx).rate rx).state.scanned g (s.entryBefore g rx) rx.neigh rx.ifIncoming
          (s.counted g rx).isDuplicate sender)).best.map (·.ptr) := by
  obtain ⟨hmoves, hat, hat', -⟩ := State.counted_moves (g := g) hs hprocess
  have hcounted := hmoves.wf hs
  have hrate := (Counted.rate_moves hcounted hat').1
  have hrated := hrate.wf hcounted
  obtain ⟨hmem, hptr, -⟩ := hrated.origAt_mem (hrate.at hcounted hat)
  obtain ⟨htable, o', ho', sender, hranked, hrouter⟩ := hrated.table.updateOrig (hrated.entry hmem) g rx.neigh
    ((s.counted g rx).rate rx).pkt rx.ifIncoming rx.hna (s.counted g rx).isDuplicate rx.rcvdTime rx.gwTime
  have hafter : s.forwardEntry g rx = o' := by
    have hread := htable.origAt_of_mem ho'
    rw [hranked.ptr] at hread
    unfold State.forwardEntry Counted.ranked
    dsimp only
    rw [if_pos hranks, ← hread, hptr]
  exact ⟨hrated.entry hmem, sender, hafter ▸ hranked, hafter ▸ hrouter⟩

theorem OrigNode.Ranked.le_of_scan {pkt : BatmanPacket} {dup : Bool} {sender r : NeighNode p}
    (hranked : o.Ranked neigh pkt ifIncoming dup o' sender) (he : s.Entry o) (hr : r ∈ o.others neigh ifIncoming dup)
    (hbest : ((⟨0, 0, none⟩ : Rank p).scan o.router
      (s.scanned g o neigh ifIncoming dup sender)).best.map (·.ptr) = some r.ptr) :
    ∀ n ∈ o'.neighList, n.tqAvg.toNat ≤ r.tqAvg.toNat := by
  rcases hranked.scan_best s g with ⟨hnone, -⟩ | ⟨b, hb, hsome, hmax⟩
  · rw [hnone] at hbest
    cases hbest
  · rw [hsome] at hbest
    have hptr : b.ptr = r.ptr := Option.some.inj hbest
    rcases (hranked.mem_iff b).mp hb with hmem | rfl
    · obtain ⟨m, hm, -, rfl⟩ := OrigNode.mem_others hr
      obtain ⟨l, hl, -, rfl⟩ := OrigNode.mem_others hmem
      rw [NeighNode.missed_ptr, NeighNode.missed_ptr] at hptr
      rwa [he.eq_of_ptr hl hm hptr] at hmax
    · exact absurd hptr.symm (hranked.other_ptr r hr)

/-- Where `update_orig` is called, the router is one of the best neighbours. -/
theorem State.candidate_of_ranked (hs : s.Wf) (hcall : s.UpdatesOrig g rx) {r : NeighNode p}
    (hr : r ∈ (s.forwardEntry g rx).neighList) (hrouter : (s.forwardEntry g rx).router = some r.ptr)
    (haddr : r.addr ≠ rx.neigh) (htq : r.tqAvg ≠ 0) (hfrom : o.Heard rx.neigh rx.ifIncoming (s.entryBefore g rx))
    (ho : s.Entry o) : ∃ n ∈ o.neighList, n.lastTtl = r.lastTtl ∧ s.Candidate g rx o n := by
  have hother : ∀ n : NeighNode p, n.addr = r.addr → ¬ n.isVia rx.neigh rx.ifIncoming = true :=
    fun n hn hvia => haddr (hn.symm.trans (NeighNode.isVia_iff.mp hvia).1)
  obtain ⟨he, sender, hranked, hbest⟩ := State.forwardEntry_ranked (g := g) hs hcall.1 hcall.2.2
  rw [hbest] at hrouter
  rcases (hranked.mem_iff r).mp hr with hmem | rfl
  swap
  · exact absurd hranked.via (hother r rfl)
  have hmax := hranked.le_of_scan he hmem hrouter
  obtain ⟨m, hm, -, rfl⟩ := OrigNode.mem_others hmem
  rw [NeighNode.missed_addr] at haddr hother
  obtain ⟨n, hn, hsame⟩ | ⟨hmade, -⟩ := hfrom.old_or_made m hm
  swap
  · exact absurd hmade.via (hother m rfl)
  refine ⟨n, hn, ?_, ?_⟩
  · rw [NeighNode.missed_lastTtl, hsame.lastTtl]
  · unfold State.Candidate
    rw [if_pos hcall, ← hsame.missed_tqAvg, ← hsame.addr]
    refine ⟨haddr, htq, fun k hk => ?_, ?_⟩
    · obtain ⟨l, hl, hlvia, rfl⟩ := OrigNode.mem_others hk
      obtain ⟨l', hl', hsame'⟩ := hfrom.old l hl
      rw [← hsame'.missed_tqAvg]
      refine hmax _ ((hranked.mem_iff _).mpr (.inl (List.mem_map_of_mem (List.mem_filter.mpr ⟨hl', ?_⟩))))
      rw [hsame'.isVia, hlvia]
      rfl
    · rw [← hfrom.senderAvg ho, ← hranked.avg]
      exact hmax _ ((hranked.mem_iff _).mpr (.inr rfl))

/-- Where it is not, the router is the one from before. -/
theorem State.candidate_of_kept (hcall : ¬ s.UpdatesOrig g rx) {r : NeighNode p}
    (hr : r ∈ (s.entryBefore g rx).neighList) (hrouter : (s.entryBefore g rx).router = some r.ptr)
    (haddr : r.addr ≠ rx.neigh) (htq : r.tqAvg ≠ 0) (hfrom : o.Heard rx.neigh rx.ifIncoming (s.entryBefore g rx)) :
    ∃ n ∈ o.neighList, n.lastTtl = r.lastTtl ∧ s.Candidate g rx o n := by
  obtain ⟨n, hn, hsame⟩ | ⟨hmade, -⟩ := hfrom.old_or_made r hr
  swap
  · exact absurd (NeighNode.isVia_iff.mp hmade.via).1 haddr
  refine ⟨n, hn, hsame.lastTtl.symm, ?_⟩
  unfold State.Candidate
  rw [if_neg hcall, ← hsame.addr, ← hsame.tqAvg, ← hsame.ptr, ← hfrom.router]
  exact ⟨haddr, hrouter, htq⟩

/-- An entry that was made for the OGM has no router to use. -/
theorem OrigNode.New.not_used (hnew : (s.entryBefore g rx).New rx.neigh rx.ifIncoming) (hs : s.Wf)
    (hprocess : s.ogmCase rx = .process) {r : NeighNode p} (hr : r ∈ (s.forwardEntry g rx).neighList) :
    r.addr = rx.neigh := by
  by_cases hranks : (s.counted g rx).ranks rx = true
  · obtain ⟨-, sender, hranked, -⟩ := State.forwardEntry_ranked (g := g) hs hprocess hranks
    rcases (hranked.mem_iff r).mp hr with hmem | rfl
    · obtain ⟨m, hm, hvia, rfl⟩ := OrigNode.mem_others hmem
      exact absurd (hvia.symm.trans (hnew.via m hm)) Bool.false_ne_true
    · exact (NeighNode.isVia_iff.mp hranked.via).1
  · rw [State.forwardEntry_of_not_ranks hranks] at hr
    exact (NeighNode.isVia_iff.mp (hnew.via r hr)).1

/-- **A router that is used was a candidate**, and has the `last_ttl` from before. -/
theorem State.candidate_of_router (hs : s.Wf) (hprocess : s.ogmCase rx = .process)
    (hknown : (s.counted g rx).unknownNeigh rx = false) {r : NeighNode p}
    (hr : r ∈ (s.forwardEntry g rx).neighList) (hrouter : (s.forwardEntry g rx).router = some r.ptr)
    (haddr : r.addr ≠ rx.neigh) (htq : r.tqAvg ≠ 0) :
    ∃ o ∈ s.origs, o.orig = rx.pkt.orig ∧ ∃ n ∈ o.neighList, n.lastTtl = r.lastTtl ∧ s.Candidate g rx o n := by
  obtain ⟨o, ho, horig, hfrom⟩ | hnew := State.Heard.entryBefore hs g hprocess
  · refine ⟨o, ho, horig, ?_⟩
    by_cases hranks : (s.counted g rx).ranks rx = true
    · exact State.candidate_of_ranked hs ⟨hprocess, hknown, hranks⟩ hr hrouter haddr htq hfrom (hs.entry ho)
    · rw [State.forwardEntry_of_not_ranks hranks] at hr hrouter
      exact State.candidate_of_kept (fun hcall => hranks hcall.2.2) hr hrouter haddr htq hfrom
  · exact absurd (hnew.not_used hs hprocess hr) haddr

/-! ## The ttl -/

/-- The values that `last_ttl` of a neighbour was given in a run, the oldest first. -/
def ttlsWritten (ptr : ℕ) (tr : List (State p × Event p)) : List Byte :=
  (writtenTo ptr (neighWrites tr)).filterMap (·.lastTtl)

/-- Every candidate has been heard of through an OGM that was no duplicate, and the last one had a ttl of at
least 2. -/
def State.CandidatesHeard (s : State p) (tr : List (State p × Event p)) (g : Garbage p) (rx : Ogm) : Prop :=
  ∀ o ∈ s.origs, o.orig = rx.pkt.orig → ∀ n ∈ o.neighList, s.Candidate g rx o n →
    ∃ ttl ∈ (ttlsWritten n.ptr tr).getLast?, 2 ≤ ttl.toNat

instance (s : State p) (tr : List (State p × Event p)) (g : Garbage p) (rx : Ogm) :
    Decidable (s.CandidatesHeard tr g rx) :=
  inferInstanceAs (Decidable (∀ o ∈ s.origs, _ → ∀ n ∈ o.neighList, _ → _))

theorem OrigNode.neighAt_ptr {n : NeighNode p} (hn : n ∈ o.neighList) : (o.neighAt g n.ptr).ptr = n.ptr := by
  unfold OrigNode.neighAt
  cases hfind : o.neighList.find? (·.ptr = n.ptr) with
  | none => exact absurd (List.find?_eq_none.mp hfind n hn) (by simp)
  | some m =>
    have hptr : m.ptr = n.ptr := by simpa using List.find?_some hfind
    exact hptr

/-- The sender of an OGM for which a packet is queued is known. -/
theorem State.known_of_queued {f : ForwNode} (hs : s.Wf) (h : (s.batmanOgm g rx).1.forwList = f :: s.forwList) :
    (s.counted g rx).unknownNeigh rx = false := by
  obtain ⟨hprocess, -⟩ := State.queued hs h
  cases hunknown : (s.counted g rx).unknownNeigh rx with
  | false => rfl
  | true =>
    have hforw : (s.counted g rx).state.forwList = s.forwList :=
      ((State.counted_writes (g := g) hs hprocess).1.frame.2.1).trans (s.forwList_countState g rx)
    rw [State.batmanOgm_of_process hprocess] at h
    dsimp only at h
    rw [Counted.finish_of_unknown g hunknown, hforw] at h
    exact absurd h.symm (List.cons_ne_self _ _)

theorem Run.routerOk {cfg : Config} {tr : List (State p × Event p)} (h : Run p cfg tr s)
    (hpurge : ∀ x ∈ tr, ∀ g currTime gwTime, x.2 = .purge g currTime gwTime →
      ∀ o ∈ x.1.origs, expired o.lastValid currTime = false → o.KeepsRouter g currTime) : s.RouterOk := by
  have hinv := Trace.invariant_of_good (I := fun _ s => s.Wf ∧ s.RouterOk)
    (G := fun _ s e => ∀ g currTime gwTime, e = .purge g currTime gwTime →
      ∀ o ∈ s.origs, expired o.lastValid currTime = false → o.KeepsRouter g currTime) h
    ⟨cfg.boot_wf p, cfg.forall_origs_boot⟩
    (fun pre t e u ⟨ht, hok⟩ hgood hstep => by
      refine ⟨step_wf ht hstep, ?_⟩
      rcases step_cases ht hstep with ⟨g, rx, rfl, _, _, hmoves⟩ | ⟨g, currTime, gwTime, rfl, rfl⟩ |
        ⟨_, _, hquiet⟩
      · exact (hmoves.preserves ht hok fun _ _ hwf hI hmove => hmove.routerOk hwf hI).2
      · exact (State.routerOk_purgeOrig ht hok).mpr (hgood g currTime gwTime rfl)
      · exact hquiet.routerOk hok)
    fun pre x post heq => hpurge x (by rw [heq]; simp)
  exact hinv.2

theorem maxTtl_le (tr : List (State p × Event p)) (orig : Mac) : maxTtl tr orig ≤ 255 := by
  refine List.max_le_of_forall_le _ _ fun x hx => ?_
  obtain ⟨pkt, _, rfl⟩ := List.mem_map.mp hx
  exact Nat.le_of_lt_succ pkt.ttl.isLt

/-- One less, and not wrapped to 255. -/
theorem ttl_sub_one_fits {ttl : Byte} {bound : ℕ} (hbound : bound ≤ 255) :
    (1 ≤ (ttl - 1).toNat ∧ (ttl - 1).toNat < bound) ↔ 2 ≤ ttl.toNat ∧ ttl.toNat ≤ bound := by
  have hlt := ttl.isLt
  rw [BitVec.toNat_sub, show (1 : Byte).toNat = 1 from rfl]
  omega

theorem State.rate_ttl (hs : s.Wf) (hprocess : s.ogmCase rx = .process) :
    ((s.counted g rx).rate rx).pkt.ttl = rx.pkt.ttl := by
  obtain ⟨hcount, -, hat', -⟩ := State.counted_moves (g := g) hs hprocess
  rw [(Counted.rate_moves (hcount.wf hs) hat').2.1]

/-- A router that is used was last written from an OGM with a ttl of at least 2. -/
theorem State.CandidatesHeard.two_le_lastTtl {cfg : Config} {tr : List (State p × Event p)}
    (hheard : s.CandidatesHeard tr g rx) (h : Run p cfg tr s) (hprocess : s.ogmCase rx = .process)
    (hknown : (s.counted g rx).unknownNeigh rx = false) {r : NeighNode p}
    (hr : r ∈ (s.forwardEntry g rx).neighList) (hrouter : (s.forwardEntry g rx).router = some r.ptr)
    (haddr : r.addr ≠ rx.neigh) (htq : r.tqAvg ≠ 0) : 2 ≤ r.lastTtl.toNat := by
  obtain ⟨o, ho, ho', n, hn, hsame, hcand⟩ := State.candidate_of_router h.wf hprocess hknown hr hrouter haddr htq
  obtain ⟨ttl, hlast, htwo⟩ := hheard o ho ho' n hn hcand
  have hwritten : n.lastTtl = (ttlsWritten n.ptr tr).getLast?.getD 0 :=
    (h.recorded.remembers o ho n hn).lastTtl
  rwa [← hsame, hwritten, Option.mem_def.mp hlast]

/-- **The ttl of a queued OGM** is at least 1 and below the largest one received from its originator, in every run
whose purges keep or replace the routers, if every candidate has been heard of through an OGM that was no duplicate,
the last one with a ttl of at least 2. -/
theorem forward_ttl {cfg : Config} {tr : List (State p × Event p)} {f : ForwNode} (h : Run p cfg tr s)
    (hpurge : ∀ x ∈ tr, ∀ g currTime gwTime, x.2 = .purge g currTime gwTime →
      ∀ o ∈ x.1.origs, expired o.lastValid currTime = false → o.KeepsRouter g currTime)
    (hheard : s.CandidatesHeard tr g rx) (hstep : step s (.ogm g rx) = some s')
    (hqueued : s'.forwList = f :: s.forwList) :
    1 ≤ f.pack.ttl.toNat ∧ f.pack.ttl.toNat < maxTtl (tr ++ [(s, .ogm g rx)]) f.pack.orig := by
  rw [step_ogm hstep] at hqueued
  obtain ⟨hprocess, httl, horig, -, hqttl⟩ := State.queued h.wf hqueued
  have hknown := State.known_of_queued h.wf hqueued
  obtain ⟨hmoves, hmem, -⟩ := State.forwardEntry_spec (g := g) h.wf hprocess
  have hbounded := h.forwardEntry_bounded (g := g) hprocess
  have hrouter : (s.forwardEntry g rx).RouterOk :=
    (hmoves.preserves h.wf (h.routerOk hpurge) fun _ _ hwf hI hmove => hmove.routerOk hwf hI).2 _ hmem
  have hpkt := State.rate_ttl (g := g) h.wf hprocess
  have hused : ∀ r ∈ (s.forwardEntry g rx).neighList, (s.forwardEntry g rx).router = some r.ptr →
      r.addr ≠ rx.neigh → r.tqAvg ≠ 0 → 2 ≤ r.lastTtl.toNat := fun r hr hptr haddr htq =>
    hheard.two_le_lastTtl h hprocess hknown hr hptr haddr htq
  have hmax := ttl_le_maxTtl tr s g rx
  have hbyte := maxTtl_le (tr ++ [(s, .ogm g rx)]) rx.pkt.orig
  rw [horig, hqttl]
  show 1 ≤ (forwardTqTtl g (s.forwardEntry g rx) rx.neigh _).2.toNat ∧
    (forwardTqTtl g (s.forwardEntry g rx) rx.neigh _).2.toNat < _
  generalize s.forwardEntry g rx = o at hbounded hrouter hused
  have hfromPkt : 1 ≤ (rx.pkt.ttl - 1).toNat ∧
      (rx.pkt.ttl - 1).toNat < maxTtl (tr ++ [(s, .ogm g rx)]) rx.pkt.orig := (ttl_sub_one_fits hbyte).mpr ⟨httl, hmax⟩
  unfold forwardTqTtl
  cases hr : o.router with
  | none =>
    dsimp only
    rwa [hpkt]
  | some ptr =>
    dsimp only
    split_ifs with huse
    · rcases hrouter with hnone | ⟨n, hn, hptr, -⟩
      · rw [hr] at hnone
        cases hnone
      · obtain rfl : ptr = n.ptr := Option.some.inj (hr.symm.trans hptr)
        have hn' := OrigNode.neighAt_mem (g := g) hn
        refine (ttl_sub_one_fits hbyte).mpr ⟨hused _ hn' ?_ huse.2 huse.1, (hbounded _ hn').ttl⟩
        rw [hr, OrigNode.neighAt_ptr hn]
    · dsimp only
      rwa [hpkt]

/-- `A` and `B` are neighbours. -/
def Net.neighbors : List (Event Net.p64) :=
  Net.linkUp Net.p64 ++
    [.ogm (Net.zeros Net.p64) (Net.echo Net.macB Net.me0 0 1 1400),
      .ogm (Net.zeros Net.p64) (Net.ogm Net.macB Net.macB 0 1 1400),
      .ogm (Net.zeros Net.p64) (Net.ogm Net.macB Net.macB 0 2 1400)]

/-- `C` is heard over `B`. -/
def Net.better : List (Event Net.p64) :=
  Net.neighbors ++
    [.ogm (Net.zeros Net.p64) (Net.ogm Net.macB Net.macC 0 1 1500),
      .ogm (Net.zeros Net.p64) (Net.ogm Net.macB Net.macC 0 2 1500)]

/-- `C` is heard over `A`, then better over `B` but only as a duplicate. -/
def Net.duplicated : List (Event Net.p64) :=
  Net.neighbors ++
    [.ogm (Net.zeros Net.p64) (Net.weak Net.macA Net.macC 0 1 1500),
      .ogm (Net.zeros Net.p64) (Net.weak Net.macA Net.macC 0 2 1500),
      .ogm (Net.zeros Net.p64) (Net.ogm Net.macB Net.macC 0 2 1500)]

/-- The next OGM of `C`, over `A`. -/
def Net.next : Event Net.p64 := .ogm (Net.zeros Net.p64) (Net.weak Net.macA Net.macC 0 3 1600)

/-- `B` is a candidate when `C` is heard over `A`, and its `last_ttl` was written. -/
theorem forward_ttl_better : ∃ tr s s' f, Run Net.p64 Net.cfg tr s ∧
    tr.map Prod.snd = Net.better ++ [.purge (Net.zeros Net.p64) 1550 1550] ∧
    (∃ o ∈ s.origs, ∃ n ∈ o.neighList, n.addr = Net.macB ∧
      s.Candidate (Net.zeros Net.p64) (Net.weak Net.macA Net.macC 0 3 1600) o n) ∧
    step s Net.next = some s' ∧ s'.forwList = f :: s.forwList ∧
    1 ≤ f.pack.ttl.toNat ∧ f.pack.ttl.toNat < maxTtl (tr ++ [(s, Net.next)]) f.pack.orig := by
  obtain ⟨tr, s, hrun, hevents, hcheck⟩ := Run.of_exec Net.cfg
    (Net.better ++ [.purge (Net.zeros Net.p64) 1550 1550])
    (fun tr (s : State Net.p64) => (tr.all fun x => x.2.onPurge fun g currTime _ =>
        decide (∀ o ∈ x.1.origs, expired o.lastValid currTime = false → o.KeepsRouter g currTime)) &&
      (decide ((∃ o ∈ s.origs, ∃ n ∈ o.neighList, n.addr = Net.macB ∧
          s.Candidate (Net.zeros Net.p64) (Net.weak Net.macA Net.macC 0 3 1600) o n) ∧
        s.CandidatesHeard tr (Net.zeros Net.p64) (Net.weak Net.macA Net.macC 0 3 1600)) &&
      s.queues Net.next fun _ => true)) (by decide +kernel)
  obtain ⟨hpurge, hrest⟩ := (Bool.and_eq_true _ _).mp hcheck
  obtain ⟨hcond, hqueue⟩ := (Bool.and_eq_true _ _).mp hrest
  obtain ⟨hcand, hheard⟩ := of_decide_eq_true hcond
  obtain ⟨s', f, hstep, hqueued, -⟩ := exists_queued hqueue
  exact ⟨tr, s, s', f, hrun, hevents, hcand, hstep, hqueued,
    forward_ttl hrun (forall_purge_of_all hpurge) hheard hstep hqueued⟩

theorem forward_ttl_wraps : ∃ tr s s' f, Run Net.p64 Net.cfg tr s ∧
    tr.map Prod.snd = Net.duplicated ∧ step s Net.next = some s' ∧ s'.forwList = f :: s.forwList ∧
    f.pack.ttl = 255 ∧ maxTtl (tr ++ [(s, Net.next)]) f.pack.orig = 50 := by
  obtain ⟨tr, s, hrun, hevents, hcheck⟩ := Run.of_exec Net.cfg Net.duplicated
    (fun tr s => s.queues Net.next fun f =>
      decide (f.pack.ttl = 255 ∧ maxTtl (tr ++ [(s, Net.next)]) f.pack.orig = 50)) (by decide +kernel)
  obtain ⟨s', f, hstep, hqueued, hf⟩ := exists_queued hcheck
  exact ⟨tr, s, s', f, hrun, hevents, hstep, hqueued, of_decide_eq_true hf⟩

end BatmanAdv
