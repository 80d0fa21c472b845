import BatmanAdv.OgmBounds
import BatmanAdv.SendQueue
import Mathlib.Tactic.IntervalCases

/-!
# Rebroadcast OGMs

An OGM that goes on is queued as it lies in the buffer, its sequence number in the order of the host.
`send_outstanding_packets` converts it back and writes all copies from one buffer, in which it sets the
flags anew for every interface.
-/

namespace BatmanAdv

variable {p : Platform} {s s' s'' : State p} {g : Garbage p} {rx : Ogm}

/-! ## Byte order -/

/-- How the host stores a `uint16_t`. -/
inductive ByteOrder where
  | little
  | big

namespace ByteOrder

def store : ByteOrder → Seqno → List Byte
  | .little, x => [x.extractLsb' 0 8, x.extractLsb' 8 8]
  | .big, x => [x.extractLsb' 8 8, x.extractLsb' 0 8]

def htons : ByteOrder → Seqno → Seqno
  | .little, x => x.extractLsb' 0 8 ++ x.extractLsb' 8 8
  | .big, x => x

theorem store_htons (order : ByteOrder) (x : Seqno) : order.store (order.htons x) = seqnoBytes x := by
  cases order with
  | little =>
    show [_, _] = [_, _]
    unfold htons
    rw [BitVec.extractLsb'_append_eq_right, BitVec.extractLsb'_append_eq_left]
  | big => rfl

end ByteOrder

theorem seqnoBytes_readSeqno (buff : List Byte) (at_ : ℕ) :
    seqnoBytes (readSeqno buff at_) = [buff.getD at_ 0, buff.getD (at_ + 1) 0] := by
  unfold seqnoBytes readSeqno
  rw [BitVec.extractLsb'_append_eq_left, BitVec.extractLsb'_append_eq_right]

/-! ## What is written for a packet -/

/-- A packet as it lies in `pack_buff`. -/
def BatmanPacket.store (order : ByteOrder) (pkt : BatmanPacket) : List Byte :=
  [pkt.packetType, pkt.version, pkt.flags, pkt.ttl, pkt.gwflags, pkt.tq] ++ order.store pkt.seqno ++
    pkt.orig.bytes ++ pkt.oldOrig.bytes ++ [pkt.numHna, pkt.pad]

theorem BatmanPacket.store_htons (order : ByteOrder) (pkt : BatmanPacket) :
    ({ pkt with seqno := order.htons pkt.seqno } : BatmanPacket).store order = pkt.bytes := by
  unfold BatmanPacket.store BatmanPacket.bytes
  dsimp only
  rw [ByteOrder.store_htons]

/-- `send_packet` of `pack_buff` to `broadcastAddr`, over this interface. -/
def BatmanIf.sendPack (batmanIf : BatmanIf) (order : ByteOrder) (pack : BatmanPacket)
    (packHna : List Byte) : Frame :=
  ⟨broadcastAddr, batmanIf.hwAddr, pack.store order ++ packHna⟩

/-- The loop over `if_list`. Every copy is written from the one buffer, with the flags of its interface. -/
def ForwNode.sendLoop (f : ForwNode) (order : ByteOrder) (directlinkFlag : Bool) :
    List (BatmanIf × ℕ) → BatmanPacket → List (ℕ × Frame)
  | [], _ => []
  | (batmanIf, ifNum) :: ifList, pack =>
    let pack := { pack with
      flags := if directlinkFlag && f.ifOutgoing == ifNum then directlink else 0 }
    (ifNum, batmanIf.sendPack order pack f.packHna) :: f.sendLoop order directlinkFlag ifList pack

/-- What `send_outstanding_packets` writes for a packet that is due, with the interface of each copy. -/
def State.sendForw (s : State p) (order : ByteOrder) (f : ForwNode) : List (ℕ × Frame) :=
  let directlinkFlag : Bool := f.pack.flags &&& directlink != 0
  -- change sequence number to network order
  let pack := { f.pack with seqno := order.htons f.pack.seqno }
  match s.ifList[f.ifOutgoing]? with
  | none =>
    -- `if_outgoing == NULL`, which no own packet has
    if directlinkFlag then [] else f.sendLoop order directlinkFlag s.ifList.zipIdx pack
  | some ifOutgoing =>
    -- multihomed peer assumed
    if directlinkFlag && pack.ttl == 1 then [(f.ifOutgoing, ifOutgoing.sendPack order pack f.packHna)]
    -- non-primary interfaces are only broadcasted on their interface
    else if f.own && decide (f.ifOutgoing > 0) then
      [(f.ifOutgoing, ifOutgoing.sendPack order pack f.packHna)]
    else f.sendLoop order directlinkFlag s.ifList.zipIdx pack

/-- The flags are set anew for each copy, so that nothing is left of those of the last one. -/
theorem ForwNode.sendLoop_eq (f : ForwNode) (order : ByteOrder) (directlinkFlag : Bool)
    (ifList : List (BatmanIf × ℕ)) (pack : BatmanPacket) :
    f.sendLoop order directlinkFlag ifList pack = ifList.map fun x =>
      (x.2, x.1.sendPack order
        { pack with flags := if directlinkFlag && f.ifOutgoing == x.2 then directlink else 0 }
        f.packHna) := by
  induction ifList generalizing pack with
  | nil => rfl
  | cons x ifList ih =>
    unfold ForwNode.sendLoop
    dsimp only
    rw [ih]
    rfl

/-- A forwarded packet, with the flags `schedule_forward_packet` gives it. -/
structure ForwNode.Forwards (f : ForwNode) (s : State p) (directlinkFlag : Bool) : Prop where
  own : f.own = false
  flags : f.pack.flags = if directlinkFlag then directlink else 0
  ifOutgoing : f.ifOutgoing < s.ifList.length

variable {f : ForwNode} {directlinkFlag : Bool}

theorem ForwNode.Forwards.sendForw (h : f.Forwards s directlinkFlag) (order : ByteOrder) :
    ∃ batmanIf, s.ifList[f.ifOutgoing]? = some batmanIf ∧
      s.sendForw order f =
        if directlinkFlag = true ∧ f.pack.ttl = 1 then
          [(f.ifOutgoing, batmanIf.sendPack order
            { f.pack with seqno := order.htons f.pack.seqno } f.packHna)]
        else f.sendLoop order directlinkFlag s.ifList.zipIdx
          { f.pack with seqno := order.htons f.pack.seqno } := by
  refine ⟨_, List.getElem?_eq_getElem h.ifOutgoing, ?_⟩
  have hflag : (f.pack.flags &&& directlink != 0) = directlinkFlag := by
    rw [h.flags]
    cases directlinkFlag <;> decide
  unfold State.sendForw
  dsimp only
  rw [hflag, List.getElem?_eq_getElem h.ifOutgoing, h.own]
  dsimp only
  by_cases hsingle : directlinkFlag = true ∧ f.pack.ttl = 1
  · rw [if_pos hsingle, if_pos (by simp [hsingle.1, hsingle.2])]
  · rw [if_neg hsingle, if_neg (by simpa using hsingle)]
    rfl

theorem ForwNode.Forwards.interfaces (h : f.Forwards s directlinkFlag) (order : ByteOrder) :
    (s.sendForw order f).map Prod.fst =
      if directlinkFlag = true ∧ f.pack.ttl = 1 then [f.ifOutgoing]
      else List.range s.ifList.length := by
  obtain ⟨batmanIf, -, heq⟩ := h.sendForw order
  rw [heq]
  split_ifs
  · rfl
  · rw [ForwNode.sendLoop_eq, List.map_map]
    exact (List.zipIdx_map_snd 0 s.ifList).trans List.range_eq_range'.symm

/-- **Each copy.** -/
theorem ForwNode.Forwards.copy (h : f.Forwards s directlinkFlag) {order : ByteOrder} {c : ℕ × Frame}
    (hc : c ∈ s.sendForw order f) :
    ∃ batmanIf, s.ifList[c.1]? = some batmanIf ∧
      c.2 = ⟨broadcastAddr, batmanIf.hwAddr,
        { f.pack with flags := if directlinkFlag = true ∧ c.1 = f.ifOutgoing then directlink else 0 }.bytes ++
          f.packHna⟩ := by
  obtain ⟨ifOutgoing, hif, heq⟩ := h.sendForw order
  rw [heq] at hc
  by_cases hsingle : directlinkFlag = true ∧ f.pack.ttl = 1
  · rw [if_pos hsingle] at hc
    obtain rfl := List.mem_singleton.mp hc
    refine ⟨ifOutgoing, hif, ?_⟩
    have hflags : f.pack.flags = directlink := by rw [h.flags, if_pos hsingle.1]
    rw [if_pos ⟨hsingle.1, rfl⟩, ← hflags]
    unfold BatmanIf.sendPack
    rw [BatmanPacket.store_htons]
  · rw [if_neg hsingle, ForwNode.sendLoop_eq] at hc
    obtain ⟨⟨batmanIf, ifNum⟩, hmem, rfl⟩ := List.mem_map.mp hc
    refine ⟨batmanIf, List.mem_zipIdx_iff_getElem?.mp hmem, ?_⟩
    have hflags : (directlinkFlag = true ∧ ifNum = f.ifOutgoing) =
        ((directlinkFlag && f.ifOutgoing == ifNum) = true) := by
      rw [Bool.and_eq_true, beq_iff_eq, eq_comm (a := ifNum)]
    unfold BatmanIf.sendPack
    dsimp only
    rw [← BatmanPacket.store_htons order]
    simp only [hflags]

/-! ## What is queued -/

/-- The interfaces and the queue are the same. -/
structure State.SameQueue (s s' : State p) : Prop where
  ifList : s'.ifList = s.ifList
  forwList : s'.forwList = s.forwList

namespace State.SameQueue

theorem refl (s : State p) : s.SameQueue s := ⟨rfl, rfl⟩

theorem trans (h : s.SameQueue s') (h' : s'.SameQueue s'') : s.SameQueue s'' :=
  ⟨h'.ifList.trans h.ifList, h'.forwList.trans h.forwList⟩

theorem getOrigNode (s : State p) (addr : Mac) : s.SameQueue (s.getOrigNode addr).1 := by
  rw [s.getOrigNode_frame]
  exact ⟨rfl, rfl⟩

theorem countRealPackets (s : State p) (g : Garbage p) (neigh : Mac) (pkt : BatmanPacket)
    (ifIncoming : ℕ) : s.SameQueue (s.countRealPackets g neigh pkt ifIncoming).1 :=
  (getOrigNode s pkt.orig).trans ⟨rfl, rfl⟩

theorem countOgm (s : State p) (g : Garbage p) (rx : Ogm) : s.SameQueue (s.countOgm g rx).state := by
  have horig := (countRealPackets s g rx.neigh rx.pkt rx.ifIncoming).trans (getOrigNode _ rx.pkt.orig)
  unfold State.countOgm
  dsimp only
  split_ifs
  · exact horig
  · exact horig.trans (getOrigNode _ rx.neigh)

theorem counted (s : State p) (g : Garbage p) (rx : Ogm) : s.SameQueue (s.counted g rx).state := by
  have hcount := countOgm { s with currTime := rx.rcvdTime } g rx
  exact ⟨hcount.ifList, hcount.forwList⟩

theorem selfNeighbor (s : State p) (origNeighNode ifIncoming : ℕ) :
    s.SameQueue (s.selfNeighbor origNeighNode ifIncoming).1 := by
  unfold State.selfNeighbor
  dsimp only
  split
  · exact refl s
  · exact ⟨rfl, rfl⟩

theorem rate (c : Counted p) (rx : Ogm) : c.state.SameQueue (c.rate rx).state := by
  unfold Counted.rate State.isBidirectionalNeigh
  dsimp only
  have hself := selfNeighbor c.state c.origNeighNode rx.ifIncoming
  split_ifs
  · exact hself.trans ⟨rfl, rfl⟩
  · exact hself.trans ⟨rfl, rfl⟩

theorem viaNeighbor (s : State p) (origNode : ℕ) (neigh : Mac) (ifIncoming : ℕ) :
    s.SameQueue (s.viaNeighbor origNode neigh ifIncoming).1 := by
  unfold State.viaNeighbor
  split
  · exact refl s
  · exact (getOrigNode s neigh).trans ⟨rfl, rfl⟩

theorem rankNeighbors (s : State p) (g : Garbage p) (origNode : ℕ) (neigh : Mac) (pkt : BatmanPacket)
    (ifIncoming : ℕ) (isDuplicate : Bool) (rcvdTime : Time) :
    s.SameQueue (s.rankNeighbors g origNode neigh pkt ifIncoming isDuplicate rcvdTime).1 := by
  unfold State.rankNeighbors
  dsimp only
  have hzero : s.SameQueue (s.modOrig origNode (·.pushZero neigh ifIncoming isDuplicate)) := ⟨rfl, rfl⟩
  exact (hzero.trans (viaNeighbor _ origNode neigh ifIncoming)).trans ⟨rfl, rfl⟩

theorem updateRoutes (s : State p) (origNode : ℕ) (neighNode : Option (NeighNode p))
    (hnaRecvBuff : Option (List Byte)) (hnaBuffLen : ℕ) :
    s.SameQueue (s.updateRoutes origNode neighNode hnaRecvBuff hnaBuffLen) :=
  ⟨rfl, rfl⟩

theorem setGwflags (s : State p) (origNode : ℕ) (gwflags : Byte) (gwTime : Time) :
    s.SameQueue (s.setGwflags origNode gwflags gwTime) := by
  unfold State.setGwflags
  dsimp only
  split_ifs
  · exact ⟨rfl, rfl⟩
  · exact ⟨rfl, rfl⟩

theorem updateOrig (s : State p) (g : Garbage p) (origNode : ℕ) (neigh : Mac) (pkt : BatmanPacket)
    (ifIncoming : ℕ) (hnaRecvBuff : List Byte) (isDuplicate : Bool) (rcvdTime gwTime : Time) :
    s.SameQueue
      (s.updateOrig g origNode neigh pkt ifIncoming hnaRecvBuff isDuplicate rcvdTime gwTime) := by
  unfold State.updateOrig
  have hrank := rankNeighbors s g origNode neigh pkt ifIncoming isDuplicate rcvdTime
  generalize s.rankNeighbors g origNode neigh pkt ifIncoming isDuplicate rcvdTime = ranked at hrank ⊢
  exact (hrank.trans (updateRoutes _ _ _ _ _)).trans (setGwflags _ _ _ _)

theorem ranked (c : Counted p) (g : Garbage p) (rx : Ogm) : c.state.SameQueue (c.ranked g rx) := by
  unfold Counted.ranked
  dsimp only
  split_ifs
  · exact (rate c rx).trans (updateOrig _ _ _ _ _ _ _ _ _ _)
  · exact rate c rx

end State.SameQueue

theorem Counted.rate_pkt (c : Counted p) (rx : Ogm) : ∃ tq, (c.rate rx).pkt = { rx.pkt with tq := tq } :=
  ⟨_, rfl⟩

theorem State.batmanOgm_of_handed (h : (s.batmanOgm g rx).2 ≠ .dropped) :
    (s.batmanOgm g rx).1 = (s.counted g rx).forward g rx rx.isSingleHopNeigh := by
  have hprocess : s.ogmCase rx = .process := by
    by_contra hcase
    exact h (State.batmanOgm_dropped g hcase)
  rw [State.batmanOgm_of_process hprocess] at h ⊢
  dsimp only at h ⊢
  generalize s.counted g rx = c at h
  unfold Counted.handed at h
  unfold Counted.finish Counted.handed
  by_cases hunknown : c.unknownNeigh rx = true
  · rw [if_pos hunknown] at h
    exact absurd rfl h
  · rw [if_neg hunknown] at h
    rw [if_neg hunknown, if_neg hunknown]
    by_cases hsingle : rx.isSingleHopNeigh = true
    · rw [if_pos hsingle, hsingle]
    · rw [if_neg hsingle] at h
      rw [if_neg hsingle, Bool.eq_false_iff.mpr hsingle]
      split_ifs at h ⊢
      · exact absurd rfl h
      · rfl
      · exact absurd rfl h

/-! ## The bytes -/

/-- Where a rebroadcast may differ from the OGM that was received: `flags`, `ttl`, `tq` and `old_orig`. -/
def rewrittenBytes : List ℕ := [2, 3, 5, 14, 15, 16, 17, 18, 19]

theorem take_eq_map_getD {l : List Byte} {n : ℕ} (h : n ≤ l.length) :
    l.take n = (List.range n).map (l.getD · 0) := by
  refine List.ext_getElem (by simpa using h) fun i hi hi' => ?_
  have hlt : i < l.length := (List.length_take_le' n l).trans_lt' hi
  simp [hlt]

theorem BatmanPacket.bytes_read {buff : List Byte} (h : batmanPacketSize ≤ buff.length) :
    (BatmanPacket.read buff).bytes ++ buff.drop batmanPacketSize = buff := by
  have hbytes : (BatmanPacket.read buff).bytes = (List.range batmanPacketSize).map (buff.getD · 0) := by
    unfold BatmanPacket.bytes
    have hseqno : seqnoBytes (BatmanPacket.read buff).seqno = [buff.getD 6 0, buff.getD 7 0] :=
      seqnoBytes_readSeqno buff 6
    rw [hseqno]
    rfl
  rw [hbytes, ← take_eq_map_getD h, List.take_append_drop]

theorem BatmanPacket.getElem?_bytes_rewrite (pkt : BatmanPacket) (flags ttl tq : Byte) (oldOrig : Mac)
    {i : ℕ} (hi : i ∉ rewrittenBytes) :
    ({ pkt with flags := flags, ttl := ttl, tq := tq, oldOrig := oldOrig } : BatmanPacket).bytes[i]? =
      pkt.bytes[i]? := by
  by_cases hlt : i < batmanPacketSize
  · simp only [batmanPacketSize] at hlt
    interval_cases i
    all_goals first | rfl | exact absurd (by decide) hi
  · rw [List.getElem?_eq_none (by rw [BatmanPacket.length_bytes]; omega),
      List.getElem?_eq_none (by rw [BatmanPacket.length_bytes]; omega)]

/-! ## Rebroadcasts -/

variable {rest : List ForwNode} {now later : Time} {rnd : ℕ}

/-- A pass comes to the first packet first. -/
theorem State.transmitted_sendBegin (h : s.forwList = f :: rest) :
    (s.sendBegin now).transmitted (.sendNext later rnd) = if f.sendTime ≤ now then some f else none := by
  unfold State.sendBegin State.transmitted
  rw [h]
  simp only [List.head?_cons, Option.map_some, List.find?_cons_of_pos, decide_true]
  by_cases hdue : f.sendTime ≤ now
  · rw [if_pos hdue, Option.filter_some_pos (by simpa using hdue)]
  · rw [if_neg hdue, Option.filter_some_neg (by simpa using hdue)]

theorem State.sendNext_sendBegin (h : s.forwList = f :: rest) (hown : f.own = false)
    (hdue : f.sendTime ≤ now) :
    ∃ u, (s.sendBegin now).sendNext later rnd = some u ∧ u.forwList = rest := by
  have hafter : forwAfter s.forwList f.ptr = rest := by rw [h, forwAfter_cons]
  have hwalk : (s.sendBegin now).walk = some (now, some f.ptr) := by
    unfold State.sendBegin
    rw [h]
    rfl
  have hfind : (s.sendBegin now).forwList.find? (·.ptr = f.ptr) = some f := by
    show s.forwList.find? _ = _
    rw [h, List.find?_cons_of_pos (by simp)]
  unfold State.sendNext
  rw [hwalk]
  dsimp only
  rw [hfind]
  dsimp only
  rw [if_pos hdue, if_neg (by simp [hown])]
  exact ⟨_, rfl, hafter⟩

/-- A copy of the OGM in `frame`, which came in over `ifIncoming`. -/
structure Rebroadcasts (s : State p) (frame : Frame) (ifIncoming : ℕ) (c : ℕ × Frame) : Prop where
  length : c.2.packetBuff.length = frame.rawsockRead.length
  same : ∀ i, i ∉ rewrittenBytes → c.2.packetBuff[i]? = frame.rawsockRead[i]?
  oldOrig : (BatmanPacket.read c.2.packetBuff).oldOrig = frame.shost
  directlink : (BatmanPacket.read c.2.packetBuff).flags &&& directlink ≠ 0 ↔
    frame.shost = (BatmanPacket.read frame.rawsockRead).orig ∧ c.1 = ifIncoming
  dhost : c.2.dhost = broadcastAddr
  shost : ∃ batmanIf, s.ifList[c.1]? = some batmanIf ∧ c.2.shost = batmanIf.hwAddr

theorem Node.receivePacketBatiface_ogm_eq {node : Node p} {frame : Frame} {neigh : Mac}
    {packetBuff : List Byte} (h : (node.receivePacketBatiface g frame).ogm = some (neigh, packetBuff)) :
    neigh = frame.shost ∧ packetBuff = frame.rawsockRead := by
  unfold Node.receivePacketBatiface at h
  dsimp only at h
  split_ifs at h
  obtain ⟨rfl, rfl⟩ := Prod.mk.inj (Option.some.inj h)
  exact ⟨rfl, rfl⟩

/-- The packet that is queued for an OGM, with its own `tq` and `ttl`. -/
def Ogm.forwNode (rx : Ogm) (ptr : ℕ) (tq ttl : Byte) : ForwNode where
  ptr := ptr
  sendTime := rx.sendTime
  own := false
  pack :=
    { rx.pkt with
      flags := if rx.isSingleHopNeigh then directlink else 0
      ttl := ttl
      tq := tq
      oldOrig := rx.neigh }
  packHna := rx.hna
  ifOutgoing := rx.ifIncoming

theorem State.batmanOgm_queues (hhanded : (s.batmanOgm g rx).2 ≠ .dropped) (httl : 1 < rx.pkt.ttl.toNat) :
    ∃ ptr tq ttl, (s.batmanOgm g rx).1.ifList = s.ifList ∧
      (s.batmanOgm g rx).1.forwList = rx.forwNode ptr tq ttl :: s.forwList := by
  have hqueue := (State.SameQueue.counted s g rx).trans (.ranked (s.counted g rx) g rx)
  rw [State.batmanOgm_of_handed hhanded]
  generalize s.counted g rx = c at hqueue
  unfold Counted.forward
  obtain ⟨tq, hpkt⟩ := c.rate_pkt rx
  rw [State.scheduleForwardPacket_eq, hpkt, if_neg (not_le.mpr httl), ← hqueue.forwList]
  generalize hf : (c.ranked g rx).forwardNode g c.origNode rx.neigh { rx.pkt with tq := tq } rx.hna
    rx.isSingleHopNeigh rx.sendTime rx.ifIncoming = f
  refine ⟨f.ptr, f.pack.tq, f.pack.ttl, hqueue.ifList, ?_⟩
  rw [← hf]
  rfl

theorem rebroadcasts_of_bytes {frame : Frame} (hlong : batmanPacketSize ≤ frame.rawsockRead.length)
    {ifIncoming : ℕ} {c : ℕ × Frame} {batmanIf : BatmanIf} (hif : s.ifList[c.1]? = some batmanIf)
    {flags : Byte} (ttl tq : Byte)
    (hflags : flags = if frame.shost = (BatmanPacket.read frame.rawsockRead).orig ∧ c.1 = ifIncoming
      then directlink else 0)
    (hc : c.2 = ⟨broadcastAddr, batmanIf.hwAddr,
      { BatmanPacket.read frame.rawsockRead with
        flags := flags, ttl := ttl, tq := tq, oldOrig := frame.shost }.bytes ++
        frame.rawsockRead.drop batmanPacketSize⟩) : Rebroadcasts s frame ifIncoming c := by
  have hread := BatmanPacket.bytes_read hlong
  generalize hpkt : BatmanPacket.read frame.rawsockRead = pkt at hc hread hflags
  generalize frame.rawsockRead.drop batmanPacketSize = hna at hc hread
  have hbuff := congrArg Frame.packetBuff hc
  dsimp only at hbuff
  refine ⟨?_, fun i hi => ?_, ?_, ?_, congrArg Frame.dhost hc, batmanIf, hif, congrArg Frame.shost hc⟩
  · rw [hbuff, ← hread, List.length_append, List.length_append, BatmanPacket.length_bytes,
      BatmanPacket.length_bytes]
  · rw [hbuff, ← hread, List.getElem?_append, List.getElem?_append, BatmanPacket.length_bytes,
      BatmanPacket.length_bytes, BatmanPacket.getElem?_bytes_rewrite pkt flags ttl tq frame.shost hi]
  · rw [hbuff, BatmanPacket.read_bytes]
  · rw [hbuff, BatmanPacket.read_bytes, hpkt, hflags]
    dsimp only
    by_cases hdirect : frame.shost = pkt.orig ∧ c.1 = ifIncoming
    · rw [if_pos hdirect]
      exact iff_of_true (by decide) hdirect
    · rw [if_neg hdirect]
      exact iff_of_false (by decide) hdirect

/-- **Rebroadcasts.** For an OGM that is handed on in any state, one packet is queued. It is the first the
next pass comes to, and leaves the queue there. Each of its copies is the OGM that was received but for
`flags`, `ttl`, `tq` and `old_orig`, and has the direct link flag just where the OGM came from its originator
and the copy goes back on the same interface. There is one copy for each interface, or only that one. -/
theorem rebroadcast {node : Node p} {frame : Frame} {neigh : Mac} {packetBuff : List Byte}
    (hrecv : (node.receivePacketBatiface g frame).ogm = some (neigh, packetBuff)) (ifIncoming : ℕ)
    (hif : ifIncoming < node.state.ifList.length) (rcvdTime gwTime sendTime : Time)
    (hrx : rx = Ogm.read neigh ifIncoming packetBuff rcvdTime gwTime sendTime)
    (hhanded : (node.state.batmanOgm g rx).2 ≠ .dropped) (httl : 1 < rx.pkt.ttl.toNat) :
    ∃ f, (node.state.batmanOgm g rx).1.forwList = f :: node.state.forwList ∧
      (∀ now later rnd,
        ((node.state.batmanOgm g rx).1.sendBegin now).transmitted (.sendNext later rnd) =
          (if sendTime ≤ now then some f else none) ∧
        (sendTime ≤ now → ∃ u, ((node.state.batmanOgm g rx).1.sendBegin now).sendNext later rnd = some u ∧
          u.forwList = node.state.forwList)) ∧
      ∀ order,
        ((node.state.batmanOgm g rx).1.sendForw order f).map Prod.fst =
          (if frame.shost = (BatmanPacket.read frame.rawsockRead).orig ∧ f.pack.ttl = 1 then [ifIncoming]
            else List.range node.state.ifList.length) ∧
        ∀ c ∈ (node.state.batmanOgm g rx).1.sendForw order f,
          Rebroadcasts node.state frame ifIncoming c := by
  obtain ⟨hlong, -⟩ := Node.receivePacketBatiface_ogm hrecv
  obtain ⟨rfl, rfl⟩ := Node.receivePacketBatiface_ogm_eq hrecv
  obtain ⟨ptr, tq, ttl, hifList, hqueue⟩ := State.batmanOgm_queues hhanded httl
  generalize (node.state.batmanOgm g rx).1 = after at hifList hqueue
  have hin : rx.ifIncoming = ifIncoming := by rw [hrx]; rfl
  have hdirect : rx.isSingleHopNeigh = true ↔
      frame.shost = (BatmanPacket.read frame.rawsockRead).orig := by rw [hrx]; exact beq_iff_eq
  have hforwards : (rx.forwNode ptr tq ttl).Forwards after rx.isSingleHopNeigh := by
    refine ⟨rfl, rfl, ?_⟩
    show rx.ifIncoming < after.ifList.length
    rwa [hin, hifList]
  have hsend : (rx.forwNode ptr tq ttl).sendTime = sendTime := by rw [hrx]; rfl
  refine ⟨_, hqueue, fun now later rnd => ?_, fun order => ⟨?_, fun c hc => ?_⟩⟩
  · rw [← hsend]
    exact ⟨State.transmitted_sendBegin hqueue, State.sendNext_sendBegin hqueue rfl⟩
  · rw [hforwards.interfaces, hifList, ← hin]
    exact if_congr (and_congr_left' hdirect) rfl rfl
  · obtain ⟨batmanIf, hbatmanIf, heq⟩ := hforwards.copy hc
    rw [hifList] at hbatmanIf
    have hcopy : c.1 = (rx.forwNode ptr tq ttl).ifOutgoing ↔ c.1 = ifIncoming := by rw [← hin]; rfl
    refine rebroadcasts_of_bytes hlong hbatmanIf ttl tq (if_congr (and_congr hdirect hcopy) rfl rfl) ?_
    rw [heq, hrx]
    rfl

/-- `A` announces a host. -/
def Net.hostFrame : Frame where
  dhost := broadcastAddr
  shost := macA
  packetBuff := { (ogm macA macA 0 1 1100).pkt with numHna := 1 }.bytes ++ macC.bytes

def Net.hostOgm : Ogm := Ogm.read macA 1 hostFrame.rawsockRead 1100 1100 1100

/-- It goes out on both interfaces. -/
theorem rebroadcast_direct :
    let after := ((Net.cfg.boot Net.p64).batmanOgm (Net.zeros Net.p64) Net.hostOgm).1
    ∃ f, after.forwList.head? = some f ∧ ∀ order, (after.sendForw order f).map Prod.fst = [0, 1] ∧
      ∀ c ∈ after.sendForw order f, Rebroadcasts (Net.cfg.boot Net.p64) Net.hostFrame 1 c := by
  have hrecv : ((Node.mk (Net.cfg.boot Net.p64) fun _ => none).receivePacketBatiface (Net.zeros Net.p64)
      Net.hostFrame).ogm = some (Net.macA, Net.hostFrame.rawsockRead) :=
    Node.receivePacketBatiface_of_length (by decide +kernel) (by decide +kernel)
  obtain ⟨f, hqueue, -, hcopies⟩ := rebroadcast hrecv 1 (by decide +kernel) 1100 1100 1100
    (Eq.refl Net.hostOgm) (by decide +kernel) (by decide +kernel)
  have hhead : (((Net.cfg.boot Net.p64).batmanOgm (Net.zeros Net.p64) Net.hostOgm).1.forwList.head?.map
      (·.pack.ttl)) = some 49 := by decide +kernel
  rw [hqueue] at hhead
  have httl : f.pack.ttl = 49 := Option.some.inj hhead
  refine ⟨f, by rw [hqueue]; rfl, fun order => ⟨(hcopies order).1.trans ?_, (hcopies order).2⟩⟩
  rw [if_neg fun h => absurd (httl.symm.trans h.2) (by decide)]
  rfl

end BatmanAdv
