import BatmanAdv.Originator
import BatmanAdv.TransTable

/-!
# Counting, ranking and routing (`batman-adv.c`)

What `batman()` calls for a received OGM: the duplicate check and reception windows of
`count_real_packets`, the link quality of `isBidirectionalNeigh`, and `update_routes` and
`update_gw_list`, which `update_orig` and `purge_orig` call.
-/

namespace BatmanAdv

variable {p : Platform}

/-! ## Routes and announcements -/

/-- The part of `update_routes` about the router. -/
def OrigNode.setRouter (o : OrigNode p) (neighNode : Option (NeighNode p)) : OrigNode p :=
  if o.router ≠ neighNode.map (·.ptr) then
    -- route altered or new route added: where neither holds, `neigh_node` is `NULL`
    let o := match neighNode with
      | some n => { o with batmanIf := some n.ifIncoming, router := some n.ptr }
      | none => o
    { o with router := neighNode.map (·.ptr) }
  else o

/-- `debugMalloc`, `memcpy` and `hna_add_buff`. -/
def storeHna (hwAddrs : List Mac) (currTime : Time) (t : TransTable) (o : OrigNode p)
    (hnaRecvBuff : List Byte) (hnaBuffLen : ℕ) : TransTable × OrigNode p :=
  let o := { o with hnaBuff := some (hnaRecvBuff.take hnaBuffLen), hnaBuffLen := hnaBuffLen }
  (t.hnaAddBuff hwAddrs currTime o, o)

/-- The part of `update_routes` about the announced hosts. -/
def updateHna (hwAddrs : List Mac) (currTime : Time) (t : TransTable) (o : OrigNode p)
    (hnaRecvBuff : Option (List Byte)) (hnaBuffLen : ℕ) : TransTable × OrigNode p :=
  match hnaRecvBuff, o.hnaBuff with
  | none, none => (t, o)
  | some recv, none => storeHna hwAddrs currTime t o recv hnaBuffLen
  | none, some _ => t.hnaDelBuff o
  | some recv, some buff =>
    let changed :=
      if hnaBuffLen ≠ o.hnaBuffLen then true
      -- `memcmp` returns 0 where the bytes are the same
      else if recv.take hnaBuffLen = buff.take hnaBuffLen then true
      else false
    if changed then
      let (t, o) := t.hnaDelBuff o
      storeHna hwAddrs currTime t o recv hnaBuffLen
    else (t, o)

def updateRoutes (hwAddrs : List Mac) (currTime : Time) (t : TransTable) (origNode : OrigNode p)
    (neighNode : Option (NeighNode p)) (hnaRecvBuff : Option (List Byte)) (hnaBuffLen : ℕ) :
    TransTable × OrigNode p :=
  updateHna hwAddrs currTime t (origNode.setRouter neighNode) hnaRecvBuff hnaBuffLen

/-- The list with the first gateway of `origNode` changed, or a new one at the end; `now` is what
`get_time` returns. -/
def updateGwList (origNode : ℕ) (newGwflags : Byte) (now : Time) : List GwNode → List GwNode
  | [] => [{ origNode := origNode, unavailFactor := 0, lastFailure := now, deleted := 0 }]
  | gwNode :: gwList =>
    if gwNode.origNode = origNode then
      (if newGwflags = 0 then { gwNode with deleted := now } else { gwNode with deleted := 0 }) :: gwList
    else gwNode :: updateGwList origNode newGwflags now gwList

/-! ## Counting -/

/-- The window and the packet count of a neighbour after a packet `seqNumDiff` ahead of the newest;
`setMark` where the packet came via this neighbour. -/
def NeighNode.countPacket (front : ℕ → ℕ → p.Word) (n : NeighNode p) (seqNumDiff : ℤ)
    (setMark : Bool) : NeighNode p :=
  let realBits := (bitGetPacket (front n.ptr) n.realBits seqNumDiff setMark).1
  { n with realBits := realBits, realPacketCount := BitVec.ofNat 8 (bitPacketCount realBits) }

/-- Whether any neighbour delivered this sequence number before. -/
def OrigNode.isDuplicate (front : ℕ → ℕ → p.Word) (o : OrigNode p) (seqno : Seqno) : Bool :=
  o.neighList.any fun n => getBitStatus (front n.ptr) n.realBits o.lastRealSeqno seqno

def OrigNode.countPacket (front : ℕ → ℕ → p.Word) (o : OrigNode p) (neigh : Mac) (ifIncoming : ℕ)
    (seqno : Seqno) : OrigNode p :=
  { o with
    neighList := o.neighList.map fun n =>
      n.countPacket front (seqno - o.lastRealSeqno).toInt (n.isVia neigh ifIncoming)
    lastRealSeqno := if o.isDuplicate front seqno then o.lastRealSeqno else seqno }

namespace State

/-- Returns whether the packet is a duplicate. -/
def countRealPackets (s : State p) (g : Garbage p) (neigh : Mac) (pkt : BatmanPacket)
    (ifIncoming : ℕ) : State p × Bool :=
  let (s, origNode) := s.getOrigNode pkt.orig
  let isDuplicate := (s.origAt origNode).isDuplicate g.front pkt.seqno
  (s.modOrig origNode fun o => o.countPacket g.front neigh ifIncoming pkt.seqno, isDuplicate)

end State

/-! ## Link quality -/

/-- `tq_own` from the own broadcasts heard back (`bcastOwnSum`) and the packets received. -/
def tqOwnOf (bcastOwnSum realPacketCount : Byte) : Byte :=
  let totalCount := if bcastOwnSum.toNat > realPacketCount.toNat then realPacketCount else bcastOwnSum
  if totalCount.toNat < tqLocalBidrectSendMinimum ∨
      realPacketCount.toNat < tqLocalBidrectRecvMinimum then 0
  else BitVec.ofNat 8 ((tqMaxValue * totalCount.toNat) / realPacketCount.toNat)

/-- `tq_asym_penalty`: 1 - ((1-x)**3), normalized to `TQ_MAX_VALUE`. -/
def tqAsymPenaltyOf (realPacketCount : Byte) : ℤ :=
  let missing : ℤ := (tqLocalWindowSize : ℤ) - realPacketCount.toNat
  (tqMaxValue : ℤ) - ((tqMaxValue : ℤ) * missing * missing * missing).tdiv
    ((tqLocalWindowSize : ℤ) * tqLocalWindowSize * tqLocalWindowSize)

/-- `in->tq` after both penalties. -/
def penalizedTq (tq tqOwn : Byte) (tqAsymPenalty : ℤ) : Byte :=
  BitVec.ofInt 8
    (((tq.toNat : ℤ) * tqOwn.toNat * tqAsymPenalty).tdiv ((tqMaxValue : ℤ) * tqMaxValue))

/-- `neigh_node->last_valid = recv_time`. -/
def NeighNode.touch (n : NeighNode p) (recvTime : Time) : NeighNode p :=
  { n with lastValid := recvTime }

namespace State

/-- The neighbour `orig_neigh_node` is to itself on this interface, made where it is missing. -/
def selfNeighbor (s : State p) (origNeighNode ifIncoming : ℕ) : State p × NeighNode p :=
  let on := s.origAt origNeighNode
  match on.neighVia on.orig ifIncoming with
  | some n => (s, n)
  | none => s.createNeighbor origNeighNode origNeighNode on.orig ifIncoming

/-- Returns the packet with its new `tq` and whether the link is good enough. -/
def isBidirectionalNeigh (s : State p) (origNode origNeighNode : ℕ) (pkt : BatmanPacket)
    (recvTime : Time) (ifIncoming : ℕ) : State p × BatmanPacket × Bool :=
  -- both branches of the source look the neighbour up in the list of `orig_neigh_node`
  let (s, neighNode) := s.selfNeighbor origNeighNode ifIncoming
  let s :=
    if origNode = origNeighNode then
      s.modOrig origNode (·.modNeigh neighNode.ptr (·.touch recvTime))
    else s
  let s := s.modOrig origNode fun o => { o with lastValid := recvTime }
  let tqOwn := tqOwnOf ((s.origAt origNeighNode).bcastOwnSum ifIncoming) neighNode.realPacketCount
  let tqAsymPenalty := tqAsymPenaltyOf neighNode.realPacketCount
  let s := s.modOrig origNeighNode fun o =>
    { o with tqOwn := tqOwn, tqAsymPenalty := tqAsymPenalty }
  let pkt := { pkt with tq := penalizedTq pkt.tq tqOwn tqAsymPenalty }
  (s, pkt, decide (pkt.tq.toNat ≥ tqTotalBidrectLimit))

end State

end BatmanAdv
