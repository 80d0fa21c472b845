import BatmanAdv.Update

/-!
# Sending (`schedule.c`)

Packets wait in `forw_list` until they are due: own packets in the order of their `send_time`,
forwarded ones in front. `send_outstanding_packets` walks the list while it re-arms own packets into
it, so that one call is a sequence of steps here: `sendBegin`, and `sendNext` for each round of its
loop.
-/

namespace BatmanAdv

variable {p : Platform}

/-! ## Packets -/

/-- Inserts before the first packet that is due later, or at the end. -/
def insertForw (forwNode : ForwNode) : List ForwNode → List ForwNode
  | [] => [forwNode]
  | f :: forwList =>
    if f.sendTime.toNat > forwNode.sendTime.toNat then forwNode :: f :: forwList
    else f :: insertForw forwNode forwList

/-- The bookkeeping of own packets heard back, moved on by one. -/
def OrigNode.shiftBcastOwn (o : OrigNode p) (ifNum : ℕ) : OrigNode p :=
  -- a shift by one reads nothing in front of the window
  let bcastOwn := (bitGetPacket (fun _ => 0) (o.bcastOwn ifNum) 1 false).1
  { o with
    bcastOwn := Function.update o.bcastOwn ifNum bcastOwn
    bcastOwnSum := Function.update o.bcastOwnSum ifNum (BitVec.ofNat 8 (bitPacketCount bcastOwn)) }

/-- The `tq` and `ttl` of the rebroadcast, before the hop penalty. -/
def forwardTqTtl (g : Garbage p) (o : OrigNode p) (neigh : Mac) (pkt : BatmanPacket) : Byte × Byte :=
  match o.router with
  | some ptr =>
    let router := o.neighAt g ptr
    -- rebroadcast the ogm of the best ranking neighbor
    if router.tqAvg ≠ 0 ∧ router.addr ≠ neigh then (router.tqAvg, router.lastTtl - 1)
    else (pkt.tq, pkt.ttl - 1)
  | none => (pkt.tq, pkt.ttl - 1)

def penalizeHop (tq : Byte) : Byte :=
  BitVec.ofNat 8 (tq.toNat * (tqMaxValue - tqHopPenalty) / tqMaxValue)

/-- The list behind a node. -/
def forwAfter (forwList : List ForwNode) (ptr : ℕ) : List ForwNode :=
  (forwList.dropWhile fun f => f.ptr ≠ ptr).tail

namespace State

def outOf (s : State p) (ifNum : ℕ) : BatmanPacket :=
  match s.ifList[ifNum]? with
  | some batmanIf => batmanIf.out
  | none => ⟨0, 0, 0, 0, 0, 0, 0, zeroAddr, zeroAddr, 0, 0⟩

def modOut (s : State p) (ifNum : ℕ) (f : BatmanPacket → BatmanPacket) : State p :=
  { s with ifList := s.ifList.modify ifNum fun batmanIf => { batmanIf with out := f batmanIf.out } }

/-- `get_time() + originator_interval - JITTER + rand_num(2*JITTER)`. -/
def sendTimeOf (s : State p) (now : Time) (rnd : ℕ) : Time :=
  now + s.originatorInterval.signExtend 32 - jitter + BitVec.ofNat 32 rnd

def scheduleOwnPacket (s : State p) (ifNum : ℕ) (now : Time) (rnd : ℕ) : State p :=
  let forwNode : ForwNode :=
    { ptr := s.nextPtr
      sendTime := s.sendTimeOf now rnd
      own := true
      pack := s.outOf ifNum
      packHna := s.trans.hnaBuff.take (s.trans.numHna * 6)
      ifOutgoing := ifNum }
  let s := { s with forwList := insertForw forwNode s.forwList, nextPtr := s.nextPtr + 1 }
  let s := s.modOut ifNum fun out => { out with seqno := out.seqno + 1 }
  { s with origHash := s.origHash.map (·.shiftBcastOwn ifNum) }

def scheduleForwardPacket (s : State p) (g : Garbage p) (origNode : ℕ) (neigh : Mac)
    (pkt : BatmanPacket) (hna : List Byte) (directlinkFlag : Bool) (now : Time) (ifOutgoing : ℕ) :
    State p :=
  if pkt.ttl.toNat ≤ 1 then s
  else
    let (tq, ttl) := forwardTqTtl g (s.origAt origNode) neigh pkt
    let forwNode : ForwNode :=
      { ptr := s.nextPtr
        sendTime := now
        own := false
        pack :=
          { pkt with
            tq := penalizeHop tq
            ttl := ttl
            oldOrig := neigh
            flags := if directlinkFlag then directlink else 0 }
        packHna := hna
        ifOutgoing := ifOutgoing }
    { s with forwList := forwNode :: s.forwList, nextPtr := s.nextPtr + 1 }

/-! ## `send_outstanding_packets` -/

/-- Up to the loop; `now` is its `curr_time`. -/
def sendBegin (s : State p) (now : Time) : State p :=
  { s with walk := s.forwList.head?.map fun f => (now, some f.ptr) }

/-- One round of the loop. An own packet is re-armed with `get_time` returning `now` and `rand_num`
returning `rnd`. -/
def sendNext (s : State p) (now : Time) (rnd : ℕ) : Option (State p) :=
  match s.walk with
  | none => none
  | some (_, none) => some { s with walk := none }
  | some (currTime, some pos) =>
    match s.forwList.find? (·.ptr = pos) with
    | none => none
    | some forwNode =>
      if forwNode.sendTime ≤ currTime then
        -- `temp`, and `list_del` with the head as the predecessor of `forw_pos`
        let rest := forwAfter s.forwList pos
        let s := { s with forwList := rest, walk := some (currTime, rest.head?.map (·.ptr)) }
        some (if forwNode.own then s.scheduleOwnPacket forwNode.ifOutgoing now rnd else s)
      else some { s with walk := none }

end State

end BatmanAdv
