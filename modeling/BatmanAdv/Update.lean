import BatmanAdv.Routes

/-!
# Ranking neighbours and purging (`originator.c`)

`update_orig` ranks the neighbours of an originator by `tq_avg` after an OGM, and `purge_orig` drops
what has not been heard for `PURGE_TIMEOUT`. Both end in `update_routes`.
-/

namespace BatmanAdv

variable {p : Platform}

/-! ## `update_orig` -/

/-- `ring_buffer_set` and `ring_buffer_avg`. -/
def NeighNode.pushTq (n : NeighNode p) (value : Byte) : NeighNode p :=
  let (tqRecv, tqIndex) := ringBufferSet n.tqRecv n.tqIndex value
  { n with tqRecv := tqRecv, tqIndex := tqIndex, tqAvg := ringBufferAvg tqRecv }

/-- What `update_orig` writes to the neighbour the packet came via. -/
def NeighNode.receive (n : NeighNode p) (pkt : BatmanPacket) (isDuplicate : Bool)
    (rcvdTime : Time) : NeighNode p :=
  let n := { n with lastValid := rcvdTime }
  let n := n.pushTq pkt.tq
  if isDuplicate then n else { n with lastTtl := pkt.ttl }

/-- `max_tq`, `max_bcast_own` and `best_neigh_node`. -/
structure Rank (p : Platform) where
  maxTq : Byte
  maxBcastOwn : Byte
  best : Option (NeighNode p)

/-- A better tq value, the same one but more of our packets heard back, or the same one and already
the router; `bcastOwnSum` is by originator entry. -/
def Rank.consider (router : Option ℕ) (bcastOwnSum : ℕ → Byte) (r : Rank p) (n : NeighNode p) :
    Rank p :=
  if n.tqAvg.toNat > r.maxTq.toNat ∨
      (n.tqAvg = r.maxTq ∧ (bcastOwnSum n.origNode).toNat > r.maxBcastOwn.toNat) ∨
      (router = some n.ptr ∧ n.tqAvg = r.maxTq) then
    ⟨n.tqAvg, bcastOwnSum n.origNode, some n⟩
  else r

/-- What `update_routes` writes to an entry, as in `o'`. -/
def OrigNode.withRoutes (o o' : OrigNode p) : OrigNode p :=
  { o with
    router := o'.router
    batmanIf := o'.batmanIf
    hnaBuff := o'.hnaBuff
    hnaBuffLen := o'.hnaBuffLen }

/-- What `update_orig` writes to the entry and to the neighbour `neighNode` the packet came via. -/
def OrigNode.receive (o : OrigNode p) (neighNode : ℕ) (pkt : BatmanPacket) (isDuplicate : Bool)
    (rcvdTime : Time) : OrigNode p :=
  { o.modNeigh neighNode (·.receive pkt isDuplicate rcvdTime) with
    lastTtl := if isDuplicate then o.lastTtl else pkt.ttl }

/-- The neighbours the packet did not come via missed it. -/
def OrigNode.pushZero (o : OrigNode p) (neigh : Mac) (ifIncoming : ℕ) (isDuplicate : Bool) :
    OrigNode p :=
  { o with
    neighList := o.neighList.map fun n =>
      if n.isVia neigh ifIncoming || isDuplicate then n else n.pushTq 0 }

/-- The HNA bytes that are there and that `num_hna` announces. -/
def tmpHnaBuffLen (hnaBuffLen : ℕ) (numHna : Byte) : ℕ :=
  if hnaBuffLen > numHna.toNat * ethAlen then numHna.toNat * ethAlen else hnaBuffLen

namespace State

/-- `update_routes` on a live entry. -/
def updateRoutes (s : State p) (origNode : ℕ) (neighNode : Option (NeighNode p))
    (hnaRecvBuff : Option (List Byte)) (hnaBuffLen : ℕ) : State p :=
  let (trans, o') := BatmanAdv.updateRoutes s.hwAddrs s.currTime s.trans (s.origAt origNode) neighNode
    hnaRecvBuff hnaBuffLen
  { s.modOrig origNode (·.withRoutes o') with trans := trans }

/-- In the loop of `update_orig`: the rank among the other neighbours. -/
def rankOthers (s : State p) (g : Garbage p) (origNode : ℕ) (neigh : Mac) (ifIncoming : ℕ) : Rank p :=
  let o := s.origAt origNode
  (o.neighList.filter fun n => !n.isVia neigh ifIncoming).foldl
    (Rank.consider o.router fun ptr => s.bcastOwnSum g ptr ifIncoming) ⟨0, 0, none⟩

/-- The neighbour the packet came via, created where it is missing. -/
def viaNeighbor (s : State p) (origNode : ℕ) (neigh : Mac) (ifIncoming : ℕ) :
    State p × NeighNode p :=
  match (s.origAt origNode).neighVia neigh ifIncoming with
  | some n => (s, n)
  | none =>
    let (s, origNeighNode) := s.getOrigNode neigh
    s.createNeighbor origNode origNeighNode neigh ifIncoming

/-- `update_orig` up to `update_routes`. -/
def rankNeighbors (s : State p) (g : Garbage p) (origNode : ℕ) (neigh : Mac) (pkt : BatmanPacket)
    (ifIncoming : ℕ) (isDuplicate : Bool) (rcvdTime : Time) : State p × Rank p :=
  -- the loop over the neighbours: its ring buffers, then its ranking
  let s := s.modOrig origNode (·.pushZero neigh ifIncoming isDuplicate)
  let rank := s.rankOthers g origNode neigh ifIncoming
  let (s, neighNode) := s.viaNeighbor origNode neigh ifIncoming
  let s := s.modOrig origNode (·.receive neighNode.ptr pkt isDuplicate rcvdTime)
  let rank := rank.consider (s.origAt origNode).router (fun ptr => s.bcastOwnSum g ptr ifIncoming)
    (neighNode.receive pkt isDuplicate rcvdTime)
  (s, rank)

def setGwflags (s : State p) (origNode : ℕ) (gwflags : Byte) (gwTime : Time) : State p :=
  let s :=
    if (s.origAt origNode).gwflags ≠ gwflags then
      { s with gwList := updateGwList origNode gwflags gwTime s.gwList }
    else s
  s.modOrig origNode fun o => { o with gwflags := gwflags }

def updateOrig (s : State p) (g : Garbage p) (origNode : ℕ) (neigh : Mac) (pkt : BatmanPacket)
    (ifIncoming : ℕ) (hnaRecvBuff : List Byte) (isDuplicate : Bool) (rcvdTime gwTime : Time) :
    State p :=
  let (s, rank) := s.rankNeighbors g origNode neigh pkt ifIncoming isDuplicate rcvdTime
  let s := s.updateRoutes origNode rank.best (some hnaRecvBuff)
    (tmpHnaBuffLen hnaRecvBuff.length pkt.numHna)
  s.setGwflags origNode pkt.gwflags gwTime

end State

/-! ## `purge_orig` -/

/-- `( last_valid + PURGE_TIMEOUT ) < curr_time`. -/
def expired (lastValid currTime : Time) : Bool := lastValid + purgeTimeout < currTime

/-- What a pointer to a neighbour reads: one of the list, or freed memory. -/
def OrigNode.neighAt (g : Garbage p) (o : OrigNode p) (ptr : ℕ) : NeighNode p :=
  (o.neighList.find? (·.ptr = ptr)).getD (g.neigh ptr)

/-- The first neighbour with the highest `tq_avg`. -/
def bestNeighNode (neighList : List (NeighNode p)) : Option (NeighNode p) :=
  neighList.foldl (fun best n =>
    match best with
    | none => some n
    | some b => if n.tqAvg.toNat > b.tqAvg.toNat then some n else some b) none

/-- The gateway of a purged originator, marked as deleted. -/
def deleteGw (origNode : ℕ) (now : Time) : List GwNode → List GwNode
  | [] => []
  | gwNode :: gwList =>
    if gwNode.deleted = 0 ∧ gwNode.origNode = origNode then { gwNode with deleted := now } :: gwList
    else gwNode :: deleteGw origNode now gwList

/-- The neighbours that have not expired. -/
def OrigNode.keptNeighs (currTime : Time) (o : OrigNode p) : List (NeighNode p) :=
  o.neighList.filter fun n => !expired n.lastValid currTime

/-- Whether `purge_orig` calls `update_routes` for an entry it keeps: a neighbour was purged, and none
is left, or there is no router, or the best one left is better than the router. -/
def OrigNode.reroutes (g : Garbage p) (currTime : Time) (o : OrigNode p) : Bool :=
  let neighPurged := o.neighList.any fun n => expired n.lastValid currTime
  neighPurged &&
    match bestNeighNode (o.keptNeighs currTime), o.router with
    | none, _ => true
    | some _, none => true
    | some best, some router =>
      -- the router may just have been freed
      let o := { o with neighList := o.keptNeighs currTime }
      decide (best.tqAvg.toNat > (o.neighAt g router).tqAvg.toNat)

namespace State

/-- One round of the loop of `purge_orig`: the entry has expired. -/
def purgeExpired (s : State p) (origNode : ℕ) (gwTime : Time) : State p :=
  let o := s.origAt origNode
  { s with
    origHash := hashRemoveBucket s.origHash (chooseOrig o.orig s.origHash.size) (·.ptr = origNode)
    gwList := deleteGw origNode gwTime s.gwList
    trans := (BatmanAdv.updateRoutes s.hwAddrs s.currTime s.trans { o with neighList := [] } none none
      0).1 }

/-- One round of the loop of `purge_orig`: the entry stays, some of its neighbours may not. The stored
announcement is a value here; the buffer it is in is freed by `update_routes` and then read (`HnaMem`). -/
def purgeNeighbors (s : State p) (g : Garbage p) (currTime : Time) (origNode : ℕ) : State p :=
  let o := s.origAt origNode
  let s := s.modOrig origNode fun o => { o with neighList := o.keptNeighs currTime }
  if o.reroutes g currTime then
    s.updateRoutes origNode (bestNeighNode (o.keptNeighs currTime)) o.hnaBuff o.hnaBuffLen
  else s

def purgeOrigNode (s : State p) (g : Garbage p) (currTime gwTime : Time) (origNode : ℕ) : State p :=
  if expired (s.origAt origNode).lastValid currTime then s.purgeExpired origNode gwTime
  else s.purgeNeighbors g currTime origNode

/-- `hash_iterate` visits the entries that were there at the start. -/
def purgeOrig (s : State p) (g : Garbage p) (currTime gwTime : Time) : State p :=
  let s := (s.origs.map (·.ptr)).foldl (fun s ptr => s.purgeOrigNode g currTime gwTime ptr) s
  { s with
    gwList := s.gwList.filter fun gwNode =>
      !decide (gwNode.deleted ≠ 0 ∧ gwNode.deleted + 3 * purgeTimeout < currTime) }

end State

end BatmanAdv
