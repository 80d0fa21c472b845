import BatmanAdv.Lib.Trace
import BatmanAdv.Schedule

/-!
# The daemon (`batman-adv.c`, `posix-specific.c`)

`batman()` for one received OGM, the handling of broadcast and tap frames that changes the state, and
the daemon as a transition system: an event is one received frame or one of the periodic calls of the
main loop, in any order and at any clock reading.
-/

namespace BatmanAdv

variable {p : Platform}

/-- An OGM as `receive_packet` returns it, with the clock readings taken while it is processed. -/
structure Ogm where
  neigh : Mac
  ifIncoming : ℕ
  pkt : BatmanPacket
  /-- The bytes behind the header. -/
  hna : List Byte
  rcvdTime : Time
  gwTime : Time
  sendTime : Time
  deriving DecidableEq

/-- The parts of a `BAT_BCAST` frame the flood filter reads. -/
structure BcastFrame where
  shost : Mac
  payBuffLen : ℕ
  orig : Mac
  seqno : Seqno

/-- How `batman()` ends with an OGM: dropped, or handed to `schedule_forward_packet`. -/
inductive Handed where
  | dropped
  | singleHop
  | multihop
  deriving DecidableEq

/-! ## Received OGMs -/

def Ogm.isSingleHopNeigh (rx : Ogm) : Bool := rx.neigh == rx.pkt.orig

def Ogm.hasDirectlinkFlag (rx : Ogm) : Bool := rx.pkt.flags &&& directlink != 0

/-- After the duplicate check: the entries of the originator and of the sender. -/
structure Counted (p : Platform) where
  state : State p
  origNode : ℕ
  origNeighNode : ℕ
  isDuplicate : Bool

/-- After the link quality check, `pkt` with the `tq` it left. -/
structure Rated (p : Platform) where
  state : State p
  pkt : BatmanPacket
  isBidirectional : Bool

/-- An accepted broadcast frame enters the history of its originator. -/
def OrigNode.acceptBcast (front : ℕ → p.Word) (o : OrigNode p) (seqno : Seqno) : OrigNode p :=
  let (seqBits, isNew) := bitGetPacket front o.seqBits (seqno - o.lastBcastSeqno).toInt true
  { o with
    seqBits := seqBits
    lastBcastSeqno := if isNew then seqno else o.lastBcastSeqno }

namespace State

/-- An own OGM that comes back: only the direct rebroadcast of the last one sent counts. -/
def markOwnBcast (s : State p) (rx : Ogm) : State p :=
  let (s, origNeighNode) := s.getOrigNode rx.neigh
  if rx.hasDirectlinkFlag &&
      -- an `int`, so that the difference does not wrap
      ((rx.pkt.seqno.toNat : ℤ) - (s.outOf rx.ifIncoming).seqno.toNat + 2 == 0) then
    s.modOrig origNeighNode fun o =>
      let bcastOwn := bitMark (o.bcastOwn rx.ifIncoming) 0
      { o with
        bcastOwn := Function.update o.bcastOwn rx.ifIncoming bcastOwn
        bcastOwnSum := Function.update o.bcastOwnSum rx.ifIncoming
          (BitVec.ofNat 8 (bitPacketCount bcastOwn)) }
  else s

def countOgm (s : State p) (g : Garbage p) (rx : Ogm) : Counted p :=
  let (s, isDuplicate) := s.countRealPackets g rx.neigh rx.pkt rx.ifIncoming
  let (s, origNode) := s.getOrigNode rx.pkt.orig
  -- if the sender is a direct neighbor the sender mac equals the originator mac
  let (s, origNeighNode) :=
    if rx.isSingleHopNeigh then (s, origNode) else s.getOrigNode rx.neigh
  { state := s, origNode := origNode, origNeighNode := origNeighNode, isDuplicate := isDuplicate }

end State

/-- The sender is not a direct neighbor and there is no route towards it. -/
def Counted.unknownNeigh (c : Counted p) (rx : Ogm) : Bool :=
  !rx.isSingleHopNeigh && (c.state.origAt c.origNeighNode).router.isNone

def Counted.rate (c : Counted p) (rx : Ogm) : Rated p :=
  let (s, pkt, isBidirectional) :=
    c.state.isBidirectionalNeigh c.origNode c.origNeighNode rx.pkt rx.rcvdTime rx.ifIncoming
  { state := s, pkt := pkt, isBidirectional := isBidirectional }

/-- Update the ranking if it is not a duplicate or has the same seqno and similar ttl as the
non-duplicate. -/
def Counted.ranks (c : Counted p) (rx : Ogm) : Bool :=
  let r := c.rate rx
  let origNode := r.state.origAt c.origNode
  r.isBidirectional &&
    (!c.isDuplicate ||
      (origNode.lastRealSeqno == r.pkt.seqno &&
        decide ((origNode.lastTtl.toNat : ℤ) - 3 ≤ r.pkt.ttl.toNat)))

/-- The state `schedule_forward_packet` is called in. -/
def Counted.ranked (c : Counted p) (g : Garbage p) (rx : Ogm) : State p :=
  let r := c.rate rx
  if c.ranks rx then
    r.state.updateOrig g c.origNode rx.neigh r.pkt rx.ifIncoming rx.hna c.isDuplicate rx.rcvdTime
      rx.gwTime
  else r.state

/-- Whether and how the OGM goes on to `schedule_forward_packet`. -/
def Counted.handed (c : Counted p) (rx : Ogm) : Handed :=
  if c.unknownNeigh rx then .dropped
  else if rx.isSingleHopNeigh then .singleHop
  else if (c.rate rx).isBidirectional then if c.isDuplicate then .dropped else .multihop
  else .dropped

def Counted.forward (c : Counted p) (g : Garbage p) (rx : Ogm) (directlinkFlag : Bool) : State p :=
  (c.ranked g rx).scheduleForwardPacket g c.origNode rx.neigh (c.rate rx).pkt rx.hna directlinkFlag
    rx.sendTime rx.ifIncoming

/-- The rest of `batman()` after the duplicate check. -/
def Counted.finish (c : Counted p) (g : Garbage p) (rx : Ogm) : State p :=
  if c.unknownNeigh rx then c.state
  else
    match c.handed rx with
    | .singleHop => c.forward g rx true
    | .multihop => c.forward g rx false
    | .dropped => c.ranked g rx

namespace State

/-- An OGM of another node that is no rebroadcast of this one. -/
def processOgm (s : State p) (g : Garbage p) (rx : Ogm) : State p × Handed :=
  let c := s.countOgm g rx
  (c.finish g rx, c.handed rx)

/-- Why an OGM goes no further than its header, with what it does to the state. -/
inductive OgmCase where
  | ignored
  | ownOrig
  | noTq
  | process
  deriving DecidableEq

def ogmCase (s : State p) (rx : Ogm) : OgmCase :=
  let isMyAddr := isMyMac s.hwAddrs rx.neigh
  let isMyOrig := isMyMac s.hwAddrs rx.pkt.orig
  let isMyOldorig := isMyMac s.hwAddrs rx.pkt.oldOrig
  -- set in the loop over the interfaces
  let isBroadcast := s.ifList.any fun _ => rx.neigh == broadcastAddr
  if rx.pkt.version ≠ compatVersion then .ignored
  else if isMyAddr then .ignored
  else if isBroadcast then .ignored
  else if isMyOrig then .ownOrig
  else if rx.pkt.tq = 0 then .noTq
  else if isMyOldorig then .ignored
  else .process

/-- The body of the main loop of `batman()` for a received OGM. -/
def batmanOgm (s : State p) (g : Garbage p) (rx : Ogm) : State p × Handed :=
  let s := { s with currTime := rx.rcvdTime }
  match s.ogmCase rx with
  | .ignored => (s, .dropped)
  | .ownOrig => (s.markOwnBcast rx, .dropped)
  | .noTq => ((s.countRealPackets g rx.neigh rx.pkt rx.ifIncoming).1, .dropped)
  | .process => s.processOgm g rx

/-! ## Other frames -/

/-- The `BAT_BCAST` branch of `receive_packet_batiface`. Returns whether the frame is accepted, that is
written to the tap and rebroadcast. -/
def receiveBcast (s : State p) (g : Garbage p) (frame : BcastFrame) : State p × Bool :=
  if frame.shost = broadcastAddr then (s, false)
  else if frame.payBuffLen < bcastPacketSize then (s, false)
  else if isMyMac s.hwAddrs frame.shost then (s, false)
  else
    match s.findOrigNode frame.orig with
    | none => (s, false)
    | some o =>
      let front := g.front o.ptr
      if getBitStatus front o.seqBits o.lastBcastSeqno frame.seqno then (s, false)
      else (s.modOrig o.ptr (·.acceptBcast front frame.seqno), true)

/-- `((struct batman_if *)if_list.next)->hw_addr`. -/
def primary (s : State p) : Mac := (s.ifList.head?.map (·.hwAddr)).getD zeroAddr

def receiveTap (s : State p) (shost dhost : Mac) : State p :=
  let s := { s with trans := s.trans.hnaAdd s.hwAddrs s.currTime shost s.primary }
  let dhost := (s.trans.transtableSearch dhost).getD broadcastAddr
  if isBroadcastAddress dhost || isMulticastAddress dhost then
    { s with
      ifList := s.ifList.modify 0 fun batmanIf =>
        { batmanIf with bcastSeqno := batmanIf.bcastSeqno + 1 } }
  else s

def hnaUpdate (s : State p) : State p :=
  let (trans, announced) := s.trans.hnaUpdate s.currTime p s.tapMtu s.primary
  let s := { s with trans := trans }
  match announced with
  | some numHna => s.modOut 0 fun out => { out with numHna := BitVec.ofNat 8 numHna }
  | none => s

end State

/-! ## The transition system -/

/-- What happens to the daemon. Clock readings and what freed memory holds come with the event. -/
inductive Event (p : Platform) where
  | ogm (g : Garbage p) (rx : Ogm)
  | bcast (g : Garbage p) (frame : BcastFrame)
  | tap (shost dhost : Mac)
  | clock (now : Time)
  | hnaUpdate
  | purge (g : Garbage p) (currTime gwTime : Time)
  | sendBegin (now : Time)
  | sendNext (now : Time) (rnd : ℕ)

/-- Frames come in over an interface of the node, in a buffer of 2000 bytes. -/
def Ogm.Receivable (s : State p) (rx : Ogm) : Prop :=
  rx.ifIncoming < s.ifList.length ∧ batmanPacketSize + rx.hna.length < 2000

instance (s : State p) (rx : Ogm) : Decidable (rx.Receivable s) := inferInstanceAs (Decidable (_ ∧ _))

/-- One step of the main loop. Nothing else happens inside `send_outstanding_packets`. -/
def step (s : State p) (e : Event p) : Option (State p) :=
  match e with
  | .sendNext now rnd => if rnd < 2 * jitter.toNat then s.sendNext now rnd else none
  | e =>
    if s.walk.isSome then none
    else
      match e with
      | .ogm g rx => if rx.Receivable s then some (s.batmanOgm g rx).1 else none
      | .bcast g frame => some (s.receiveBcast g frame).1
      | .tap shost dhost => some (s.receiveTap shost dhost)
      | .clock now => some { s with currTime := now }
      | .hnaUpdate => some s.hnaUpdate
      | .purge g currTime gwTime => some (s.purgeOrig g currTime gwTime)
      | .sendBegin now => some (s.sendBegin now)
      | .sendNext _ _ => none

/-- The steps, one case for each event. -/
inductive Stepped (s : State p) : Event p → State p → Prop
  | ogm (g : Garbage p) (rx : Ogm) (hwalk : s.walk = none) (hrx : rx.Receivable s) :
      Stepped s (.ogm g rx) (s.batmanOgm g rx).1
  | bcast (g : Garbage p) (frame : BcastFrame) (hwalk : s.walk = none) :
      Stepped s (.bcast g frame) (s.receiveBcast g frame).1
  | tap (shost dhost : Mac) (hwalk : s.walk = none) :
      Stepped s (.tap shost dhost) (s.receiveTap shost dhost)
  | clock (now : Time) (hwalk : s.walk = none) : Stepped s (.clock now) { s with currTime := now }
  | hnaUpdate (hwalk : s.walk = none) : Stepped s .hnaUpdate s.hnaUpdate
  | purge (g : Garbage p) (currTime gwTime : Time) (hwalk : s.walk = none) :
      Stepped s (.purge g currTime gwTime) (s.purgeOrig g currTime gwTime)
  | sendBegin (now : Time) (hwalk : s.walk = none) : Stepped s (.sendBegin now) (s.sendBegin now)
  | sendNext (now : Time) (rnd : ℕ) (s' : State p) (hrnd : rnd < 2 * jitter.toNat)
      (hnext : s.sendNext now rnd = some s') : Stepped s (.sendNext now rnd) s'

theorem stepped {s s' : State p} {e : Event p} (h : step s e = some s') : Stepped s e s' := by
  have hwalk : ∀ {t : Option (State p)}, (if s.walk.isSome then none else t) = some s' →
      s.walk = none ∧ t = some s' := by
    intro t ht
    split_ifs at ht with hw
    exact ⟨by simpa using hw, ht⟩
  cases e with
  | sendNext now rnd =>
    simp only [step] at h
    split_ifs at h with hrnd
    exact .sendNext now rnd s' hrnd h
  | ogm g rx =>
    obtain ⟨hw, ht⟩ := hwalk h
    split_ifs at ht with hrx
    cases ht
    exact .ogm g rx hw hrx
  | bcast g frame =>
    obtain ⟨hw, ht⟩ := hwalk h
    cases ht
    exact .bcast g frame hw
  | tap shost dhost =>
    obtain ⟨hw, ht⟩ := hwalk h
    cases ht
    exact .tap shost dhost hw
  | clock now =>
    obtain ⟨hw, ht⟩ := hwalk h
    cases ht
    exact .clock now hw
  | hnaUpdate =>
    obtain ⟨hw, ht⟩ := hwalk h
    cases ht
    exact .hnaUpdate hw
  | purge g currTime gwTime =>
    obtain ⟨hw, ht⟩ := hwalk h
    cases ht
    exact .purge g currTime gwTime hw
  | sendBegin now =>
    obtain ⟨hw, ht⟩ := hwalk h
    cases ht
    exact .sendBegin now hw

/-- What the daemon is started with: its interfaces, the first one being the primary, its options, and
what `get_time` and `rand_num` return while the first own packets are scheduled. -/
structure Config where
  primary : Mac
  secondary : List Mac
  /-- `-o`, a positive `int16_t`. -/
  originatorInterval : BitVec 16
  originatorInterval_pos : 0 < originatorInterval.toInt
  gatewayClass : Byte
  tapMtu : ℤ
  now : ℕ → Time
  rnd : ℕ → ℕ
  rnd_lt : ∀ i, rnd i < 2 * jitter.toNat

namespace Config

variable (cfg : Config)

def hwAddrs : List Mac := cfg.primary :: cfg.secondary

def batmanIf (hwAddr : Mac) : BatmanIf where
  hwAddr := hwAddr
  bcastSeqno := 1
  out :=
    { packetType := batPacket
      version := compatVersion
      flags := 0
      ttl := ttlInit
      gwflags := cfg.gatewayClass
      tq := BitVec.ofNat 8 tqMaxValue
      seqno := 1
      orig := hwAddr
      oldOrig := hwAddr
      numHna := 0
      pad := 0 }

def start (p : Platform) : State p where
  ifList := cfg.hwAddrs.map cfg.batmanIf
  origHash := hashNew 128
  trans :=
    { transHash := hashNew 0, hnaLists := fun _ => [], hnaChanged := false, numHna := 0,
      hnaBuff := [], nextElem := 0 }
  gwList := []
  forwList := []
  walk := none
  nextPtr := 0
  currTime := 0
  originatorInterval := cfg.originatorInterval
  tapMtu := cfg.tapMtu

/-- One `schedule_own_packet` for each interface. -/
def scheduled (p : Platform) : State p :=
  (List.range cfg.hwAddrs.length).foldl
    (fun s ifNum => s.scheduleOwnPacket ifNum (cfg.now ifNum) (cfg.rnd ifNum)) (cfg.start p)

/-- **The state `batman()` enters its main loop in.** -/
def boot (p : Platform) : State p :=
  { cfg.scheduled p with trans := transtableInit cfg.hwAddrs 0 cfg.primary }

end Config

abbrev Run (p : Platform) (cfg : Config) (tr : List (State p × Event p)) (s : State p) : Prop :=
  Transition.Trace step (cfg.boot p) tr s

end BatmanAdv
