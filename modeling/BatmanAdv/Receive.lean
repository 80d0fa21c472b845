import BatmanAdv.Batman
import BatmanAdv.Frame

/-!
# Payload traffic (`posix-specific.c`)

`receive_packet_tap`, `receive_packet_batiface` and `handle_packet`, for one frame of the tap, one frame
of an interface and one message of a unix client: what they change and what they write. A write to a
socket is one output; one that fails is a frame that gets lost.
-/

namespace BatmanAdv

variable {p : Platform}

structure UnixClient where
  sock : ℕ
  uid : Byte
  deriving DecidableEq

/-- A daemon with its `unix_packet`. -/
structure Node (p : Platform) where
  state : State p
  unixPacket : Byte → Option UnixClient

/-- A write to a raw socket, to `tap_sock` or to the socket of a unix client. -/
inductive Output where
  | rawsockWrite (frame : Frame)
  | tapWrite (buff : List Byte)
  | unixWrite (sock : ℕ) (buff : List Byte)
  deriving DecidableEq

def Output.sent : Output → Option Frame
  | .rawsockWrite frame => some frame
  | .tapWrite _ => none
  | .unixWrite _ _ => none

/-- What `receive_packet_tap` reads of a frame of the tap; there is room for a header in front of it. -/
def tapRead (tapFrame : List Byte) : List Byte :=
  tapFrame.take (packetBuffLen - 1 - batmanMaxpacketsize)

def transmits (_ : Option Frame) (out : Output) : Bool := out.sent.isSome

namespace State

/-! ## Routing -/

def hwAddrOf (s : State p) (ifNum : ℕ) : Mac := (s.ifList[ifNum]?.map (·.hwAddr)).getD zeroAddr

/-- `find_orig_node( addr )` with its `batman_if` and its `router`, none of them `NULL`: the addresses a
frame sent there leaves from and goes to. -/
def route (s : State p) (g : Garbage p) (addr : Mac) : Option (Mac × Mac) :=
  match s.findOrigNode addr with
  | none => none
  | some origNode =>
    match origNode.batmanIf, origNode.router with
    | some batmanIf, some router => some (s.hwAddrOf batmanIf, (origNode.neighAt g router).addr)
    | _, _ => none

/-- `packet_buff` on the way to `addr`, if there is one. -/
def sendTowards (s : State p) (g : Garbage p) (addr : Mac) (packetBuff : List Byte) : List Output :=
  match s.route g addr with
  | some (hwAddr, router) => [.rawsockWrite ⟨router, hwAddr, packetBuff⟩]
  | none => []

theorem sendTowards_cases (s : State p) (g : Garbage p) (addr : Mac) (packetBuff : List Byte) :
    s.sendTowards g addr packetBuff = [] ∨
      ∃ hwAddr router, s.sendTowards g addr packetBuff = [.rawsockWrite ⟨router, hwAddr, packetBuff⟩] := by
  unfold sendTowards
  split
  · next hwAddr router _ => exact .inr ⟨hwAddr, router, rfl⟩
  · exact .inl rfl

/-! ## Frames of the tap -/

def receivePacketTap (s : State p) (g : Garbage p) (tapFrame : List Byte) : State p × List Output :=
  let payload := tapRead tapFrame
  let etherDhost := Mac.read payload 0
  let etherShost := Mac.read payload 6
  let s' := s.receiveTap etherShost etherDhost
  -- `BROADCAST_UNKNOWN_DEST` is defined
  let dhost := (s'.trans.transtableSearch etherDhost).getD broadcastAddr
  if payload = [] then (s, [])
  else if isBroadcastAddress dhost || isMulticastAddress dhost then
    let bcastPacket : BcastPacket :=
      { packetType := batBcast
        version := compatVersion
        orig := s.primary
        seqno := (s.ifList.head?.map (·.bcastSeqno)).getD 0 }
    (s', s.ifList.map fun batmanIf =>
      .rawsockWrite ⟨broadcastAddr, batmanIf.hwAddr, bcastPacket.bytes ++ payload⟩)
  else
    let unicastPacket : UnicastPacket :=
      { packetType := batUnicast
        version := compatVersion
        ttl := ttlInit
        dest := dhost }
    (s', s'.sendTowards g dhost (unicastPacket.bytes ++ payload))

end State

/-! ## Frames of an interface -/

theorem two_le_ttl {ttl : Byte} (h : ¬ ttl < 2) : 2 ≤ ttl.toNat := by
  rw [BitVec.lt_def] at h
  exact Nat.le_of_not_lt h

theorem toNat_ttl_sub_one {ttl : Byte} (h : 2 ≤ ttl.toNat) : (ttl - 1).toNat = ttl.toNat - 1 := by
  rw [BitVec.toNat_sub_of_le]
  · rfl
  · rw [BitVec.le_def]
    exact (by decide : (1#8).toNat ≤ 2).trans h

namespace State

/-- The `BAT_UNICAST` branch of `receive_packet_batiface`. -/
def receiveUnicast (s : State p) (g : Garbage p) (frame : Frame) : List Output :=
  let packetBuff := frame.rawsockRead
  if frame.dhost = broadcastAddr then []
  else if frame.shost = broadcastAddr then []
  else if packetBuff.length < unicastPacketSize then []
  else
    let unicastPacket := UnicastPacket.read packetBuff
    if isMyMac s.hwAddrs unicastPacket.dest then [.tapWrite (packetBuff.drop unicastPacketSize)]
    else if unicastPacket.ttl < 2 then []
    else
      s.sendTowards g unicastPacket.dest
        ({ unicastPacket with ttl := unicastPacket.ttl - 1 }.write packetBuff)

/-- An echo request goes back to where it comes from, as a packet of type `msgType`. -/
def answerIcmp (s : State p) (g : Garbage p) (frame : Frame) (msgType : Byte) : List Output :=
  let packetBuff := frame.rawsockRead
  let icmpPacket := IcmpPacket.read packetBuff
  s.sendTowards g icmpPacket.orig
    ({ icmpPacket with
        dst := icmpPacket.orig
        orig := frame.dhost
        msgType := msgType
        ttl := ttlInit }.write packetBuff)

end State

/-- The `BAT_ICMP` branch of `receive_packet_batiface`. -/
def Node.receiveIcmp (node : Node p) (g : Garbage p) (frame : Frame) : List Output :=
  let packetBuff := frame.rawsockRead
  if frame.dhost = broadcastAddr then []
  else if frame.shost = broadcastAddr then []
  else if packetBuff.length < icmpPacketSize then []
  else
    let icmpPacket := IcmpPacket.read packetBuff
    if isMyMac node.state.hwAddrs icmpPacket.dst then
      if icmpPacket.msgType = echoRequest then node.state.answerIcmp g frame echoReply
      else
        match node.unixPacket icmpPacket.uid with
        | some unixClient => [.unixWrite unixClient.sock (packetBuff.take icmpPacketSize)]
        | none => []
    else if icmpPacket.ttl < 2 then
      if icmpPacket.msgType = echoRequest then node.state.answerIcmp g frame ttlExceeded else []
    else
      node.state.sendTowards g icmpPacket.dst
        ({ icmpPacket with ttl := icmpPacket.ttl - 1 }.write packetBuff)

/-- What an accepted broadcast frame is written to: the tap, and every interface. -/
def State.rebroadcast (s : State p) (frame : Frame) : List Output :=
  .tapWrite (frame.rawsockRead.drop bcastPacketSize) ::
    s.ifList.map fun batmanIf => .rawsockWrite ⟨frame.dhost, batmanIf.hwAddr, frame.rawsockRead⟩

/-- What a frame that is read from an interface leads to. -/
structure Received (p : Platform) where
  node : Node p
  outs : List Output
  /-- An OGM for `batman()`: its `neigh` and its bytes. -/
  ogm : Option (Mac × List Byte)

/-- `receive_packet_batiface`, for one frame it reads. A wrong version is logged only. -/
def Node.receivePacketBatiface (node : Node p) (g : Garbage p) (frame : Frame) : Received p :=
  let packetBuff := frame.rawsockRead
  let packetType := packetBuff.getD 0 0
  if packetBuff.length < 2 then ⟨node, [], none⟩
  else if packetType = batPacket then
    if packetBuff.length < batmanPacketSize then ⟨node, [], none⟩
    else ⟨node, [], some (frame.shost, packetBuff)⟩
  else if packetType = batUnicast then ⟨node, node.state.receiveUnicast g frame, none⟩
  else if packetType = batIcmp then ⟨node, node.receiveIcmp g frame, none⟩
  else if packetType = batBcast then
    let bcastPacket := BcastPacket.read packetBuff
    let (s, accepted) := node.state.receiveBcast g
      { shost := frame.shost
        payBuffLen := packetBuff.length
        orig := bcastPacket.orig
        seqno := bcastPacket.seqno }
    ⟨{ node with state := s }, if accepted then node.state.rebroadcast frame else [], none⟩
  else ⟨node, [], none⟩

/-! ## Messages of unix clients -/

def State.handlePacket (s : State p) (g : Garbage p) (unixClient : UnixClient) (buff : List Byte) :
    List Output :=
  let icmpPacket := IcmpPacket.read buff
  if icmpPacket.packetType = batIcmp ∧ icmpPacket.msgType = echoRequest then
    match s.route g icmpPacket.dst with
    | some (hwAddr, router) =>
      if 0 < icmpPacket.ttl then
        [.rawsockWrite
          ⟨router, hwAddr, { icmpPacket with uid := unixClient.uid, orig := hwAddr }.write buff⟩]
      else [.unixWrite unixClient.sock ({ icmpPacket with msgType := destinationUnreachable }.write buff)]
    | none =>
      [.unixWrite unixClient.sock ({ icmpPacket with msgType := destinationUnreachable }.write buff)]
  else []

end BatmanAdv
