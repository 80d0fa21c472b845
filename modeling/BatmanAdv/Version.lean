import BatmanAdv.Receive
import BatmanAdv.Reachable

/-!
# Frames of another version

A frame on its way through `receive_packet_batiface` and, if it is an OGM, through `batman()`. An OGM of
another version is dropped by `batman()`. For the other packet types the version is compared and the
frame reported as dropped, but it is handled all the same: what is dropped is what any version would be.
-/

namespace BatmanAdv

open Transition

variable {p : Platform} {node : Node p} {g : Garbage p} {frame : Frame}

/-! ## The way of a frame -/

/-- Where a frame comes in, and the clock readings taken while an OGM is processed. -/
structure Arrival where
  ifIncoming : ℕ
  rcvdTime : Time
  gwTime : Time
  sendTime : Time

variable {arrival : Arrival}

/-- `neigh`, `in` and `in_len` as `batman()` reads them. -/
def Arrival.ogm (arrival : Arrival) (neigh : Mac) (packetBuff : List Byte) : Ogm where
  neigh := neigh
  ifIncoming := arrival.ifIncoming
  pkt := BatmanPacket.read packetBuff
  hna := packetBuff.drop batmanPacketSize
  rcvdTime := arrival.rcvdTime
  gwTime := arrival.gwTime
  sendTime := arrival.sendTime

/-- The parts of a `BAT_BCAST` frame the flood filter reads, from its bytes. -/
def Frame.bcast (frame : Frame) : BcastFrame where
  shost := frame.shost
  payBuffLen := frame.rawsockRead.length
  orig := (BcastPacket.read frame.rawsockRead).orig
  seqno := (BcastPacket.read frame.rawsockRead).seqno

/-- `receive_packet_batiface` for one frame, then `batman()` if it returns an OGM. -/
def Node.processFrame (node : Node p) (g : Garbage p) (arrival : Arrival) (frame : Frame) :
    Node p × List Output :=
  let r := node.receivePacketBatiface g frame
  match r.ogm with
  | none => (r.node, r.outs)
  | some (neigh, packetBuff) =>
    ({ r.node with state := (r.node.state.batmanOgm g (arrival.ogm neigh packetBuff)).1 }, r.outs)

/-- The frame changes nothing but the clock, and nothing is written. -/
def Node.Ignores (node : Node p) (g : Garbage p) (arrival : Arrival) (frame : Frame) : Prop :=
  (∃ now, (node.processFrame g arrival frame).1 =
    { node with state := { node.state with currTime := now } }) ∧
    (node.processFrame g arrival frame).2 = []

/-- What `receive_packet_batiface` does to the daemon: nothing, an OGM for `batman()`, or a broadcast
frame for the flood filter. -/
theorem Node.receivePacketBatiface_cases (node : Node p) (g : Garbage p) (frame : Frame) :
    (∃ outs, node.receivePacketBatiface g frame = ⟨node, outs, none⟩) ∨
      node.receivePacketBatiface g frame = ⟨node, [], some (frame.shost, frame.rawsockRead)⟩ ∨
      ∃ outs, node.receivePacketBatiface g frame =
        ⟨{ node with state := (node.state.receiveBcast g frame.bcast).1 }, outs, none⟩ := by
  unfold Node.receivePacketBatiface
  dsimp only
  split_ifs with hlen hogm hshort hunicast hicmp hbcast haccepted
  · exact .inl ⟨_, rfl⟩
  · exact .inl ⟨_, rfl⟩
  · exact .inr (.inl rfl)
  · exact .inl ⟨_, rfl⟩
  · exact .inl ⟨_, rfl⟩
  · exact .inr (.inr ⟨_, rfl⟩)
  · exact .inr (.inr ⟨_, rfl⟩)
  · exact .inl ⟨_, rfl⟩

theorem Arrival.ogm_receivable {s : State p} (hif : arrival.ifIncoming < s.ifList.length) (neigh : Mac)
    (frame : Frame) : (arrival.ogm neigh frame.rawsockRead).Receivable s := by
  refine ⟨hif, ?_⟩
  have hread : frame.rawsockRead.length ≤ packetBuffLen - 1 := List.length_take_le _ _
  have hhna : (frame.rawsockRead.drop batmanPacketSize).length =
      frame.rawsockRead.length - batmanPacketSize := List.length_drop
  change batmanPacketSize + (frame.rawsockRead.drop batmanPacketSize).length < 2000
  unfold packetBuffLen at hread
  unfold batmanPacketSize at hhna ⊢
  omega

/-- **A frame of bytes is an event of the daemon**, or leaves it as it is. -/
theorem Run.processFrame {cfg : Config} {tr : List (State p × Event p)} (h : Run p cfg tr node.state)
    (hwalk : node.state.walk = none) (hif : arrival.ifIncoming < node.state.ifList.length)
    (g : Garbage p) (frame : Frame) :
    ∃ tr', Run p cfg tr' (node.processFrame g arrival frame).1.state := by
  unfold Node.processFrame
  rcases node.receivePacketBatiface_cases g frame with ⟨outs, hr⟩ | hr | ⟨outs, hr⟩
  · rw [hr]
    exact ⟨tr, h⟩
  · have hrx := Arrival.ogm_receivable hif frame.shost frame
    rw [hr]
    refine ⟨tr ++ [(node.state, .ogm g (arrival.ogm frame.shost frame.rawsockRead))], h.snoc ?_⟩
    simp [step, hwalk, hrx]
  · rw [hr]
    refine ⟨tr ++ [(node.state, .bcast g frame.bcast)], h.snoc ?_⟩
    simp [step, hwalk]

/-! ## What is dropped whatever its version -/

/-- A `BAT_UNICAST` frame that is no unicast frame, or cannot be passed on. -/
def State.DropsUnicast (s : State p) (g : Garbage p) (frame : Frame) : Prop :=
  let unicastPacket := UnicastPacket.read frame.rawsockRead
  frame.dhost = broadcastAddr ∨ frame.shost = broadcastAddr ∨
    frame.rawsockRead.length < unicastPacketSize ∨
    unicastPacket.dest ∉ s.hwAddrs ∧ (unicastPacket.ttl < 2 ∨ s.route g unicastPacket.dest = none)

/-- A `BAT_ICMP` frame that is no unicast frame, that nobody waits for, or that cannot be answered or
passed on. -/
def Node.DropsIcmp (node : Node p) (g : Garbage p) (frame : Frame) : Prop :=
  let icmpPacket := IcmpPacket.read frame.rawsockRead
  frame.dhost = broadcastAddr ∨ frame.shost = broadcastAddr ∨
    frame.rawsockRead.length < icmpPacketSize ∨
    if icmpPacket.dst ∈ node.state.hwAddrs then
      if icmpPacket.msgType = echoRequest then node.state.route g icmpPacket.orig = none
      else node.unixPacket icmpPacket.uid = none
    else if icmpPacket.ttl < 2 then
      icmpPacket.msgType = echoRequest → node.state.route g icmpPacket.orig = none
    else node.state.route g icmpPacket.dst = none

/-- A `BAT_BCAST` frame of the node itself, of an unknown originator, or one found in the history. -/
def State.DropsBcast (s : State p) (g : Garbage p) (frame : Frame) : Prop :=
  let bcastPacket := BcastPacket.read frame.rawsockRead
  frame.shost = broadcastAddr ∨ frame.rawsockRead.length < bcastPacketSize ∨ frame.shost ∈ s.hwAddrs ∨
    ∀ o, s.findOrigNode bcastPacket.orig = some o →
      getBitStatus (g.front o.ptr) o.seqBits o.lastBcastSeqno bcastPacket.seqno = true

/-- A frame without a type or of none of the payload types, or one that its branch drops. -/
def Node.DropsAnyway (node : Node p) (g : Garbage p) (frame : Frame) : Prop :=
  let packetType := frame.rawsockRead.getD 0 0
  2 ≤ frame.rawsockRead.length →
    (packetType = batUnicast → node.state.DropsUnicast g frame) ∧
      (packetType = batIcmp → node.DropsIcmp g frame) ∧
      (packetType = batBcast → node.state.DropsBcast g frame)

/-! ## The branches -/

theorem State.sendTowards_eq_nil_iff {s : State p} {addr : Mac} {packetBuff : List Byte} :
    s.sendTowards g addr packetBuff = [] ↔ s.route g addr = none := by
  unfold State.sendTowards
  cases s.route g addr with
  | none => simp
  | some route => simp

theorem State.receiveUnicast_eq_nil_iff {s : State p} :
    s.receiveUnicast g frame = [] ↔ s.DropsUnicast g frame := by
  unfold State.receiveUnicast State.DropsUnicast
  dsimp only
  split_ifs with hdhost hshost hshort hmine httl
  · simp [hdhost]
  · simp [hshost]
  · simp [hshort]
  · simp [hdhost, hshost, hshort, isMyMac_eq_true.mp hmine]
  · have hother := mt isMyMac_eq_true.mpr hmine
    exact iff_of_true rfl (.inr (.inr (.inr ⟨hother, .inl httl⟩)))
  · have hother := mt isMyMac_eq_true.mpr hmine
    rw [State.sendTowards_eq_nil_iff, or_iff_right hdhost, or_iff_right hshost, or_iff_right hshort,
      and_iff_right hother, or_iff_right httl]

theorem Node.receiveIcmp_eq_nil_iff : node.receiveIcmp g frame = [] ↔ node.DropsIcmp g frame := by
  unfold Node.receiveIcmp Node.DropsIcmp State.answerIcmp
  dsimp only
  by_cases hdhost : frame.dhost = broadcastAddr
  · simp [hdhost]
  by_cases hshost : frame.shost = broadcastAddr
  · simp [hshost]
  by_cases hshort : frame.rawsockRead.length < icmpPacketSize
  · simp [hshort]
  rw [if_neg hdhost, if_neg hshost, if_neg hshort, or_iff_right hdhost, or_iff_right hshost,
    or_iff_right hshort]
  by_cases hmine : (IcmpPacket.read frame.rawsockRead).dst ∈ node.state.hwAddrs
  · rw [if_pos (isMyMac_eq_true.mpr hmine), if_pos hmine]
    split_ifs with hecho
    · exact State.sendTowards_eq_nil_iff
    · cases node.unixPacket (IcmpPacket.read frame.rawsockRead).uid with
      | none => simp
      | some unixClient => simp
  · rw [if_neg (mt isMyMac_eq_true.mp hmine), if_neg hmine]
    split_ifs with httl hecho
    · rw [State.sendTowards_eq_nil_iff, forall_prop_of_true hecho]
    · simp [hecho]
    · exact State.sendTowards_eq_nil_iff

theorem State.receiveBcast_of_drops {s : State p} (h : s.DropsBcast g frame) :
    s.receiveBcast g frame.bcast = (s, false) := by
  unfold State.receiveBcast Frame.bcast
  dsimp only
  split_ifs with hshost hshort hmine
  · rfl
  · rfl
  · rfl
  · cases hfind : s.findOrigNode (BcastPacket.read frame.rawsockRead).orig with
    | none => rfl
    | some o =>
      rcases h with h | h | h | h
      · exact absurd h hshost
      · exact absurd h hshort
      · exact absurd (isMyMac_eq_true.mpr h) hmine
      · exact if_pos (h o hfind)

theorem State.receiveBcast_of_not_drops {s : State p} (h : ¬ s.DropsBcast g frame) :
    (s.receiveBcast g frame.bcast).2 = true := by
  unfold State.DropsBcast at h
  dsimp only at h
  obtain ⟨hshost, h⟩ := not_or.mp h
  obtain ⟨hshort, h⟩ := not_or.mp h
  obtain ⟨hother, h⟩ := not_or.mp h
  push Not at h
  obtain ⟨o, hfind, hnew⟩ := h
  unfold State.receiveBcast Frame.bcast
  dsimp only
  rw [if_neg hshost, if_neg hshort, if_neg (mt isMyMac_eq_true.mp hother), hfind]
  dsimp only
  rw [if_neg hnew]

/-! ## The whole frame -/

theorem State.batmanOgm_of_version (s : State p) (g : Garbage p) {rx : Ogm}
    (h : rx.pkt.version ≠ compatVersion) :
    (s.batmanOgm g rx).1 = { s with currTime := rx.rcvdTime } := by
  have hcase : s.ogmCase rx = .ignored := if_pos h
  rw [State.batmanOgm_of_ignored hcase]

/-- Without an OGM for `batman()`, only `receive_packet_batiface` counts. -/
theorem Node.ignores_iff_of_ogm_eq_none {r : Received p} (hr : node.receivePacketBatiface g frame = r)
    (hogm : r.ogm = none) :
    node.Ignores g arrival frame ↔
      (∃ now, r.node = { node with state := { node.state with currTime := now } }) ∧ r.outs = [] := by
  unfold Node.Ignores Node.processFrame
  dsimp only
  rw [hr, hogm]

theorem Node.ignores_of_dropped (h : node.receivePacketBatiface g frame = ⟨node, [], none⟩) :
    node.Ignores g arrival frame :=
  (Node.ignores_iff_of_ogm_eq_none h rfl).mpr ⟨⟨node.state.currTime, rfl⟩, rfl⟩

/-- A branch that changes nothing: only what it writes counts. -/
theorem Node.ignores_iff_of_outs {outs : List Output}
    (h : node.receivePacketBatiface g frame = ⟨node, outs, none⟩) :
    node.Ignores g arrival frame ↔ outs = [] := by
  rw [Node.ignores_iff_of_ogm_eq_none h rfl]
  exact and_iff_right ⟨node.state.currTime, rfl⟩

/-- An OGM of another version changes the clock at most. -/
theorem Node.ignores_ogm (hversion : frame.version ≠ compatVersion)
    (htype : frame.rawsockRead.getD 0 0 = batPacket) : node.Ignores g arrival frame := by
  by_cases hlen : frame.rawsockRead.length < 2
  · exact Node.ignores_of_dropped (if_pos hlen)
  by_cases hshort : frame.rawsockRead.length < batmanPacketSize
  · refine Node.ignores_of_dropped ?_
    unfold Node.receivePacketBatiface
    dsimp only
    rw [if_neg hlen, if_pos htype, if_pos hshort]
  · have hr : node.receivePacketBatiface g frame =
        ⟨node, [], some (frame.shost, frame.rawsockRead)⟩ := by
      unfold Node.receivePacketBatiface
      dsimp only
      rw [if_neg hlen, if_pos htype, if_neg hshort]
    unfold Node.Ignores Node.processFrame
    rw [hr]
    dsimp only
    rw [State.batmanOgm_of_version _ _ (show (arrival.ogm _ _).pkt.version ≠ _ from hversion)]
    exact ⟨⟨_, rfl⟩, rfl⟩

theorem Node.receivePacketBatiface_bcast (node : Node p) (g : Garbage p)
    (hlen : ¬ frame.rawsockRead.length < 2) (hbcast : frame.rawsockRead.getD 0 0 = batBcast) :
    node.receivePacketBatiface g frame =
      ⟨{ node with state := (node.state.receiveBcast g frame.bcast).1 },
        if (node.state.receiveBcast g frame.bcast).2 then node.state.rebroadcast frame else [], none⟩ := by
  unfold Node.receivePacketBatiface
  dsimp only
  rw [if_neg hlen, hbcast]
  rfl

theorem Node.ignores_bcast_iff (hlen : ¬ frame.rawsockRead.length < 2)
    (hbcast : frame.rawsockRead.getD 0 0 = batBcast) :
    node.Ignores g arrival frame ↔ node.state.DropsBcast g frame := by
  have hr := node.receivePacketBatiface_bcast g hlen hbcast
  by_cases hdrop : node.state.DropsBcast g frame
  · rw [State.receiveBcast_of_drops hdrop] at hr
    exact iff_of_true (Node.ignores_of_dropped hr) hdrop
  · rw [State.receiveBcast_of_not_drops hdrop, if_pos rfl] at hr
    refine iff_of_false (fun hignores => ?_) hdrop
    have houts := ((Node.ignores_iff_of_ogm_eq_none hr rfl).mp hignores).2
    exact absurd houts (List.cons_ne_nil _ _)

/-- **Frames of another version.** Such a frame leaves no trace exactly when its branch would drop it
with any version. -/
theorem wrong_version_iff (node : Node p) (g : Garbage p) (arrival : Arrival) (frame : Frame)
    (hversion : frame.version ≠ compatVersion) :
    node.Ignores g arrival frame ↔ node.DropsAnyway g frame := by
  unfold Node.DropsAnyway
  dsimp only
  by_cases hlen : frame.rawsockRead.length < 2
  · exact iff_of_true (Node.ignores_of_dropped (if_pos hlen)) fun h => absurd hlen (not_lt.mpr h)
  rw [forall_prop_of_true (not_lt.mp hlen)]
  by_cases hogm : frame.rawsockRead.getD 0 0 = batPacket
  · refine iff_of_true (Node.ignores_ogm hversion hogm) ?_
    rw [hogm]
    exact ⟨fun h => absurd h (by decide), fun h => absurd h (by decide), fun h => absurd h (by decide)⟩
  by_cases hunicast : frame.rawsockRead.getD 0 0 = batUnicast
  · have hr : node.receivePacketBatiface g frame = ⟨node, node.state.receiveUnicast g frame, none⟩ := by
      unfold Node.receivePacketBatiface
      dsimp only
      rw [if_neg hlen, if_neg hogm, if_pos hunicast]
    rw [Node.ignores_iff_of_outs hr, State.receiveUnicast_eq_nil_iff, hunicast]
    simp [batUnicast, batIcmp, batBcast]
  by_cases hicmp : frame.rawsockRead.getD 0 0 = batIcmp
  · have hr : node.receivePacketBatiface g frame = ⟨node, node.receiveIcmp g frame, none⟩ := by
      unfold Node.receivePacketBatiface
      dsimp only
      rw [if_neg hlen, if_neg hogm, if_neg hunicast, if_pos hicmp]
    rw [Node.ignores_iff_of_outs hr, Node.receiveIcmp_eq_nil_iff, hicmp]
    simp [batUnicast, batIcmp, batBcast]
  by_cases hbcast : frame.rawsockRead.getD 0 0 = batBcast
  · rw [Node.ignores_bcast_iff hlen hbcast, hbcast]
    simp [batUnicast, batIcmp, batBcast]
  · refine iff_of_true (Node.ignores_of_dropped ?_)
      ⟨fun h => absurd h hunicast, fun h => absurd h hicmp, fun h => absurd h hbcast⟩
    unfold Node.receivePacketBatiface
    dsimp only
    rw [if_neg hlen, if_neg hogm, if_neg hunicast, if_neg hicmp, if_neg hbcast]

namespace Net

def onArrival : Arrival := ⟨0, 1000, 1000, 1000⟩

/-- A `BAT_UNICAST` frame of `A` for this node, in version 5. -/
def oldUnicast : Frame :=
  ⟨me0, macA, (⟨batUnicast, 5, me0, ttlInit⟩ : UnicastPacket).bytes ++ [0x2a]⟩

def oldIcmp : Frame :=
  ⟨me0, macA, (⟨batIcmp, 5, echoRequest, macB, macA, ttlInit, 0, 1⟩ : IcmpPacket).bytes⟩

end Net

/-- A daemon that knows no way to `B` drops the echo request, of this version as of any other. -/
theorem wrong_version_icmp : Net.oldIcmp.version ≠ compatVersion ∧
    Node.Ignores ⟨Net.cfg.boot Net.p64, fun _ => none⟩ (Net.zeros Net.p64) Net.onArrival Net.oldIcmp :=
  ⟨by decide, (wrong_version_iff _ _ _ _ (by decide)).mpr fun _ =>
    ⟨fun h => absurd h (by decide), fun _ => .inr (.inr (.inr (by decide +kernel))),
      fun h => absurd h (by decide)⟩⟩

/-- The payload of the frame in version 5 is written to the tap. -/
theorem not_ignores_oldUnicast : Net.oldUnicast.version ≠ compatVersion ∧
    ¬ Node.Ignores ⟨Net.cfg.boot Net.p64, fun _ => none⟩ (Net.zeros Net.p64) Net.onArrival
      Net.oldUnicast := by
  refine ⟨by decide, fun h => ?_⟩
  have houts : (Node.processFrame ⟨Net.cfg.boot Net.p64, fun _ => none⟩ (Net.zeros Net.p64)
      Net.onArrival Net.oldUnicast).2 = [.tapWrite [0x2a]] := by
    decide +kernel
  rw [h.2] at houts
  cases houts

end BatmanAdv
