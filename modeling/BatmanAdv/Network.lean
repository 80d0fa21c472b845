import BatmanAdv.Evidence
import BatmanAdv.Lib.Parties
import BatmanAdv.Mesh
import BatmanAdv.Rebroadcast
import BatmanAdv.Version

/-!
# A network of whole daemons

Any number of daemons from their start, each with all it does: OGMs are scheduled, sent, received and
forwarded, payload goes between taps, unix clients send their messages. Frames in the air are lost,
delayed, copied and overtaken at will, and a daemon hears those of the daemons it has a link from. No frame
comes from elsewhere.
-/

namespace BatmanAdv

open Parties Transition

variable {ι : Type*} {p : Platform}

/-! ## Nodes -/

/-- A daemon's configuration, and the byte order of its host. -/
structure Station where
  cfg : Config
  order : ByteOrder

/-- What is remembered of a node. -/
inductive Note where
  /-- `schedule_own_packet` has queued it. -/
  | announced (f : ForwNode)
  /-- A frame of the tap. -/
  | tapRead (payload : List Byte)
  /-- A frame for the tap. -/
  | tapWrite (payload : List Byte)
  /-- A message of a unix client. -/
  | asked (unixClient : UnixClient) (buff : List Byte)
  /-- A message for a unix client. -/
  | unixWrite (sock : ℕ) (buff : List Byte)
  deriving DecidableEq

/-- What a node does next; `g` is what freed memory holds. -/
inductive Deed (p : Platform) where
  /-- A frame comes in. -/
  | hear (g : Garbage p) (arrival : Arrival)
  | tap (g : Garbage p) (tapFrame : List Byte)
  /-- A message of a unix client. -/
  | client (g : Garbage p) (unixClient : UnixClient) (buff : List Byte)
  /-- Unix clients come and go. -/
  | slots (unixPacket : Byte → Option UnixClient)
  /-- The periodic calls of the main loop. -/
  | loop (e : Event p)

/-- Events that are neither frames of an interface nor of the tap. -/
def Event.isPeriodic : Event p → Bool
  | .ogm _ _ => false
  | .bcast _ _ => false
  | .tap _ _ => false
  | _ => true

/-- What an output writes to the tap or to a unix client. -/
def Output.note : Output → Option Note
  | .rawsockWrite _ => none
  | .tapWrite buff => some (.tapWrite buff)
  | .unixWrite sock buff => some (.unixWrite sock buff)

def State.originates (s : State p) : Event p → Option ForwNode
  | .sendNext now rnd =>
    ((s.transmitted (.sendNext now rnd)).filter (·.own)).map fun f => s.ownNode f.ifOutgoing now rnd
  | _ => none

def State.sends (s : State p) (order : ByteOrder) (e : Event p) : List Frame :=
  (s.transmitted e).toList.flatMap fun f => (s.sendForw order f).map Prod.snd

namespace Node

def hear (node : Node p) (g : Garbage p) (arrival : Arrival) (frame : Frame) :
    Option (Outcome (Node p) Frame Note) :=
  if node.state.walk = none ∧ arrival.ifIncoming < node.state.ifList.length ∧
      frame.Reaches node.state.hwAddrs then
    let r := node.processFrame g arrival frame
    some ⟨r.1, r.2.filterMap Output.sent, r.2.filterMap Output.note⟩
  else none

def tap (node : Node p) (g : Garbage p) (tapFrame : List Byte) : Option (Outcome (Node p) Frame Note) :=
  if node.state.walk = none ∧ tapRead tapFrame ≠ [] then
    let r := node.state.receivePacketTap g tapFrame
    some ⟨{ node with state := r.1 }, r.2.filterMap Output.sent, [.tapRead (tapRead tapFrame)]⟩
  else none

def client (node : Node p) (g : Garbage p) (unixClient : UnixClient) (buff : List Byte) :
    Option (Outcome (Node p) Frame Note) :=
  if buff.length = icmpPacketSize then
    let outs := node.state.handlePacket g unixClient buff
    some ⟨node, outs.filterMap Output.sent, .asked unixClient buff :: outs.filterMap Output.note⟩
  else none

def loop (node : Node p) (order : ByteOrder) (e : Event p) : Option (Outcome (Node p) Frame Note) :=
  if e.isPeriodic then
    (step node.state e).map fun s =>
      ⟨{ node with state := s }, node.state.sends order e, (node.state.originates e).toList.map .announced⟩
  else none

def act (order : ByteOrder) (node : Node p) : Deed p → Option Frame → Option (Outcome (Node p) Frame Note)
  | .hear g arrival, some frame => node.hear g arrival frame
  | .tap g tapFrame, none => node.tap g tapFrame
  | .client g unixClient buff, none => node.client g unixClient buff
  | .slots unixPacket, none => some ⟨{ node with unixPacket := unixPacket }, [], []⟩
  | .loop e, none => node.loop order e
  | _, _ => none

end Node

/-! ## The network -/

variable (p) in
/-- All nodes enter their main loop, with one own packet of every interface in the queue. -/
def Network.start (st : ι → Station) : World ι (Node p) Frame Note where
  party i := ⟨(st i).cfg.boot p, fun _ => none⟩
  air := []
  made i := ((st i).cfg.boot p).forwList.map .announced

abbrev Network.behaviour (st : ι → Station) : Behaviour ι (Node p) (Deed p) Frame Note :=
  fun i => Node.act (st i).order

abbrev Network.Run [DecidableEq ι] (links : ι → ι → Bool) (st : ι → Station)
    (tr : List (World ι (Node p) Frame Note × Happening ι (Deed p))) (w : World ι (Node p) Frame Note) : Prop :=
  Trace (World.step links (Network.behaviour st)) (Network.start p st) tr w

/-! ## One node -/

variable {node : Node p} {order : ByteOrder} {d : Deed p} {m : Option Frame}
  {o : Outcome (Node p) Frame Note}

/-- What a node does, one case for each deed. -/
inductive Node.Acts (order : ByteOrder) (node : Node p) : Deed p → Option Frame →
    Outcome (Node p) Frame Note → Prop
  | hear (g : Garbage p) (arrival : Arrival) (frame : Frame) (hwalk : node.state.walk = none)
      (hif : arrival.ifIncoming < node.state.ifList.length) (hreaches : frame.Reaches node.state.hwAddrs) :
      Acts order node (.hear g arrival) (some frame)
        ⟨(node.processFrame g arrival frame).1, (node.processFrame g arrival frame).2.filterMap Output.sent,
          (node.processFrame g arrival frame).2.filterMap Output.note⟩
  | tap (g : Garbage p) (tapFrame : List Byte) (hwalk : node.state.walk = none) (hne : tapRead tapFrame ≠ []) :
      Acts order node (.tap g tapFrame) none
        ⟨{ node with state := (node.state.receivePacketTap g tapFrame).1 },
          (node.state.receivePacketTap g tapFrame).2.filterMap Output.sent, [.tapRead (tapRead tapFrame)]⟩
  | client (g : Garbage p) (unixClient : UnixClient) (buff : List Byte) (hlen : buff.length = icmpPacketSize) :
      Acts order node (.client g unixClient buff) none
        ⟨node, (node.state.handlePacket g unixClient buff).filterMap Output.sent,
          .asked unixClient buff :: (node.state.handlePacket g unixClient buff).filterMap Output.note⟩
  | slots (unixPacket : Byte → Option UnixClient) :
      Acts order node (.slots unixPacket) none ⟨{ node with unixPacket := unixPacket }, [], []⟩
  | loop (e : Event p) (s : State p) (hperiodic : e.isPeriodic = true) (hstep : step node.state e = some s) :
      Acts order node (.loop e) none
        ⟨{ node with state := s }, node.state.sends order e, (node.state.originates e).toList.map .announced⟩

theorem Node.acts (h : node.act order d m = some o) : node.Acts order d m o := by
  cases d with
  | hear g arrival =>
    cases m with
    | none => cases h
    | some frame =>
      change node.hear g arrival frame = some o at h
      obtain ⟨⟨hwalk, hif, hreaches⟩, ho⟩ := Option.ite_none_right_eq_some.mp h
      cases ho
      exact .hear g arrival frame hwalk hif hreaches
  | tap g tapFrame =>
    cases m with
    | some frame => cases h
    | none =>
      change node.tap g tapFrame = some o at h
      obtain ⟨⟨hwalk, hne⟩, ho⟩ := Option.ite_none_right_eq_some.mp h
      cases ho
      exact .tap g tapFrame hwalk hne
  | client g unixClient buff =>
    cases m with
    | some frame => cases h
    | none =>
      change node.client g unixClient buff = some o at h
      obtain ⟨hlen, ho⟩ := Option.ite_none_right_eq_some.mp h
      cases ho
      exact .client g unixClient buff hlen
  | slots unixPacket =>
    cases m with
    | some frame => cases h
    | none =>
      cases h
      exact .slots unixPacket
  | loop e =>
    cases m with
    | some frame => cases h
    | none =>
      change node.loop order e = some o at h
      obtain ⟨hperiodic, ho⟩ := Option.ite_none_right_eq_some.mp h
      obtain ⟨s, hstep, rfl⟩ := Option.map_eq_some_iff.mp ho
      exact .loop e s hperiodic hstep

/-! ## One node is a daemon -/

/-- The OGM in a frame. -/
structure Frame.HoldsOgm (frame : Frame) (rx : Ogm) : Prop where
  packetType : frame.rawsockRead.getD 0 0 = batPacket
  length : batmanPacketSize ≤ frame.rawsockRead.length
  neigh : rx.neigh = frame.shost
  pkt : rx.pkt = BatmanPacket.read frame.rawsockRead
  hna : rx.hna = frame.rawsockRead.drop batmanPacketSize

/-- Where an event comes from: an OGM out of a frame, a host from a frame of the tap. -/
def Event.ComesFrom : Event p → Deed p → Option Frame → Prop
  | .ogm _ rx, _, m => ∃ frame ∈ m, frame.HoldsOgm rx
  | .tap shost _, d, _ =>
    ∃ g tapFrame, d = .tap g tapFrame ∧ tapRead tapFrame ≠ [] ∧ shost = Mac.read (tapRead tapFrame) 6
  | .bcast _ _, _, _ => True
  | e, d, _ => d = .loop e

theorem Node.receivePacketBatiface_type {g : Garbage p} {frame : Frame} {ogm : Mac × List Byte}
    (h : (node.receivePacketBatiface g frame).ogm = some ogm) :
    frame.rawsockRead.getD 0 0 = batPacket ∧ batmanPacketSize ≤ frame.rawsockRead.length := by
  unfold Node.receivePacketBatiface at h
  dsimp only at h
  split_ifs at h with hlen htype hshort
  exact ⟨htype, not_lt.mp hshort⟩

theorem Event.isPeriodic_comesFrom {e : Event p} (h : e.isPeriodic = true) (m : Option Frame) :
    e.ComesFrom (.loop e) m := by
  cases e with
  | ogm g rx => cases h
  | bcast g frame => cases h
  | tap shost dhost => cases h
  | clock now => rfl
  | hnaUpdate => rfl
  | purge g currTime gwTime => rfl
  | sendBegin now => rfl
  | sendNext now rnd => rfl

/-- A node takes a step of its daemon, or none. -/
theorem Node.Acts.step (h : node.Acts order d m o) :
    o.state.state = node.state ∨
      ∃ e : Event p, BatmanAdv.step node.state e = some o.state.state ∧ e.ComesFrom d m := by
  cases h with
  | hear g arrival frame hwalk hif hreaches =>
    unfold Node.processFrame
    rcases node.receivePacketBatiface_cases g frame with ⟨outs, hr⟩ | hr | ⟨outs, hr⟩
    · rw [hr]
      exact .inl rfl
    · have hrx := Arrival.ogm_receivable hif frame.shost frame
      obtain ⟨htype, hlen⟩ := Node.receivePacketBatiface_type (congrArg Received.ogm hr)
      rw [hr]
      refine .inr ⟨.ogm g (arrival.ogm frame.shost frame.rawsockRead), ?_, frame, rfl, htype, hlen, rfl, rfl, rfl⟩
      simp [BatmanAdv.step, hwalk, hrx]
    · rw [hr]
      refine .inr ⟨.bcast g frame.bcast, ?_, trivial⟩
      simp [BatmanAdv.step, hwalk]
  | tap g tapFrame hwalk hne =>
    refine .inr ⟨.tap (Mac.read (tapRead tapFrame) 6) (Mac.read (tapRead tapFrame) 0), ?_, g, tapFrame, rfl, hne, rfl⟩
    unfold State.receivePacketTap
    dsimp only
    rw [if_neg hne]
    have hstate : ∀ (c : Prop) [Decidable c] (s : State p) (a b : List Output),
        (if c then (s, a) else (s, b)).1 = s := fun c _ s a b => by split_ifs <;> rfl
    rw [hstate]
    simp [BatmanAdv.step, hwalk]
  | client g unixClient buff hlen => exact .inl rfl
  | slots unixPacket => exact .inl rfl
  | loop e s hperiodic hstep => exact .inr ⟨e, hstep, e.isPeriodic_comesFrom hperiodic none⟩

/-! ## What is sent -/

variable {s s' : State p} {e : Event p} {g : Garbage p}

theorem Frame.getD_rawsockRead (frame : Frame) : frame.rawsockRead.getD 0 0 = frame.packetBuff.getD 0 0 := by
  unfold Frame.rawsockRead
  cases frame.packetBuff with
  | nil => rfl
  | cons b buff => rfl

/-- What is sent is of this type. -/
def Output.OfType (packetType : Byte) (out : Output) : Prop :=
  ∀ frame ∈ out.sent, frame.packetBuff.getD 0 0 = packetType

theorem Output.OfType.not_sent {packetType : Byte} {out : Output} (h : out.sent = none) : out.OfType packetType := by
  intro frame hframe
  rw [h] at hframe
  exact absurd hframe (Option.not_mem_none frame)

theorem Output.OfType.rawsockWrite (frame : Frame) :
    (Output.rawsockWrite frame).OfType (frame.packetBuff.getD 0 0) := by
  intro frame' hframe
  cases hframe
  rfl

theorem State.sendTowards_ofType {addr : Mac} {packetBuff : List Byte} {out : Output}
    (hout : out ∈ s.sendTowards g addr packetBuff) : out.OfType (packetBuff.getD 0 0) := by
  rcases s.sendTowards_cases g addr packetBuff with hnone | ⟨hwAddr, router, hsend⟩
  · rw [hnone] at hout
    exact absurd hout List.not_mem_nil
  · rw [hsend] at hout
    obtain rfl := List.mem_singleton.mp hout
    exact .rawsockWrite _

theorem State.receivePacketTap_ofType (s : State p) (g : Garbage p) (tapFrame : List Byte) :
    ∀ out ∈ (s.receivePacketTap g tapFrame).2, out.OfType batBcast ∨ out.OfType batUnicast := by
  intro out hout
  unfold State.receivePacketTap at hout
  dsimp only at hout
  split_ifs at hout
  · exact absurd hout List.not_mem_nil
  · obtain ⟨batmanIf, -, rfl⟩ := List.mem_map.mp hout
    exact .inl (.rawsockWrite _)
  · exact .inr (State.sendTowards_ofType hout)

theorem State.handlePacket_ofType (s : State p) (g : Garbage p) (unixClient : UnixClient) (buff : List Byte) :
    ∀ out ∈ s.handlePacket g unixClient buff, out.OfType batIcmp := by
  intro out hout
  unfold State.handlePacket at hout
  dsimp only at hout
  by_cases hecho : (IcmpPacket.read buff).packetType = batIcmp ∧ (IcmpPacket.read buff).msgType = echoRequest
  · rw [if_pos hecho] at hout
    cases hroute : s.route g (IcmpPacket.read buff).dst with
    | none =>
      rw [hroute] at hout
      obtain rfl := List.mem_singleton.mp hout
      exact .not_sent rfl
    | some route =>
      rw [hroute] at hout
      dsimp only at hout
      split_ifs at hout
      · obtain rfl := List.mem_singleton.mp hout
        rw [← hecho.1]
        exact .rawsockWrite _
      · obtain rfl := List.mem_singleton.mp hout
        exact .not_sent rfl
  · rw [if_neg hecho] at hout
    exact absurd hout List.not_mem_nil

theorem State.receiveUnicast_ofType (s : State p) (g : Garbage p) (frame : Frame) :
    ∀ out ∈ s.receiveUnicast g frame, out.OfType (frame.rawsockRead.getD 0 0) := by
  intro out hout
  unfold State.receiveUnicast at hout
  dsimp only at hout
  split_ifs at hout
  · exact absurd hout List.not_mem_nil
  · exact absurd hout List.not_mem_nil
  · exact absurd hout List.not_mem_nil
  · obtain rfl := List.mem_singleton.mp hout
    exact .not_sent rfl
  · exact absurd hout List.not_mem_nil
  · have hof := State.sendTowards_ofType hout
    exact hof

theorem Node.receiveIcmp_ofType (node : Node p) (g : Garbage p) (frame : Frame) :
    ∀ out ∈ node.receiveIcmp g frame, out.OfType (frame.rawsockRead.getD 0 0) := by
  intro out hout
  unfold Node.receiveIcmp State.answerIcmp at hout
  dsimp only at hout
  split_ifs at hout
  · exact absurd hout List.not_mem_nil
  · exact absurd hout List.not_mem_nil
  · exact absurd hout List.not_mem_nil
  · have hof := State.sendTowards_ofType hout
    exact hof
  · split at hout
    · obtain rfl := List.mem_singleton.mp hout
      exact .not_sent rfl
    · exact absurd hout List.not_mem_nil
  · have hof := State.sendTowards_ofType hout
    exact hof
  · exact absurd hout List.not_mem_nil
  · have hof := State.sendTowards_ofType hout
    exact hof

/-- **What is sent for a frame** is of the type of the frame, and nothing is sent for an OGM. -/
theorem Node.receivePacketBatiface_ofType (node : Node p) (g : Garbage p) (frame : Frame) :
    ∀ out ∈ (node.receivePacketBatiface g frame).outs,
      frame.rawsockRead.getD 0 0 ≠ batPacket ∧ out.OfType (frame.rawsockRead.getD 0 0) := by
  intro out hout
  unfold Node.receivePacketBatiface at hout
  dsimp only at hout
  split_ifs at hout with hlen htype hshort hunicast hicmp hbcast haccepted
  · exact absurd hout List.not_mem_nil
  · exact absurd hout List.not_mem_nil
  · exact absurd hout List.not_mem_nil
  · exact ⟨htype, node.state.receiveUnicast_ofType g frame out hout⟩
  · exact ⟨htype, node.receiveIcmp_ofType g frame out hout⟩
  · refine ⟨htype, ?_⟩
    rcases List.mem_cons.mp hout with rfl | hout
    · exact .not_sent rfl
    · obtain ⟨batmanIf, -, rfl⟩ := List.mem_map.mp hout
      exact .rawsockWrite _
  · exact absurd hout List.not_mem_nil
  · exact absurd hout List.not_mem_nil

/-- Each copy is the packet of the queue but for the flags, and none is a direct rebroadcast where that is not. -/
theorem State.mem_sendForw {f : ForwNode} {c : ℕ × Frame} (hc : c ∈ s.sendForw order f) :
    ∃ batmanIf ∈ s.ifList, ∃ flags, (flags &&& directlink ≠ 0 → f.pack.flags &&& directlink ≠ 0) ∧ c.2 =
      ⟨broadcastAddr, batmanIf.hwAddr, { f.pack with flags := flags }.bytes ++ f.packHna⟩ := by
  have hloop : c ∈ f.sendLoop order (f.pack.flags &&& directlink != 0) s.ifList.zipIdx
      { f.pack with seqno := order.htons f.pack.seqno } →
        ∃ batmanIf ∈ s.ifList, ∃ flags, (flags &&& directlink ≠ 0 → f.pack.flags &&& directlink ≠ 0) ∧ c.2 =
          ⟨broadcastAddr, batmanIf.hwAddr, { f.pack with flags := flags }.bytes ++ f.packHna⟩ := by
    intro hmem
    rw [ForwNode.sendLoop_eq] at hmem
    obtain ⟨x, hx, rfl⟩ := List.mem_map.mp hmem
    refine ⟨x.1, List.mem_of_getElem? (List.mem_zipIdx_iff_getElem?.mp hx),
      if (f.pack.flags &&& directlink != 0) && f.ifOutgoing == x.2 then directlink else 0, fun hflags => ?_, ?_⟩
    · by_cases hdirect : ((f.pack.flags &&& directlink != 0) && f.ifOutgoing == x.2) = true
      · exact bne_iff_ne.mp (Bool.and_eq_true_iff.mp hdirect).1
      · rw [if_neg hdirect] at hflags
        exact absurd rfl hflags
    · unfold BatmanIf.sendPack
      dsimp only
      rw [← BatmanPacket.store_htons order]
  have hone : ∀ batmanIf, s.ifList[f.ifOutgoing]? = some batmanIf →
      c = (f.ifOutgoing, batmanIf.sendPack order { f.pack with seqno := order.htons f.pack.seqno } f.packHna) →
        ∃ batmanIf ∈ s.ifList, ∃ flags, (flags &&& directlink ≠ 0 → f.pack.flags &&& directlink ≠ 0) ∧ c.2 =
          ⟨broadcastAddr, batmanIf.hwAddr, { f.pack with flags := flags }.bytes ++ f.packHna⟩ := by
    rintro batmanIf hif rfl
    refine ⟨batmanIf, List.mem_of_getElem? hif, f.pack.flags, id, ?_⟩
    unfold BatmanIf.sendPack
    dsimp only
    rw [BatmanPacket.store_htons]
  unfold State.sendForw at hc
  dsimp only at hc
  cases hif : s.ifList[f.ifOutgoing]? with
  | none =>
    rw [hif] at hc
    dsimp only at hc
    split_ifs at hc
    · exact absurd hc List.not_mem_nil
    · exact hloop hc
  | some batmanIf =>
    rw [hif] at hc
    dsimp only at hc
    split_ifs at hc
    · exact hone batmanIf hif (List.mem_singleton.mp hc)
    · exact hone batmanIf hif (List.mem_singleton.mp hc)
    · exact hloop hc

theorem Frame.HoldsOgm.of_bytes {frame : Frame} {rx : Ogm} (h : frame.HoldsOgm rx) {pkt : BatmanPacket}
    {hna : List Byte} (hbuff : frame.packetBuff = pkt.bytes ++ hna) : rx.pkt = pkt ∧ rx.hna <+: hna := by
  have hread : frame.rawsockRead = pkt.bytes ++ hna.take (packetBuffLen - 1 - batmanPacketSize) := by
    unfold Frame.rawsockRead
    rw [hbuff, List.take_append, List.take_of_length_le (by rw [BatmanPacket.length_bytes]; decide),
      BatmanPacket.length_bytes]
  refine ⟨?_, ?_⟩
  · rw [h.pkt, hread, BatmanPacket.read_bytes]
  · rw [h.hna, hread, ← BatmanPacket.length_bytes pkt, List.drop_left]
    exact List.take_prefix _ _

/-! ## The queue of one node -/

variable {rx : Ogm}

theorem State.SameQueue.markOwnBcast (s : State p) (rx : Ogm) : s.SameQueue (s.markOwnBcast rx) := by
  have hget := State.SameQueue.getOrigNode s rx.neigh
  unfold State.markOwnBcast
  generalize s.getOrigNode rx.neigh = got at hget
  dsimp only
  split_ifs
  · exact hget.trans ⟨rfl, rfl⟩
  · exact hget

/-- **What `batman()` does to the queue**: at most the OGM is put in front, as `schedule_forward_packet`
makes it of what is in the tables then. -/
theorem State.forwList_batmanOgm (s : State p) (g : Garbage p) (rx : Ogm) :
    (s.batmanOgm g rx).1.forwList = s.forwList ∨
      s.ogmCase rx = .process ∧ (s.batmanOgm g rx).1.forwList =
        ((s.counted g rx).ranked g rx).forwardNode g (s.counted g rx).origNode rx.neigh
          ((s.counted g rx).rate rx).pkt rx.hna rx.isSingleHopNeigh rx.sendTime rx.ifIncoming :: s.forwList := by
  cases hcase : s.ogmCase rx with
  | ignored =>
    rw [State.batmanOgm_of_ignored hcase]
    exact .inl rfl
  | ownOrig =>
    rw [State.batmanOgm_of_ownOrig hcase]
    exact .inl (State.SameQueue.markOwnBcast _ rx).forwList
  | noTq =>
    rw [State.batmanOgm_of_noTq hcase]
    exact .inl (State.SameQueue.countRealPackets _ g rx.neigh rx.pkt rx.ifIncoming).forwList
  | process =>
    have hcounted := State.SameQueue.counted s g rx
    have hranked := hcounted.trans (.ranked (s.counted g rx) g rx)
    by_cases hhanded : (s.batmanOgm g rx).2 = .dropped
    · rw [State.batmanOgm_of_process hcase] at hhanded ⊢
      dsimp only at hhanded ⊢
      unfold Counted.finish
      rw [hhanded]
      dsimp only
      split_ifs
      · exact .inl hcounted.forwList
      · exact .inl hranked.forwList
    · rw [State.batmanOgm_of_handed hhanded]
      unfold Counted.forward
      rw [State.scheduleForwardPacket_eq]
      split_ifs
      · exact .inl hranked.forwList
      · refine .inr ⟨rfl, ?_⟩
        dsimp only
        rw [hranked.forwList]

/-- A packet of the queue was there before, is an own packet of this step, or the OGM that came in. -/
theorem step_forwList (hs : s.Wf) (hstep : step s e = some s') {f : ForwNode} (hf : f ∈ s'.forwList) :
    f ∈ s.forwList ∨ s.originates e = some f ∨
      ∃ g rx, e = .ogm g rx ∧ f.packHna = rx.hna ∧
        f.pack.flags = (if rx.isSingleHopNeigh then directlink else 0) ∧ f.pack = { rx.pkt with
          flags := f.pack.flags, ttl := f.pack.ttl, tq := f.pack.tq, oldOrig := f.pack.oldOrig } := by
  rcases step_queues hs hstep with ⟨now, rnd, rfl, hnext⟩ | ⟨hwalk, -, hqueues, -⟩
  · rcases State.sendNext_transmitted hnext with ⟨-, rfl⟩ | ⟨t, own, pre, post, htrans, -, hlist, -, rfl⟩
    · exact .inl hf
    · have hpost : ∀ x ∈ post, x ∈ s.forwList := fun x hx => by
        rw [hlist]
        exact List.mem_append_right _ (List.mem_cons_of_mem _ hx)
      dsimp only at hf
      by_cases hown : own.own = true
      · rw [if_pos hown] at hf
        rcases mem_insertForw.mp hf with rfl | hf
        · refine .inr (.inl ?_)
          unfold State.originates
          dsimp only
          rw [htrans, Option.filter_some_pos hown]
          rfl
        · exact .inl (hpost f hf)
      · rw [if_neg hown] at hf
        exact .inl (hpost f hf)
  · cases stepped hstep with
    | ogm g rx =>
      rcases s.forwList_batmanOgm g rx with heq | ⟨-, heq⟩
      · rw [heq] at hf
        exact .inl hf
      · obtain ⟨tq, hpkt⟩ := (s.counted g rx).rate_pkt rx
        rw [heq, hpkt] at hf
        generalize (s.counted g rx).ranked g rx = t at hf
        rcases List.mem_cons.mp hf with rfl | hf
        · exact .inr (.inr ⟨g, rx, rfl, rfl, rfl, rfl⟩)
        · exact .inl hf
    | bcast g frame =>
      rcases s.receiveBcast_cases g frame with heq | ⟨o, _, _, heq⟩
      · rw [heq] at hf
        exact .inl hf
      · rw [heq] at hf
        exact .inl hf
    | tap shost dhost =>
      rw [(s.receiveTap_frame shost dhost).2.2.1] at hf
      exact .inl hf
    | clock now => exact .inl hf
    | hnaUpdate =>
      rw [s.hnaUpdate_frame.2.2.1] at hf
      exact .inl hf
    | purge g currTime gwTime =>
      rw [(s.purgeOrig_frame g currTime gwTime).2.1] at hf
      exact .inl hf
    | sendBegin now => exact .inl hf
    | sendNext now rnd hwalk' hrnd hnext =>
      unfold State.sendNext at hnext
      rw [hwalk] at hnext
      cases hnext

theorem Node.Acts.made_tap {tapFrame : List Byte} (h : node.Acts order (.tap g tapFrame) m o) :
    o.made = [.tapRead (tapRead tapFrame)] := by
  cases h
  rfl

theorem Node.Acts.made_loop (h : node.Acts order (.loop e) m o) :
    o.made = (node.state.originates e).toList.map .announced := by
  cases h
  rfl

theorem State.mem_of_transmitted {f : ForwNode} (h : s.transmitted e = some f) : f ∈ s.forwList := by
  unfold State.transmitted at h
  split at h
  · split at h
    · exact List.mem_of_find?_eq_some (Option.filter_eq_some_iff.mp h).1
    · cases h
  · cases h

theorem State.QueueOk.originates (hqueue : s.QueueOk) {f : ForwNode} (h : s.originates e = some f) :
    ∃ now rnd, e = .sendNext now rnd ∧ ∃ ifNum < s.ifList.length, f = s.ownNode ifNum now rnd := by
  cases e with
  | sendNext now rnd =>
    unfold State.originates at h
    obtain ⟨own, hfilter, rfl⟩ := Option.map_eq_some_iff.mp h
    obtain ⟨htrans, hown⟩ := Option.filter_eq_some_iff.mp hfilter
    exact ⟨now, rnd, rfl, own.ifOutgoing, (hqueue.own own (State.mem_of_transmitted htrans) hown).1, rfl⟩
  | _ => cases h

theorem Node.processFrame_snd (node : Node p) (g : Garbage p) (arrival : Arrival) (frame : Frame) :
    (node.processFrame g arrival frame).2 = (node.receivePacketBatiface g frame).outs := by
  unfold Node.processFrame
  dsimp only
  split <;> rfl

/-- OGMs are sent by the send loop only. -/
theorem Node.Acts.sent (h : node.Acts order d m o) {frame : Frame} (hframe : frame ∈ o.sent) :
    frame.packetBuff.getD 0 0 ≠ batPacket ∨
      ∃ f ∈ node.state.forwList, ∃ c ∈ node.state.sendForw order f, frame = c.2 := by
  cases h with
  | hear g arrival frame' hwalk hif hreaches =>
    obtain ⟨out, hout, hsent⟩ := List.mem_filterMap.mp hframe
    rw [node.processFrame_snd] at hout
    obtain ⟨htype, hof⟩ := node.receivePacketBatiface_ofType g frame' out hout
    rw [hof frame hsent]
    exact .inl htype
  | tap g tapFrame hwalk hne =>
    obtain ⟨out, hout, hsent⟩ := List.mem_filterMap.mp hframe
    rcases node.state.receivePacketTap_ofType g tapFrame out hout with hof | hof
    · rw [hof frame hsent]
      exact .inl (by decide)
    · rw [hof frame hsent]
      exact .inl (by decide)
  | client g unixClient buff hlen =>
    obtain ⟨out, hout, hsent⟩ := List.mem_filterMap.mp hframe
    rw [node.state.handlePacket_ofType g unixClient buff out hout frame hsent]
    exact .inl (by decide)
  | slots unixPacket => exact absurd hframe List.not_mem_nil
  | loop e s hperiodic hstep =>
    obtain ⟨f, hf, hmem⟩ := List.mem_flatMap.mp hframe
    obtain ⟨c, hc, rfl⟩ := List.mem_map.mp hmem
    exact .inr ⟨f, State.mem_of_transmitted (Option.mem_toList.mp hf), c, hc, rfl⟩

/-! ## Two nodes -/

namespace Net

def lone (hwAddr : Mac) (gatewayClass : Byte) : BatmanAdv.Station :=
  ⟨{ Net.cfg with primary := hwAddr, secondary := [], gatewayClass := gatewayClass }, .little⟩

/-- `false` is `me0`, and `true` is the gateway `macA`. -/
def pair : Bool → BatmanAdv.Station
  | false => lone me0 0
  | true => lone macA 3

def loops (who : Bool) (events : List (Event p64)) : List (Happening Bool (Deed p64)) :=
  events.map fun e => ⟨who, .loop e, none⟩

def hears (who : Bool) (now : Time) (k : ℕ) : Happening Bool (Deed p64) :=
  ⟨who, .hear (zeros p64) ⟨0, now, now, now⟩, some k⟩

/-- `macA` has the host `macC`, which it announces as soon as the link between the two is up. -/
def pairing : List (Happening Bool (Deed p64)) :=
  [⟨true, .tap (zeros p64) (broadcastAddr.bytes ++ macC.bytes ++ [0x08, 0x00]), none⟩] ++
    loops true [.hnaUpdate] ++
    loops false [.sendBegin 1000, .sendNext 1000 0, .sendNext 1000 0] ++
    [hears true 1100 1] ++
    loops true [.sendBegin 1200, .sendNext 1200 0, .sendNext 1200 0, .sendNext 1200 0] ++
    [hears false 1300 2, hears false 1300 3] ++
    loops true [.sendBegin 2200, .sendNext 2200 0, .sendNext 2200 0] ++
    [hears false 2300 4]

end Net

theorem Network.Run.of_exec [DecidableEq ι] (links : ι → ι → Bool) (st : ι → Station)
    (happenings : List (Happening ι (Deed p)))
    (q : List (World ι (Node p) Frame Note × Happening ι (Deed p)) → World ι (Node p) Frame Note → Bool)
    (h : (exec (World.step links (Network.behaviour st)) (Network.start p st) happenings).any
      (fun r => q r.1 r.2) = true) :
    ∃ tr w, Network.Run links st tr w ∧ tr.map Prod.snd = happenings ∧ q tr w = true :=
  Trace.exists_of_exec h

end BatmanAdv
