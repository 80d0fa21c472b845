import BatmanAdv.Echo
import BatmanAdv.Genuine
import BatmanAdv.OwnAddress
import BatmanAdv.Unicast

/-!
# Payload in the network

What `receive_packet_tap` sends and `receive_packet_batiface` passes on and writes to the tap, with all the
originator and translation tables the network comes to.
-/

namespace BatmanAdv

open Parties Transition

variable {ι : Type*} {p : Platform} {node : Node p} {order : ByteOrder} {d : Deed p} {m : Option Frame}
  {o : Outcome (Node p) Frame Note} {s : State p} {g : Garbage p} {links : ι → ι → Bool} {st : ι → Station}
  {made made' : ι → List Note} {i j : ι} {payload : List Byte} {frame : Frame}

/-! ## Frames with a payload -/

/-- The tap of the node was read for this payload, which fits behind any header. -/
def ReadAt (made : ι → List Note) (i : ι) (payload : List Byte) : Prop :=
  .tapRead payload ∈ made i ∧ bcastPacketSize + payload.length < packetBuffLen

/-- The header `receive_packet_tap` makes for all nodes. -/
def BcastPacket.of (orig : Mac) (seqno : Seqno) : BcastPacket where
  packetType := batBcast
  version := compatVersion
  orig := orig
  seqno := seqno

variable (st made) in
/-- A payload frame carries what the tap of a node was read for. A `BAT_UNICAST` frame is for another node, one
that the destination is a host of. -/
structure Frame.Delivers (frame : Frame) : Prop where
  unicast (h : frame.packetBuff.getD 0 0 = batUnicast) : ∃ i dest payload, frame.Carries dest payload ∧
    ReadAt made i payload ∧ dest ∉ (st i).cfg.hwAddrs ∧
    ∃ k, dest ∈ (st k).cfg.hwAddrs ∧ HeardAt st made k (Mac.read payload 0)
  bcast (h : frame.packetBuff.getD 0 0 = batBcast) : ∃ i seqno payload,
    frame.packetBuff = (BcastPacket.of (st i).cfg.primary seqno).bytes ++ payload ∧ ReadAt made i payload

/-- What is written to a tap was read from that of another node. -/
def Note.Delivered (made : ι → List Note) (j : ι) (note : Note) : Prop :=
  ∀ payload, note = .tapWrite payload → ∃ i, i ≠ j ∧ .tapRead payload ∈ made i

theorem ReadAt.mono (h : ReadAt made i payload) (hle : Recalls made made') : ReadAt made' i payload :=
  ⟨hle i h.1, h.2⟩

theorem Frame.Delivers.mono (h : frame.Delivers st made) (hle : Recalls made made') : frame.Delivers st made' := by
  refine ⟨fun htype => ?_, fun htype => ?_⟩
  · obtain ⟨i, dest, payload, hcarries, hread, hother, k, hk, hheard⟩ := h.unicast htype
    exact ⟨i, dest, payload, hcarries, hread.mono hle, hother, k, hk, hheard.mono hle⟩
  · obtain ⟨i, seqno, payload, hbuff, hread⟩ := h.bcast htype
    exact ⟨i, seqno, payload, hbuff, hread.mono hle⟩

theorem Frame.Delivers.of_type {packetType : Byte} (h : frame.packetBuff.getD 0 0 = packetType)
    (hunicast : packetType ≠ batUnicast) (hbcast : packetType ≠ batBcast) : frame.Delivers st made :=
  ⟨fun htype => absurd (h.symm.trans htype) hunicast, fun htype => absurd (h.symm.trans htype) hbcast⟩

theorem Note.Delivered.mono {note : Note} (h : note.Delivered made j) (hle : Recalls made made') :
    note.Delivered made' j := by
  intro payload heq
  obtain ⟨i, hi, hread⟩ := h payload heq
  exact ⟨i, hi, hle i hread⟩

/-! ## Reactions -/

theorem Run.primary {cfg : Config} {tr : List (State p × Event p)} (h : BatmanAdv.Run p cfg tr s) :
    s.primary = cfg.primary := by
  have hboot : (cfg.boot p).hwAddrs = cfg.hwAddrs := (cfg.origs_boot p).2
  exact (State.primary_of_hwAddrs (h.hwAddrs.trans hboot.symm)).trans (cfg.boot_primary p)

/-- What a reaction to a frame has to be, for what it sends and what it writes to the tap. -/
def Output.Delivers (st : ι → Station) (made : ι → List Note) (j : ι) (out : Output) : Prop :=
  (∀ frame ∈ out.sent, frame.Delivers st made) ∧ ∀ note ∈ out.note, note.Delivered made j

theorem Output.Delivers.tapWrite (hi : i ≠ j) (h : ReadAt made i payload) :
    (Output.tapWrite payload).Delivers st made j := by
  refine ⟨fun frame hframe => absurd hframe (Option.not_mem_none frame), fun note hnote => ?_⟩
  obtain rfl := Option.some.inj hnote
  intro payload' heq
  cases heq
  exact ⟨i, hi, h.1⟩

theorem Output.Delivers.rawsockWrite (h : frame.Delivers st made) :
    (Output.rawsockWrite frame).Delivers st made j := by
  refine ⟨fun frame' hframe => ?_, fun note hnote => absurd hnote (Option.not_mem_none note)⟩
  obtain rfl := Option.some.inj hframe
  exact h

theorem Node.Sound.receiveUnicast (hnode : node.Sound links st made j) (hframe : frame.Delivers st made)
    (htype : frame.packetBuff.getD 0 0 = batUnicast) (g : Garbage p) :
    ∀ out ∈ (node.receivePacketBatiface g frame).outs, out.Delivers st made j := by
  obtain ⟨tr, hrun⟩ := hnode.run
  obtain ⟨i, dest, payload, ⟨ttl, hbuff⟩, hread, hother, hhost⟩ := hframe.unicast htype
  have hfits : unicastPacketSize + payload.length < packetBuffLen :=
    (Nat.add_le_add_right (by decide) _).trans_lt hread.2
  intro out hout
  rcases node.receive_carried g hfits hbuff with hnone | ⟨-, ⟨hmine, hwrite⟩ | ⟨-, hwAddr, router, hsend⟩⟩
  · rw [hnone] at hout
    exact absurd hout List.not_mem_nil
  · rw [hwrite] at hout
    obtain rfl := List.mem_singleton.mp hout
    have hij : i ≠ j := by
      rintro rfl
      exact hother (hrun.hwAddrs ▸ hmine)
    exact .tapWrite hij hread
  · rw [hsend] at hout
    obtain rfl := List.mem_singleton.mp hout
    refine .rawsockWrite ⟨fun _ => ⟨i, dest, payload, ⟨ttl - 1, rfl⟩, hread, hother, hhost⟩, fun h => ?_⟩
    exact absurd h (show batUnicast ≠ batBcast by decide)

/-- The `BAT_BCAST` branch. A node has no originator entry of its own, so that it accepts no broadcast of its
own. -/
theorem Node.Sound.receiveBcast (hnode : node.Sound links st made j) (hframe : frame.Delivers st made)
    (htype : frame.packetBuff.getD 0 0 = batBcast) (g : Garbage p) :
    ∀ out ∈ (node.receivePacketBatiface g frame).outs, out.Delivers st made j := by
  obtain ⟨tr, hrun⟩ := hnode.run
  obtain ⟨i, seqno, payload, hbuff, hread⟩ := hframe.bcast htype
  have hlen : frame.packetBuff.length = bcastPacketSize + payload.length := by
    rw [hbuff, List.length_append]
    rfl
  have hraw : frame.rawsockRead = frame.packetBuff := Frame.rawsockRead_eq (hlen ▸ hread.2)
  have hbatiface : node.receivePacketBatiface g frame = _ := node.receivePacketBatiface_bcast g
    (by rw [hraw, hlen]; exact not_lt.mpr (Nat.le_add_right_of_le (by decide))) (by rw [hraw, htype])
  have horig : frame.bcast.orig = (st i).cfg.primary := by
    unfold Frame.bcast
    rw [hraw, hbuff]
    rfl
  intro out hout
  rw [hbatiface] at hout
  rcases node.state.receiveBcast_cases g frame.bcast with heq | ⟨o, hfind, -, heq⟩
  · rw [heq] at hout
    exact absurd hout List.not_mem_nil
  · rw [heq] at hout
    obtain ⟨ho, hothers⟩ := hrun.wf.findOrigNode_eq_some_iff.mp hfind
    have hij : i ≠ j := by
      rintro rfl
      refine hrun.wf.foreign o ho ?_
      rw [hothers, horig, hrun.hwAddrs]
      exact List.mem_cons_self
    rcases List.mem_cons.mp hout with rfl | hout
    · rw [hraw, hbuff]
      exact .tapWrite hij hread
    · obtain ⟨batmanIf, -, rfl⟩ := List.mem_map.mp hout
      rw [hraw]
      refine .rawsockWrite ⟨fun h => ?_, fun _ => ⟨i, seqno, payload, hbuff, hread⟩⟩
      exact absurd (htype.symm.trans h) (by decide)

theorem State.mem_sendTowards {addr : Mac} {packetBuff : List Byte} {out : Output}
    (hout : out ∈ s.sendTowards g addr packetBuff) :
    (∃ o, s.findOrigNode addr = some o) ∧ ∃ hwAddr router, out = .rawsockWrite ⟨router, hwAddr, packetBuff⟩ := by
  unfold State.sendTowards at hout
  cases hroute : s.route g addr with
  | none =>
    rw [hroute] at hout
    exact absurd hout List.not_mem_nil
  | some route =>
    rw [hroute] at hout
    refine ⟨?_, route.1, route.2, List.mem_singleton.mp hout⟩
    unfold State.route at hroute
    cases hfind : s.findOrigNode addr with
    | none =>
      rw [hfind] at hroute
      cases hroute
    | some o => exact ⟨o, rfl⟩

theorem Output.of_note {out : Output} (h : out.note = some (.tapWrite payload)) : out = .tapWrite payload := by
  cases out with
  | rawsockWrite frame => cases h
  | tapWrite buff =>
    cases h
    rfl
  | unixWrite sock buff => cases h

theorem Node.receiveIcmp_note (node : Node p) (g : Garbage p) (frame : Frame) :
    ∀ out ∈ node.receiveIcmp g frame, out.note ≠ some (.tapWrite payload) := by
  have htowards : ∀ addr packetBuff, ∀ out ∈ node.state.sendTowards g addr packetBuff,
      out.note ≠ some (.tapWrite payload) := by
    intro addr packetBuff out hout
    obtain ⟨-, hwAddr, router, rfl⟩ := State.mem_sendTowards hout
    exact fun h => by cases h
  intro out hout
  unfold Node.receiveIcmp State.answerIcmp at hout
  dsimp only at hout
  split_ifs at hout
  · exact absurd hout List.not_mem_nil
  · exact absurd hout List.not_mem_nil
  · exact absurd hout List.not_mem_nil
  · exact htowards _ _ out hout
  · split at hout
    · obtain rfl := List.mem_singleton.mp hout
      exact fun h => by cases h
    · exact absurd hout List.not_mem_nil
  · exact htowards _ _ out hout
  · exact absurd hout List.not_mem_nil
  · exact htowards _ _ out hout

theorem State.handlePacket_note (s : State p) (g : Garbage p) (unixClient : UnixClient) (buff : List Byte) :
    ∀ out ∈ s.handlePacket g unixClient buff, out.note ≠ some (.tapWrite payload) := by
  intro out hout h
  obtain rfl := Output.of_note h
  rcases s.handlePacket_cases g unixClient buff with hnone | hclient | ⟨-, -, -, hwAddr, router, hsend⟩
  · rw [hnone] at hout
    cases hout
  · rw [hclient] at hout
    cases List.mem_singleton.mp hout
  · rw [hsend] at hout
    cases List.mem_singleton.mp hout

/-- **Reactions to a frame.** -/
theorem Node.Sound.receivePacketBatiface (hnode : node.Sound links st made j) (hframe : frame.Delivers st made)
    (g : Garbage p) : ∀ out ∈ (node.receivePacketBatiface g frame).outs, out.Delivers st made j := by
  by_cases hunicast : frame.packetBuff.getD 0 0 = batUnicast
  · exact hnode.receiveUnicast hframe hunicast g
  by_cases hbcast : frame.packetBuff.getD 0 0 = batBcast
  · exact hnode.receiveBcast hframe hbcast g
  intro out hout
  rw [← frame.getD_rawsockRead] at hunicast hbcast
  refine ⟨fun frame' hframe' => ?_, ?_⟩
  · obtain ⟨-, hof⟩ := node.receivePacketBatiface_ofType g frame out hout
    exact .of_type (hof frame' hframe') hunicast hbcast
  · have hnote : ∀ payload, out.note ≠ some (.tapWrite payload) := by
      intro payload
      unfold Node.receivePacketBatiface at hout
      dsimp only at hout
      split_ifs at hout
      · exact absurd hout List.not_mem_nil
      · exact absurd hout List.not_mem_nil
      · exact absurd hout List.not_mem_nil
      · exact node.receiveIcmp_note g frame out hout
      · exact absurd hout List.not_mem_nil
    rintro note hmem payload rfl
    exact absurd hmem (hnote payload)

/-! ## Frames of the tap -/

theorem Node.Sound.tap {tapFrame : List Byte} (hnode : node.Sound links st made i)
    (hafter : ({ node with state := (node.state.receivePacketTap g tapFrame).1 } : Node p).Sound links st made i)
    (hread : ReadAt made i (tapRead tapFrame)) :
    ∀ out ∈ (node.state.receivePacketTap g tapFrame).2, ∀ frame ∈ out.sent, frame.Delivers st made := by
  obtain ⟨tr, hrun⟩ := hnode.run
  obtain ⟨tr', hrun'⟩ := hafter.run
  intro out hout frame hframe
  unfold State.receivePacketTap at hout hafter hrun'
  dsimp only at hout hafter hrun'
  split_ifs at hout hafter hrun' with hempty hbroadcast
  · exact absurd hout List.not_mem_nil
  · obtain ⟨batmanIf, -, rfl⟩ := List.mem_map.mp hout
    obtain rfl := Option.some.inj hframe
    refine ⟨fun h => absurd h (show batBcast ≠ batUnicast by decide), fun _ => ?_⟩
    rw [hrun.primary]
    exact ⟨i, _, tapRead tapFrame, rfl, hread⟩
  · generalize node.state.receiveTap (Mac.read (tapRead tapFrame) 6) (Mac.read (tapRead tapFrame) 0) = t
      at hout hafter hrun' hbroadcast
    obtain ⟨⟨o, hfind⟩, hwAddr, router, rfl⟩ := State.mem_sendTowards hout
    obtain rfl := Option.some.inj hframe
    obtain ⟨ho, horig⟩ := hrun'.wf.findOrigNode_eq_some_iff.mp hfind
    refine ⟨fun _ => ?_, fun h => absurd h (show batUnicast ≠ batBcast by decide)⟩
    cases hsearch : t.trans.transtableSearch (Mac.read (tapRead tapFrame) 0) with
    | none =>
      rw [hsearch] at hbroadcast
      exact absurd (by decide) hbroadcast
    | some dest =>
      rw [hsearch] at horig
      have hother : dest ∉ (st i).cfg.hwAddrs := by
        rw [← hrun'.hwAddrs]
        exact fun hmem => hrun'.wf.foreign o ho (horig ▸ hmem)
      exact ⟨i, dest, tapRead tapFrame, ⟨ttlInit, rfl⟩, hread, hother, hafter.host hsearch⟩

theorem readAt_learn [DecidableEq ι] {tapFrame : List Byte} (h : node.Acts order (.tap g tapFrame) m o) :
    ReadAt (learn made i o.made) i (tapRead tapFrame) := by
  refine ⟨mem_learn.mpr (.inr ⟨rfl, ?_⟩), ?_⟩
  · rw [h.made_tap]
    exact List.mem_cons_self
  · have hlen : (tapRead tapFrame).length ≤ packetBuffLen - 1 - batmanMaxpacketsize := List.length_take_le _ _
    have hsizes : bcastPacketSize + (packetBuffLen - 1 - batmanMaxpacketsize) < packetBuffLen := by decide
    omega

/-! ## The network -/

theorem Genuine.packetType {pkt : BatmanPacket} {hna : List Byte} (h : Genuine st made pkt hna) :
    pkt.packetType = batPacket := by
  obtain ⟨i, f, hf, -, heq⟩ := h
  have htype : pkt.packetType = f.pack.packetType := by rw [heq]
  exact htype.trans (congrArg BatmanPacket.packetType hf.2.pack)

theorem Node.Acts.delivers [DecidableEq ι] (h : node.Acts order d m o) (hnode : node.Sound links st made i)
    (hafter : o.state.Sound links st (learn made i o.made) i)
    (hm : ∀ frame ∈ m, frame.Delivers st made) : ∀ frame ∈ o.sent, frame.Delivers st (learn made i o.made) := by
  have hle := recalls_learn made i o.made
  intro frame hframe
  cases h with
  | hear g arrival frame' hwalk hif hreaches =>
    obtain ⟨out, hout, hsent⟩ := List.mem_filterMap.mp hframe
    rw [node.processFrame_snd] at hout
    exact ((hnode.receivePacketBatiface (hm frame' rfl) g out hout).1 frame hsent).mono hle
  | tap g tapFrame hwalk hne =>
    obtain ⟨out, hout, hsent⟩ := List.mem_filterMap.mp hframe
    have htap : node.Acts order (.tap g tapFrame) none _ := .tap g tapFrame hwalk hne
    exact (hnode.mono hle).tap hafter (readAt_learn htap) out hout frame hsent
  | client g unixClient buff hlen =>
    obtain ⟨out, hout, hsent⟩ := List.mem_filterMap.mp hframe
    have htype := node.state.handlePacket_ofType g unixClient buff out hout frame hsent
    exact .of_type htype (by decide) (by decide)
  | slots unixPacket => exact absurd hframe List.not_mem_nil
  | loop e s hperiodic hstep =>
    obtain ⟨f, hf, hmem⟩ := List.mem_flatMap.mp hframe
    obtain ⟨c, hc, rfl⟩ := List.mem_map.mp hmem
    obtain ⟨batmanIf, -, flags, -, heq⟩ := State.mem_sendForw hc
    have hgenuine := hnode.queue f (State.mem_of_transmitted (Option.mem_toList.mp hf))
    have htype : c.2.packetBuff.getD 0 0 = batPacket := by
      rw [heq]
      exact hgenuine.packetType
    exact .of_type htype (by decide) (by decide)

theorem Node.Acts.delivered [DecidableEq ι] (h : node.Acts order d m o) (hnode : node.Sound links st made i)
    (hm : ∀ frame ∈ m, frame.Delivers st made) : ∀ note ∈ o.made, note.Delivered (learn made i o.made) i := by
  intro note hnote
  cases h with
  | hear g arrival frame hwalk hif hreaches =>
    obtain ⟨out, hout, hmade⟩ := List.mem_filterMap.mp hnote
    rw [node.processFrame_snd] at hout
    exact ((hnode.receivePacketBatiface (hm frame rfl) g out hout).2 note hmade).mono (recalls_learn _ _ _)
  | tap g tapFrame hwalk hne =>
    obtain rfl := List.mem_singleton.mp hnote
    exact fun payload heq => by cases heq
  | client g unixClient buff hlen =>
    rintro payload rfl
    rcases List.mem_cons.mp hnote with heq | hnote
    · cases heq
    · obtain ⟨out, hout, hmade⟩ := List.mem_filterMap.mp hnote
      exact absurd hmade (node.state.handlePacket_note g unixClient buff out hout)
  | slots unixPacket => exact absurd hnote List.not_mem_nil
  | loop e s hperiodic hstep =>
    obtain ⟨f, -, rfl⟩ := List.mem_map.mp hnote
    exact fun payload heq => by cases heq

/-- **One step of one node** sends no payload but from a tap. -/
theorem Network.keeps_payload [DecidableEq ι] (links : ι → ι → Bool) (st : ι → Station) :
    Keeps links (Network.behaviour (p := p) st) (fun _ _ => True) (fun made i node => node.Sound links st made i)
      fun made j frame => frame.Honest st made j ∧ frame.Delivers st made where
  inv_mono hle hnode := hnode.mono hle
  msg_mono hle hframe := ⟨hframe.1.mono hle, hframe.2.mono hle⟩
  act := by
    intro made i node d m o hnode hm hgood hact
    have hhonest : ∀ frame ∈ m, ∃ j, links j i = true ∧ frame.Honest st made j := fun frame hframe =>
      (hm frame hframe).imp fun j hj => ⟨hj.1, hj.2.1⟩
    have hdelivers : ∀ frame ∈ m, frame.Delivers st made := fun frame hframe =>
      (hm frame hframe).elim fun j hj => hj.2.2
    obtain ⟨hafter, hsent⟩ := (Network.keeps links st).act hnode hhonest hgood hact
    exact ⟨hafter, fun frame hframe => ⟨hsent frame hframe,
      (Node.acts hact).delivers hnode hafter hdelivers frame hframe⟩⟩

theorem Network.start_payload (links : ι → ι → Bool) (st : ι → Station) :
    (Network.start p st).Holds (fun made i node => node.Sound links st made i)
      fun made j frame => frame.Honest st made j ∧ frame.Delivers st made :=
  ⟨(Network.start_holds links st).party, fun _ hx => absurd hx List.not_mem_nil⟩

/-! ## Runs -/

variable [DecidableEq ι] {w : World ι (Node p) Frame Note}
  {tr : List (World ι (Node p) Frame Note × Happening ι (Deed p))}

/-- **Unicast goes where the host is.** In a network whose purges reroute no entry with a stored announcement, the
HNA buffers of every node are valid, and a `BAT_UNICAST` frame in the air, however often it was passed on, carries
what the tap of some node was read for, behind a header that differs in the ttl only. It is for another node, and
one with that address is the destination of the payload itself or has seen it on its tap. -/
theorem unicast_towards_host (h : Network.Run links st tr w)
    (hbuffers : ∀ x ∈ tr, x.2.what.KeepsBuffers (x.1.party x.2.who)) {j : ι} {frame : Frame}
    (hair : (j, frame) ∈ w.air) (htype : frame.packetType = batUnicast) :
    (∀ i, (w.party i).BuffersValid (st i).cfg) ∧
      ∃ i dest payload, frame.Carries dest payload ∧ .tapRead payload ∈ w.made i ∧ dest ∉ (st i).cfg.hwAddrs ∧
        ∃ k, dest ∈ (st k).cfg.hwAddrs ∧ HeardAt st w.made k (Mac.read payload 0) := by
  have hholds := (Network.keeps_payload links st).run_all h (Network.start_payload links st)
  obtain ⟨i, dest, payload, hcarries, hread, hrest⟩ := (hholds.air (j, frame) hair).2.unicast htype
  exact ⟨h.buffersValid hbuffers, i, dest, payload, hcarries, hread.1, hrest⟩

def Net.forHost : List Byte := macC.bytes ++ macB.bytes ++ [0x08, 0x00, 0x2a]

/-- `me0` has learned where the host is. -/
def Net.sending : List (Happening Bool (Deed p64)) :=
  pairing ++ [⟨false, .tap (zeros p64) forHost, none⟩, hears true 2500 5]

/-- It goes to `macA`, and `me0` purges behind it. -/
theorem unicast_towards_host_sent : ∃ tr w, Network.Run (p := Net.p64) (fun _ _ => true) Net.pair tr w ∧
    tr.map Prod.snd = Net.sending ++ [⟨false, .loop (.purge (Net.zeros Net.p64) 3000 3000), none⟩] ∧
    (false, Frame.mk Net.macA Net.me0 ((UnicastPacket.towards Net.macA ttlInit).bytes ++ Net.forHost)) ∈ w.air ∧
    ∃ i dest payload, .tapRead payload ∈ w.made i ∧ dest ∉ (Net.pair i).cfg.hwAddrs ∧
      ∃ k, dest ∈ (Net.pair k).cfg.hwAddrs ∧ HeardAt Net.pair w.made k (Mac.read payload 0) := by
  obtain ⟨tr, w, hrun, hevents, hcheck⟩ := Network.Run.of_exec (fun _ _ => true) Net.pair
    (Net.sending ++ [⟨false, .loop (.purge (Net.zeros Net.p64) 3000 3000), none⟩])
    (fun tr w => decide ((∀ x ∈ tr, x.2.what.KeepsBuffers (x.1.party x.2.who)) ∧ (false, Frame.mk Net.macA Net.me0
      ((UnicastPacket.towards Net.macA ttlInit).bytes ++ Net.forHost)) ∈ w.air)) (by decide +kernel)
  obtain ⟨hbuffers, hair⟩ := of_decide_eq_true hcheck
  obtain ⟨-, i, dest, payload, -, hrest⟩ := unicast_towards_host hrun hbuffers hair rfl
  exact ⟨tr, w, hrun, hevents, hair, i, dest, payload, hrest⟩

/-- **Nothing comes out of a tap that did not go into another.** What is written to the tap of a node, by unicast
or by broadcast, was read from the tap of a different node as it is. -/
theorem tap_from_tap (h : Network.Run links st tr w) {j : ι} {payload : List Byte}
    (hwrite : .tapWrite payload ∈ w.made j) : ∃ i, i ≠ j ∧ .tapRead payload ∈ w.made i := by
  refine (Network.keeps_payload links st).run_made (fun made j note => note.Delivered made j)
    (fun hle hnote => hnote.mono hle) ?_ h (Network.start_payload links st) ?_ j _ hwrite payload rfl
  · intro made i node d m o hnode hm hact
    exact (Node.acts hact).delivered hnode fun frame hframe => (hm frame hframe).elim fun j hj => hj.2.2
  · intro i note hnote
    obtain ⟨f, -, rfl⟩ := List.mem_map.mp hnote
    exact fun payload heq => by cases heq

/-- It comes out at `macA`. -/
theorem tap_from_tap_sent : ∃ tr w, Network.Run (p := Net.p64) (fun _ _ => true) Net.pair tr w ∧
    tr.map Prod.snd = Net.sending ∧ .tapWrite Net.forHost ∈ w.made true ∧
    ∃ i, i ≠ true ∧ .tapRead Net.forHost ∈ w.made i := by
  obtain ⟨tr, w, hrun, hevents, hcheck⟩ := Network.Run.of_exec (fun _ _ => true) Net.pair Net.sending
    (fun _ w => decide (.tapWrite Net.forHost ∈ w.made true)) (by decide +kernel)
  exact ⟨tr, w, hrun, hevents, of_decide_eq_true hcheck, tap_from_tap hrun (of_decide_eq_true hcheck)⟩

end BatmanAdv
