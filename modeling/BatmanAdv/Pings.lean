import BatmanAdv.Interfaces

/-!
# Pings in the network

The unix clients of all nodes send echo requests, which are passed on, answered and given back to clients. What a
client is told was asked for by a client of the same node, and an echo reply comes from the node it was asked of.
-/

namespace BatmanAdv

open Parties Transition

variable {ι : Type*} {p : Platform} {node : Node p} {order : ByteOrder} {d : Deed p} {m : Option Frame}
  {o : Outcome (Node p) Frame Note} {g : Garbage p} {links : ι → ι → Bool} {st : ι → Station}
  {made made' : ι → List Note} {i j : ι} {frame : Frame} {unixClient : UnixClient} {ask icmp : IcmpPacket}

/-! ## The messages of a ping -/

variable (made) in
/-- A unix client of the node has sent this echo request. -/
structure Asked (i : ι) (unixClient : UnixClient) (ask : IcmpPacket) : Prop where
  made : ∃ buff, .asked unixClient buff ∈ made i ∧ ask = IcmpPacket.read buff
  packetType : ask.packetType = batIcmp
  msgType : ask.msgType = echoRequest

variable (st) in
/-- An answer to this echo request of the node `i`. -/
inductive AnswerTo (i : ι) (unixClient : UnixClient) (ask : IcmpPacket) : IcmpPacket → Prop
  /-- The node with the address asked for is there. -/
  | reply (k : ι) (dst orig : Mac) (ttl : Byte) (hdst : dst ∈ (st i).cfg.hwAddrs) (horig : orig ∈ (st k).cfg.hwAddrs)
      (hmine : ask.dst ∈ (st k).cfg.hwAddrs) :
      AnswerTo i unixClient ask
        { ask with msgType := echoReply, dst := dst, orig := orig, ttl := ttl, uid := unixClient.uid }
  /-- Another node was the last that the request came to. -/
  | exceeded (k : ι) (dst orig : Mac) (ttl : Byte) (hdst : dst ∈ (st i).cfg.hwAddrs)
      (horig : orig ∈ (st k).cfg.hwAddrs) (hother : ask.dst ∉ (st k).cfg.hwAddrs) :
      AnswerTo i unixClient ask
        { ask with msgType := ttlExceeded, dst := dst, orig := orig, ttl := ttl, uid := unixClient.uid }

variable (st) in
/-- The request on its way, from an address of the node that asks. -/
def RequestOf (i : ι) (unixClient : UnixClient) (ask icmp : IcmpPacket) : Prop :=
  ∃ orig ∈ (st i).cfg.hwAddrs, ∃ ttl, icmp = { ask with orig := orig, ttl := ttl, uid := unixClient.uid }

variable (st made) in
/-- An ICMP packet in the air is one of a ping. -/
def Frame.OfPing (frame : Frame) : Prop :=
  frame.packetType = batIcmp → frame.packetBuff = frame.icmp.bytes ∧ ∃ i unixClient ask, Asked made i unixClient ask ∧
    (RequestOf st i unixClient ask frame.icmp ∨ AnswerTo st i unixClient ask frame.icmp)

variable (st made) in
/-- What a unix client of the node `j` is told: that there is no way, or the answer to a request of this node. -/
def Note.Replies (j : ι) (note : Note) : Prop :=
  ∀ sock buff, note = .unixWrite sock buff → ∃ unixClient ask, Asked made j unixClient ask ∧
    (sock = unixClient.sock ∧ IcmpPacket.read buff = { ask with msgType := destinationUnreachable } ∨
      AnswerTo st j unixClient ask (IcmpPacket.read buff))

theorem Asked.mono (h : Asked made i unixClient ask) (hle : Recalls made made') : Asked made' i unixClient ask := by
  obtain ⟨buff, hmem, hread⟩ := h.made
  exact ⟨⟨buff, hle i hmem, hread⟩, h.packetType, h.msgType⟩

theorem Frame.OfPing.mono (h : frame.OfPing st made) (hle : Recalls made made') : frame.OfPing st made' := by
  intro htype
  obtain ⟨hbuff, i, unixClient, ask, hasked, hrest⟩ := h htype
  exact ⟨hbuff, i, unixClient, ask, hasked.mono hle, hrest⟩

theorem Note.Replies.mono {note : Note} (h : note.Replies st made j) (hle : Recalls made made') :
    note.Replies st made' j := by
  intro sock buff heq
  obtain ⟨unixClient, ask, hasked, hrest⟩ := h sock buff heq
  exact ⟨unixClient, ask, hasked.mono hle, hrest⟩

theorem Frame.OfPing.of_type {packetType : Byte} (h : frame.packetBuff.getD 0 0 = packetType)
    (hother : packetType ≠ batIcmp) : frame.OfPing st made :=
  fun htype => absurd (h.symm.trans htype) hother

/-! ## One node -/

/-- What a node makes of an ICMP frame. -/
inductive Node.Treats (node : Node p) (frame : Frame) : Output → Prop
  | answers (hwAddr router : Mac) (hmine : frame.icmp.dst ∈ node.state.hwAddrs)
      (hrequest : frame.icmp.msgType = echoRequest) :
      Treats node frame
        (.rawsockWrite ⟨router, hwAddr, (frame.icmp.answer frame.dhost echoReply).write frame.rawsockRead⟩)
  | handsOver (sock : ℕ) (hmine : frame.icmp.dst ∈ node.state.hwAddrs) (hother : frame.icmp.msgType ≠ echoRequest) :
      Treats node frame (.unixWrite sock (frame.rawsockRead.take icmpPacketSize))
  | expires (hwAddr router : Mac) (hother : frame.icmp.dst ∉ node.state.hwAddrs)
      (hrequest : frame.icmp.msgType = echoRequest) :
      Treats node frame
        (.rawsockWrite ⟨router, hwAddr, (frame.icmp.answer frame.dhost ttlExceeded).write frame.rawsockRead⟩)
  | passes (hwAddr router : Mac) :
      Treats node frame (.rawsockWrite ⟨router, hwAddr, frame.icmp.passedOn.write frame.rawsockRead⟩)

theorem Node.mem_receiveIcmp {out : Output} (hout : out ∈ node.receiveIcmp g frame) :
    frame.dhost ≠ broadcastAddr ∧ node.Treats frame out := by
  unfold Node.receiveIcmp State.answerIcmp at hout
  dsimp only at hout
  split_ifs at hout with hdhost hshost hlen hmine hrequest httl hrequest
  · cases hout
  · cases hout
  · cases hout
  · obtain ⟨hwAddr, router, -, rfl⟩ := State.sendTowards_route hout
    exact ⟨hdhost, .answers hwAddr router (isMyMac_eq_true.mp hmine) hrequest⟩
  · split at hout
    · obtain rfl := List.mem_singleton.mp hout
      exact ⟨hdhost, .handsOver _ (isMyMac_eq_true.mp hmine) hrequest⟩
    · cases hout
  · obtain ⟨hwAddr, router, -, rfl⟩ := State.sendTowards_route hout
    exact ⟨hdhost, .expires hwAddr router (mt isMyMac_eq_true.mpr hmine) hrequest⟩
  · cases hout
  · obtain ⟨hwAddr, router, -, rfl⟩ := State.sendTowards_route hout
    exact ⟨hdhost, .passes hwAddr router⟩

/-- Only ICMP packets are handed over to unix clients. -/
theorem Node.mem_receivePacketBatiface {out : Output} (hout : out ∈ (node.receivePacketBatiface g frame).outs) :
    frame.rawsockRead.getD 0 0 = batIcmp ∧ out ∈ node.receiveIcmp g frame ∨
      frame.rawsockRead.getD 0 0 ≠ batIcmp ∧ ∀ sock buff, out.note ≠ some (.unixWrite sock buff) := by
  unfold Node.receivePacketBatiface at hout
  dsimp only at hout
  split_ifs at hout with hlen htype hshort hunicast hicmp hbcast haccepted
  · cases hout
  · cases hout
  · cases hout
  · refine .inr ⟨by rw [hunicast]; decide, fun sock buff hnote => ?_⟩
    unfold State.receiveUnicast at hout
    dsimp only at hout
    split_ifs at hout
    · cases hout
    · cases hout
    · cases hout
    · obtain rfl := List.mem_singleton.mp hout
      cases hnote
    · cases hout
    · obtain ⟨hwAddr, router, -, rfl⟩ := State.sendTowards_route hout
      cases hnote
  · exact .inl ⟨hicmp, hout⟩
  · refine .inr ⟨hicmp, fun sock buff hnote => ?_⟩
    rcases List.mem_cons.mp hout with rfl | hout
    · cases hnote
    · obtain ⟨batmanIf, -, rfl⟩ := List.mem_map.mp hout
      cases hnote
  · cases hout
  · cases hout

theorem IcmpPacket.write_of_length {buff : List Byte} (hlen : buff.length = icmpPacketSize) :
    icmp.write buff = icmp.bytes := by
  unfold IcmpPacket.write
  rw [List.drop_of_length_le hlen.le, List.append_nil]

theorem Frame.OfPing.write {hwAddr router : Mac} {buff : List Byte} (hlen : buff.length = icmpPacketSize)
    (hasked : Asked made i unixClient ask)
    (hicmp : RequestOf st i unixClient ask icmp ∨ AnswerTo st i unixClient ask icmp) :
    (Frame.mk router hwAddr (icmp.write buff)).OfPing st made := by
  intro htype
  rw [Frame.icmp_of_write rfl]
  exact ⟨IcmpPacket.write_of_length hlen, i, unixClient, ask, hasked, hicmp⟩

theorem Frame.length_icmp (hbuff : frame.packetBuff = frame.icmp.bytes) :
    frame.rawsockRead.length = icmpPacketSize := by
  rw [Frame.rawsockRead_eq, hbuff]
  · rfl
  · rw [hbuff]
    show icmpPacketSize < packetBuffLen
    decide

/-- **What a node makes of a ping.** -/
theorem Frame.OfPing.treats (hframe : frame.OfPing st made) (htype : frame.packetType = batIcmp)
    (huniq : Network.DistinctAddrs st) (hwAddrs : node.state.hwAddrs = (st j).cfg.hwAddrs)
    (hdhost : frame.dhost ∈ (st j).cfg.hwAddrs) {out : Output} (h : node.Treats frame out) :
    (∀ frame' ∈ out.sent, frame'.OfPing st made) ∧ ∀ note ∈ out.note, note.Replies st made j := by
  obtain ⟨hbuff, i, unixClient, ask, hasked, hicmp⟩ := hframe htype
  have hlen := Frame.length_icmp hbuff
  have hrequests : frame.icmp.msgType = echoRequest → RequestOf st i unixClient ask frame.icmp := by
    intro hrequest
    refine hicmp.resolve_right fun hanswers => ?_
    generalize frame.icmp = icmp at hanswers hrequest
    cases hanswers with
    | reply => exact absurd hrequest (show echoReply ≠ echoRequest by decide)
    | exceeded => exact absurd hrequest (show ttlExceeded ≠ echoRequest by decide)
  cases h with
  | answers hwAddr router hmine hrequest =>
    refine ⟨fun frame' hframe' => ?_, fun note hnote => by cases hnote⟩
    obtain rfl := Option.some.inj hframe'
    obtain ⟨orig, horig, ttl, heq⟩ := hrequests hrequest
    rw [heq] at hmine ⊢
    exact .write hlen hasked (.inr (.reply j orig frame.dhost ttlInit horig hdhost (hwAddrs ▸ hmine)))
  | expires hwAddr router hother hrequest =>
    refine ⟨fun frame' hframe' => ?_, fun note hnote => by cases hnote⟩
    obtain rfl := Option.some.inj hframe'
    obtain ⟨orig, horig, ttl, heq⟩ := hrequests hrequest
    rw [heq] at hother ⊢
    exact .write hlen hasked (.inr (.exceeded j orig frame.dhost ttlInit horig hdhost (hwAddrs ▸ hother)))
  | passes hwAddr router =>
    refine ⟨fun frame' hframe' => ?_, fun note hnote => by cases hnote⟩
    obtain rfl := Option.some.inj hframe'
    refine .write hlen hasked ?_
    generalize frame.icmp = icmp at hicmp
    rcases hicmp with ⟨orig, horig, ttl, rfl⟩ | hanswers
    · exact .inl ⟨orig, horig, ttl - 1, rfl⟩
    · refine .inr ?_
      cases hanswers with
      | reply k dst orig ttl hdst horig hmine => exact .reply k dst orig (ttl - 1) hdst horig hmine
      | exceeded k dst orig ttl hdst horig hother => exact .exceeded k dst orig (ttl - 1) hdst horig hother
  | handsOver sock hmine hother =>
    refine ⟨fun frame' hframe' => (by cases hframe'), fun note hnote => ?_⟩
    obtain rfl := Option.some.inj hnote
    intro sock' buff heq
    cases heq
    have hread : IcmpPacket.read (frame.rawsockRead.take icmpPacketSize) = frame.icmp := by
      rw [List.take_of_length_le hlen.le]
      rfl
    rw [hread]
    rcases hicmp with ⟨orig, horig, ttl, heq⟩ | hanswers
    · rw [heq] at hother
      exact absurd hasked.msgType hother
    · have hij : i = j := by
        generalize frame.icmp = icmp at hanswers hmine
        rw [hwAddrs] at hmine
        cases hanswers with
        | reply k dst orig ttl hdst horig htrue => exact huniq _ _ _ hdst hmine
        | exceeded k dst orig ttl hdst horig hfar => exact huniq _ _ _ hdst hmine
      subst hij
      exact ⟨unixClient, ask, hasked, .inr hanswers⟩

/-- A message of a unix client is one of a ping. -/
theorem Node.Sound.asks {buff : List Byte} (hnode : node.Sound links st made i) (hlen : buff.length = icmpPacketSize)
    (hmade : .asked unixClient buff ∈ made i) {out : Output} (hout : out ∈ node.state.handlePacket g unixClient buff) :
    (∀ frame ∈ out.sent, frame.OfPing st made) ∧ ∀ note ∈ out.note, note.Replies st made i := by
  obtain ⟨htype, hrequest, rfl | ⟨hwAddr, router, hroute, rfl⟩⟩ := State.mem_handlePacket hout
  · refine ⟨fun frame hframe => (by cases hframe), fun note hnote => ?_⟩
    obtain rfl := Option.some.inj hnote
    intro sock' buff' heq
    cases heq
    exact ⟨unixClient, IcmpPacket.read buff, ⟨⟨buff, hmade, rfl⟩, htype, hrequest⟩,
      .inl ⟨rfl, IcmpPacket.read_write _ _⟩⟩
  · refine ⟨fun frame hframe => ?_, fun note hnote => by cases hnote⟩
    obtain rfl := Option.some.inj hframe
    exact .write hlen ⟨⟨buff, hmade, rfl⟩, htype, hrequest⟩ (.inl ⟨hwAddr, (hnode.route hroute).1, _, rfl⟩)

/-- **One step of one node** makes no message of a ping but out of one. -/
theorem Node.Acts.pings [DecidableEq ι] (h : node.Acts order d m o) (huniq : Network.DistinctAddrs st)
    (hnode : node.Sound links st made i) (hm : ∀ frame ∈ m, frame.OfPing st made) :
    (∀ frame ∈ o.sent, frame.OfPing st (learn made i o.made)) ∧
      ∀ note ∈ o.made, note.Replies st (learn made i o.made) i := by
  have hle := recalls_learn made i o.made
  obtain ⟨tr, hrun⟩ := hnode.run
  cases h with
  | hear g arrival frame hwalk hif hreaches =>
    have hout : ∀ out ∈ (node.receivePacketBatiface g frame).outs,
        (∀ frame' ∈ out.sent, frame'.OfPing st made) ∧ ∀ note ∈ out.note, note.Replies st made i := by
      intro out hout
      rcases Node.mem_receivePacketBatiface hout with ⟨htype, hicmp⟩ | ⟨htype, hnote⟩
      · obtain ⟨hdhost, htreats⟩ := Node.mem_receiveIcmp hicmp
        exact (hm frame rfl).treats (frame.getD_rawsockRead.symm.trans htype) huniq hrun.hwAddrs
          (hrun.hwAddrs ▸ hreaches.resolve_left hdhost) htreats
      · obtain ⟨-, hof⟩ := node.receivePacketBatiface_ofType g frame out hout
        refine ⟨fun frame' hframe' => .of_type (hof frame' hframe') htype, ?_⟩
        rintro note hmem sock buff rfl
        exact absurd hmem (hnote sock buff)
    refine ⟨fun frame' hframe' => ?_, fun note hnote => ?_⟩
    · obtain ⟨out, hmem, hsent⟩ := List.mem_filterMap.mp hframe'
      rw [node.processFrame_snd] at hmem
      exact ((hout out hmem).1 frame' hsent).mono hle
    · obtain ⟨out, hmem, hmade⟩ := List.mem_filterMap.mp hnote
      rw [node.processFrame_snd] at hmem
      exact ((hout out hmem).2 note hmade).mono hle
  | tap g tapFrame hwalk hne =>
    refine ⟨fun frame hframe => ?_, fun note hnote => ?_⟩
    · obtain ⟨out, hout, hsent⟩ := List.mem_filterMap.mp hframe
      rcases node.state.receivePacketTap_ofType g tapFrame out hout with hof | hof
      · exact .of_type (hof frame hsent) (by decide)
      · exact .of_type (hof frame hsent) (by decide)
    · obtain rfl := List.mem_singleton.mp hnote
      exact fun sock buff heq => by cases heq
  | client g unixClient buff hlen =>
    have hmade : .asked unixClient buff ∈ learn made i
        (.asked unixClient buff :: (node.state.handlePacket g unixClient buff).filterMap Output.note) i :=
      mem_learn.mpr (.inr ⟨rfl, List.mem_cons_self⟩)
    refine ⟨fun frame hframe => ?_, fun note hnote => ?_⟩
    · obtain ⟨out, hout, hsent⟩ := List.mem_filterMap.mp hframe
      exact ((hnode.mono hle).asks hlen hmade hout).1 frame hsent
    · rcases List.mem_cons.mp hnote with rfl | hnote
      · exact fun sock buff heq => by cases heq
      · obtain ⟨out, hout, hmade'⟩ := List.mem_filterMap.mp hnote
        exact ((hnode.mono hle).asks hlen hmade hout).2 note hmade'
  | slots unixPacket =>
    exact ⟨fun frame hframe => absurd hframe List.not_mem_nil, fun note hnote => absurd hnote List.not_mem_nil⟩
  | loop e s hperiodic hstep =>
    refine ⟨fun frame hframe => ?_, fun note hnote => ?_⟩
    · obtain ⟨f, hf, hmem⟩ := List.mem_flatMap.mp hframe
      obtain ⟨c, hc, rfl⟩ := List.mem_map.mp hmem
      obtain ⟨batmanIf, -, flags, -, heq⟩ := State.mem_sendForw hc
      have hgenuine := hnode.queue f (State.mem_of_transmitted (Option.mem_toList.mp hf))
      have htype : c.2.packetBuff.getD 0 0 = batPacket := by
        rw [heq]
        exact hgenuine.packetType
      exact .of_type htype (by decide)
    · obtain ⟨f, -, rfl⟩ := List.mem_map.mp hnote
      exact fun sock buff heq => by cases heq

/-! ## The network -/

theorem Network.keeps_pings [DecidableEq ι] (links : ι → ι → Bool) (huniq : Network.DistinctAddrs st) :
    Keeps links (Network.behaviour (p := p) st) (fun _ _ => True) (fun made i node => node.Sound links st made i)
      fun made j frame => frame.Honest st made j ∧ frame.OfPing st made where
  inv_mono hle hnode := hnode.mono hle
  msg_mono hle hframe := ⟨hframe.1.mono hle, hframe.2.mono hle⟩
  act := by
    intro made i node d m o hnode hm hgood hact
    have hhonest : ∀ frame ∈ m, ∃ j, links j i = true ∧ frame.Honest st made j := fun frame hframe =>
      (hm frame hframe).imp fun j hj => ⟨hj.1, hj.2.1⟩
    have hping : ∀ frame ∈ m, frame.OfPing st made := fun frame hframe => (hm frame hframe).elim fun j hj => hj.2.2
    obtain ⟨hafter, hsent⟩ := (Network.keeps links st).act hnode hhonest hgood hact
    obtain ⟨hpings, -⟩ := (Node.acts hact).pings huniq hnode hping
    exact ⟨hafter, fun frame hframe => ⟨hsent frame hframe, hpings frame hframe⟩⟩

/-- **Answers were asked for.** In every run of nodes with addresses of their own, each ICMP packet in the air is an
echo request that a unix client of some node has sent, or an answer to one. What a unix client is told is that there
is no way for its request, or it answers a request made by a client of the same node: an echo reply is from a node
that has the address asked for, and a time exceeded message from one that has not. -/
theorem answers_asked [DecidableEq ι] {w : World ι (Node p) Frame Note}
    {tr : List (World ι (Node p) Frame Note × Happening ι (Deed p))} (h : Network.Run links st tr w)
    (huniq : Network.DistinctAddrs st) :
    (∀ x ∈ w.air, x.2.OfPing st w.made) ∧ ∀ j, ∀ note ∈ w.made j, note.Replies st w.made j := by
  have hkeeps := Network.keeps_pings (p := p) links huniq
  have hstart : (Network.start p st).Holds (fun made i node => node.Sound links st made i)
      fun made j frame => frame.Honest st made j ∧ frame.OfPing st made :=
    ⟨(Network.start_holds links st).party, fun _ hx => absurd hx List.not_mem_nil⟩
  refine ⟨fun x hx => ((hkeeps.run_all h hstart).air x hx).2, ?_⟩
  refine hkeeps.run_made (fun made j note => note.Replies st made j) (fun hle hnote => hnote.mono hle) ?_ h hstart ?_
  · intro made i node d m o hnode hm hact
    exact ((Node.acts hact).pings huniq hnode fun frame hframe => (hm frame hframe).elim fun j hj => hj.2.2).2
  · intro i note hnote
    obtain ⟨f, -, rfl⟩ := List.mem_map.mp hnote
    exact fun sock buff heq => by cases heq

namespace Net

def pingOf (dst : Mac) : List Byte :=
  (⟨batIcmp, compatVersion, echoRequest, dst, zeroAddr, 2, 0, 1⟩ : IcmpPacket).bytes

def pong : List Byte := (⟨batIcmp, compatVersion, echoReply, me0, macA, ttlInit, 7, 1⟩ : IcmpPacket).bytes

/-- Once the link is up both ways, a client of `me0` pings `macA`. -/
def asking : List (Happening Bool (Deed p64)) :=
  pairing ++
    loops false [.sendBegin 2400, .sendNext 2400 0, .sendNext 2400 0, .sendNext 2400 0, .sendNext 2400 0] ++
    [hears true 2500 5, hears true 2500 7] ++
    [⟨false, .slots fun uid => if uid = 7 then some ⟨5, 7⟩ else none, none⟩,
      ⟨false, .client (zeros p64) ⟨5, 7⟩ (pingOf macA), none⟩, hears true 2600 8, hears false 2700 9]

end Net

theorem answers_asked_pinged : ∃ tr w, Network.Run (p := Net.p64) (fun _ _ => true) Net.pair tr w ∧
    tr.map Prod.snd = Net.asking ∧ .unixWrite 5 Net.pong ∈ w.made false ∧
    ∃ unixClient ask, Asked w.made false unixClient ask ∧
      AnswerTo Net.pair false unixClient ask (IcmpPacket.read Net.pong) := by
  obtain ⟨tr, w, hrun, hevents, hcheck⟩ := Network.Run.of_exec (fun _ _ => true) Net.pair Net.asking
    (fun _ w => decide (.unixWrite 5 Net.pong ∈ w.made false)) (by decide +kernel)
  have hmade := of_decide_eq_true hcheck
  obtain ⟨unixClient, ask, hasked, ⟨-, hread⟩ | hanswer⟩ :=
    (answers_asked hrun Net.pair_distinctAddrs).2 false _ hmade 5 Net.pong rfl
  · exact absurd (congrArg IcmpPacket.msgType hread) (show echoReply ≠ destinationUnreachable by decide)
  · exact ⟨tr, w, hrun, hevents, hmade, unixClient, ask, hasked, hanswer⟩

end BatmanAdv
