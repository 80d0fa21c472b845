import BatmanAdv.Unicast

/-!
# Echo requests

An echo request that a unix client sends, and everything that comes of it. The ttl of a request goes down
with each transmission, but that of the answer starts anew; an answer, though, leads to nothing but
transmissions of the answer. So a request is charged with its ttl and the one of its answer.
-/

namespace BatmanAdv

open Flight Transition

variable {ι : Type*} {p : Platform}

/-! ## ICMP packets -/

namespace IcmpPacket

def IsAnswer (h : IcmpPacket) : Prop :=
  h.packetType = batIcmp ∧ (h.msgType = echoReply ∨ h.msgType = ttlExceeded)

instance (h : IcmpPacket) : Decidable h.IsAnswer := inferInstanceAs (Decidable (_ ∧ _))

theorem not_isAnswer {h : IcmpPacket} (hreply : h.msgType ≠ echoReply)
    (hexceeded : h.msgType ≠ ttlExceeded) : ¬ h.IsAnswer :=
  fun hanswer => hanswer.2.elim hreply hexceeded

theorem ne_echoRequest {msgType : Byte} (h : msgType = echoReply ∨ msgType = ttlExceeded) :
    msgType ≠ echoRequest := by
  rcases h with rfl | rfl <;> decide

/-- One ttl less. -/
def passedOn (h : IcmpPacket) : IcmpPacket := { h with ttl := h.ttl - 1 }

/-- The answer of type `msgType`, by the daemon whose interface `etherDhost` the request came to. -/
def answer (h : IcmpPacket) (etherDhost : Mac) (msgType : Byte) : IcmpPacket :=
  { h with
    dst := h.orig
    orig := etherDhost
    msgType := msgType
    ttl := ttlInit }

end IcmpPacket

namespace Frame

def icmp (frame : Frame) : IcmpPacket := IcmpPacket.read frame.rawsockRead

theorem icmp_of_write {frame : Frame} {h : IcmpPacket} {buff : List Byte}
    (hbuff : frame.packetBuff = h.write buff) : frame.icmp = h := by
  have hread : frame.rawsockRead =
      h.bytes ++ (buff.drop icmpPacketSize).take (packetBuffLen - 1 - icmpPacketSize) := by
    unfold rawsockRead
    rw [hbuff]
    unfold IcmpPacket.write
    rw [List.take_append, IcmpPacket.length_bytes, List.take_of_length_le]
    rw [IcmpPacket.length_bytes]
    decide
  unfold icmp
  rw [hread, IcmpPacket.read_bytes]

end Frame

/-- **A daemon that reads an ICMP packet** drops it, hands it to a unix client, answers it if it is a
request, or passes it on. -/
theorem Node.receive_icmp (node : Node p) (g : Garbage p) {frame : Frame}
    (hicmp : frame.icmp.packetType = batIcmp) :
    (node.receivePacketBatiface g frame).outs = [] ∨
      frame.dhost ≠ broadcastAddr ∧
        ((∃ sock, (node.receivePacketBatiface g frame).outs =
            [.unixWrite sock (frame.rawsockRead.take icmpPacketSize)]) ∨
          (frame.icmp.msgType = echoRequest ∧ ∃ msgType hwAddr router,
            (msgType = echoReply ∨ msgType = ttlExceeded) ∧
              (node.receivePacketBatiface g frame).outs = [.rawsockWrite
                ⟨router, hwAddr, (frame.icmp.answer frame.dhost msgType).write frame.rawsockRead⟩]) ∨
          2 ≤ frame.icmp.ttl.toNat ∧ ∃ hwAddr router,
            (node.receivePacketBatiface g frame).outs = [.rawsockWrite
              ⟨router, hwAddr, frame.icmp.passedOn.write frame.rawsockRead⟩]) := by
  have hanswer : ∀ msgType, node.state.answerIcmp g frame msgType = [] ∨ ∃ hwAddr router,
      node.state.answerIcmp g frame msgType = [.rawsockWrite
        ⟨router, hwAddr, (frame.icmp.answer frame.dhost msgType).write frame.rawsockRead⟩] :=
    fun _ => node.state.sendTowards_cases g _ _
  by_cases hshort : frame.rawsockRead.length < 2
  · refine .inl ?_
    unfold Node.receivePacketBatiface
    dsimp only
    rw [if_pos hshort]
  have houts : (node.receivePacketBatiface g frame).outs = node.receiveIcmp g frame := by
    have htype : frame.rawsockRead.getD 0 0 = batIcmp := hicmp
    unfold Node.receivePacketBatiface
    dsimp only
    rw [if_neg hshort, htype]
    rfl
  rw [houts]
  unfold Node.receiveIcmp
  dsimp only
  split_ifs with hdhost hshost hlen hmine hrequest httl hrequest
  · exact .inl rfl
  · exact .inl rfl
  · exact .inl rfl
  · rcases hanswer echoReply with hnone | ⟨hwAddr, router, hsend⟩
    · exact .inl hnone
    · exact .inr ⟨hdhost, .inr (.inl ⟨hrequest, echoReply, hwAddr, router, .inl rfl, hsend⟩)⟩
  · split
    · next unixClient _ => exact .inr ⟨hdhost, .inl ⟨unixClient.sock, rfl⟩⟩
    · exact .inl rfl
  · rcases hanswer ttlExceeded with hnone | ⟨hwAddr, router, hsend⟩
    · exact .inl hnone
    · exact .inr ⟨hdhost, .inr (.inl ⟨hrequest, ttlExceeded, hwAddr, router, .inr rfl, hsend⟩)⟩
  · exact .inl rfl
  · have htwo : 2 ≤ frame.icmp.ttl.toNat := two_le_ttl httl
    rcases node.state.sendTowards_cases g frame.icmp.dst (frame.icmp.passedOn.write frame.rawsockRead)
      with hnone | ⟨hwAddr, router, hsend⟩
    · exact .inl hnone
    · exact .inr ⟨hdhost, .inr (.inr ⟨htwo, hwAddr, router, hsend⟩)⟩

/-- **A message of a unix client** goes out as an echo request with a ttl, or it does not go out. -/
theorem State.handlePacket_cases (s : State p) (g : Garbage p) (unixClient : UnixClient)
    (buff : List Byte) :
    s.handlePacket g unixClient buff = [] ∨
      s.handlePacket g unixClient buff = [.unixWrite unixClient.sock
        ({ IcmpPacket.read buff with msgType := destinationUnreachable }.write buff)] ∨
      0 < (IcmpPacket.read buff).ttl.toNat ∧ (IcmpPacket.read buff).packetType = batIcmp ∧
        (IcmpPacket.read buff).msgType = echoRequest ∧ ∃ hwAddr router,
          s.handlePacket g unixClient buff = [.rawsockWrite ⟨router, hwAddr,
            { IcmpPacket.read buff with uid := unixClient.uid, orig := hwAddr }.write buff⟩] := by
  unfold State.handlePacket
  dsimp only
  by_cases hrequest : (IcmpPacket.read buff).packetType = batIcmp ∧
      (IcmpPacket.read buff).msgType = echoRequest
  · rw [if_pos hrequest]
    cases hroute : s.route g (IcmpPacket.read buff).dst with
    | none => exact .inr (.inl rfl)
    | some r =>
      obtain ⟨hwAddr, router⟩ := r
      dsimp only
      by_cases httl : 0 < (IcmpPacket.read buff).ttl
      · rw [if_pos httl]
        exact .inr (.inr ⟨httl, hrequest.1, hrequest.2, hwAddr, router, rfl⟩)
      · rw [if_neg httl]
        exact .inr (.inl rfl)
  · rw [if_neg hrequest]
    exact .inl rfl

/-! ## Packets that are generated -/

/-- An ICMP packet goes out that is not the one received, passed on or handed over. -/
def generates (cause : Option Frame) : Output → Bool
  | .rawsockWrite frame =>
    decide (frame.icmp.packetType = batIcmp) &&
      !cause.any fun c => frame.packetBuff = c.icmp.passedOn.write c.rawsockRead
  | .tapWrite _ => false
  | .unixWrite _ buff => !cause.any fun c => buff = c.rawsockRead.take icmpPacketSize

/-- An echo reply or a time-exceeded message is made. -/
def createsAnswer (cause : Option Frame) (out : Output) : Bool :=
  generates cause out &&
    match out with
    | .rawsockWrite frame => decide frame.icmp.IsAnswer
    | .tapWrite _ => false
    | .unixWrite _ buff => decide (IcmpPacket.read buff).IsAnswer

theorem generates_passedOn (frame : Frame) (hwAddr router : Mac) :
    generates (some frame)
      (.rawsockWrite ⟨router, hwAddr, frame.icmp.passedOn.write frame.rawsockRead⟩) = false := by
  simp [generates]

theorem generates_handedOver (frame : Frame) (sock : ℕ) :
    generates (some frame) (.unixWrite sock (frame.rawsockRead.take icmpPacketSize)) = false := by
  simp [generates]

theorem createsAnswer_rawsockWrite {cause : Option Frame} {frame : Frame}
    (h : ¬ frame.icmp.IsAnswer) : createsAnswer cause (.rawsockWrite frame) = false := by
  unfold createsAnswer
  dsimp only
  rw [decide_eq_false h, Bool.and_false]

theorem createsAnswer_unixWrite {cause : Option Frame} {sock : ℕ} {buff : List Byte}
    (h : ¬ (IcmpPacket.read buff).IsAnswer) : createsAnswer cause (.unixWrite sock buff) = false := by
  unfold createsAnswer
  dsimp only
  rw [decide_eq_false h, Bool.and_false]

/-- What is left of the ttl, and for a request the ttl of an answer. -/
def hopsLeft (frame : Frame) : ℕ :=
  frame.icmp.ttl.toNat - 1 + if frame.icmp.msgType = echoRequest then ttlInit.toNat else 0

def answersLeft (frame : Frame) : ℕ := if frame.icmp.msgType = echoRequest then 1 else 0

/-! ## In the network -/

theorem icmp_reacts (root : ℕ) :
    Mesh.Reacts (ι := ι) (p := p) (fun frame => frame.icmp.packetType = batIcmp) (fun _ => True) root := by
  intro i node g frame hicmp out hout
  refine ⟨fun frame' hsent => ?_, trivial⟩
  rcases node.receive_icmp g hicmp with
    hnone | ⟨_, ⟨sock, hclient⟩ | ⟨_, msgType, hwAddr, router, _, hsend⟩ | ⟨_, hwAddr, router, hsend⟩⟩
  · rw [hnone] at hout
    cases hout
  · rw [hclient] at hout
    obtain rfl := List.mem_singleton.mp hout
    cases hsent
  · rw [hsend] at hout
    obtain rfl := List.mem_singleton.mp hout
    obtain rfl := Option.some.inj hsent
    rw [Frame.icmp_of_write rfl]
    exact hicmp
  · rw [hsend] at hout
    obtain rfl := List.mem_singleton.mp hout
    obtain rfl := Option.some.inj hsent
    rw [Frame.icmp_of_write rfl]
    exact hicmp

theorem answers_generate_nothing (root : ℕ) :
    Mesh.Reacts (ι := ι) (p := p) (fun _ => True)
      (fun e => ∀ frame, e.cause = some frame → frame.icmp.IsAnswer →
        generates (some frame) e.out = false) root := by
  intro i node g frame _ out hout
  refine ⟨fun _ _ => trivial, fun frame' hcause hanswer => ?_⟩
  obtain rfl := Option.some.inj hcause
  rcases node.receive_icmp g hanswer.1 with
    hnone | ⟨_, ⟨sock, hclient⟩ | ⟨hrequest, _⟩ | ⟨_, hwAddr, router, hsend⟩⟩
  · rw [hnone] at hout
    cases hout
  · rw [hclient] at hout
    obtain rfl := List.mem_singleton.mp hout
    exact generates_handedOver frame sock
  · exact absurd hrequest (IcmpPacket.ne_echoRequest hanswer.2)
  · rw [hsend] at hout
    obtain rfl := List.mem_singleton.mp hout
    exact generates_passedOn frame hwAddr router

section Charges

variable {h : IcmpPacket} {buff : List Byte} {hwAddr router : Mac}

theorem hopsLeft_of_write : hopsLeft ⟨router, hwAddr, h.write buff⟩ =
    h.ttl.toNat - 1 + if h.msgType = echoRequest then ttlInit.toNat else 0 := by
  unfold hopsLeft
  rw [Frame.icmp_of_write rfl]

theorem answersLeft_of_write : answersLeft ⟨router, hwAddr, h.write buff⟩ =
    if h.msgType = echoRequest then 1 else 0 := by
  unfold answersLeft
  rw [Frame.icmp_of_write rfl]

theorem price_createsAnswer (cause : Option Frame) (frame : Frame) :
    Traffic.price createsAnswer answersLeft Output.sent cause [.rawsockWrite frame] =
      (if createsAnswer cause (.rawsockWrite frame) then 1 else 0) + answersLeft frame := by
  unfold Traffic.price
  rw [List.countP_singleton]
  rfl

theorem price_unixWrite {q : Option Frame → Output → Bool} {w : Frame → ℕ} {cause : Option Frame}
    {sock : ℕ} (hq : q cause (.unixWrite sock buff) = false) :
    Traffic.price q w Output.sent cause [.unixWrite sock buff] = 0 := by
  unfold Traffic.price
  rw [List.countP_singleton, hq]
  rfl

end Charges

theorem icmp_spends_ttl :
    Mesh.Spends p (fun frame => frame.icmp.packetType = batIcmp) transmits hopsLeft := by
  intro node g frame hicmp
  dsimp only
  rcases node.receive_icmp g hicmp with
    hnone | ⟨hdhost, ⟨sock, hclient⟩ | ⟨hrequest, msgType, hwAddr, router, hmsgType, hsend⟩ |
      ⟨htwo, hwAddr, router, hsend⟩⟩
  · rw [hnone]
    exact ⟨Nat.zero_le _, fun _ => rfl⟩
  · rw [hclient, price_unixWrite rfl]
    exact ⟨Nat.zero_le _, fun _ => rfl⟩
  · refine ⟨?_, fun hbroadcast => absurd hbroadcast hdhost⟩
    -- the ttl of the answer was set aside
    have hother : msgType ≠ echoRequest := IcmpPacket.ne_echoRequest hmsgType
    rw [hsend, Mesh.price_transmits, hopsLeft_of_write]
    unfold hopsLeft
    rw [if_pos hrequest]
    show 1 + (ttlInit.toNat - 1 + if msgType = echoRequest then ttlInit.toNat else 0) ≤ _
    rw [if_neg hother]
    have hpos : 1 ≤ ttlInit.toNat := by decide
    omega
  · refine ⟨?_, fun hbroadcast => absurd hbroadcast hdhost⟩
    rw [hsend, Mesh.price_transmits, hopsLeft_of_write]
    unfold hopsLeft
    have hdec : frame.icmp.passedOn.ttl.toNat = frame.icmp.ttl.toNat - 1 := toNat_ttl_sub_one htwo
    rw [hdec]
    show 1 + (frame.icmp.ttl.toNat - 1 - 1 +
      if frame.icmp.msgType = echoRequest then ttlInit.toNat else 0) ≤ _
    omega

theorem icmp_spends_answer :
    Mesh.Spends p (fun frame => frame.icmp.packetType = batIcmp) createsAnswer answersLeft := by
  intro node g frame hicmp
  dsimp only
  rcases node.receive_icmp g hicmp with
    hnone | ⟨hdhost, ⟨sock, hclient⟩ | ⟨hrequest, msgType, hwAddr, router, hmsgType, hsend⟩ |
      ⟨_, hwAddr, router, hsend⟩⟩
  · rw [hnone]
    exact ⟨Nat.zero_le _, fun _ => rfl⟩
  · have hold : createsAnswer (some frame)
        (.unixWrite sock (frame.rawsockRead.take icmpPacketSize)) = false := by
      unfold createsAnswer
      rw [generates_handedOver]
      rfl
    rw [hclient, price_unixWrite hold]
    exact ⟨Nat.zero_le _, fun _ => rfl⟩
  · refine ⟨?_, fun hbroadcast => absurd hbroadcast hdhost⟩
    have hother : msgType ≠ echoRequest := IcmpPacket.ne_echoRequest hmsgType
    rw [hsend, price_createsAnswer, answersLeft_of_write]
    unfold answersLeft
    rw [if_pos hrequest]
    show _ + (if msgType = echoRequest then 1 else 0) ≤ 1
    rw [if_neg hother]
    split_ifs <;> decide
  · refine ⟨?_, fun hbroadcast => absurd hbroadcast hdhost⟩
    have hold : createsAnswer (some frame)
        (.rawsockWrite ⟨router, hwAddr, frame.icmp.passedOn.write frame.rawsockRead⟩) = false := by
      unfold createsAnswer
      rw [generates_passedOn]
      rfl
    rw [hsend, price_createsAnswer, answersLeft_of_write, hold]
    exact (Nat.zero_add _).le

section Request

variable (s : State p) (g : Garbage p) (unixClient : UnixClient) (buff : List Byte)

theorem State.handlePacket_icmp : ∀ o ∈ s.handlePacket g unixClient buff,
    ∀ frame, o.sent = some frame → frame.icmp.packetType = batIcmp := by
  intro o ho frame hsent
  rcases s.handlePacket_cases g unixClient buff with
    hnone | hclient | ⟨_, htype, _, hwAddr, router, hsend⟩
  · rw [hnone] at ho
    cases ho
  · rw [hclient] at ho
    obtain rfl := List.mem_singleton.mp ho
    cases hsent
  · rw [hsend] at ho
    obtain rfl := List.mem_singleton.mp ho
    obtain rfl := Option.some.inj hsent
    rw [Frame.icmp_of_write rfl]
    exact htype

theorem State.handlePacket_hops :
    Traffic.price transmits hopsLeft Output.sent none (s.handlePacket g unixClient buff) ≤
      (IcmpPacket.read buff).ttl.toNat + ttlInit.toNat := by
  rcases s.handlePacket_cases g unixClient buff with
    hnone | hclient | ⟨hpos, _, hrequest, hwAddr, router, hsend⟩
  · rw [hnone]
    exact Nat.zero_le _
  · rw [hclient, price_unixWrite rfl]
    exact Nat.zero_le _
  · rw [hsend, Mesh.price_transmits, hopsLeft_of_write]
    show 1 + ((IcmpPacket.read buff).ttl.toNat - 1 +
      if (IcmpPacket.read buff).msgType = echoRequest then ttlInit.toNat else 0) ≤ _
    rw [if_pos hrequest]
    omega

theorem State.handlePacket_answers :
    Traffic.price createsAnswer answersLeft Output.sent none (s.handlePacket g unixClient buff) ≤ 1 := by
  rcases s.handlePacket_cases g unixClient buff with
    hnone | hclient | ⟨_, _, hrequest, hwAddr, router, hsend⟩
  · rw [hnone]
    exact Nat.zero_le _
  · have hother : ¬ (IcmpPacket.read ({ IcmpPacket.read buff with
        msgType := destinationUnreachable }.write buff)).IsAnswer := by
      rw [IcmpPacket.read_write]
      exact IcmpPacket.not_isAnswer (by decide : destinationUnreachable ≠ echoReply)
        (by decide : destinationUnreachable ≠ ttlExceeded)
    rw [hclient, price_unixWrite (createsAnswer_unixWrite hother)]
    exact Nat.zero_le _
  · have hother : ¬ (Frame.mk router hwAddr ({ IcmpPacket.read buff with
        uid := unixClient.uid, orig := hwAddr }.write buff)).icmp.IsAnswer := by
      rw [Frame.icmp_of_write rfl]
      apply IcmpPacket.not_isAnswer
      · show (IcmpPacket.read buff).msgType ≠ echoReply
        rw [hrequest]
        decide
      · show (IcmpPacket.read buff).msgType ≠ ttlExceeded
        rw [hrequest]
        decide
    rw [hsend, price_createsAnswer, answersLeft_of_write, createsAnswer_rawsockWrite hother]
    show 0 + (if (IcmpPacket.read buff).msgType = echoRequest then 1 else 0) ≤ 1
    rw [if_pos hrequest]

end Request

variable [DecidableEq ι] {nodes : ι → Node p} {a b : List (Mesh ι p × MeshEvent ι p)} {u v : Mesh ι p}
  {i : ι} {g : Garbage p}

theorem Mesh.injects_client (u : Mesh ι p) (i : ι) (g : Garbage p) (unixClient : UnixClient)
    (buff : List Byte) :
    u.Injects (.client i g unixClient buff) i ((u.nodes i).state.handlePacket g unixClient buff) := by
  intro u' hstep
  simp only [Mesh.step] at hstep
  split_ifs at hstep
  cases hstep
  rfl

/-- **An echo request** causes no more transmissions than its ttl and the one of its answer allow, and one
answer at most; answers cause no packets. -/
theorem echo_bounded {unixClient : UnixClient} {buff : List Byte}
    (h : Mesh.Run nodes (a ++ (u, .client i g unixClient buff) :: b) v) :
    v.flight.count transmits u.flight.next ≤ (IcmpPacket.read buff).ttl.toNat + ttlInit.toNat ∧
      v.flight.count createsAnswer u.flight.next ≤ 1 ∧
      ∀ e ∈ v.flight.log, ∀ frame, e.cause = some frame → frame.icmp.IsAnswer →
        generates (some frame) e.out = false := by
  have hinjects := u.injects_client i g unixClient buff
  have hfirst : ∀ o ∈ (u.nodes i).state.handlePacket g unixClient buff,
      (∀ frame, o.sent = some frame → frame.icmp.packetType = batIcmp) ∧ True :=
    fun o ho => ⟨State.handlePacket_icmp _ g unixClient buff o ho, trivial⟩
  refine ⟨?_, ?_, ?_⟩
  · have hcount := Mesh.Run.count_le h hinjects (icmp_reacts _) icmp_spends_ttl hfirst
    exact hcount.trans (State.handlePacket_hops _ g unixClient buff)
  · have hcount := Mesh.Run.count_le h hinjects (icmp_reacts _) icmp_spends_answer hfirst
    exact hcount.trans (State.handlePacket_answers _ g unixClient buff)
  · exact Mesh.Run.forall_log h (fun _ _ _ _ hcause => by cases hcause) answers_generate_nothing

def Net.ping : List Byte :=
  IcmpPacket.bytes
    { packetType := batIcmp
      version := compatVersion
      msgType := echoRequest
      dst := Net.macB
      orig := zeroAddr
      ttl := 2
      uid := 0
      seqno := 1 }

def Net.pinged : List (MeshEvent Net.Station Net.p64) :=
  [.client .source (Net.zeros Net.p64) ⟨5, 7⟩ Net.ping, .receive .relay (Net.zeros Net.p64) 0,
    .receive .target (Net.zeros Net.p64) 0]

/-- The ping reaches `target`, which sends the answer on its way. -/
theorem echo_bounded_pinged : ∃ tr v, Mesh.Run Net.chain tr v ∧ tr.map Prod.snd = Net.pinged ∧
    v.flight.count transmits 0 = 3 ∧ v.flight.count createsAnswer 0 = 1 ∧
    v.flight.count transmits 0 ≤ 2 + ttlInit.toNat ∧
    ∀ e ∈ v.flight.log, ∀ frame, e.cause = some frame → frame.icmp.IsAnswer →
      generates (some frame) e.out = false := by
  obtain ⟨tr, v, hrun, hevents, hcheck⟩ := Trace.exists_of_exec
    (q := fun _ (v : Mesh Net.Station Net.p64) =>
      decide (v.flight.count transmits 0 = 3 ∧ v.flight.count createsAnswer 0 = 1))
    (show (exec Mesh.step (Mesh.start Net.chain) Net.pinged).any _ = true by decide +kernel)
  obtain ⟨htransmits, hanswers⟩ := of_decide_eq_true hcheck
  obtain ⟨⟨u, e⟩, rest, rfl, rfl, hrest⟩ := List.map_eq_cons_iff.mp hevents
  obtain rfl : u = Mesh.start Net.chain := Trace.head_eq hrun
  obtain ⟨hle, _, hquiet⟩ := echo_bounded (a := []) hrun
  exact ⟨_, v, hrun, hevents, htransmits, hanswers, hle, hquiet⟩

end BatmanAdv
