import BatmanAdv.Delivery
import BatmanAdv.HopQuality

/-!
# The addresses of the frames

Every neighbour was heard on an interface there is, so that a frame on its way to an originator leaves by one.
What a node sends has an address of that node as its source, and a neighbour it has a link from as its
destination, unless it is for everybody.
-/

namespace BatmanAdv

open Parties Transition

variable {ι : Type*} {p : Platform} {s s' : State p} {g : Garbage p} {rx : Ogm} {e : Event p} {ifs : ℕ}

/-! ## The interfaces of the entries -/

/-- The neighbours were heard on interfaces there are, and `batman_if` is one. -/
structure OrigNode.OnIf (ifs : ℕ) (o : OrigNode p) : Prop where
  neigh : ∀ n ∈ o.neighList, n.ifIncoming < ifs
  batmanIf : ∀ ifNum ∈ o.batmanIf, ifNum < ifs

def State.OnIf (ifs : ℕ) (s : State p) : Prop := ∀ o ∈ s.origs, o.OnIf ifs

namespace OrigNode.OnIf

variable {o o' : OrigNode p}

theorem of_map (h : o.OnIf ifs) {f : NeighNode p → NeighNode p} (hlist : o'.neighList = o.neighList.map f)
    (hf : ∀ n, (f n).ifIncoming = n.ifIncoming) (hif : o'.batmanIf = o.batmanIf) : o'.OnIf ifs := by
  refine ⟨fun n hn => ?_, fun ifNum hmem => h.batmanIf ifNum (hif ▸ hmem)⟩
  rw [hlist] at hn
  obtain ⟨n', hn', rfl⟩ := List.mem_map.mp hn
  rw [hf]
  exact h.neigh n' hn'

theorem setRouter (h : o.OnIf ifs) {best : Option (NeighNode p)} (hbest : ∀ n ∈ best, n.ifIncoming < ifs) :
    (o.setRouter best).OnIf ifs := by
  unfold OrigNode.setRouter
  split_ifs
  · cases best with
    | none => exact ⟨h.neigh, h.batmanIf⟩
    | some n =>
      refine ⟨h.neigh, fun ifNum hmem => ?_⟩
      obtain rfl := Option.some.inj hmem
      exact hbest n rfl
  · exact h

theorem purge (h : o.OnIf ifs) (g : Garbage p) (currTime : Time) : (o.purge g currTime).OnIf ifs := by
  have hkept : ({ o with neighList := o.keptNeighs currTime } : OrigNode p).OnIf ifs :=
    ⟨fun n hn => h.neigh n (OrigNode.mem_keptNeighs.mp hn).1, h.batmanIf⟩
  unfold OrigNode.purge
  dsimp only
  split_ifs
  · refine hkept.setRouter fun n hn => ?_
    rcases bestNeighNode_cases (o.keptNeighs currTime) with ⟨-, hnone⟩ | ⟨b, hb, hbest, -⟩
    · rw [hnone] at hn
      cases hn
    · obtain rfl : b = n := Option.some.inj (hbest.symm.trans hn)
      exact hkept.neigh b hb
  · exact hkept

end OrigNode.OnIf

theorem Write.onIf (h : Write rx s s') (hs : s.Wf) (hon : s.OnIf ifs) (hrx : rx.ifIncoming < ifs) : s'.OnIf ifs := by
  cases h with
  | clock => exact hon
  | create addr hforeign =>
    intro o ho
    rcases hs.mem_getOrigNode ho with ho | ⟨rfl, -⟩
    · exact hon o ho
    · exact ⟨fun n hn => absurd hn List.not_mem_nil, fun ifNum hmem => absurd hmem (Option.not_mem_none ifNum)⟩
  | own ptr b c => exact State.forall_modOrig hon fun o _ _ ho => ⟨ho.neigh, ho.batmanIf⟩
  | neighbor origNode origNeighNode =>
    refine State.forall_modOrig (s := s) hon fun o _ _ ho => ⟨fun n hn => ?_, ho.batmanIf⟩
    rcases List.mem_append.mp hn with hn | hn
    · exact ho.neigh n hn
    · rw [List.mem_singleton.mp hn]
      exact hrx
  | valid ptr neigh =>
    refine State.forall_modOrig hon fun o _ _ ho => ho.of_map (o.neighList_modNeigh _ _) (fun n => ?_) rfl
    split_ifs <;> rfl
  | entry ptr f => exact State.forall_modOrig hon fun o _ _ ho => ⟨ho.neigh, ho.batmanIf⟩
  | pushZero ptr dup hat =>
    refine State.forall_modOrig hon fun o _ _ ho => ho.of_map (o.neighList_pushZero _ _ _) (fun n => ?_) rfl
    split_ifs <;> rfl
  | receive ptr hat neigh pkt htq httl dup =>
    refine State.forall_modOrig hon fun o _ _ ho => ho.of_map (o.neighList_receive _ _ _ _) (fun n => ?_) rfl
    split_ifs
    · exact (n.sameLink_receive pkt dup rx.rcvdTime).ifIncoming
    · rfl
  | route ptr hat best hbest recv len =>
    refine State.forall_modOrig (s := s) (f := (·.withRoutes (updateRoutes s.hwAddrs s.currTime
      s.trans (s.origAt ptr) best (some recv) len).2)) hon fun o ho hptr hok => ?_
    rw [← hptr, hs.origAt_of_mem ho] at hbest ⊢
    obtain ⟨-, hif⟩ := updateRoutes_snd s.hwAddrs s.currTime s.trans o best (some recv) len
    have hset : (o.setRouter best).OnIf ifs := hok.setRouter fun n hn => by
      obtain ⟨n', hn', -, heq⟩ := hbest n hn
      rw [← heq]
      exact hok.neigh n' hn'
    refine ⟨hok.neigh, fun ifNum hmem => hset.batmanIf ifNum ?_⟩
    rw [← hif]
    exact hmem
  | gateway gwList => exact hon

theorem Move.onIf (h : Move g rx s s') (hs : s.Wf) (hon : s.OnIf ifs) (hrx : rx.ifIncoming < ifs) : s'.OnIf ifs := by
  cases h with
  | write h => exact h.onIf hs hon hrx
  | count ptr hat => exact State.forall_modOrig hon fun o _ _ ho => ho.of_map rfl (fun _ => rfl) rfl
  | forward f hptr hown => exact hon

theorem step_onIf (hs : s.Wf) (hon : s.OnIf s.ifList.length) (h : step s e = some s') :
    s'.OnIf s'.ifList.length := by
  rw [s'.length_ifList, step_hwAddrs hs h, ← s.length_ifList]
  rcases step_cases hs h with ⟨g, rx, rfl, hrx, -, hmoves⟩ | ⟨g, currTime, gwTime, rfl, rfl⟩ | ⟨-, -, hquiet⟩
  · exact (hmoves.preserves hs hon fun _ _ hwf hI hmove => hmove.onIf hwf hI hrx.1).2
  · obtain ⟨-, hfrom, -⟩ := State.origs_purgeOrig g currTime gwTime hs
    intro x hx
    obtain ⟨o, ho, -, hpurged⟩ := hfrom x hx
    rw [hpurged]
    have hon' := (hon o ho).purge g currTime
    exact ⟨hon'.neigh, hon'.batmanIf⟩
  · intro o' ho'
    obtain ⟨o, ho, hsame⟩ := hquiet.mem ho'
    rw [hsame]
    exact ⟨(hon o ho).neigh, (hon o ho).batmanIf⟩

theorem Run.onIf {cfg : Config} {tr : List (State p × Event p)} (h : BatmanAdv.Run p cfg tr s) :
    s.OnIf s.ifList.length := by
  have hinv := Trace.state_invariant (I := fun s => s.Wf ∧ s.OnIf s.ifList.length) h
    ⟨cfg.boot_wf p, cfg.forall_origs_boot⟩
    fun t e u ht hstep => ⟨step_wf ht.1 hstep, step_onIf ht.1 ht.2 hstep⟩
  exact hinv.2.2

theorem State.hwAddrOf_mem {ifNum : ℕ} (h : ifNum < s.ifList.length) : s.hwAddrOf ifNum ∈ s.hwAddrs := by
  unfold State.hwAddrOf
  rw [List.getElem?_eq_getElem h]
  exact List.mem_map_of_mem (List.getElem_mem h)

/-- A route leaves by an interface of the node. -/
theorem State.OnIf.route (hon : s.OnIf s.ifList.length) (hs : s.Wf) {addr hwAddr router : Mac}
    (h : s.route g addr = some (hwAddr, router)) : hwAddr ∈ s.hwAddrs ∧
      ∃ o ∈ s.origs, o.orig = addr ∧ ∃ ptr, o.router = some ptr ∧ router = (o.neighAt g ptr).addr := by
  unfold State.route at h
  cases hfind : s.findOrigNode addr with
  | none =>
    rw [hfind] at h
    cases h
  | some o =>
    rw [hfind] at h
    obtain ⟨ho, horig⟩ := hs.findOrigNode_eq_some_iff.mp hfind
    dsimp only at h
    split at h
    · next ifNum ptr hif hrouter =>
      cases h
      exact ⟨State.hwAddrOf_mem ((hon o ho).batmanIf ifNum hif), o, ho, horig, ptr, hrouter, rfl⟩
    · cases h

/-! ## What a node sends -/

variable {links : ι → ι → Bool} {st : ι → Station} {made : ι → List Note} {i j : ι} {node : Node p}
  {order : ByteOrder} {d : Deed p} {m : Option Frame} {o : Outcome (Node p) Frame Note} {frame : Frame}

variable (links st) in
/-- The frame leaves by an interface of its sender, for everybody or for a neighbour the sender has a link from.
Payload and ICMP only are for one neighbour. -/
structure Frame.Addressed (j : ι) (frame : Frame) : Prop where
  shost : frame.shost ∈ (st j).cfg.hwAddrs
  dhost : frame.dhost = broadcastAddr ∨ ∃ k, links k j = true ∧ frame.dhost ∈ (st k).cfg.hwAddrs
  single (h : frame.dhost ≠ broadcastAddr) : frame.packetType = batUnicast ∨ frame.packetType = batIcmp

theorem Frame.Addressed.everybody (hshost : frame.shost ∈ (st j).cfg.hwAddrs) (hdhost : frame.dhost = broadcastAddr) :
    frame.Addressed links st j :=
  ⟨hshost, .inl hdhost, fun h => absurd hdhost h⟩

theorem Node.Sound.mem_hwAddrs (hnode : node.Sound links st made i) {batmanIf : BatmanIf}
    (h : batmanIf ∈ node.state.ifList) : batmanIf.hwAddr ∈ (st i).cfg.hwAddrs := by
  obtain ⟨tr, hrun⟩ := hnode.run
  rw [← hrun.hwAddrs]
  exact List.mem_map_of_mem h

theorem Node.Sound.route (hnode : node.Sound links st made i) {addr hwAddr router : Mac}
    (h : node.state.route g addr = some (hwAddr, router)) : hwAddr ∈ (st i).cfg.hwAddrs ∧
      (node.state.RouterOk → ∃ k, links k i = true ∧ router ∈ (st k).cfg.hwAddrs) := by
  obtain ⟨tr, hrun⟩ := hnode.run
  obtain ⟨hsrc, o, ho, -, ptr, hrouter, rfl⟩ := hrun.onIf.route hrun.wf h
  refine ⟨hrun.hwAddrs ▸ hsrc, fun hok => ?_⟩
  rcases hok o ho with hnone | ⟨n, hn, hptr, -⟩
  · rw [hnone] at hrouter
    cases hrouter
  · obtain rfl : n.ptr = ptr := Option.some.inj (hptr.symm.trans hrouter)
    exact (hnode.vouched.entry o ho).neigh _ (OrigNode.neighAt_mem hn)

theorem Frame.Addressed.routed (hnode : node.Sound links st made i) (hok : node.state.RouterOk)
    {addr hwAddr router : Mac} (h : node.state.route g addr = some (hwAddr, router)) {packetBuff : List Byte}
    (htype : packetBuff.getD 0 0 = batUnicast ∨ packetBuff.getD 0 0 = batIcmp) :
    (Frame.mk router hwAddr packetBuff).Addressed links st i := by
  obtain ⟨hsrc, hrouter⟩ := hnode.route h
  exact ⟨hsrc, .inr (hrouter hok), fun _ => htype⟩

theorem State.sendTowards_route {addr : Mac} {packetBuff : List Byte} {out : Output}
    (hout : out ∈ s.sendTowards g addr packetBuff) :
    ∃ hwAddr router, s.route g addr = some (hwAddr, router) ∧ out = .rawsockWrite ⟨router, hwAddr, packetBuff⟩ := by
  unfold State.sendTowards at hout
  cases hroute : s.route g addr with
  | none =>
    rw [hroute] at hout
    cases hout
  | some route =>
    obtain ⟨hwAddr, router⟩ := route
    rw [hroute] at hout
    exact ⟨hwAddr, router, rfl, List.mem_singleton.mp hout⟩

/-- A message of a unix client is an echo request, which goes by the route to its destination or comes back. -/
theorem State.mem_handlePacket {unixClient : UnixClient} {buff : List Byte} {out : Output}
    (hout : out ∈ s.handlePacket g unixClient buff) :
    (IcmpPacket.read buff).packetType = batIcmp ∧ (IcmpPacket.read buff).msgType = echoRequest ∧
      (out = .unixWrite unixClient.sock
          ({ IcmpPacket.read buff with msgType := destinationUnreachable }.write buff) ∨
        ∃ hwAddr router, s.route g (IcmpPacket.read buff).dst = some (hwAddr, router) ∧
          out = .rawsockWrite ⟨router, hwAddr,
            { IcmpPacket.read buff with uid := unixClient.uid, orig := hwAddr }.write buff⟩) := by
  unfold State.handlePacket at hout
  dsimp only at hout
  by_cases hecho : (IcmpPacket.read buff).packetType = batIcmp ∧ (IcmpPacket.read buff).msgType = echoRequest
  · refine ⟨hecho.1, hecho.2, ?_⟩
    rw [if_pos hecho] at hout
    cases hroute : s.route g (IcmpPacket.read buff).dst with
    | none =>
      rw [hroute] at hout
      exact .inl (List.mem_singleton.mp hout)
    | some route =>
      obtain ⟨hwAddr, router⟩ := route
      rw [hroute] at hout
      dsimp only at hout
      split_ifs at hout
      · exact .inr ⟨hwAddr, router, rfl, List.mem_singleton.mp hout⟩
      · exact .inl (List.mem_singleton.mp hout)
  · rw [if_neg hecho] at hout
    cases hout

/-- A frame is sent on towards an originator, or as the broadcast it is on an interface. -/
theorem Node.receivePacketBatiface_sent (node : Node p) (g : Garbage p) (frame : Frame) :
    ∀ out ∈ (node.receivePacketBatiface g frame).outs, ∀ frame' ∈ out.sent,
      (∃ addr packetBuff, out ∈ node.state.sendTowards g addr packetBuff ∧
          (packetBuff.getD 0 0 = batUnicast ∨ packetBuff.getD 0 0 = batIcmp)) ∨
        frame.rawsockRead.getD 0 0 = batBcast ∧ ∃ batmanIf ∈ node.state.ifList,
          frame' = ⟨frame.dhost, batmanIf.hwAddr, frame.rawsockRead⟩ := by
  intro out hout frame' hframe
  unfold Node.receivePacketBatiface at hout
  dsimp only at hout
  split_ifs at hout with hlen htype hshort hunicast hicmp hbcast haccepted
  · cases hout
  · cases hout
  · cases hout
  · unfold State.receiveUnicast at hout
    dsimp only at hout
    split_ifs at hout
    · cases hout
    · cases hout
    · cases hout
    · obtain rfl := List.mem_singleton.mp hout
      cases hframe
    · cases hout
    · exact .inl ⟨_, _, hout, .inl hunicast⟩
  · unfold Node.receiveIcmp State.answerIcmp at hout
    dsimp only at hout
    split_ifs at hout
    · cases hout
    · cases hout
    · cases hout
    · exact .inl ⟨_, _, hout, .inr hicmp⟩
    · split at hout
      · obtain rfl := List.mem_singleton.mp hout
        cases hframe
      · cases hout
    · exact .inl ⟨_, _, hout, .inr hicmp⟩
    · cases hout
    · exact .inl ⟨_, _, hout, .inr hicmp⟩
  · rcases List.mem_cons.mp hout with rfl | hout
    · cases hframe
    · obtain ⟨batmanIf, hif, rfl⟩ := List.mem_map.mp hout
      exact .inr ⟨hbcast, batmanIf, hif, (Option.some.inj hframe).symm⟩
  · cases hout
  · cases hout

theorem Node.Acts.addressed [DecidableEq ι] (h : node.Acts order d m o) (hnode : node.Sound links st made i)
    (hafter : o.state.Sound links st (learn made i o.made) i) (hok : node.state.RouterOk)
    (hokafter : o.state.state.RouterOk) (hm : ∀ frame ∈ m, ∃ j, frame.Addressed links st j) :
    ∀ frame ∈ o.sent, frame.Addressed links st i := by
  intro frame hframe
  cases h with
  | hear g arrival frame' hwalk hif hreaches =>
    obtain ⟨out, hout, hsent⟩ := List.mem_filterMap.mp hframe
    rw [node.processFrame_snd] at hout
    rcases node.receivePacketBatiface_sent g frame' out hout frame hsent with
      ⟨addr, packetBuff, htowards, htype⟩ | ⟨htype, batmanIf, hmem, rfl⟩
    · obtain ⟨hwAddr, router, hroute, rfl⟩ := State.sendTowards_route htowards
      obtain rfl := Option.some.inj hsent
      exact .routed hnode hok hroute htype
    · obtain ⟨j, haddressed⟩ := hm frame' rfl
      refine .everybody (hnode.mem_hwAddrs hmem) (not_not.mp fun hother => ?_)
      have hpacketType : frame'.packetType = batBcast := frame'.getD_rawsockRead.symm.trans htype
      rcases haddressed.single hother with hunicast | hicmp
      · exact absurd (hpacketType.symm.trans hunicast) (by decide)
      · exact absurd (hpacketType.symm.trans hicmp) (by decide)
  | tap g tapFrame hwalk hne =>
    obtain ⟨out, hout, hsent⟩ := List.mem_filterMap.mp hframe
    unfold State.receivePacketTap at hout hafter hokafter
    dsimp only at hout hafter hokafter
    split_ifs at hout hafter hokafter with hempty hbroadcast
    · cases hout
    · obtain ⟨batmanIf, hmem, rfl⟩ := List.mem_map.mp hout
      obtain rfl := Option.some.inj hsent
      exact .everybody (hnode.mem_hwAddrs hmem) rfl
    · obtain ⟨hwAddr, router, hroute, rfl⟩ := State.sendTowards_route hout
      obtain rfl := Option.some.inj hsent
      exact .routed hafter hokafter hroute (.inl rfl)
  | client g unixClient buff hlen =>
    obtain ⟨out, hout, hsent⟩ := List.mem_filterMap.mp hframe
    obtain ⟨htype, -, rfl | ⟨hwAddr, router, hroute, rfl⟩⟩ := State.mem_handlePacket hout
    · cases hsent
    · obtain rfl := Option.some.inj hsent
      exact .routed hnode hok hroute (.inr htype)
  | slots unixPacket => cases hframe
  | loop e s hperiodic hstep =>
    obtain ⟨f, hf, hmem⟩ := List.mem_flatMap.mp hframe
    obtain ⟨c, hc, rfl⟩ := List.mem_map.mp hmem
    obtain ⟨batmanIf, hif, flags, -, heq⟩ := State.mem_sendForw hc
    rw [heq]
    exact .everybody (hnode.mem_hwAddrs hif) rfl

/-! ## The network -/

theorem Network.keeps_addressed [DecidableEq ι] (links : ι → ι → Bool) (st : ι → Station) :
    Keeps links (Network.behaviour (p := p) st) (fun node d => d.KeepsRouters node)
      (fun made i node => node.Sound links st made i ∧ node.state.RouterOk)
      fun made j frame => frame.Honest st made j ∧ frame.Addressed links st j where
  inv_mono hle hnode := ⟨hnode.1.mono hle, hnode.2⟩
  msg_mono hle hframe := ⟨hframe.1.mono hle, hframe.2⟩
  act := by
    intro made i node d m o hnode hm hgood hact
    have hacts := Node.acts hact
    have hhonest : ∀ frame ∈ m, ∃ j, links j i = true ∧ frame.Honest st made j := fun frame hframe =>
      (hm frame hframe).imp fun j hj => ⟨hj.1, hj.2.1⟩
    have haddressed : ∀ frame ∈ m, ∃ j, frame.Addressed links st j := fun frame hframe =>
      (hm frame hframe).imp fun j hj => hj.2.2
    obtain ⟨hafter, hsent⟩ := (Network.keeps links st).act hnode.1 hhonest trivial hact
    obtain ⟨tr, hrun⟩ := hnode.1.run
    have hok := hacts.routerOk hrun hnode.2 hgood
    exact ⟨⟨hafter, hok⟩, fun frame hframe =>
      ⟨hsent frame hframe, hacts.addressed hnode.1 hafter hnode.2 hok haddressed frame hframe⟩⟩

/-- **Frames go from neighbour to neighbour.** In every run whose purges leave the routers in their lists, a frame
has an address of the node that has sent it as its source. It is for everybody, or payload or ICMP for a node that
its sender can hear. -/
theorem frames_addressed [DecidableEq ι] {w : World ι (Node p) Frame Note}
    {tr : List (World ι (Node p) Frame Note × Happening ι (Deed p))} (h : Network.Run links st tr w)
    (hgood : ∀ x ∈ tr, x.2.what.KeepsRouters (x.1.party x.2.who)) (hair : (j, frame) ∈ w.air) :
    frame.shost ∈ (st j).cfg.hwAddrs ∧ (frame.dhost = broadcastAddr ∨
      (frame.packetType = batUnicast ∨ frame.packetType = batIcmp) ∧
        ∃ k, links k j = true ∧ frame.dhost ∈ (st k).cfg.hwAddrs) := by
  have hstart : (Network.start p st).Holds (fun made i node => node.Sound links st made i ∧ node.state.RouterOk)
      fun made j frame => frame.Honest st made j ∧ frame.Addressed links st j :=
    ⟨fun i => ⟨(Network.start_holds links st).party i, (st i).cfg.forall_origs_boot⟩,
      fun _ hx => absurd hx List.not_mem_nil⟩
  have haddressed := (((Network.keeps_addressed links st).run h hgood hstart).air (j, frame) hair).2
  refine ⟨haddressed.shost, ?_⟩
  by_cases hdhost : frame.dhost = broadcastAddr
  · exact .inl hdhost
  · exact .inr ⟨haddressed.single hdhost, haddressed.dhost.resolve_left hdhost⟩

/-- The payload for the host of `macA`. -/
theorem frames_addressed_sent : ∃ tr w, Network.Run (p := Net.p64) (fun _ _ => true) Net.pair tr w ∧
    tr.map Prod.snd = Net.sending ∧
    (false, Frame.mk Net.macA Net.me0 ((UnicastPacket.towards Net.macA ttlInit).bytes ++ Net.forHost)) ∈ w.air ∧
    ∃ k, Net.macA ∈ (Net.pair k).cfg.hwAddrs := by
  obtain ⟨tr, w, hrun, hevents, hcheck⟩ := Network.Run.of_exec (fun _ _ => true) Net.pair Net.sending
    (fun tr w => decide ((∀ x ∈ tr, x.2.what.KeepsRouters (x.1.party x.2.who)) ∧ (false, Frame.mk Net.macA Net.me0
      ((UnicastPacket.towards Net.macA ttlInit).bytes ++ Net.forHost)) ∈ w.air)) (by decide +kernel)
  obtain ⟨hgood, hair⟩ := of_decide_eq_true hcheck
  obtain ⟨-, hall | ⟨-, k, -, hk⟩⟩ := frames_addressed hrun hgood hair
  · exact absurd hall (by decide)
  · exact ⟨tr, w, hrun, hevents, hair, k, hk⟩

end BatmanAdv
