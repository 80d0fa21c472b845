import BatmanAdv.Network

/-!
# Genuine OGMs

A daemon believes what it is told: there is no check of who has sent an OGM. In a network of daemons alone
this is no harm. What their tables say about other nodes and about hosts is true, whatever was lost, delayed
or sent twice.
-/

namespace BatmanAdv

open Parties Transition

variable {ι : Type*} {p : Platform} {node : Node p} {order : ByteOrder} {d : Deed p} {m : Option Frame}
  {o : Outcome (Node p) Frame Note} {g : Garbage p} {rx : Ogm}

/-! ## Own packets -/

structure BatmanIf.Configured (cfg : Config) (batmanIf : BatmanIf) : Prop where
  hwAddr : batmanIf.hwAddr ∈ cfg.hwAddrs
  out : batmanIf.out = { (cfg.batmanIf batmanIf.hwAddr).out with
    seqno := batmanIf.out.seqno, numHna := batmanIf.out.numHna }

/-- An own packet of a node with this configuration, with hosts of it. -/
structure ForwNode.Announces (cfg : Config) (heard : Mac → Prop) (f : ForwNode) : Prop where
  orig : f.pack.orig ∈ cfg.hwAddrs
  pack : f.pack = { (cfg.batmanIf f.pack.orig).out with seqno := f.pack.seqno, numHna := f.pack.numHna }
  hna : HostBytes heard f.packHna

variable {cfg : Config} {s s' : State p} {e : Event p} {heard : Mac → Prop}

theorem forall_mem_modify {α : Type*} {P : α → Prop} {l : List α} {i : ℕ} {f : α → α} (h : ∀ a ∈ l, P a)
    (hf : ∀ a, P a → P (f a)) : ∀ a ∈ l.modify i f, P a := by
  intro a ha
  obtain ⟨j, hj⟩ := List.mem_iff_getElem?.mp ha
  rw [List.getElem?_modify] at hj
  obtain ⟨b, hb, rfl⟩ := Option.map_eq_some_iff.mp hj
  have hbl := h b (List.mem_of_getElem? hb)
  split_ifs
  · exact hf b hbl
  · exact hbl

/-- The interfaces of a node with this configuration. -/
def State.Configured (cfg : Config) (s : State p) : Prop := ∀ batmanIf ∈ s.ifList, batmanIf.Configured cfg

theorem State.Configured.modOut (h : s.Configured cfg) (ifNum : ℕ) {f : BatmanPacket → BatmanPacket}
    (hf : ∀ out, f out = { out with seqno := (f out).seqno, numHna := (f out).numHna }) :
    (s.modOut ifNum f).Configured cfg := by
  refine forall_mem_modify h fun batmanIf hif => ⟨hif.hwAddr, ?_⟩
  dsimp only
  rw [hf, hif.out]

theorem State.Configured.scheduleOwnPacket (h : s.Configured cfg) (ifNum : ℕ) (now : Time) (rnd : ℕ) :
    (s.scheduleOwnPacket ifNum now rnd).Configured cfg :=
  State.Configured.modOut (s := s) h ifNum (f := fun out => { out with seqno := out.seqno + 1 }) fun _ => rfl

theorem step_configured (hs : s.Wf) (h : s.Configured cfg) (hstep : step s e = some s') : s'.Configured cfg := by
  cases stepped hstep with
  | ogm g rx =>
    have hmoves : Moves g rx s (s.batmanOgm g rx).1 := State.batmanOgm_moves hs
    unfold State.Configured
    rw [hmoves.ifList]
    exact h
  | bcast g frame =>
    rcases s.receiveBcast_cases g frame with heq | ⟨o, _, _, heq⟩
    · rw [heq]
      exact h
    · rw [heq]
      exact h
  | tap shost dhost =>
    unfold State.receiveTap
    dsimp only
    split_ifs
    · exact forall_mem_modify h fun batmanIf hif => ⟨hif.hwAddr, hif.out⟩
    · exact h
  | clock => exact h
  | hnaUpdate =>
    unfold State.hnaUpdate
    generalize s.trans.hnaUpdate s.currTime p s.tapMtu s.primary = updated
    obtain ⟨trans, announced⟩ := updated
    cases announced with
    | none => exact h
    | some numHna =>
      exact State.Configured.modOut (s := { s with trans := trans }) h 0
        (f := fun out => { out with numHna := BitVec.ofNat 8 numHna }) fun _ => rfl
  | purge g currTime gwTime =>
    unfold State.Configured
    rw [(s.purgeOrig_frame g currTime gwTime).1]
    exact h
  | sendBegin => exact h
  | sendNext now rnd _ _ hnext =>
    rcases State.sendNext_cases hnext with rfl | ⟨t, pos, f, _, _, _, rfl⟩
    · exact h
    · dsimp only
      split_ifs
      · refine State.Configured.scheduleOwnPacket ?_ f.ifOutgoing now rnd
        exact h
      · exact h

theorem State.Configured.outOf (h : s.Configured cfg) {ifNum : ℕ} (hif : ifNum < s.ifList.length) :
    (s.outOf ifNum).orig ∈ cfg.hwAddrs ∧ s.outOf ifNum = { (cfg.batmanIf (s.outOf ifNum).orig).out with
      seqno := (s.outOf ifNum).seqno, numHna := (s.outOf ifNum).numHna } := by
  have hmem := h _ (List.getElem_mem hif)
  have hout : s.outOf ifNum = (s.ifList[ifNum]).out := by
    unfold State.outOf
    rw [List.getElem?_eq_getElem hif]
  have horig : (s.outOf ifNum).orig = (s.ifList[ifNum]).hwAddr := by
    rw [hout, hmem.out]
    rfl
  rw [horig, hout]
  exact ⟨hmem.hwAddr, hmem.out⟩

theorem State.ownNode_announces (h : s.Configured cfg) (hhosts : HostBytes heard s.trans.hnaBuff) {ifNum : ℕ}
    (hif : ifNum < s.ifList.length) (now : Time) (rnd : ℕ) : (s.ownNode ifNum now rnd).Announces cfg heard :=
  ⟨(h.outOf hif).1, (h.outOf hif).2, hhosts.take s.trans.numHna⟩

/-! ## At the start -/

theorem Config.scheduled_announces (cfg : Config) (p : Platform) (heard : Mac → Prop) {k : ℕ}
    (hk : k ≤ cfg.hwAddrs.length) :
    let s := (List.range k).foldl (fun s i => s.scheduleOwnPacket i (cfg.now i) (cfg.rnd i)) (cfg.start p)
    s.Configured cfg ∧ s.ifList.length = cfg.hwAddrs.length ∧ s.trans.hnaBuff = [] ∧
      ∀ f ∈ s.forwList, f.Announces cfg heard := by
  induction k with
  | zero =>
    refine ⟨fun batmanIf hif => ?_, List.length_map _, rfl, fun f hf => absurd hf List.not_mem_nil⟩
    obtain ⟨hwAddr, hmem, rfl⟩ := List.mem_map.mp hif
    exact ⟨hmem, rfl⟩
  | succ k ih =>
    obtain ⟨hs, hlen, hbuff, hqueue⟩ := ih (Nat.le_of_succ_le hk)
    rw [List.range_succ, List.foldl_append, List.foldl_cons, List.foldl_nil]
    generalize (List.range k).foldl
      (fun s i => s.scheduleOwnPacket i (cfg.now i) (cfg.rnd i)) (cfg.start p) = s
      at hs hlen hbuff hqueue
    have hlt : k < s.ifList.length := by rw [hlen]; exact hk
    have hhosts : HostBytes heard s.trans.hnaBuff :=
      ⟨[], hbuff, fun mac hmac => absurd hmac List.not_mem_nil⟩
    refine ⟨hs.scheduleOwnPacket k _ _, ?_, hbuff, fun f hf => ?_⟩
    · rw [s.length_scheduleOwnPacket, hlen]
    · rcases mem_insertForw.mp hf with rfl | hf
      · exact State.ownNode_announces hs hhosts hlt _ _
      · exact hqueue f hf

theorem Config.boot_configured (cfg : Config) (p : Platform) (heard : Mac → Prop) :
    (cfg.boot p).Configured cfg ∧ ∀ f ∈ (cfg.boot p).forwList, f.Announces cfg heard := by
  obtain ⟨hs, -, -, hqueue⟩ := cfg.scheduled_announces p heard le_rfl
  exact ⟨hs, hqueue⟩

/-! ## What is true of the network -/

variable (links : ι → ι → Bool) (st : ι → Station) (made : ι → List Note)

/-- A host that the tap of the node has seen, or the node itself. -/
def HeardAt (i : ι) (mac : Mac) : Prop :=
  mac = (st i).cfg.primary ∨ ∃ payload, .tapRead payload ∈ made i ∧ mac = Mac.read payload 6

/-- The node has queued this packet, with hosts of it. -/
def AnnouncedBy (i : ι) (f : ForwNode) : Prop :=
  .announced f ∈ made i ∧ f.Announces (st i).cfg (HeardAt st made i)

/-- An OGM that some node has made, and that others may have passed on. -/
def Genuine (pkt : BatmanPacket) (hna : List Byte) : Prop :=
  ∃ i f, AnnouncedBy st made i f ∧ hna <+: f.packHna ∧
    pkt = { f.pack with flags := pkt.flags, ttl := pkt.ttl, tq := pkt.tq, oldOrig := pkt.oldOrig }

/-- What may be known in the network, at the node `i`. -/
def told (i : ι) : Evidence where
  addr a := ∃ j, a ∈ (st j).cfg.hwAddrs
  near a := ∃ j, links j i = true ∧ a ∈ (st j).cfg.hwAddrs
  gwflags a gwflags := ∃ j, a ∈ (st j).cfg.hwAddrs ∧ gwflags = (st j).cfg.gatewayClass
  hna a bytes := ∃ j f, AnnouncedBy st made j f ∧ f.pack.orig = a ∧ bytes <+: f.packHna
  host mac := HeardAt st made i mac

/-- An OGM in the air is genuine, and its sender has the address it is from. -/
def Frame.Honest (j : ι) (frame : Frame) : Prop :=
  ∀ rx : Ogm, frame.HoldsOgm rx → rx.neigh ∈ (st j).cfg.hwAddrs ∧ Genuine st made rx.pkt rx.hna

/-- **The invariant of a node.** -/
structure Node.Sound (i : ι) (node : Node p) : Prop where
  run : ∃ tr, BatmanAdv.Run p (st i).cfg tr node.state
  configured : node.state.Configured (st i).cfg
  vouched : node.state.Vouched (told links st made i)
  hosts : HostBytes (HeardAt st made i) node.state.trans.hnaBuff
  queue : ∀ f ∈ node.state.forwList, Genuine st made f.pack f.packHna

variable {links st made} {made' : ι → List Note} {i j : ι}

theorem HeardAt.mono {mac : Mac} (h : HeardAt st made i mac) (hle : Recalls made made') : HeardAt st made' i mac :=
  h.imp_right fun ⟨payload, hmem, hmac⟩ => ⟨payload, hle i hmem, hmac⟩

theorem AnnouncedBy.mono {f : ForwNode} (h : AnnouncedBy st made i f) (hle : Recalls made made') :
    AnnouncedBy st made' i f :=
  ⟨hle i h.1, h.2.orig, h.2.pack, h.2.hna.mono fun _ hmac => hmac.mono hle⟩

theorem Genuine.mono {pkt : BatmanPacket} {hna : List Byte} (h : Genuine st made pkt hna)
    (hle : Recalls made made') : Genuine st made' pkt hna := by
  obtain ⟨i, f, hf, hrest⟩ := h
  exact ⟨i, f, hf.mono hle, hrest⟩

theorem told_le (hle : Recalls made made') (i : ι) : (told links st made i).Le (told links st made' i) where
  addr h := h
  near h := h
  gwflags h := h
  hna := fun ⟨j, f, hf, hrest⟩ => ⟨j, f, hf.mono hle, hrest⟩
  host h := HeardAt.mono h hle

theorem Node.Sound.mono (h : node.Sound links st made i) (hle : Recalls made made') : node.Sound links st made' i where
  run := h.run
  configured := h.configured
  vouched := h.vouched.mono (told_le hle i)
  hosts := h.hosts.mono fun _ hmac => hmac.mono hle
  queue f hf := (h.queue f hf).mono hle

theorem Genuine.passedOn {pkt pkt' : BatmanPacket} {hna hna' : List Byte} (h : Genuine st made pkt hna)
    (hpkt : pkt' = { pkt with flags := pkt'.flags, ttl := pkt'.ttl, tq := pkt'.tq, oldOrig := pkt'.oldOrig })
    (hhna : hna' <+: hna) : Genuine st made pkt' hna' := by
  obtain ⟨i, f, hf, hpiece, heq⟩ := h
  refine ⟨i, f, hf, hhna.trans hpiece, ?_⟩
  rw [heq] at hpkt
  exact hpkt

theorem Genuine.tells {rx : Ogm} (h : Genuine st made rx.pkt rx.hna) (hlink : links j i = true)
    (hneigh : rx.neigh ∈ (st j).cfg.hwAddrs) : (told links st made i).Tells rx := by
  obtain ⟨k, f, hf, hpiece, heq⟩ := h
  have horig : rx.pkt.orig = f.pack.orig := by rw [heq]
  have hgw : rx.pkt.gwflags = f.pack.gwflags := by rw [heq]
  have hclass : f.pack.gwflags = (st k).cfg.gatewayClass := congrArg BatmanPacket.gwflags hf.2.pack
  have hmem : rx.pkt.orig ∈ (st k).cfg.hwAddrs := horig ▸ hf.2.orig
  refine ⟨⟨j, hneigh⟩, ⟨j, hlink, hneigh⟩, ⟨k, hmem⟩, ⟨k, hmem, hgw.trans hclass⟩, k, f, hf, horig.symm, ?_⟩
  exact (List.take_prefix _ _).trans hpiece

/-! ## Frames -/

theorem Frame.Honest.of_type {frame : Frame} (h : frame.packetBuff.getD 0 0 ≠ batPacket) :
    frame.Honest st made i := by
  intro rx hrx
  exact absurd (frame.getD_rawsockRead.symm.trans hrx.packetType) h

theorem Frame.Honest.mono {frame : Frame} (h : frame.Honest st made i) (hle : Recalls made made') :
    frame.Honest st made' i := by
  intro rx hrx
  obtain ⟨hneigh, hgenuine⟩ := h rx hrx
  exact ⟨hneigh, hgenuine.mono hle⟩

theorem State.sendForw_honest (hconf : s.Configured (st i).cfg) {f : ForwNode}
    (hf : Genuine st made f.pack f.packHna) {c : ℕ × Frame} (hc : c ∈ s.sendForw order f) :
    c.2.Honest st made i := by
  obtain ⟨batmanIf, hif, flags, -, heq⟩ := State.mem_sendForw hc
  intro rx hrx
  obtain ⟨hpkt, hhna⟩ := hrx.of_bytes (congrArg Frame.packetBuff heq)
  refine ⟨?_, hf.passedOn ?_ hhna⟩
  · rw [hrx.neigh, heq]
    exact (hconf batmanIf hif).hwAddr
  · rw [hpkt]

/-! ## The invariant -/

theorem Node.Acts.tells [DecidableEq ι] (h : node.Acts order d m o)
    (hm : ∀ frame ∈ m, ∃ j, links j i = true ∧ frame.Honest st made j) (he : e.ComesFrom d m) :
    (told links st (learn made i o.made) i).TellsAt e := by
  have hle := recalls_learn made i o.made
  cases e with
  | ogm g rx =>
    obtain ⟨frame, hframe, hholds⟩ := he
    obtain ⟨j, hlink, hhonest⟩ := hm frame hframe
    obtain ⟨hneigh, hgenuine⟩ := hhonest rx hholds
    exact (hgenuine.mono hle).tells hlink hneigh
  | tap shost dhost =>
    obtain ⟨g, tapFrame, rfl, -, rfl⟩ := he
    refine .inr ⟨tapRead tapFrame, mem_learn.mpr (.inr ⟨rfl, ?_⟩), rfl⟩
    rw [h.made_tap]
    exact List.mem_cons_self
  | bcast g frame => trivial
  | clock now => trivial
  | hnaUpdate => trivial
  | purge g currTime gwTime => trivial
  | sendBegin now => trivial
  | sendNext now rnd => trivial

theorem Node.Acts.announced [DecidableEq ι] (h : node.Acts order d m o) (he : e.ComesFrom d m)
    (hnode : node.Sound links st made i) {f : ForwNode} (hf : node.state.originates e = some f) :
    AnnouncedBy st (learn made i o.made) i f := by
  obtain ⟨tr, hrun⟩ := hnode.run
  obtain ⟨now, rnd, rfl, ifNum, hif, rfl⟩ := hrun.queueOk.originates hf
  obtain rfl : d = .loop (.sendNext now rnd) := he
  refine ⟨mem_learn.mpr (.inr ⟨rfl, ?_⟩), ?_⟩
  · rw [h.made_loop, hf]
    exact List.mem_cons_self
  · have hhosts := hnode.hosts.mono fun mac (hmac : HeardAt st made i mac) =>
      hmac.mono (recalls_learn made i o.made)
    exact State.ownNode_announces hnode.configured hhosts hif now rnd

theorem Node.Sound.acts [DecidableEq ι] (hnode : node.Sound links st made i) (h : node.Acts order d m o)
    (hm : ∀ frame ∈ m, ∃ j, links j i = true ∧ frame.Honest st made j) :
    o.state.Sound links st (learn made i o.made) i := by
  have hle := recalls_learn made i o.made
  obtain ⟨tr, hrun⟩ := hnode.run
  rcases h.step with hsame | ⟨e, hstep, he⟩
  · have hkept := hnode.mono hle
    refine ⟨⟨tr, ?_⟩, ?_, ?_, ?_, ?_⟩
    · rwa [hsame]
    · rw [hsame]
      exact hkept.configured
    · rw [hsame]
      exact hkept.vouched
    · rw [hsame]
      exact hkept.hosts
    · rw [hsame]
      exact hkept.queue
  · have hs := hrun.wf
    have htells : (told links st (learn made i o.made) i).TellsAt e := h.tells hm he
    have hkept := hnode.mono hle
    refine ⟨⟨_, hrun.snoc hstep⟩, step_configured hs hnode.configured hstep,
      step_vouched hs hrun.hnaOk hkept.vouched htells hstep,
      step_hosts hs hrun.hnaOk hkept.vouched hkept.hosts htells hstep, fun f hf => ?_⟩
    rcases step_forwList hs hstep hf with hold | hown | ⟨g, rx, rfl, hhna, -, hpack⟩
    · exact hkept.queue f hold
    · exact ⟨i, f, h.announced he hnode hown, List.prefix_refl _, rfl⟩
    · obtain ⟨frame, hframe, hholds⟩ := he
      obtain ⟨j, -, hhonest⟩ := hm frame hframe
      obtain ⟨-, hgenuine⟩ := hhonest rx hholds
      rw [hhna]
      exact (hgenuine.mono hle).passedOn hpack (List.prefix_refl _)

/-- **One step of one node** keeps the invariant, and sends nothing but honest frames. -/
theorem Network.keeps [DecidableEq ι] (links : ι → ι → Bool) (st : ι → Station) :
    Keeps links (Network.behaviour (p := p) st) (fun _ _ => True) (fun made i node => node.Sound links st made i)
      fun made j frame => frame.Honest st made j where
  inv_mono hle hnode := hnode.mono hle
  msg_mono hle hframe := hframe.mono hle
  act := by
    intro made i node d m o hnode hm _ hact
    have hacts := Node.acts hact
    refine ⟨hnode.acts hacts hm, fun frame hframe => ?_⟩
    rcases hacts.sent hframe with htype | ⟨f, hf, c, hc, rfl⟩
    · exact .of_type htype
    · have hkept := hnode.mono (recalls_learn made i o.made)
      exact State.sendForw_honest hkept.configured (hkept.queue f hf) hc

theorem Node.Sound.host (hnode : node.Sound links st made i) {mac batmanMac : Mac}
    (hsearch : node.state.trans.transtableSearch mac = some batmanMac) :
    ∃ j, batmanMac ∈ (st j).cfg.hwAddrs ∧ HeardAt st made j mac := by
  obtain ⟨_, hrun⟩ := hnode.run
  obtain ⟨e, he, rfl, rfl⟩ := hrun.hnaOk.linked.transtableSearch_eq_some_iff.mp hsearch
  obtain ⟨hown, hother⟩ := hnode.vouched.host e he
  rw [hrun.hwAddrs] at hown hother
  by_cases hmy : e.batmanMac ∈ (st i).cfg.hwAddrs
  · exact ⟨i, hmy, hown hmy⟩
  · obtain ⟨bytes, ⟨j, f, hf, horig, hpiece⟩, hmem⟩ := hother hmy
    refine ⟨j, horig ▸ hf.2.orig, ?_⟩
    obtain ⟨macs, hmacs, hheard⟩ := hf.2.hna
    have hhosts := TransTable.hosts_subset hpiece le_rfl hmem
    rw [hmacs, hosts_flatMap_bytes] at hhosts
    exact hheard _ hhosts

theorem Network.start_holds (links : ι → ι → Bool) (st : ι → Station) :
    (Network.start p st).Holds (fun made i node => node.Sound links st made i)
      fun made j frame => frame.Honest st made j := by
  refine ⟨fun i => ?_, fun x hx => absurd hx List.not_mem_nil⟩
  obtain ⟨hconf, hqueue⟩ := (st i).cfg.boot_configured p (HeardAt st (Network.start p st).made i)
  obtain ⟨hvouched, hhosts⟩ := (st i).cfg.boot_vouched (p := p)
    (E := told links st (Network.start p st).made i) (.inl rfl)
  refine ⟨⟨[], .nil⟩, hconf, hvouched, hhosts, fun f hf => ?_⟩
  exact ⟨i, f, ⟨List.mem_map_of_mem hf, hqueue f hf⟩, List.prefix_refl _, rfl⟩

/-! ## Runs -/

variable [DecidableEq ι] {links : ι → ι → Bool} {w : World ι (Node p) Frame Note}
  {tr : List (World ι (Node p) Frame Note × Happening ι (Deed p))}

theorem Network.Run.holds (h : Network.Run links st tr w) :
    w.Holds (fun made i node => node.Sound links st made i) fun made j frame => frame.Honest st made j :=
  (Network.keeps links st).run_all h (Network.start_holds links st)

def Deed.call : Deed p → Option (Event p)
  | .loop e => some e
  | _ => none

/-- No purge that reroutes an entry with a stored announcement, which it would read after freeing it. -/
def Deed.KeepsBuffers (node : Node p) (d : Deed p) : Prop := ∀ e ∈ d.call, ¬ node.state.ReroutesStored e

instance (node : Node p) (d : Deed p) : Decidable (d.KeepsBuffers node) :=
  inferInstanceAs (Decidable (∀ e ∈ d.call, _))

/-- The HNA buffers of the node are valid and hold what its entries announce. -/
def Node.BuffersValid (cfg : Config) (node : Node p) : Prop :=
  ∃ tr m, BatmanAdv.Run p cfg tr node.state ∧ hnaMem tr = some m ∧ m.Holds node.state

theorem Node.BuffersValid.acts {cfg : Config} (hnode : node.BuffersValid cfg) (h : node.Acts order d m o)
    (hgood : d.KeepsBuffers node) : o.state.BuffersValid cfg := by
  obtain ⟨tr, mem, hrun, hmem, hholds⟩ := hnode
  rcases h.step with hsame | ⟨e, hstep, he⟩
  · unfold Node.BuffersValid
    rw [hsame]
    exact ⟨tr, mem, hrun, hmem, hholds⟩
  · have hgood' : ¬ node.state.ReroutesStored e := by
      cases e with
      | purge g currTime gwTime =>
        obtain rfl : d = .loop (.purge g currTime gwTime) := he
        exact hgood _ rfl
      | _ => exact id
    obtain ⟨mem', hcalls, hholds', -⟩ := (hholds.step hrun.wf hstep).1 hgood'
    refine ⟨_, mem', hrun.snoc hstep, ?_, hholds'⟩
    rw [hnaMem_snoc, hmem]
    exact hcalls

theorem Network.keeps_buffers (links : ι → ι → Bool) (st : ι → Station) :
    Keeps links (Network.behaviour (p := p) st) (fun node d => d.KeepsBuffers node)
      (fun _ i node => node.BuffersValid (st i).cfg) fun _ _ _ => True where
  inv_mono _ hnode := hnode
  msg_mono _ _ := trivial
  act hnode _ hgood hact := ⟨hnode.acts (Node.acts hact) hgood, fun _ _ => trivial⟩

theorem Network.Run.buffersValid (h : Network.Run links st tr w)
    (hbuffers : ∀ x ∈ tr, x.2.what.KeepsBuffers (x.1.party x.2.who)) (i : ι) :
    (w.party i).BuffersValid (st i).cfg := by
  have hstart : (Network.start p st).Holds (fun _ i node => node.BuffersValid (st i).cfg) fun _ _ _ => True :=
    ⟨fun i => ⟨[], _, .nil, rfl, HnaMem.holds_empty ((st i).cfg.origs_boot p).1⟩, fun _ _ => trivial⟩
  exact ((Network.keeps_buffers links st).run h hbuffers hstart).party i

/-- **Nobody speaks for another.** An OGM in the air, however often it was passed on, is one that its originator
has queued, with its own sequence number and gateway class; only the flags, the ttl, the `tq` and the previous
sender may differ. Each host in it is the originator itself, or was seen by the tap of the originator. -/
theorem ogms_genuine (h : Network.Run links st tr w) {j : ι} {frame : Frame} (hair : (j, frame) ∈ w.air)
    {rx : Ogm} (hogm : frame.HoldsOgm rx) :
    rx.neigh ∈ (st j).cfg.hwAddrs ∧ ∃ i f, .announced f ∈ w.made i ∧ rx.pkt.orig ∈ (st i).cfg.hwAddrs ∧
      rx.pkt = { f.pack with
        flags := rx.pkt.flags, ttl := rx.pkt.ttl, tq := rx.pkt.tq, oldOrig := rx.pkt.oldOrig } ∧
      rx.pkt.gwflags = (st i).cfg.gatewayClass ∧ rx.hna <+: f.packHna ∧
      ∀ mac ∈ TransTable.hosts rx.hna rx.hna.length, HeardAt st w.made i mac := by
  obtain ⟨hneigh, i, f, hf, hpiece, heq⟩ := h.holds.air (j, frame) hair rx hogm
  have horig : rx.pkt.orig = f.pack.orig := by rw [heq]
  have hgw : rx.pkt.gwflags = f.pack.gwflags := by rw [heq]
  have hclass : f.pack.gwflags = (st i).cfg.gatewayClass := congrArg BatmanPacket.gwflags hf.2.pack
  refine ⟨hneigh, i, f, hf.1, horig ▸ hf.2.orig, heq, hgw.trans hclass, hpiece, fun mac hmac => ?_⟩
  obtain ⟨macs, hmacs, hheard⟩ := hf.2.hna
  have hmem := TransTable.hosts_subset hpiece le_rfl hmac
  rw [hmacs, hosts_flatMap_bytes] at hmem
  exact hheard mac hmem

/-- The first OGM of `me0`, as `macA` sends it back. -/
def Net.sentBack : Frame :=
  ⟨broadcastAddr, macA, (⟨batPacket, compatVersion, directlink, 49, 0, 0, 1, me0, me0, 0, 0⟩ : BatmanPacket).bytes⟩

/-- It is one that `me0` has queued. -/
theorem ogms_genuine_sentBack : ∃ tr w, Network.Run (p := Net.p64) (fun _ _ => true) Net.pair tr w ∧
    tr.map Prod.snd = Net.pairing ∧ (true, Net.sentBack) ∈ w.air ∧
    ∃ i f, .announced f ∈ w.made i ∧ Net.me0 ∈ (Net.pair i).cfg.hwAddrs ∧ f.pack.seqno = 1 := by
  obtain ⟨tr, w, hrun, hevents, hair⟩ := Network.Run.of_exec (fun _ _ => true) Net.pair Net.pairing
    (fun _ w => decide ((true, Net.sentBack) ∈ w.air)) (by decide +kernel)
  have hogm : Net.sentBack.HoldsOgm (Net.onArrival.ogm Net.macA Net.sentBack.rawsockRead) :=
    ⟨by decide, by decide, rfl, rfl, rfl⟩
  obtain ⟨-, i, f, hmade, horig, heq, -⟩ := ogms_genuine hrun (of_decide_eq_true hair) hogm
  have hseqno := congrArg BatmanPacket.seqno heq
  exact ⟨tr, w, hrun, hevents, of_decide_eq_true hair, i, f, hmade, horig, hseqno.symm⟩

/-- **The originator tables tell the truth.** An entry is about another node and its neighbours are addresses of
nodes this one hears. A gateway class other than 0 is that of the node. -/
theorem origs_true (h : Network.Run links st tr w) (i : ι) :
    ∀ o ∈ (w.party i).state.origs, o.orig ∉ (st i).cfg.hwAddrs ∧ (∃ j, o.orig ∈ (st j).cfg.hwAddrs) ∧
      (∀ n ∈ o.neighList, ∃ j, links j i = true ∧ n.addr ∈ (st j).cfg.hwAddrs) ∧
      (o.gwflags ≠ 0 → ∃ j, o.orig ∈ (st j).cfg.hwAddrs ∧ o.gwflags = (st j).cfg.gatewayClass) := by
  intro o ho
  have hnode := h.holds.party i
  obtain ⟨_, hrun⟩ := hnode.run
  obtain ⟨horig, hneigh, hgw, -⟩ := hnode.vouched.entry o ho
  refine ⟨?_, horig, hneigh, fun hne => hgw.resolve_left hne⟩
  rw [← hrun.hwAddrs]
  exact hrun.wf.foreign o ho

/-- `me0` knows of the gateway. -/
theorem origs_true_gateway : ∃ tr w, Network.Run (p := Net.p64) (fun _ _ => true) Net.pair tr w ∧
    tr.map Prod.snd = Net.pairing ∧ ∃ o ∈ (w.party false).state.origs, o.gwflags = 3 ∧
      ∃ j, o.orig ∈ (Net.pair j).cfg.hwAddrs ∧ o.gwflags = (Net.pair j).cfg.gatewayClass := by
  obtain ⟨tr, w, hrun, hevents, hcheck⟩ := Network.Run.of_exec (fun _ _ => true) Net.pair Net.pairing
    (fun _ w => decide (∃ o ∈ (w.party false).state.origs, o.gwflags = 3)) (by decide +kernel)
  obtain ⟨o, ho, hclass⟩ := of_decide_eq_true hcheck
  refine ⟨tr, w, hrun, hevents, o, ho, hclass, (origs_true hrun false o ho).2.2.2 ?_⟩
  rw [hclass]
  decide

/-- **The translation tables tell the truth.** In a network whose purges reroute no entry with a stored
announcement, the HNA buffers of every node are valid, and a host is mapped only to the address of a node whose
tap has seen it, or that it is itself. -/
theorem hosts_true (h : Network.Run links st tr w)
    (hbuffers : ∀ x ∈ tr, x.2.what.KeepsBuffers (x.1.party x.2.who)) (i : ι) :
    (w.party i).BuffersValid (st i).cfg ∧ ∀ mac batmanMac,
      (w.party i).state.trans.transtableSearch mac = some batmanMac →
        ∃ j, batmanMac ∈ (st j).cfg.hwAddrs ∧ HeardAt st w.made j mac :=
  ⟨h.buffersValid hbuffers i, fun _ _ hsearch => (h.holds.party i).host hsearch⟩

def Net.purging : List (Happening Bool (Deed p64)) :=
  pairing ++ [⟨false, .loop (.purge (zeros p64) 3000 3000), none⟩]

/-- `me0` has learned of the host `macC`. -/
theorem hosts_true_announced : ∃ tr w, Network.Run (p := Net.p64) (fun _ _ => true) Net.pair tr w ∧
    tr.map Prod.snd = Net.purging ∧
    (w.party false).state.trans.transtableSearch Net.macC = some Net.macA ∧
    ∃ j, Net.macA ∈ (Net.pair j).cfg.hwAddrs ∧ HeardAt Net.pair w.made j Net.macC := by
  obtain ⟨tr, w, hrun, hevents, hcheck⟩ := Network.Run.of_exec (fun _ _ => true) Net.pair Net.purging
    (fun tr w => decide ((∀ x ∈ tr, x.2.what.KeepsBuffers (x.1.party x.2.who)) ∧
      (w.party false).state.trans.transtableSearch Net.macC = some Net.macA)) (by decide +kernel)
  obtain ⟨hbuffers, hsearch⟩ := of_decide_eq_true hcheck
  exact ⟨tr, w, hrun, hevents, hsearch, (hosts_true hrun hbuffers false).2 _ _ hsearch⟩

end BatmanAdv
