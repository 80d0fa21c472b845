import BatmanAdv.Genuine
import BatmanAdv.HeardBack

/-!
# Links in both directions

A link counts only where the own OGMs come back over it. In a network of daemons with addresses of their own, a
neighbour that has a link quality is one that this node hears and that hears this node.
-/

namespace BatmanAdv

open Parties Transition

variable {ι : Type*} {p : Platform} {node : Node p} {order : ByteOrder} {d : Deed p} {m : Option Frame}
  {o : Outcome (Node p) Frame Note} {s : State p} {g : Garbage p} {rx : Ogm} {e : Event p}

/-- No two nodes share an address. -/
def Network.DistinctAddrs (st : ι → Station) : Prop :=
  ∀ i j a, a ∈ (st i).cfg.hwAddrs → a ∈ (st j).cfg.hwAddrs → i = j

variable (links : ι → ι → Bool) (st : ι → Station)

/-- An address of a node that this one hears, and that hears this one. -/
def TwoWay (i : ι) (addr : Mac) : Prop := ∃ j, addr ∈ (st j).cfg.hwAddrs ∧ links j i = true ∧ links i j = true

open Classical in
/-- What may be stored about a neighbour: nothing without a link in both directions. -/
noncomputable def twoWayTq (i : ι) (addr : Mac) : ℕ := if TwoWay links st i addr then tqMaxValue else 0

/-- A direct rebroadcast in the queue: its originator is heard here. -/
def ForwNode.Echoes (i : ι) (f : ForwNode) : Prop :=
  f.pack.flags &&& directlink ≠ 0 → ∃ j, links j i = true ∧ f.pack.orig ∈ (st j).cfg.hwAddrs

/-- A direct rebroadcast in the air: its sender has heard the originator. -/
def Frame.Echoes (i : ι) (frame : Frame) : Prop :=
  ∀ rx : Ogm, frame.HoldsOgm rx → rx.neigh ∈ (st i).cfg.hwAddrs ∧
    (rx.hasDirectlinkFlag = true → ∃ j, links j i = true ∧ rx.pkt.orig ∈ (st j).cfg.hwAddrs)

/-- **The invariant of a node.** -/
structure Node.HeardBack (i : ι) (node : Node p) : Prop where
  run : ∃ tr, BatmanAdv.Run p (st i).cfg tr node.state
  configured : node.state.Configured (st i).cfg
  heardBack : node.state.HeardBack (TwoWay links st i)
  rates : node.state.Rates fun _ addr => twoWayTq links st i addr
  queue : ∀ f ∈ node.state.forwList, f.Echoes links st i

variable {links st} {i : ι}

theorem Node.HeardBack.rated (hnode : node.HeardBack links st i) (hprocess : node.state.ogmCase rx = .process)
    (hone : ¬ TwoWay links st i rx.neigh) : ((node.state.counted g rx).rate rx).pkt.tq = 0 := by
  obtain ⟨_, hrun⟩ := hnode.run
  refine State.rated_of_unheard hrun.wf hrun.ownCounted hprocess fun o ho horig => ?_
  refine (hnode.heardBack o ho).resolve_left ?_
  rwa [horig]

theorem Node.HeardBack.twoWay (hnode : node.HeardBack links st i) {o : OrigNode p} (ho : o ∈ node.state.origs)
    {n : NeighNode p} (hn : n ∈ o.neighList) (hne : n.tqAvg ≠ 0) : TwoWay links st i n.addr := by
  have havg := (hnode.rates o ho n hn).avg
  unfold twoWayTq at havg
  dsimp only at havg
  split_ifs at havg with htwo
  · exact htwo
  · exact absurd (BitVec.eq_of_toNat_eq (Nat.le_zero.mp havg)) hne

/-- An own OGM comes back from a node that hears this one. -/
theorem Node.HeardBack.echo (hnode : node.HeardBack links st i) (huniq : Network.DistinctAddrs st)
    (hm : ∀ frame ∈ m, ∃ j, links j i = true ∧ frame.Echoes links st j)
    (he : (.ogm g rx : Event p).ComesFrom d m) (hown : node.state.ogmCase rx = .ownOrig)
    (hdirect : rx.hasDirectlinkFlag = true) : TwoWay links st i rx.neigh := by
  obtain ⟨_, hrun⟩ := hnode.run
  obtain ⟨frame, hframe, hholds⟩ := he
  obtain ⟨j, hlink, hechoes⟩ := hm frame hframe
  obtain ⟨hneigh, hheard⟩ := hechoes rx hholds
  obtain ⟨i', hback, horig⟩ := hheard hdirect
  have hmine := State.ogmCase_ownOrig hown
  rw [hrun.hwAddrs] at hmine
  obtain rfl := huniq _ _ _ horig hmine
  exact ⟨j, hneigh, hlink, hback⟩

theorem Node.HeardBack.acts (hnode : node.HeardBack links st i) (huniq : Network.DistinctAddrs st)
    (h : node.Acts order d m o) (hm : ∀ frame ∈ m, ∃ j, links j i = true ∧ frame.Echoes links st j) :
    o.state.HeardBack links st i := by
  obtain ⟨tr, hrun⟩ := hnode.run
  rcases h.step with hsame | ⟨e, hstep, he⟩
  · refine ⟨⟨tr, ?_⟩, ?_, ?_, ?_, ?_⟩
    · rwa [hsame]
    · rw [hsame]
      exact hnode.configured
    · rw [hsame]
      exact hnode.heardBack
    · rw [hsame]
      exact hnode.rates
    · rw [hsame]
      exact hnode.queue
  have hs := hrun.wf
  refine ⟨⟨_, hrun.snoc hstep⟩, step_configured hs hnode.configured hstep, ?_, ?_, fun f hf hflags => ?_⟩
  · refine step_heardBack hs hnode.heardBack (fun g rx heq hown hdirect => ?_) hstep
    exact hnode.echo huniq hm (heq ▸ he) hown hdirect
  · refine step_rates hs hnode.rates (fun g rx _ hprocess => ?_) hstep
    unfold twoWayTq
    split_ifs with htwo
    · exact Nat.le_of_lt_succ (BitVec.isLt _)
    · rw [hnode.rated hprocess htwo]
      exact le_rfl
  · rcases step_forwList hs hstep hf with hold | horiginates | ⟨g, rx, rfl, -, hpackflags, hpack⟩
    · exact hnode.queue f hold hflags
    · obtain ⟨now, rnd, -, ifNum, hif, rfl⟩ := hrun.queueOk.originates horiginates
      have hzero : (node.state.outOf ifNum).flags = 0 :=
        congrArg BatmanPacket.flags (hnode.configured.outOf hif).2
      have hflags' : (node.state.outOf ifNum).flags &&& directlink ≠ 0 := hflags
      rw [hzero] at hflags'
      exact absurd rfl hflags'
    · obtain ⟨frame, hframe, hholds⟩ := he
      obtain ⟨j, hlink, hechoes⟩ := hm frame hframe
      have horig : f.pack.orig = rx.pkt.orig := by rw [hpack]
      by_cases hsingle : rx.isSingleHopNeigh = true
      · refine ⟨j, hlink, ?_⟩
        rw [horig, ← beq_iff_eq.mp hsingle]
        exact (hechoes rx hholds).1
      · rw [hpackflags, if_neg hsingle] at hflags
        exact absurd rfl hflags

theorem State.sendForw_echoes (hconf : s.Configured (st i).cfg) {f : ForwNode} (hf : f.Echoes links st i)
    {c : ℕ × Frame} (hc : c ∈ s.sendForw order f) : c.2.Echoes links st i := by
  obtain ⟨batmanIf, hif, flags, hflags, heq⟩ := State.mem_sendForw hc
  intro rx hrx
  obtain ⟨hpkt, -⟩ := hrx.of_bytes (congrArg Frame.packetBuff heq)
  refine ⟨?_, fun hdirect => ?_⟩
  · rw [hrx.neigh, heq]
    exact (hconf batmanIf hif).hwAddr
  · unfold Ogm.hasDirectlinkFlag at hdirect
    rw [hpkt] at hdirect ⊢
    exact hf (hflags (bne_iff_ne.mp hdirect))

/-- **One step of one node** keeps the invariant, and sends direct rebroadcasts of what it hears only. -/
theorem Network.keeps_heardBack [DecidableEq ι] (links : ι → ι → Bool) {st : ι → Station}
    (huniq : Network.DistinctAddrs st) :
    Keeps links (Network.behaviour (p := p) st) (fun _ _ => True) (fun _ i node => node.HeardBack links st i)
      fun _ j frame => frame.Echoes links st j where
  inv_mono _ hnode := hnode
  msg_mono _ hframe := hframe
  act := by
    intro made i node d m o hnode hm _ hact
    have hacts := Node.acts hact
    refine ⟨hnode.acts huniq hacts hm, fun frame hframe => ?_⟩
    rcases hacts.sent hframe with htype | ⟨f, hf, c, hc, rfl⟩
    · intro rx hrx
      exact absurd (frame.getD_rawsockRead.symm.trans hrx.packetType) htype
    · exact State.sendForw_echoes hnode.configured (hnode.queue f hf) hc

theorem Network.start_heardBack (links : ι → ι → Bool) (st : ι → Station) :
    (Network.start p st).Holds (fun _ i node => node.HeardBack links st i)
      fun _ j frame => frame.Echoes links st j := by
  refine ⟨fun i => ?_, fun x hx => absurd hx List.not_mem_nil⟩
  obtain ⟨hconf, hqueue⟩ := (st i).cfg.boot_configured p fun _ => True
  refine ⟨⟨[], .nil⟩, hconf, (st i).cfg.forall_origs_boot, (st i).cfg.forall_origs_boot, fun f hf hflags => ?_⟩
  have hzero : f.pack.flags = 0 := congrArg BatmanPacket.flags (hqueue f hf).pack
  rw [hzero] at hflags
  exact absurd rfl hflags

/-! ## Runs -/

variable [DecidableEq ι] {w : World ι (Node p) Frame Note}
  {tr : List (World ι (Node p) Frame Note × Happening ι (Deed p))}

theorem Network.Run.heardBack (h : Network.Run links st tr w) (huniq : Network.DistinctAddrs st) (i : ι) :
    (w.party i).HeardBack links st i :=
  ((Network.keeps_heardBack links huniq).run_all h (Network.start_heardBack links st)).party i

/-- **A link quality is one of both directions.** In every run of nodes with addresses of their own: a neighbour
with an average other than 0, in whatever entry, is a node that is heard here and that hears this node. -/
theorem two_way (h : Network.Run links st tr w) (huniq : Network.DistinctAddrs st) (i : ι) :
    ∀ o ∈ (w.party i).state.origs, ∀ n ∈ o.neighList, n.tqAvg ≠ 0 →
      ∃ j, n.addr ∈ (st j).cfg.hwAddrs ∧ links j i = true ∧ links i j = true :=
  fun _ ho _ hn hne => (h.heardBack huniq i).twoWay ho hn hne

theorem Net.pair_distinctAddrs : Network.DistinctAddrs Net.pair := by
  intro i j a hi hj
  cases i <;> cases j
  · rfl
  · exact absurd ((List.mem_singleton.mp hi).symm.trans (List.mem_singleton.mp hj)) (by decide)
  · exact absurd ((List.mem_singleton.mp hi).symm.trans (List.mem_singleton.mp hj)) (by decide)
  · rfl

namespace Net

/-- `me0`, `macA`, and a third node `macB`. -/
def trio : Option Bool → BatmanAdv.Station
  | none => lone macB 0
  | some i => pair i

/-- `macB` is heard, and does not hear `me0`. -/
def allButOne (j i : Option Bool) : Bool := j ≠ some false || i ≠ none

theorem trio_distinctAddrs : Network.DistinctAddrs trio := by
  intro i j a hi hj
  have haddr : ∀ i, a ∈ (trio i).cfg.hwAddrs → i = if a = macB then none else some (decide (a = macA)) := by
    rintro (_ | _ | _) hmem
    · rw [List.mem_singleton.mp hmem]
      rfl
    · rw [List.mem_singleton.mp hmem]
      rfl
    · rw [List.mem_singleton.mp hmem]
      rfl
  rw [haddr i hi, haddr j hj]

/-- Behind `pairing`, `me0` hears an OGM of `macB`. -/
def trioing : List (Happening (Option Bool) (Deed p64)) :=
  (pairing.map fun h => ⟨some h.who, h.what, h.hears⟩) ++
    [⟨none, .loop (.sendBegin 2400), none⟩, ⟨none, .loop (.sendNext 2400 0), none⟩,
      ⟨none, .loop (.sendNext 2400 0), none⟩, ⟨some false, .hear (zeros p64) ⟨0, 2500, 2500, 2500⟩, some 5⟩]

end Net

/-- `me0` has a link quality for `macA`, which hears it, and none for `macB`, which does not. -/
theorem two_way_trio : ∃ tr w, Network.Run (p := Net.p64) Net.allButOne Net.trio tr w ∧
    tr.map Prod.snd = Net.trioing ∧
    (∃ o ∈ (w.party (some false)).state.origs, ∃ n ∈ o.neighList, n.tqAvg ≠ 0 ∧ n.addr = Net.macA ∧
      ∃ j, n.addr ∈ (Net.trio j).cfg.hwAddrs ∧ Net.allButOne j (some false) = true ∧
        Net.allButOne (some false) j = true) ∧
    ∃ o ∈ (w.party (some false)).state.origs, ∃ n ∈ o.neighList, n.addr = Net.macB ∧ n.tqAvg = 0 := by
  obtain ⟨tr, w, hrun, hevents, hcheck⟩ := Network.Run.of_exec Net.allButOne Net.trio Net.trioing
    (fun _ w => decide ((∃ o ∈ (w.party (some false)).state.origs, ∃ n ∈ o.neighList, n.tqAvg ≠ 0 ∧ n.addr = Net.macA) ∧
      ∃ o ∈ (w.party (some false)).state.origs, ∃ n ∈ o.neighList, n.addr = Net.macB)) (by decide +kernel)
  obtain ⟨⟨o, ho, n, hn, hne, haddr⟩, o', ho', n', hn', haddr'⟩ := of_decide_eq_true hcheck
  refine ⟨tr, w, hrun, hevents, ⟨o, ho, n, hn, hne, haddr, two_way hrun Net.trio_distinctAddrs _ o ho n hn hne⟩,
    o', ho', n', hn', haddr', ?_⟩
  by_contra hne'
  obtain ⟨j, hj, -, hback⟩ := two_way hrun Net.trio_distinctAddrs _ o' ho' n' hn' hne'
  -- `macB` is the only node with its address, and `me0` has no link to it
  rw [haddr'] at hj
  rw [Net.trio_distinctAddrs j none _ hj (by decide)] at hback
  exact absurd hback (by decide)

end BatmanAdv
