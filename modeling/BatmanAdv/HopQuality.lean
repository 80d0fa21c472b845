import BatmanAdv.TwoWay

/-!
# Link qualities and hops

Each daemon takes a hop penalty off the `tq` it passes on, and stores no better one than it has heard over a link
in both directions. Over a whole network this bounds what is said of a node by the number of hops to it over such
links, whatever is lost or overtaken and whatever routes are chosen on the way.
-/

namespace BatmanAdv

open Parties Transition

variable {ι : Type*} {p : Platform} {node : Node p} {order : ByteOrder} {d : Deed p} {m : Option Frame}
  {o : Outcome (Node p) Frame Note} {s s' : State p} {g : Garbage p} {rx : Ogm} {e : Event p}

/-- The best `tq` an OGM can have after `n` hops. -/
def hopTq : ℕ → ℕ
  | 0 => tqMaxValue
  | n + 1 => hopTq n * (tqMaxValue - tqHopPenalty) / tqMaxValue

theorem hopTq_succ_le (n : ℕ) : hopTq (n + 1) ≤ hopTq n := by
  show hopTq n * (tqMaxValue - tqHopPenalty) / tqMaxValue ≤ hopTq n
  exact Nat.div_le_of_le_mul ((Nat.mul_le_mul_left _ (by decide)).trans_eq (Nat.mul_comm _ _))

theorem hopTq_antitone : Antitone hopTq := antitone_nat_of_succ_le hopTq_succ_le

/-! ## One node -/

theorem State.RouterOk.forwarded_le {tq : Mac → ℕ} (hok : s.RouterOk) (hs : s.Wf) (hb : s.Rates fun orig _ => tq orig)
    (hprocess : s.ogmCase rx = .process)
    (htq : ((s.counted g rx).rate rx).pkt.tq.toNat ≤ tq rx.pkt.orig) : (s.forwarded g rx).1.toNat ≤ tq rx.pkt.orig := by
  obtain ⟨hmoves, hmem, horig⟩ := State.forwardEntry_spec (g := g) hs hprocess
  obtain ⟨hcount, hat, hat', hneigh⟩ := State.counted_moves (g := g) hs hprocess
  have hbounded := (hb.counted (g := g) hs hprocess).ranked (g := g) (hcount.wf hs) hat hat' hneigh htq _ hmem
  have hrouter := (hmoves.preserves hs hok fun _ _ hwf hI hmove => hmove.routerOk hwf hI).2 _ hmem
  rw [horig] at hbounded
  change (forwardTqTtl g (s.forwardEntry g rx) rx.neigh _).1.toNat ≤ _
  change ∀ n ∈ (s.forwardEntry g rx).neighList, _ at hbounded
  generalize s.forwardEntry g rx = o at hbounded hrouter
  unfold forwardTqTtl
  cases hr : o.router with
  | none => exact htq
  | some ptr =>
    dsimp only
    split_ifs
    · -- the router is one of the neighbours
      rcases hrouter with hnone | ⟨n, hn, hptr, -⟩
      · rw [hr] at hnone
        cases hnone
      · obtain rfl : ptr = n.ptr := Option.some.inj (hr.symm.trans hptr)
        exact (hbounded _ (OrigNode.neighAt_mem hn)).avg
    · exact htq

/-- A purge that leaves every router in the list of its entry. -/
def Deed.KeepsRouters (node : Node p) : Deed p → Prop
  | .loop (.purge g currTime gwTime) => (node.state.purgeOrig g currTime gwTime).RouterListed
  | _ => True

instance (node : Node p) (d : Deed p) : Decidable (d.KeepsRouters node) := by
  unfold Deed.KeepsRouters
  split <;> infer_instance

theorem Node.Acts.routerOk (h : node.Acts order d m o) {cfg : Config} {tr : List (State p × Event p)}
    (hrun : BatmanAdv.Run p cfg tr node.state) (hok : node.state.RouterOk) (hgood : d.KeepsRouters node) :
    o.state.state.RouterOk := by
  rcases h.step with hsame | ⟨e, hstep, he⟩
  · rw [hsame]
    exact hok
  rcases step_cases hrun.wf hstep with ⟨g, rx, rfl, -, -, hmoves⟩ | ⟨g, currTime, gwTime, rfl, heq⟩ | ⟨-, -, hquiet⟩
  · exact (hmoves.preserves hrun.wf hok fun _ _ hwf hI hmove => hmove.routerOk hwf hI).2
  · obtain rfl : d = .loop (.purge g currTime gwTime) := he
    rw [heq]
    exact State.routerOk_of_listed hrun.wf hok hgood
  · exact hquiet.routerOk hok

variable (links : ι → ι → Bool) (st : ι → Station) (mac : Mac) (hops : ι → ℕ)

/-- What may be stored about a neighbour, in an entry of this originator. -/
def hopBound (i : ι) (orig : Mac) : ℕ := if orig = mac then hopTq (hops i - 1) else tqMaxValue

/-- An OGM of `mac` has lost a hop penalty for each hop. -/
def Frame.Worn (i : ι) (frame : Frame) : Prop :=
  ∀ rx : Ogm, frame.HoldsOgm rx → rx.pkt.orig = mac → rx.pkt.tq.toNat ≤ hopTq (hops i)

/-- **The invariant of a node.** -/
structure Node.Worn (i : ι) (node : Node p) : Prop where
  heardBack : node.HeardBack links st i
  routerOk : node.state.RouterOk
  bounded : node.state.Rates fun orig _ => hopBound mac hops i orig
  queue : ∀ f ∈ node.state.forwList, f.pack.orig = mac → f.pack.tq.toNat ≤ hopTq (hops i)

variable {links st mac hops} {i j : ι}

theorem hopTq_le_hopBound (hlink : hops i ≤ hops j + 1) {tq : Byte} {orig : Mac}
    (htq : orig = mac → tq.toNat ≤ hopTq (hops j)) : tq.toNat ≤ hopBound mac hops i orig := by
  unfold hopBound
  split_ifs with horig
  · exact (htq horig).trans (hopTq_antitone (Nat.sub_le_of_le_add hlink))
  · exact Nat.le_of_lt_succ tq.isLt

theorem penalizeHop_hopBound {tq : Byte} (h : tq.toNat ≤ hopBound mac hops i mac) :
    (penalizeHop tq).toNat ≤ hopTq (hops i) := by
  have hle := penalizeHop_le h
  unfold hopBound at hle
  rw [if_pos rfl] at hle
  cases hd : hops i with
  | zero => exact Nat.le_of_lt_succ (penalizeHop tq).isLt
  | succ n =>
    rw [hd] at hle
    exact hle

/-! ## One step -/

/-- What is left of an OGM has come over a link in both directions. -/
theorem Node.Worn.rated (hnode : node.Worn links st mac hops i) (huniq : Network.DistinctAddrs st)
    (hm : ∀ frame ∈ m, ∃ j, links j i = true ∧ frame.Echoes links st j ∧ frame.Worn mac hops j)
    (hlink : ∀ j, links j i = true → links i j = true → hops i ≤ hops j + 1)
    (he : (.ogm g rx : Event p).ComesFrom d m) (hprocess : node.state.ogmCase rx = .process) :
    ((node.state.counted g rx).rate rx).pkt.tq.toNat ≤ hopBound mac hops i rx.pkt.orig := by
  by_cases htwo : TwoWay links st i rx.neigh
  · obtain ⟨k, hneigh, hto, hback⟩ := htwo
    obtain ⟨frame, hframe, hholds⟩ := he
    obtain ⟨j, -, hechoes, hworn⟩ := hm frame hframe
    obtain rfl := huniq _ _ _ hneigh (hechoes rx hholds).1
    obtain ⟨_, hrun⟩ := hnode.heardBack.run
    obtain ⟨hcount, -, hat', -⟩ := State.counted_moves (g := g) hrun.wf hprocess
    have hrate := (Counted.rate_moves (hcount.wf hrun.wf) hat').2.2.1
    exact hrate.trans (hopTq_le_hopBound (hlink k hto hback) (hworn rx hholds))
  · rw [hnode.heardBack.rated hprocess htwo]
    exact Nat.zero_le _

theorem Node.Worn.acts (hnode : node.Worn links st mac hops i) (huniq : Network.DistinctAddrs st)
    (h : node.Acts order d m o)
    (hm : ∀ frame ∈ m, ∃ j, links j i = true ∧ frame.Echoes links st j ∧ frame.Worn mac hops j)
    (hgood : d.KeepsRouters node) (hlink : ∀ j, links j i = true → links i j = true → hops i ≤ hops j + 1)
    (hown : mac ∈ (st i).cfg.hwAddrs → hops i = 0) : o.state.Worn links st mac hops i := by
  have hback : o.state.HeardBack links st i := hnode.heardBack.acts huniq h fun frame hframe => by
    obtain ⟨j, hj, hechoes, -⟩ := hm frame hframe
    exact ⟨j, hj, hechoes⟩
  obtain ⟨tr, hrun⟩ := hnode.heardBack.run
  rcases h.step with hsame | ⟨e, hstep, he⟩
  · refine ⟨hback, ?_, ?_, ?_⟩
    · rw [hsame]
      exact hnode.routerOk
    · rw [hsame]
      exact hnode.bounded
    · rw [hsame]
      exact hnode.queue
  have hs := hrun.wf
  refine ⟨hback, ?_, ?_, fun f hf horig => ?_⟩
  · exact h.routerOk hrun hnode.routerOk hgood
  · refine step_rates hs hnode.bounded (fun g rx heq hprocess => ?_) hstep
    exact hnode.rated huniq hm hlink (heq ▸ he) hprocess
  · rcases step_forwList hs hstep hf with hold | horiginates | ⟨g, rx, rfl, -⟩
    · exact hnode.queue f hold horig
    · obtain ⟨now, rnd, -, ifNum, hif, rfl⟩ := hrun.queueOk.originates horiginates
      rw [hown (horig ▸ (hnode.heardBack.configured.outOf hif).1)]
      exact Nat.le_of_lt_succ (BitVec.isLt _)
    · rw [step_ogm hstep] at hf
      rcases node.state.forwList_batmanOgm g rx with heq | ⟨hprocess, heq⟩
      · rw [heq] at hf
        exact hnode.queue f hf horig
      · obtain ⟨-, -, horig', htq, -⟩ := State.queued hs heq
        rw [heq] at hf
        rcases List.mem_cons.mp hf with rfl | hf
        · have hforwarded : (node.state.forwarded g rx).1.toNat ≤ hopBound mac hops i rx.pkt.orig :=
            hnode.routerOk.forwarded_le hs hnode.bounded hprocess (hnode.rated huniq hm hlink he hprocess)
          rw [← horig', horig] at hforwarded
          rw [htq]
          exact penalizeHop_hopBound hforwarded
        · exact hnode.queue f hf horig

theorem State.sendForw_worn {f : ForwNode} (hf : f.pack.orig = mac → f.pack.tq.toNat ≤ hopTq (hops i))
    {c : ℕ × Frame} (hc : c ∈ s.sendForw order f) : c.2.Worn mac hops i := by
  obtain ⟨batmanIf, -, flags, -, heq⟩ := State.mem_sendForw hc
  intro rx hrx horig
  obtain ⟨hpkt, -⟩ := hrx.of_bytes (congrArg Frame.packetBuff heq)
  rw [hpkt] at horig ⊢
  exact hf horig

/-- **One step of one node** keeps the bounds, and sends no OGM with a better `tq`. -/
theorem Network.keeps_worn [DecidableEq ι] (huniq : Network.DistinctAddrs st)
    (hlink : ∀ j i, links j i = true → links i j = true → hops i ≤ hops j + 1)
    (hown : ∀ i, mac ∈ (st i).cfg.hwAddrs → hops i = 0) :
    Keeps links (Network.behaviour (p := p) st) (fun node d => d.KeepsRouters node)
      (fun _ i node => node.Worn links st mac hops i)
      fun _ j frame => frame.Echoes links st j ∧ frame.Worn mac hops j where
  inv_mono _ hnode := hnode
  msg_mono _ hframe := hframe
  act := by
    intro made i node d m o hnode hm hgood hact
    have hacts := Node.acts hact
    refine ⟨hnode.acts huniq hacts hm hgood (fun j => hlink j i) (hown i), fun frame hframe => ?_⟩
    rcases hacts.sent hframe with htype | ⟨f, hf, c, hc, rfl⟩
    · refine ⟨fun rx hrx => ?_, fun rx hrx => ?_⟩
      · exact absurd (frame.getD_rawsockRead.symm.trans hrx.packetType) htype
      · exact absurd (frame.getD_rawsockRead.symm.trans hrx.packetType) htype
    · exact ⟨State.sendForw_echoes hnode.heardBack.configured (hnode.heardBack.queue f hf) hc,
        State.sendForw_worn (hnode.queue f hf) hc⟩

theorem Network.start_worn (hown : ∀ i, mac ∈ (st i).cfg.hwAddrs → hops i = 0) :
    (Network.start p st).Holds (fun _ i node => node.Worn links st mac hops i)
      fun _ j frame => frame.Echoes links st j ∧ frame.Worn mac hops j := by
  refine ⟨fun i => ?_, fun x hx => absurd hx List.not_mem_nil⟩
  obtain ⟨-, hqueue⟩ := (st i).cfg.boot_configured p fun _ => True
  refine ⟨(Network.start_heardBack links st).party i, (st i).cfg.forall_origs_boot, (st i).cfg.forall_origs_boot,
    fun f hf horig => ?_⟩
  rw [hown i (horig ▸ (hqueue f hf).orig)]
  exact Nat.le_of_lt_succ f.pack.tq.isLt

/-! ## Runs -/

theorem Network.Run.routerOk [DecidableEq ι] {w : World ι (Node p) Frame Note}
    {tr : List (World ι (Node p) Frame Note × Happening ι (Deed p))} (h : Network.Run links st tr w)
    (huniq : Network.DistinctAddrs st) (hgood : ∀ x ∈ tr, x.2.what.KeepsRouters (x.1.party x.2.who)) (i : ι) :
    (w.party i).state.RouterOk := by
  have hkeeps : Keeps links (Network.behaviour (p := p) st) (fun node d => d.KeepsRouters node)
      (fun _ i node => node.Worn links st zeroAddr (fun _ => 0) i)
      fun _ j frame => frame.Echoes links st j ∧ frame.Worn zeroAddr (fun _ => 0) j :=
    Network.keeps_worn huniq (fun _ _ _ _ => Nat.zero_le _) fun _ _ => rfl
  exact ((hkeeps.run h hgood (Network.start_worn fun _ _ => rfl)).party i).routerOk

def bothWays (links : ι → ι → Bool) (j i : ι) : Bool := links j i && links i j

/-- **Quality fades with distance.** In every run of nodes with addresses of their own whose purges leave the
routers in their lists: where fewer than `n` hops over links in both directions do not lead from the node with the
address `mac`, no OGM of `mac` is sent with a better `tq` than `n` hop penalties leave, and no neighbour is stored
with a better average than `n - 1` of them leave. -/
theorem quality_fades [DecidableEq ι] {w : World ι (Node p) Frame Note}
    {tr : List (World ι (Node p) Frame Note × Happening ι (Deed p))} (h : Network.Run links st tr w)
    (huniq : Network.DistinctAddrs st) (hgood : ∀ x ∈ tr, x.2.what.KeepsRouters (x.1.party x.2.who)) {n : ℕ}
    (hfar : ∀ k < n, ¬ Hops (bothWays links) (fun i => mac ∈ (st i).cfg.hwAddrs) k j) :
    (∀ frame rx, (j, frame) ∈ w.air → frame.HoldsOgm rx → rx.pkt.orig = mac → rx.pkt.tq.toNat ≤ hopTq n) ∧
      ∀ o ∈ (w.party j).state.origs, o.orig = mac → ∀ neigh ∈ o.neighList, neigh.tqAvg.toNat ≤ hopTq (n - 1) := by
  obtain ⟨hops, hlink, hown, hn⟩ := exists_hops hfar
  have hboth : ∀ j i, links j i = true → links i j = true → hops i ≤ hops j + 1 := fun j i hto hback =>
    hlink j i (Bool.and_eq_true_iff.mpr ⟨hto, hback⟩)
  have hholds := (Network.keeps_worn huniq hboth hown).run h hgood (Network.start_worn hown)
  refine ⟨fun frame rx hair hogm horig => ?_, fun o ho horig neigh hneigh => ?_⟩
  · have hworn := (hholds.air (j, frame) hair).2 rx hogm horig
    rwa [hn] at hworn
  · have havg := ((hholds.party j).bounded o ho neigh hneigh).avg
    unfold hopBound at havg
    dsimp only at havg
    rwa [if_pos horig, hn] at havg

/-- `me0` sends the last OGM of `macA` on. -/
def Net.passingOn : List (Happening Bool (Deed p64)) :=
  pairing ++ loops false [.purge (zeros p64) 2350 2350, .sendBegin 2400, .sendNext 2400 0]

def Net.passedOn : Frame :=
  ⟨broadcastAddr, me0, (⟨batPacket, compatVersion, directlink, 49, 3, 11, 2, macA, macA, 2, 0⟩ : BatmanPacket).bytes ++
    macC.bytes ++ macA.bytes⟩

/-- The link is new, so that its `tq` is far below that of one hop. -/
theorem quality_fades_passedOn : ∃ tr w, Network.Run (p := Net.p64) (fun _ _ => true) Net.pair tr w ∧
    tr.map Prod.snd = Net.passingOn ∧ (false, Net.passedOn) ∈ w.air ∧
    (BatmanPacket.read Net.passedOn.rawsockRead).tq.toNat ≤ hopTq 1 ∧ hopTq 1 = 245 := by
  obtain ⟨tr, w, hrun, hevents, hcheck⟩ := Network.Run.of_exec (fun _ _ => true) Net.pair Net.passingOn
    (fun tr w => decide ((∀ x ∈ tr, x.2.what.KeepsRouters (x.1.party x.2.who)) ∧ (false, Net.passedOn) ∈ w.air))
    (by decide +kernel)
  obtain ⟨hgood, hair⟩ := of_decide_eq_true hcheck
  have hfar : ∀ k < 1, ¬ Hops (bothWays fun _ _ => true) (fun i => Net.macA ∈ (Net.pair i).cfg.hwAddrs) k false := by
    intro k hk hhops
    cases hhops with
    | here hown => exact absurd hown (by decide)
    | hop hhops hlink => exact absurd hk (by omega)
  have hogm : Net.passedOn.HoldsOgm (Net.onArrival.ogm Net.me0 Net.passedOn.rawsockRead) :=
    ⟨by decide, by decide, rfl, rfl, rfl⟩
  exact ⟨tr, w, hrun, hevents, hair,
    (quality_fades hrun Net.pair_distinctAddrs hgood hfar).1 _ _ hair hogm (by decide), by decide⟩

end BatmanAdv
