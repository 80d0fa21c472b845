import BatmanAdv.HopQuality
import BatmanAdv.VisPacket

/-!
# What the visualisation server is shown

`generate_vis_packet` reads the tables of one daemon. In a network of daemons its records are about the network:
the links in it are links in both directions, and the hosts are hosts of the node.
-/

namespace BatmanAdv

open Parties Transition

variable {ι : Type*} {p : Platform} {s : State p} {g : Garbage p} {links : ι → ι → Bool} {st : ι → Station}
  {made : ι → List Note} {i : ι}

/-- What a record of node `i` says is true. -/
inductive VisData.Shows (links : ι → ι → Bool) (st : ι → Station) (made : ι → List Note) (i : ι) : VisData → Prop
  | neigh (data : Byte) (mac : Mac) (hdata : 0 < data.toNat) (htwo : TwoWay links st i mac) :
      Shows links st made i ⟨dataTypeNeigh, data, mac⟩
  | secIf (data : Byte) (mac : Mac) (hown : mac ∈ (st i).cfg.hwAddrs) :
      Shows links st made i ⟨dataTypeSecIf, data, mac⟩
  | hna (data : Byte) (mac : Mac) (hheard : HeardAt st made i mac) : Shows links st made i ⟨dataTypeHna, data, mac⟩

theorem OrigNode.visNeigh_eq_some {o : OrigNode p} {record : VisData} (h : o.visNeigh g = some record)
    (hok : o.RouterOk) : ∃ n ∈ o.neighList, record = ⟨dataTypeNeigh, n.tqAvg, n.addr⟩ ∧ 0 < n.tqAvg.toNat := by
  unfold OrigNode.visNeigh at h
  obtain ⟨router, hrouter, hsome⟩ := Option.bind_eq_some_iff.mp h
  obtain ⟨⟨haddr, hpos⟩, heq⟩ := Option.ite_none_right_eq_some.mp hsome
  rcases hok with hnone | ⟨n, hn, hptr, -⟩
  · rw [hnone] at hrouter
    cases hrouter
  · obtain rfl : router = n.ptr := Option.some.inj (hrouter.symm.trans hptr)
    refine ⟨o.neighAt g n.ptr, OrigNode.neighAt_mem hn, ?_, hpos⟩
    rw [← Option.some.inj heq, haddr]

theorem BatmanIf.visSecIf_eq_some {senderMac : Mac} {batmanIf : BatmanIf} {record : VisData}
    (h : batmanIf.visSecIf senderMac = some record) : record = ⟨dataTypeSecIf, 0, batmanIf.hwAddr⟩ := by
  unfold BatmanIf.visSecIf at h
  split_ifs at h
  exact (Option.some.inj h).symm

theorem TransTable.visHost_mem {t : TransTable} {macs : List Mac} (hbuff : t.hnaBuff = macs.flatMap Mac.bytes)
    (hlen : t.numHna * 6 ≤ t.hnaBuff.length) {k : ℕ} (hk : k < t.numHna) : (t.visHost k).mac ∈ macs := by
  have hmem : Mac.read t.hnaBuff (k * 6) ∈ TransTable.hosts t.hnaBuff t.hnaBuff.length := by
    unfold TransTable.hosts
    exact List.mem_map.mpr ⟨k, List.mem_range.mpr (by omega), rfl⟩
  rw [hbuff, hosts_flatMap_bytes, ← hbuff, Nat.mul_comm] at hmem
  exact hmem

theorem State.Announces.length_le {hosts : List Mac} (h : s.Announces hosts) :
    s.trans.numHna * 6 ≤ s.trans.hnaBuff.length := by
  have hlen := congrArg List.length h.buff
  rw [length_flatMap_bytes, ← h.count, List.length_take] at hlen
  omega

/-- Every record of a node that is sound, and keeps its routers. -/
theorem Node.Sound.shows {node : Node p} (hnode : node.Sound links st made i) (hback : node.HeardBack links st i)
    (hok : node.state.RouterOk) {record : VisData} (hrecord : record ∈ node.state.writtenRecords g) :
    record.Shows links st made i := by
  obtain ⟨tr, hrun⟩ := hnode.run
  rcases List.mem_append.mp hrecord with hrecord | hhna
  rcases List.mem_append.mp hrecord with hneigh | hsec
  · obtain ⟨o, ho, hsome⟩ := List.mem_filterMap.mp hneigh
    obtain ⟨n, hn, rfl, hpos⟩ := OrigNode.visNeigh_eq_some hsome (hok o ho)
    refine .neigh _ _ hpos (hback.twoWay ho hn fun hzero => ?_)
    rw [hzero] at hpos
    exact absurd hpos (Nat.lt_irrefl 0)
  · unfold State.writtenSecIfs at hsec
    split_ifs at hsec
    · obtain ⟨batmanIf, hif, hsome⟩ := List.mem_filterMap.mp hsec
      rw [BatmanIf.visSecIf_eq_some hsome]
      exact .secIf _ _ (hnode.configured batmanIf hif).hwAddr
    · exact absurd hsec List.not_mem_nil
  · obtain ⟨k, hk, rfl⟩ := List.mem_map.mp hhna
    obtain ⟨macs, hbuff, hheard⟩ := hnode.hosts
    have hmem := TransTable.visHost_mem hbuff hrun.announces.1.length_le (List.mem_range.mp hk)
    exact .hna _ _ (hheard _ hmem)

variable [DecidableEq ι] {w : World ι (Node p) Frame Note}
  {tr : List (World ι (Node p) Frame Note × Happening ι (Deed p))}

/-- **The map is true.** In every run of nodes with addresses of their own whose purges leave the routers in their
lists: the packet a node would send to the server, if it is no longer than its size can say, is a header with
the primary address of the node and records that are true. A neighbour in it is a node that is heard and that hears
this node, with a quality; a host in it was seen by the tap of this node, or is the node itself. -/
theorem vis_true (h : Network.Run links st tr w) (huniq : Network.DistinctAddrs st)
    (hgood : ∀ x ∈ tr, x.2.what.KeepsRouters (x.1.party x.2.who)) (i : ι) (g : Garbage p) (junk : ℕ → Byte)
    (hfits : visPacketHeaderSize + visDataSize * ((w.party i).state.writtenRecords g).length < 2 ^ 16) :
    ∀ packet ∈ ((w.party i).state.generateVisPacket g (st i).cfg.gatewayClass junk).1, ∃ records,
      packet = (w.party i).state.visHeader (st i).cfg.gatewayClass junk ++ visBytes records ∧ records ≠ [] ∧
        ∀ record ∈ records, record.Shows links st w.made i := by
  intro packet hpacket
  rw [State.generateVisPacket_eq _ g _ junk hfits] at hpacket
  unfold visPacketOf at hpacket
  split_ifs at hpacket with hnil
  · exact (Option.not_mem_none packet hpacket).elim
  · refine ⟨_, (Option.some.inj hpacket).symm, hnil, fun record hrecord => ?_⟩
    exact (h.holds.party i).shows (h.heardBack huniq i) (h.routerOk huniq hgood i) hrecord

/-- `me0` shows its link to `macA`. -/
theorem vis_true_passedOn : ∃ tr w, Network.Run (p := Net.p64) (fun _ _ => true) Net.pair tr w ∧
    tr.map Prod.snd = Net.passingOn ∧
    ∃ packet ∈ ((w.party false).state.generateVisPacket (Net.zeros Net.p64) (Net.pair false).cfg.gatewayClass
        fun _ => 0).1,
      ∃ records, packet = (w.party false).state.visHeader (Net.pair false).cfg.gatewayClass (fun _ => 0) ++
        visBytes records ∧ records ≠ [] ∧
          ∀ record ∈ records, record.Shows (fun _ _ => true) Net.pair w.made false := by
  obtain ⟨tr, w, hrun, hevents, hcheck⟩ := Network.Run.of_exec (fun _ _ => true) Net.pair Net.passingOn
    (fun tr w => decide ((∀ x ∈ tr, x.2.what.KeepsRouters (x.1.party x.2.who)) ∧
      visPacketHeaderSize + visDataSize * ((w.party false).state.writtenRecords (Net.zeros Net.p64)).length < 2 ^ 16 ∧
      ((w.party false).state.generateVisPacket (Net.zeros Net.p64) (Net.pair false).cfg.gatewayClass
        fun _ => 0).1 ≠ none)) (by decide +kernel)
  obtain ⟨hgood, hfits, hsome⟩ := of_decide_eq_true hcheck
  obtain ⟨packet, hpacket⟩ := Option.ne_none_iff_exists'.mp hsome
  exact ⟨tr, w, hrun, hevents, packet, hpacket,
    vis_true hrun Net.pair_distinctAddrs hgood false _ _ hfits packet hpacket⟩

end BatmanAdv
