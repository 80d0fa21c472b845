import BatmanAdv.HnaTables

/-!
# Announced hosts

`update_orig` hands the HNA bytes of an OGM to `update_routes`, which is to store them and to map their
hosts to the originator. It compares the stored bytes with the new ones the wrong way round: where both
have the same length, it rewrites the ones that are the same and keeps the ones that differ.
-/

namespace BatmanAdv

open Transition

variable {p : Platform} {g : Garbage p} {rx : Ogm} {s s' : State p}

/-- The HNA bytes `update_orig` hands on: those that are there and that `num_hna` announces. -/
def hnaBytesOf (hna : List Byte) (pkt : BatmanPacket) : List Byte :=
  hna.take (tmpHnaBuffLen hna.length pkt.numHna)

/-- The stored HNA bytes, `hna_buff_len` bytes at `hna_buff`. -/
def OrigNode.hnaBytes (o : OrigNode p) : Option (List Byte) := o.hnaBuff.map (·.take o.hnaBuffLen)

theorem tmpHnaBuffLen_eq (hnaBuffLen : ℕ) (numHna : Byte) :
    tmpHnaBuffLen hnaBuffLen numHna = min hnaBuffLen (6 * numHna.toNat) := by
  unfold tmpHnaBuffLen ethAlen
  split_ifs <;> omega

theorem length_hnaBytesOf (hna : List Byte) (pkt : BatmanPacket) :
    (hnaBytesOf hna pkt).length = tmpHnaBuffLen hna.length pkt.numHna := by
  unfold hnaBytesOf
  rw [List.length_take, tmpHnaBuffLen_eq]
  omega

/-! ## `update_routes` on the hosts of an entry -/

section UpdateHna

variable {home : Mac → Option HnaHead} {t : TransTable} {o : OrigNode p} (hwAddrs : List Mac)
  (currTime : Time)

/-- The table maps to `orig` exactly the hosts of these bytes that it does not refuse. -/
def TransTable.MapsExactly (t : TransTable) (orig : Mac) (bytes : List Byte) : Prop :=
  ∀ mac, t.transtableSearch mac = some orig ↔
    mac ∈ TransTable.hosts bytes bytes.length ∧ refused mac = false

theorem TransTable.Linked.storeHna (h : t.Linked home) (hhome : home o.orig = some (.orig o.ptr))
    (hnone : ∀ e ∈ t.elems, e.batmanMac ≠ o.orig) {recv : List Byte} {len : ℕ}
    (hlen : len ≤ recv.length) :
    (BatmanAdv.storeHna hwAddrs currTime t o recv len).2.hnaBytes = some (recv.take len) ∧
      (BatmanAdv.storeHna hwAddrs currTime t o recv len).2.hnaBuffLen = len ∧
      (BatmanAdv.storeHna hwAddrs currTime t o recv len).1.MapsExactly o.orig (recv.take len) := by
  have hstored : home ({ o with hnaBuff := some (recv.take len), hnaBuffLen := len } :
      OrigNode p).orig = some (.orig o.ptr) := hhome
  refine ⟨?_, rfl, fun mac => ?_⟩
  · show some ((recv.take len).take len) = _
    rw [List.take_take, min_self]
  · refine ((h.hnaAddBuff hwAddrs currTime hstored).2.2 mac).trans ?_
    have hbefore : ¬ t.transtableSearch mac = some o.orig := by
      rw [h.transtableSearch_eq_some_iff]
      rintro ⟨e, he, _, hbat⟩
      exact hnone e he hbat
    rw [List.length_take, min_eq_left hlen]
    exact or_iff_right hbefore

/-- The comparison of `update_routes`: the stored bytes stay exactly where they have the length of the
new ones and differ from them. -/
theorem TransTable.Linked.announce_iff (h : t.Linked home) (hhome : home o.orig = some (.orig o.ptr))
    (hsilent : o.hnaBuff = none → ∀ e ∈ t.elems, e.batmanMac ≠ o.orig) {recv : List Byte} {len : ℕ}
    (hlen : len ≤ recv.length) :
    ((BatmanAdv.updateHna hwAddrs currTime t o (some recv) len).2.hnaBytes = some (recv.take len) ∧
        (BatmanAdv.updateHna hwAddrs currTime t o (some recv) len).2.hnaBuffLen = len ∧
        (o.hnaBytes ≠ some (recv.take len) →
          (BatmanAdv.updateHna hwAddrs currTime t o (some recv) len).1.MapsExactly o.orig
            (recv.take len))) ↔
      o.hnaBytes = none ∨ o.hnaBuffLen ≠ len ∨ o.hnaBytes = some (recv.take len) := by
  unfold BatmanAdv.updateHna
  cases hbuff : o.hnaBuff with
  | none =>
    obtain ⟨hbytes, hstoredLen, hmaps⟩ := h.storeHna hwAddrs currTime hhome (hsilent hbuff) hlen
    refine iff_of_true ⟨hbytes, hstoredLen, fun _ => hmaps⟩ (.inl ?_)
    unfold OrigNode.hnaBytes
    rw [hbuff]
    rfl
  | some buff =>
    have hold : o.hnaBytes = some (buff.take o.hnaBuffLen) := by
      unfold OrigNode.hnaBytes
      rw [hbuff]
      rfl
    have hdel := h.hnaRemoveList (.orig o.ptr)
    have hgone : ∀ e ∈ (t.hnaDelBuff o).1.elems, e.batmanMac ≠ o.orig := fun e he hbat =>
      ((hdel.2 e).mp he).2 (hbat ▸ hhome)
    have hhome' : home (t.hnaDelBuff o).2.orig = some (.orig (t.hnaDelBuff o).2.ptr) := hhome
    obtain ⟨hbytes, hstoredLen, hmaps⟩ :=
      TransTable.Linked.storeHna hwAddrs currTime hdel.1 hhome' hgone hlen
    dsimp only
    by_cases hne : len ≠ o.hnaBuffLen
    · rw [if_pos (if_pos hne)]
      exact iff_of_true ⟨hbytes, hstoredLen, fun _ => hmaps⟩ (.inr (.inl hne.symm))
    · have hsame : o.hnaBuffLen = len := (not_not.mp hne).symm
      rw [hsame] at hold
      by_cases heq : recv.take len = buff.take len
      · rw [if_pos (by rw [if_neg hne, if_pos heq])]
        exact iff_of_true ⟨hbytes, hstoredLen, fun _ => hmaps⟩ (.inr (.inr (by rw [hold, heq])))
      · rw [if_neg (by rw [if_neg hne, if_neg heq]; exact Bool.false_ne_true)]
        refine iff_of_false (fun hstored => ?_) ?_
        · exact heq (Option.some.inj (hold.symm.trans hstored.1)).symm
        · rintro (hnone | hlen' | hbytes')
          · rw [hold] at hnone
            cases hnone
          · exact hlen' hsame
          · exact heq (Option.some.inj (hold.symm.trans hbytes')).symm

end UpdateHna

/-! ## What the rest of `update_orig` leaves alone -/

/-- Entries stay, and no announced host changes. -/
structure State.SameHna (s s' : State p) : Prop where
  trans : s'.trans = s.trans
  hwAddrs : s'.hwAddrs = s.hwAddrs
  entry : ∀ o ∈ s.origs, ∃ o' ∈ s'.origs,
    o'.ptr = o.ptr ∧ o'.orig = o.orig ∧ o'.hnaBuff = o.hnaBuff ∧ o'.hnaBuffLen = o.hnaBuffLen

namespace State.SameHna

theorem refl (s : State p) : s.SameHna s := ⟨rfl, rfl, fun o ho => ⟨o, ho, rfl, rfl, rfl, rfl⟩⟩

theorem tail {s'' : State p} (h : s.SameHna s') (h' : s'.SameHna s'') : s.SameHna s'' where
  trans := h'.trans.trans h.trans
  hwAddrs := h'.hwAddrs.trans h.hwAddrs
  entry o ho := by
    obtain ⟨o', ho', h1, h2, h3, h4⟩ := h.entry o ho
    obtain ⟨o'', ho'', h5, h6, h7, h8⟩ := h'.entry o' ho'
    exact ⟨o'', ho'', h5.trans h1, h6.trans h2, h7.trans h3, h8.trans h4⟩

theorem modOrig (s : State p) (ptr : ℕ) {f : OrigNode p → OrigNode p}
    (hf : ∀ o, (f o).ptr = o.ptr ∧ (f o).orig = o.orig ∧ (f o).hnaBuff = o.hnaBuff ∧
      (f o).hnaBuffLen = o.hnaBuffLen) : s.SameHna (s.modOrig ptr f) := by
  refine ⟨rfl, rfl, fun o ho => ⟨_, mem_origs_modOrig.mpr ⟨o, ho, rfl⟩, ?_⟩⟩
  split_ifs
  · exact hf o
  · exact ⟨rfl, rfl, rfl, rfl⟩

theorem getOrigNode (hs : s.Wf) (addr : Mac) : s.SameHna (s.getOrigNode addr).1 := by
  refine ⟨?_, ?_, fun o ho => ⟨o, hs.mem_getOrigNode_of_mem addr ho, rfl, rfl, rfl, rfl⟩⟩
  · rw [s.getOrigNode_frame]
  · rw [s.getOrigNode_frame]
    rfl

theorem createNeighbor (s : State p) (origNode origNeighNode : ℕ) (neigh : Mac) (ifIncoming : ℕ) :
    s.SameHna (s.createNeighbor origNode origNeighNode neigh ifIncoming).1 := by
  have hmod := modOrig s origNode (f := fun o => { o with neighList := o.neighList ++
    [NeighNode.new s.nextPtr neigh origNeighNode ifIncoming] }) fun _ => ⟨rfl, rfl, rfl, rfl⟩
  exact ⟨hmod.trans, hmod.hwAddrs, hmod.entry⟩

theorem viaNeighbor (hs : s.Wf) (origNode : ℕ) (neigh : Mac) (ifIncoming : ℕ) :
    s.SameHna (s.viaNeighbor origNode neigh ifIncoming).1 := by
  unfold State.viaNeighbor
  cases (s.origAt origNode).neighVia neigh ifIncoming with
  | some n => exact refl s
  | none => exact (getOrigNode hs neigh).tail (createNeighbor _ _ _ _ _)

theorem rankNeighbors (hs : s.Wf) (origNode : ℕ) (neigh : Mac) (pkt : BatmanPacket) (ifIncoming : ℕ)
    (dup : Bool) (rcvdTime : Time) :
    s.SameHna (s.rankNeighbors g origNode neigh pkt ifIncoming dup rcvdTime).1 := by
  unfold State.rankNeighbors
  dsimp only
  have h1 : s.SameHna (s.modOrig origNode (·.pushZero neigh ifIncoming dup)) :=
    modOrig s origNode fun _ => ⟨rfl, rfl, rfl, rfl⟩
  have hs1 : (s.modOrig origNode (·.pushZero neigh ifIncoming dup)).Wf := by
    refine hs.modOrig (fun _ => rfl) (fun _ => rfl) fun o ho _ => ?_
    exact (hs.node o ho).mapSameLink rfl rfl fun n =>
      NeighNode.SameLink.ite (.refl n) (n.sameLink_pushTq 0) _
  exact (h1.tail (viaNeighbor hs1 _ _ _)).tail (modOrig _ _ fun _ => ⟨rfl, rfl, rfl, rfl⟩)

theorem setGwflags (s : State p) (origNode : ℕ) (gwflags : Byte) (gwTime : Time) :
    s.SameHna (s.setGwflags origNode gwflags gwTime) := by
  unfold State.setGwflags
  refine tail ?_ (modOrig _ _ fun _ => ⟨rfl, rfl, rfl, rfl⟩)
  split_ifs
  · exact ⟨rfl, rfl, fun o ho => ⟨o, ho, rfl, rfl, rfl, rfl⟩⟩
  · exact refl s

theorem hna_origAt (h : s.SameHna s') (hs : s.Wf) (hs' : s'.Wf) {ptr : ℕ} {addr : Mac}
    (hat : s.At ptr addr) :
    (s'.origAt ptr).hnaBuff = (s.origAt ptr).hnaBuff ∧
      (s'.origAt ptr).hnaBuffLen = (s.origAt ptr).hnaBuffLen := by
  obtain ⟨hmem, hptr, _⟩ := hs.origAt_mem hat
  obtain ⟨o', ho', hptr', _, hbuff, hlen⟩ := h.entry _ hmem
  have hread := hs'.origAt_of_mem ho'
  rw [hptr', hptr] at hread
  rw [hread]
  exact ⟨hbuff, hlen⟩

end State.SameHna

/-! ## `update_orig` -/

theorem State.updateRoutes_origAt (hs : s.Wf) {o : OrigNode p} (ho : o ∈ s.origs)
    (best : Option (NeighNode p)) (recv : Option (List Byte)) (len : ℕ) :
    (s.updateRoutes o.ptr best recv len).origAt o.ptr =
        o.withRoutes (BatmanAdv.updateRoutes s.hwAddrs s.currTime s.trans o best recv len).2 ∧
      (s.updateRoutes o.ptr best recv len).trans =
        (BatmanAdv.updateRoutes s.hwAddrs s.currTime s.trans o best recv len).1 := by
  obtain ⟨hwf, hmem⟩ := State.origs_updateRoutes hs ho best recv len
  refine ⟨hwf.origAt_of_mem ((hmem _).mpr (.inl rfl)), ?_⟩
  unfold State.updateRoutes
  rw [hs.origAt_of_mem ho]

/-- What `update_orig` does to the hosts is `update_routes` on the hosts of the entry. -/
theorem State.updateOrig_routes (hs : s.Wf) {origNode : ℕ} (hat : s.At origNode rx.pkt.orig)
    (hneigh : rx.neigh ∉ s.hwAddrs) {pkt : BatmanPacket} (hpkt : pkt = { rx.pkt with tq := pkt.tq })
    (htq : pkt.tq.toNat ≤ rx.pkt.tq.toNat) (dup : Bool) {s' : State p}
    (hs' : s' = s.updateOrig g origNode rx.neigh pkt rx.ifIncoming rx.hna dup rx.rcvdTime rx.gwTime) :
    ∃ (currTime : Time) (o : OrigNode p), o.ptr = origNode ∧ o.orig = rx.pkt.orig ∧
      o.hnaBuff = (s.origAt origNode).hnaBuff ∧ o.hnaBuffLen = (s.origAt origNode).hnaBuffLen ∧
      s'.trans = (updateHna s.hwAddrs currTime s.trans o (some rx.hna)
        (hnaBytesOf rx.hna rx.pkt).length).1 ∧
      (s'.origAt origNode).hnaBuff = (updateHna s.hwAddrs currTime s.trans o (some rx.hna)
        (hnaBytesOf rx.hna rx.pkt).length).2.hnaBuff ∧
      (s'.origAt origNode).hnaBuffLen = (updateHna s.hwAddrs currTime s.trans o (some rx.hna)
        (hnaBytesOf rx.hna rx.pkt).length).2.hnaBuffLen := by
  have httl : pkt.ttl = rx.pkt.ttl := by rw [hpkt]
  have hnum : pkt.numHna = rx.pkt.numHna := by rw [hpkt]
  obtain ⟨hrank, hbest⟩ := State.rankNeighbors_moves (g := g) hs hat hneigh htq httl dup
  have hsame := State.SameHna.rankNeighbors (g := g) hs origNode rx.neigh pkt rx.ifIncoming dup
    rx.rcvdTime
  unfold State.updateOrig at hs'
  rw [hnum, ← length_hnaBytesOf] at hs'
  generalize (hnaBytesOf rx.hna rx.pkt).length = len at hs' ⊢
  generalize s.rankNeighbors g origNode rx.neigh pkt rx.ifIncoming dup rx.rcvdTime = ranked
    at hrank hbest hsame hs'
  obtain ⟨s1, rank⟩ := ranked
  dsimp only at hrank hbest hsame hs'
  have hs1 := hrank.wf hs
  have hat1 := hrank.at hs hat
  obtain ⟨hbuff, hlen⟩ := hsame.hna_origAt hs hs1 hat
  obtain ⟨hmem, hptr, horig⟩ := hs1.origAt_mem hat1
  -- the entry `update_routes` is called for
  generalize s1.origAt origNode = o at hmem hptr horig hbuff hlen
  subst hptr
  have hroute : Write rx s1 _ := .route s1 o.ptr hat1 rank.best hbest rx.hna len
  obtain ⟨hread, htrans⟩ := State.updateRoutes_origAt hs1 hmem rank.best (some rx.hna) len
  have hs2 := hroute.wf hs1
  have hat2 := hroute.at hs1 hat1
  generalize s1.updateRoutes o.ptr rank.best (some rx.hna) len = s2 at hs' hread htrans hs2 hat2
  have hsame' := State.SameHna.setGwflags s2 o.ptr pkt.gwflags rx.gwTime
  have hgw : Writes rx s2 (s2.setGwflags o.ptr pkt.gwflags rx.gwTime) := State.setGwflags_moves _ _ _
  obtain ⟨hbuff', hlen'⟩ := hsame'.hna_origAt hs2 (hgw.wf hs2) hat2
  obtain ⟨hptr', horig', hbuff'', hlen''⟩ := o.setRouter_hna rank.best
  rw [hsame.trans, hsame.hwAddrs] at htrans hread
  refine ⟨s1.currTime, o.setRouter rank.best, hptr', horig'.trans horig, hbuff''.trans hbuff,
    hlen''.trans hlen, ?_, ?_, ?_⟩
  · rw [hs', hsame'.trans, htrans]
    rfl
  · rw [hs', hbuff', hread]
    rfl
  · rw [hs', hlen', hread]
    rfl

/-- **`update_orig`** stores the HNA bytes and maps their hosts, unless bytes of the same length are
stored that differ. -/
theorem State.updateOrig_hna (hs : s.Wf) (hok : s.HnaOk) {origNode : ℕ}
    (hat : s.At origNode rx.pkt.orig) (hneigh : rx.neigh ∉ s.hwAddrs) {pkt : BatmanPacket}
    (hpkt : pkt = { rx.pkt with tq := pkt.tq }) (htq : pkt.tq.toNat ≤ rx.pkt.tq.toNat) (dup : Bool)
    {s' : State p} (hs' : s' = s.updateOrig g origNode rx.neigh pkt rx.ifIncoming rx.hna dup
      rx.rcvdTime rx.gwTime) :
    ((s'.origAt origNode).hnaBytes = some (hnaBytesOf rx.hna rx.pkt) ∧
        (s'.origAt origNode).hnaBuffLen = (hnaBytesOf rx.hna rx.pkt).length ∧
        ((s.origAt origNode).hnaBytes ≠ some (hnaBytesOf rx.hna rx.pkt) →
          s'.trans.MapsExactly rx.pkt.orig (hnaBytesOf rx.hna rx.pkt))) ↔
      (s.origAt origNode).hnaBytes = none ∨
        (s.origAt origNode).hnaBuffLen ≠ (hnaBytesOf rx.hna rx.pkt).length ∨
        (s.origAt origNode).hnaBytes = some (hnaBytesOf rx.hna rx.pkt) := by
  obtain ⟨currTime, o, hptr, horig, hbuff, hlen, htrans, hnewBuff, hnewLen⟩ :=
    State.updateOrig_routes hs hat hneigh hpkt htq dup hs'
  obtain ⟨hmem, hptr', horig'⟩ := hs.origAt_mem hat
  have hbytes : o.hnaBytes = (s.origAt origNode).hnaBytes := by
    unfold OrigNode.hnaBytes
    rw [hbuff, hlen]
  have hhome : s.home o.orig = some (.orig o.ptr) := by
    rw [horig, hptr]
    have hself := State.home_orig hs hmem
    rwa [horig', hptr'] at hself
  have hsilent : o.hnaBuff = none → ∀ e ∈ s.trans.elems, e.batmanMac ≠ o.orig := by
    rw [hbuff, horig, ← horig']
    exact hok.silent _ hmem
  have hlen_le : (hnaBytesOf rx.hna rx.pkt).length ≤ rx.hna.length := List.length_take_le' _ _
  have hiff := hok.linked.announce_iff s.hwAddrs currTime hhome hsilent hlen_le
  have hnew : (s'.origAt origNode).hnaBytes = (BatmanAdv.updateHna s.hwAddrs currTime s.trans o
      (some rx.hna) (hnaBytesOf rx.hna rx.pkt).length).2.hnaBytes := by
    unfold OrigNode.hnaBytes
    rw [hnewBuff, hnewLen]
  have htake : rx.hna.take (hnaBytesOf rx.hna rx.pkt).length = hnaBytesOf rx.hna rx.pkt := by
    rw [length_hnaBytesOf]
    rfl
  rw [htake, hbytes, hlen, horig] at hiff
  rw [hnew, hnewLen, htrans]
  exact hiff

/-- `update_orig` is called for this OGM. -/
def State.UpdatesOrig (s : State p) (g : Garbage p) (rx : Ogm) : Prop :=
  s.ogmCase rx = .process ∧ (s.counted g rx).unknownNeigh rx = false ∧
    (s.counted g rx).ranks rx = true

instance (s : State p) (g : Garbage p) (rx : Ogm) : Decidable (s.UpdatesOrig g rx) :=
  inferInstanceAs (Decidable (_ ∧ _))

/-- The entry `update_orig` is called for. -/
def State.entryBefore (s : State p) (g : Garbage p) (rx : Ogm) : OrigNode p :=
  ((s.counted g rx).rate rx).state.origAt (s.counted g rx).origNode

def State.entryAfter (s : State p) (g : Garbage p) (rx : Ogm) : OrigNode p :=
  ((s.counted g rx).ranked g rx).origAt (s.counted g rx).origNode

def State.hostsAfter (s : State p) (g : Garbage p) (rx : Ogm) : TransTable :=
  ((s.counted g rx).ranked g rx).trans

/-- **Announcements.** In every reachable state and for every OGM `update_orig` is called with, the
entry holds the HNA bytes of the OGM afterwards, and where they are new the table maps exactly their
hosts, if and only if no bytes, bytes of another length or the same bytes were stored before. -/
theorem announcement_iff {cfg : Config} {tr : List (State p × Event p)} (h : Run p cfg tr s)
    (hcall : s.UpdatesOrig g rx) :
    ((s.entryAfter g rx).hnaBytes = some (hnaBytesOf rx.hna rx.pkt) ∧
        (s.entryAfter g rx).hnaBuffLen = min rx.hna.length (6 * rx.pkt.numHna.toNat) ∧
        ((s.entryBefore g rx).hnaBytes ≠ some (hnaBytesOf rx.hna rx.pkt) →
          (s.hostsAfter g rx).MapsExactly rx.pkt.orig (hnaBytesOf rx.hna rx.pkt))) ↔
      (s.entryBefore g rx).hnaBytes = none ∨
        (s.entryBefore g rx).hnaBuffLen ≠ (hnaBytesOf rx.hna rx.pkt).length ∨
        (s.entryBefore g rx).hnaBytes = some (hnaBytesOf rx.hna rx.pkt) := by
  obtain ⟨hprocess, _, hranks⟩ := hcall
  obtain ⟨hmoves, hat, hat', hneigh⟩ := State.counted_moves (g := g) h.wf hprocess
  have hcounted := hmoves.wf h.wf
  obtain ⟨hrate, hpkt, htq, _⟩ := Counted.rate_moves hcounted hat'
  have hall : Moves g rx s ((s.counted g rx).rate rx).state := hmoves.trans hrate.moves
  have hok := (hall.preserves h.wf h.hnaOk fun _ _ hwf hI hmove => hmove.hnaOk hwf hI).2
  have hranked : (s.counted g rx).ranked g rx = ((s.counted g rx).rate rx).state.updateOrig g
      (s.counted g rx).origNode rx.neigh ((s.counted g rx).rate rx).pkt rx.ifIncoming rx.hna
      (s.counted g rx).isDuplicate rx.rcvdTime rx.gwTime := if_pos hranks
  rw [← tmpHnaBuffLen_eq, ← length_hnaBytesOf]
  exact State.updateOrig_hna (hrate.wf hcounted) hok (hrate.at hcounted hat)
    (by rw [hrate.hwAddrs]; exact hneigh) hpkt htq _ hranked

/-- `A` announces one host. -/
def Net.announcing (host : Mac) (seqno : Seqno) (now : Time) : Ogm :=
  { Net.ogm Net.macA Net.macA 0 seqno now with
    pkt := { (Net.ogm Net.macA Net.macA 0 seqno now).pkt with numHna := 1 }
    hna := host.bytes }

/-- After OGMs without hosts, one host is announced. -/
theorem announcement_first : ∃ tr s, Run Net.p64 Net.cfg tr s ∧
    tr.map Prod.snd = Net.linkUp Net.p64 ∧
    (s.entryAfter (Net.zeros Net.p64) (Net.announcing Net.macC 3 1400)).hnaBytes =
      some Net.macC.bytes ∧
    (s.hostsAfter (Net.zeros Net.p64) (Net.announcing Net.macC 3 1400)).MapsExactly Net.macA
      Net.macC.bytes := by
  obtain ⟨tr, s, hrun, hevents, hcheck⟩ := Run.of_exec Net.cfg (Net.linkUp Net.p64)
    (fun _ s => decide (s.UpdatesOrig (Net.zeros Net.p64) (Net.announcing Net.macC 3 1400) ∧
      (s.entryBefore (Net.zeros Net.p64) (Net.announcing Net.macC 3 1400)).hnaBuffLen ≠ 6 ∧
      (s.entryBefore (Net.zeros Net.p64) (Net.announcing Net.macC 3 1400)).hnaBytes ≠
        some Net.macC.bytes)) (by decide +kernel)
  obtain ⟨hcall, hlen, hbytes⟩ := of_decide_eq_true hcheck
  obtain ⟨hstored, _, hmaps⟩ := (announcement_iff hrun hcall).mpr (.inr (.inl hlen))
  exact ⟨tr, s, hrun, hevents, hstored, hmaps hbytes⟩

/-- `A` announces `C`, then `B` instead of `C`. -/
theorem announcement_stale : ∃ tr s, Run Net.p64 Net.cfg tr s ∧
    tr.map Prod.snd = Net.linkUp Net.p64 ++
      [.ogm (Net.zeros Net.p64) (Net.announcing Net.macC 3 1400)] ∧
    s.UpdatesOrig (Net.zeros Net.p64) (Net.announcing Net.macB 4 1500) ∧
    (s.entryAfter (Net.zeros Net.p64) (Net.announcing Net.macB 4 1500)).hnaBytes =
      some Net.macC.bytes ∧
    (s.hostsAfter (Net.zeros Net.p64) (Net.announcing Net.macB 4 1500)).transtableSearch Net.macC =
      some Net.macA ∧
    (s.hostsAfter (Net.zeros Net.p64) (Net.announcing Net.macB 4 1500)).transtableSearch Net.macB =
      none := by
  obtain ⟨tr, s, hrun, hevents, hcheck⟩ := Run.of_exec Net.cfg (Net.linkUp Net.p64 ++
      [.ogm (Net.zeros Net.p64) (Net.announcing Net.macC 3 1400)])
    (fun _ s => decide (s.UpdatesOrig (Net.zeros Net.p64) (Net.announcing Net.macB 4 1500) ∧
      (s.entryAfter (Net.zeros Net.p64) (Net.announcing Net.macB 4 1500)).hnaBytes =
        some Net.macC.bytes ∧
      (s.hostsAfter (Net.zeros Net.p64) (Net.announcing Net.macB 4 1500)).transtableSearch Net.macC =
        some Net.macA ∧
      (s.hostsAfter (Net.zeros Net.p64) (Net.announcing Net.macB 4 1500)).transtableSearch Net.macB =
        none)) (by decide +kernel)
  exact ⟨tr, s, hrun, hevents, of_decide_eq_true hcheck⟩

end BatmanAdv
