import BatmanAdv.Announcement
import BatmanAdv.OrigTable

/-!
# What only the end of `update_orig` writes

`hna_buff`, `hna_buff_len`, `gwflags` and `gw_list` are written by `update_routes` and `update_gw_list`
alone. An OGM leaves them as they are, or `update_orig` is called for it and ends with one call of the former
and perhaps one of the latter.
-/

namespace BatmanAdv

variable {p : Platform} {s s' s'' : State p} {g : Garbage p} {rx : Ogm}

/-! ## Calm steps -/

/-- The same entry, with the same announcement and the same class. -/
structure OrigNode.SameClaims (o o' : OrigNode p) : Prop where
  ptr : o'.ptr = o.ptr
  orig : o'.orig = o.orig
  hnaBuff : o'.hnaBuff = o.hnaBuff
  hnaBuffLen : o'.hnaBuffLen = o.hnaBuffLen
  gwflags : o'.gwflags = o.gwflags

theorem OrigNode.SameClaims.refl (o : OrigNode p) : o.SameClaims o := ⟨rfl, rfl, rfl, rfl, rfl⟩

theorem OrigNode.SameClaims.trans {o o' o'' : OrigNode p} (h : o.SameClaims o') (h' : o'.SameClaims o'') :
    o.SameClaims o'' :=
  ⟨h'.ptr.trans h.ptr, h'.orig.trans h.orig, h'.hnaBuff.trans h.hnaBuff, h'.hnaBuffLen.trans h.hnaBuffLen,
    h'.gwflags.trans h.gwflags⟩

/-- An entry that has just been made: its pointer is not below `next`. -/
structure OrigNode.Fresh (next : ℕ) (o : OrigNode p) : Prop where
  ptr : next ≤ o.ptr
  hnaBuff : o.hnaBuff = none
  hnaBuffLen : o.hnaBuffLen = 0
  gwflags : o.gwflags = 0

/-- No announcement and no class changes; entries may be new, and the table stays one. -/
structure State.Calm (s s' : State p) : Prop where
  table : s'.Table
  gwList : s'.gwList = s.gwList
  nextPtr : s.nextPtr ≤ s'.nextPtr
  old_or_fresh : ∀ o' ∈ s'.origs, (∃ o ∈ s.origs, o.SameClaims o') ∨ o'.Fresh s.nextPtr
  stays : ∀ o ∈ s.origs, ∃ o' ∈ s'.origs, o.SameClaims o'

namespace State.Calm

theorem trans (h : s.Calm s') (h' : s'.Calm s'') : s.Calm s'' where
  table := h'.table
  gwList := h'.gwList.trans h.gwList
  nextPtr := h.nextPtr.trans h'.nextPtr
  old_or_fresh o'' ho'' := by
    obtain ⟨o', ho', hsame⟩ | hfresh := h'.old_or_fresh o'' ho''
    · obtain ⟨o, ho, hsame'⟩ | hfresh := h.old_or_fresh o' ho'
      · exact .inl ⟨o, ho, hsame'.trans hsame⟩
      · exact .inr ⟨hsame.ptr ▸ hfresh.ptr, hsame.hnaBuff.trans hfresh.hnaBuff,
          hsame.hnaBuffLen.trans hfresh.hnaBuffLen, hsame.gwflags.trans hfresh.gwflags⟩
    · exact .inr ⟨h.nextPtr.trans hfresh.ptr, hfresh.hnaBuff, hfresh.hnaBuffLen, hfresh.gwflags⟩
  stays o ho := by
    obtain ⟨o', ho', hsame⟩ := h.stays o ho
    obtain ⟨o'', ho'', hsame'⟩ := h'.stays o' ho'
    exact ⟨o'', ho'', hsame.trans hsame'⟩

theorem of_origHash (h : s.Table) (hhash : s'.origHash = s.origHash) (hgw : s'.gwList = s.gwList)
    (hptr : s.nextPtr ≤ s'.nextPtr) : s.Calm s' := by
  have horigs : s'.origs = s.origs := by unfold State.origs; rw [hhash]
  refine ⟨h.congr hhash hptr, hgw, hptr, fun o ho => .inl ⟨o, horigs ▸ ho, .refl o⟩, fun o ho => ?_⟩
  exact ⟨o, horigs ▸ ho, .refl o⟩

theorem refl (h : s.Table) : s.Calm s := of_origHash h rfl rfl le_rfl

theorem modOrig_of_mem (h : s.Table) {ptr : ℕ} {f : OrigNode p → OrigNode p} (hptr : ∀ o, (f o).ptr = o.ptr)
    (horig : ∀ o, (f o).orig = o.orig) (hf : ∀ o ∈ s.origs, o.ptr = ptr → o.SameClaims (f o)) :
    s.Calm (s.modOrig ptr f) := by
  have hite : ∀ o ∈ s.origs, o.SameClaims (if o.ptr = ptr then f o else o) := by
    intro o ho
    split_ifs with heq
    · exact hf o ho heq
    · exact .refl o
  refine ⟨h.modOrig hptr horig, rfl, le_rfl, fun o' ho' => ?_, fun o ho => ?_⟩
  · obtain ⟨o, ho, rfl⟩ := mem_origs_modOrig.mp ho'
    exact .inl ⟨o, ho, hite o ho⟩
  · exact ⟨_, mem_origs_modOrig.mpr ⟨o, ho, rfl⟩, hite o ho⟩

theorem modOrig (h : s.Table) (ptr : ℕ) {f : OrigNode p → OrigNode p}
    (hf : ∀ o : OrigNode p, o.SameClaims (f o)) : s.Calm (s.modOrig ptr f) :=
  modOrig_of_mem h (fun o => (hf o).ptr) (fun o => (hf o).orig) fun o _ _ => hf o

theorem getOrigNode (h : s.Table) (addr : Mac) : s.Calm (s.getOrigNode addr).1 := by
  obtain ⟨htable, hptr, hmem, -⟩ := h.getOrigNode addr
  refine ⟨htable, by rw [s.getOrigNode_frame], hptr, fun o' ho' => ?_, fun o ho => ⟨o, hmem o ho, .refl o⟩⟩
  obtain ⟨o, ho, -, heq⟩ | ⟨-, hash, heq, hperm, -⟩ := State.getOrigNode_cases h.ok addr
  · rw [heq] at ho'
    exact .inl ⟨o', ho', .refl o'⟩
  · rw [heq] at ho'
    obtain rfl | hold := List.mem_cons.mp (hperm.mem_iff.mp ho')
    · exact .inr ⟨le_rfl, rfl, rfl, rfl⟩
    · exact .inl ⟨o', hold, .refl o'⟩

theorem createNeighbor (h : s.Table) (origNode origNeighNode : ℕ) (neigh : Mac) (ifIncoming : ℕ) :
    s.Calm (s.createNeighbor origNode origNeighNode neigh ifIncoming).1 := by
  unfold State.createNeighbor
  have hmod : s.Calm (s.modOrig origNode fun o =>
      { o with neighList := o.neighList ++ [NeighNode.new s.nextPtr neigh origNeighNode ifIncoming] }) :=
    modOrig h origNode fun _ => ⟨rfl, rfl, rfl, rfl, rfl⟩
  exact hmod.trans (of_origHash hmod.table rfl rfl (Nat.le_succ _))

/-! ## The functions `batman()` calls -/

theorem countRealPackets (h : s.Table) (neigh : Mac) (pkt : BatmanPacket) (ifIncoming : ℕ) :
    s.Calm (s.countRealPackets g neigh pkt ifIncoming).1 := by
  unfold State.countRealPackets
  dsimp only
  have hget := getOrigNode h pkt.orig
  exact hget.trans (modOrig hget.table _ fun _ => ⟨rfl, rfl, rfl, rfl, rfl⟩)

theorem countOgm (h : s.Table) : s.Calm (s.countOgm g rx).state := by
  unfold State.countOgm
  dsimp only
  have hcount := countRealPackets (g := g) h rx.neigh rx.pkt rx.ifIncoming
  have hget := hcount.trans (getOrigNode hcount.table rx.pkt.orig)
  split_ifs
  · exact hget
  · exact hget.trans (getOrigNode hget.table rx.neigh)

theorem selfNeighbor (h : s.Table) (origNeighNode ifIncoming : ℕ) :
    s.Calm (s.selfNeighbor origNeighNode ifIncoming).1 := by
  unfold State.selfNeighbor
  dsimp only
  split
  · exact refl h
  · exact createNeighbor h _ _ _ _

theorem isBidirectionalNeigh (h : s.Table) (origNode origNeighNode : ℕ) (pkt : BatmanPacket) (recvTime : Time)
    (ifIncoming : ℕ) : s.Calm (s.isBidirectionalNeigh origNode origNeighNode pkt recvTime ifIncoming).1 := by
  unfold State.isBidirectionalNeigh
  dsimp only
  have hself := selfNeighbor h origNeighNode ifIncoming
  have htouch : s.Calm (if origNode = origNeighNode then
      (s.selfNeighbor origNeighNode ifIncoming).1.modOrig origNode
        (·.modNeigh (s.selfNeighbor origNeighNode ifIncoming).2.ptr (·.touch recvTime))
      else (s.selfNeighbor origNeighNode ifIncoming).1) := by
    split_ifs
    · exact hself.trans (modOrig hself.table _ fun _ => ⟨rfl, rfl, rfl, rfl, rfl⟩)
    · exact hself
  have hvalid := htouch.trans (modOrig htouch.table origNode (f := fun o => { o with lastValid := recvTime })
    fun _ => ⟨rfl, rfl, rfl, rfl, rfl⟩)
  exact hvalid.trans (modOrig hvalid.table _ fun _ => ⟨rfl, rfl, rfl, rfl, rfl⟩)

theorem rate {c : Counted p} (h : c.state.Table) (rx : Ogm) : c.state.Calm (c.rate rx).state :=
  isBidirectionalNeigh h c.origNode c.origNeighNode rx.pkt rx.rcvdTime rx.ifIncoming

theorem counted (h : s.Table) (g : Garbage p) (rx : Ogm) : s.Calm (s.counted g rx).state := by
  have hclock : s.Calm { s with currTime := rx.rcvdTime } := .of_origHash h rfl rfl le_rfl
  exact hclock.trans (countOgm hclock.table)

theorem rated (h : s.Table) (g : Garbage p) (rx : Ogm) : s.Calm ((s.counted g rx).rate rx).state := by
  have hcount := counted h g rx
  exact hcount.trans (rate hcount.table rx)

theorem viaNeighbor (h : s.Table) (origNode : ℕ) (neigh : Mac) (ifIncoming : ℕ) :
    s.Calm (s.viaNeighbor origNode neigh ifIncoming).1 := by
  unfold State.viaNeighbor
  cases (s.origAt origNode).neighVia neigh ifIncoming with
  | some n => exact refl h
  | none =>
    have hget := getOrigNode h neigh
    exact hget.trans (createNeighbor hget.table _ _ _ _)

theorem rankNeighbors (h : s.Table) (origNode : ℕ) (neigh : Mac) (pkt : BatmanPacket) (ifIncoming : ℕ)
    (isDuplicate : Bool) (rcvdTime : Time) :
    s.Calm (s.rankNeighbors g origNode neigh pkt ifIncoming isDuplicate rcvdTime).1 := by
  unfold State.rankNeighbors
  dsimp only
  have hzero : s.Calm (s.modOrig origNode (·.pushZero neigh ifIncoming isDuplicate)) :=
    modOrig h origNode fun _ => ⟨rfl, rfl, rfl, rfl, rfl⟩
  have hvia := hzero.trans (viaNeighbor hzero.table origNode neigh ifIncoming)
  exact hvia.trans (modOrig hvia.table _ fun _ => ⟨rfl, rfl, rfl, rfl, rfl⟩)

theorem markOwnBcast (h : s.Table) : s.Calm (s.markOwnBcast rx) := by
  unfold State.markOwnBcast
  dsimp only
  have hget := getOrigNode h rx.neigh
  split_ifs
  · exact hget.trans (modOrig hget.table _ fun _ => ⟨rfl, rfl, rfl, rfl, rfl⟩)
  · exact hget

theorem scheduleOwnPacket (hs : s.Wf) (ifNum : ℕ) (now : Time) (rnd : ℕ) :
    s.Calm (s.scheduleOwnPacket ifNum now rnd) := by
  have horigs := s.origs_scheduleOwnPacket ifNum now rnd
  refine ⟨(hs.scheduleOwnPacket ifNum now rnd).table, rfl, Nat.le_succ _, fun o' ho' => ?_, fun o ho => ?_⟩
  · rw [horigs] at ho'
    obtain ⟨o, ho, rfl⟩ := List.mem_map.mp ho'
    exact .inl ⟨o, ho, rfl, rfl, rfl, rfl, rfl⟩
  · rw [horigs]
    exact ⟨_, List.mem_map_of_mem ho, rfl, rfl, rfl, rfl, rfl⟩

theorem keepsAt (h : s.Calm s') {ptr : ℕ} {addr : Mac} (hat : s.At ptr addr) : s'.At ptr addr := by
  obtain ⟨o, ho, rfl, rfl⟩ := hat
  obtain ⟨o', ho', hsame⟩ := h.stays o ho
  exact ⟨o', ho', hsame.ptr, hsame.orig⟩

theorem mayQueue {t t' : State p} (ht : t.Table) (h : t.MayQueue t') : t.Calm t' := by
  obtain rfl | ⟨f, -, -, rfl⟩ := h
  · exact refl ht
  · exact of_origHash ht rfl rfl (Nat.le_succ _)

theorem purgeNeighbors (h : s.Table) {o : OrigNode p} (ho : o ∈ s.origs) {currTime : Time}
    (hquiet : o.reroutes g currTime = false ∨ o.hnaBuff = none) : s.Calm (s.purgeNeighbors g currTime o.ptr) := by
  unfold State.purgeNeighbors
  dsimp only
  rw [h.origAt_of_mem ho]
  have hmod : s.Calm (s.modOrig o.ptr fun o => { o with neighList := o.keptNeighs currTime }) :=
    modOrig h o.ptr fun _ => ⟨rfl, rfl, rfl, rfl, rfl⟩
  split_ifs with hr
  · have hnone : o.hnaBuff = none := hquiet.resolve_left (by simp [hr])
    rw [hnone]
    refine hmod.trans ?_
    have ho' : ({ o with neighList := o.keptNeighs currTime } : OrigNode p) ∈
        (s.modOrig o.ptr fun o => { o with neighList := o.keptNeighs currTime }).origs :=
      mem_origs_modOrig.mpr ⟨o, ho, if_pos rfl⟩
    generalize s.modOrig o.ptr (fun o => { o with neighList := o.keptNeighs currTime }) = t at hmod ho'
    have hat : t.origAt o.ptr = { o with neighList := o.keptNeighs currTime } := hmod.table.origAt_of_mem ho'
    unfold State.updateRoutes BatmanAdv.updateRoutes
    rw [hat]
    -- nothing received and nothing stored
    obtain ⟨-, -, hbuff, hlen⟩ := OrigNode.setRouter_hna { o with neighList := o.keptNeighs currTime }
      (bestNeighNode (o.keptNeighs currTime))
    generalize OrigNode.setRouter { o with neighList := o.keptNeighs currTime }
      (bestNeighNode (o.keptNeighs currTime)) = routed at hbuff hlen
    have hsame : updateHna t.hwAddrs t.currTime t.trans routed none o.hnaBuffLen = (t.trans, routed) := by
      unfold updateHna
      rw [hbuff.trans hnone]
    rw [hsame]
    have hrouted : t.Calm (t.modOrig o.ptr (·.withRoutes routed)) := by
      refine modOrig_of_mem hmod.table (fun _ => rfl) (fun _ => rfl) fun x hx hxptr => ?_
      obtain rfl := hmod.table.eq_of_ptr hx ho' hxptr
      exact ⟨rfl, rfl, hbuff, hlen, rfl⟩
    exact hrouted.trans (of_origHash hrouted.table rfl rfl le_rfl)
  · exact hmod

end State.Calm

/-! ## `batman()` on an OGM -/

/-- The end of `update_orig`, behind the ranking of the neighbours. -/
def State.endUpdate (s : State p) (origNode : ℕ) (best : Option (NeighNode p)) (rx : Ogm) : State p :=
  (s.updateRoutes origNode best (some rx.hna) (tmpHnaBuffLen rx.hna.length rx.pkt.numHna)).setGwflags origNode
    rx.pkt.gwflags rx.gwTime

/-- `hna_buff` and `hna_buff_len` after `update_routes` with these bytes. -/
def hnaAfter (buff : Option (List Byte)) (buffLen : ℕ) (recv : List Byte) (len : ℕ) : Option (List Byte) × ℕ :=
  match buff with
  | none => (some (recv.take len), len)
  | some buff =>
    if len ≠ buffLen ∨ recv.take len = buff.take len then (some (recv.take len), len) else (some buff, buffLen)

theorem updateHna_hnaAfter (hwAddrs : List Mac) (currTime : Time) (t : TransTable) (o : OrigNode p) (recv : List Byte)
    (len : ℕ) : ((updateHna hwAddrs currTime t o (some recv) len).2.hnaBuff,
      (updateHna hwAddrs currTime t o (some recv) len).2.hnaBuffLen) = hnaAfter o.hnaBuff o.hnaBuffLen recv len := by
  unfold updateHna hnaAfter
  cases hbuff : o.hnaBuff with
  | none => rfl
  | some buff =>
    dsimp only
    by_cases hlen : len ≠ o.hnaBuffLen
    · rw [if_pos hlen, if_pos rfl, if_pos (.inl hlen)]
      rfl
    · rw [if_neg hlen]
      by_cases heq : recv.take len = buff.take len
      · rw [if_pos heq, if_pos rfl, if_pos (.inr heq)]
        rfl
      · rw [if_neg heq, if_neg Bool.false_ne_true, if_neg (not_or.mpr ⟨hlen, heq⟩)]
        exact Prod.ext hbuff rfl

/-- The entry has the claims of the OGM, and the gateway list follows them. -/
structure State.Ends (s s' : State p) (o : OrigNode p) (rx : Ogm) : Prop where
  table : s'.Table
  nextPtr : s'.nextPtr = s.nextPtr
  gwList : s'.gwList = if o.gwflags ≠ rx.pkt.gwflags then
    updateGwList o.ptr rx.pkt.gwflags rx.gwTime s.gwList else s.gwList
  self : ∃ y ∈ s'.origs, y.ptr = o.ptr ∧ y.orig = o.orig ∧ y.gwflags = rx.pkt.gwflags ∧
    (y.hnaBuff, y.hnaBuffLen) =
      hnaAfter o.hnaBuff o.hnaBuffLen rx.hna (tmpHnaBuffLen rx.hna.length rx.pkt.numHna)
  other : ∀ y : OrigNode p, y.ptr ≠ o.ptr → (y ∈ s'.origs ↔ y ∈ s.origs)

theorem State.mem_modOrig_iff_of_ne {ptr : ℕ} {y : OrigNode p} (hne : y.ptr ≠ ptr) (f : OrigNode p → OrigNode p)
    (hf : ∀ o, (f o).ptr = o.ptr) : y ∈ (s.modOrig ptr f).origs ↔ y ∈ s.origs := by
  constructor
  · intro hy
    obtain ⟨x, hx, heq⟩ := mem_origs_modOrig.mp hy
    by_cases hptr : x.ptr = ptr
    · rw [if_pos hptr] at heq
      rw [← heq, hf] at hne
      exact absurd hptr hne
    · rw [if_neg hptr] at heq
      exact heq ▸ hx
  · exact fun hy => mem_modOrig_of_ne hy hne f

theorem State.setGwflags_frame (s : State p) (origNode : ℕ) (gwflags : Byte) (gwTime : Time) :
    (s.setGwflags origNode gwflags gwTime).origHash =
        (s.modOrig origNode fun o => { o with gwflags := gwflags }).origHash ∧
      (s.setGwflags origNode gwflags gwTime).nextPtr = s.nextPtr ∧
      (s.setGwflags origNode gwflags gwTime).gwList = if (s.origAt origNode).gwflags ≠ gwflags then
        updateGwList origNode gwflags gwTime s.gwList else s.gwList := by
  unfold State.setGwflags
  split_ifs
  · exact ⟨rfl, rfl, rfl⟩
  · exact ⟨rfl, rfl, rfl⟩

theorem State.Table.ends (h : s.Table) {o : OrigNode p} (ho : o ∈ s.origs) (best : Option (NeighNode p)) (rx : Ogm) :
    s.Ends (s.endUpdate o.ptr best rx) o rx := by
  generalize hlen : tmpHnaBuffLen rx.hna.length rx.pkt.numHna = len
  obtain ⟨hkeeps, -⟩ := h.keeps_updateRoutes o.ptr best (some rx.hna) len
  generalize hu : s.updateRoutes o.ptr best (some rx.hna) len = u at hkeeps
  have hu' : u.origs = (s.modOrig o.ptr (·.withRoutes (BatmanAdv.updateRoutes s.hwAddrs s.currTime s.trans o best
      (some rx.hna) len).2)).origs := by
    rw [← hu]
    unfold State.updateRoutes
    rw [h.origAt_of_mem ho]
    rfl
  have hgw : u.gwList = s.gwList ∧ u.nextPtr = s.nextPtr := by
    rw [← hu]
    exact ⟨rfl, rfl⟩
  -- the entry after `update_routes`
  have hroutes : o.withRoutes (BatmanAdv.updateRoutes s.hwAddrs s.currTime s.trans o best (some rx.hna) len).2 ∈
      u.origs := by
    rw [hu']
    exact State.mem_origs_modOrig.mpr ⟨o, ho, if_pos rfl⟩
  have hat : u.origAt o.ptr = o.withRoutes (BatmanAdv.updateRoutes s.hwAddrs s.currTime s.trans o best
      (some rx.hna) len).2 := hkeeps.table.origAt_of_mem hroutes
  have hend : s.endUpdate o.ptr best rx = u.setGwflags o.ptr rx.pkt.gwflags rx.gwTime := by
    rw [← hu, ← hlen]
    rfl
  have hflags : (u.origAt o.ptr).gwflags = o.gwflags := by
    rw [hat]
    rfl
  obtain ⟨hhash, hptr, hlist⟩ := u.setGwflags_frame o.ptr rx.pkt.gwflags rx.gwTime
  rw [hflags] at hlist
  have horigs : (u.setGwflags o.ptr rx.pkt.gwflags rx.gwTime).origs =
      (u.modOrig o.ptr fun o => { o with gwflags := rx.pkt.gwflags }).origs := by
    unfold State.origs
    rw [hhash]
  rw [hend]
  refine ⟨?_, hptr.trans hgw.2, hgw.1 ▸ hlist, ?_, fun y hne => ?_⟩
  · have hmod : (u.modOrig o.ptr fun o => { o with gwflags := rx.pkt.gwflags }).Table :=
      hkeeps.table.modOrig (fun _ => rfl) fun _ => rfl
    exact hmod.congr hhash hptr.ge
  · obtain ⟨-, -, hbuff, hbuffLen⟩ := o.setRouter_hna best
    have hafter := updateHna_hnaAfter s.hwAddrs s.currTime s.trans (o.setRouter best) rx.hna len
    rw [hbuff, hbuffLen] at hafter
    rw [horigs, hlen]
    exact ⟨_, State.mem_origs_modOrig.mpr ⟨_, hroutes, if_pos rfl⟩, rfl, rfl, rfl, hafter⟩
  · rw [horigs, State.mem_modOrig_iff_of_ne hne (fun o => { o with gwflags := rx.pkt.gwflags }) fun _ => rfl, hu']
    exact State.mem_modOrig_iff_of_ne hne _ fun _ => rfl

theorem State.ranked_eq_endUpdate {c : Counted p} (h : c.ranks rx = true) :
    c.ranked g rx = ((c.rate rx).state.rankNeighbors g c.origNode rx.neigh (c.rate rx).pkt rx.ifIncoming
      c.isDuplicate rx.rcvdTime).1.endUpdate c.origNode
        ((c.rate rx).state.rankNeighbors g c.origNode rx.neigh (c.rate rx).pkt rx.ifIncoming c.isDuplicate
          rx.rcvdTime).2.best rx :=
  if_pos h

theorem State.Calm.of_not_process (hs : s.Table) (g : Garbage p) (hprocess : s.ogmCase rx ≠ .process) :
    s.Calm (s.batmanOgm g rx).1 := by
  have hclock : s.Calm { s with currTime := rx.rcvdTime } := .of_origHash hs rfl rfl le_rfl
  cases hc : s.ogmCase rx with
  | ignored =>
    rw [State.batmanOgm_of_ignored hc]
    exact hclock
  | ownOrig =>
    rw [State.batmanOgm_of_ownOrig hc]
    exact hclock.trans (.markOwnBcast hclock.table)
  | noTq =>
    rw [State.batmanOgm_of_noTq hc]
    exact hclock.trans (.countRealPackets hclock.table _ _ _)
  | process => exact absurd hc hprocess

/-- The packet is counted and its link rated, and `update_orig` is not called for it. -/
theorem State.Calm.finish_of_not_ranks (hs : s.Table) (g : Garbage p) (rx : Ogm)
    (hno : (s.counted g rx).unknownNeigh rx = false → ¬ (s.counted g rx).ranks rx = true) :
    s.Calm ((s.counted g rx).finish g rx) := by
  have hcount := State.Calm.counted hs g rx
  have hrate := State.Calm.rated hs g rx
  cases hknown : (s.counted g rx).unknownNeigh rx with
  | true =>
    rw [Counted.finish_of_unknown g hknown]
    exact hcount
  | false =>
    have hranked : (s.counted g rx).ranked g rx = ((s.counted g rx).rate rx).state := if_neg (hno hknown)
    have hqueue := Counted.mayQueue_finish g hknown
    rw [hranked] at hqueue
    exact hrate.trans (.mayQueue hrate.table hqueue)

/-- `update_orig` is called for it, and comes to its end with the entry of the originator. -/
theorem State.Calm.finish_of_ranks (hs : s.Wf) (g : Garbage p) (hprocess : s.ogmCase rx = .process)
    (hknown : (s.counted g rx).unknownNeigh rx = false) (hranks : (s.counted g rx).ranks rx = true) :
    ∃ (t : State p) (o : OrigNode p) (best : Option (NeighNode p)),
      s.Calm t ∧ o ∈ t.origs ∧ o.ptr = (s.counted g rx).origNode ∧ o.orig = rx.pkt.orig ∧
        (t.endUpdate o.ptr best rx).Calm ((s.counted g rx).finish g rx) := by
  have hcount := State.Calm.counted hs.table g rx
  have hrate := State.Calm.rate hcount.table rx
  have hend := State.ranked_eq_endUpdate (g := g) hranks
  obtain ⟨-, hat, -⟩ := State.counted_writes (g := g) hs hprocess
  have hrank := hrate.trans (.rankNeighbors (g := g) hrate.table (s.counted g rx).origNode rx.neigh
    ((s.counted g rx).rate rx).pkt rx.ifIncoming (s.counted g rx).isDuplicate rx.rcvdTime)
  obtain ⟨o, ho, hptr, horig⟩ := hrank.keepsAt hat
  generalize ((s.counted g rx).rate rx).state.rankNeighbors g (s.counted g rx).origNode rx.neigh
    ((s.counted g rx).rate rx).pkt rx.ifIncoming (s.counted g rx).isDuplicate rx.rcvdTime = ranking
    at hrank hend ho
  refine ⟨ranking.1, o, ranking.2.best, hcount.trans hrank, ho, hptr, horig, ?_⟩
  rw [hptr, ← hend]
  have hranked : ((s.counted g rx).ranked g rx).Table := by
    rw [hend, ← hptr]
    exact (hrank.table.ends ho ranking.2.best rx).table
  exact .mayQueue hranked (Counted.mayQueue_finish g hknown)

/-- **An OGM is calm, or it is calm up to one end of `update_orig`.** -/
theorem State.batmanOgm_calm (hs : s.Wf) (g : Garbage p) (rx : Ogm) :
    (¬ s.UpdatesOrig g rx → s.Calm (s.batmanOgm g rx).1) ∧
      (s.UpdatesOrig g rx → ∃ (t : State p) (o : OrigNode p) (best : Option (NeighNode p)),
        s.Calm t ∧ o ∈ t.origs ∧ o.ptr = (s.counted g rx).origNode ∧ o.orig = rx.pkt.orig ∧
          (t.endUpdate o.ptr best rx).Calm (s.batmanOgm g rx).1) := by
  by_cases hprocess : s.ogmCase rx = .process
  · rw [State.batmanOgm_of_process hprocess]
    constructor
    · intro hno
      exact .finish_of_not_ranks hs.table g rx fun hknown hranks => hno ⟨hprocess, hknown, hranks⟩
    · rintro ⟨-, hknown, hranks⟩
      exact State.Calm.finish_of_ranks hs g hprocess hknown hranks
  · exact ⟨fun _ => .of_not_process hs.table g hprocess, fun hupdates => absurd hupdates.1 hprocess⟩

/-- Neither an OGM nor a purge. -/
def Event.calm : Event p → Bool
  | .ogm _ _ => false
  | .purge _ _ _ => false
  | _ => true

theorem step_calm (hs : s.Wf) {e : Event p} (h : step s e = some s') :
    (∃ g rx, e = .ogm g rx ∧ s' = (s.batmanOgm g rx).1) ∨
      (∃ g currTime gwTime, e = .purge g currTime gwTime ∧ s' = s.purgeOrig g currTime gwTime) ∨
        e.calm = true ∧ s.Calm s' := by
  cases stepped h with
  | ogm g rx => exact .inl ⟨g, rx, rfl, rfl⟩
  | purge g currTime gwTime => exact .inr (.inl ⟨g, currTime, gwTime, rfl, rfl⟩)
  | bcast g frame =>
    refine .inr (.inr ⟨rfl, ?_⟩)
    obtain heq | ⟨o, -, -, heq⟩ := s.receiveBcast_cases g frame
    · rw [heq]
      exact .refl hs.table
    · rw [heq]
      exact .modOrig hs.table _ fun _ => ⟨rfl, rfl, rfl, rfl, rfl⟩
  | tap shost dhost =>
    refine .inr (.inr ⟨rfl, ?_⟩)
    unfold State.receiveTap
    dsimp only
    split_ifs <;> exact .of_origHash hs.table rfl rfl le_rfl
  | clock now => exact .inr (.inr ⟨rfl, .of_origHash hs.table rfl rfl le_rfl⟩)
  | hnaUpdate =>
    refine .inr (.inr ⟨rfl, ?_⟩)
    unfold State.hnaUpdate
    generalize s.trans.hnaUpdate s.currTime p s.tapMtu s.primary = updated
    obtain ⟨trans, announced⟩ := updated
    cases announced <;> exact .of_origHash hs.table rfl rfl le_rfl
  | sendBegin now => exact .inr (.inr ⟨rfl, .of_origHash hs.table rfl rfl le_rfl⟩)
  | sendNext now rnd s' hrnd hnext =>
    refine .inr (.inr ⟨rfl, ?_⟩)
    obtain rfl | ⟨t, pos, f, -, -, -, rfl⟩ := State.sendNext_cases hnext
    · exact .of_origHash hs.table rfl rfl le_rfl
    · dsimp only
      generalize hu : ({ s with
        forwList := forwAfter s.forwList pos
        walk := some (t, (forwAfter s.forwList pos).head?.map (·.ptr)) } : State p) = u
      have htaken : s.Calm u := by
        rw [← hu]
        exact .of_origHash hs.table rfl rfl le_rfl
      have hwf : u.Wf := by
        rw [← hu]
        exact hs.congr rfl le_rfl rfl
      split_ifs
      · exact htaken.trans (.scheduleOwnPacket hwf f.ifOutgoing now rnd)
      · exact htaken

end BatmanAdv
