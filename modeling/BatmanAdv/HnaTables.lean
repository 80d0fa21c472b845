import BatmanAdv.Reachable

/-!
# The host tables

An element of `trans_hash` stands for a host and the node it is behind, `batman_mac`. It is linked in
`hna_list` if that node is this one, and otherwise in the list of the originator entry of that node.
`update_routes`, the tap and `purge_orig` move elements between the hash and the lists and keep it so.
-/

namespace BatmanAdv

open Transition

variable {p : Platform} {g : Garbage p} {rx : Ogm} {s s' : State p}

/-! ## The list of an address -/

/-- The list the elements with this `batman_mac` belong to. -/
def State.home (s : State p) (batmanMac : Mac) : Option HnaHead :=
  if isMyMac s.hwAddrs batmanMac then some .own
  else (s.origs.find? (·.orig = batmanMac)).map (HnaHead.orig ·.ptr)

theorem State.home_own {batmanMac : Mac} (h : batmanMac ∈ s.hwAddrs) :
    s.home batmanMac = some .own :=
  if_pos (isMyMac_eq_true.mpr h)

theorem State.home_orig (hs : s.Wf) {o : OrigNode p} (ho : o ∈ s.origs) :
    s.home o.orig = some (.orig o.ptr) := by
  unfold State.home
  rw [if_neg (fun h => hs.foreign o ho (isMyMac_eq_true.mp h))]
  cases hf : s.origs.find? (·.orig = o.orig) with
  | none => exact absurd (List.find?_eq_none.mp hf o ho) (by simp)
  | some x =>
    have horig : x.orig = o.orig := by simpa using List.find?_some hf
    rw [hs.eq_of_orig (List.mem_of_find?_eq_some hf) ho horig]
    rfl

theorem State.home_eq_some_iff (hs : s.Wf) {batmanMac : Mac} {head : HnaHead} :
    s.home batmanMac = some head ↔
      batmanMac ∈ s.hwAddrs ∧ head = .own ∨
        ∃ o ∈ s.origs, o.orig = batmanMac ∧ head = .orig o.ptr := by
  constructor
  · intro h
    by_cases hmy : batmanMac ∈ s.hwAddrs
    · rw [State.home_own hmy] at h
      exact .inl ⟨hmy, (Option.some.inj h).symm⟩
    · unfold State.home at h
      rw [if_neg (fun hmy' => hmy (isMyMac_eq_true.mp hmy'))] at h
      obtain ⟨o, hfind, hhead⟩ := Option.map_eq_some_iff.mp h
      refine .inr ⟨o, List.mem_of_find?_eq_some hfind, ?_, hhead.symm⟩
      simpa using List.find?_some hfind
  · rintro (⟨hmy, rfl⟩ | ⟨o, ho, rfl, rfl⟩)
    · exact State.home_own hmy
    · exact State.home_orig hs ho

theorem State.home_map {f : OrigNode p → OrigNode p} (horigs : s'.origs = s.origs.map f)
    (haddrs : s'.hwAddrs = s.hwAddrs) (hf : ∀ o, (f o).ptr = o.ptr ∧ (f o).orig = o.orig) :
    s'.home = s.home := by
  funext batmanMac
  unfold State.home
  rw [horigs, haddrs, List.find?_map, Option.map_map]
  have hkey : ((fun o : OrigNode p => decide (o.orig = batmanMac)) ∘ f) =
      fun o => decide (o.orig = batmanMac) := by
    funext o
    simp only [Function.comp_apply, (hf o).2]
  have hhead : ((fun o : OrigNode p => HnaHead.orig o.ptr) ∘ f) = fun o => HnaHead.orig o.ptr := by
    funext o
    simp only [Function.comp_apply, (hf o).1]
  rw [hkey, hhead]

/-! ## The invariant -/

/-- The elements are linked where they belong, and there is none for an originator that has announced
nothing. -/
structure State.HnaOk (s : State p) : Prop where
  linked : s.trans.Linked s.home
  silent : ∀ o ∈ s.origs, o.hnaBuff = none → ∀ e ∈ s.trans.elems, e.batmanMac ≠ o.orig
  addrs_ne : s.hwAddrs ≠ []

theorem State.primary_mem (h : s.hwAddrs ≠ []) : s.primary ∈ s.hwAddrs := by
  unfold State.primary
  unfold State.hwAddrs at h ⊢
  cases hl : s.ifList with
  | nil => exact absurd (by rw [hl]; rfl) h
  | cons batmanIf l => exact List.mem_cons_self

theorem State.HnaOk.of_own (h : s.HnaOk) (hs : s.Wf) (horigs : s'.origs = s.origs)
    (haddrs : s'.hwAddrs = s.hwAddrs) (hlinked : s'.trans.Linked s.home)
    (hadds : s.trans.OnlyAdds s'.trans s.primary) : s'.HnaOk where
  linked := by
    rw [State.home_map (f := id) (by rw [horigs, List.map_id]) haddrs fun _ => ⟨rfl, rfl⟩]
    exact hlinked
  silent o ho hnone e he := by
    rw [horigs] at ho
    rcases hadds e he with hbat | ⟨e', he', hbat⟩
    · rw [hbat]
      intro heq
      exact hs.foreign o ho (heq ▸ State.primary_mem h.addrs_ne)
    · rw [← hbat]
      exact h.silent o ho hnone e' he'
  addrs_ne := haddrs ▸ h.addrs_ne

theorem State.HnaOk.map_same (h : s.HnaOk) {f : OrigNode p → OrigNode p}
    (horigs : s'.origs = s.origs.map f) (haddrs : s'.hwAddrs = s.hwAddrs)
    (hf : ∀ o, (f o).ptr = o.ptr ∧ (f o).orig = o.orig) (htrans : s'.trans = s.trans)
    (hbuff : ∀ o, (f o).hnaBuff = o.hnaBuff) : s'.HnaOk where
  linked := by
    rw [State.home_map horigs haddrs hf, htrans]
    exact h.linked
  silent o' ho' hnone := by
    rw [horigs] at ho'
    obtain ⟨o, ho, rfl⟩ := List.mem_map.mp ho'
    rw [(hf o).2, htrans]
    exact h.silent o ho ((hbuff o).symm.trans hnone)
  addrs_ne := haddrs ▸ h.addrs_ne

theorem State.HnaOk.modOrig (h : s.HnaOk) {ptr : ℕ} {f : OrigNode p → OrigNode p}
    (hf : ∀ o, (f o).ptr = o.ptr ∧ (f o).orig = o.orig ∧ (f o).hnaBuff = o.hnaBuff) :
    (s.modOrig ptr f).HnaOk := by
  refine h.map_same State.origs_modOrig rfl (fun o => ?_) rfl fun o => ?_
  · split_ifs
    · exact ⟨(hf o).1, (hf o).2.1⟩
    · exact ⟨rfl, rfl⟩
  · split_ifs
    · exact (hf o).2.2
    · rfl

/-- A new entry has announced nothing, and no element waits for it. -/
theorem State.HnaOk.getOrigNode (hs : s.Wf) (h : s.HnaOk) {addr : Mac} (hforeign : addr ∉ s.hwAddrs) :
    (s.getOrigNode addr).1.HnaOk := by
  have hframe := s.getOrigNode_frame addr
  have haddrs : (s.getOrigNode addr).1.hwAddrs = s.hwAddrs := by rw [hframe]; rfl
  have htrans : (s.getOrigNode addr).1.trans = s.trans := by rw [hframe]
  have hwf := hs.getOrigNode hforeign
  have hhome : ∀ e ∈ s.trans.elems, (s.getOrigNode addr).1.home e.batmanMac = s.home e.batmanMac := by
    intro e he
    obtain ⟨head, hhead⟩ := Option.isSome_iff_exists.mp (h.linked.homed e he)
    rw [hhead, State.home_eq_some_iff hwf, haddrs]
    refine ((State.home_eq_some_iff hs).mp hhead).imp_right ?_
    rintro ⟨o, ho, horig, heq⟩
    exact ⟨o, hs.mem_getOrigNode_of_mem addr ho, horig, heq⟩
  refine ⟨htrans ▸ h.linked.congr hhome, fun o ho hnone e he => ?_, haddrs ▸ h.addrs_ne⟩
  rw [htrans] at he
  rcases hs.mem_getOrigNode ho with ho | ⟨rfl, hfresh⟩
  · exact h.silent o ho hnone e he
  · intro hbat
    obtain ⟨head, hhead⟩ := Option.isSome_iff_exists.mp (h.linked.homed e he)
    rcases (State.home_eq_some_iff hs).mp hhead with ⟨hmy, _⟩ | ⟨o, ho, horig, _⟩
    · rw [hbat] at hmy
      exact hforeign hmy
    · exact hfresh o ho (horig.trans hbat)

/-! ## `update_routes` -/

section UpdateHna

variable {home : Mac → Option HnaHead} {t : TransTable} {o : OrigNode p} (hwAddrs : List Mac)
  (currTime : Time)

/-- What `update_routes` does to the hosts of an originator it keeps. -/
theorem TransTable.Linked.updateHna (h : t.Linked home) (hhome : home o.orig = some (.orig o.ptr))
    (recv : Option (List Byte)) (len : ℕ) :
    (updateHna hwAddrs currTime t o recv len).1.Linked home ∧
      t.OnlyAdds (updateHna hwAddrs currTime t o recv len).1 o.orig ∧
      ((updateHna hwAddrs currTime t o recv len).2.hnaBuff = none →
        recv = none ∧ o.hnaBuff = none ∧ (updateHna hwAddrs currTime t o recv len).1 = t) := by
  have hstore : ∀ (t : TransTable) (o' : OrigNode p) (recv : List Byte), t.Linked home →
      o'.ptr = o.ptr → o'.orig = o.orig →
      (storeHna hwAddrs currTime t o' recv len).1.Linked home ∧
        t.OnlyAdds (storeHna hwAddrs currTime t o' recv len).1 o.orig := by
    intro t o' recv ht hptr horig
    have hhome' : home o'.orig = some (.orig o'.ptr) := by rw [horig, hptr]; exact hhome
    have hstored : home ({ o' with hnaBuff := some (recv.take len), hnaBuffLen := len } :
        OrigNode p).orig = some (.orig o'.ptr) := hhome'
    obtain ⟨hlinked, hadds, _⟩ := ht.hnaAddBuff hwAddrs currTime hstored
    exact ⟨hlinked, horig ▸ hadds⟩
  have hdel : (t.hnaDelBuff o).1.Linked home ∧ t.OnlyAdds (t.hnaDelBuff o).1 o.orig := by
    obtain ⟨hlinked, hmem⟩ := h.hnaRemoveList (.orig o.ptr)
    exact ⟨hlinked, fun e he => .inr ⟨e, ((hmem e).mp he).1, rfl⟩⟩
  unfold BatmanAdv.updateHna
  split
  · next hnone => exact ⟨h, OnlyAdds.refl t _, fun _ => ⟨rfl, hnone, rfl⟩⟩
  · next recv _ =>
    obtain ⟨hlinked, hadds⟩ := hstore t o recv h rfl rfl
    refine ⟨hlinked, hadds, fun hnone => ?_⟩
    cases hnone
  · next hsome =>
    refine ⟨hdel.1, hdel.2, fun hnone => ?_⟩
    have hbuff : o.hnaBuff = none := hnone
    rw [hsome] at hbuff
    cases hbuff
  · next recv buff hsome =>
    dsimp only
    by_cases hchanged : (if len ≠ o.hnaBuffLen then true
        else if recv.take len = buff.take len then true else false) = true
    · rw [if_pos hchanged]
      obtain ⟨hlinked, hadds⟩ := hstore (t.hnaDelBuff o).1 (t.hnaDelBuff o).2 recv hdel.1 rfl rfl
      refine ⟨hlinked, hdel.2.trans hadds, fun hnone => ?_⟩
      cases hnone
    · rw [if_neg hchanged]
      refine ⟨h, OnlyAdds.refl t _, fun hnone => ?_⟩
      rw [hsome] at hnone
      cases hnone

end UpdateHna

theorem OrigNode.setRouter_hna (o : OrigNode p) (best : Option (NeighNode p)) :
    (o.setRouter best).ptr = o.ptr ∧ (o.setRouter best).orig = o.orig ∧
      (o.setRouter best).hnaBuff = o.hnaBuff ∧ (o.setRouter best).hnaBuffLen = o.hnaBuffLen := by
  rw [OrigNode.setRouter_frame]
  exact ⟨rfl, rfl, rfl, rfl⟩

theorem State.HnaOk.updateRoutes (hs : s.Wf) (h : s.HnaOk) {o : OrigNode p} (ho : o ∈ s.origs)
    (best : Option (NeighNode p)) (recv : Option (List Byte)) (len : ℕ) :
    (s.updateRoutes o.ptr best recv len).HnaOk := by
  obtain ⟨hptr, horig, hbuff, _⟩ := o.setRouter_hna best
  obtain ⟨hlinked, hadds, hnone⟩ := h.linked.updateHna s.hwAddrs s.currTime (o := o.setRouter best)
    (by rw [hptr, horig]; exact State.home_orig hs ho) recv len
  rw [horig] at hadds
  rw [hbuff] at hnone
  unfold State.updateRoutes BatmanAdv.updateRoutes
  rw [hs.origAt_of_mem ho]
  generalize updateHna s.hwAddrs s.currTime s.trans (o.setRouter best) recv len = routed
    at hlinked hadds hnone
  obtain ⟨trans, o'⟩ := routed
  dsimp only at hlinked hadds hnone ⊢
  have hhome : (s.modOrig o.ptr (·.withRoutes o')).home = s.home :=
    State.home_map State.origs_modOrig rfl fun x => by split_ifs <;> exact ⟨rfl, rfl⟩
  refine ⟨?_, fun x hx hx' e he => ?_, h.addrs_ne⟩
  · show trans.Linked (s.modOrig o.ptr (·.withRoutes o')).home
    rw [hhome]
    exact hlinked
  · rcases (hs.mem_modOrig_iff ho).mp hx with rfl | ⟨hx, hne⟩
    · -- nothing stored, so nothing announced: the table is as it was
      obtain ⟨_, hbuff', htrans⟩ := hnone hx'
      exact h.silent o ho hbuff' e (htrans ▸ he)
    · rcases hadds e he with hbat | ⟨e', he', hbat⟩
      · rw [hbat]
        exact fun heq => hne (congrArg OrigNode.ptr (hs.eq_of_orig hx ho heq.symm))
      · rw [← hbat]
        exact h.silent x hx hx' e' he'

theorem Write.hnaOk (h : Write rx s s') (hs : s.Wf) (hok : s.HnaOk) : s'.HnaOk := by
  cases h with
  | clock => exact ⟨hok.linked, hok.silent, hok.addrs_ne⟩
  | create addr hforeign => exact hok.getOrigNode hs hforeign
  | own ptr b c => exact hok.modOrig fun _ => ⟨rfl, rfl, rfl⟩
  | neighbor origNode origNeighNode =>
    have hmod : (s.modOrig origNode fun o => { o with neighList := o.neighList ++
        [NeighNode.new s.nextPtr rx.neigh origNeighNode rx.ifIncoming] }).HnaOk :=
      hok.modOrig fun _ => ⟨rfl, rfl, rfl⟩
    exact ⟨hmod.linked, hmod.silent, hmod.addrs_ne⟩
  | valid ptr neigh => exact hok.modOrig fun _ => ⟨rfl, rfl, rfl⟩
  | entry ptr f => exact hok.modOrig fun _ => ⟨rfl, rfl, rfl⟩
  | pushZero ptr dup hat => exact hok.modOrig fun _ => ⟨rfl, rfl, rfl⟩
  | receive ptr hat neigh pkt htq httl dup => exact hok.modOrig fun _ => ⟨rfl, rfl, rfl⟩
  | route ptr hat best hbest recv len =>
    obtain ⟨o, ho, rfl, _⟩ := hat
    exact hok.updateRoutes hs ho best (some recv) len
  | gateway gwList => exact ⟨hok.linked, hok.silent, hok.addrs_ne⟩

theorem Move.hnaOk (h : Move g rx s s') (hs : s.Wf) (hok : s.HnaOk) : s'.HnaOk := by
  cases h with
  | write h => exact h.hnaOk hs hok
  | count ptr hat => exact hok.modOrig fun _ => ⟨rfl, rfl, rfl⟩
  | forward f hptr hown => exact ⟨hok.linked, hok.silent, hok.addrs_ne⟩

/-! ## Purging -/

theorem TransTable.Linked.purgeHna {home : Mac → Option HnaHead} {t : TransTable} (h : t.Linked home)
    (hwAddrs : List Mac) (currTime : Time) (o : OrigNode p) :
    (BatmanAdv.updateHna hwAddrs currTime t o none 0).1.Linked home ∧
      ∀ e ∈ (BatmanAdv.updateHna hwAddrs currTime t o none 0).1.elems,
        e ∈ t.elems ∧ (o.hnaBuff = none ∨ home e.batmanMac ≠ some (.orig o.ptr)) := by
  unfold BatmanAdv.updateHna
  split
  · next hnone => exact ⟨h, fun e he => ⟨he, .inl hnone⟩⟩
  · next hcase _ => cases hcase
  · obtain ⟨hlinked, hmem⟩ := h.hnaRemoveList (.orig o.ptr)
    exact ⟨hlinked, fun e he => ⟨((hmem e).mp he).1, .inr ((hmem e).mp he).2⟩⟩
  · next hcase _ => cases hcase

variable {currTime gwTime : Time}

theorem State.HnaOk.purgeExpired (hs : s.Wf) (h : s.HnaOk) {o : OrigNode p} (ho : o ∈ s.origs) :
    (s.purgeExpired o.ptr gwTime).HnaOk := by
  obtain ⟨hwf, hmem⟩ := State.origs_purgeExpired gwTime hs ho
  obtain ⟨hptr, _, hbuff, _⟩ := ({ o with neighList := [] } : OrigNode p).setRouter_hna none
  obtain ⟨hlinked, helems⟩ := h.linked.purgeHna s.hwAddrs s.currTime
    (({ o with neighList := [] } : OrigNode p).setRouter none)
  have htrans : (s.purgeExpired o.ptr gwTime).trans = (updateHna s.hwAddrs s.currTime s.trans
      (({ o with neighList := [] } : OrigNode p).setRouter none) none 0).1 := by
    unfold State.purgeExpired BatmanAdv.updateRoutes
    rw [hs.origAt_of_mem ho]
  have haddrs : (s.purgeExpired o.ptr gwTime).hwAddrs = s.hwAddrs := rfl
  rw [← htrans, hptr, hbuff] at helems
  rw [← htrans] at hlinked
  -- no element of the freed entry is left
  have hgone : ∀ e ∈ (s.purgeExpired o.ptr gwTime).trans.elems, e.batmanMac ≠ o.orig := by
    intro e he heq
    obtain ⟨he', hnone | hhome⟩ := helems e he
    · exact h.silent o ho hnone e he' heq
    · exact hhome (heq ▸ State.home_orig hs ho)
  refine ⟨hlinked.congr fun e he => ?_, fun x hx hnone e he => ?_, haddrs ▸ h.addrs_ne⟩
  · apply Option.ext
    intro head
    rw [State.home_eq_some_iff hwf, State.home_eq_some_iff hs, haddrs]
    refine or_congr_right ?_
    constructor
    · rintro ⟨x, hx, horig, hhead⟩
      exact ⟨x, ((hmem x).mp hx).1, horig, hhead⟩
    · rintro ⟨x, hx, horig, hhead⟩
      refine ⟨x, (hmem x).mpr ⟨hx, fun hxo => hgone e he ?_⟩, horig, hhead⟩
      rw [← horig, hs.eq_of_ptr hx ho hxo]
  · exact h.silent x ((hmem x).mp hx).1 hnone e (helems e he).1

theorem State.HnaOk.purgeNeighbors (hs : s.Wf) (h : s.HnaOk) {o : OrigNode p} (ho : o ∈ s.origs) :
    (s.purgeNeighbors g currTime o.ptr).HnaOk := by
  obtain ⟨t, ht, hs1, ho1, heq⟩ := State.purgeNeighbors_eq hs ho g currTime
  have h1 : t.HnaOk := by
    rw [ht]
    exact h.modOrig fun _ => ⟨rfl, rfl, rfl⟩
  rw [heq]
  split_ifs
  · exact h1.updateRoutes hs1 ho1 _ _ _
  · exact h1

theorem State.HnaOk.purgeOrig (hs : s.Wf) (h : s.HnaOk) :
    (s.purgeOrig g currTime gwTime).HnaOk := by
  refine State.purgeOrig_induct g currTime gwTime hs h (fun t o ht ho hI => ?_) fun t gwList hI => ?_
  · unfold State.purgeOrigNode
    split_ifs
    · exact hI.purgeExpired ht ho
    · exact hI.purgeNeighbors ht ho
  · exact ⟨hI.linked, hI.silent, hI.addrs_ne⟩

/-! ## Runs -/

theorem State.HnaOk.of_quiet (h : s.HnaOk) (hquiet : s.Quiet s') (htrans : s'.trans = s.trans)
    (haddrs : s'.hwAddrs = s.hwAddrs) : s'.HnaOk := by
  obtain ⟨f, horigs, hf⟩ := hquiet
  refine h.map_same horigs haddrs (fun o => ?_) htrans fun o => ?_
  · rw [hf o]
    exact ⟨rfl, rfl⟩
  · rw [hf o]

theorem step_hnaOk {e : Event p} (hs : s.Wf) (h : s.HnaOk) (hstep : step s e = some s') :
    s'.HnaOk := by
  have haddrs := step_hwAddrs hs hstep
  rcases step_cases hs hstep with ⟨g, rx, rfl, _, _, hmoves⟩ | ⟨g, currTime, gwTime, rfl, rfl⟩ |
    ⟨hogm, hpurge, hquiet⟩
  · exact (hmoves.preserves hs h fun _ _ hwf hI hmove => hmove.hnaOk hwf hI).2
  · exact h.purgeOrig hs
  · have hown : s.home s.primary = some .own := State.home_own (State.primary_mem h.addrs_ne)
    cases stepped hstep with
    | ogm g rx => exact absurd rfl (hogm g rx)
    | purge g currTime gwTime => exact absurd rfl (hpurge g currTime gwTime)
    | bcast g frame =>
      refine h.of_quiet hquiet ?_ haddrs
      rcases s.receiveBcast_cases g frame with heq | ⟨o, _, _, heq⟩ <;> rw [heq]
      rfl
    | tap shost dhost =>
      obtain ⟨hhash, _, _, _, _, htrans, _⟩ := s.receiveTap_frame shost dhost
      refine h.of_own hs (congrArg Hashtable.buckets hhash) haddrs ?_ ?_
      · rw [htrans]
        exact (h.linked.hnaAdd s.hwAddrs s.currTime hown).1
      · rw [htrans]
        exact (h.linked.hnaAdd s.hwAddrs s.currTime hown).2
    | clock now => exact h.of_quiet hquiet rfl haddrs
    | hnaUpdate =>
      obtain ⟨hhash, _, _, _, htrans, _⟩ := s.hnaUpdate_frame
      refine h.of_own hs (congrArg Hashtable.buckets hhash) haddrs ?_ ?_
      · rw [htrans]
        exact (h.linked.hnaUpdate s.currTime s.primary s.primary).1
      · rw [htrans]
        exact (h.linked.hnaUpdate s.currTime s.primary s.primary).2
    | sendBegin now => exact h.of_quiet hquiet rfl haddrs
    | sendNext now rnd _ _ hnext =>
      refine h.of_quiet hquiet ?_ haddrs
      rcases State.sendNext_cases hnext with rfl | ⟨t, pos, f, _, _, _, rfl⟩
      · rfl
      · dsimp only
        split_ifs <;> rfl

theorem TransTable.linked_empty (home : Mac → Option HnaHead) :
    TransTable.Linked home
      { transHash := hashNew 4096, hnaLists := fun _ => [], hnaChanged := false, numHna := 0,
        hnaBuff := [], nextElem := 0 } := by
  have hnil : (hashNew 4096 : Hashtable TransElement).buckets = [] := buckets_hashNew 4096
  refine ⟨Hashtable.Ok.hashNew (by decide), ?_, ?_, fun _ => List.nodup_nil, ?_, fun head ptr => ?_⟩
  · unfold TransTable.elems
    rw [hnil]
    exact fun e he => absurd he List.not_mem_nil
  · unfold TransTable.elems
    rw [hnil]
    exact List.Pairwise.nil
  · unfold TransTable.elems
    rw [hnil]
    exact fun e he => absurd he List.not_mem_nil
  · unfold TransTable.elems
    rw [hnil]
    simp

theorem Config.boot_hnaOk (cfg : Config) (p : Platform) : (cfg.boot p).HnaOk := by
  obtain ⟨horigs, haddrs⟩ := cfg.origs_boot p
  have hprimary : cfg.primary ∈ (cfg.boot p).hwAddrs := by
    rw [haddrs]
    exact List.mem_cons_self
  have hempty := TransTable.linked_empty (cfg.boot p).home
  refine ⟨(hempty.hnaAdd cfg.hwAddrs 0 (State.home_own hprimary)).1, fun o ho => ?_, ?_⟩
  · rw [horigs] at ho
    exact absurd ho List.not_mem_nil
  · rw [haddrs]
    exact List.cons_ne_nil _ _

theorem Run.hnaOk {cfg : Config} {tr : List (State p × Event p)} (h : Run p cfg tr s) : s.HnaOk := by
  have hinv := Trace.state_invariant (I := fun s => s.Wf ∧ s.HnaOk) h
    ⟨cfg.boot_wf p, cfg.boot_hnaOk p⟩
    fun t e u ht hstep => ⟨step_wf ht.1 hstep, step_hnaOk ht.1 ht.2 hstep⟩
  exact hinv.2.2

/-- `head` is the list of this address: `hna_list` for an address of this node, and otherwise that of
the originator entry with this address. -/
def State.ListOf (s : State p) (batmanMac : Mac) (head : HnaHead) : Prop :=
  batmanMac ∈ s.hwAddrs ∧ head = .own ∨
    batmanMac ∉ s.hwAddrs ∧ ∃ o ∈ s.origs, o.orig = batmanMac ∧ head = .orig o.ptr

theorem State.home_iff_listOf (hs : s.Wf) {batmanMac : Mac} {head : HnaHead} :
    s.home batmanMac = some head ↔ s.ListOf batmanMac head := by
  rw [State.home_eq_some_iff hs]
  refine or_congr_right ?_
  constructor
  · rintro ⟨o, ho, rfl, hhead⟩
    exact ⟨hs.foreign o ho, o, ho, rfl, hhead⟩
  · exact fun h => h.2

/-- **The host tables are consistent** in every reachable state: every element is linked once, in the
list of its `batman_mac` and in no other, the lists hold nothing else, and no host has two elements. -/
theorem hna_tables_consistent {cfg : Config} {tr : List (State p × Event p)} (h : Run p cfg tr s) :
    (∀ e ∈ s.trans.elems, ∃ head, s.ListOf e.batmanMac head ∧
        (s.trans.hnaLists head).count e.ptr = 1 ∧
        ∀ head', e.ptr ∈ s.trans.hnaLists head' → head' = head) ∧
      (∀ head, ∀ ptr ∈ s.trans.hnaLists head, ∃ e ∈ s.trans.elems, e.ptr = ptr) ∧
      s.trans.elems.Pairwise fun a b => a.mac ≠ b.mac ∧ a.ptr ≠ b.ptr := by
  have hs := h.wf
  have hlinked := h.hnaOk.linked
  refine ⟨fun e he => ?_, fun head ptr hptr => ?_, ?_⟩
  · obtain ⟨head, hhead⟩ := Option.isSome_iff_exists.mp (hlinked.homed e he)
    have hmem : e.ptr ∈ s.trans.hnaLists head := (hlinked.mem_iff head e.ptr).mpr ⟨e, he, rfl, hhead⟩
    refine ⟨head, (State.home_iff_listOf hs).mp hhead,
      List.count_eq_one_of_mem (hlinked.nodup head) hmem, fun head' hmem' => ?_⟩
    obtain ⟨e', he', hptr, hhead'⟩ := (hlinked.mem_iff head' e.ptr).mp hmem'
    rw [hlinked.eq_of_ptr he' he hptr, hhead] at hhead'
    exact (Option.some.inj hhead').symm
  · obtain ⟨e, he, hptr', _⟩ := (hlinked.mem_iff head ptr).mp hptr
    exact ⟨e, he, hptr'⟩
  · refine (hlinked.ok.distinct.and hlinked.distinct).imp fun {a b} hab => ⟨?_, hab.2⟩
    simpa using hab.1

/-- `A` announces the host `C`. -/
def Net.announced : List (Event Net.p64) :=
  Net.linkUp Net.p64 ++
    [.ogm (Net.zeros Net.p64)
      { Net.ogm Net.macA Net.macA 0 3 1400 with
        pkt := { (Net.ogm Net.macA Net.macA 0 3 1400).pkt with numHna := 1 }
        hna := Net.macC.bytes }]

theorem hna_tables_announced : ∃ tr s, Run Net.p64 Net.cfg tr s ∧ tr.map Prod.snd = Net.announced ∧
    s.trans.transtableSearch Net.macC = some Net.macA ∧
    (∀ e ∈ s.trans.elems, ∃ head, s.ListOf e.batmanMac head ∧
        (s.trans.hnaLists head).count e.ptr = 1 ∧
        ∀ head', e.ptr ∈ s.trans.hnaLists head' → head' = head) ∧
      (∀ head, ∀ ptr ∈ s.trans.hnaLists head, ∃ e ∈ s.trans.elems, e.ptr = ptr) ∧
      s.trans.elems.Pairwise fun a b => a.mac ≠ b.mac ∧ a.ptr ≠ b.ptr := by
  obtain ⟨tr, s, hrun, hevents, hsearch⟩ := Run.of_exec Net.cfg Net.announced
    (fun _ s => decide (s.trans.transtableSearch Net.macC = some Net.macA)) (by decide +kernel)
  exact ⟨tr, s, hrun, hevents, of_decide_eq_true hsearch, hna_tables_consistent hrun⟩

end BatmanAdv
