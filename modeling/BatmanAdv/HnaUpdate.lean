import BatmanAdv.Announcement
import BatmanAdv.SendQueue

/-!
# The announced hosts of this node

`hna_update` rewrites `hna_buff`, `num_hna` and the `num_hna` of the primary interface where `hna_changed`
is set. Everything else that adds to `hna_list` or takes from it sets this flag, so that after each
`hna_update` the buffer holds the list. `schedule_own_packet` puts the buffer behind the OGM of every
interface, but only the header of the primary one says so.
-/

namespace BatmanAdv

open Transition

variable {p : Platform} {g : Garbage p} {rx : Ogm} {s s' : State p}

/-! ## What the flag stands for -/

namespace TransTable

def ownHosts (t : TransTable) : List Mac := (t.hnaLists .own).filterMap t.macOf

/-- The buffer holds `hna_list`, and is announced as far as there is room. -/
structure Fresh (t : TransTable) (room : ℕ) : Prop where
  buff : t.hnaBuff = t.ownHosts.flatMap Mac.bytes
  count : t.numHna = min t.ownHosts.length (min 255 room)

/-- `t'` has the hosts and the buffer of `t`, unless the flag says that the hosts have changed. -/
structure Flagged (t t' : TransTable) : Prop where
  buff : t'.hnaBuff = t.hnaBuff
  count : t'.numHna = t.numHna
  same : t'.hnaChanged = true ∨ t'.hnaChanged = t.hnaChanged ∧ t'.ownHosts = t.ownHosts

variable {home : Mac → Option HnaHead} {t t' t'' : TransTable} {e : TransElement}

theorem Flagged.refl (t : TransTable) : t.Flagged t := ⟨rfl, rfl, .inr ⟨rfl, rfl⟩⟩

theorem Flagged.trans (h : t.Flagged t') (h' : t'.Flagged t'') : t.Flagged t'' := by
  refine ⟨h'.buff.trans h.buff, h'.count.trans h.count, ?_⟩
  rcases h'.same with hset | ⟨hflag', hhosts'⟩
  · exact .inl hset
  · rcases h.same with hset | ⟨hflag, hhosts⟩
    · exact .inl (hflag'.trans hset)
    · exact .inr ⟨hflag'.trans hflag, hhosts'.trans hhosts⟩

theorem Flagged.of_set (hbuff : t'.hnaBuff = t.hnaBuff) (hcount : t'.numHna = t.numHna)
    (hset : t'.hnaChanged = true) : t.Flagged t' := ⟨hbuff, hcount, .inl hset⟩

theorem Flagged.fresh {room : ℕ} (h : t.Flagged t')
    (hfresh : t.hnaChanged = false → t.Fresh room) (hclear : t'.hnaChanged = false) :
    t'.Fresh room := by
  rcases h.same with hset | ⟨hflag, hhosts⟩
  · rw [hclear] at hset
    cases hset
  · obtain ⟨hbuff, hcount⟩ := hfresh (hflag.symm.trans hclear)
    exact ⟨by rw [h.buff, hbuff, hhosts], by rw [h.count, hcount, hhosts]⟩

theorem macOf_of_mem (hd : t.elems.Pairwise fun a b => a.ptr ≠ b.ptr) (he : e ∈ t.elems) :
    t.macOf e.ptr = some e.mac := by
  have : Std.Symm fun a b : TransElement => a.ptr ≠ b.ptr := ⟨fun _ _ => Ne.symm⟩
  unfold macOf
  cases hf : t.elems.find? (·.ptr = e.ptr) with
  | none => exact absurd (List.find?_eq_none.mp hf e he) (by simp)
  | some x =>
    have hptr : x.ptr = e.ptr := by simpa using List.find?_some hf
    by_cases hxe : x = e
    · rw [hxe]
      rfl
    · exact absurd hptr (hd.forall (List.mem_of_find?_eq_some hf) he hxe)

theorem Linked.ownHosts_congr (h : t.Linked home)
    (hd : t'.elems.Pairwise fun a b => a.ptr ≠ b.ptr) (hlist : t'.hnaLists .own = t.hnaLists .own)
    (helems : ∀ e ∈ t.elems, home e.batmanMac = some .own →
      ∃ e' ∈ t'.elems, e'.ptr = e.ptr ∧ e'.mac = e.mac) :
    t'.ownHosts = t.ownHosts := by
  unfold ownHosts
  rw [hlist]
  apply List.filterMap_congr
  intro ptr hptr
  obtain ⟨e, he, rfl, hhome⟩ := (h.mem_iff .own ptr).mp hptr
  obtain ⟨e', he', hptr', hmac⟩ := helems e he hhome
  rw [macOf_of_mem h.distinct he, ← hptr', macOf_of_mem hd he', hmac]

theorem Linked.map_macOf (h : t.Linked home) :
    (t.hnaLists .own).map t.macOf = t.ownHosts.map some := by
  have hsome : ∀ ptr ∈ t.hnaLists .own, (t.macOf ptr).isSome := by
    intro ptr hptr
    obtain ⟨e, he, rfl, _⟩ := (h.mem_iff .own ptr).mp hptr
    rw [macOf_of_mem h.distinct he]
    rfl
  unfold ownHosts
  generalize t.hnaLists .own = l at hsome
  induction l with
  | nil => rfl
  | cons ptr l ih =>
    obtain ⟨mac, hmac⟩ := Option.isSome_iff_exists.mp (hsome ptr List.mem_cons_self)
    rw [List.map_cons, List.filterMap_cons_some hmac, List.map_cons, hmac,
      ih fun x hx => hsome x (List.mem_cons_of_mem _ hx)]

theorem Linked.length_ownHosts (h : t.Linked home) :
    t.ownHosts.length = (t.hnaLists .own).length := by
  have := congrArg List.length h.map_macOf
  rwa [List.length_map, List.length_map, eq_comm] at this

/-! ## The functions of the table set it -/

theorem Linked.hnaDel_flagged (h : t.Linked home) (he : e ∈ t.elems)
    (hother : home e.batmanMac ≠ some .own) : t.Flagged (t.hnaDel e) := by
  refine ⟨rfl, rfl, .inr ⟨rfl, ?_⟩⟩
  apply h.ownHosts_congr (h.hnaDel he).distinct
  · show (t.hnaLists .own).erase e.ptr = t.hnaLists .own
    apply List.erase_of_not_mem
    intro hmem
    obtain ⟨x, hx, hptr, hhome⟩ := (h.mem_iff .own e.ptr).mp hmem
    rw [h.eq_of_ptr hx he hptr] at hhome
    exact hother hhome
  · intro x hx hhome
    refine ⟨x, (h.mem_hnaDel he).mpr ⟨hx, fun hmac => ?_⟩, rfl, rfl⟩
    rw [h.eq_of_mac hx he hmac] at hhome
    exact hother hhome

theorem Linked.addElem_flagged (h : t.Linked home) (currTime : Time) {mac : Mac}
    (hfresh : ∀ e ∈ t.elems, e.mac ≠ mac) (batmanMac : Mac) :
    t.Flagged (t.addElem currTime mac batmanMac) := by
  have hperm := h.addElem_perm currTime hfresh batmanMac
  refine ⟨rfl, rfl, .inr ⟨rfl, ?_⟩⟩
  apply h.ownHosts_congr
  · refine (hperm.pairwise_iff fun hne => hne.symm).mpr (List.pairwise_cons.mpr ⟨?_, h.distinct⟩)
    exact fun x hx => (h.ptr_lt x hx).ne'
  · rfl
  · exact fun x hx _ => ⟨x, (h.mem_addElem currTime hfresh batmanMac).mpr (.inr hx), rfl, rfl⟩

theorem dlistAdd_flagged (t : TransTable) (elem ptr : ℕ) : t.Flagged (t.dlistAdd elem (.orig ptr)) := by
  refine ⟨rfl, rfl, .inr ⟨rfl, ?_⟩⟩
  have hne : HnaHead.own ≠ .orig ptr := by simp
  have hlist : (t.dlistAdd elem (.orig ptr)).hnaLists .own = t.hnaLists .own := by
    show Function.update t.hnaLists (.orig ptr) (elem :: t.hnaLists (.orig ptr)) .own = _
    rw [Function.update_of_ne hne]
  unfold ownHosts
  rw [hlist]
  rfl

variable {hwAddrs : List Mac} (currTime : Time)

theorem Linked.setAge_flagged (h : t.Linked home) (ptr : ℕ) (age : Time) :
    t.Flagged (t.setAge ptr age) := by
  refine ⟨rfl, rfl, .inr ⟨rfl, ?_⟩⟩
  apply h.ownHosts_congr (h.setAge ptr age).distinct
  · rfl
  · intro e he _
    unfold elems TransTable.setAge
    rw [Hashtable.buckets_map]
    refine ⟨_, List.mem_map_of_mem he, ?_⟩
    split_ifs
    · exact ⟨rfl, rfl⟩
    · exact ⟨rfl, rfl⟩

/-- **`transtable_add`** sets the flag where it takes a host from this node. -/
theorem Linked.transtableAdd_flagged (h : t.Linked home)
    (hown : ∀ batmanMac, home batmanMac = some .own → isMyMac hwAddrs batmanMac = true)
    (mac batmanMac : Mac) : t.Flagged (t.transtableAdd hwAddrs currTime mac batmanMac).1 := by
  unfold transtableAdd
  by_cases hr : refused mac = true
  · rw [if_pos hr]
    exact .refl t
  rw [if_neg hr]
  cases hf : t.find mac with
  | none => exact h.addElem_flagged currTime (h.find_eq_none_iff.mp hf) batmanMac
  | some e =>
    obtain ⟨he, hmac⟩ := h.find_eq_some_iff.mp hf
    by_cases hb : batmanMac = e.batmanMac
    · simp only [hb, ne_eq, not_true_eq_false, if_false]
      exact .refl t
    · simp only [ne_eq, hb, not_false_eq_true, if_true]
      have hfresh : ∀ x ∈ (t.hnaDel e).elems, x.mac ≠ mac := fun x hx =>
        hmac ▸ ((h.mem_hnaDel he).mp hx).2
      refine .trans ?_
        (((h.hnaDel he).setChanged (isMyMac hwAddrs e.batmanMac || (t.hnaDel e).hnaChanged)).addElem_flagged
          currTime hfresh batmanMac)
      by_cases hmy : isMyMac hwAddrs e.batmanMac = true
      · refine .of_set rfl rfl ?_
        rw [hmy]
        rfl
      · have hother : home e.batmanMac ≠ some .own := fun hhome => hmy (hown _ hhome)
        rw [Bool.not_eq_true] at hmy
        rw [hmy]
        exact h.hnaDel_flagged he hother

theorem Linked.hnaAdd_link_flagged (h : t.Linked home)
    (hown : ∀ batmanMac, home batmanMac = some .own → isMyMac hwAddrs batmanMac = true)
    (mac mymac : Mac) : t.Flagged (hnaAdd.link hwAddrs currTime mac mymac t) := by
  have hadd := h.transtableAdd_flagged currTime hown mac mymac
  unfold hnaAdd.link
  generalize (t.transtableAdd hwAddrs currTime mac mymac).1 = t1 at hadd
  dsimp only
  cases t1.find mac with
  | none => exact hadd
  | some elem => exact hadd.trans (.of_set rfl rfl rfl)

/-- **`hna_add`** sets it where it adds a host. -/
theorem Linked.hnaAdd_flagged (h : t.Linked home)
    (hown : ∀ batmanMac, home batmanMac = some .own ↔ isMyMac hwAddrs batmanMac = true)
    (mac mymac : Mac) : t.Flagged (t.hnaAdd hwAddrs currTime mac mymac) := by
  unfold TransTable.hnaAdd
  cases hf : t.find mac with
  | none => exact h.hnaAdd_link_flagged currTime (fun _ => (hown _).mp) mac mymac
  | some e =>
    obtain ⟨he, _⟩ := h.find_eq_some_iff.mp hf
    dsimp only
    by_cases hmy : isMyMac hwAddrs e.batmanMac = true
    · rw [if_pos hmy]
      exact h.setAge_flagged _ _
    · rw [if_neg hmy]
      refine (h.hnaDel_flagged he fun hhome => hmy ((hown _).mp hhome)).trans ?_
      exact (h.hnaDel he).hnaAdd_link_flagged currTime (fun _ => (hown _).mp) mac mymac

theorem hnaUpdateStep_flagged (t : TransTable) (primary : Mac) (ptr : ℕ) :
    t.Flagged (hnaUpdateStep currTime primary t ptr) := by
  unfold TransTable.hnaUpdateStep
  cases t.elems.find? (·.ptr = ptr) with
  | none => exact .refl t
  | some e =>
    dsimp only
    split_ifs
    · exact .of_set rfl rfl rfl
    · exact .refl t

theorem Linked.hnaRemoveList_flagged (h : t.Linked home) (ptr : ℕ) :
    t.Flagged (t.hnaRemoveList (.orig ptr)) := by
  have hfold : ∀ (l : List ℕ) (t : TransTable), t.Linked home →
      (∀ e ∈ t.elems, e.ptr ∈ l → home e.batmanMac ≠ some .own) →
      t.Flagged (l.foldl hnaRemoveStep t) := by
    intro l
    induction l with
    | nil => exact fun t _ _ => .refl t
    | cons q l ih =>
      intro t h hother
      rw [List.foldl_cons]
      cases hf : t.elems.find? (·.ptr = q) with
      | none =>
        rw [hnaRemoveStep_of_none hf]
        exact ih t h fun e he hin => hother e he (List.mem_cons_of_mem _ hin)
      | some x =>
        have hx := List.mem_of_find?_eq_some hf
        have hxptr : x.ptr = q := by simpa using List.find?_some hf
        rw [hnaRemoveStep_of_some hf]
        refine (h.hnaDel_flagged hx (hother x hx (hxptr ▸ List.mem_cons_self))).trans ?_
        refine ih _ (h.hnaDel hx) fun e he hin => ?_
        exact hother e ((h.mem_hnaDel hx).mp he).1 (List.mem_cons_of_mem _ hin)
  rw [hnaRemoveList_eq]
  refine hfold _ t h fun e he hin hhome => ?_
  obtain ⟨e', he', hptr, hhome'⟩ := (h.mem_iff _ _).mp hin
  rw [h.eq_of_ptr he' he hptr, hhome] at hhome'
  cases hhome'

theorem Linked.hnaAddBuff_flagged (h : t.Linked home)
    (hown : ∀ batmanMac, home batmanMac = some .own → isMyMac hwAddrs batmanMac = true)
    {origNode : OrigNode p} (hhome : home origNode.orig = some (.orig origNode.ptr)) :
    t.Flagged (t.hnaAddBuff hwAddrs currTime origNode) := by
  unfold TransTable.hnaAddBuff
  induction hosts (origNode.hnaBuff.getD []) origNode.hnaBuffLen generalizing t with
  | nil => exact .refl t
  | cons host l ih =>
    rw [List.foldl_cons]
    refine .trans ?_ (ih (h.hnaAddHost hwAddrs currTime hhome host).1)
    have hadd := h.transtableAdd_flagged currTime hown host origNode.orig
    unfold TransTable.hnaAddHost
    generalize t.transtableAdd hwAddrs currTime host origNode.orig = added at hadd
    obtain ⟨t1, ret⟩ := added
    dsimp only at hadd ⊢
    split_ifs
    · cases t1.find host with
      | none => exact hadd
      | some elem => exact hadd.trans (t1.dlistAdd_flagged _ _)
    · exact hadd

/-- `update_routes` takes hosts from this node only through `transtable_add`. -/
theorem Linked.updateHna_flagged (h : t.Linked home)
    (hown : ∀ batmanMac, home batmanMac = some .own → isMyMac hwAddrs batmanMac = true)
    {o : OrigNode p} (hhome : home o.orig = some (.orig o.ptr)) (recv : Option (List Byte)) (len : ℕ) :
    t.Flagged (BatmanAdv.updateHna hwAddrs currTime t o recv len).1 := by
  have hstore : ∀ (t : TransTable) (o' : OrigNode p) (recv : List Byte), t.Linked home →
      o'.ptr = o.ptr → o'.orig = o.orig →
      t.Flagged (BatmanAdv.storeHna hwAddrs currTime t o' recv len).1 := by
    intro t o' recv ht hptr horig
    refine ht.hnaAddBuff_flagged currTime hown ?_
    show home o'.orig = some (.orig o'.ptr)
    rw [horig, hptr]
    exact hhome
  have hdel : t.Flagged (t.hnaDelBuff o).1 := h.hnaRemoveList_flagged o.ptr
  have hlinked : (t.hnaDelBuff o).1.Linked home := (h.hnaRemoveList (.orig o.ptr)).1
  unfold BatmanAdv.updateHna
  split
  · exact .refl t
  · next recv _ => exact hstore t o recv h rfl rfl
  · exact hdel
  · next recv buff _ =>
    dsimp only
    by_cases hchanged : (if len ≠ o.hnaBuffLen then true
        else if recv.take len = buff.take len then true else false) = true
    · rw [if_pos hchanged]
      exact hdel.trans (hstore _ _ recv hlinked rfl rfl)
    · rw [if_neg hchanged]
      exact .refl t

end TransTable

/-! ## The steps -/

theorem State.home_own_iff {batmanMac : Mac} :
    s.home batmanMac = some .own ↔ isMyMac s.hwAddrs batmanMac = true := by
  unfold State.home
  constructor
  · intro h
    by_contra hmy
    rw [if_neg hmy] at h
    obtain ⟨o, _, hhead⟩ := Option.map_eq_some_iff.mp h
    cases hhead
  · exact fun hmy => if_pos hmy

/-- A step that leaves the announcement alone, but for the flag. -/
structure State.KeepsHosts (s s' : State p) : Prop where
  flagged : s.trans.Flagged s'.trans
  tapMtu : s'.tapMtu = s.tapMtu
  out : ∀ i, (s'.outOf i).numHna = (s.outOf i).numHna

theorem State.KeepsHosts.of_ifList (h : s.trans.Flagged s'.trans) (htap : s'.tapMtu = s.tapMtu)
    (hif : s'.ifList = s.ifList) : s.KeepsHosts s' :=
  ⟨h, htap, fun i => by unfold State.outOf; rw [hif]⟩

theorem State.KeepsHosts.of_trans (h : s'.trans = s.trans) (htap : s'.tapMtu = s.tapMtu)
    (hif : s'.ifList = s.ifList) : s.KeepsHosts s' :=
  .of_ifList (h ▸ .refl s.trans) htap hif

theorem State.KeepsHosts.trans {t : State p} (h : s.KeepsHosts t) (h' : t.KeepsHosts s') :
    s.KeepsHosts s' :=
  ⟨h.flagged.trans h'.flagged, h'.tapMtu.trans h.tapMtu, fun i => (h'.out i).trans (h.out i)⟩

theorem State.updateRoutes_keepsHosts (hs : s.Wf) (h : s.HnaOk) {o : OrigNode p} (ho : o ∈ s.origs)
    (best : Option (NeighNode p)) (recv : Option (List Byte)) (len : ℕ) :
    s.KeepsHosts (s.updateRoutes o.ptr best recv len) := by
  obtain ⟨hptr, horig, _, _⟩ := o.setRouter_hna best
  have hhome : s.home (o.setRouter best).orig = some (.orig (o.setRouter best).ptr) := by
    rw [hptr, horig]
    exact State.home_orig hs ho
  have hflagged : s.trans.Flagged
      (BatmanAdv.updateHna s.hwAddrs s.currTime s.trans (o.setRouter best) recv len).1 :=
    h.linked.updateHna_flagged s.currTime (fun _ => State.home_own_iff.mp) hhome recv len
  refine .of_ifList ?_ rfl rfl
  unfold State.updateRoutes BatmanAdv.updateRoutes
  rw [hs.origAt_of_mem ho]
  exact hflagged

theorem Move.keepsHosts (h : Move g rx s s') (hs : s.Wf) (hok : s.HnaOk) : s.KeepsHosts s' := by
  cases h with
  | write h =>
    cases h with
    | create addr =>
      refine .of_trans ?_ ?_ ?_
      · rw [State.getOrigNode_frame]
      · rw [State.getOrigNode_frame]
      · rw [State.getOrigNode_frame]
    | route ptr hat best hbest recv len =>
      obtain ⟨o, ho, rfl, _⟩ := hat
      exact State.updateRoutes_keepsHosts hs hok ho best (some recv) len
    | clock => exact .of_trans rfl rfl rfl
    | own => exact .of_trans rfl rfl rfl
    | neighbor => exact .of_trans rfl rfl rfl
    | valid => exact .of_trans rfl rfl rfl
    | entry => exact .of_trans rfl rfl rfl
    | pushZero => exact .of_trans rfl rfl rfl
    | receive => exact .of_trans rfl rfl rfl
    | gateway => exact .of_trans rfl rfl rfl
  | count => exact .of_trans rfl rfl rfl
  | forward => exact .of_trans rfl rfl rfl

variable {currTime gwTime : Time}

theorem State.purgeExpired_keepsHosts (hs : s.Wf) (h : s.HnaOk) {o : OrigNode p} (ho : o ∈ s.origs) :
    s.KeepsHosts (s.purgeExpired o.ptr gwTime) := by
  have hhome : ∀ o' : OrigNode p, o'.orig = o.orig → o'.ptr = o.ptr →
      s.home o'.orig = some (.orig o'.ptr) := by
    intro o' horig hptr
    rw [horig, hptr]
    exact State.home_orig hs ho
  obtain ⟨hptr, horig, _, _⟩ := ({ o with neighList := [] } : OrigNode p).setRouter_hna none
  have hflagged : s.trans.Flagged (BatmanAdv.updateHna s.hwAddrs s.currTime s.trans
      (({ o with neighList := [] } : OrigNode p).setRouter none) none 0).1 :=
    h.linked.updateHna_flagged s.currTime (fun _ => State.home_own_iff.mp) (hhome _ horig hptr) none 0
  refine .of_ifList ?_ rfl rfl
  unfold State.purgeExpired BatmanAdv.updateRoutes
  rw [hs.origAt_of_mem ho]
  exact hflagged

theorem State.purgeNeighbors_keepsHosts (hs : s.Wf) (h : s.HnaOk) {o : OrigNode p}
    (ho : o ∈ s.origs) : s.KeepsHosts (s.purgeNeighbors g currTime o.ptr) := by
  obtain ⟨t, ht, hs1, ho1, heq⟩ := State.purgeNeighbors_eq hs ho g currTime
  have h1 : t.HnaOk := by
    rw [ht]
    exact h.modOrig fun _ => ⟨rfl, rfl, rfl⟩
  have hmod : s.KeepsHosts t := by
    rw [ht]
    exact .of_trans rfl rfl rfl
  rw [heq]
  split_ifs
  · exact hmod.trans (State.updateRoutes_keepsHosts hs1 h1 ho1 _ _ _)
  · exact hmod

theorem State.purgeOrig_keepsHosts (hs : s.Wf) (h : s.HnaOk) :
    s.KeepsHosts (s.purgeOrig g currTime gwTime) := by
  have hinv := State.purgeOrig_induct g currTime gwTime (I := fun t => t.HnaOk ∧ s.KeepsHosts t) hs
    ⟨h, .of_trans rfl rfl rfl⟩ (fun t o ht ho hI => ?_)
    fun t gwList hI => ⟨⟨hI.1.linked, hI.1.silent, hI.1.addrs_ne⟩, hI.2.trans (.of_trans rfl rfl rfl)⟩
  · exact hinv.2
  · unfold State.purgeOrigNode
    split_ifs
    · exact ⟨hI.1.purgeExpired ht ho, hI.2.trans (State.purgeExpired_keepsHosts ht hI.1 ho)⟩
    · exact ⟨hI.1.purgeNeighbors ht ho, hI.2.trans (State.purgeNeighbors_keepsHosts ht hI.1 ho)⟩

theorem State.scheduleOwnPacket_keepsHosts (s : State p) (ifNum : ℕ) (now : Time) (rnd : ℕ) :
    s.KeepsHosts (s.scheduleOwnPacket ifNum now rnd) := by
  refine ⟨.refl _, rfl, fun i => ?_⟩
  show ((s.modOut ifNum fun out => { out with seqno := out.seqno + 1 }).outOf i).numHna = _
  rw [s.outOf_modOut]
  split_ifs
  · rfl
  · rfl

theorem State.receiveTap_keepsHosts (h : s.HnaOk) (shost dhost : Mac) :
    s.KeepsHosts (s.receiveTap shost dhost) := by
  refine ⟨?_, ?_, fun i => ?_⟩
  · rw [(s.receiveTap_frame shost dhost).2.2.2.2.2.1]
    exact h.linked.hnaAdd_flagged s.currTime (fun _ => State.home_own_iff) shost s.primary
  · unfold State.receiveTap
    dsimp only
    split_ifs
    · rfl
    · rfl
  · unfold State.receiveTap
    dsimp only
    split_ifs
    · unfold State.outOf
      dsimp only
      rw [List.getElem?_modify]
      cases s.ifList[i]? with
      | none => rfl
      | some batmanIf => by_cases hi : 0 = i <;> simp [hi]
    · rfl

/-- **Every step but `hna_update`.** -/
theorem step_keepsHosts {e : Event p} (hs : s.Wf) (h : s.HnaOk) (hstep : step s e = some s')
    (he : e ≠ .hnaUpdate) : s.KeepsHosts s' := by
  cases stepped hstep with
  | ogm g rx =>
    have hmoves : Moves g rx s (s.batmanOgm g rx).1 := State.batmanOgm_moves hs
    have hinv := hmoves.preserves (I := fun t => t.HnaOk ∧ s.KeepsHosts t) hs
      ⟨h, .of_trans rfl rfl rfl⟩ fun t t' ht hI hmove =>
        ⟨hmove.hnaOk ht hI.1, hI.2.trans (hmove.keepsHosts ht hI.1)⟩
    exact hinv.2.2
  | bcast g frame =>
    rcases s.receiveBcast_cases g frame with heq | ⟨o, _, _, heq⟩
    · rw [heq]
      exact .of_trans rfl rfl rfl
    · rw [heq]
      exact .of_trans rfl rfl rfl
  | tap shost dhost => exact State.receiveTap_keepsHosts h shost dhost
  | clock now => exact .of_trans rfl rfl rfl
  | hnaUpdate => exact absurd rfl he
  | purge g currTime gwTime => exact State.purgeOrig_keepsHosts hs h
  | sendBegin now => exact .of_trans rfl rfl rfl
  | sendNext now rnd _ _ hnext =>
    rcases State.sendNext_cases hnext with rfl | ⟨t, pos, f, _, _, _, rfl⟩
    · exact .of_trans rfl rfl rfl
    · dsimp only
      split_ifs
      · refine .trans ?_ (State.scheduleOwnPacket_keepsHosts _ _ _ _)
        exact .of_trans rfl rfl rfl
      · exact .of_trans rfl rfl rfl

/-! ## Runs -/

/-- The hosts this node announces: the first `num_hna` ones of `hna_list` at the last `hna_update`. -/
def announcedBy (tr : List (State p × Event p)) : List Mac :=
  tr.foldl (fun hosts x => match x.2 with
    | .hnaUpdate => x.1.hnaUpdate.trans.ownHosts.take x.1.hnaUpdate.trans.numHna
    | _ => hosts) []

theorem announcedBy_snoc (tr : List (State p × Event p)) {e : Event p} (he : e ≠ .hnaUpdate) :
    announcedBy (tr ++ [(s, e)]) = announcedBy tr := by
  unfold announcedBy
  rw [List.foldl_append, List.foldl_cons, List.foldl_nil]
  cases e with
  | hnaUpdate => exact absurd rfl he
  | _ => rfl

theorem announcedBy_snoc_hnaUpdate (tr : List (State p × Event p)) :
    announcedBy (tr ++ [(s, .hnaUpdate)]) =
      s.hnaUpdate.trans.ownHosts.take s.hnaUpdate.trans.numHna := by
  unfold announcedBy
  rw [List.foldl_append, List.foldl_cons, List.foldl_nil]

/-- The flag is sound, and these hosts are announced by the primary interface alone. -/
structure State.Announces (s : State p) (hosts : List Mac) : Prop where
  fresh : s.trans.hnaChanged = false → s.trans.Fresh (TransTable.maxAnnounced p s.tapMtu)
  buff : s.trans.hnaBuff.take (s.trans.numHna * 6) = hosts.flatMap Mac.bytes
  count : s.trans.numHna = hosts.length
  room : hosts.length ≤ min 255 (TransTable.maxAnnounced p s.tapMtu)
  primary : (s.outOf 0).numHna = BitVec.ofNat 8 hosts.length
  secondary : ∀ i ≠ 0, (s.outOf i).numHna = 0

theorem take_flatMap_bytes (l : List Mac) (n : ℕ) :
    (l.flatMap Mac.bytes).take (n * 6) = (l.take n).flatMap Mac.bytes := by
  induction l generalizing n with
  | nil => simp
  | cons mac l ih =>
    cases n with
    | zero => simp
    | succ n =>
      have hlen : mac.bytes.length = 6 := rfl
      rw [List.flatMap_cons, List.take_succ_cons, List.flatMap_cons, ← ih n, List.take_append, hlen,
        List.take_of_length_le (by omega)]
      congr 2
      omega

theorem announceable_eq (n room : ℕ) :
    (if n > room ∨ n > 255 then if room > 255 then 255 else room else n) = min n (min 255 room) := by
  by_cases h : n > room ∨ n > 255
  · rw [if_pos h]
    by_cases hroom : room > 255
    · rw [if_pos hroom]
      omega
    · rw [if_neg hroom]
      omega
  · rw [if_neg h]
    omega

/-- **`hna_update`** leaves a buffer that holds the list. -/
theorem TransTable.hnaUpdate_fresh (t : TransTable) (currTime : Time) {tapMtu : ℤ} (primary : Mac)
    (h : t.hnaChanged = false → t.Fresh (maxAnnounced p tapMtu)) :
    (t.hnaUpdate currTime p tapMtu primary).1.hnaChanged = false ∧
      (t.hnaUpdate currTime p tapMtu primary).1.Fresh (maxAnnounced p tapMtu) ∧
      ((t.hnaUpdate currTime p tapMtu primary).2 =
          some (t.hnaUpdate currTime p tapMtu primary).1.numHna ∨
        (t.hnaUpdate currTime p tapMtu primary).2 = none ∧
          (t.hnaUpdate currTime p tapMtu primary).1.numHna = t.numHna) := by
  have hfold : ∀ (l : List ℕ) (t : TransTable),
      t.Flagged (l.foldl (hnaUpdateStep currTime primary) t) := by
    intro l
    induction l with
    | nil => exact fun t => .refl t
    | cons ptr l ih => exact fun t => (t.hnaUpdateStep_flagged currTime primary ptr).trans (ih _)
  have hflagged := hfold (t.hnaLists .own) t
  unfold TransTable.hnaUpdate
  generalize (t.hnaLists .own).foldl (hnaUpdateStep currTime primary) t = t1 at hflagged
  dsimp only
  by_cases hset : t1.hnaChanged = true
  · rw [if_pos hset]
    exact ⟨rfl, ⟨rfl, announceable_eq _ _⟩, .inl rfl⟩
  · rw [if_neg hset]
    rw [Bool.not_eq_true] at hset
    exact ⟨hset, hflagged.fresh h hset, .inr ⟨rfl, hflagged.count⟩⟩

theorem State.tapMtu_hnaUpdate (s : State p) : s.hnaUpdate.tapMtu = s.tapMtu := by
  unfold State.hnaUpdate
  generalize s.trans.hnaUpdate s.currTime p s.tapMtu s.primary = updated
  obtain ⟨trans, announced⟩ := updated
  cases announced with
  | none => rfl
  | some numHna => rfl

theorem State.Announces.hnaUpdate (hosts : List Mac) (h : s.Announces hosts) (hif : s.ifList ≠ []) :
    s.hnaUpdate.Announces (s.hnaUpdate.trans.ownHosts.take s.hnaUpdate.trans.numHna) := by
  obtain ⟨hclear, hfresh, hcount⟩ := s.trans.hnaUpdate_fresh s.currTime s.primary h.fresh
  have hpos : 0 < s.ifList.length := List.length_pos_iff.mpr hif
  have htap := s.tapMtu_hnaUpdate
  have hout : ∀ i, (s.hnaUpdate.outOf i).numHna =
      if i = 0 then BitVec.ofNat 8 s.hnaUpdate.trans.numHna else (s.outOf i).numHna := by
    intro i
    rw [s.hnaUpdate_frame.2.2.2.2.1]
    unfold State.hnaUpdate
    generalize s.trans.hnaUpdate s.currTime p s.tapMtu s.primary = updated at hcount
    obtain ⟨trans, announced⟩ := updated
    dsimp only at hcount
    rcases hcount with hset | ⟨hnone, hsame⟩
    · subst hset
      dsimp only
      rw [State.outOf_modOut]
      by_cases hi : i = 0
      · rw [hi, if_pos ⟨rfl, hpos⟩, if_pos rfl]
      · rw [if_neg fun hij => hi hij.1.symm, if_neg hi]
        rfl
    · subst hnone
      dsimp only
      by_cases hi : i = 0
      · rw [hi, if_pos rfl, hsame, h.count]
        exact h.primary
      · rw [if_neg hi]
        rfl
  rw [← s.hnaUpdate_frame.2.2.2.2.1] at hclear hfresh
  have hle : s.hnaUpdate.trans.numHna ≤ s.hnaUpdate.trans.ownHosts.length := by
    rw [hfresh.count]
    exact min_le_left _ _
  have hlen : (s.hnaUpdate.trans.ownHosts.take s.hnaUpdate.trans.numHna).length =
      s.hnaUpdate.trans.numHna := by
    rw [List.length_take, min_eq_left hle]
  refine ⟨fun _ => htap ▸ hfresh, ?_, hlen.symm, ?_, ?_, fun i hi => ?_⟩
  · rw [hfresh.buff, take_flatMap_bytes]
  · rw [hlen, htap, hfresh.count]
    exact min_le_right _ _
  · rw [hlen, hout, if_pos rfl]
  · rw [hout, if_neg hi]
    exact h.secondary i hi

theorem State.Announces.keepsHosts {hosts : List Mac} (h : s.Announces hosts) (hk : s.KeepsHosts s') :
    s'.Announces hosts where
  fresh hclear := hk.tapMtu ▸ hk.flagged.fresh h.fresh hclear
  buff := by
    rw [hk.flagged.buff, hk.flagged.count]
    exact h.buff
  count := hk.flagged.count.trans h.count
  room := hk.tapMtu ▸ h.room
  primary := (hk.out 0).trans h.primary
  secondary i hi := (hk.out i).trans (h.secondary i hi)

theorem Config.scheduled_keepsHosts (cfg : Config) (p : Platform) :
    (cfg.start p).KeepsHosts (cfg.scheduled p) := by
  have hfold : ∀ (l : List ℕ) (t : State p), t.KeepsHosts
      (l.foldl (fun s i => s.scheduleOwnPacket i (cfg.now i) (cfg.rnd i)) t) := by
    intro l
    induction l with
    | nil => exact fun t => .of_trans rfl rfl rfl
    | cons i l ih => exact fun t => (t.scheduleOwnPacket_keepsHosts i _ _).trans (ih _)
  exact hfold _ _

theorem Config.boot_announces (cfg : Config) (p : Platform) : (cfg.boot p).Announces [] := by
  have hout : ∀ i, ((cfg.boot p).outOf i).numHna = 0 := by
    intro i
    refine ((cfg.scheduled_keepsHosts p).out i).trans ?_
    unfold State.outOf Config.start
    dsimp only
    rw [List.getElem?_map]
    cases cfg.hwAddrs[i]? with
    | none => rfl
    | some hwAddr => rfl
  have hprimary : ∀ batmanMac, (cfg.boot p).home batmanMac = some .own ↔
      isMyMac cfg.hwAddrs batmanMac = true := by
    intro batmanMac
    rw [State.home_own_iff, (cfg.origs_boot p).2]
  have hflagged := (TransTable.linked_empty (cfg.boot p).home).hnaAdd_flagged 0 hprimary cfg.primary
    cfg.primary
  refine ⟨fun hclear => ?_, ?_, hflagged.count, Nat.zero_le _, hout 0, fun i _ => hout i⟩
  · exact hflagged.fresh (fun _ => ⟨rfl, (Nat.zero_min _).symm⟩) hclear
  · show List.take _ (transtableInit cfg.hwAddrs 0 cfg.primary).hnaBuff = []
    unfold transtableInit
    rw [hflagged.buff, List.take_nil]

theorem Run.announces {cfg : Config} {tr : List (State p × Event p)} (h : Run p cfg tr s) :
    s.Announces (announcedBy tr) ∧ s.tapMtu = cfg.tapMtu := by
  have hinv := Trace.invariant
    (I := fun tr s => Run p cfg tr s ∧ s.Announces (announcedBy tr) ∧ s.tapMtu = cfg.tapMtu) h
    ⟨.nil, cfg.boot_announces p, (cfg.scheduled_keepsHosts p).tapMtu⟩
    fun tr s e s' ⟨hrun, hann, htap⟩ hstep => ?_
  · exact hinv.2
  · refine ⟨hrun.snoc hstep, ?_⟩
    by_cases he : e = .hnaUpdate
    · subst he
      have hif : s.ifList ≠ [] := by
        intro hnil
        apply (Run.hnaOk hrun).addrs_ne
        unfold State.hwAddrs
        rw [hnil, List.map_nil]
      cases stepped hstep with
      | hnaUpdate =>
        rw [announcedBy_snoc_hnaUpdate]
        exact ⟨hann.hnaUpdate _ hif, s.tapMtu_hnaUpdate.trans htap⟩
    · rw [announcedBy_snoc tr he]
      have hk := step_keepsHosts (Run.wf hrun) (Run.hnaOk hrun) hstep he
      exact ⟨hann.keepsHosts hk, hk.tapMtu.trans htap⟩

theorem maxAnnounced_eq {tapMtu : ℤ} (hmtu : batmanMaxframesize ≤ tapMtu) (hlt : tapMtu < 2 ^ 31) :
    TransTable.maxAnnounced p tapMtu = ((tapMtu - batmanMaxframesize) / 6).toNat := by
  unfold TransTable.maxAnnounced
  have hword : (2 : ℤ) ^ 31 ≤ 2 ^ p.wordBitSize := by
    rcases p.wordBitSize_eq with hw | hw
    · rw [hw]
      decide
    · rw [hw]
      decide
  rw [Int.emod_eq_of_lt (by omega) (by omega)]
  omega

/-- **The dirty flag is sound.** After `hna_update` the announcement is what `hna_list` holds, as far as
there is room for it. -/
theorem hna_update_announces {cfg : Config} {tr : List (State p × Event p)} (h : Run p cfg tr s)
    (hmtu : batmanMaxframesize ≤ cfg.tapMtu) (hlt : cfg.tapMtu < 2 ^ 31)
    (hstep : step s .hnaUpdate = some s') :
    s'.trans.numHna = min (s'.trans.hnaLists .own).length
        (min 255 ((cfg.tapMtu - batmanMaxframesize) / 6).toNat) ∧
      (∃ macs : List Mac, (s'.trans.hnaLists .own).map s'.trans.macOf = macs.map some ∧
        s'.trans.hnaBuff.take (6 * s'.trans.numHna) =
          (macs.take s'.trans.numHna).flatMap Mac.bytes) ∧
      (s'.outOf 0).numHna.toNat = s'.trans.numHna := by
  have hrun : Run p cfg (tr ++ [(s, .hnaUpdate)]) s' := Trace.snoc h hstep
  have hlinked := (Run.hnaOk hrun).linked
  obtain ⟨hann, htap⟩ := Run.announces hrun
  have hclear : s'.trans.hnaChanged = false := by
    cases stepped hstep with
    | hnaUpdate =>
      rw [s.hnaUpdate_frame.2.2.2.2.1]
      exact (s.trans.hnaUpdate_fresh s.currTime s.primary (Run.announces h).1.fresh).1
  have hfresh := hann.fresh hclear
  have hroom := maxAnnounced_eq (p := p) hmtu hlt
  rw [htap, hroom] at hfresh
  refine ⟨?_, ⟨s'.trans.ownHosts, hlinked.map_macOf, ?_⟩, ?_⟩
  · rw [hfresh.count, hlinked.length_ownHosts]
  · rw [hfresh.buff, mul_comm, take_flatMap_bytes]
  · have hle := hann.room
    rw [hann.primary, hann.count, BitVec.toNat_ofNat]
    omega

/-- A host is seen on the tap, and the list is announced. -/
theorem hna_update_announces_tap : ∃ tr s s',
    Run Net.p64 Net.cfg tr s ∧ tr.map Prod.snd = [.tap Net.macC Net.macA] ∧
    step s .hnaUpdate = some s' ∧ s'.trans.numHna = 2 ∧
    (s'.trans.numHna = min (s'.trans.hnaLists .own).length
        (min 255 ((Net.cfg.tapMtu - batmanMaxframesize) / 6).toNat) ∧
      (∃ macs : List Mac, (s'.trans.hnaLists .own).map s'.trans.macOf = macs.map some ∧
        s'.trans.hnaBuff.take (6 * s'.trans.numHna) =
          (macs.take s'.trans.numHna).flatMap Mac.bytes) ∧
      (s'.outOf 0).numHna.toNat = s'.trans.numHna) := by
  obtain ⟨tr, s, hrun, hevents, hcheck⟩ := Run.of_exec (p := Net.p64) Net.cfg [.tap Net.macC Net.macA]
    (fun _ (s : State Net.p64) => decide (∃ s' ∈ step s .hnaUpdate, s'.trans.numHna = 2))
    (by decide +kernel)
  obtain ⟨s', hstep, htwo⟩ := of_decide_eq_true hcheck
  exact ⟨tr, s, s', hrun, hevents, hstep, htwo,
    hna_update_announces hrun (by decide) (by decide) hstep⟩

/-! ## Own packets -/

def ForwNode.packBuffLen (f : ForwNode) : ℕ := batmanPacketSize + f.packHna.length

/-- The packet is as long as its header says, fits the tap, and a receiver reads these hosts in it. -/
structure ForwNode.OwnFormat (f : ForwNode) (tapMtu : ℤ) (announced : List Mac) : Prop where
  len : f.packBuffLen = batmanPacketSize + 6 * f.pack.numHna.toNat
  fits : f.packBuffLen ≤ tapMtu
  hosts : TransTable.hosts (hnaBytesOf f.packHna f.pack) (hnaBytesOf f.packHna f.pack).length = announced

theorem length_flatMap_bytes (l : List Mac) : (l.flatMap Mac.bytes).length = 6 * l.length := by
  induction l with
  | nil => rfl
  | cons mac l ih =>
    have hlen : mac.bytes.length = 6 := rfl
    rw [List.flatMap_cons, List.length_append, ih, List.length_cons, hlen]
    omega

theorem Mac.read_append (a b : List Byte) {i : ℕ} (h : a.length ≤ i) :
    Mac.read (a ++ b) i = Mac.read b (i - a.length) := by
  have hget : ∀ j, (a ++ b).getD (i + j) 0 = b.getD (i - a.length + j) 0 := by
    intro j
    rw [List.getD_eq_getElem?_getD, List.getD_eq_getElem?_getD, List.getElem?_append_right (by omega),
      show i + j - a.length = i - a.length + j by omega]
  have hzero := hget 0
  rw [Nat.add_zero, Nat.add_zero] at hzero
  unfold Mac.read
  rw [hzero, hget, hget, hget, hget, hget]

/-- **`hna_add_buff` reads the hosts that were written.** -/
theorem hosts_flatMap_bytes (l : List Mac) :
    TransTable.hosts (l.flatMap Mac.bytes) (l.flatMap Mac.bytes).length = l := by
  unfold TransTable.hosts
  rw [length_flatMap_bytes, Nat.mul_div_cancel_left _ (by decide)]
  induction l with
  | nil => rfl
  | cons mac l ih =>
    rw [List.length_cons, List.range_succ_eq_map, List.map_cons, List.map_map, List.flatMap_cons]
    congr 1
    refine Eq.trans ?_ ih
    apply List.map_congr_left
    intro i _
    have hlen : mac.bytes.length = 6 := rfl
    show Mac.read _ ((i + 1) * 6) = _
    rw [Mac.read_append _ _ (by rw [hlen]; omega), hlen]
    congr 1
    omega

/-- The length is `sizeof(struct batman_packet)+num_hna*6`. -/
theorem State.Announces.packBuffLen_ownNode {hosts : List Mac} (h : s.Announces hosts) (ifNum : ℕ)
    (now : Time) (rnd : ℕ) :
    (s.ownNode ifNum now rnd).packHna = hosts.flatMap Mac.bytes ∧
      (s.ownNode ifNum now rnd).packBuffLen = batmanPacketSize + s.trans.numHna * 6 := by
  have hhna : (s.ownNode ifNum now rnd).packHna = hosts.flatMap Mac.bytes := h.buff
  refine ⟨hhna, ?_⟩
  unfold ForwNode.packBuffLen
  rw [hhna, length_flatMap_bytes, h.count, mul_comm]

/-- **The format of own packets.** The packet `schedule_own_packet` builds tells the announced hosts
exactly for the primary interface, or where there is none. -/
theorem own_packet_format_iff {cfg : Config} {tr : List (State p × Event p)} (h : Run p cfg tr s)
    (hmtu : batmanMaxframesize ≤ cfg.tapMtu) (hlt : cfg.tapMtu < 2 ^ 31) (ifNum : ℕ) (now : Time)
    (rnd : ℕ) :
    (s.ownNode ifNum now rnd).OwnFormat cfg.tapMtu (announcedBy tr) ↔
      ifNum = 0 ∨ announcedBy tr = [] := by
  obtain ⟨hann, htap⟩ := Run.announces h
  have hroom := hann.room
  rw [htap, maxAnnounced_eq hmtu hlt] at hroom
  obtain ⟨hhna, hlen⟩ := hann.packBuffLen_ownNode ifNum now rnd
  rw [hann.count] at hlen
  have hhdr : (s.ownNode ifNum now rnd).pack.numHna = (s.outOf ifNum).numHna := rfl
  constructor
  · intro hformat
    by_contra hboth
    obtain ⟨hif, hne⟩ := not_or.mp hboth
    have hlong := hformat.len
    rw [hlen, hhdr, hann.secondary ifNum hif] at hlong
    have hpos : 0 < (announcedBy tr).length := List.length_pos_iff.mpr hne
    have hzero : (0 : Byte).toNat = 0 := rfl
    omega
  · intro hside
    have hcount : (s.ownNode ifNum now rnd).pack.numHna.toNat = (announcedBy tr).length := by
      rw [hhdr]
      by_cases hif : ifNum = 0
      · rw [hif, hann.primary, BitVec.toNat_ofNat]
        omega
      · rw [hann.secondary ifNum hif, hside.resolve_left hif]
        rfl
    refine ⟨by rw [hlen, hcount, mul_comm], ?_, ?_⟩
    · rw [hlen]
      unfold batmanPacketSize
      unfold batmanMaxframesize at hmtu hroom
      omega
    · have hall : hnaBytesOf (s.ownNode ifNum now rnd).packHna (s.ownNode ifNum now rnd).pack =
          (announcedBy tr).flatMap Mac.bytes := by
        unfold hnaBytesOf
        rw [hhna, tmpHnaBuffLen_eq, hcount, length_flatMap_bytes, min_self, ← length_flatMap_bytes,
          List.take_length]
      rw [hall, hosts_flatMap_bytes]

/-- The packet of the primary interface, with two hosts. -/
theorem own_packet_format_primary : ∃ tr s,
    Run Net.p64 Net.cfg tr s ∧ tr.map Prod.snd = [.tap Net.macC Net.macA, .hnaUpdate] ∧
    (announcedBy tr).length = 2 ∧
    (s.ownNode 0 1000 0).OwnFormat Net.cfg.tapMtu (announcedBy tr) := by
  obtain ⟨tr, s, hrun, hevents, hcheck⟩ := Run.of_exec (p := Net.p64) Net.cfg
    [.tap Net.macC Net.macA, .hnaUpdate] (fun tr _ => decide ((announcedBy tr).length = 2))
    (by decide +kernel)
  exact ⟨tr, s, hrun, hevents, of_decide_eq_true hcheck,
    (own_packet_format_iff hrun (by decide) (by decide) 0 1000 0).mpr (.inl rfl)⟩

/-- The packet of the second interface carries them too, but its header says that there is none. -/
theorem own_packet_format_secondary : ∃ tr s,
    Run Net.p64 Net.cfg tr s ∧ tr.map Prod.snd = [.tap Net.macC Net.macA, .hnaUpdate] ∧
    1 < s.ifList.length ∧ ¬ (s.ownNode 1 1000 0).OwnFormat Net.cfg.tapMtu (announcedBy tr) := by
  obtain ⟨tr, s, hrun, hevents, hcheck⟩ := Run.of_exec (p := Net.p64) Net.cfg
    [.tap Net.macC Net.macA, .hnaUpdate]
    (fun _ (s : State Net.p64) => decide (1 < s.ifList.length ∧ (s.ownNode 1 1000 0).packBuffLen ≠
      batmanPacketSize + 6 * (s.ownNode 1 1000 0).pack.numHna.toNat)) (by decide +kernel)
  obtain ⟨hif, hlen⟩ := of_decide_eq_true hcheck
  exact ⟨tr, s, hrun, hevents, hif, fun hformat => hlen hformat.len⟩

end BatmanAdv
