import BatmanAdv.Announcement

/-!
# The node's own address

`transtable_init` maps the primary address to itself, and `hna_update` never ages it out. Nothing else in
the node takes it away either, but `transtable_add` does: a host is reassigned to whoever announces it,
and it does not ask whether the host is this node. So the own address is kept as long as no OGM names it
among the hosts that `update_routes` stores.
-/

namespace BatmanAdv

open Transition

variable {p : Platform} {g : Garbage p} {rx : Ogm} {s s' : State p}

/-! ## What the functions of the table leave of the other hosts -/

namespace TransTable

variable {home : Mac → Option HnaHead} {t : TransTable} {mac batmanMac : Mac}

theorem Linked.search_congr {t' : TransTable} (h : t.Linked home) (h' : t'.Linked home)
    (helems : ∀ e : TransElement, e.mac = mac → e.batmanMac = batmanMac → (e ∈ t'.elems ↔ e ∈ t.elems)) :
    t'.transtableSearch mac = some batmanMac ↔ t.transtableSearch mac = some batmanMac := by
  rw [h'.transtableSearch_eq_some_iff, h.transtableSearch_eq_some_iff]
  constructor
  · rintro ⟨e, he, hmac, hbat⟩
    exact ⟨e, (helems e hmac hbat).mp he, hmac, hbat⟩
  · rintro ⟨e, he, hmac, hbat⟩
    exact ⟨e, (helems e hmac hbat).mpr he, hmac, hbat⟩

theorem Linked.search_hnaDel (h : t.Linked home) {e : TransElement} (he : e ∈ t.elems) (hne : mac ≠ e.mac) :
    (t.hnaDel e).transtableSearch mac = some batmanMac ↔ t.transtableSearch mac = some batmanMac := by
  apply h.search_congr (h.hnaDel he)
  intro x hmac _
  rw [h.mem_hnaDel he]
  exact and_iff_left (hmac ▸ hne)

theorem Linked.search_setAge (h : t.Linked home) (ptr : ℕ) (age : Time) :
    (t.setAge ptr age).transtableSearch mac = some batmanMac ↔
      t.transtableSearch mac = some batmanMac := by
  rw [(h.setAge ptr age).transtableSearch_eq_some_iff, h.transtableSearch_eq_some_iff]
  constructor
  · rintro ⟨e, he, hmac, hbat⟩
    obtain ⟨e', he', _, hmac', hbat'⟩ := mem_setAge he
    exact ⟨e', he', hmac'.trans hmac, hbat'.trans hbat⟩
  · rintro ⟨e, he, hmac, hbat⟩
    unfold elems TransTable.setAge
    rw [Hashtable.buckets_map]
    refine ⟨_, List.mem_map_of_mem he, ?_⟩
    split_ifs
    · exact ⟨hmac, hbat⟩
    · exact ⟨hmac, hbat⟩

variable (hwAddrs : List Mac) (currTime : Time)

theorem Linked.search_hnaRemoveList (h : t.Linked home) {head : HnaHead} (hbat : home batmanMac ≠ some head) :
    (t.hnaRemoveList head).transtableSearch mac = some batmanMac ↔
      t.transtableSearch mac = some batmanMac := by
  obtain ⟨hlinked, hmem⟩ := h.hnaRemoveList head
  apply h.search_congr hlinked
  intro e _ hbat'
  rw [hmem]
  exact and_iff_left (hbat' ▸ hbat)

theorem Linked.search_hnaAddHost (h : t.Linked home) {ptr : ℕ} {orig : Mac}
    (hhome : home orig = some (.orig ptr)) (hbat : batmanMac ≠ orig) (host : Mac) :
    (t.hnaAddHost hwAddrs currTime ptr orig host).transtableSearch mac = some batmanMac ↔
      t.transtableSearch mac = some batmanMac ∧ ¬ (mac = host ∧ refused mac = false) := by
  unfold TransTable.hnaAddHost
  rcases h.transtableAdd_cases hwAddrs currTime host orig with
    ⟨hadd, hwhy⟩ | ⟨hr, t', h', hmem, hadd⟩
  · simp only [hadd, Int.reduceNeg, neg_eq_zero, one_ne_zero, if_false]
    refine (and_iff_left_of_imp fun hsearch => ?_).symm
    rintro ⟨rfl, hr⟩
    rcases hwhy with hr' | ⟨e, he, hmac, horig⟩
    · rw [hr] at hr'
      cases hr'
    · have hother := h.transtableSearch_eq_some_iff.mpr ⟨e, he, hmac, horig⟩
      exact hbat (Option.some.inj (hsearch.symm.trans hother))
  · have hfresh : ∀ e ∈ t'.elems, e.mac ≠ host := fun e he => ((hmem e).mp he).2
    simp only [hadd, h'.find_addElem currTime hfresh, if_true]
    have hlink := h'.addElem_dlistAdd currTime hfresh hhome
    rw [hlink.transtableSearch_eq_some_iff, h.transtableSearch_eq_some_iff]
    have helems : ∀ e, e ∈ ((t'.addElem currTime host orig).dlistAdd t'.nextElem (.orig ptr)).elems ↔
        e = ⟨t'.nextElem, host, orig, currTime⟩ ∨ (e ∈ t.elems ∧ e.mac ≠ host) :=
      fun e => (h'.mem_addElem currTime hfresh orig).trans (or_congr_right (hmem e))
    constructor
    · rintro ⟨e, he, hmac, hbat'⟩
      rcases (helems e).mp he with rfl | ⟨he, hne⟩
      · exact absurd hbat'.symm hbat
      · exact ⟨⟨e, he, hmac, hbat'⟩, fun hsame => hne (hmac.trans hsame.1)⟩
    · rintro ⟨⟨e, he, hmac, hbat'⟩, hnew⟩
      refine ⟨e, (helems e).mpr (.inr ⟨he, fun hsame => hnew ?_⟩), hmac, hbat'⟩
      have hhost : mac = host := hmac.symm.trans hsame
      exact ⟨hhost, hhost ▸ hr⟩

/-- **`hna_add_buff`** takes the hosts it adds from everyone else. -/
theorem Linked.search_hnaAddBuff (h : t.Linked home) {origNode : OrigNode p}
    (hhome : home origNode.orig = some (.orig origNode.ptr)) (hbat : batmanMac ≠ origNode.orig) :
    (t.hnaAddBuff hwAddrs currTime origNode).transtableSearch mac = some batmanMac ↔
      t.transtableSearch mac = some batmanMac ∧
        ¬ (mac ∈ hosts (origNode.hnaBuff.getD []) origNode.hnaBuffLen ∧ refused mac = false) := by
  unfold TransTable.hnaAddBuff
  induction hosts (origNode.hnaBuff.getD []) origNode.hnaBuffLen generalizing t with
  | nil => simp
  | cons host l ih =>
    rw [List.foldl_cons, ih (h.hnaAddHost hwAddrs currTime hhome host).1,
      h.search_hnaAddHost hwAddrs currTime hhome hbat, List.mem_cons]
    tauto

/-- **`hna_add`** takes no host from this node. -/
theorem Linked.search_hnaAdd (h : t.Linked home) {host mymac : Mac} (hhome : home mymac = some .own)
    (hbat : isMyMac hwAddrs batmanMac = true) (hsearch : t.transtableSearch mac = some batmanMac) :
    (t.hnaAdd hwAddrs currTime host mymac).transtableSearch mac = some batmanMac := by
  have hlink : ∀ t : TransTable, t.Linked home → (∀ e ∈ t.elems, e.mac ≠ host) →
      t.transtableSearch mac = some batmanMac →
      (hnaAdd.link hwAddrs currTime host mymac t).transtableSearch mac = some batmanMac := by
    intro t h hfresh hsearch
    obtain ⟨e, he, hmac, hbat'⟩ := h.transtableSearch_eq_some_iff.mp hsearch
    unfold hnaAdd.link
    rcases h.transtableAdd_cases hwAddrs currTime host mymac with
      ⟨hadd, _⟩ | ⟨_, t', h', hmem, hadd⟩
    · simp only [hadd, h.find_eq_none_iff.mpr hfresh]
      exact hsearch
    · have hfresh' : ∀ e ∈ t'.elems, e.mac ≠ host := fun e he => ((hmem e).mp he).2
      have he' : e ∈ (t'.addElem currTime host mymac).elems :=
        (h'.mem_addElem currTime hfresh' mymac).mpr (.inr ((hmem e).mpr ⟨he, hfresh e he⟩))
      have hlinked := h'.addElem_dlistAdd currTime hfresh' hhome
      simp only [hadd, h'.find_addElem currTime hfresh']
      exact (hlinked.search_setAge t'.nextElem currTime).mpr
        (hlinked.transtableSearch_eq_some_iff.mpr ⟨e, he', hmac, hbat'⟩)
  unfold TransTable.hnaAdd
  cases hf : t.find host with
  | none => exact hlink t h (h.find_eq_none_iff.mp hf) hsearch
  | some e =>
    obtain ⟨he, hmac⟩ := h.find_eq_some_iff.mp hf
    dsimp only
    split_ifs with hmy
    · exact (h.search_setAge e.ptr currTime).mpr hsearch
    · -- a host of another node
      have hne : mac ≠ e.mac := by
        intro hsame
        have hother := h.transtableSearch_eq_some_iff.mpr ⟨e, he, hsame.symm, rfl⟩
        exact hmy (Option.some.inj (hsearch.symm.trans hother) ▸ hbat)
      exact hlink _ (h.hnaDel he) (fun x hx => hmac ▸ ((h.mem_hnaDel he).mp hx).2)
        ((h.search_hnaDel he hne).mpr hsearch)

/-- **`hna_update`** does not age out the primary address. -/
theorem Linked.search_hnaUpdate (h : t.Linked home) {tapMtu : ℤ} (primary : Mac)
    (hsearch : t.transtableSearch primary = some batmanMac) :
    (t.hnaUpdate currTime p tapMtu primary).1.transtableSearch primary = some batmanMac := by
  have hfold : ∀ (l : List ℕ) (t : TransTable), t.Linked home →
      t.transtableSearch primary = some batmanMac →
      (l.foldl (TransTable.hnaUpdateStep currTime primary) t).transtableSearch primary =
        some batmanMac := by
    intro l
    induction l with
    | nil => exact fun t _ hsearch => hsearch
    | cons ptr l ih =>
      intro t h hsearch
      rw [List.foldl_cons]
      apply ih _ (h.hnaUpdateStep currTime primary ptr primary).1
      unfold TransTable.hnaUpdateStep
      cases hf : t.elems.find? (·.ptr = ptr) with
      | none => exact hsearch
      | some e =>
        dsimp only
        split_ifs with hold
        · exact (h.search_hnaDel (List.mem_of_find?_eq_some hf) hold.2.symm).mpr hsearch
        · exact hsearch
  have hkept := hfold (t.hnaLists .own) t h hsearch
  unfold TransTable.hnaUpdate
  dsimp only
  by_cases hc : ((t.hnaLists .own).foldl (TransTable.hnaUpdateStep currTime primary) t).hnaChanged
  · rw [if_pos hc]
    exact hkept
  · rw [if_neg hc]
    exact hkept

theorem hosts_take (hnaBuff : List Byte) (len : ℕ) : hosts (hnaBuff.take len) len = hosts hnaBuff len := by
  have hread : ∀ i < len, (hnaBuff.take len).getD i 0 = hnaBuff.getD i 0 := by
    intro i hi
    simp [List.getD_eq_getElem?_getD, List.getElem?_take_of_lt hi]
  unfold hosts
  apply List.map_congr_left
  intro i hi
  have hlt : i < len / 6 := List.mem_range.mp hi
  unfold Mac.read
  rw [hread _ (by omega), hread _ (by omega), hread _ (by omega), hread _ (by omega), hread _ (by omega),
    hread _ (by omega)]

end TransTable

/-! ## `update_routes` -/

def OrigNode.announced (o : OrigNode p) : List Mac :=
  TransTable.hosts (o.hnaBuff.getD []) o.hnaBuffLen

/-- The hosts `update_routes` hands to `hna_add_buff`. -/
def OrigNode.storedHosts (o : OrigNode p) (recv : Option (List Byte)) (len : ℕ) : List Mac :=
  match recv, o.hnaBuff with
  | some recv, none => TransTable.hosts (recv.take len) len
  | some recv, some buff =>
    if len ≠ o.hnaBuffLen ∨ recv.take len = buff.take len then TransTable.hosts (recv.take len) len
    else []
  | none, _ => []

theorem OrigNode.announced_of_eq {o o' : OrigNode p} (hbuff : o'.hnaBuff = o.hnaBuff)
    (hlen : o'.hnaBuffLen = o.hnaBuffLen) : o'.announced = o.announced := by
  unfold OrigNode.announced
  rw [hbuff, hlen]

theorem OrigNode.announced_of_empty {o : OrigNode p} (hlen : o.hnaBuffLen = 0) : o.announced = [] := by
  unfold OrigNode.announced
  rw [hlen]
  rfl

theorem OrigNode.storedHosts_of_eq {o o' : OrigNode p} (hbuff : o'.hnaBuff = o.hnaBuff)
    (hlen : o'.hnaBuffLen = o.hnaBuffLen) (recv : Option (List Byte)) (len : ℕ) :
    o'.storedHosts recv len = o.storedHosts recv len := by
  unfold OrigNode.storedHosts
  rw [hbuff, hlen]

theorem OrigNode.storedHosts_self (o : OrigNode p) {mac : Mac}
    (h : mac ∈ o.storedHosts o.hnaBuff o.hnaBuffLen) : mac ∈ o.announced := by
  unfold OrigNode.storedHosts at h
  unfold OrigNode.announced
  cases hbuff : o.hnaBuff with
  | none =>
    rw [hbuff] at h
    cases h
  | some buff =>
    rw [hbuff] at h
    dsimp only at h
    rwa [if_pos (.inr rfl), TransTable.hosts_take] at h

section UpdateHna

variable {home : Mac → Option HnaHead} {t : TransTable} {mac batmanMac : Mac} {o : OrigNode p}
  (hwAddrs : List Mac) (currTime : Time)

/-- **`update_routes`** takes the hosts it stores from everyone else, and no others. -/
theorem TransTable.Linked.search_updateHna (h : t.Linked home) (hhome : home o.orig = some (.orig o.ptr))
    (hbat : home batmanMac = some .own) (mac : Mac) (recv : Option (List Byte)) (len : ℕ) :
    (BatmanAdv.updateHna hwAddrs currTime t o recv len).1.transtableSearch mac = some batmanMac ↔
      t.transtableSearch mac = some batmanMac ∧
        ¬ (mac ∈ o.storedHosts recv len ∧ refused mac = false) := by
  have hne : batmanMac ≠ o.orig := by
    intro heq
    rw [heq, hhome] at hbat
    cases hbat
  have hother : home batmanMac ≠ some (.orig o.ptr) := by
    rw [hbat]
    simp
  have hdel : (t.hnaRemoveList (.orig o.ptr)).transtableSearch mac = some batmanMac ↔
      t.transtableSearch mac = some batmanMac := h.search_hnaRemoveList hother
  have hlinked := (h.hnaRemoveList (.orig o.ptr)).1
  have hstore : ∀ (t : TransTable) (o' : OrigNode p) (recv : List Byte), t.Linked home →
      o'.ptr = o.ptr → o'.orig = o.orig →
      ((BatmanAdv.storeHna hwAddrs currTime t o' recv len).1.transtableSearch mac = some batmanMac ↔
        t.transtableSearch mac = some batmanMac ∧
          ¬ (mac ∈ TransTable.hosts (recv.take len) len ∧ refused mac = false)) := by
    intro t o' recv ht hptr horig
    have hhome' : home ({ o' with hnaBuff := some (recv.take len), hnaBuffLen := len } :
        OrigNode p).orig = some (.orig o'.ptr) := by
      show home o'.orig = _
      rw [horig, hptr, hhome]
    exact ht.search_hnaAddBuff hwAddrs currTime hhome' (by rw [horig]; exact hne)
  unfold BatmanAdv.updateHna OrigNode.storedHosts
  cases recv with
  | none =>
    cases o.hnaBuff with
    | none => simp
    | some buff => exact hdel.trans (by simp)
  | some recv =>
    cases o.hnaBuff with
    | none => exact hstore t o recv h rfl rfl
    | some buff =>
      dsimp only
      by_cases hlen : len ≠ o.hnaBuffLen
      · rw [if_pos (if_pos hlen), if_pos (.inl hlen)]
        exact (hstore _ _ recv hlinked rfl rfl).trans (and_congr_left' hdel)
      by_cases hsame : recv.take len = buff.take len
      · rw [if_pos (by rw [if_neg hlen, if_pos hsame]), if_pos (.inr hsame)]
        exact (hstore _ _ recv hlinked rfl rfl).trans (and_congr_left' hdel)
      · rw [if_neg (by rw [if_neg hlen, if_neg hsame]; exact Bool.false_ne_true),
          if_neg (not_or.mpr ⟨hlen, hsame⟩)]
        simp

/-- What the entry announces afterwards was stored, or announced before. -/
theorem mem_announced_updateHna (recv : Option (List Byte)) (len : ℕ)
    (h : mac ∈ (updateHna hwAddrs currTime t o recv len).2.announced) :
    mac ∈ o.storedHosts recv len ∨ mac ∈ o.announced := by
  unfold BatmanAdv.updateHna at h
  unfold OrigNode.storedHosts
  cases recv with
  | none =>
    cases hold : o.hnaBuff with
    | none =>
      rw [hold] at h
      exact .inr h
    | some buff =>
      rw [hold] at h
      rw [OrigNode.announced_of_empty rfl] at h
      cases h
  | some recv =>
    cases hold : o.hnaBuff with
    | none =>
      rw [hold] at h
      exact .inl h
    | some buff =>
      rw [hold] at h
      dsimp only at h ⊢
      by_cases hlen : len ≠ o.hnaBuffLen
      · rw [if_pos (if_pos hlen)] at h
        rw [if_pos (.inl hlen)]
        exact .inl h
      by_cases hsame : recv.take len = buff.take len
      · rw [if_pos (by rw [if_neg hlen, if_pos hsame])] at h
        rw [if_pos (.inr hsame)]
        exact .inl h
      · rw [if_neg (by rw [if_neg hlen, if_neg hsame]; exact Bool.false_ne_true)] at h
        exact .inr h

end UpdateHna

/-- The bytes that take a host which the entry does not announce are new ones. -/
theorem OrigNode.mem_storedHosts_iff {o : OrigNode p} {mac : Mac} (hother : mac ∉ o.announced)
    (recv : List Byte) (len : ℕ) :
    mac ∈ o.storedHosts (some recv) len ↔
      (o.hnaBytes = none ∨ o.hnaBuffLen ≠ len) ∧ mac ∈ TransTable.hosts (recv.take len) len := by
  unfold OrigNode.announced at hother
  unfold OrigNode.storedHosts OrigNode.hnaBytes
  cases hbuff : o.hnaBuff with
  | none => simp
  | some buff =>
    rw [hbuff] at hother
    dsimp only
    by_cases hlen : len ≠ o.hnaBuffLen
    · rw [if_pos (.inl hlen)]
      simp [hlen.symm]
    have hsame : o.hnaBuffLen = len := (not_not.mp hlen).symm
    rw [hsame] at hother
    split_ifs with heq
    · have htake : recv.take len = buff.take len := heq.resolve_left hlen
      rw [htake, TransTable.hosts_take]
      exact iff_of_false hother fun h => hother h.2
    · simp [hsame]

/-! ## What the rest of `batman()` leaves of the table -/

theorem State.trans_getOrigNode (s : State p) (addr : Mac) : (s.getOrigNode addr).1.trans = s.trans := by
  rw [s.getOrigNode_frame]

theorem State.trans_countRealPackets (s : State p) (g : Garbage p) (neigh : Mac) (pkt : BatmanPacket)
    (ifIncoming : ℕ) : (s.countRealPackets g neigh pkt ifIncoming).1.trans = s.trans :=
  s.trans_getOrigNode pkt.orig

theorem State.trans_countOgm (s : State p) (g : Garbage p) (rx : Ogm) :
    (s.countOgm g rx).state.trans = s.trans := by
  have hcount := s.trans_countRealPackets g rx.neigh rx.pkt rx.ifIncoming
  unfold State.countOgm
  generalize s.countRealPackets g rx.neigh rx.pkt rx.ifIncoming = counted at hcount
  dsimp only
  split_ifs
  · exact (State.trans_getOrigNode _ _).trans hcount
  · exact (State.trans_getOrigNode _ _).trans ((State.trans_getOrigNode _ _).trans hcount)

theorem Counted.trans_rate (c : Counted p) (rx : Ogm) : (c.rate rx).state.trans = c.state.trans := by
  have hself : (c.state.selfNeighbor c.origNeighNode rx.ifIncoming).1.trans = c.state.trans := by
    unfold State.selfNeighbor
    dsimp only
    split
    · rfl
    · rfl
  unfold Counted.rate State.isBidirectionalNeigh
  generalize c.state.selfNeighbor c.origNeighNode rx.ifIncoming = self at hself
  dsimp only
  split_ifs
  · exact hself
  · exact hself

theorem Counted.trans_finish (c : Counted p) (g : Garbage p) (rx : Ogm) :
    (c.finish g rx).trans = if c.unknownNeigh rx then c.state.trans else (c.ranked g rx).trans := by
  split_ifs with hunknown
  · rw [Counted.finish_of_unknown g hunknown]
  · rcases Counted.mayQueue_finish g (Bool.eq_false_iff.mpr hunknown) with heq | ⟨f, _, _, heq⟩
    · rw [heq]
    · rw [heq]

/-- **`batman()` changes the table** where it calls `update_orig`, and nowhere else. -/
theorem State.trans_batmanOgm (s : State p) (g : Garbage p) (rx : Ogm) :
    (s.batmanOgm g rx).1.trans = if s.UpdatesOrig g rx then s.hostsAfter g rx else s.trans := by
  by_cases hprocess : s.ogmCase rx = .process
  · have hcounted : (s.counted g rx).state.trans = s.trans := State.trans_countOgm _ g rx
    rw [State.batmanOgm_of_process hprocess]
    show ((s.counted g rx).finish g rx).trans = _
    rw [Counted.trans_finish]
    by_cases hunknown : (s.counted g rx).unknownNeigh rx = true
    · have hno : ¬ s.UpdatesOrig g rx := fun hcall => Bool.noConfusion (hunknown.symm.trans hcall.2.1)
      rw [if_pos hunknown, if_neg hno, hcounted]
    · rw [if_neg hunknown]
      by_cases hranks : (s.counted g rx).ranks rx = true
      · have hcall : s.UpdatesOrig g rx := ⟨hprocess, Bool.eq_false_iff.mpr hunknown, hranks⟩
        rw [if_pos hcall]
        rfl
      · have hno : ¬ s.UpdatesOrig g rx := fun hcall => hranks hcall.2.2
        rw [if_neg hno]
        unfold Counted.ranked
        rw [if_neg hranks, Counted.trans_rate, hcounted]
  · have hno : ¬ s.UpdatesOrig g rx := fun hcall => hprocess hcall.1
    rw [if_neg hno]
    cases hc : s.ogmCase rx with
    | ignored => rw [State.batmanOgm_of_ignored hc]
    | ownOrig =>
      rw [State.batmanOgm_of_ownOrig hc]
      have hget := State.trans_getOrigNode { s with currTime := rx.rcvdTime } rx.neigh
      unfold State.markOwnBcast
      dsimp only
      split_ifs
      · exact hget
      · exact hget
    | noTq =>
      rw [State.batmanOgm_of_noTq hc]
      exact State.trans_countRealPackets _ g _ _ _
    | process => exact absurd hc hprocess

/-! ## The primary address -/

/-- The primary address is translated to itself. -/
def State.MapsPrimary (s : State p) : Prop := s.trans.transtableSearch s.primary = some s.primary

/-- **The primary address is this node's**: it is translated to itself, and its element is linked in
`hna_list`. -/
def State.OwnsPrimary (s : State p) : Prop :=
  s.MapsPrimary ∧ ∃ e ∈ s.trans.elems, e.mac = s.primary ∧ e.ptr ∈ s.trans.hnaLists .own

instance (s : State p) : Decidable s.OwnsPrimary :=
  inferInstanceAs (Decidable (s.trans.transtableSearch s.primary = some s.primary ∧
    ∃ e ∈ s.trans.elems, e.mac = s.primary ∧ e.ptr ∈ s.trans.hnaLists .own))

theorem State.HnaOk.ownsPrimary_iff (h : s.HnaOk) : s.OwnsPrimary ↔ s.MapsPrimary := by
  refine and_iff_left_of_imp fun hmaps => ?_
  obtain ⟨e, he, hmac, hbat⟩ := h.linked.transtableSearch_eq_some_iff.mp hmaps
  refine ⟨e, he, hmac, (h.linked.mem_iff .own e.ptr).mpr ⟨e, he, rfl, ?_⟩⟩
  rw [hbat]
  exact State.home_own (State.primary_mem h.addrs_ne)

/-- No entry announces the primary address. -/
def State.SparesPrimary (s : State p) : Prop := ∀ o ∈ s.origs, s.primary ∉ o.announced

/-- As long as the primary address is this node's, no entry announces it. -/
structure State.Guarded (s : State p) : Prop where
  hnaOk : s.HnaOk
  accepted : refused s.primary = false
  spares : s.MapsPrimary → s.SparesPrimary

theorem State.primary_of_hwAddrs (h : s'.hwAddrs = s.hwAddrs) : s'.primary = s.primary := by
  have hhead : ∀ t : State p, t.primary = t.hwAddrs.head?.getD zeroAddr := by
    intro t
    unfold State.primary State.hwAddrs
    rw [List.head?_map]
  rw [hhead, hhead, h]

theorem State.Guarded.of_trans (h : s.Guarded) (hok : s'.HnaOk) (haddrs : s'.hwAddrs = s.hwAddrs)
    (htrans : s'.trans = s.trans)
    (hentry : ∀ o' ∈ s'.origs, o'.announced = [] ∨ ∃ o ∈ s.origs, o'.announced = o.announced) :
    s'.Guarded := by
  have hprimary := State.primary_of_hwAddrs haddrs
  refine ⟨hok, by rw [hprimary]; exact h.accepted, fun hmaps o' ho' hin => ?_⟩
  unfold State.MapsPrimary at hmaps
  rw [htrans, hprimary] at hmaps
  rw [hprimary] at hin
  rcases hentry o' ho' with hnil | ⟨o, ho, heq⟩
  · rw [hnil] at hin
    cases hin
  · rw [heq] at hin
    exact h.spares hmaps o ho hin

theorem State.Guarded.modOrig (h : s.Guarded) {ptr : ℕ} {f : OrigNode p → OrigNode p}
    (hok : (s.modOrig ptr f).HnaOk)
    (hf : ∀ o, (f o).hnaBuff = o.hnaBuff ∧ (f o).hnaBuffLen = o.hnaBuffLen) :
    (s.modOrig ptr f).Guarded := by
  refine h.of_trans hok State.modOrig_hwAddrs State.modOrig_trans fun o' ho' => ?_
  obtain ⟨o, ho, rfl⟩ := mem_origs_modOrig.mp ho'
  refine .inr ⟨o, ho, ?_⟩
  split_ifs
  · exact OrigNode.announced_of_eq (hf o).1 (hf o).2
  · rfl

/-- `update_routes` either takes the address, or leaves it to this node. -/
theorem State.Guarded.updateRoutes (h : s.Guarded) (hs : s.Wf) {o : OrigNode p} (ho : o ∈ s.origs)
    (best : Option (NeighNode p)) (recv : Option (List Byte)) (len : ℕ) :
    (s.updateRoutes o.ptr best recv len).Guarded ∧
      ((s.updateRoutes o.ptr best recv len).MapsPrimary ↔
        s.MapsPrimary ∧ s.primary ∉ o.storedHosts recv len) := by
  obtain ⟨hptr, horig, hbuff, hlen⟩ := o.setRouter_hna best
  have hprimary : (s.updateRoutes o.ptr best recv len).primary = s.primary := rfl
  obtain ⟨_, hmem⟩ := State.origs_updateRoutes hs ho best recv len
  have htrans := (State.updateRoutes_origAt hs ho best recv len).2
  have hmaps : (s.updateRoutes o.ptr best recv len).MapsPrimary ↔
      s.MapsPrimary ∧ s.primary ∉ o.storedHosts recv len := by
    have hown : s.home s.primary = some .own := State.home_own (State.primary_mem h.hnaOk.addrs_ne)
    have hhome : s.home (o.setRouter best).orig = some (.orig (o.setRouter best).ptr) := by
      rw [hptr, horig]
      exact State.home_orig hs ho
    have hsearch := h.hnaOk.linked.search_updateHna s.hwAddrs s.currTime hhome hown s.primary recv len
    rw [OrigNode.storedHosts_of_eq hbuff hlen] at hsearch
    simp only [h.accepted, and_true] at hsearch
    unfold State.MapsPrimary
    rw [htrans, hprimary]
    exact hsearch
  refine ⟨⟨h.hnaOk.updateRoutes hs ho best recv len, h.accepted, fun hafter x hx hin => ?_⟩, hmaps⟩
  obtain ⟨hbefore, hnew⟩ := hmaps.mp hafter
  rw [hprimary] at hin
  rcases (hmem x).mp hx with rfl | ⟨hx, _⟩
  · rcases mem_announced_updateHna s.hwAddrs s.currTime recv len hin with hin | hin
    · rw [OrigNode.storedHosts_of_eq hbuff hlen] at hin
      exact hnew hin
    · rw [OrigNode.announced_of_eq hbuff hlen] at hin
      exact h.spares hbefore o ho hin
  · exact h.spares hbefore x hx hin

theorem Write.guarded (h : Write rx s s') (hs : s.Wf) (hI : s.Guarded) : s'.Guarded := by
  have hok := h.hnaOk hs hI.hnaOk
  have hsame : ∀ o ∈ s.origs, o.announced = [] ∨ ∃ x ∈ s.origs, o.announced = x.announced :=
    fun o ho => .inr ⟨o, ho, rfl⟩
  cases h with
  | clock => exact hI.of_trans hok rfl rfl hsame
  | create addr hforeign =>
    refine hI.of_trans hok ?_ (s.trans_getOrigNode addr) fun o ho => ?_
    · rw [s.getOrigNode_frame]
      rfl
    · rcases hs.mem_getOrigNode ho with ho | ⟨rfl, _⟩
      · exact hsame o ho
      · exact .inl (OrigNode.announced_of_empty rfl)
  | own ptr b c => exact hI.modOrig hok fun _ => ⟨rfl, rfl⟩
  | neighbor origNode origNeighNode =>
    have hmod : (s.modOrig origNode fun o => { o with neighList := o.neighList ++
        [NeighNode.new s.nextPtr rx.neigh origNeighNode rx.ifIncoming] }).Guarded :=
      hI.modOrig ⟨hok.linked, hok.silent, hok.addrs_ne⟩ fun _ => ⟨rfl, rfl⟩
    exact hmod.of_trans hok rfl rfl fun o ho => .inr ⟨o, ho, rfl⟩
  | valid ptr neigh => exact hI.modOrig hok fun _ => ⟨rfl, rfl⟩
  | entry ptr f => exact hI.modOrig hok fun _ => ⟨rfl, rfl⟩
  | pushZero ptr dup hat => exact hI.modOrig hok fun _ => ⟨rfl, rfl⟩
  | receive ptr hat neigh pkt htq httl dup => exact hI.modOrig hok fun _ => ⟨rfl, rfl⟩
  | route ptr hat best hbest recv len =>
    obtain ⟨o, ho, rfl, _⟩ := hat
    exact (hI.updateRoutes hs ho best (some recv) len).1
  | gateway gwList => exact hI.of_trans hok rfl rfl hsame

theorem Move.guarded (h : Move g rx s s') (hs : s.Wf) (hI : s.Guarded) : s'.Guarded := by
  have hok := h.hnaOk hs hI.hnaOk
  cases h with
  | write h => exact h.guarded hs hI
  | count ptr hat => exact hI.modOrig hok fun _ => ⟨rfl, rfl⟩
  | forward f hptr hown => exact hI.of_trans hok rfl rfl fun o ho => .inr ⟨o, ho, rfl⟩

/-! ## The steps -/

/-- `update_orig` is called for an OGM that names the primary address among its hosts, and its bytes are
stored: none of this length were before. -/
def State.TakesPrimary (s : State p) (g : Garbage p) (rx : Ogm) : Prop :=
  s.UpdatesOrig g rx ∧
    ((s.entryBefore g rx).hnaBytes = none ∨
      (s.entryBefore g rx).hnaBuffLen ≠ (hnaBytesOf rx.hna rx.pkt).length) ∧
    s.primary ∈ TransTable.hosts (hnaBytesOf rx.hna rx.pkt) (hnaBytesOf rx.hna rx.pkt).length

theorem State.mapsPrimary_batmanOgm (hs : s.Wf) (hI : s.Guarded) (hmaps : s.MapsPrimary) (g : Garbage p)
    (rx : Ogm) : (s.batmanOgm g rx).1.MapsPrimary ↔ ¬ s.TakesPrimary g rx := by
  have hprimary : (s.batmanOgm g rx).1.primary = s.primary :=
    State.primary_of_hwAddrs (State.batmanOgm_moves (g := g) hs).hwAddrs
  unfold State.MapsPrimary
  rw [State.trans_batmanOgm, hprimary]
  by_cases hcall : s.UpdatesOrig g rx
  swap
  · rw [if_neg hcall]
    exact iff_of_true hmaps fun htakes => hcall htakes.1
  rw [if_pos hcall]
  obtain ⟨hprocess, hranks⟩ := And.intro hcall.1 hcall.2.2
  obtain ⟨hmoves, hat, hat', hneigh⟩ := State.counted_moves (g := g) hs hprocess
  have hcounted := hmoves.wf hs
  obtain ⟨hrate, hpkt, htq, _⟩ := Counted.rate_moves hcounted hat'
  have hall : Moves g rx s ((s.counted g rx).rate rx).state := hmoves.trans hrate.moves
  obtain ⟨hrated, hguard⟩ := hall.preserves hs hI fun _ _ hwf hI hmove => hmove.guarded hwf hI
  have htransRate : ((s.counted g rx).rate rx).state.trans = s.trans :=
    (Counted.trans_rate _ rx).trans (State.trans_countOgm _ g rx)
  have hprimaryRate := State.primary_of_hwAddrs hall.hwAddrs
  have hranked : (s.counted g rx).ranked g rx = ((s.counted g rx).rate rx).state.updateOrig g
      (s.counted g rx).origNode rx.neigh ((s.counted g rx).rate rx).pkt rx.ifIncoming rx.hna
      (s.counted g rx).isDuplicate rx.rcvdTime rx.gwTime := if_pos hranks
  have hatRate := hrate.at hcounted hat
  obtain ⟨hmem, hptr', horig'⟩ := hrated.origAt_mem hatRate
  obtain ⟨currTime, o, hptr, horig, hbuff, hlen, htrans, _⟩ :=
    State.updateOrig_routes hrated hatRate (by rw [hrate.hwAddrs]; exact hneigh) hpkt htq _ hranked
  have hother : s.primary ∉ (s.entryBefore g rx).announced := by
    rw [← hprimaryRate]
    refine hguard.spares ?_ _ hmem
    unfold State.MapsPrimary
    rw [htransRate, hprimaryRate]
    exact hmaps
  have hhome : ((s.counted g rx).rate rx).state.home o.orig = some (.orig o.ptr) := by
    have hself := State.home_orig hrated hmem
    rw [horig, hptr]
    rwa [horig', hptr'] at hself
  have hown : ((s.counted g rx).rate rx).state.home s.primary = some .own := by
    rw [← hprimaryRate]
    exact State.home_own (State.primary_mem hguard.hnaOk.addrs_ne)
  have hsearch := hguard.hnaOk.linked.search_updateHna
    ((s.counted g rx).rate rx).state.hwAddrs currTime hhome hown s.primary (some rx.hna)
    (hnaBytesOf rx.hna rx.pkt).length
  have hstored : o.storedHosts (some rx.hna) (hnaBytesOf rx.hna rx.pkt).length =
      (s.entryBefore g rx).storedHosts (some rx.hna) (hnaBytesOf rx.hna rx.pkt).length :=
    OrigNode.storedHosts_of_eq hbuff hlen _ _
  have htake : rx.hna.take (hnaBytesOf rx.hna rx.pkt).length = hnaBytesOf rx.hna rx.pkt := by
    rw [length_hnaBytesOf]
    rfl
  unfold State.hostsAfter State.TakesPrimary
  rw [htrans, hsearch, htransRate, hstored, OrigNode.mem_storedHosts_iff hother, htake, hI.accepted,
    and_iff_left rfl, and_iff_right (show s.trans.transtableSearch s.primary = _ from hmaps),
    and_iff_right hcall]

theorem State.Guarded.purgeExpired (hs : s.Wf) (hI : s.Guarded) (hmaps : s.MapsPrimary) {o : OrigNode p}
    (ho : o ∈ s.origs) (gwTime : Time) :
    (s.purgeExpired o.ptr gwTime).Guarded ∧ (s.purgeExpired o.ptr gwTime).MapsPrimary := by
  obtain ⟨_, hmem⟩ := State.origs_purgeExpired gwTime hs ho
  obtain ⟨hptr, horig, _⟩ := ({ o with neighList := [] } : OrigNode p).setRouter_hna none
  have hprimary : (s.purgeExpired o.ptr gwTime).primary = s.primary := rfl
  have hown : s.home s.primary = some .own := State.home_own (State.primary_mem hI.hnaOk.addrs_ne)
  have hhome : s.home (({ o with neighList := [] } : OrigNode p).setRouter none).orig =
      some (.orig (({ o with neighList := [] } : OrigNode p).setRouter none).ptr) := by
    have hself : s.home o.orig = some (.orig o.ptr) := State.home_orig hs ho
    rw [hptr, horig]
    exact hself
  have htrans : (s.purgeExpired o.ptr gwTime).trans = (updateHna s.hwAddrs s.currTime s.trans
      (({ o with neighList := [] } : OrigNode p).setRouter none) none 0).1 := by
    unfold State.purgeExpired BatmanAdv.updateRoutes
    rw [hs.origAt_of_mem ho]
  have hafter : (s.purgeExpired o.ptr gwTime).MapsPrimary := by
    unfold State.MapsPrimary
    rw [htrans, hprimary, hI.hnaOk.linked.search_updateHna s.hwAddrs s.currTime hhome hown]
    exact ⟨hmaps, fun hin => absurd hin.1 List.not_mem_nil⟩
  refine ⟨⟨hI.hnaOk.purgeExpired hs ho, hI.accepted, fun _ x hx => ?_⟩, hafter⟩
  exact hI.spares hmaps x ((hmem x).mp hx).1

theorem State.Guarded.purgeNeighbors (hs : s.Wf) (hI : s.Guarded) (hmaps : s.MapsPrimary)
    {o : OrigNode p} (ho : o ∈ s.origs) (g : Garbage p) (currTime : Time) :
    (s.purgeNeighbors g currTime o.ptr).Guarded ∧ (s.purgeNeighbors g currTime o.ptr).MapsPrimary := by
  obtain ⟨t, ht, hs1, ho1, heq⟩ := State.purgeNeighbors_eq hs ho g currTime
  have hI1 : t.Guarded := by
    rw [ht]
    exact hI.modOrig (hI.hnaOk.modOrig fun _ => ⟨rfl, rfl, rfl⟩) fun _ => ⟨rfl, rfl⟩
  have hmaps1 : t.MapsPrimary := by
    rw [ht]
    exact hmaps
  rw [heq]
  split_ifs
  · obtain ⟨hguard, hiff⟩ := hI1.updateRoutes hs1 ho1 (bestNeighNode (o.keptNeighs currTime)) o.hnaBuff
      o.hnaBuffLen
    refine ⟨hguard, hiff.mpr ⟨hmaps1, fun hin => ?_⟩⟩
    exact hI1.spares hmaps1 _ ho1 (OrigNode.storedHosts_self _ hin)
  · exact ⟨hI1, hmaps1⟩

theorem State.Guarded.purgeOrig (hs : s.Wf) (hI : s.Guarded) (hmaps : s.MapsPrimary) (g : Garbage p)
    (currTime gwTime : Time) :
    (s.purgeOrig g currTime gwTime).Guarded ∧ (s.purgeOrig g currTime gwTime).MapsPrimary := by
  refine State.purgeOrig_induct g currTime gwTime (I := fun t => t.Guarded ∧ t.MapsPrimary) hs ⟨hI, hmaps⟩
    (fun t o ht ho hIt => ?_) fun t gwList hIt => ?_
  · unfold State.purgeOrigNode
    split_ifs
    · exact State.Guarded.purgeExpired ht hIt.1 hIt.2 ho gwTime
    · exact State.Guarded.purgeNeighbors ht hIt.1 hIt.2 ho g currTime
  · exact ⟨hIt.1.of_trans ⟨hIt.1.hnaOk.linked, hIt.1.hnaOk.silent, hIt.1.hnaOk.addrs_ne⟩ rfl rfl
      fun o ho => .inr ⟨o, ho, rfl⟩, hIt.2⟩

/-- The step leaves the primary address to this node. -/
def KeepsPrimary (s : State p) (e : Event p) : Prop := ∀ g rx, e = .ogm g rx → ¬ s.TakesPrimary g rx

/-- **A step** that starts with the primary address. -/
theorem step_mapsPrimary {e : Event p} (hs : s.Wf) (hI : s.Guarded) (hmaps : s.MapsPrimary)
    (hstep : step s e = some s') : s'.Guarded ∧ (s'.MapsPrimary ↔ KeepsPrimary s e) := by
  have haddrs := step_hwAddrs hs hstep
  have hprimary := State.primary_of_hwAddrs haddrs
  have hok := step_hnaOk hs hI.hnaOk hstep
  have hown : s.home s.primary = some .own := State.home_own (State.primary_mem hI.hnaOk.addrs_ne)
  have hmy : isMyMac s.hwAddrs s.primary = true :=
    isMyMac_eq_true.mpr (State.primary_mem hI.hnaOk.addrs_ne)
  rcases step_cases hs hstep with ⟨g, rx, rfl, _, rfl, hmoves⟩ | ⟨g, currTime, gwTime, rfl, rfl⟩ |
    ⟨hogm, hpurge, hquiet⟩
  · refine ⟨(hmoves.preserves hs hI fun _ _ hwf hI hmove => hmove.guarded hwf hI).2, ?_⟩
    rw [State.mapsPrimary_batmanOgm hs hI hmaps]
    refine ⟨fun hkeeps g' rx' heq => ?_, fun hkeeps => hkeeps g rx rfl⟩
    cases heq
    exact hkeeps
  · obtain ⟨hguard, hafter⟩ := State.Guarded.purgeOrig hs hI hmaps g currTime gwTime
    exact ⟨hguard, iff_of_true hafter fun _ _ heq => by cases heq⟩
  · -- no entry changes what it announces
    have hspares : s'.SparesPrimary := by
      intro o' ho'
      obtain ⟨o, ho, hsame⟩ := hquiet.mem ho'
      rw [hprimary, hsame]
      exact hI.spares hmaps o ho
    have hafter : s'.MapsPrimary := by
      unfold State.MapsPrimary
      rw [hprimary]
      cases stepped hstep with
      | ogm g rx => exact absurd rfl (hogm g rx)
      | purge g currTime gwTime => exact absurd rfl (hpurge g currTime gwTime)
      | bcast g frame =>
        rcases s.receiveBcast_cases g frame with heq | ⟨o, _, _, heq⟩
        · rw [heq]
          exact hmaps
        · rw [heq]
          exact hmaps
      | tap shost dhost =>
        rw [(s.receiveTap_frame shost dhost).2.2.2.2.2.1]
        exact hI.hnaOk.linked.search_hnaAdd s.hwAddrs s.currTime hown hmy hmaps
      | clock now => exact hmaps
      | hnaUpdate =>
        rw [s.hnaUpdate_frame.2.2.2.2.1]
        exact hI.hnaOk.linked.search_hnaUpdate s.currTime s.primary hmaps
      | sendBegin now => exact hmaps
      | sendNext now rnd _ _ hnext =>
        rcases State.sendNext_cases hnext with rfl | ⟨t, pos, f, _, _, _, rfl⟩
        · exact hmaps
        · dsimp only
          split_ifs
          · exact hmaps
          · exact hmaps
    exact ⟨⟨hok, hprimary ▸ hI.accepted, fun _ => hspares⟩,
      iff_of_true hafter fun g rx heq => absurd heq (hogm g rx)⟩

/-! ## Runs -/

theorem TransTable.Linked.search_hnaAdd_new {home : Mac → Option HnaHead} {t : TransTable}
    (h : t.Linked home) (hwAddrs : List Mac) (currTime : Time) {mac mymac : Mac}
    (hhome : home mymac = some .own) (hfresh : ∀ e ∈ t.elems, e.mac ≠ mac) :
    (t.hnaAdd hwAddrs currTime mac mymac).transtableSearch mac = some mymac ↔ refused mac = false := by
  have hnone := h.find_eq_none_iff.mpr hfresh
  unfold TransTable.hnaAdd
  rw [hnone]
  dsimp only
  unfold hnaAdd.link
  rcases h.transtableAdd_cases hwAddrs currTime mac mymac with ⟨hadd, hwhy⟩ | ⟨hr, t', h', hmem, hadd⟩
  · have hr : refused mac = true := hwhy.resolve_right fun ⟨e, he, hmac, _⟩ => hfresh e he hmac
    simp only [hadd, hnone]
    refine iff_of_false (fun hsearch => ?_) (by rw [hr]; simp)
    obtain ⟨e, he, hmac, _⟩ := h.transtableSearch_eq_some_iff.mp hsearch
    exact hfresh e he hmac
  · have hfresh' : ∀ e ∈ t'.elems, e.mac ≠ mac := fun e he => ((hmem e).mp he).2
    have hfind := h'.find_addElem currTime hfresh' mymac
    have hlinked := h'.addElem_dlistAdd currTime hfresh' hhome
    simp only [hadd, hfind]
    refine iff_of_true ((hlinked.search_setAge t'.nextElem currTime).mpr ?_) hr
    exact congrArg (Option.map TransElement.batmanMac) hfind

theorem Config.boot_primary (cfg : Config) (p : Platform) : (cfg.boot p).primary = cfg.primary := by
  have hhead : (cfg.boot p).primary = (cfg.boot p).hwAddrs.head?.getD zeroAddr := by
    unfold State.primary State.hwAddrs
    rw [List.head?_map]
  rw [hhead, (cfg.origs_boot p).2]
  rfl

/-- **`transtable_init`** adds the primary address, unless it is one that `transtable_add` refuses. -/
theorem Config.boot_mapsPrimary_iff (cfg : Config) (p : Platform) :
    (cfg.boot p).MapsPrimary ↔ refused cfg.primary = false := by
  have hempty := TransTable.linked_empty (cfg.boot p).home
  have hprimary : cfg.primary ∈ (cfg.boot p).hwAddrs := by
    rw [(cfg.origs_boot p).2]
    exact List.mem_cons_self
  unfold State.MapsPrimary
  rw [cfg.boot_primary p]
  refine hempty.search_hnaAdd_new cfg.hwAddrs 0 (State.home_own hprimary) fun e he => ?_
  have hnil : (hashNew 4096 : Hashtable TransElement).buckets = [] := buckets_hashNew 4096
  unfold TransTable.elems at he
  rw [hnil] at he
  cases he

/-- **The own address is permanent**: in every state of a run the primary address is translated to itself
and linked in `hna_list`, exactly if it is an address `transtable_add` takes and in no step `update_orig`
stores bytes of another node that name it. HNA buffers are values here: what a purge copies that reroutes an
entry with a stored announcement is read from freed memory in the source. -/
theorem own_address_iff {cfg : Config} {tr : List (State p × Event p)} (h : Run p cfg tr s) :
    ((∀ x ∈ tr, x.1.OwnsPrimary) ∧ s.OwnsPrimary) ↔
      refused cfg.primary = false ∧ ∀ x ∈ tr, KeepsPrimary x.1 x.2 := by
  by_cases haccepted : refused cfg.primary = false
  · rw [and_iff_right haccepted]
    have hmaps := (cfg.boot_mapsPrimary_iff p).mpr haccepted
    have hok := cfg.boot_hnaOk p
    refine Trace.forall_iff_good_of_companion (A := State.Wf) (P := State.OwnsPrimary)
      (Q := State.Guarded) h (cfg.boot_wf p) (fun _ _ _ => step_wf) (hok.ownsPrimary_iff.mpr hmaps) ?_ ?_
    · exact ⟨hok, by rw [cfg.boot_primary p]; exact haccepted, fun _ => cfg.forall_origs_boot⟩
    · intro t e u ht howns hguard hstep
      obtain ⟨hguard', hiff⟩ := step_mapsPrimary ht hguard howns.1 hstep
      exact ⟨hguard'.hnaOk.ownsPrimary_iff.trans hiff, fun _ => hguard'⟩
  · refine iff_of_false (fun howns => haccepted ?_) fun hkept => haccepted hkept.1
    exact (cfg.boot_mapsPrimary_iff p).mp (Trace.first h howns).1

/-- `A` announces the host `C`. -/
theorem own_address_announced : ∃ tr s, Run Net.p64 Net.cfg tr s ∧ tr.map Prod.snd = Net.announced ∧
    ((∀ x ∈ tr, x.1.OwnsPrimary) ∧ s.OwnsPrimary) ∧ ∀ x ∈ tr, KeepsPrimary x.1 x.2 := by
  obtain ⟨tr, s, hrun, hevents, hcheck⟩ := Run.of_exec Net.cfg Net.announced
    (fun tr s => decide ((∀ x ∈ tr, x.1.OwnsPrimary) ∧ s.OwnsPrimary)) (by decide +kernel)
  have howns := of_decide_eq_true hcheck
  exact ⟨tr, s, hrun, hevents, howns, ((own_address_iff hrun).mp howns).2⟩

/-- `A` announces the primary address of this node. -/
theorem own_address_taken : ∃ tr s, Run Net.p64 Net.cfg tr s ∧
    tr.map Prod.snd = Net.linkUp Net.p64 ++
      [.ogm (Net.zeros Net.p64) (Net.announcing Net.me0 3 1400)] ∧
    ¬ s.OwnsPrimary ∧ s.trans.transtableSearch Net.me0 = some Net.macA := by
  obtain ⟨tr, s, hrun, hevents, hcheck⟩ := Run.of_exec Net.cfg (Net.linkUp Net.p64 ++
      [.ogm (Net.zeros Net.p64) (Net.announcing Net.me0 3 1400)])
    (fun _ s => decide (¬ s.OwnsPrimary ∧ s.trans.transtableSearch Net.me0 = some Net.macA))
    (by decide +kernel)
  exact ⟨tr, s, hrun, hevents, of_decide_eq_true hcheck⟩

end BatmanAdv
