import BatmanAdv.HnaBuffers
import BatmanAdv.HnaUpdate
import Mathlib.Data.List.GetD

/-!
# What a daemon knows

What the tables of a daemon say of other nodes, they were told by OGMs: the addresses of originators and
neighbours, gateway classes, HNA bytes and the hosts behind other nodes. What they say of hosts of this
node, its tap has told.
-/

namespace BatmanAdv

open Transition

variable {p : Platform} {s s' : State p} {g : Garbage p} {rx : Ogm}

/-! ## Hash tables -/

section Hash

variable {α κ : Type*} {cb : HashCallbacks κ} {key : α → κ} {hash : Hashtable α} {data x : α}

theorem Hashtable.mem_buckets_update {i elements : ℕ} {chain : List α}
    (h : x ∈ (⟨Function.update hash.table i chain, elements, hash.size⟩ : Hashtable α).buckets) :
    i < hash.size ∧ x ∈ chain ∨ x ∈ hash.buckets := by
  obtain ⟨j, hj, hx⟩ := Hashtable.mem_buckets.mp h
  dsimp only at hj hx
  by_cases hji : j = i
  · subst hji
    rw [Function.update_self] at hx
    exact .inl ⟨hj, hx⟩
  · rw [Function.update_of_ne hji] at hx
    exact .inr (Hashtable.mem_buckets.mpr ⟨j, hj, hx⟩)

theorem mem_hashRemoveBucket {index : ℕ} {isBucket : α → Bool}
    (h : x ∈ (hashRemoveBucket hash index isBucket).buckets) : x ∈ hash.buckets := by
  rcases Hashtable.mem_buckets_update h with ⟨hi, hx⟩ | hx
  · exact Hashtable.mem_buckets.mpr ⟨index, hi, List.mem_of_mem_eraseP hx⟩
  · exact hx

theorem mem_hashRemove {k : κ} (h : x ∈ (hashRemove cb key hash k).1.buckets) : x ∈ hash.buckets := by
  unfold hashRemove at h
  dsimp only at h
  split at h
  · exact h
  · exact mem_hashRemoveBucket h

theorem mem_hashAdd (h : x ∈ (hashAdd cb key hash data).1.buckets) : x = data ∨ x ∈ hash.buckets := by
  unfold hashAdd at h
  dsimp only at h
  split_ifs at h
  · exact .inr h
  · rcases Hashtable.mem_buckets_update h with ⟨hi, hx⟩ | hx
    · rcases List.mem_append.mp hx with hx | hx
      · exact .inr (Hashtable.mem_buckets.mpr ⟨_, hi, hx⟩)
      · exact .inl (List.mem_singleton.mp hx)
    · exact .inr hx

theorem mem_hashResize {size : ℕ} (h : x ∈ (hashResize cb key hash size).buckets) : x ∈ hash.buckets := by
  have hfold : ∀ (l : List α) (new : Hashtable α),
      x ∈ (l.foldl (fun newHash data => (hashAdd cb key newHash data).1) new).buckets →
        x ∈ l ∨ x ∈ new.buckets := by
    intro l
    induction l with
    | nil => exact fun new hx => .inr hx
    | cons a l ih =>
      intro new hx
      rcases ih _ hx with hx | hx
      · exact .inl (List.mem_cons_of_mem _ hx)
      · rcases mem_hashAdd hx with rfl | hx
        · exact .inl List.mem_cons_self
        · exact .inr hx
  rcases hfold _ _ h with hx | hx
  · exact hx
  · rw [buckets_hashNew] at hx
    exact absurd hx List.not_mem_nil

end Hash

/-! ## Hosts -/

namespace TransTable

variable {t : TransTable} {P : Mac → Mac → Prop} (hwAddrs : List Mac) (currTime : Time)

/-- `P` holds of every host and the address it is mapped to. -/
def MapsOnly (P : Mac → Mac → Prop) (t : TransTable) : Prop := ∀ e ∈ t.elems, P e.mac e.batmanMac

namespace MapsOnly

theorem mono {P' : Mac → Mac → Prop} (h : t.MapsOnly P) (hP : ∀ mac batmanMac, P mac batmanMac → P' mac batmanMac) :
    t.MapsOnly P' := fun e he => hP _ _ (h e he)

theorem hnaDel (h : t.MapsOnly P) (elem : TransElement) : (t.hnaDel elem).MapsOnly P :=
  fun e he => h e (mem_hashRemove he)

theorem setAge (h : t.MapsOnly P) (ptr : ℕ) (age : Time) : (t.setAge ptr age).MapsOnly P := by
  intro e he
  obtain ⟨e', he', -, hmac, hbat⟩ := mem_setAge he
  rw [← hmac, ← hbat]
  exact h e' he'

theorem addElem (h : t.MapsOnly P) {mac batmanMac : Mac} (hP : P mac batmanMac) :
    (t.addElem currTime mac batmanMac).MapsOnly P := by
  intro e he
  rcases mem_hashAdd he with rfl | he
  · exact hP
  · exact h e he

theorem transtableAdd (h : t.MapsOnly P) {mac batmanMac : Mac} (hP : P mac batmanMac) :
    (t.transtableAdd hwAddrs currTime mac batmanMac).1.MapsOnly P := by
  unfold TransTable.transtableAdd
  by_cases hrefused : refused mac = true
  · rw [if_pos hrefused]
    exact h
  rw [if_neg hrefused]
  cases t.find mac with
  | none => exact h.addElem currTime hP
  | some e =>
    dsimp only
    by_cases hbat : batmanMac ≠ e.batmanMac
    · rw [if_pos hbat]
      have hdel : ({ t.hnaDel e with
          hnaChanged := isMyMac hwAddrs e.batmanMac || (t.hnaDel e).hnaChanged } : TransTable).MapsOnly P :=
        h.hnaDel e
      exact hdel.addElem currTime hP
    · rw [if_neg hbat]
      exact h

theorem hnaAdd_link (h : t.MapsOnly P) {mac mymac : Mac} (hP : P mac mymac) :
    (hnaAdd.link hwAddrs currTime mac mymac t).MapsOnly P := by
  have hadd := h.transtableAdd hwAddrs currTime hP
  unfold TransTable.hnaAdd.link
  dsimp only
  cases (t.transtableAdd hwAddrs currTime mac mymac).1.find mac with
  | none => exact hadd
  | some elem => exact hadd.setAge elem.ptr currTime

theorem hnaAdd (h : t.MapsOnly P) {mac mymac : Mac} (hP : P mac mymac) :
    (t.hnaAdd hwAddrs currTime mac mymac).MapsOnly P := by
  unfold TransTable.hnaAdd
  cases t.find mac with
  | none => exact h.hnaAdd_link hwAddrs currTime hP
  | some elem =>
    dsimp only
    by_cases hmy : isMyMac hwAddrs elem.batmanMac = true
    · rw [if_pos hmy]
      exact h.setAge elem.ptr currTime
    · rw [if_neg hmy]
      exact (h.hnaDel elem).hnaAdd_link hwAddrs currTime hP

theorem foldl (h : t.MapsOnly P) {α : Type*} {f : TransTable → α → TransTable}
    (hf : ∀ t a, t.MapsOnly P → (f t a).MapsOnly P) (l : List α) : (l.foldl f t).MapsOnly P := by
  induction l generalizing t with
  | nil => exact h
  | cons a l ih => exact ih (hf t a h)

theorem hnaUpdate (h : t.MapsOnly P) {tapMtu : ℤ} (primary : Mac) :
    (t.hnaUpdate currTime p tapMtu primary).1.MapsOnly P := by
  have hfold : ((t.hnaLists .own).foldl (hnaUpdateStep currTime primary) t).MapsOnly P := by
    refine h.foldl (fun t ptr ht => ?_) _
    unfold hnaUpdateStep
    cases t.elems.find? (·.ptr = ptr) with
    | none => exact ht
    | some elem =>
      dsimp only
      split_ifs
      · exact ht.hnaDel elem
      · exact ht
  unfold TransTable.hnaUpdate
  dsimp only
  by_cases hchanged : ((t.hnaLists .own).foldl (hnaUpdateStep currTime primary) t).hnaChanged = true
  · rw [if_pos hchanged]
    exact hfold
  · rw [if_neg hchanged]
    exact hfold

theorem hnaRemoveList (h : t.MapsOnly P) (head : HnaHead) : (t.hnaRemoveList head).MapsOnly P := by
  rw [hnaRemoveList_eq]
  refine h.foldl (fun t ptr ht => ?_) _
  cases hf : t.elems.find? (·.ptr = ptr) with
  | none =>
    rw [hnaRemoveStep_of_none hf]
    exact ht
  | some elem =>
    rw [hnaRemoveStep_of_some hf]
    exact ht.hnaDel elem

theorem hnaAddHost (h : t.MapsOnly P) {orig host : Mac} (hP : P host orig) (ptr : ℕ) :
    (t.hnaAddHost hwAddrs currTime ptr orig host).MapsOnly P := by
  have hadd := h.transtableAdd hwAddrs currTime hP
  unfold TransTable.hnaAddHost
  dsimp only
  split_ifs
  · cases (t.transtableAdd hwAddrs currTime host orig).1.find host with
    | none => exact hadd
    | some elem => exact hadd
  · exact hadd

theorem hnaAddBuff (h : t.MapsOnly P) {o : OrigNode p}
    (hP : ∀ host ∈ hosts (o.hnaBuff.getD []) o.hnaBuffLen, P host o.orig) :
    (t.hnaAddBuff hwAddrs currTime o).MapsOnly P := by
  unfold TransTable.hnaAddBuff
  generalize hosts (o.hnaBuff.getD []) o.hnaBuffLen = l at hP
  induction l generalizing t with
  | nil => exact h
  | cons host l ih =>
    refine ih (h.hnaAddHost hwAddrs currTime (hP host List.mem_cons_self) o.ptr) ?_
    exact fun host' hhost' => hP host' (List.mem_cons_of_mem _ hhost')

/-- `update_routes` adds hosts of the buffer it is given, for its originator. -/
theorem updateHna (h : t.MapsOnly P) {o : OrigNode p} {recv : Option (List Byte)} {len : ℕ}
    (hP : ∀ buff ∈ recv, ∀ host ∈ hosts (buff.take len) len, P host o.orig) :
    (BatmanAdv.updateHna hwAddrs currTime t o recv len).1.MapsOnly P := by
  unfold BatmanAdv.updateHna
  split
  · exact h
  · next recv _ => exact h.hnaAddBuff hwAddrs currTime (hP recv rfl)
  · exact h.hnaRemoveList _
  · next recv buff _ =>
    have hdel : (t.hnaDelBuff o).1.MapsOnly P := h.hnaRemoveList _
    dsimp only
    by_cases hchanged : (if len ≠ o.hnaBuffLen then true
        else if recv.take len = buff.take len then true else false) = true
    · rw [if_pos hchanged]
      exact hdel.hnaAddBuff hwAddrs currTime (hP recv rfl)
    · rw [if_neg hchanged]
      exact h

end MapsOnly

theorem hosts_subset {buff bytes : List Byte} {len : ℕ} (hpiece : buff <+: bytes) (hlen : len ≤ buff.length) :
    hosts buff len ⊆ hosts bytes bytes.length := by
  intro host hhost
  unfold hosts at hhost ⊢
  obtain ⟨i, hi, rfl⟩ := List.mem_map.mp hhost
  have hi' : i < len / 6 := List.mem_range.mp hi
  have hle : buff.length ≤ bytes.length := hpiece.length_le
  refine List.mem_map.mpr ⟨i, List.mem_range.mpr (by omega), ?_⟩
  have hget : ∀ j < len, bytes.getD j 0 = buff.getD j 0 := by
    intro j hj
    obtain ⟨rest, rfl⟩ := hpiece
    rw [List.getD_append _ _ _ _ (by omega)]
  unfold Mac.read
  rw [hget _ (by omega), hget _ (by omega), hget _ (by omega), hget _ (by omega), hget _ (by omega),
    hget _ (by omega)]

end TransTable

/-! ## What a daemon is told -/

/-- What is true of the network: the addresses there are, those within reach, and by originator the gateway
classes and the HNA bytes that were announced; `host` is about the hosts of this node. -/
structure Evidence where
  addr : Mac → Prop
  near : Mac → Prop
  gwflags : Mac → Byte → Prop
  hna : Mac → List Byte → Prop
  host : Mac → Prop

variable {E : Evidence}

/-- A host of this node, or one that a node with this address has announced. -/
def Evidence.Maps (E : Evidence) (hwAddrs : List Mac) (mac batmanMac : Mac) : Prop :=
  (batmanMac ∈ hwAddrs → E.host mac) ∧
    (batmanMac ∉ hwAddrs → ∃ bytes, E.hna batmanMac bytes ∧ mac ∈ TransTable.hosts bytes bytes.length)

/-- An OGM that tells the truth. -/
structure Evidence.Tells (E : Evidence) (rx : Ogm) : Prop where
  neigh : E.addr rx.neigh
  near : E.near rx.neigh
  orig : E.addr rx.pkt.orig
  gwflags : E.gwflags rx.pkt.orig rx.pkt.gwflags
  hna : E.hna rx.pkt.orig (hnaBytesOf rx.hna rx.pkt)

/-- A buffer with `len` bytes of an announcement of `orig`. -/
def Evidence.Announced (E : Evidence) (orig : Mac) (buff : List Byte) (len : ℕ) : Prop :=
  len ≤ buff.length ∧ ∃ bytes, E.hna orig bytes ∧ buff.take len <+: bytes

/-- What an entry says is true. -/
structure OrigNode.Vouched (E : Evidence) (o : OrigNode p) : Prop where
  orig : E.addr o.orig
  neigh : ∀ n ∈ o.neighList, E.near n.addr
  gwflags : o.gwflags = 0 ∨ E.gwflags o.orig o.gwflags
  hna : ∀ buff ∈ o.hnaBuff, E.Announced o.orig buff o.hnaBuffLen

/-- What the tables say is true. -/
structure State.Vouched (E : Evidence) (s : State p) : Prop where
  entry : ∀ o ∈ s.origs, o.Vouched E
  host : s.trans.MapsOnly (E.Maps s.hwAddrs)

/-! ## Writes to entries -/

theorem OrigNode.Vouched.new {ptr : ℕ} {addr : Mac} (h : E.addr addr) :
    (OrigNode.new ptr addr : OrigNode p).Vouched E :=
  ⟨h, fun _ hn => absurd hn List.not_mem_nil, .inl rfl, fun _ hbuff => (Option.not_mem_none _ hbuff).elim⟩

theorem OrigNode.Vouched.congr {o o' : OrigNode p} (h : o.Vouched E) (horig : o'.orig = o.orig)
    (hneigh : ∀ n' ∈ o'.neighList, E.near n'.addr) (hgw : o'.gwflags = o.gwflags)
    (hbuff : o'.hnaBuff = o.hnaBuff) (hlen : o'.hnaBuffLen = o.hnaBuffLen) : o'.Vouched E := by
  refine ⟨horig ▸ h.orig, hneigh, ?_, ?_⟩
  · rw [hgw, horig]
    exact h.gwflags
  · rw [hbuff, hlen, horig]
    exact h.hna

theorem OrigNode.Vouched.mapNeigh {o o' : OrigNode p} (h : o.Vouched E) {f : NeighNode p → NeighNode p}
    (horig : o'.orig = o.orig) (hlist : o'.neighList = o.neighList.map f) (hf : ∀ n, (f n).addr = n.addr)
    (hgw : o'.gwflags = o.gwflags) (hbuff : o'.hnaBuff = o.hnaBuff) (hlen : o'.hnaBuffLen = o.hnaBuffLen) :
    o'.Vouched E := by
  refine h.congr horig (fun n' hn' => ?_) hgw hbuff hlen
  rw [hlist] at hn'
  obtain ⟨n, hn, rfl⟩ := List.mem_map.mp hn'
  rw [hf]
  exact h.neigh n hn

theorem updateHna_announced (hwAddrs : List Mac) (currTime : Time) (t : TransTable) {o : OrigNode p}
    {recv : Option (List Byte)} {len : ℕ} (ho : ∀ buff ∈ o.hnaBuff, E.Announced o.orig buff o.hnaBuffLen)
    (hrecv : ∀ buff ∈ recv, E.Announced o.orig buff len) :
    ∀ buff ∈ (updateHna hwAddrs currTime t o recv len).2.hnaBuff,
      E.Announced o.orig buff (updateHna hwAddrs currTime t o recv len).2.hnaBuffLen := by
  have hstore : ∀ recv', recv = some recv' → E.Announced o.orig (recv'.take len) len := by
    intro recv' hrecv'
    obtain ⟨hle, bytes, hna, hpiece⟩ := hrecv recv' hrecv'
    refine ⟨by rw [List.length_take, min_eq_left hle], bytes, hna, ?_⟩
    rwa [List.take_take, min_self]
  intro buff hbuff
  unfold updateHna at hbuff ⊢
  split at hbuff
  · exact ho buff hbuff
  · next recv' _ =>
    obtain rfl := Option.some.inj hbuff
    exact hstore recv' rfl
  · obtain ⟨-, bytes, hna, -⟩ := ho buff hbuff
    exact ⟨Nat.zero_le _, bytes, hna, List.nil_prefix⟩
  · next recv' buff' _ =>
    dsimp only at hbuff ⊢
    by_cases hchanged : (if len ≠ o.hnaBuffLen then true
        else if recv'.take len = buff'.take len then true else false) = true
    · rw [if_pos hchanged] at hbuff ⊢
      obtain rfl := Option.some.inj hbuff
      exact hstore recv' rfl
    · rw [if_neg hchanged] at hbuff ⊢
      exact ho buff hbuff

namespace State.Vouched

theorem congr (h : s.Vouched E) (horigs : s'.origs = s.origs) (htrans : s'.trans = s.trans)
    (haddrs : s'.hwAddrs = s.hwAddrs) : s'.Vouched E :=
  ⟨horigs ▸ h.entry, by rw [htrans, haddrs]; exact h.host⟩

theorem modOrig (h : s.Vouched E) {ptr : ℕ} {f : OrigNode p → OrigNode p}
    (hf : ∀ o ∈ s.origs, o.ptr = ptr → o.Vouched E → (f o).Vouched E) : (s.modOrig ptr f).Vouched E :=
  ⟨State.forall_modOrig h.entry hf, h.host⟩

theorem getOrigNode (h : s.Vouched E) {addr : Mac} (haddr : E.addr addr) :
    (s.getOrigNode addr).1.Vouched E := by
  have hmem : ∀ o ∈ (s.getOrigNode addr).1.origs, o ∈ s.origs ∨ o = OrigNode.new s.nextPtr addr := by
    intro o ho
    unfold State.getOrigNode at ho
    split at ho
    · exact .inl ho
    · unfold State.origs State.addOrigNode at ho
      dsimp only at ho
      have hadd : o ∈ (hashAdd macCallbacks OrigNode.orig s.origHash (OrigNode.new s.nextPtr addr)).1.buckets := by
        split_ifs at ho
        · exact mem_hashResize ho
        · exact ho
      exact (mem_hashAdd hadd).symm
  have hframe := s.getOrigNode_frame addr
  refine ⟨fun o ho => ?_, ?_⟩
  · rcases hmem o ho with ho | rfl
    · exact h.entry o ho
    · exact .new haddr
  · rw [hframe]
    exact h.host

theorem createNeighbor (h : s.Vouched E) {neigh : Mac} (hneigh : E.near neigh) (origNode origNeighNode ifIncoming : ℕ) :
    (s.createNeighbor origNode origNeighNode neigh ifIncoming).1.Vouched E := by
  have hmod : (s.modOrig origNode fun o => { o with neighList := o.neighList ++
      [NeighNode.new s.nextPtr neigh origNeighNode ifIncoming] }).Vouched E := by
    refine h.modOrig fun o _ _ ho => ho.congr rfl (fun n hn => ?_) rfl rfl rfl
    rcases List.mem_append.mp hn with hn | hn
    · exact ho.neigh n hn
    · rw [List.mem_singleton.mp hn]
      exact hneigh
  exact ⟨hmod.entry, hmod.host⟩

/-! ## Counting and rating -/

theorem countRealPackets (h : s.Vouched E) (htells : E.Tells rx) :
    (s.countRealPackets g rx.neigh rx.pkt rx.ifIncoming).1.Vouched E := by
  unfold State.countRealPackets
  dsimp only
  refine (h.getOrigNode htells.orig).modOrig fun o _ _ ho => ?_
  exact ho.mapNeigh rfl rfl (fun n => rfl) rfl rfl rfl

theorem countOgm (h : s.Vouched E) (htells : E.Tells rx) : (s.countOgm g rx).state.Vouched E := by
  have horig := (h.countRealPackets (g := g) htells).getOrigNode htells.orig
  unfold State.countOgm
  dsimp only
  split_ifs
  · exact horig
  · exact horig.getOrigNode htells.neigh

theorem counted (h : s.Vouched E) (htells : E.Tells rx) : (s.counted g rx).state.Vouched E := by
  have hclock : ({ s with currTime := rx.rcvdTime } : State p).Vouched E := ⟨h.entry, h.host⟩
  exact hclock.countOgm htells

theorem rate {c : Counted p} (h : c.state.Vouched E) (hs : c.state.Wf) (htells : E.Tells rx)
    (hat : c.state.At c.origNeighNode rx.neigh) : (c.rate rx).state.Vouched E := by
  have hself : (c.state.selfNeighbor c.origNeighNode rx.ifIncoming).1.Vouched E := by
    unfold State.selfNeighbor
    dsimp only
    rw [(hs.origAt_mem hat).2.2]
    split
    · exact h
    · exact h.createNeighbor htells.near _ _ _
  unfold Counted.rate State.isBidirectionalNeigh
  generalize c.state.selfNeighbor c.origNeighNode rx.ifIncoming = self at hself
  obtain ⟨s1, n⟩ := self
  dsimp only at hself ⊢
  have htouch : (if c.origNode = c.origNeighNode then
      s1.modOrig c.origNode (·.modNeigh n.ptr (·.touch rx.rcvdTime)) else s1).Vouched E := by
    split_ifs
    · refine hself.modOrig fun o _ _ ho => ho.mapNeigh rfl rfl (fun n => ?_) rfl rfl rfl
      split_ifs
      · rfl
      · rfl
    · exact hself
  refine (htouch.modOrig fun o _ _ ho => ?_).modOrig fun o _ _ ho => ?_
  · exact ho.congr rfl ho.neigh rfl rfl rfl
  · exact ho.congr rfl ho.neigh rfl rfl rfl

/-! ## Ranking -/

theorem rankNeighbors (h : s.Vouched E) (htells : E.Tells rx) (origNode : ℕ) (pkt : BatmanPacket) (dup : Bool) :
    (s.rankNeighbors g origNode rx.neigh pkt rx.ifIncoming dup rx.rcvdTime).1.Vouched E := by
  have hzero : (s.modOrig origNode (·.pushZero rx.neigh rx.ifIncoming dup)).Vouched E := by
    refine h.modOrig fun o _ _ ho => ho.mapNeigh rfl (o.neighList_pushZero _ _ _) (fun n => ?_) rfl rfl rfl
    split_ifs
    · rfl
    · rfl
  have hvia : ((s.modOrig origNode (·.pushZero rx.neigh rx.ifIncoming dup)).viaNeighbor origNode rx.neigh
      rx.ifIncoming).1.Vouched E := by
    unfold State.viaNeighbor
    split
    · exact hzero
    · exact (hzero.getOrigNode htells.neigh).createNeighbor htells.near _ _ _
  unfold State.rankNeighbors
  dsimp only
  refine hvia.modOrig fun o _ _ ho => ho.mapNeigh rfl (o.neighList_receive _ _ _ _) (fun n => ?_) rfl rfl rfl
  split_ifs
  · exact (n.sameLink_receive pkt dup rx.rcvdTime).addr
  · rfl

theorem updateRoutes (hs : s.Wf) (h : s.Vouched E) {o : OrigNode p} (ho : o ∈ s.origs)
    (best : Option (NeighNode p)) {recv : Option (List Byte)} {len : ℕ}
    (hrecv : ∀ buff ∈ recv, E.Announced o.orig buff len) : (s.updateRoutes o.ptr best recv len).Vouched E := by
  obtain ⟨-, horig, hbuff, hlen⟩ := o.setRouter_hna best
  have hold := (h.entry o ho).hna
  rw [← hbuff, ← hlen, ← horig] at hold
  rw [← horig] at hrecv
  have hstored := updateHna_announced s.hwAddrs s.currTime s.trans hold hrecv
  have hmaps : (updateHna s.hwAddrs s.currTime s.trans (o.setRouter best) recv len).1.MapsOnly
      (E.Maps s.hwAddrs) := by
    refine h.host.updateHna s.hwAddrs s.currTime fun buff hbuff host hhost => ?_
    obtain ⟨hle, bytes, hna, hpiece⟩ := hrecv buff hbuff
    refine ⟨fun hown => absurd (horig ▸ hown) (hs.foreign o ho), fun _ => ⟨bytes, hna, ?_⟩⟩
    refine TransTable.hosts_subset hpiece ?_ hhost
    rw [List.length_take, min_eq_left hle]
  unfold State.updateRoutes BatmanAdv.updateRoutes
  rw [hs.origAt_of_mem ho]
  generalize updateHna s.hwAddrs s.currTime s.trans (o.setRouter best) recv len = routed at hstored hmaps
  obtain ⟨trans, o'⟩ := routed
  dsimp only at hstored hmaps ⊢
  refine ⟨State.forall_modOrig h.entry fun x hx hptr hvouched => ?_, hmaps⟩
  obtain rfl := hs.eq_of_ptr hx ho hptr
  refine ⟨hvouched.orig, hvouched.neigh, hvouched.gwflags, fun buff hbuff => ?_⟩
  exact horig ▸ hstored buff hbuff

theorem setGwflags (h : s.Vouched E) {origNode : ℕ} {gwflags : Byte} (gwTime : Time)
    (hgw : ∀ o ∈ s.origs, o.ptr = origNode → E.gwflags o.orig gwflags) :
    (s.setGwflags origNode gwflags gwTime).Vouched E := by
  have hset : ∀ t : State p, t.origs = s.origs → t.trans = s.trans → t.hwAddrs = s.hwAddrs →
      (t.modOrig origNode fun o => { o with gwflags := gwflags }).Vouched E := by
    intro t horigs htrans haddrs
    refine (h.congr horigs htrans haddrs).modOrig fun o ho hptr hvouched => ?_
    exact ⟨hvouched.orig, hvouched.neigh, .inr (hgw o (horigs ▸ ho) hptr), hvouched.hna⟩
  unfold State.setGwflags
  dsimp only
  split_ifs
  · exact hset _ rfl rfl rfl
  · exact hset _ rfl rfl rfl

theorem updateOrig (hs : s.Wf) (h : s.Vouched E) (htells : E.Tells rx) {origNode : ℕ}
    (hat : s.At origNode rx.pkt.orig) (hneigh : rx.neigh ∉ s.hwAddrs) {pkt : BatmanPacket}
    (hpkt : pkt = { rx.pkt with tq := pkt.tq }) (htq : pkt.tq.toNat ≤ rx.pkt.tq.toNat) (dup : Bool) :
    (s.updateOrig g origNode rx.neigh pkt rx.ifIncoming rx.hna dup rx.rcvdTime rx.gwTime).Vouched E := by
  have httl : pkt.ttl = rx.pkt.ttl := by rw [hpkt]
  have hgw : pkt.gwflags = rx.pkt.gwflags := by rw [hpkt]
  have hlen : tmpHnaBuffLen rx.hna.length pkt.numHna ≤ rx.hna.length := by
    rw [tmpHnaBuffLen_eq]
    exact min_le_left _ _
  obtain ⟨hwrites, hbest⟩ := State.rankNeighbors_moves (g := g) hs hat hneigh htq httl dup
  have hrank := h.rankNeighbors (g := g) htells origNode pkt dup
  unfold State.updateOrig
  generalize s.rankNeighbors g origNode rx.neigh pkt rx.ifIncoming dup rx.rcvdTime = ranked at hwrites hbest hrank
  obtain ⟨s1, rank⟩ := ranked
  dsimp only at hwrites hbest hrank ⊢
  have hs1 := hwrites.wf hs
  have hat1 := hwrites.at hs hat
  obtain ⟨hmem, hptr, horig⟩ := hs1.origAt_mem hat1
  generalize s1.origAt origNode = o at hmem hptr horig
  subst hptr
  have hroute : Write rx s1 _ := .route s1 o.ptr hat1 rank.best hbest rx.hna
    (tmpHnaBuffLen rx.hna.length pkt.numHna)
  have hs2 := hroute.wf hs1
  have hat2 := hroute.at hs1 hat1
  have hrouted : (s1.updateRoutes o.ptr rank.best (some rx.hna)
      (tmpHnaBuffLen rx.hna.length pkt.numHna)).Vouched E := by
    refine hrank.updateRoutes hs1 hmem rank.best fun buff hbuff => ?_
    obtain rfl := Option.some.inj hbuff
    rw [horig]
    exact ⟨hlen, hnaBytesOf rx.hna rx.pkt, htells.hna, hpkt ▸ List.prefix_refl _⟩
  refine hrouted.setGwflags rx.gwTime fun x hx hxptr => ?_
  obtain ⟨y, hy, hyptr, hyorig⟩ := hat2
  rw [hs2.eq_of_ptr hx hy (hxptr.trans hyptr.symm), hyorig, hgw]
  exact htells.gwflags

theorem ranked {c : Counted p} (hs : c.state.Wf) (h : c.state.Vouched E) (htells : E.Tells rx)
    (hat : c.state.At c.origNode rx.pkt.orig) (hat' : c.state.At c.origNeighNode rx.neigh)
    (hneigh : rx.neigh ∉ c.state.hwAddrs) : (c.ranked g rx).Vouched E := by
  obtain ⟨hwrites, hpkt, htq, -⟩ := Counted.rate_moves hs hat'
  have hrate := h.rate hs htells hat'
  unfold Counted.ranked
  dsimp only
  split_ifs
  · have hother : rx.neigh ∉ (c.rate rx).state.hwAddrs := by
      rw [Moves.hwAddrs (g := g) hwrites.moves]
      exact hneigh
    exact hrate.updateOrig (hwrites.wf hs) htells (hwrites.at hs hat) hother hpkt htq c.isDuplicate
  · exact hrate

/-! ## `batman()` -/

theorem finish {c : Counted p} (h : c.state.Vouched E) (hranked : (c.ranked g rx).Vouched E) :
    (c.finish g rx).Vouched E := by
  rcases c.finish_cases g rx with heq | heq | ⟨flag, heq⟩
  · rw [heq]
    exact h
  · rw [heq]
    exact hranked
  · rw [heq]
    unfold Counted.forward
    rw [State.scheduleForwardPacket_eq]
    split_ifs
    · exact hranked
    · exact ⟨hranked.entry, hranked.host⟩

theorem markOwnBcast (h : s.Vouched E) (htells : E.Tells rx) : (s.markOwnBcast rx).Vouched E := by
  have hget := h.getOrigNode htells.neigh
  unfold State.markOwnBcast
  generalize s.getOrigNode rx.neigh = got at hget
  obtain ⟨s1, origNeighNode⟩ := got
  dsimp only at hget ⊢
  split_ifs
  · exact hget.modOrig fun o _ _ ho => ho.congr rfl ho.neigh rfl rfl rfl
  · exact hget

/-- **An OGM that tells the truth** leaves true tables. -/
theorem batmanOgm (hs : s.Wf) (h : s.Vouched E) (htells : E.Tells rx) : (s.batmanOgm g rx).1.Vouched E := by
  have hclock : ({ s with currTime := rx.rcvdTime } : State p).Vouched E := ⟨h.entry, h.host⟩
  cases hcase : s.ogmCase rx with
  | ignored =>
    rw [State.batmanOgm_of_ignored hcase]
    exact hclock
  | ownOrig =>
    rw [State.batmanOgm_of_ownOrig hcase]
    exact hclock.markOwnBcast htells
  | noTq =>
    rw [State.batmanOgm_of_noTq hcase]
    exact hclock.countRealPackets htells
  | process =>
    rw [State.batmanOgm_of_process hcase]
    obtain ⟨hmoves, hat, hat', hneigh⟩ := State.counted_moves (g := g) hs hcase
    have hcounted := h.counted (g := g) htells
    exact hcounted.finish (hcounted.ranked (hmoves.wf hs) htells hat hat' hneigh)

/-! ## Purging -/

variable {currTime gwTime : Time}

theorem purgeExpired (hs : s.Wf) (h : s.Vouched E) {o : OrigNode p} (ho : o ∈ s.origs) :
    (s.purgeExpired o.ptr gwTime).Vouched E := by
  obtain ⟨-, hmem⟩ := State.origs_purgeExpired gwTime hs ho
  refine ⟨fun x hx => h.entry x ((hmem x).mp hx).1, ?_⟩
  unfold State.purgeExpired BatmanAdv.updateRoutes
  exact h.host.updateHna s.hwAddrs s.currTime fun buff hbuff => (Option.not_mem_none buff hbuff).elim

theorem purgeNeighbors (hs : s.Wf) (h : s.Vouched E) {o : OrigNode p} (ho : o ∈ s.origs) :
    (s.purgeNeighbors g currTime o.ptr).Vouched E := by
  obtain ⟨t, ht, hwf, hmem, heq⟩ := State.purgeNeighbors_eq hs ho g currTime
  have hkept : t.Vouched E := by
    rw [ht]
    refine h.modOrig fun x _ _ hx => hx.congr rfl (fun n hn => ?_) rfl rfl rfl
    exact hx.neigh n (List.mem_filter.mp hn).1
  rw [heq]
  split_ifs
  · exact hkept.updateRoutes hwf hmem _ (h.entry o ho).hna
  · exact hkept

theorem purgeOrig (hs : s.Wf) (h : s.Vouched E) : (s.purgeOrig g currTime gwTime).Vouched E := by
  refine State.purgeOrig_induct g currTime gwTime hs h (fun t o ht ho hI => ?_) fun t gwList hI => ?_
  · unfold State.purgeOrigNode
    split_ifs
    · exact hI.purgeExpired ht ho
    · exact hI.purgeNeighbors ht ho
  · exact ⟨hI.entry, hI.host⟩

/-! ## The other steps -/

theorem entry_of_quiet (h : s.Vouched E) (hquiet : s.Quiet s') : ∀ o' ∈ s'.origs, o'.Vouched E := by
  intro o' ho'
  obtain ⟨o, ho, hsame⟩ := hquiet.mem ho'
  rw [hsame]
  exact (h.entry o ho).congr rfl (h.entry o ho).neigh rfl rfl rfl

theorem of_quiet (h : s.Vouched E) (hquiet : s.Quiet s') (htrans : s'.trans = s.trans)
    (haddrs : s'.hwAddrs = s.hwAddrs) : s'.Vouched E :=
  ⟨h.entry_of_quiet hquiet, by rw [htrans, haddrs]; exact h.host⟩

end State.Vouched

/-- The event tells the truth: an OGM about other nodes, a frame of the tap about a host of this one. -/
def Evidence.TellsAt (E : Evidence) : Event p → Prop
  | .ogm _ rx => E.Tells rx
  | .tap shost _ => E.host shost
  | _ => True

theorem step_vouched {e : Event p} (hs : s.Wf) (hok : s.HnaOk) (h : s.Vouched E) (htells : E.TellsAt e)
    (hstep : step s e = some s') : s'.Vouched E := by
  have haddrs := step_hwAddrs hs hstep
  rcases step_cases hs hstep with ⟨g, rx, rfl, -, rfl, -⟩ | ⟨g, currTime, gwTime, rfl, rfl⟩ |
    ⟨hogm, hpurge, hquiet⟩
  · exact h.batmanOgm hs htells
  · exact h.purgeOrig hs
  cases stepped hstep with
  | ogm g rx => exact absurd rfl (hogm g rx)
  | purge g currTime gwTime => exact absurd rfl (hpurge g currTime gwTime)
  | bcast g frame =>
    refine h.of_quiet hquiet ?_ haddrs
    rcases s.receiveBcast_cases g frame with heq | ⟨o, _, _, heq⟩
    · rw [heq]
    · rw [heq]
      rfl
  | tap shost dhost =>
    obtain ⟨-, -, -, -, -, htrans, -⟩ := s.receiveTap_frame shost dhost
    have hown : s.primary ∈ s.hwAddrs := State.primary_mem hok.addrs_ne
    refine ⟨h.entry_of_quiet hquiet, ?_⟩
    rw [htrans, haddrs]
    exact h.host.hnaAdd s.hwAddrs s.currTime ⟨fun _ => htells, fun hother => absurd hown hother⟩
  | clock now => exact h.of_quiet hquiet rfl haddrs
  | hnaUpdate =>
    obtain ⟨-, -, -, -, htrans, -⟩ := s.hnaUpdate_frame
    refine ⟨h.entry_of_quiet hquiet, ?_⟩
    rw [htrans, haddrs]
    exact h.host.hnaUpdate s.currTime s.primary
  | sendBegin now => exact h.of_quiet hquiet rfl haddrs
  | sendNext now rnd _ _ hnext =>
    refine h.of_quiet hquiet ?_ haddrs
    rcases State.sendNext_cases hnext with rfl | ⟨t, pos, f, _, _, _, rfl⟩
    · rfl
    · dsimp only
      split_ifs <;> rfl

/-! ## The hosts that are announced -/

/-- The addresses of hosts, one behind the other. -/
def HostBytes (host : Mac → Prop) (bytes : List Byte) : Prop :=
  ∃ macs : List Mac, bytes = macs.flatMap Mac.bytes ∧ ∀ mac ∈ macs, host mac

theorem HostBytes.take {host : Mac → Prop} {bytes : List Byte} (h : HostBytes host bytes) (n : ℕ) :
    HostBytes host (bytes.take (n * 6)) := by
  obtain ⟨macs, rfl, hmacs⟩ := h
  exact ⟨macs.take n, by rw [take_flatMap_bytes], fun mac hmac => hmacs mac (List.mem_of_mem_take hmac)⟩

theorem State.Vouched.ownHosts (h : s.Vouched E) (hok : s.HnaOk) : ∀ mac ∈ s.trans.ownHosts, E.host mac := by
  intro mac hmac
  obtain ⟨ptr, hptr, hsome⟩ := List.mem_filterMap.mp hmac
  obtain ⟨e, he, rfl, hhome⟩ := (hok.linked.mem_iff .own ptr).mp hptr
  rw [TransTable.macOf_of_mem hok.linked.distinct he] at hsome
  obtain rfl := Option.some.inj hsome
  exact (h.host e he).1 (isMyMac_eq_true.mp (State.home_own_iff.mp hhome))

theorem TransTable.hnaUpdate_buff (t : TransTable) (currTime : Time) (tapMtu : ℤ) (primary : Mac) :
    (t.hnaUpdate currTime p tapMtu primary).1.hnaBuff =
        (t.hnaUpdate currTime p tapMtu primary).1.ownHosts.flatMap Mac.bytes ∨
      (t.hnaUpdate currTime p tapMtu primary).1.hnaBuff = t.hnaBuff := by
  have hfold : ∀ (l : List ℕ) (t : TransTable),
      (l.foldl (hnaUpdateStep currTime primary) t).hnaBuff = t.hnaBuff := by
    intro l
    induction l with
    | nil => exact fun t => rfl
    | cons ptr l ih => exact fun t => (ih _).trans (hnaUpdateStep_flagged currTime t primary ptr).buff
  have hsame := hfold (t.hnaLists .own) t
  unfold TransTable.hnaUpdate
  generalize (t.hnaLists .own).foldl (hnaUpdateStep currTime primary) t = t1 at hsame
  dsimp only
  by_cases hset : t1.hnaChanged = true
  · rw [if_pos hset]
    exact .inl rfl
  · rw [if_neg hset]
    exact .inr hsame

theorem step_hosts {e : Event p} (hs : s.Wf) (hok : s.HnaOk) (h : s.Vouched E)
    (hhosts : HostBytes E.host s.trans.hnaBuff)
    (htells : E.TellsAt e) (hstep : step s e = some s') : HostBytes E.host s'.trans.hnaBuff := by
  by_cases he : e = .hnaUpdate
  · subst he
    have hvouched := step_vouched hs hok h htells hstep
    have hown := hvouched.ownHosts (step_hnaOk hs hok hstep)
    cases stepped hstep with
    | hnaUpdate =>
      obtain ⟨-, -, -, -, htrans, -⟩ := s.hnaUpdate_frame
      rw [htrans] at hown ⊢
      rcases s.trans.hnaUpdate_buff (p := p) s.currTime s.tapMtu s.primary with heq | heq
      · exact ⟨_, heq, hown⟩
      · rw [heq]
        exact hhosts
  · rw [(step_keepsHosts hs hok hstep he).flagged.buff]
    exact hhosts

/-! ## More evidence -/

/-- What is true in `E` is true in `E'`. -/
structure Evidence.Le (E E' : Evidence) : Prop where
  addr {a : Mac} (h : E.addr a) : E'.addr a
  near {a : Mac} (h : E.near a) : E'.near a
  gwflags {a : Mac} {gwflags : Byte} (h : E.gwflags a gwflags) : E'.gwflags a gwflags
  hna {a : Mac} {bytes : List Byte} (h : E.hna a bytes) : E'.hna a bytes
  host {mac : Mac} (h : E.host mac) : E'.host mac

variable {E' : Evidence}

theorem OrigNode.Vouched.mono {o : OrigNode p} (h : o.Vouched E) (hle : E.Le E') : o.Vouched E' := by
  refine ⟨hle.addr h.orig, fun n hn => hle.near (h.neigh n hn), h.gwflags.imp_right hle.gwflags, fun buff hbuff => ?_⟩
  obtain ⟨hlen, bytes, hna, hpiece⟩ := h.hna buff hbuff
  exact ⟨hlen, bytes, hle.hna hna, hpiece⟩

theorem State.Vouched.mono (h : s.Vouched E) (hle : E.Le E') : s.Vouched E' := by
  refine ⟨fun o ho => (h.entry o ho).mono hle, h.host.mono fun mac batmanMac hmaps => ?_⟩
  refine ⟨fun hown => hle.host (hmaps.1 hown), fun hother => ?_⟩
  obtain ⟨bytes, hna, hmem⟩ := hmaps.2 hother
  exact ⟨bytes, hle.hna hna, hmem⟩

theorem HostBytes.mono {host host' : Mac → Prop} {bytes : List Byte} (h : HostBytes host bytes)
    (hle : ∀ mac, host mac → host' mac) : HostBytes host' bytes := by
  obtain ⟨macs, heq, hmacs⟩ := h
  exact ⟨macs, heq, fun mac hmac => hle mac (hmacs mac hmac)⟩

/-! ## Runs -/

theorem Config.boot_vouched (cfg : Config) (h : E.host cfg.primary) :
    (cfg.boot p).Vouched E ∧ HostBytes E.host (cfg.boot p).trans.hnaBuff := by
  have hprimary : cfg.primary ∈ (cfg.boot p).hwAddrs := by
    rw [(cfg.origs_boot p).2]
    exact List.mem_cons_self
  have hempty : TransTable.MapsOnly (E.Maps (cfg.boot p).hwAddrs)
      { transHash := hashNew 4096, hnaLists := fun _ => [], hnaChanged := false, numHna := 0,
        hnaBuff := [], nextElem := 0 } := by
    intro e he
    unfold TransTable.elems at he
    rw [buckets_hashNew] at he
    exact absurd he List.not_mem_nil
  refine ⟨⟨cfg.forall_origs_boot, ?_⟩, [], ?_, fun mac hmac => absurd hmac List.not_mem_nil⟩
  · exact hempty.hnaAdd cfg.hwAddrs 0 ⟨fun _ => h, fun hother => absurd hprimary hother⟩
  · have hprimary' : ∀ batmanMac, (cfg.boot p).home batmanMac = some .own ↔
        isMyMac cfg.hwAddrs batmanMac = true := by
      intro batmanMac
      rw [State.home_own_iff, (cfg.origs_boot p).2]
    exact ((TransTable.linked_empty (cfg.boot p).home).hnaAdd_flagged 0 hprimary' cfg.primary cfg.primary).buff

def HeardOgm (tr : List (State p × Event p)) (rx : Ogm) : Prop := ∃ s g, (s, Event.ogm g rx) ∈ tr

/-- The host has sent a frame to the tap, or is the node itself. -/
def HeardHost (cfg : Config) (tr : List (State p × Event p)) (mac : Mac) : Prop :=
  mac = cfg.primary ∨ ∃ s dhost, (s, Event.tap mac dhost) ∈ tr

/-- What a run has told the daemon. -/
def heardIn (cfg : Config) (tr : List (State p × Event p)) : Evidence where
  addr a := ∃ rx, HeardOgm tr rx ∧ (a = rx.neigh ∨ a = rx.pkt.orig)
  near a := ∃ rx, HeardOgm tr rx ∧ a = rx.neigh
  gwflags a gwflags := ∃ rx, HeardOgm tr rx ∧ rx.pkt.orig = a ∧ rx.pkt.gwflags = gwflags
  hna a bytes := ∃ rx, HeardOgm tr rx ∧ rx.pkt.orig = a ∧ hnaBytesOf rx.hna rx.pkt = bytes
  host mac := HeardHost cfg tr mac

theorem HeardOgm.append {tr : List (State p × Event p)} (h : HeardOgm tr rx) (tr' : List (State p × Event p)) :
    HeardOgm (tr ++ tr') rx := by
  obtain ⟨s, g, hmem⟩ := h
  exact ⟨s, g, List.mem_append_left _ hmem⟩

theorem heardIn_le (cfg : Config) (tr tr' : List (State p × Event p)) :
    (heardIn cfg tr).Le (heardIn cfg (tr ++ tr')) where
  addr := fun ⟨rx, hrx, ha⟩ => ⟨rx, hrx.append tr', ha⟩
  near := fun ⟨rx, hrx, ha⟩ => ⟨rx, hrx.append tr', ha⟩
  gwflags := fun ⟨rx, hrx, ha⟩ => ⟨rx, hrx.append tr', ha⟩
  hna := fun ⟨rx, hrx, ha⟩ => ⟨rx, hrx.append tr', ha⟩
  host := by
    rintro mac (h | ⟨s, dhost, hmem⟩)
    · exact .inl h
    · exact .inr ⟨s, dhost, List.mem_append_left _ hmem⟩

theorem heardIn_tellsAt (cfg : Config) (tr : List (State p × Event p)) (s : State p) (e : Event p) :
    (heardIn cfg (tr ++ [(s, e)])).TellsAt e := by
  have hlast : (s, e) ∈ tr ++ [(s, e)] := List.mem_append_right _ List.mem_cons_self
  cases e with
  | ogm g rx =>
    have hrx : HeardOgm (tr ++ [(s, .ogm g rx)]) rx := ⟨s, g, hlast⟩
    exact ⟨⟨rx, hrx, .inl rfl⟩, ⟨rx, hrx, rfl⟩, ⟨rx, hrx, .inr rfl⟩, ⟨rx, hrx, rfl, rfl⟩, ⟨rx, hrx, rfl, rfl⟩⟩
  | tap shost dhost => exact .inr ⟨s, dhost, hlast⟩
  | bcast g frame => trivial
  | clock now => trivial
  | hnaUpdate => trivial
  | purge g currTime gwTime => trivial
  | sendBegin now => trivial
  | sendNext now rnd => trivial

theorem Run.vouched {cfg : Config} {tr : List (State p × Event p)} (h : Run p cfg tr s) :
    s.Vouched (heardIn cfg tr) ∧ HostBytes (HeardHost cfg tr) s.trans.hnaBuff := by
  have hinv := Trace.invariant
    (I := fun tr s => Run p cfg tr s ∧ s.Vouched (heardIn cfg tr) ∧ HostBytes (HeardHost cfg tr) s.trans.hnaBuff) h
    ⟨.nil, cfg.boot_vouched (.inl rfl)⟩
    fun tr s e s' ⟨hrun, hvouched, hhosts⟩ hstep => by
      have hle := heardIn_le cfg tr [(s, e)]
      have htells := heardIn_tellsAt cfg tr s e
      have hs := Run.wf hrun
      have hok := Run.hnaOk hrun
      exact ⟨hrun.snoc hstep, step_vouched hs hok (hvouched.mono hle) htells hstep,
        step_hosts hs hok (hvouched.mono hle) (hhosts.mono fun mac => hle.host) htells hstep⟩
  exact hinv.2

/-- **Nothing is made up.** In every run whose purges reroute no entry with a stored announcement, the HNA buffers
are valid and hold what the entries announce, an originator entry has the address of a sender or of an originator
of OGMs received, its neighbours have those of senders, its gateway class is one that an OGM of the originator
announced, a host is mapped to another node only if an OGM of that node announced it, and to this node only
if its tap has seen it or it is the node itself. -/
theorem tables_heard {cfg : Config} {tr : List (State p × Event p)} (h : Run p cfg tr s)
    (hbuffers : ∀ x ∈ tr, ¬ x.1.ReroutesStored x.2) :
    (∃ m, hnaMem tr = some m ∧ m.Holds s) ∧
    (∀ o ∈ s.origs, (∃ rx, HeardOgm tr rx ∧ (o.orig = rx.neigh ∨ o.orig = rx.pkt.orig)) ∧
        (∀ n ∈ o.neighList, ∃ rx, HeardOgm tr rx ∧ n.addr = rx.neigh) ∧
        (o.gwflags ≠ 0 → ∃ rx, HeardOgm tr rx ∧ rx.pkt.orig = o.orig ∧ rx.pkt.gwflags = o.gwflags)) ∧
      ∀ mac batmanMac, s.trans.transtableSearch mac = some batmanMac →
        if batmanMac ∈ cfg.hwAddrs then HeardHost cfg tr mac
        else ∃ rx, HeardOgm tr rx ∧ rx.pkt.orig = batmanMac ∧
          mac ∈ TransTable.hosts (hnaBytesOf rx.hna rx.pkt) (hnaBytesOf rx.hna rx.pkt).length := by
  obtain ⟨hvouched, -⟩ := h.vouched
  refine ⟨(Run.hnaMem h).1 hbuffers, fun o ho => ?_, fun mac batmanMac hsearch => ?_⟩
  · obtain ⟨horig, hneigh, hgw, -⟩ := hvouched.entry o ho
    exact ⟨horig, hneigh, fun hne => hgw.resolve_left hne⟩
  · obtain ⟨e, he, rfl, rfl⟩ := h.hnaOk.linked.transtableSearch_eq_some_iff.mp hsearch
    obtain ⟨hown, hother⟩ := hvouched.host e he
    rw [h.hwAddrs] at hown hother
    by_cases hmy : e.batmanMac ∈ cfg.hwAddrs
    · rw [if_pos hmy]
      exact hown hmy
    · rw [if_neg hmy]
      obtain ⟨bytes, ⟨rx, hrx, horig, rfl⟩, hmem⟩ := hother hmy
      exact ⟨rx, hrx, horig, hmem⟩

/-- The host `C` is behind `A`, which a purge keeps. -/
theorem tables_heard_announced : ∃ tr s, Run Net.p64 Net.cfg tr s ∧
    tr.map Prod.snd = Net.announced ++ [.purge (Net.zeros Net.p64) 1500 1500] ∧
    ∃ rx, HeardOgm tr rx ∧ rx.pkt.orig = Net.macA ∧
      Net.macC ∈ TransTable.hosts (hnaBytesOf rx.hna rx.pkt) (hnaBytesOf rx.hna rx.pkt).length := by
  obtain ⟨tr, s, hrun, hevents, hcheck⟩ := Run.of_exec Net.cfg
    (Net.announced ++ [.purge (Net.zeros Net.p64) 1500 1500])
    (fun tr s => decide ((∀ x ∈ tr, ¬ x.1.ReroutesStored x.2) ∧
      s.trans.transtableSearch Net.macC = some Net.macA)) (by decide +kernel)
  obtain ⟨hbuffers, hsearch⟩ := of_decide_eq_true hcheck
  have hother : Net.macA ∉ Net.cfg.hwAddrs := by decide +kernel
  have hheard := (tables_heard hrun hbuffers).2.2 Net.macC Net.macA hsearch
  rw [if_neg hother] at hheard
  exact ⟨tr, s, hrun, hevents, hheard⟩

end BatmanAdv
