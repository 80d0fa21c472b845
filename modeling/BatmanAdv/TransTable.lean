import BatmanAdv.State

/-!
# The translation table (`trans_table.c`)

One hash table from host addresses to the interface address (`batman_mac`) of the node that announces
them, whose elements are also linked in lists: the global `hna_list` for the hosts of this node, and
one list in every originator entry for the hosts it announces. An element is linked through
`list_link`, so `dlist_del` needs no list head.
-/

namespace BatmanAdv

/-! ## The functions -/

/-- What `transtable_add` ignores: broadcast, zero and IPv4 multicast. -/
def refused (mac : Mac) : Bool :=
  mac == broadcastAddr || mac == zeroAddr || isMulticastAddress mac

namespace TransTable

def elems (t : TransTable) : List TransElement := t.transHash.buckets

def find (t : TransTable) (mac : Mac) : Option TransElement :=
  hashFind macCallbacks TransElement.mac t.transHash mac

def transtableSearch (t : TransTable) (mac : Mac) : Option Mac := (t.find mac).map (·.batmanMac)

def dlistDel (t : TransTable) (ptr : ℕ) : TransTable :=
  { t with hnaLists := fun head => (t.hnaLists head).erase ptr }

def dlistAdd (t : TransTable) (ptr : ℕ) (head : HnaHead) : TransTable :=
  { t with hnaLists := Function.update t.hnaLists head (ptr :: t.hnaLists head) }

def hnaDel (t : TransTable) (elem : TransElement) : TransTable :=
  let t := t.dlistDel elem.ptr
  { t with transHash := (hashRemove macCallbacks TransElement.mac t.transHash elem.mac).1 }

def setAge (t : TransTable) (ptr : ℕ) (age : Time) : TransTable :=
  { t with transHash := t.transHash.map fun e => if e.ptr = ptr then { e with age := age } else e }

def hnaRemoveList (t : TransTable) (head : HnaHead) : TransTable :=
  (t.hnaLists head).foldl (fun t ptr =>
    match t.elems.find? (·.ptr = ptr) with
    | some elem => t.hnaDel elem
    | none => t) t

/-- One round of its loop. -/
def hnaRemoveStep (t : TransTable) (ptr : ℕ) : TransTable :=
  match t.elems.find? (·.ptr = ptr) with
  | some elem => t.hnaDel elem
  | none => t

theorem hnaRemoveList_eq (t : TransTable) (head : HnaHead) :
    t.hnaRemoveList head = (t.hnaLists head).foldl hnaRemoveStep t := rfl

theorem hnaRemoveStep_of_none {t : TransTable} {ptr : ℕ} (h : t.elems.find? (·.ptr = ptr) = none) :
    t.hnaRemoveStep ptr = t := by
  unfold hnaRemoveStep
  rw [h]

theorem hnaRemoveStep_of_some {t : TransTable} {ptr : ℕ} {elem : TransElement}
    (h : t.elems.find? (·.ptr = ptr) = some elem) : t.hnaRemoveStep ptr = t.hnaDel elem := by
  unfold hnaRemoveStep
  rw [h]

variable (hwAddrs : List Mac) (currTime : Time)

/-- `(re)assign a new element`: allocated and added to the hash, not linked yet. -/
def addElem (t : TransTable) (mac batmanMac : Mac) : TransTable :=
  { t with
    transHash := (hashAdd macCallbacks TransElement.mac t.transHash
      ⟨t.nextElem, mac, batmanMac, currTime⟩).1
    nextElem := t.nextElem + 1 }

/-- Returns the table and 0 where a new element was made. -/
def transtableAdd (t : TransTable) (mac batmanMac : Mac) : TransTable × ℤ :=
  if refused mac then (t, -1)
  else
    let elem := t.find mac
    -- a host that changed to a new `batman_mac` is deleted and reassigned
    let (t, elem) :=
      match elem with
      | some e =>
        if batmanMac ≠ e.batmanMac then
          let t := t.hnaDel e
          ({ t with hnaChanged := isMyMac hwAddrs e.batmanMac || t.hnaChanged }, none)
        else (t, some e)
      | none => (t, none)
    match elem with
    | some _ => (t, -1)
    | none => (t.addElem currTime mac batmanMac, 0)

def hnaAdd (t : TransTable) (mac mymac : Mac) : TransTable :=
  match t.find mac with
  | some elem =>
    if isMyMac hwAddrs elem.batmanMac then t.setAge elem.ptr currTime
    else link (t.hnaDel elem)
  | none => link t
where
  /-- Not found or deleted. -/
  link (t : TransTable) : TransTable :=
    let t := (t.transtableAdd hwAddrs currTime mac mymac).1
    match t.find mac with
    | some elem =>
      let t := (t.setAge elem.ptr currTime).dlistAdd elem.ptr .own
      { t with hnaChanged := true }
    | none => t

/-- One round of the first loop of `hna_update`; `primary` is the address of the first interface. -/
def hnaUpdateStep (primary : Mac) (t : TransTable) (ptr : ℕ) : TransTable :=
  match t.elems.find? (·.ptr = ptr) with
  | some elem =>
    if currTime - elem.age > ageThreshold ∧ elem.mac ≠ primary then
      let t := t.hnaDel elem
      { t with hnaChanged := true }
    else t
  | none => t

/-- `(tap_mtu - BATMAN_MAXFRAMESIZE)/6`, in `size_t`. -/
def maxAnnounced (p : Platform) (tapMtu : ℤ) : ℕ :=
  ((tapMtu - batmanMaxframesize) % 2 ^ p.wordBitSize).toNat / 6

/-- The MAC of a linked element. -/
def macOf (t : TransTable) (ptr : ℕ) : Option Mac := (t.elems.find? (·.ptr = ptr)).map (·.mac)

/-- Returns the table and, where the buffer was rewritten, the number of hosts to announce. -/
def hnaUpdate (p : Platform) (tapMtu : ℤ) (primary : Mac) (t : TransTable) :
    TransTable × Option ℕ :=
  let t := (t.hnaLists .own).foldl (hnaUpdateStep currTime primary) t
  if t.hnaChanged then
    let hosts := (t.hnaLists .own).filterMap t.macOf
    let room := maxAnnounced p tapMtu
    let numHna :=
      if hosts.length > room ∨ hosts.length > 255 then if room > 255 then 255 else room
      else hosts.length
    ({ t with
        hnaBuff := hosts.flatMap Mac.bytes
        hnaChanged := false
        numHna := numHna }, some numHna)
  else (t, none)

/-- The hosts of an announcement: its whole groups of six bytes. -/
def hosts (hnaBuff : List Byte) (hnaBuffLen : ℕ) : List Mac :=
  (List.range (hnaBuffLen / 6)).map fun i => Mac.read hnaBuff (i * 6)

/-- One round of `hna_add_buff`. -/
def hnaAddHost (ptr : ℕ) (orig : Mac) (t : TransTable) (host : Mac) : TransTable :=
  let (t, ret) := t.transtableAdd hwAddrs currTime host orig
  if ret = 0 then
    match t.find host with
    | some elem => t.dlistAdd elem.ptr (.orig ptr)
    | none => t
  else t

variable {p : Platform}

def hnaAddBuff (t : TransTable) (origNode : OrigNode p) : TransTable :=
  (hosts (origNode.hnaBuff.getD []) origNode.hnaBuffLen).foldl
    (hnaAddHost hwAddrs currTime origNode.ptr origNode.orig) t

/-- The buffer is freed but not set to `NULL`. -/
def hnaDelBuff (t : TransTable) (origNode : OrigNode p) : TransTable × OrigNode p :=
  (t.hnaRemoveList (.orig origNode.ptr), { origNode with hnaBuffLen := 0 })

end TransTable

def transtableInit (hwAddrs : List Mac) (currTime : Time) (primary : Mac) : TransTable :=
  TransTable.hnaAdd hwAddrs currTime
    { transHash := hashNew 4096, hnaLists := fun _ => [], hnaChanged := false, numHna := 0,
      hnaBuff := [], nextElem := 0 } primary primary

namespace TransTable

/-! ## Linked tables -/

/-- The elements of the table are linked in the list of their `batman_mac`, and nothing else is in
the lists. `home` is the list head of an address: `hna_list` for the interfaces of this node, the
list of the originator entry for others. -/
structure Linked (home : Mac → Option HnaHead) (t : TransTable) : Prop where
  ok : t.transHash.Ok macCallbacks TransElement.mac
  ptr_lt : ∀ e ∈ t.elems, e.ptr < t.nextElem
  distinct : t.elems.Pairwise fun a b => a.ptr ≠ b.ptr
  nodup : ∀ head, (t.hnaLists head).Nodup
  homed : ∀ e ∈ t.elems, (home e.batmanMac).isSome
  mem_iff : ∀ head ptr, ptr ∈ t.hnaLists head ↔
    ∃ e ∈ t.elems, e.ptr = ptr ∧ home e.batmanMac = some head

variable (hwAddrs : List Mac) (currTime : Time) {home : Mac → Option HnaHead} {t : TransTable}

theorem Linked.find_eq_some_iff (h : t.Linked home) {mac : Mac} {e : TransElement} :
    t.find mac = some e ↔ e ∈ t.elems ∧ e.mac = mac := by
  unfold find elems
  rw [h.ok.hashFind_eq_some_iff macCallbacks_lawful, macCallbacks_compare, beq_iff_eq]

theorem Linked.find_eq_none_iff (h : t.Linked home) {mac : Mac} :
    t.find mac = none ↔ ∀ e ∈ t.elems, e.mac ≠ mac := by
  unfold find elems
  rw [h.ok.hashFind_eq_none_iff macCallbacks_lawful]
  simp

/-- **No MAC has two elements.** -/
theorem Linked.eq_of_mac (h : t.Linked home) {a b : TransElement} (ha : a ∈ t.elems)
    (hb : b ∈ t.elems) (hmac : a.mac = b.mac) : a = b := by
  have hfa := h.find_eq_some_iff.mpr ⟨ha, hmac⟩
  have hfb := h.find_eq_some_iff.mpr ⟨hb, rfl⟩
  exact Option.some_injective _ (hfa.symm.trans hfb)

theorem Linked.eq_of_ptr (h : t.Linked home) {a b : TransElement} (ha : a ∈ t.elems)
    (hb : b ∈ t.elems) (hptr : a.ptr = b.ptr) : a = b := by
  have : Std.Symm fun a b : TransElement => a.ptr ≠ b.ptr := ⟨fun _ _ => Ne.symm⟩
  by_contra hne
  exact h.distinct.forall ha hb hne hptr

theorem Linked.congr (h : t.Linked home) {home' : Mac → Option HnaHead}
    (heq : ∀ e ∈ t.elems, home' e.batmanMac = home e.batmanMac) : t.Linked home' where
  ok := h.ok
  ptr_lt := h.ptr_lt
  distinct := h.distinct
  nodup := h.nodup
  homed e he := by rw [heq e he]; exact h.homed e he
  mem_iff head ptr := by
    rw [h.mem_iff]
    constructor
    · rintro ⟨e, he, hptr, hhome⟩
      exact ⟨e, he, hptr, by rw [heq e he]; exact hhome⟩
    · rintro ⟨e, he, hptr, hhome⟩
      exact ⟨e, he, hptr, by rw [← heq e he]; exact hhome⟩

/-! ### Deleting an element -/

theorem Linked.hnaDel_perm (h : t.Linked home) {e : TransElement} (he : e ∈ t.elems) :
    t.elems.Perm (e :: (t.hnaDel e).elems) :=
  (hashRemove_of_some h.ok macCallbacks_lawful (h.find_eq_some_iff.mpr ⟨he, rfl⟩)).2.1

theorem Linked.mem_hnaDel (h : t.Linked home) {e x : TransElement} (he : e ∈ t.elems) :
    x ∈ (t.hnaDel e).elems ↔ x ∈ t.elems ∧ x.mac ≠ e.mac := by
  have hperm := h.hnaDel_perm he
  have hdis : (e :: (t.hnaDel e).elems).Pairwise fun a b => a.ptr ≠ b.ptr :=
    (hperm.pairwise_iff fun hne => hne.symm).mp h.distinct
  constructor
  · intro hx
    have hxt : x ∈ t.elems := hperm.mem_iff.mpr (List.mem_cons_of_mem _ hx)
    refine ⟨hxt, fun hmac => ?_⟩
    obtain rfl := h.eq_of_mac hxt he hmac
    exact (List.pairwise_cons.mp hdis).1 x hx rfl
  · rintro ⟨hx, hmac⟩
    rcases List.mem_cons.mp (hperm.mem_iff.mp hx) with rfl | hx
    · exact absurd rfl hmac
    · exact hx

theorem Linked.hnaDel (h : t.Linked home) {e : TransElement} (he : e ∈ t.elems) :
    (t.hnaDel e).Linked home := by
  have hperm := h.hnaDel_perm he
  have hsub : ∀ x ∈ (t.hnaDel e).elems, x ∈ t.elems := fun x hx => ((h.mem_hnaDel he).mp hx).1
  refine ⟨?_, fun x hx => h.ptr_lt x (hsub x hx), ?_, fun head => (h.nodup head).erase _,
    fun x hx => h.homed x (hsub x hx), fun head ptr => ?_⟩
  · exact (hashRemove_of_some h.ok macCallbacks_lawful (h.find_eq_some_iff.mpr ⟨he, rfl⟩)).2.2
  · exact (List.pairwise_cons.mp ((hperm.pairwise_iff fun hne => hne.symm).mp h.distinct)).2
  · show ptr ∈ (t.hnaLists head).erase e.ptr ↔ _
    rw [(h.nodup head).mem_erase_iff, h.mem_iff]
    constructor
    · rintro ⟨hne, x, hx, rfl, hhome⟩
      refine ⟨x, (h.mem_hnaDel he).mpr ⟨hx, fun hmac => hne ?_⟩, rfl, hhome⟩
      rw [h.eq_of_mac hx he hmac]
    · rintro ⟨x, hx, rfl, hhome⟩
      obtain ⟨hxt, hmac⟩ := (h.mem_hnaDel he).mp hx
      refine ⟨fun hptr => hmac ?_, x, hxt, rfl, hhome⟩
      rw [h.eq_of_ptr hxt he hptr]

/-! ### Adding an element and linking it -/

theorem Linked.addElem_perm (h : t.Linked home) {mac : Mac} (hfresh : ∀ e ∈ t.elems, e.mac ≠ mac)
    (batmanMac : Mac) :
    (t.addElem currTime mac batmanMac).elems.Perm
      (⟨t.nextElem, mac, batmanMac, currTime⟩ :: t.elems) :=
  (hashAdd_of_none h.ok macCallbacks_lawful (h.find_eq_none_iff.mpr hfresh)).2.1

theorem Linked.mem_addElem (h : t.Linked home) {mac : Mac} (hfresh : ∀ e ∈ t.elems, e.mac ≠ mac)
    (batmanMac : Mac) {e : TransElement} :
    e ∈ (t.addElem currTime mac batmanMac).elems ↔
      e = ⟨t.nextElem, mac, batmanMac, currTime⟩ ∨ e ∈ t.elems := by
  rw [(h.addElem_perm currTime hfresh batmanMac).mem_iff, List.mem_cons]

theorem Linked.addElem_dlistAdd (h : t.Linked home) {mac batmanMac : Mac} {head : HnaHead}
    (hfresh : ∀ e ∈ t.elems, e.mac ≠ mac) (hhome : home batmanMac = some head) :
    ((t.addElem currTime mac batmanMac).dlistAdd t.nextElem head).Linked home := by
  have hperm := h.addElem_perm currTime hfresh batmanMac
  have hmem : ∀ x, x ∈ (t.addElem currTime mac batmanMac).elems ↔
      x = ⟨t.nextElem, mac, batmanMac, currTime⟩ ∨ x ∈ t.elems :=
    fun x => h.mem_addElem currTime hfresh batmanMac
  have hlist : ∀ head', t.nextElem ∉ t.hnaLists head' := fun head' hin => by
    obtain ⟨e, he, hptr, _⟩ := (h.mem_iff _ _).mp hin
    exact absurd (h.ptr_lt e he) (by omega)
  refine ⟨?_, fun x hx => ?_, ?_, fun head' => ?_, fun x hx => ?_, fun head' ptr => ?_⟩
  · exact (hashAdd_of_none h.ok macCallbacks_lawful (h.find_eq_none_iff.mpr hfresh)).2.2
  · show x.ptr < t.nextElem + 1
    rcases (hmem x).mp hx with rfl | hx
    · exact Nat.lt_succ_self _
    · exact Nat.lt_succ_of_lt (h.ptr_lt x hx)
  · refine (hperm.pairwise_iff fun hne => hne.symm).mpr (List.pairwise_cons.mpr ⟨?_, h.distinct⟩)
    exact fun x hx hptr => absurd (h.ptr_lt x hx) (by rw [← hptr]; exact lt_irrefl _)
  · show (Function.update t.hnaLists head _ head').Nodup
    by_cases hh : head' = head
    · subst hh
      rw [Function.update_self]
      exact List.nodup_cons.mpr ⟨hlist head', h.nodup head'⟩
    · rw [Function.update_of_ne hh]
      exact h.nodup head'
  · rcases (hmem x).mp hx with rfl | hx
    · rw [hhome]; rfl
    · exact h.homed x hx
  · have hold : ptr ∈ t.hnaLists head' ↔ _ := h.mem_iff head' ptr
    show ptr ∈ Function.update t.hnaLists head (t.nextElem :: t.hnaLists head) head' ↔
      ∃ e ∈ (t.addElem currTime mac batmanMac).elems, e.ptr = ptr ∧ home e.batmanMac = some head'
    simp only [hmem, or_and_right, exists_or, exists_eq_left, hhome, ← hold]
    by_cases hh : head' = head
    · subst hh
      rw [Function.update_self, List.mem_cons]
      simp [eq_comm]
    · rw [Function.update_of_ne hh]
      simp [Ne.symm hh]

/-! ### Other writes -/

theorem Linked.setChanged (h : t.Linked home) (changed : Bool) :
    ({ t with hnaChanged := changed } : TransTable).Linked home :=
  ⟨h.ok, h.ptr_lt, h.distinct, h.nodup, h.homed, h.mem_iff⟩

theorem mem_setAge {ptr : ℕ} {age : Time} {e : TransElement} (he : e ∈ (t.setAge ptr age).elems) :
    ∃ e' ∈ t.elems, e'.ptr = e.ptr ∧ e'.mac = e.mac ∧ e'.batmanMac = e.batmanMac := by
  unfold elems setAge at he
  rw [Hashtable.buckets_map, List.mem_map] at he
  obtain ⟨e', he', rfl⟩ := he
  exact ⟨e', he', by split_ifs <;> simp⟩

theorem Linked.setAge (h : t.Linked home) (ptr : ℕ) (age : Time) :
    (t.setAge ptr age).Linked home := by
  set f : TransElement → TransElement := fun e => if e.ptr = ptr then { e with age := age } else e
  have hmac : ∀ e, (f e).mac = e.mac := fun e => by simp only [f]; split_ifs <;> rfl
  have hptr : ∀ e, (f e).ptr = e.ptr := fun e => by simp only [f]; split_ifs <;> rfl
  have hbat : ∀ e, (f e).batmanMac = e.batmanMac := fun e => by simp only [f]; split_ifs <;> rfl
  have helems : (t.setAge ptr age).elems = t.elems.map f := Hashtable.buckets_map _ _
  refine ⟨h.ok.map hmac, fun x hx => ?_, ?_, h.nodup, fun x hx => ?_, fun head x => ?_⟩
  · obtain ⟨e, he, hp, _⟩ := mem_setAge hx
    exact hp ▸ h.ptr_lt e he
  · rw [helems, List.pairwise_map]
    simpa only [hptr] using h.distinct
  · obtain ⟨e, he, _, _, hb⟩ := mem_setAge hx
    exact hb ▸ h.homed e he
  · refine (h.mem_iff head x).trans ?_
    simp only [helems, List.mem_map, exists_exists_and_eq_and, hptr, hbat]

/-! ## The functions keep the table linked -/

/-- **`transtable_add`.** Either nothing happens, the host being refused or there already, or a host
of another `batman_mac` has made room for a new element. -/
theorem Linked.transtableAdd_cases (h : t.Linked home) (mac batmanMac : Mac) :
    (t.transtableAdd hwAddrs currTime mac batmanMac = (t, -1) ∧
        (refused mac = true ∨ ∃ e ∈ t.elems, e.mac = mac ∧ e.batmanMac = batmanMac)) ∨
      refused mac = false ∧ ∃ t' : TransTable, t'.Linked home ∧
        (∀ e, e ∈ t'.elems ↔ e ∈ t.elems ∧ e.mac ≠ mac) ∧
        t.transtableAdd hwAddrs currTime mac batmanMac = (t'.addElem currTime mac batmanMac, 0) := by
  unfold transtableAdd
  by_cases hr : refused mac = true
  · exact .inl ⟨if_pos hr, .inl hr⟩
  rw [if_neg hr]
  cases hf : t.find mac with
  | none =>
    refine .inr ⟨by simpa using hr, t, h, fun e => ?_, rfl⟩
    exact ⟨fun he => ⟨he, h.find_eq_none_iff.mp hf e he⟩, And.left⟩
  | some e =>
    obtain ⟨he, hmac⟩ := h.find_eq_some_iff.mp hf
    by_cases hb : batmanMac = e.batmanMac
    · refine .inl ⟨?_, .inr ⟨e, he, hmac, hb.symm⟩⟩
      simp only [hb, ne_eq, not_true_eq_false, if_false]
    · refine .inr ⟨by simpa using hr, _,
        (h.hnaDel he).setChanged (isMyMac hwAddrs e.batmanMac || (t.hnaDel e).hnaChanged),
        fun x => ?_, ?_⟩
      · rw [← hmac]
        exact h.mem_hnaDel he
      · simp only [ne_eq, hb, not_false_eq_true, if_true]

theorem Linked.find_addElem (h : t.Linked home) {mac : Mac} (hfresh : ∀ e ∈ t.elems, e.mac ≠ mac)
    (batmanMac : Mac) :
    (t.addElem currTime mac batmanMac).find mac =
      some ⟨t.nextElem, mac, batmanMac, currTime⟩ := by
  refine (Hashtable.Ok.hashFind_eq_some_iff
    (hashAdd_of_none h.ok macCallbacks_lawful (h.find_eq_none_iff.mpr hfresh)).2.2
    macCallbacks_lawful).mpr ⟨?_, by simp⟩
  exact (h.mem_addElem currTime hfresh batmanMac).mpr (.inl rfl)

/-- Every `batman_mac` of `t'` is one of `t`, or `batmanMac`. -/
def OnlyAdds (t t' : TransTable) (batmanMac : Mac) : Prop :=
  ∀ e ∈ t'.elems, e.batmanMac = batmanMac ∨ ∃ e' ∈ t.elems, e'.batmanMac = e.batmanMac

theorem OnlyAdds.refl (t : TransTable) (batmanMac : Mac) : t.OnlyAdds t batmanMac :=
  fun e he => .inr ⟨e, he, rfl⟩

theorem OnlyAdds.trans {t' t'' : TransTable} {batmanMac : Mac} (h : t.OnlyAdds t' batmanMac)
    (h' : t'.OnlyAdds t'' batmanMac) : t.OnlyAdds t'' batmanMac := by
  intro e he
  rcases h' e he with hb | ⟨e', he', hb⟩
  · exact .inl hb
  · rw [← hb]
    exact h e' he'

theorem Linked.onlyAdds_hnaDel (h : t.Linked home) {e : TransElement} (he : e ∈ t.elems)
    (batmanMac : Mac) : t.OnlyAdds (t.hnaDel e) batmanMac :=
  fun x hx => .inr ⟨x, ((h.mem_hnaDel he).mp hx).1, rfl⟩

theorem Linked.onlyAdds_addElem {t' : TransTable} (h' : t'.Linked home) {mac batmanMac : Mac}
    (hmem : ∀ e, e ∈ t'.elems ↔ e ∈ t.elems ∧ e.mac ≠ mac) :
    t.OnlyAdds (t'.addElem currTime mac batmanMac) batmanMac := by
  intro e he
  have hfresh : ∀ e ∈ t'.elems, e.mac ≠ mac := fun e he => ((hmem e).mp he).2
  rcases (h'.mem_addElem currTime hfresh batmanMac).mp he with rfl | he
  · exact .inl rfl
  · exact .inr ⟨e, ((hmem e).mp he).1, rfl⟩

/-! ### The hosts of this node -/

theorem Linked.hnaAdd_link (h : t.Linked home) {mac mymac : Mac}
    (hfresh : ∀ e ∈ t.elems, e.mac ≠ mac) (hhome : home mymac = some .own) :
    (hnaAdd.link hwAddrs currTime mac mymac t).Linked home ∧
      t.OnlyAdds (hnaAdd.link hwAddrs currTime mac mymac t) mymac := by
  unfold hnaAdd.link
  rcases h.transtableAdd_cases hwAddrs currTime mac mymac with
    ⟨hadd, _⟩ | ⟨_, t', h', hmem, hadd⟩
  · simp only [hadd, h.find_eq_none_iff.mpr hfresh]
    exact ⟨h, OnlyAdds.refl t mymac⟩
  · have hfresh' : ∀ e ∈ t'.elems, e.mac ≠ mac := fun e he => ((hmem e).mp he).2
    simp only [hadd, h'.find_addElem currTime hfresh']
    refine ⟨((h'.addElem_dlistAdd currTime hfresh' hhome).setAge t'.nextElem currTime).setChanged true, ?_⟩
    intro e he
    obtain ⟨e', he', _, _, hb⟩ := mem_setAge he
    rw [← hb]
    exact h'.onlyAdds_addElem currTime hmem e' he'

/-- **`hna_add`.** -/
theorem Linked.hnaAdd (h : t.Linked home) {mac mymac : Mac} (hhome : home mymac = some .own) :
    (t.hnaAdd hwAddrs currTime mac mymac).Linked home ∧
      t.OnlyAdds (t.hnaAdd hwAddrs currTime mac mymac) mymac := by
  unfold TransTable.hnaAdd
  cases hf : t.find mac with
  | none => exact h.hnaAdd_link hwAddrs currTime (h.find_eq_none_iff.mp hf) hhome
  | some e =>
    obtain ⟨he, hmac⟩ := h.find_eq_some_iff.mp hf
    show (if isMyMac hwAddrs e.batmanMac then _ else _ : TransTable).Linked home ∧
      t.OnlyAdds (if isMyMac hwAddrs e.batmanMac then _ else _) mymac
    split_ifs
    · refine ⟨h.setAge _ _, fun x hx => ?_⟩
      obtain ⟨x', hx', _, _, hb⟩ := mem_setAge hx
      exact .inr ⟨x', hx', hb⟩
    · have hlink := (h.hnaDel he).hnaAdd_link hwAddrs currTime
        (fun x hx => hmac ▸ ((h.mem_hnaDel he).mp hx).2) hhome
      exact ⟨hlink.1, (h.onlyAdds_hnaDel he mymac).trans hlink.2⟩

theorem Linked.hnaUpdateStep (h : t.Linked home) (primary : Mac) (ptr : ℕ) (batmanMac : Mac) :
    (hnaUpdateStep currTime primary t ptr).Linked home ∧
      t.OnlyAdds (TransTable.hnaUpdateStep currTime primary t ptr) batmanMac := by
  unfold TransTable.hnaUpdateStep
  cases hf : t.elems.find? (·.ptr = ptr) with
  | none => exact ⟨h, OnlyAdds.refl t _⟩
  | some e =>
    have he := List.mem_of_find?_eq_some hf
    dsimp only
    split_ifs
    · exact ⟨(h.hnaDel he).setChanged true, h.onlyAdds_hnaDel he _⟩
    · exact ⟨h, OnlyAdds.refl t _⟩

/-- **`hna_update`.** -/
theorem Linked.hnaUpdate (h : t.Linked home) {p : Platform} {tapMtu : ℤ} (primary batmanMac : Mac) :
    (t.hnaUpdate currTime p tapMtu primary).1.Linked home ∧
      t.OnlyAdds (t.hnaUpdate currTime p tapMtu primary).1 batmanMac := by
  have hfold : ∀ (l : List ℕ) (t : TransTable), t.Linked home →
      (l.foldl (TransTable.hnaUpdateStep currTime primary) t).Linked home ∧
        t.OnlyAdds (l.foldl (TransTable.hnaUpdateStep currTime primary) t) batmanMac := by
    intro l
    induction l with
    | nil => exact fun t h => ⟨h, OnlyAdds.refl t _⟩
    | cons ptr l ih =>
      intro t h
      obtain ⟨h1, h2⟩ := h.hnaUpdateStep currTime primary ptr batmanMac
      obtain ⟨h3, h4⟩ := ih _ h1
      exact ⟨h3, h2.trans h4⟩
  obtain ⟨h1, h2⟩ := hfold (t.hnaLists .own) t h
  unfold TransTable.hnaUpdate
  dsimp only
  by_cases hc : ((t.hnaLists .own).foldl (TransTable.hnaUpdateStep currTime primary) t).hnaChanged
  · rw [if_pos hc]
    exact ⟨⟨h1.ok, h1.ptr_lt, h1.distinct, h1.nodup, h1.homed, h1.mem_iff⟩, h2⟩
  · rw [if_neg hc]
    exact ⟨h1, h2⟩

/-! ### The hosts of an originator -/

theorem Linked.transtableSearch_eq_some_iff (h : t.Linked home) {mac batmanMac : Mac} :
    t.transtableSearch mac = some batmanMac ↔
      ∃ e ∈ t.elems, e.mac = mac ∧ e.batmanMac = batmanMac := by
  unfold transtableSearch
  simp only [Option.map_eq_some_iff, h.find_eq_some_iff, and_assoc]

/-- **`hna_remove_list`.** The elements linked in the list are gone. -/
theorem Linked.hnaRemoveList (h : t.Linked home) (head : HnaHead) :
    (t.hnaRemoveList head).Linked home ∧
      ∀ e, e ∈ (t.hnaRemoveList head).elems ↔ e ∈ t.elems ∧ home e.batmanMac ≠ some head := by
  have hfold : ∀ (l : List ℕ) (t : TransTable), t.Linked home →
      (l.foldl hnaRemoveStep t).Linked home ∧
        ∀ e, e ∈ (l.foldl hnaRemoveStep t).elems ↔ e ∈ t.elems ∧ e.ptr ∉ l := by
    intro l
    induction l with
    | nil => exact fun t h => ⟨h, by simp⟩
    | cons ptr l ih =>
      intro t h
      rw [List.foldl_cons]
      cases hf : t.elems.find? (·.ptr = ptr) with
      | none =>
        rw [hnaRemoveStep_of_none hf]
        refine ⟨(ih t h).1, fun e => ((ih t h).2 e).trans (and_congr_right fun he => ?_)⟩
        have hne : e.ptr ≠ ptr := by simpa using List.find?_eq_none.mp hf e he
        simp [hne]
      | some x =>
        have hx := List.mem_of_find?_eq_some hf
        have hxptr : x.ptr = ptr := by simpa using List.find?_some hf
        obtain ⟨h1, h2⟩ := ih _ (h.hnaDel hx)
        rw [hnaRemoveStep_of_some hf]
        refine ⟨h1, fun e => ?_⟩
        rw [h2, h.mem_hnaDel hx, and_assoc, List.mem_cons, not_or]
        refine and_congr_right fun he => and_congr_left fun _ => not_congr ?_
        rw [← hxptr]
        exact ⟨fun hmac => by rw [h.eq_of_mac he hx hmac], fun hptr => by rw [h.eq_of_ptr he hx hptr]⟩
  obtain ⟨h1, h2⟩ := hfold (t.hnaLists head) t h
  rw [hnaRemoveList_eq]
  refine ⟨h1, fun e => (h2 e).trans (and_congr_right fun he => not_congr ?_)⟩
  rw [h.mem_iff]
  constructor
  · rintro ⟨e', he', hptr, hhome⟩
    rwa [← h.eq_of_ptr he' he hptr]
  · exact fun hhome => ⟨e, he, rfl, hhome⟩

theorem Linked.hnaAddHost (h : t.Linked home) {ptr : ℕ} {orig : Mac}
    (hhome : home orig = some (.orig ptr)) (host : Mac) :
    (t.hnaAddHost hwAddrs currTime ptr orig host).Linked home ∧
      t.OnlyAdds (t.hnaAddHost hwAddrs currTime ptr orig host) orig ∧
      ∀ mac, (t.hnaAddHost hwAddrs currTime ptr orig host).transtableSearch mac = some orig ↔
        t.transtableSearch mac = some orig ∨ mac = host ∧ refused mac = false := by
  unfold TransTable.hnaAddHost
  rcases h.transtableAdd_cases hwAddrs currTime host orig with
    ⟨hadd, hwhy⟩ | ⟨hr, t', h', hmem, hadd⟩
  · simp only [hadd, Int.reduceNeg, neg_eq_zero, one_ne_zero, if_false]
    refine ⟨h, OnlyAdds.refl t orig, fun mac => ⟨Or.inl, ?_⟩⟩
    rintro (hs | ⟨rfl, hr⟩)
    · exact hs
    · rcases hwhy with hr' | hex
      · rw [hr] at hr'; exact Bool.noConfusion hr'
      · exact h.transtableSearch_eq_some_iff.mpr hex
  · have hfresh : ∀ e ∈ t'.elems, e.mac ≠ host := fun e he => ((hmem e).mp he).2
    simp only [hadd, h'.find_addElem currTime hfresh, if_true]
    have hlink := h'.addElem_dlistAdd currTime hfresh hhome
    refine ⟨hlink, h'.onlyAdds_addElem currTime hmem, fun mac => ?_⟩
    rw [hlink.transtableSearch_eq_some_iff, h.transtableSearch_eq_some_iff]
    have helems : ∀ e, e ∈ ((t'.addElem currTime host orig).dlistAdd t'.nextElem (.orig ptr)).elems ↔
        e = ⟨t'.nextElem, host, orig, currTime⟩ ∨ (e ∈ t.elems ∧ e.mac ≠ host) :=
      fun e => (h'.mem_addElem currTime hfresh orig).trans (or_congr_right (hmem e))
    simp only [helems, or_and_right, exists_or, exists_eq_left, and_true]
    constructor
    · rintro (rfl | ⟨e, ⟨he, _⟩, hmac, hb⟩)
      · exact .inr ⟨rfl, hr⟩
      · exact .inl ⟨e, he, hmac, hb⟩
    · rintro (⟨e, he, hmac, hb⟩ | ⟨rfl, _⟩)
      · by_cases hh : mac = host
        · exact .inl hh.symm
        · exact .inr ⟨e, ⟨he, hmac ▸ hh⟩, hmac, hb⟩
      · exact .inl rfl

/-- **`hna_add_buff`.** The hosts that are not refused are mapped to the originator. -/
theorem Linked.hnaAddBuff (h : t.Linked home) {p : Platform} {origNode : OrigNode p}
    (hhome : home origNode.orig = some (.orig origNode.ptr)) :
    (t.hnaAddBuff hwAddrs currTime origNode).Linked home ∧
      t.OnlyAdds (t.hnaAddBuff hwAddrs currTime origNode) origNode.orig ∧
      ∀ mac, (t.hnaAddBuff hwAddrs currTime origNode).transtableSearch mac = some origNode.orig ↔
        t.transtableSearch mac = some origNode.orig ∨
          mac ∈ hosts (origNode.hnaBuff.getD []) origNode.hnaBuffLen ∧ refused mac = false := by
  unfold TransTable.hnaAddBuff
  induction hosts (origNode.hnaBuff.getD []) origNode.hnaBuffLen generalizing t with
  | nil => exact ⟨h, OnlyAdds.refl t _, by simp⟩
  | cons host l ih =>
    obtain ⟨h1, h2, h3⟩ := h.hnaAddHost hwAddrs currTime hhome host
    obtain ⟨h4, h5, h6⟩ := ih h1
    refine ⟨h4, h2.trans h5, fun mac => (h6 mac).trans ?_⟩
    rw [h3, List.mem_cons]
    tauto

end TransTable

end BatmanAdv
