import BatmanAdv.State

/-!
# Originator entries and their neighbours (`originator.c`)

`get_orig_node` and `create_neighbor`, and the well-formedness of the originator table that every
operation keeps: no two entries, and no two neighbours of an entry, share an address or a pointer.
-/

namespace BatmanAdv

variable {p : Platform}

/-! ## The functions -/

/-- A `struct neigh_node` zeroed and given its address by `create_neighbor`. -/
def NeighNode.new (ptr : ℕ) (addr : Mac) (origNode ifIncoming : ℕ) : NeighNode p where
  ptr := ptr
  addr := addr
  realPacketCount := 0
  tqRecv := Vector.replicate tqGlobalWindowSize 0
  tqIndex := 0
  tqAvg := 0
  lastTtl := 0
  lastValid := 0
  realBits := bitInit
  origNode := origNode
  ifIncoming := ifIncoming

/-- A `struct orig_node` as `get_orig_node` makes it. -/
def OrigNode.new (ptr : ℕ) (addr : Mac) : OrigNode p where
  ptr := ptr
  orig := addr
  router := none
  batmanIf := none
  lastValid := 0
  lastBcastSeqno := 0
  hnaBuff := none
  hnaBuffLen := 0
  neighList := []
  gwflags := 0
  bcastOwn := fun _ => bitInit
  bcastOwnSum := fun _ => 0
  tqOwn := 0
  tqAsymPenalty := 0
  lastRealSeqno := 0
  lastTtl := 0
  seqBits := bitInit

/-- The neighbour with this address that is heard on this interface. -/
def NeighNode.isVia (n : NeighNode p) (neigh : Mac) (ifIncoming : ℕ) : Bool :=
  n.addr == neigh && n.ifIncoming == ifIncoming

/-- The loops over `neigh_list` keep the last neighbour that fits. -/
def OrigNode.neighVia (o : OrigNode p) (neigh : Mac) (ifIncoming : ℕ) : Option (NeighNode p) :=
  (o.neighList.filter (·.isVia neigh ifIncoming)).getLast?

def OrigNode.modNeigh (o : OrigNode p) (ptr : ℕ) (f : NeighNode p → NeighNode p) : OrigNode p :=
  { o with neighList := o.neighList.map fun n => if n.ptr = ptr then f n else n }

namespace State

def origAt (s : State p) (ptr : ℕ) : OrigNode p := (s.orig? ptr).getD (OrigNode.new ptr zeroAddr)

/-- Returns the new neighbour too. -/
def createNeighbor (s : State p) (origNode origNeighNode : ℕ) (neigh : Mac) (ifIncoming : ℕ) :
    State p × NeighNode p :=
  let neighNode := NeighNode.new s.nextPtr neigh origNeighNode ifIncoming
  let s := s.modOrig origNode fun o => { o with neighList := o.neighList ++ [neighNode] }
  ({ s with nextPtr := s.nextPtr + 1 }, neighNode)

def findOrigNode (s : State p) (addr : Mac) : Option (OrigNode p) :=
  hashFind macCallbacks OrigNode.orig s.origHash addr

/-- The table a new entry goes into, resized where it is a quarter full. -/
def addOrigNode (origHash : Hashtable (OrigNode p)) (o : OrigNode p) : Hashtable (OrigNode p) :=
  let origHash := (hashAdd macCallbacks OrigNode.orig origHash o).1
  if origHash.elements * 4 > origHash.size then
    hashResize macCallbacks OrigNode.orig origHash (origHash.size * 2)
  else origHash

/-- Finds or creates the entry of an address. -/
def getOrigNode (s : State p) (addr : Mac) : State p × ℕ :=
  match s.findOrigNode addr with
  | some o => (s, o.ptr)
  | none =>
    ({ s with
        origHash := addOrigNode s.origHash (OrigNode.new s.nextPtr addr)
        nextPtr := s.nextPtr + 1 }, s.nextPtr)

end State

/-! ## Neighbours of an entry -/

theorem NeighNode.isVia_iff {n : NeighNode p} {neigh : Mac} {ifIncoming : ℕ} :
    n.isVia neigh ifIncoming = true ↔ n.addr = neigh ∧ n.ifIncoming = ifIncoming := by
  simp [NeighNode.isVia]

theorem OrigNode.neighVia_some {o : OrigNode p} {neigh : Mac} {ifIncoming : ℕ} {n : NeighNode p}
    (h : o.neighVia neigh ifIncoming = some n) :
    n ∈ o.neighList ∧ n.addr = neigh ∧ n.ifIncoming = ifIncoming := by
  have hmem := List.mem_filter.mp (List.mem_of_getLast? h)
  exact ⟨hmem.1, NeighNode.isVia_iff.mp hmem.2⟩

theorem OrigNode.neighVia_none {o : OrigNode p} {neigh : Mac} {ifIncoming : ℕ}
    (h : o.neighVia neigh ifIncoming = none) :
    ∀ n ∈ o.neighList, ¬ (n.addr = neigh ∧ n.ifIncoming = ifIncoming) := by
  intro n hn hvia
  have hnil := List.getLast?_eq_none_iff.mp h
  have hmem : n ∈ o.neighList.filter (·.isVia neigh ifIncoming) :=
    List.mem_filter.mpr ⟨hn, NeighNode.isVia_iff.mpr hvia⟩
  rw [hnil] at hmem
  exact List.not_mem_nil hmem

/-- Pointers below `next` are in use; neighbours differ in pointer and in address or interface, and
no packet count exceeds the window. -/
structure OrigNode.Wf (next : ℕ) (o : OrigNode p) : Prop where
  ptr_lt : o.ptr < next
  neigh_lt : ∀ n ∈ o.neighList, n.ptr < next
  count_le : ∀ n ∈ o.neighList, n.realPacketCount.toNat ≤ tqLocalWindowSize
  distinct : o.neighList.Pairwise fun a b =>
    a.ptr ≠ b.ptr ∧ ¬ (a.addr = b.addr ∧ a.ifIncoming = b.ifIncoming)

theorem NeighNode.apart_of_pairwise {l : List (NeighNode p)}
    (h : l.Pairwise fun a b => a.ptr ≠ b.ptr ∧ ¬ (a.addr = b.addr ∧ a.ifIncoming = b.ifIncoming))
    {a b : NeighNode p} (ha : a ∈ l) (hb : b ∈ l) (hne : a ≠ b) :
    a.ptr ≠ b.ptr ∧ ¬ (a.addr = b.addr ∧ a.ifIncoming = b.ifIncoming) := by
  have : Std.Symm fun a b : NeighNode p =>
      a.ptr ≠ b.ptr ∧ ¬ (a.addr = b.addr ∧ a.ifIncoming = b.ifIncoming) :=
    ⟨fun _ _ hab => ⟨hab.1.symm, fun hvia => hab.2 ⟨hvia.1.symm, hvia.2.symm⟩⟩⟩
  exact h.forall ha hb hne

namespace OrigNode.Wf

variable {next : ℕ} {o : OrigNode p}

theorem mono (h : o.Wf next) {next' : ℕ} (hle : next ≤ next') : o.Wf next' where
  ptr_lt := h.ptr_lt.trans_le hle
  neigh_lt n hn := (h.neigh_lt n hn).trans_le hle
  count_le := h.count_le
  distinct := h.distinct

theorem eq_of_ptr (h : o.Wf next) {a b : NeighNode p} (ha : a ∈ o.neighList)
    (hb : b ∈ o.neighList) (hptr : a.ptr = b.ptr) : a = b := by
  by_contra hne
  exact (NeighNode.apart_of_pairwise h.distinct ha hb hne).1 hptr

theorem mapNeigh (h : o.Wf next) {o' : OrigNode p} {f : NeighNode p → NeighNode p}
    (hptr' : o'.ptr = o.ptr) (hlist : o'.neighList = o.neighList.map f)
    (hptr : ∀ n, (f n).ptr = n.ptr) (haddr : ∀ n, (f n).addr = n.addr)
    (hif : ∀ n, (f n).ifIncoming = n.ifIncoming)
    (hcount : ∀ n, n.realPacketCount.toNat ≤ tqLocalWindowSize →
      (f n).realPacketCount.toNat ≤ tqLocalWindowSize) : o'.Wf next where
  ptr_lt := hptr' ▸ h.ptr_lt
  neigh_lt n hn := by
    rw [hlist] at hn
    obtain ⟨n', hn', rfl⟩ := List.mem_map.mp hn
    rw [hptr]
    exact h.neigh_lt n' hn'
  count_le n hn := by
    rw [hlist] at hn
    obtain ⟨n', hn', rfl⟩ := List.mem_map.mp hn
    exact hcount n' (h.count_le n' hn')
  distinct := by
    rw [hlist, List.pairwise_map]
    simpa only [hptr, haddr, hif] using h.distinct

theorem of_eq (h : o.Wf next) {o' : OrigNode p} (hptr : o'.ptr = o.ptr)
    (hlist : o'.neighList = o.neighList) : o'.Wf next :=
  ⟨hptr ▸ h.ptr_lt, hlist ▸ h.neigh_lt, hlist ▸ h.count_le, hlist ▸ h.distinct⟩

theorem append (h : o.Wf next) {neigh : Mac} {origNode ifIncoming : ℕ}
    (hnone : o.neighVia neigh ifIncoming = none) :
    ({ o with neighList := o.neighList ++ [NeighNode.new next neigh origNode ifIncoming] }
      : OrigNode p).Wf (next + 1) where
  ptr_lt := Nat.lt_succ_of_lt h.ptr_lt
  neigh_lt n hn := by
    rcases List.mem_append.mp hn with hn | hn
    · exact Nat.lt_succ_of_lt (h.neigh_lt n hn)
    · rw [List.mem_singleton.mp hn]
      exact Nat.lt_succ_self next
  count_le n hn := by
    rcases List.mem_append.mp hn with hn | hn
    · exact h.count_le n hn
    · rw [List.mem_singleton.mp hn]
      exact Nat.zero_le _
  distinct := by
    refine List.pairwise_append.mpr ⟨h.distinct, List.pairwise_singleton _ _, fun a ha b hb => ?_⟩
    rw [List.mem_singleton.mp hb]
    exact ⟨(h.neigh_lt a ha).ne, OrigNode.neighVia_none hnone a ha⟩

theorem filter (h : o.Wf next) {o' : OrigNode p} {q : NeighNode p → Bool} (hptr : o'.ptr = o.ptr)
    (hlist : o'.neighList = o.neighList.filter q) : o'.Wf next where
  ptr_lt := hptr ▸ h.ptr_lt
  neigh_lt n hn := by
    rw [hlist] at hn
    exact h.neigh_lt n (List.mem_filter.mp hn).1
  count_le n hn := by
    rw [hlist] at hn
    exact h.count_le n (List.mem_filter.mp hn).1
  distinct := hlist ▸ h.distinct.filter q

end OrigNode.Wf

/-! ## The originator table -/

namespace State

/-- **Well-formedness** of the originator table. -/
structure Wf (s : State p) : Prop where
  ok : s.origHash.Ok macCallbacks OrigNode.orig
  distinct : s.origs.Pairwise fun a b => a.ptr ≠ b.ptr
  node : ∀ o ∈ s.origs, o.Wf s.nextPtr
  /-- This node has no entry for itself. -/
  foreign : ∀ o ∈ s.origs, o.orig ∉ s.hwAddrs

/-- `ptr` points to the entry of `addr`. -/
def At (s : State p) (ptr : ℕ) (addr : Mac) : Prop := ∃ o ∈ s.origs, o.ptr = ptr ∧ o.orig = addr

instance (s : State p) (ptr : ℕ) (addr : Mac) : Decidable (s.At ptr addr) :=
  inferInstanceAs (Decidable (∃ o ∈ s.origs, _))

variable {s : State p}

theorem findOrigNode_eq_some_iff (h : s.origHash.Ok macCallbacks OrigNode.orig) {addr : Mac}
    {o : OrigNode p} : s.findOrigNode addr = some o ↔ o ∈ s.origs ∧ o.orig = addr := by
  unfold findOrigNode origs
  rw [h.hashFind_eq_some_iff macCallbacks_lawful, macCallbacks_compare, beq_iff_eq]

theorem findOrigNode_eq_none_iff (h : s.origHash.Ok macCallbacks OrigNode.orig) {addr : Mac} :
    s.findOrigNode addr = none ↔ ∀ o ∈ s.origs, o.orig ≠ addr := by
  unfold findOrigNode origs
  rw [h.hashFind_eq_none_iff macCallbacks_lawful]
  simp

/-- The part of `Wf` that is about memory: the hash table is one, and pointers tell entries apart. -/
structure Table (s : State p) : Prop where
  ok : s.origHash.Ok macCallbacks OrigNode.orig
  distinct : s.origs.Pairwise fun a b => a.ptr ≠ b.ptr
  ptr_lt : ∀ o ∈ s.origs, o.ptr < s.nextPtr

theorem Wf.table (h : s.Wf) : s.Table := ⟨h.ok, h.distinct, fun o ho => (h.node o ho).ptr_lt⟩

namespace Table

theorem eq_of_ptr (h : s.Table) {a b : OrigNode p} (ha : a ∈ s.origs) (hb : b ∈ s.origs)
    (hptr : a.ptr = b.ptr) : a = b := by
  have : Std.Symm fun a b : OrigNode p => a.ptr ≠ b.ptr := ⟨fun _ _ => Ne.symm⟩
  by_contra hne
  exact h.distinct.forall ha hb hne hptr

theorem orig?_of_mem (h : s.Table) {o : OrigNode p} (ho : o ∈ s.origs) : s.orig? o.ptr = some o := by
  unfold orig?
  cases hf : s.origs.find? (·.ptr = o.ptr) with
  | none => exact absurd (List.find?_eq_none.mp hf o ho) (by simp)
  | some o' =>
    have hptr : o'.ptr = o.ptr := by simpa using List.find?_some hf
    rw [h.eq_of_ptr (List.mem_of_find?_eq_some hf) ho hptr]

theorem origAt_of_mem (h : s.Table) {o : OrigNode p} (ho : o ∈ s.origs) : s.origAt o.ptr = o := by
  unfold origAt
  rw [h.orig?_of_mem ho, Option.getD_some]

theorem congr (h : s.Table) {s' : State p} (hhash : s'.origHash = s.origHash)
    (hptr : s.nextPtr ≤ s'.nextPtr) : s'.Table := by
  have horigs : s'.origs = s.origs := by unfold origs; rw [hhash]
  refine ⟨hhash ▸ h.ok, horigs ▸ h.distinct, fun o ho => ?_⟩
  rw [horigs] at ho
  exact (h.ptr_lt o ho).trans_le hptr

end Table

namespace Wf

theorem findOrigNode_eq_some_iff (h : s.Wf) {addr : Mac} {o : OrigNode p} :
    s.findOrigNode addr = some o ↔ o ∈ s.origs ∧ o.orig = addr :=
  State.findOrigNode_eq_some_iff h.ok

theorem eq_of_orig (h : s.Wf) {a b : OrigNode p} (ha : a ∈ s.origs) (hb : b ∈ s.origs)
    (horig : a.orig = b.orig) : a = b := by
  have hfa := h.findOrigNode_eq_some_iff.mpr ⟨ha, horig⟩
  have hfb := h.findOrigNode_eq_some_iff.mpr ⟨hb, rfl⟩
  exact Option.some_injective _ (hfa.symm.trans hfb)

theorem eq_of_ptr (h : s.Wf) {a b : OrigNode p} (ha : a ∈ s.origs) (hb : b ∈ s.origs)
    (hptr : a.ptr = b.ptr) : a = b :=
  h.table.eq_of_ptr ha hb hptr

theorem origAt_of_mem (h : s.Wf) {o : OrigNode p} (ho : o ∈ s.origs) : s.origAt o.ptr = o :=
  h.table.origAt_of_mem ho

theorem origAt_mem (h : s.Wf) {ptr : ℕ} {addr : Mac} (hat : s.At ptr addr) :
    s.origAt ptr ∈ s.origs ∧ (s.origAt ptr).ptr = ptr ∧ (s.origAt ptr).orig = addr := by
  obtain ⟨o, ho, rfl, rfl⟩ := hat
  rw [h.origAt_of_mem ho]
  exact ⟨ho, rfl, rfl⟩

end Wf

/-! ### Writing through a pointer -/

theorem forall_modOrig {Q : OrigNode p → Prop} {ptr : ℕ} {f : OrigNode p → OrigNode p}
    (h : ∀ o ∈ s.origs, Q o) (hf : ∀ o ∈ s.origs, o.ptr = ptr → Q o → Q (f o)) :
    ∀ o ∈ (s.modOrig ptr f).origs, Q o := by
  intro o ho
  obtain ⟨o', ho', rfl⟩ := mem_origs_modOrig.mp ho
  split_ifs with hptr
  · exact hf o' ho' hptr (h o' ho')
  · exact h o' ho'

theorem Table.modOrig (h : s.Table) {ptr : ℕ} {f : OrigNode p → OrigNode p}
    (hptr : ∀ o, (f o).ptr = o.ptr) (horig : ∀ o, (f o).orig = o.orig) : (s.modOrig ptr f).Table where
  ok := h.ok.map fun o => by split_ifs <;> simp [horig]
  distinct := by
    rw [origs_modOrig, List.pairwise_map]
    have hkeep : ∀ o : OrigNode p, (if o.ptr = ptr then f o else o).ptr = o.ptr := fun o => by
      split_ifs <;> simp [hptr]
    simpa only [hkeep] using h.distinct
  ptr_lt := forall_modOrig h.ptr_lt fun o _ _ hlt => by
    rw [hptr]
    exact hlt

theorem mem_modOrig_self {o : OrigNode p} (ho : o ∈ s.origs) (f : OrigNode p → OrigNode p) :
    f o ∈ (s.modOrig o.ptr f).origs :=
  mem_origs_modOrig.mpr ⟨o, ho, if_pos rfl⟩

theorem Table.origAt_modOrig (h : s.Table) {o : OrigNode p} (ho : o ∈ s.origs)
    {f : OrigNode p → OrigNode p} (hptr : ∀ o, (f o).ptr = o.ptr) (horig : ∀ o, (f o).orig = o.orig) :
    (s.modOrig o.ptr f).origAt o.ptr = f o := by
  have hread := (h.modOrig hptr horig).origAt_of_mem (mem_modOrig_self ho f)
  rwa [hptr] at hread

theorem Wf.modOrig (h : s.Wf) {ptr : ℕ} {f : OrigNode p → OrigNode p}
    (hptr : ∀ o, (f o).ptr = o.ptr) (horig : ∀ o, (f o).orig = o.orig)
    (hf : ∀ o ∈ s.origs, o.ptr = ptr → (f o).Wf s.nextPtr) : (s.modOrig ptr f).Wf where
  ok := (h.table.modOrig hptr horig).ok
  distinct := (h.table.modOrig hptr horig).distinct
  node := forall_modOrig h.node fun o ho hp _ => hf o ho hp
  foreign := forall_modOrig h.foreign fun o ho _ _ => by
    rw [horig]
    exact h.foreign o ho

theorem Wf.mem_modOrig_iff (h : s.Wf) {o y : OrigNode p} (ho : o ∈ s.origs)
    {f : OrigNode p → OrigNode p} :
    y ∈ (s.modOrig o.ptr f).origs ↔ y = f o ∨ y ∈ s.origs ∧ y.ptr ≠ o.ptr := by
  rw [mem_origs_modOrig]
  constructor
  · rintro ⟨o', ho', rfl⟩
    split_ifs with hptr
    · rw [h.eq_of_ptr ho' ho hptr]
      exact .inl rfl
    · exact .inr ⟨ho', hptr⟩
  · rintro (rfl | ⟨hy, hne⟩)
    · exact ⟨o, ho, if_pos rfl⟩
    · exact ⟨y, hy, if_neg hne⟩

theorem At.modOrig {ptr ptr' : ℕ} {addr : Mac} {f : OrigNode p → OrigNode p} (hat : s.At ptr addr)
    (hptr : ∀ o, (f o).ptr = o.ptr) (horig : ∀ o, (f o).orig = o.orig) :
    (s.modOrig ptr' f).At ptr addr := by
  obtain ⟨o, ho, rfl, rfl⟩ := hat
  refine ⟨_, mem_origs_modOrig.mpr ⟨o, ho, rfl⟩, ?_, ?_⟩ <;> split_ifs <;> simp [hptr, horig]

/-! ### Finding or creating an entry -/

/-- **`get_orig_node`** returns the entry of the address, which is there or is new. -/
theorem getOrigNode_cases (h : s.origHash.Ok macCallbacks OrigNode.orig) (addr : Mac) :
    (∃ o ∈ s.origs, o.orig = addr ∧ s.getOrigNode addr = (s, o.ptr)) ∨
      (∀ o ∈ s.origs, o.orig ≠ addr) ∧ ∃ hash : Hashtable (OrigNode p),
        s.getOrigNode addr = ({ s with origHash := hash, nextPtr := s.nextPtr + 1 }, s.nextPtr) ∧
          hash.buckets.Perm (OrigNode.new s.nextPtr addr :: s.origs) ∧
          hash.Ok macCallbacks OrigNode.orig := by
  unfold getOrigNode
  cases hf : s.findOrigNode addr with
  | some o =>
    obtain ⟨ho, horig⟩ := (findOrigNode_eq_some_iff h).mp hf
    exact .inl ⟨o, ho, horig, rfl⟩
  | none =>
    refine .inr ⟨(findOrigNode_eq_none_iff h).mp hf, _, rfl, ?_⟩
    have hnone : hashFind macCallbacks OrigNode.orig s.origHash
      (OrigNode.new s.nextPtr addr : OrigNode p).orig = none := hf
    have hadd := hashAdd_of_none h macCallbacks_lawful hnone
    unfold addOrigNode
    dsimp only
    split_ifs
    · have hsize := hadd.2.2.size_pos
      obtain ⟨hperm, hok⟩ := hashResize_spec hadd.2.2 macCallbacks_lawful
        (Nat.mul_pos hsize Nat.two_pos)
      exact ⟨hperm.trans hadd.2.1, hok⟩
    · exact hadd.2

theorem Table.getOrigNode (h : s.Table) (addr : Mac) :
    (s.getOrigNode addr).1.Table ∧ s.nextPtr ≤ (s.getOrigNode addr).1.nextPtr ∧
      (∀ o ∈ s.origs, o ∈ (s.getOrigNode addr).1.origs) ∧
      ∃ e ∈ (s.getOrigNode addr).1.origs, e.ptr = (s.getOrigNode addr).2 ∧
        e = (s.findOrigNode addr).getD (OrigNode.new s.nextPtr addr) := by
  rcases getOrigNode_cases h.ok addr with ⟨e, he, horig, heq⟩ | ⟨hnone, hash, heq, hperm, hok⟩
  · rw [heq, (findOrigNode_eq_some_iff h.ok).mpr ⟨he, horig⟩]
    exact ⟨h, le_rfl, fun o ho => ho, e, he, rfl, rfl⟩
  · rw [heq, (findOrigNode_eq_none_iff h.ok).mpr hnone]
    have hmem : ∀ o, o ∈ hash.buckets ↔ o = OrigNode.new s.nextPtr addr ∨ o ∈ s.origs := fun o => by
      rw [hperm.mem_iff, List.mem_cons]
    refine ⟨⟨hok, ?_, fun o ho => ?_⟩, Nat.le_succ _, fun o ho => (hmem o).mpr (.inr ho), ?_⟩
    · refine (hperm.pairwise_iff fun hne => hne.symm).mpr (List.pairwise_cons.mpr ⟨?_, h.distinct⟩)
      exact fun o ho => (h.ptr_lt o ho).ne'
    · rcases (hmem o).mp ho with rfl | ho
      · exact Nat.lt_succ_self _
      · exact Nat.lt_succ_of_lt (h.ptr_lt o ho)
    · exact ⟨OrigNode.new s.nextPtr addr, (hmem _).mpr (.inl rfl), rfl, rfl⟩

theorem Wf.getOrigNode (h : s.Wf) {addr : Mac} (hforeign : addr ∉ s.hwAddrs) :
    (s.getOrigNode addr).1.Wf := by
  have htable := (h.table.getOrigNode addr).1
  rcases State.getOrigNode_cases h.ok addr with ⟨o, ho, _, heq⟩ | ⟨hnone, hash, heq, hperm, _⟩
  · rw [heq]
    exact h
  · rw [heq] at htable ⊢
    have hmem : ∀ o, o ∈ hash.buckets ↔ o = OrigNode.new s.nextPtr addr ∨ o ∈ s.origs := fun o => by
      rw [hperm.mem_iff, List.mem_cons]
    refine ⟨htable.ok, htable.distinct, fun o ho => ?_, fun o ho => ?_⟩
    · rcases (hmem o).mp ho with rfl | ho
      · exact ⟨Nat.lt_succ_self _, fun _ hn => absurd hn List.not_mem_nil,
          fun _ hn => absurd hn List.not_mem_nil, List.Pairwise.nil⟩
      · exact (h.node o ho).mono (Nat.le_succ _)
    · rcases (hmem o).mp ho with rfl | ho
      · exact hforeign
      · exact h.foreign o ho

theorem Wf.at_getOrigNode (h : s.Wf) (addr : Mac) :
    (s.getOrigNode addr).1.At (s.getOrigNode addr).2 addr := by
  rcases State.getOrigNode_cases h.ok addr with ⟨o, ho, horig, heq⟩ | ⟨_, hash, heq, hperm, _⟩
  · rw [heq]
    exact ⟨o, ho, rfl, horig⟩
  · rw [heq]
    exact ⟨OrigNode.new s.nextPtr addr, hperm.mem_iff.mpr (by simp), rfl, rfl⟩

theorem Wf.mem_getOrigNode (h : s.Wf) {addr : Mac} {o : OrigNode p}
    (ho : o ∈ (s.getOrigNode addr).1.origs) :
    o ∈ s.origs ∨ o = OrigNode.new s.nextPtr addr ∧ ∀ o' ∈ s.origs, o'.orig ≠ addr := by
  rcases State.getOrigNode_cases h.ok addr with ⟨o', ho', _, heq⟩ | ⟨hnone, hash, heq, hperm, _⟩
  · rw [heq] at ho
    exact .inl ho
  · rw [heq] at ho
    rcases List.mem_cons.mp (hperm.mem_iff.mp ho) with rfl | ho
    · exact .inr ⟨rfl, hnone⟩
    · exact .inl ho

theorem Wf.mem_getOrigNode_of_mem (h : s.Wf) (addr : Mac) {o : OrigNode p} (ho : o ∈ s.origs) :
    o ∈ (s.getOrigNode addr).1.origs := by
  rcases State.getOrigNode_cases h.ok addr with ⟨_, _, _, heq⟩ | ⟨_, hash, heq, hperm, _⟩
  · rw [heq]
    exact ho
  · rw [heq]
    exact hperm.mem_iff.mpr (List.mem_cons_of_mem _ ho)

theorem Wf.origAt_getOrigNode (h : s.Wf) {ptr : ℕ} {addr addr' : Mac} (hat : s.At ptr addr)
    (hwf : (s.getOrigNode addr').1.Wf) : (s.getOrigNode addr').1.origAt ptr = s.origAt ptr := by
  obtain ⟨hmem, hptr, _⟩ := h.origAt_mem hat
  have := hwf.origAt_of_mem (h.mem_getOrigNode_of_mem addr' hmem)
  rwa [hptr] at this

theorem getOrigNode_frame (s : State p) (addr : Mac) :
    (s.getOrigNode addr).1 =
      { s with
        origHash := (s.getOrigNode addr).1.origHash
        nextPtr := (s.getOrigNode addr).1.nextPtr } := by
  unfold State.getOrigNode
  split <;> rfl

/-! ### Creating a neighbour -/

theorem Wf.createNeighbor (h : s.Wf) {origNode origNeighNode : ℕ} {neigh : Mac} {ifIncoming : ℕ}
    (hnone : ∀ o ∈ s.origs, o.ptr = origNode → o.neighVia neigh ifIncoming = none) :
    (s.createNeighbor origNode origNeighNode neigh ifIncoming).1.Wf := by
  unfold State.createNeighbor
  refine ⟨h.ok.map fun o => by split_ifs <;> rfl, ?_, ?_, ?_⟩
  · show (s.modOrig _ _).origs.Pairwise _
    rw [origs_modOrig, List.pairwise_map]
    refine h.distinct.imp fun {a b} hne => ?_
    split_ifs <;> exact hne
  · show ∀ o ∈ (s.modOrig _ _).origs, o.Wf (s.nextPtr + 1)
    refine forall_modOrig (fun o ho => (h.node o ho).mono (Nat.le_succ _)) fun o ho hptr _ => ?_
    exact (h.node o ho).append (hnone o ho hptr)
  · exact forall_modOrig (Q := fun o => o.orig ∉ s.hwAddrs) h.foreign fun o ho _ _ => h.foreign o ho

end State

end BatmanAdv
