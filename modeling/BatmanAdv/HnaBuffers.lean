import BatmanAdv.LastWrites
import BatmanAdv.Lib.Handles

/-!
# The HNA buffers in memory

`hna_buff` of an originator entry is a handle from `debugMalloc` until `hna_del_buff` frees it. The functions
that touch it are given here once more, on handles: a result of `none` is a read, a copy or a free of one that
is not valid. `update_routes` is called by `update_orig` with the bytes of the packet, and by `purge_orig` with
nothing for an entry it frees, but with `hna_buff` itself for one it reroutes: this buffer is then freed before
it is copied.
-/

namespace BatmanAdv

open Transition Handles

variable {p : Platform}

/-! ## The functions -/

/-- What `hna_recv_buff` points to: into the packet `batman()` has received, or to an HNA buffer. -/
inductive HnaRecvBuff
  | packet (bytes : List Byte)
  | stored (handle : ℕ)

/-- The HNA buffers and the entries that point to them. -/
structure HnaMem where
  heap : Heap (List Byte)
  hnaBuff : ℕ → Option ℕ
  hnaBuffLen : ℕ → ℕ

namespace HnaMem

def empty : HnaMem := ⟨Heap.empty, fun _ => none, fun _ => 0⟩

def read (m : HnaMem) : HnaRecvBuff → Option (List Byte)
  | .packet bytes => some bytes
  | .stored handle => m.heap.chunk handle

/-- The bytes behind `hna_buff`. -/
def announced (m : HnaMem) (origNode : ℕ) : Option (List Byte) := m.heap.at? m.hnaBuff origNode

/-- `hna_buff` itself stays. -/
def hnaDelBuff (m : HnaMem) (origNode : ℕ) : Option HnaMem := do
  let handle ← m.hnaBuff origNode
  let heap ← m.heap.free handle
  some { m with heap := heap, hnaBuffLen := Function.update m.hnaBuffLen origNode 0 }

def hnaAddBuff (m : HnaMem) (origNode : ℕ) : Option (List (List Byte)) :=
  (List.range (m.hnaBuffLen origNode / 6)).mapM fun i => do
    let handle ← m.hnaBuff origNode
    let bytes ← m.heap.chunk handle
    some ((bytes.drop (i * 6)).take 6)

def storeHna (m : HnaMem) (origNode : ℕ) (hnaRecvBuff : HnaRecvBuff) (hnaBuffLen : ℕ) : Option HnaMem := do
  let bytes ← m.read hnaRecvBuff
  let m : HnaMem :=
    { heap := m.heap.alloc (bytes.take hnaBuffLen)
      hnaBuff := Function.update m.hnaBuff origNode (some m.heap.next)
      hnaBuffLen := Function.update m.hnaBuffLen origNode hnaBuffLen }
  let _ ← m.hnaAddBuff origNode
  some m

/-- `memcmp` returns 0. -/
def sameBytes (m : HnaMem) (a b : HnaRecvBuff) (len : ℕ) : Option Bool := do
  let x ← m.read a
  let y ← m.read b
  some (decide (x.take len = y.take len))

def updateRoutes (m : HnaMem) (origNode : ℕ) (hnaRecvBuff : Option HnaRecvBuff) (hnaBuffLen : ℕ) :
    Option HnaMem :=
  match hnaRecvBuff, m.hnaBuff origNode with
  | none, none => some m
  | some recv, none => m.storeHna origNode recv hnaBuffLen
  | none, some _ => m.hnaDelBuff origNode
  | some recv, some handle => do
    let changed ←
      if hnaBuffLen ≠ m.hnaBuffLen origNode then some true
      else m.sameBytes recv (.stored handle) hnaBuffLen
    if changed then
      let m ← m.hnaDelBuff origNode
      m.storeHna origNode recv hnaBuffLen
    else some m

def freeOrigNode (m : HnaMem) (origNode : ℕ) : HnaMem :=
  { m with
    hnaBuff := Function.update m.hnaBuff origNode none
    hnaBuffLen := Function.update m.hnaBuffLen origNode 0 }

end HnaMem

/-! ## The calls of `update_routes` -/

inductive RouteCall
  /-- By `update_orig`. -/
  | receive (origNode : ℕ) (hnaRecvBuff : List Byte) (hnaBuffLen : ℕ)
  /-- By `purge_orig`, which then frees the entry. -/
  | expire (origNode : ℕ)
  /-- By `purge_orig`, with `hna_buff` and `hna_buff_len` of the entry. -/
  | reroute (origNode : ℕ)

def HnaMem.call (m : HnaMem) : RouteCall → Option HnaMem
  | .receive origNode recv len => m.updateRoutes origNode (some (.packet recv)) len
  | .expire origNode => (m.updateRoutes origNode none 0).map fun m => m.freeOrigNode origNode
  | .reroute origNode => m.updateRoutes origNode ((m.hnaBuff origNode).map .stored) (m.hnaBuffLen origNode)

def HnaMem.calls (m : HnaMem) (l : List RouteCall) : Option HnaMem := l.foldlM HnaMem.call m

namespace State

/-- The call in one round of the loop of `purge_orig`. -/
def roundCalls (s : State p) (g : Garbage p) (currTime : Time) (origNode : ℕ) : List RouteCall :=
  let o := s.origAt origNode
  if expired o.lastValid currTime then [.expire origNode]
  else if o.reroutes g currTime then [.reroute origNode]
  else []

/-- The calls in the loop, over the entries still to come. -/
def purgeCalls (s : State p) (g : Garbage p) (currTime gwTime : Time) : List ℕ → List RouteCall
  | [] => []
  | ptr :: ptrs =>
    s.roundCalls g currTime ptr ++ (s.purgeOrigNode g currTime gwTime ptr).purgeCalls g currTime gwTime ptrs

/-- The calls while an event is handled, in their order. -/
def routeCalls (s : State p) : Event p → List RouteCall
  | .ogm g rx =>
    if s.UpdatesOrig g rx then
      [.receive (s.counted g rx).origNode rx.hna (tmpHnaBuffLen rx.hna.length rx.pkt.numHna)]
    else []
  | .purge g currTime gwTime => s.purgeCalls g currTime gwTime (s.origs.map (·.ptr))
  | _ => []

end State

def hnaMem (tr : List (State p × Event p)) : Option HnaMem :=
  tr.foldlM (fun m x => m.calls (x.1.routeCalls x.2)) HnaMem.empty

/-! ## One call -/

namespace HnaMem

variable {m : HnaMem} {origNode handle : ℕ} {recv : HnaRecvBuff} {bytes : List Byte}

/-- What the other entries announce stays. -/
def SameBut (m m' : HnaMem) (origNode : ℕ) : Prop :=
  ∀ ptr, ptr ≠ origNode → m'.announced ptr = m.announced ptr ∧ m'.hnaBuffLen ptr = m.hnaBuffLen ptr

theorem announced_of_hnaBuff (h : m.hnaBuff origNode = some handle) :
    m.announced origNode = m.heap.chunk handle := by
  unfold announced Heap.at?
  rw [h]
  rfl

theorem announced_eq_none_iff (h : m.heap.Owned m.hnaBuff Set.univ) :
    m.announced origNode = none ↔ m.hnaBuff origNode = none := by
  cases hbuff : m.hnaBuff origNode with
  | none =>
    unfold announced Heap.at?
    rw [hbuff]
    exact iff_of_true rfl rfl
  | some handle =>
    obtain ⟨-, hvalid⟩ := h.valid origNode trivial handle hbuff
    rw [announced_of_hnaBuff hbuff]
    exact iff_of_false (Option.isSome_iff_ne_none.mp hvalid) (Option.some_ne_none _)

theorem hnaAddBuff_isSome (h : m.announced origNode = some bytes) : (m.hnaAddBuff origNode).isSome := by
  obtain ⟨handle, hbuff, hbytes⟩ := Option.bind_eq_some_iff.mp h
  unfold hnaAddBuff
  simp only [hbuff, hbytes, Option.bind_eq_bind, Option.bind_some]
  show ((List.range _).mapM (m := Option) fun i => pure ((bytes.drop (i * 6)).take 6)).isSome
  rw [List.mapM_pure]
  rfl

theorem storeHna_spec (h : m.heap.Owned m.hnaBuff (Set.univ \ {origNode})) (hread : m.read recv = some bytes) (len : ℕ) :
    ∃ m', m.storeHna origNode recv len = some m' ∧ m'.heap.Owned m'.hnaBuff Set.univ ∧
      m'.announced origNode = some (bytes.take len) ∧ m'.hnaBuffLen origNode = len ∧ m.SameBut m' origNode := by
  obtain ⟨howned, hself, hother⟩ := h.alloc (bytes.take len)
  unfold storeHna
  rw [hread]
  dsimp only [Option.bind_eq_bind, Option.bind_some]
  have hadd : (hnaAddBuff ⟨m.heap.alloc (bytes.take len), Function.update m.hnaBuff origNode (some m.heap.next),
      Function.update m.hnaBuffLen origNode len⟩ origNode).isSome :=
    hnaAddBuff_isSome hself
  obtain ⟨hosts, hhosts⟩ := Option.isSome_iff_exists.mp hadd
  rw [hhosts]
  exact ⟨_, rfl, howned, hself, Function.update_self .., fun ptr hne =>
    ⟨hother ptr trivial hne, Function.update_of_ne hne _ _⟩⟩

theorem hnaDelBuff_spec (h : m.heap.Owned m.hnaBuff Set.univ) (hbuff : m.hnaBuff origNode = some handle) :
    ∃ m', m.hnaDelBuff origNode = some m' ∧ m'.heap.Owned m'.hnaBuff (Set.univ \ {origNode}) ∧
      m'.heap.chunk handle = none ∧ m.SameBut m' origNode := by
  obtain ⟨heap, hfree, howned, hother⟩ := h.free (Set.mem_univ origNode) hbuff
  have hchunk : heap.chunk handle = none := by
    rw [Heap.free_of_isSome (h.valid origNode trivial handle hbuff).2] at hfree
    rw [← Option.some.inj hfree]
    exact Function.update_self ..
  unfold hnaDelBuff
  rw [hbuff]
  dsimp only [Option.bind_eq_bind, Option.bind_some]
  rw [hfree]
  exact ⟨_, rfl, howned, hchunk, fun ptr hne => ⟨hother ptr trivial hne, Function.update_of_ne hne _ _⟩⟩

/-- `update_orig` uses valid handles, and the entry holds what it is to hold. -/
theorem receive_spec (h : m.heap.Owned m.hnaBuff Set.univ) (origNode : ℕ) (recv : List Byte) (len : ℕ) :
    ∃ m', m.call (.receive origNode recv len) = some m' ∧ m'.heap.Owned m'.hnaBuff Set.univ ∧
      (m'.announced origNode, m'.hnaBuffLen origNode) =
        hnaAfter (m.announced origNode) (m.hnaBuffLen origNode) recv len ∧ m.SameBut m' origNode := by
  have hpacket : ∀ m : HnaMem, m.read (.packet recv) = some recv := fun _ => rfl
  show ∃ m', m.updateRoutes origNode (some (.packet recv)) len = some m' ∧ _
  unfold updateRoutes hnaAfter
  cases hbuff : m.hnaBuff origNode with
  | none =>
    obtain ⟨m', hstore, howned, hself, hlen, hother⟩ := storeHna_spec
      (h.congr (Set.subset_univ (Set.univ \ {origNode})) fun _ _ => .inl rfl) (hpacket m) len
    rw [(announced_eq_none_iff h).mpr hbuff]
    exact ⟨m', hstore, howned, Prod.ext hself hlen, hother⟩
  | some handle =>
    obtain ⟨buff, hchunk⟩ := Option.isSome_iff_exists.mp (h.valid origNode trivial handle hbuff).2
    have hann : m.announced origNode = some buff := (announced_of_hnaBuff hbuff).trans hchunk
    have hsame : m.sameBytes (.packet recv) (.stored handle) len = some (decide (recv.take len = buff.take len)) := by
      show (m.heap.chunk handle).bind _ = _
      rw [hchunk]
      rfl
    -- the old buffer is freed and a new one filled
    obtain ⟨m₁, hdel, howned₁, -, hother₁⟩ := hnaDelBuff_spec h hbuff
    obtain ⟨m₂, hstore, howned₂, hself, hlen, hother₂⟩ :=
      storeHna_spec howned₁ (hpacket m₁) len
    have hboth : m.SameBut m₂ origNode := fun ptr hne =>
      ⟨(hother₂ ptr hne).1.trans (hother₁ ptr hne).1, (hother₂ ptr hne).2.trans (hother₁ ptr hne).2⟩
    rw [hann]
    dsimp only [Option.bind_eq_bind, Option.bind_some]
    by_cases hne : len ≠ m.hnaBuffLen origNode
    · have hchanged : len ≠ m.hnaBuffLen origNode ∨ recv.take len = buff.take len := .inl hne
      rw [if_pos hne, if_pos hchanged, if_pos rfl, hdel, Option.bind_some]
      exact ⟨m₂, hstore, howned₂, Prod.ext hself hlen, hboth⟩
    · rw [if_neg hne, hsame, Option.bind_some]
      by_cases heq : recv.take len = buff.take len
      · have hchanged : len ≠ m.hnaBuffLen origNode ∨ recv.take len = buff.take len := .inr heq
        rw [if_pos (decide_eq_true heq), if_pos hchanged, hdel, Option.bind_some]
        exact ⟨m₂, hstore, howned₂, Prod.ext hself hlen, hboth⟩
      · have hkept : ¬ (len ≠ m.hnaBuffLen origNode ∨ recv.take len = buff.take len) := not_or.mpr ⟨hne, heq⟩
        rw [if_neg (by simpa using heq), if_neg hkept]
        exact ⟨m, rfl, h, Prod.ext hann rfl, fun _ _ => ⟨rfl, rfl⟩⟩

/-- So does `purge_orig` for an entry it frees. -/
theorem expire_spec (h : m.heap.Owned m.hnaBuff Set.univ) (origNode : ℕ) :
    ∃ m', m.call (.expire origNode) = some m' ∧ m'.heap.Owned m'.hnaBuff Set.univ ∧ m.SameBut m' origNode := by
  show ∃ m', (m.updateRoutes origNode none 0).map _ = some m' ∧ _
  unfold updateRoutes
  have hforget : ∀ m₁ : HnaMem, m₁.heap.Owned m₁.hnaBuff (Set.univ \ {origNode}) →
      (m₁.freeOrigNode origNode).heap.Owned (m₁.freeOrigNode origNode).hnaBuff Set.univ ∧
        m₁.SameBut (m₁.freeOrigNode origNode) origNode := by
    intro m₁ h₁
    have hself : (m₁.freeOrigNode origNode).hnaBuff origNode = none := Function.update_self ..
    have hother : ∀ ptr, ptr ≠ origNode → (m₁.freeOrigNode origNode).hnaBuff ptr = m₁.hnaBuff ptr :=
      fun ptr hne => Function.update_of_ne hne _ _
    have hne : ∀ ptr handle, (m₁.freeOrigNode origNode).hnaBuff ptr = some handle → ptr ≠ origNode := by
      rintro ptr handle hptr rfl
      rw [hself] at hptr
      cases hptr
    refine ⟨⟨fun i _ a ha => ?_, fun i _ j _ a ha hb => ?_⟩, fun ptr hptr => ⟨?_, Function.update_of_ne hptr _ _⟩⟩
    · exact h₁.valid i ⟨trivial, hne i a ha⟩ a (hother i (hne i a ha) ▸ ha)
    · exact h₁.unshared i ⟨trivial, hne i a ha⟩ j ⟨trivial, hne j a hb⟩ a (hother i (hne i a ha) ▸ ha)
        (hother j (hne j a hb) ▸ hb)
    · show ((m₁.freeOrigNode origNode).hnaBuff ptr).bind _ = _
      rw [hother ptr hptr]
      rfl
  cases hbuff : m.hnaBuff origNode with
  | none =>
    obtain ⟨howned, hother⟩ := hforget m (h.congr (Set.subset_univ _) fun _ _ => .inl rfl)
    exact ⟨_, rfl, howned, hother⟩
  | some handle =>
    obtain ⟨m₁, hdel, howned₁, -, hother₁⟩ := hnaDelBuff_spec h hbuff
    obtain ⟨howned, hother⟩ := hforget m₁ howned₁
    dsimp only
    rw [hdel]
    exact ⟨_, rfl, howned, fun ptr hne =>
      ⟨(hother ptr hne).1.trans (hother₁ ptr hne).1, (hother ptr hne).2.trans (hother₁ ptr hne).2⟩⟩

theorem reroute_of_none (hbuff : m.hnaBuff origNode = none) : m.call (.reroute origNode) = some m := by
  show m.updateRoutes origNode ((m.hnaBuff origNode).map .stored) (m.hnaBuffLen origNode) = some m
  unfold updateRoutes
  rw [hbuff]
  rfl

/-- The buffer compared with itself is the same, so it is freed, and then copied. -/
theorem reroute_of_some (h : m.heap.Owned m.hnaBuff Set.univ) (hbuff : m.hnaBuff origNode = some handle) :
    m.call (.reroute origNode) = none := by
  obtain ⟨m₁, hdel, -, hchunk, -⟩ := hnaDelBuff_spec h hbuff
  obtain ⟨buff, hread⟩ := Option.isSome_iff_exists.mp (h.valid origNode trivial handle hbuff).2
  have hsame : m.sameBytes (.stored handle) (.stored handle) (m.hnaBuffLen origNode) = some true := by
    show (m.heap.chunk handle).bind (fun x => (m.heap.chunk handle).bind fun y => some (decide (_ = _))) = _
    rw [hread, Option.bind_some, Option.bind_some, decide_eq_true rfl]
  have hcopy : m₁.storeHna origNode (.stored handle) (m.hnaBuffLen origNode) = none := by
    show (m₁.heap.chunk handle).bind _ = none
    rw [hchunk]
    rfl
  show m.updateRoutes origNode ((m.hnaBuff origNode).map .stored) (m.hnaBuffLen origNode) = none
  unfold updateRoutes
  rw [hbuff]
  dsimp only [Option.map_some, Option.bind_eq_bind]
  rw [if_neg (not_not.mpr rfl), hsame, Option.bind_some, if_pos rfl, hdel, Option.bind_some, hcopy]

/-! ## The buffers and the table -/

/-- Each entry announces what is found at its `hna_buff`. -/
structure Holds (m : HnaMem) (s : State p) : Prop where
  owned : m.heap.Owned m.hnaBuff Set.univ
  entry : ∀ o ∈ s.origs, m.announced o.ptr = o.hnaBuff ∧ m.hnaBuffLen o.ptr = o.hnaBuffLen
  unused : ∀ ptr, s.nextPtr ≤ ptr → m.announced ptr = none ∧ m.hnaBuffLen ptr = 0

variable {s s' t : State p} {g : Garbage p} {currTime gwTime : Time} {o : OrigNode p}

theorem holds_empty {s : State p} (hempty : s.origs = []) : HnaMem.empty.Holds s where
  owned := Heap.Owned.empty _
  entry o ho := by
    rw [hempty] at ho
    cases ho
  unused _ _ := ⟨rfl, rfl⟩

namespace Holds

theorem calm (h : m.Holds s) (hcalm : s.Calm s') : m.Holds s' where
  owned := h.owned
  entry o' ho' := by
    obtain ⟨o, ho, hsame⟩ | hfresh := hcalm.old_or_fresh o' ho'
    · obtain ⟨hbuff, hlen⟩ := h.entry o ho
      rw [hsame.ptr, hsame.hnaBuff, hsame.hnaBuffLen]
      exact ⟨hbuff, hlen⟩
    · rw [hfresh.hnaBuff, hfresh.hnaBuffLen]
      exact h.unused o'.ptr hfresh.ptr
  unused ptr hptr := h.unused ptr (hcalm.nextPtr.trans hptr)

theorem write {m' : HnaMem} (h : m.Holds s) (howned : m'.heap.Owned m'.hnaBuff Set.univ)
    (hother : m.SameBut m' origNode) (hptr : s'.nextPtr = s.nextPtr) (hlt : origNode < s.nextPtr)
    (hentry : ∀ y ∈ s'.origs, (y.ptr = origNode → m'.announced origNode = y.hnaBuff ∧
        m'.hnaBuffLen origNode = y.hnaBuffLen) ∧
      (y.ptr ≠ origNode → ∃ x ∈ s.origs, x.SameClaims y)) : m'.Holds s' where
  owned := howned
  entry y hy := by
    obtain ⟨hself, hold⟩ := hentry y hy
    by_cases heq : y.ptr = origNode
    · rw [heq]
      exact hself heq
    · obtain ⟨x, hx, hsame⟩ := hold heq
      obtain ⟨hbuff, hlen⟩ := hother y.ptr heq
      rw [hbuff, hlen, hsame.ptr, hsame.hnaBuff, hsame.hnaBuffLen]
      exact h.entry x hx
  unused ptr hle := by
    rw [hptr] at hle
    obtain ⟨hbuff, hlen⟩ := hother ptr (hlt.trans_le hle).ne'
    rw [hbuff, hlen]
    exact h.unused ptr hle

end Holds

theorem Holds.receive (h : m.Holds t) (ht : t.Table) (ho : o ∈ t.origs) (best : Option (NeighNode p)) (rx : Ogm) :
    ∃ m', m.call (.receive o.ptr rx.hna (tmpHnaBuffLen rx.hna.length rx.pkt.numHna)) = some m' ∧
      m'.Holds (t.endUpdate o.ptr best rx) := by
  obtain ⟨m', hcall, howned, hself, hother⟩ := receive_spec h.owned o.ptr rx.hna
    (tmpHnaBuffLen rx.hna.length rx.pkt.numHna)
  obtain ⟨hbuff, hbuffLen⟩ := h.entry o ho
  have hends := ht.ends ho best rx
  obtain ⟨y₀, hy₀, hptr₀, -, -, hafter⟩ := hends.self
  rw [hbuff, hbuffLen, ← hafter] at hself
  refine ⟨m', hcall, h.write howned hother hends.nextPtr (ht.ptr_lt o ho) fun y hy => ⟨fun hptr => ?_, fun hne => ?_⟩⟩
  · obtain rfl := hends.table.eq_of_ptr hy hy₀ (hptr.trans hptr₀.symm)
    exact ⟨congrArg Prod.fst hself, congrArg Prod.snd hself⟩
  · exact ⟨y, (hends.other y hne).mp hy, .refl y⟩

/-! ## A purge -/

theorem calls_append (m : HnaMem) (a b : List RouteCall) :
    m.calls (a ++ b) = (m.calls a).bind fun m => m.calls b := List.foldlM_append

theorem calls_singleton (m : HnaMem) (c : RouteCall) : m.calls [c] = m.call c := by
  show (m.call c).bind some = m.call c
  cases m.call c <;> rfl

end HnaMem

/-- `purge_orig` calls `update_routes` for this entry with the announcement stored in it. -/
def OrigNode.ReroutesStored (g : Garbage p) (currTime : Time) (o : OrigNode p) : Prop :=
  expired o.lastValid currTime = false ∧ o.reroutes g currTime = true ∧ o.hnaBuff.isSome = true

instance (g : Garbage p) (currTime : Time) (o : OrigNode p) : Decidable (o.ReroutesStored g currTime) :=
  inferInstanceAs (Decidable (_ ∧ _ ∧ _))

namespace HnaMem

variable {m : HnaMem} {s : State p} {g : Garbage p} {currTime gwTime : Time} {o : OrigNode p}

theorem roundCalls_of_mem (hs : s.Table) (ho : o ∈ s.origs) :
    s.roundCalls g currTime o.ptr = if expired o.lastValid currTime then [.expire o.ptr]
      else if o.reroutes g currTime then [.reroute o.ptr] else [] := by
  unfold State.roundCalls
  rw [hs.origAt_of_mem ho]

/-- One round of the loop: the buffers of the other entries stay, and of this one where it does. -/
theorem Holds.round (h : m.Holds s) (hs : s.Table) (ho : o ∈ s.origs) (gwTime : Time)
    (hok : ¬ o.ReroutesStored g currTime) :
    ∃ m', m.calls (s.roundCalls g currTime o.ptr) = some m' ∧
      m'.Holds (s.purgeOrigNode g currTime gwTime o.ptr) ∧
      ∀ ptr, (ptr = o.ptr → expired o.lastValid currTime = false) → m'.announced ptr = m.announced ptr := by
  rw [roundCalls_of_mem hs ho]
  unfold State.purgeOrigNode
  rw [hs.origAt_of_mem ho]
  by_cases hexp : expired o.lastValid currTime = true
  · rw [if_pos hexp, if_pos hexp, calls_singleton]
    obtain ⟨m', hcall, howned, hother⟩ := expire_spec h.owned o.ptr
    obtain ⟨htable, hperm⟩ := hs.purgeExpired gwTime ho
    have hdistinct := (hperm.pairwise_iff fun hne => hne.symm).mp hs.distinct
    refine ⟨m', hcall, h.write howned hother rfl (hs.ptr_lt o ho) fun y hy => ?_, fun ptr hptr => ?_⟩
    · refine ⟨fun heq => absurd heq.symm ((List.pairwise_cons.mp hdistinct).1 y hy), fun _ => ?_⟩
      exact ⟨y, hperm.mem_iff.mpr (List.mem_cons_of_mem _ hy), .refl y⟩
    · exact (hother ptr fun heq => by rw [hptr heq] at hexp; cases hexp).1
  · rw [if_neg hexp, if_neg hexp]
    have hkept : expired o.lastValid currTime = false := by simpa using hexp
    -- either nothing is called, or nothing is stored
    have hquiet : o.reroutes g currTime = false ∨ o.hnaBuff = none := by
      by_contra hboth
      rw [not_or] at hboth
      exact hok ⟨hkept, by simpa using hboth.1, Option.isSome_iff_ne_none.mpr hboth.2⟩
    refine ⟨m, ?_, h.calm (.purgeNeighbors hs ho hquiet), fun _ _ => rfl⟩
    by_cases hr : o.reroutes g currTime = true
    · have hnone : o.hnaBuff = none := hquiet.resolve_left (by simp [hr])
      rw [if_pos hr, calls_singleton]
      exact reroute_of_none ((announced_eq_none_iff h.owned).mp ((h.entry o ho).1.trans hnone))
    · rw [if_neg hr]
      rfl

theorem Holds.round_stored (h : m.Holds s) (hs : s.Table) (ho : o ∈ s.origs) (hbad : o.ReroutesStored g currTime) :
    m.calls (s.roundCalls g currTime o.ptr) = none := by
  obtain ⟨hkept, hr, hstored⟩ := hbad
  rw [roundCalls_of_mem hs ho, if_neg (by simp [hkept]), if_pos hr, calls_singleton]
  have hbuff : m.hnaBuff o.ptr ≠ none := by
    rw [Ne, ← announced_eq_none_iff h.owned, (h.entry o ho).1]
    exact Option.isSome_iff_ne_none.mp hstored
  obtain ⟨handle, hhandle⟩ := Option.ne_none_iff_exists'.mp hbuff
  exact reroute_of_some h.owned hhandle

theorem Holds.purge (h : m.Holds s) (hs : s.Table) (gwTime : Time) (l : List ℕ) (hnodup : l.Nodup)
    (hlive : ∀ ptr ∈ l, ∃ o ∈ s.origs, o.ptr = ptr) :
    ((∀ o ∈ s.origs, o.ptr ∈ l → ¬ o.ReroutesStored g currTime) →
      ∃ m', m.calls (s.purgeCalls g currTime gwTime l) = some m' ∧
        m'.Holds (l.foldl (fun s ptr => s.purgeOrigNode g currTime gwTime ptr) s) ∧
        ∀ ptr, (ptr ∈ l → ¬ s.Expires currTime ptr) → m'.announced ptr = m.announced ptr) ∧
      ((∃ o ∈ s.origs, o.ptr ∈ l ∧ o.ReroutesStored g currTime) →
        m.calls (s.purgeCalls g currTime gwTime l) = none) := by
  induction l generalizing s m with
  | nil =>
    refine ⟨fun _ => ⟨m, rfl, h, fun _ _ => rfl⟩, ?_⟩
    rintro ⟨o, -, hin, -⟩
    cases hin
  | cons ptr l ih =>
    obtain ⟨hnot, hnodup'⟩ := List.nodup_cons.mp hnodup
    obtain ⟨o, ho, rfl⟩ := hlive ptr List.mem_cons_self
    show (_ → ∃ m', m.calls (s.roundCalls g currTime o.ptr ++ _) = some m' ∧ _) ∧
      (_ → m.calls (s.roundCalls g currTime o.ptr ++ _) = none)
    rw [calls_append]
    by_cases hbad : o.ReroutesStored g currTime
    · rw [h.round_stored hs ho hbad]
      exact ⟨fun hok => absurd hbad (hok o ho List.mem_cons_self), fun _ => rfl⟩
    · obtain ⟨m₁, hcalls, hholds, hsame⟩ := h.round hs ho gwTime hbad
      rw [hcalls, Option.bind_some]
      obtain ⟨hkeeps, -⟩ := hs.purgeOrigNode g currTime gwTime ho
      -- an entry still to come is as it was
      have hother : ∀ y ∈ s.origs, y.ptr ∈ l → y ∈ (s.purgeOrigNode g currTime gwTime o.ptr).origs :=
        fun y hy hin => State.mem_purgeOrigNode_of_ne hs ho hy fun heq => hnot (heq ▸ hin)
      have hback : ∀ y ∈ (s.purgeOrigNode g currTime gwTime o.ptr).origs, y.ptr ∈ l → y ∈ s.origs := by
        intro y hy hin
        obtain ⟨x, hx, hxptr⟩ := hlive y.ptr (List.mem_cons_of_mem _ hin)
        have hx' := hother x hx (hxptr ▸ hin)
        exact hkeeps.table.eq_of_ptr hx' hy hxptr ▸ hx
      obtain ⟨hgood, hstored⟩ := ih hholds hkeeps.table hnodup' fun ptr hptr => by
        obtain ⟨y, hy, rfl⟩ := hlive ptr (List.mem_cons_of_mem _ hptr)
        exact ⟨y, hother y hy hptr, rfl⟩
      constructor
      · intro hok
        obtain ⟨m', hcalls', hholds', hsame'⟩ := hgood fun y hy hin =>
          hok y (hback y hy hin) (List.mem_cons_of_mem _ hin)
        refine ⟨m', hcalls', hholds', fun ptr hptr => ?_⟩
        rw [hsame' ptr, hsame ptr]
        · rintro rfl
          by_contra hexp
          exact hptr List.mem_cons_self ⟨o, ho, rfl, by simpa using hexp⟩
        · rintro hin ⟨y, hy, rfl, hexp⟩
          exact hptr (List.mem_cons_of_mem _ hin) ⟨y, hback y hy hin, rfl, hexp⟩
      · rintro ⟨y, hy, hin, hybad⟩
        obtain heq | hin := List.mem_cons.mp hin
        · exact absurd (hs.eq_of_ptr hy ho heq ▸ hybad) hbad
        · exact hstored ⟨y, hother y hy hin, hin, hybad⟩

end HnaMem

/-! ## Runs -/

/-- In this step `purge_orig` calls `update_routes` with an announcement that is stored. -/
def State.ReroutesStored (s : State p) : Event p → Prop
  | .purge g currTime _ => ∃ o ∈ s.origs, o.ReroutesStored g currTime
  | _ => False

instance (s : State p) : (e : Event p) → Decidable (s.ReroutesStored e)
  | .purge g currTime _ => inferInstanceAs (Decidable (∃ o ∈ s.origs, o.ReroutesStored g currTime))
  | .ogm _ _ => .isFalse id
  | .bcast _ _ => .isFalse id
  | .tap _ _ => .isFalse id
  | .clock _ => .isFalse id
  | .hnaUpdate => .isFalse id
  | .sendBegin _ => .isFalse id
  | .sendNext _ _ => .isFalse id

/-- The step keeps what is stored for the entries a purge keeps. -/
def HnaMem.KeepsStored (m m' : HnaMem) (s : State p) : Event p → Prop
  | .purge _ currTime _ => ∀ o ∈ s.origs, expired o.lastValid currTime = false → m'.announced o.ptr = m.announced o.ptr
  | _ => True

/-- Only handles that are valid are read, copied or freed along the run, and no purge changes the bytes
stored for an entry it keeps. -/
structure HnaSafe (tr : List (State p × Event p)) : Prop where
  valid : (hnaMem tr).isSome
  keeps : ∀ pre x post, tr = pre ++ x :: post → ∀ m m', hnaMem pre = some m →
    hnaMem (pre ++ [x]) = some m' → m.KeepsStored m' x.1 x.2

variable {s s' : State p} {m m' : HnaMem} {tr : List (State p × Event p)}

theorem HnaMem.Holds.step (h : m.Holds s) (hs : s.Wf) {e : Event p} (hstep : step s e = some s') :
    (¬ s.ReroutesStored e → ∃ m', m.calls (s.routeCalls e) = some m' ∧ m'.Holds s' ∧ m.KeepsStored m' s e) ∧
      (s.ReroutesStored e → m.calls (s.routeCalls e) = none) := by
  obtain ⟨g, rx, rfl, rfl⟩ | ⟨g, currTime, gwTime, rfl, rfl⟩ | ⟨hother, hcalm⟩ := step_calm hs hstep
  · refine ⟨fun _ => ?_, fun hbad => hbad.elim⟩
    obtain ⟨hcalm, hupdate⟩ := s.batmanOgm_calm hs g rx
    show ∃ m', m.calls (if s.UpdatesOrig g rx then _ else []) = some m' ∧ _
    by_cases hcall : s.UpdatesOrig g rx
    · obtain ⟨t, o, best, hbefore, ho, hptr, -, hafter⟩ := hupdate hcall
      obtain ⟨m', hreceive, hholds⟩ := (h.calm hbefore).receive hbefore.table ho best rx
      rw [if_pos hcall, HnaMem.calls_singleton, ← hptr]
      exact ⟨m', hreceive, hholds.calm hafter, trivial⟩
    · rw [if_neg hcall]
      exact ⟨m, rfl, h.calm (hcalm hcall), trivial⟩
  · obtain ⟨hgood, hstored⟩ := h.purge (g := g) hs.table gwTime (s.origs.map (·.ptr))
      (List.pairwise_map.mpr hs.table.distinct) fun ptr hptr => List.mem_map.mp hptr
    constructor
    · intro hok
      obtain ⟨m', hcalls, hholds, hsame⟩ := hgood fun o ho _ hbad => hok ⟨o, ho, hbad⟩
      refine ⟨m', hcalls, ⟨hholds.owned, hholds.entry, hholds.unused⟩, fun o ho hkept => hsame o.ptr ?_⟩
      rintro - ⟨x, hx, hxptr, hexp⟩
      rw [hs.eq_of_ptr hx ho hxptr, hkept] at hexp
      cases hexp
    · rintro ⟨o, ho, hbad⟩
      exact hstored ⟨o, ho, List.mem_map_of_mem ho, hbad⟩
  · -- `update_routes` is not called
    have hnone : s.routeCalls e = [] ∧ ¬ s.ReroutesStored e ∧ m.KeepsStored m s e := by
      cases e with
      | ogm g rx => cases hother
      | purge g currTime gwTime => cases hother
      | _ => exact ⟨rfl, id, trivial⟩
    obtain ⟨hcalls, hno, hkeeps⟩ := hnone
    rw [hcalls]
    exact ⟨fun _ => ⟨m, rfl, h.calm hcalm, hkeeps⟩, fun hbad => absurd hbad hno⟩

theorem hnaMem_snoc (tr : List (State p × Event p)) (x : State p × Event p) :
    hnaMem (tr ++ [x]) = (hnaMem tr).bind fun m => m.calls (x.1.routeCalls x.2) := by
  unfold hnaMem
  rw [List.foldlM_append]
  cases tr.foldlM (fun m x => m.calls (x.1.routeCalls x.2)) HnaMem.empty with
  | none => rfl
  | some m =>
    show (m.calls _).bind some = m.calls _
    cases m.calls (x.1.routeCalls x.2) <;> rfl

/-- Up to the first reroute of something stored the buffers are those of the table; behind it there are none. -/
theorem Run.hnaMem {cfg : Config} (h : Run p cfg tr s) :
    ((∀ x ∈ tr, ¬ x.1.ReroutesStored x.2) → ∃ m, BatmanAdv.hnaMem tr = some m ∧ m.Holds s) ∧
      ((∃ x ∈ tr, x.1.ReroutesStored x.2) → BatmanAdv.hnaMem tr = none) := by
  induction h with
  | nil =>
    refine ⟨fun _ => ⟨HnaMem.empty, rfl, HnaMem.holds_empty (cfg.origs_boot p).1⟩, ?_⟩
    rintro ⟨x, hx, -⟩
    cases hx
  | @snoc tr t e u run hstep ih =>
    obtain ⟨hgood, hstored⟩ := ih
    rw [hnaMem_snoc]
    constructor
    · intro hok
      obtain ⟨m, hm, hholds⟩ := hgood fun x hx => hok x (List.mem_append_left _ hx)
      obtain ⟨m', hcalls, hholds', -⟩ := (hholds.step (Run.wf run) hstep).1 (hok (t, e) (by simp))
      rw [hm]
      exact ⟨m', hcalls, hholds'⟩
    · rintro ⟨x, hx, hbad⟩
      by_cases hbefore : ∃ x ∈ tr, x.1.ReroutesStored x.2
      · rw [hstored hbefore]
        rfl
      · have hlast : t.ReroutesStored e := by
          obtain hx | hx := List.mem_append.mp hx
          · exact absurd ⟨x, hx, hbad⟩ hbefore
          · rw [List.mem_singleton.mp hx] at hbad
            exact hbad
        obtain ⟨m, hm, hholds⟩ := hgood fun x hx hbad => hbefore ⟨x, hx, hbad⟩
        rw [hm]
        exact (hholds.step (Run.wf run) hstep).2 hlast

/-- **HNA buffers.** Along a run only valid handles are used and every purge keeps the stored bytes, exactly
where no purge calls `update_routes` for an entry that has an announcement stored. -/
theorem hna_buffers_iff {cfg : Config} (h : Run p cfg tr s) :
    HnaSafe tr ↔ ∀ x ∈ tr, ¬ x.1.ReroutesStored x.2 := by
  constructor
  · intro hsafe x hx hbad
    have hvalid := hsafe.valid
    rw [(Run.hnaMem h).2 ⟨x, hx, hbad⟩] at hvalid
    cases hvalid
  · intro hok
    obtain ⟨m, hm, -⟩ := (Run.hnaMem h).1 hok
    refine ⟨hm ▸ rfl, ?_⟩
    rintro pre x post rfl m m' hm hm'
    obtain ⟨hpre, u, hstep, -⟩ := h.split
    obtain ⟨m₀, hm₀, hholds⟩ := (Run.hnaMem hpre).1 fun y hy => hok y (List.mem_append_left _ hy)
    obtain rfl := Option.some.inj (hm₀.symm.trans hm)
    obtain ⟨m₁, hcalls, -, hkeeps⟩ := (hholds.step (Run.wf hpre) hstep).1 (hok x (by simp))
    rw [hnaMem_snoc, hm₀, Option.bind_some, hcalls] at hm'
    exact Option.some.inj hm' ▸ hkeeps

/-- `A` announces a host and is purged. -/
theorem hna_buffers_expired : ∃ tr s, Run Net.p64 Net.cfg tr s ∧ tr.map Prod.snd = Net.linkUp Net.p64 ++
    [.ogm (Net.zeros Net.p64) (Net.announcing Net.macC 3 1400), .purge (Net.zeros Net.p64) 300000 300000] ∧
      HnaSafe tr := by
  obtain ⟨tr, s, hrun, hevents, hcheck⟩ := Run.of_exec Net.cfg (Net.linkUp Net.p64 ++
    [.ogm (Net.zeros Net.p64) (Net.announcing Net.macC 3 1400), .purge (Net.zeros Net.p64) 300000 300000])
    (fun tr _ => decide (∀ x ∈ tr, ¬ x.1.ReroutesStored x.2)) (by decide +kernel)
  exact ⟨tr, s, hrun, hevents, (hna_buffers_iff hrun).mpr (of_decide_eq_true hcheck)⟩

/-- `A` is heard over both interfaces and announces a host over the second one; the link over the first one
expires, and the purge reroutes `A`. -/
def Net.reannounced : List (Event Net.p64) :=
  Net.linkUp Net.p64 ++
    [.ogm (Net.zeros Net.p64) (Net.echo Net.macA Net.me1 1 1 250000),
      .ogm (Net.zeros Net.p64) (Net.ogm Net.macA Net.macA 1 3 250000),
      .ogm (Net.zeros Net.p64) { Net.announcing Net.macC 4 250100 with ifIncoming := 1 },
      .purge (Net.zeros Net.p64) 250200 250200]

theorem hna_buffers_reused : ∃ tr s, Run Net.p64 Net.cfg tr s ∧ tr.map Prod.snd = Net.reannounced ∧
    ¬ HnaSafe tr := by
  obtain ⟨tr, s, hrun, hevents, hnone⟩ := Run.of_exec Net.cfg Net.reannounced
    (fun tr _ => (hnaMem tr).isNone) (by decide +kernel)
  refine ⟨tr, s, hrun, hevents, fun hsafe => ?_⟩
  have hvalid := hsafe.valid
  rw [Option.isNone_iff_eq_none.mp hnone] at hvalid
  cases hvalid

end BatmanAdv
