import BatmanAdv.Batman
import Mathlib.Logic.Relation

/-!
# The writes of `batman()`

What `batman()` does to the state for one OGM is a sequence of single writes. `Move` lists them with
what is known when each is made, so that an invariant is checked against every write once, and not
against the code that makes them.
-/

namespace BatmanAdv

variable {p : Platform}

/-! ## What the functions leave alone -/

/-- `a` differs from `b` in its rank at most: its ring, its average, its ttl and its time. -/
structure NeighNode.SameLink (a b : NeighNode p) : Prop where
  ptr : a.ptr = b.ptr
  addr : a.addr = b.addr
  ifIncoming : a.ifIncoming = b.ifIncoming
  origNode : a.origNode = b.origNode
  realBits : a.realBits = b.realBits
  realPacketCount : a.realPacketCount = b.realPacketCount

theorem NeighNode.SameLink.refl (n : NeighNode p) : n.SameLink n := ⟨rfl, rfl, rfl, rfl, rfl, rfl⟩

theorem NeighNode.sameLink_pushTq (n : NeighNode p) (value : Byte) : (n.pushTq value).SameLink n :=
  ⟨rfl, rfl, rfl, rfl, rfl, rfl⟩

theorem NeighNode.sameLink_touch (n : NeighNode p) (t : Time) : (n.touch t).SameLink n :=
  ⟨rfl, rfl, rfl, rfl, rfl, rfl⟩

theorem NeighNode.sameLink_receive (n : NeighNode p) (pkt : BatmanPacket) (dup : Bool) (t : Time) :
    (n.receive pkt dup t).SameLink n := by
  unfold NeighNode.receive
  cases dup <;> exact ⟨rfl, rfl, rfl, rfl, rfl, rfl⟩

theorem NeighNode.SameLink.ite {a b n : NeighNode p} (ha : a.SameLink n) (hb : b.SameLink n)
    (c : Prop) [Decidable c] : (if c then a else b).SameLink n := by
  split_ifs
  · exact ha
  · exact hb

theorem OrigNode.Wf.mapSameLink {next : ℕ} {o o' : OrigNode p} (h : o.Wf next)
    {f : NeighNode p → NeighNode p} (hptr : o'.ptr = o.ptr)
    (hlist : o'.neighList = o.neighList.map f) (hf : ∀ n, (f n).SameLink n) : o'.Wf next :=
  h.mapNeigh hptr hlist (fun n => (hf n).ptr) (fun n => (hf n).addr) (fun n => (hf n).ifIncoming)
    fun n hn => (hf n).realPacketCount ▸ hn

/-! ### Neighbour lists -/

theorem OrigNode.neighList_modNeigh (o : OrigNode p) (ptr : ℕ) (f : NeighNode p → NeighNode p) :
    (o.modNeigh ptr f).neighList = o.neighList.map fun n => if n.ptr = ptr then f n else n := rfl

theorem OrigNode.neighList_receive (o : OrigNode p) (ptr : ℕ) (pkt : BatmanPacket) (dup : Bool)
    (t : Time) : (o.receive ptr pkt dup t).neighList =
      o.neighList.map fun n => if n.ptr = ptr then n.receive pkt dup t else n := rfl

theorem OrigNode.neighList_pushZero (o : OrigNode p) (neigh : Mac) (ifIncoming : ℕ) (dup : Bool) :
    (o.pushZero neigh ifIncoming dup).neighList =
      o.neighList.map fun n => if n.isVia neigh ifIncoming || dup then n else n.pushTq 0 := rfl

/-! ## The writes -/

/-- A write that leaves the reception windows and the queue alone. -/
inductive Write (rx : Ogm) : State p → State p → Prop
  | clock (s : State p) : Write rx s { s with currTime := rx.rcvdTime }
  | create (s : State p) (addr : Mac) (hforeign : addr ∉ s.hwAddrs) :
      Write rx s (s.getOrigNode addr).1
  | own (s : State p) (ptr : ℕ) (b : OrigNode p → ℕ → p.SeqBits) (c : OrigNode p → ℕ → Byte)
      (hown : rx.pkt.orig ∈ s.hwAddrs) :
      Write rx s (s.modOrig ptr fun o => { o with bcastOwn := b o, bcastOwnSum := c o })
  | neighbor (s : State p) (origNode origNeighNode : ℕ) (hneigh : s.At origNeighNode rx.neigh)
      (hat : s.At origNode rx.pkt.orig ∨ s.At origNode rx.neigh)
      (hnone : (s.origAt origNode).neighVia rx.neigh rx.ifIncoming = none) :
      Write rx s (s.createNeighbor origNode origNeighNode rx.neigh rx.ifIncoming).1
  | valid (s : State p) (ptr neigh : ℕ) :
      Write rx s (s.modOrig ptr (·.modNeigh neigh (·.touch rx.rcvdTime)))
  | entry (s : State p) (ptr : ℕ) (f : OrigNode p → Time × Byte × ℤ × Byte) :
      Write rx s
        (s.modOrig ptr fun o =>
          { o with
            lastValid := (f o).1
            tqOwn := (f o).2.1
            tqAsymPenalty := (f o).2.2.1
            gwflags := (f o).2.2.2 })
  | pushZero (s : State p) (ptr : ℕ) (isDuplicate : Bool) (hat : s.At ptr rx.pkt.orig) :
      Write rx s (s.modOrig ptr (·.pushZero rx.neigh rx.ifIncoming isDuplicate))
  | receive (s : State p) (ptr : ℕ) (hat : s.At ptr rx.pkt.orig) (neigh : ℕ) (pkt : BatmanPacket)
      (htq : pkt.tq.toNat ≤ rx.pkt.tq.toNat) (httl : pkt.ttl = rx.pkt.ttl) (isDuplicate : Bool) :
      Write rx s (s.modOrig ptr (·.receive neigh pkt isDuplicate rx.rcvdTime))
  | route (s : State p) (ptr : ℕ) (hat : s.At ptr rx.pkt.orig) (best : Option (NeighNode p))
      (hbest : ∀ n, best = some n →
        ∃ n' ∈ (s.origAt ptr).neighList, n'.ptr = n.ptr ∧ n'.ifIncoming = n.ifIncoming)
      (recv : List Byte) (len : ℕ) : Write rx s (s.updateRoutes ptr best (some recv) len)
  | gateway (s : State p) (gwList : List GwNode) : Write rx s { s with gwList := gwList }

/-- One write of `batman()` while it processes `rx`. -/
inductive Move (g : Garbage p) (rx : Ogm) : State p → State p → Prop
  | write {s s' : State p} (h : Write rx s s') : Move g rx s s'
  | count (s : State p) (ptr : ℕ) (hat : s.At ptr rx.pkt.orig) :
      Move g rx s
        (s.modOrig ptr fun o => o.countPacket g.front rx.neigh rx.ifIncoming rx.pkt.seqno)
  | forward (s : State p) (f : ForwNode) (hptr : f.ptr = s.nextPtr) (hown : f.own = false) :
      Move g rx s { s with forwList := f :: s.forwList, nextPtr := s.nextPtr + 1 }

/-- A sequence of writes. -/
abbrev Writes (rx : Ogm) : State p → State p → Prop := Relation.ReflTransGen (Write rx)

/-- A sequence of writes, among them those to windows and queue. -/
abbrev Moves (g : Garbage p) (rx : Ogm) : State p → State p → Prop :=
  Relation.ReflTransGen (Move g rx)

theorem Writes.moves {g : Garbage p} {rx : Ogm} {s s' : State p} (h : Writes rx s s') :
    Moves g rx s s' :=
  Relation.ReflTransGen.mono (fun _ _ => .write) _ _ h

/-! ## Every write keeps the table well-formed -/

/-- `update_routes` writes four fields of the entry. -/
theorem updateRoutes_snd (hwAddrs : List Mac) (currTime : Time) (t : TransTable) (o : OrigNode p)
    (best : Option (NeighNode p)) (recv : Option (List Byte)) (len : ℕ) :
    (updateRoutes hwAddrs currTime t o best recv len).2.router = (o.setRouter best).router ∧
      (updateRoutes hwAddrs currTime t o best recv len).2.batmanIf = (o.setRouter best).batmanIf := by
  unfold updateRoutes updateHna
  split
  · exact ⟨rfl, rfl⟩
  · exact ⟨rfl, rfl⟩
  · exact ⟨rfl, rfl⟩
  · dsimp only
    split_ifs <;> exact ⟨rfl, rfl⟩

variable {g : Garbage p} {rx : Ogm} {s s' : State p}

/-- What a write leaves of the fields outside the originator table and the host table. -/
theorem Write.frame (h : Write rx s s') :
    s'.ifList = s.ifList ∧ s'.forwList = s.forwList ∧ s'.walk = s.walk ∧ s.nextPtr ≤ s'.nextPtr := by
  cases h with
  | create addr =>
    refine ⟨?_, ?_, ?_, ?_⟩
    · rw [State.getOrigNode_frame]
    · rw [State.getOrigNode_frame]
    · rw [State.getOrigNode_frame]
    · unfold State.getOrigNode
      split
      · exact le_rfl
      · exact Nat.le_succ _
  | neighbor => exact ⟨rfl, rfl, rfl, Nat.le_succ _⟩
  | _ => exact ⟨rfl, rfl, rfl, le_rfl⟩

theorem Move.ifList (h : Move g rx s s') : s'.ifList = s.ifList := by
  cases h with
  | write h => exact h.frame.1
  | count => rfl
  | forward => rfl

theorem Move.hwAddrs (h : Move g rx s s') : s'.hwAddrs = s.hwAddrs := by
  unfold State.hwAddrs
  rw [h.ifList]

theorem Move.walk (h : Move g rx s s') : s'.walk = s.walk := by
  cases h with
  | write h => exact h.frame.2.2.1
  | count => rfl
  | forward => rfl

theorem Move.nextPtr (h : Move g rx s s') : s.nextPtr ≤ s'.nextPtr := by
  cases h with
  | write h => exact h.frame.2.2.2
  | count => exact le_rfl
  | forward => exact Nat.le_succ _

theorem countPacket_count_le (front : ℕ → ℕ → p.Word) (n : NeighNode p) (d : ℤ) (m : Bool) :
    (n.countPacket front d m).realPacketCount.toNat ≤ tqLocalWindowSize := by
  unfold NeighNode.countPacket tqLocalWindowSize
  have := bitPacketCount_le (bitGetPacket (front n.ptr) n.realBits d m).1
  simp only [BitVec.toNat_ofNat]
  omega

theorem Write.wf (h : Write rx s s') (hs : s.Wf) : s'.Wf := by
  cases h with
  | clock => exact ⟨hs.ok, hs.distinct, hs.node, hs.foreign⟩
  | create addr hforeign => exact hs.getOrigNode hforeign
  | own ptr b c =>
    exact hs.modOrig (fun _ => rfl) (fun _ => rfl) fun o ho _ => (hs.node o ho).of_eq rfl rfl
  | neighbor origNode origNeighNode hneigh hat hnone =>
    refine hs.createNeighbor fun o ho hptr => ?_
    rwa [← hptr, hs.origAt_of_mem ho] at hnone
  | valid ptr neigh =>
    refine hs.modOrig (fun _ => rfl) (fun _ => rfl) fun o ho _ => ?_
    exact (hs.node o ho).mapSameLink rfl rfl fun n =>
      NeighNode.SameLink.ite (n.sameLink_touch _) (.refl n) _
  | entry ptr f =>
    exact hs.modOrig (fun _ => rfl) (fun _ => rfl) fun o ho _ => (hs.node o ho).of_eq rfl rfl
  | pushZero ptr dup hat =>
    refine hs.modOrig (fun _ => rfl) (fun _ => rfl) fun o ho _ => ?_
    exact (hs.node o ho).mapSameLink rfl rfl fun n =>
      NeighNode.SameLink.ite (.refl n) (n.sameLink_pushTq 0) _
  | receive ptr hat neigh pkt htq httl dup =>
    refine hs.modOrig (fun _ => rfl) (fun _ => rfl) fun o ho _ => ?_
    exact (hs.node o ho).mapSameLink rfl rfl fun n =>
      NeighNode.SameLink.ite (n.sameLink_receive pkt dup _) (.refl n) _
  | route ptr hat best hbest recv len =>
    have hmod : (s.modOrig ptr (·.withRoutes (updateRoutes s.hwAddrs s.currTime s.trans (s.origAt ptr)
        best (some recv) len).2)).Wf :=
      hs.modOrig (fun _ => rfl) (fun _ => rfl) fun o ho _ => (hs.node o ho).of_eq rfl rfl
    exact ⟨hmod.ok, hmod.distinct, hmod.node, hmod.foreign⟩
  | gateway gwList => exact ⟨hs.ok, hs.distinct, hs.node, hs.foreign⟩

theorem Move.wf (h : Move g rx s s') (hs : s.Wf) : s'.Wf := by
  cases h with
  | write h => exact h.wf hs
  | count ptr hat =>
    refine hs.modOrig (fun _ => rfl) (fun _ => rfl) fun o ho _ => ?_
    exact (hs.node o ho).mapNeigh rfl rfl (fun _ => rfl) (fun _ => rfl) (fun _ => rfl)
      fun n _ => countPacket_count_le _ n _ _
  | forward f hptr hown =>
    exact ⟨hs.ok, hs.distinct, fun o ho => (hs.node o ho).mono (Nat.le_succ _), hs.foreign⟩

/-! ## No write loses a neighbour -/

/-- `o'` is the entry `o` later on: none of its neighbours is gone or another one. -/
structure OrigNode.Extends (o o' : OrigNode p) : Prop where
  ptr : o'.ptr = o.ptr
  orig : o'.orig = o.orig
  neigh : ∀ n ∈ o.neighList, ∃ n' ∈ o'.neighList,
    n'.ptr = n.ptr ∧ n'.addr = n.addr ∧ n'.ifIncoming = n.ifIncoming ∧ n'.origNode = n.origNode

namespace OrigNode.Extends

theorem of_eq {o o' : OrigNode p} (hptr : o'.ptr = o.ptr) (horig : o'.orig = o.orig)
    (hlist : o'.neighList = o.neighList) : o.Extends o' :=
  ⟨hptr, horig, fun n hn => ⟨n, hlist ▸ hn, rfl, rfl, rfl, rfl⟩⟩

theorem refl (o : OrigNode p) : o.Extends o := of_eq rfl rfl rfl

theorem trans {a b c : OrigNode p} (hab : a.Extends b) (hbc : b.Extends c) : a.Extends c where
  ptr := hbc.ptr.trans hab.ptr
  orig := hbc.orig.trans hab.orig
  neigh n hn := by
    obtain ⟨n', hn', h1, h2, h3, h4⟩ := hab.neigh n hn
    obtain ⟨n'', hn'', h5, h6, h7, h8⟩ := hbc.neigh n' hn'
    exact ⟨n'', hn'', h5.trans h1, h6.trans h2, h7.trans h3, h8.trans h4⟩

theorem of_map {o o' : OrigNode p} {f : NeighNode p → NeighNode p} (hptr : o'.ptr = o.ptr)
    (horig : o'.orig = o.orig) (hlist : o'.neighList = o.neighList.map f)
    (hf : ∀ n, (f n).ptr = n.ptr ∧ (f n).addr = n.addr ∧ (f n).ifIncoming = n.ifIncoming ∧
      (f n).origNode = n.origNode) : o.Extends o' :=
  ⟨hptr, horig, fun n hn => ⟨f n, hlist ▸ List.mem_map_of_mem hn, hf n⟩⟩

theorem of_sameLink {o o' : OrigNode p} {f : NeighNode p → NeighNode p} (hptr : o'.ptr = o.ptr)
    (horig : o'.orig = o.orig) (hlist : o'.neighList = o.neighList.map f)
    (hf : ∀ n, (f n).SameLink n) : o.Extends o' :=
  of_map hptr horig hlist fun n => ⟨(hf n).ptr, (hf n).addr, (hf n).ifIncoming, (hf n).origNode⟩

end OrigNode.Extends

theorem State.extends_modOrig {ptr : ℕ} {f : OrigNode p → OrigNode p} (hf : ∀ o : OrigNode p, o.Extends (f o))
    {o : OrigNode p} (ho : o ∈ s.origs) : ∃ o' ∈ (s.modOrig ptr f).origs, o.Extends o' := by
  refine ⟨_, mem_origs_modOrig.mpr ⟨o, ho, rfl⟩, ?_⟩
  split_ifs
  · exact hf o
  · exact .refl o

theorem Write.extends (h : Write rx s s') (hs : s.Wf) {o : OrigNode p} (ho : o ∈ s.origs) :
    ∃ o' ∈ s'.origs, o.Extends o' := by
  cases h with
  | clock => exact ⟨o, ho, .refl o⟩
  | create addr _ => exact ⟨o, hs.mem_getOrigNode_of_mem addr ho, .refl o⟩
  | own =>
    refine State.extends_modOrig (fun o => ?_) ho
    exact .of_eq rfl rfl rfl
  | neighbor origNode origNeighNode =>
    exact State.extends_modOrig (s := s) (f := fun o =>
      { o with neighList :=
          o.neighList ++ [NeighNode.new s.nextPtr rx.neigh origNeighNode rx.ifIncoming] })
      (fun o => ⟨rfl, rfl, fun n hn => ⟨n, List.mem_append_left _ hn, rfl, rfl, rfl, rfl⟩⟩) ho
  | valid ptr neigh =>
    refine State.extends_modOrig (fun o => ?_) ho
    exact .of_sameLink rfl rfl (o.neighList_modNeigh _ _) fun n =>
      NeighNode.SameLink.ite (n.sameLink_touch _) (.refl n) _
  | entry =>
    refine State.extends_modOrig (fun o => ?_) ho
    exact .of_eq rfl rfl rfl
  | pushZero ptr dup =>
    refine State.extends_modOrig (fun o => ?_) ho
    exact .of_sameLink rfl rfl (o.neighList_pushZero _ _ _) fun n =>
      NeighNode.SameLink.ite (.refl n) (n.sameLink_pushTq 0) _
  | receive ptr hat neigh pkt htq httl dup =>
    refine State.extends_modOrig (fun o => ?_) ho
    exact .of_sameLink rfl rfl (o.neighList_receive _ _ _ _) fun n =>
      NeighNode.SameLink.ite (n.sameLink_receive pkt dup _) (.refl n) _
  | route ptr hat best hbest recv len =>
    exact State.extends_modOrig (s := s) (f := (·.withRoutes (updateRoutes s.hwAddrs s.currTime
      s.trans (s.origAt ptr) best (some recv) len).2)) (fun _ => .of_eq rfl rfl rfl) ho
  | gateway => exact ⟨o, ho, .refl o⟩

theorem Move.extends (h : Move g rx s s') (hs : s.Wf) {o : OrigNode p} (ho : o ∈ s.origs) :
    ∃ o' ∈ s'.origs, o.Extends o' := by
  cases h with
  | write h => exact h.extends hs ho
  | count =>
    refine State.extends_modOrig (fun o => ?_) ho
    exact .of_map rfl rfl rfl fun _ => ⟨rfl, rfl, rfl, rfl⟩
  | forward => exact ⟨o, ho, .refl o⟩

theorem Write.at (h : Write rx s s') (hs : s.Wf) {ptr : ℕ} {addr : Mac} (hat : s.At ptr addr) :
    s'.At ptr addr := by
  obtain ⟨o, ho, rfl, rfl⟩ := hat
  obtain ⟨o', ho', hext⟩ := h.extends hs ho
  exact ⟨o', ho', hext.ptr, hext.orig⟩

theorem Move.at (h : Move g rx s s') (hs : s.Wf) {ptr : ℕ} {addr : Mac} (hat : s.At ptr addr) :
    s'.At ptr addr := by
  obtain ⟨o, ho, rfl, rfl⟩ := hat
  obtain ⟨o', ho', hext⟩ := h.extends hs ho
  exact ⟨o', ho', hext.ptr, hext.orig⟩

/-! ## Sequences of writes -/

/-- **Induction over the writes.** -/
theorem Moves.preserves {I : State p → Prop} (h : Moves g rx s s') (hs : s.Wf) (hI : I s)
    (hmove : ∀ t t', t.Wf → I t → Move g rx t t' → I t') : s'.Wf ∧ I s' := by
  induction h with
  | refl => exact ⟨hs, hI⟩
  | tail _ hlast ih => exact ⟨hlast.wf ih.1, hmove _ _ ih.1 ih.2 hlast⟩

theorem Writes.preserves {I : State p → Prop} (h : Writes rx s s') (hs : s.Wf) (hI : I s)
    (hwrite : ∀ t t', t.Wf → I t → Write rx t t' → I t') : s'.Wf ∧ I s' := by
  induction h with
  | refl => exact ⟨hs, hI⟩
  | tail _ hlast ih => exact ⟨hlast.wf ih.1, hwrite _ _ ih.1 ih.2 hlast⟩

theorem Moves.wf (h : Moves g rx s s') (hs : s.Wf) : s'.Wf :=
  (h.preserves hs trivial fun _ _ _ _ _ => trivial).1

theorem Writes.wf (h : Writes rx s s') (hs : s.Wf) : s'.Wf :=
  (h.preserves hs trivial fun _ _ _ _ _ => trivial).1

theorem Moves.ifList (h : Moves g rx s s') : s'.ifList = s.ifList := by
  induction h with
  | refl => rfl
  | tail _ hmove ih => rw [hmove.ifList, ih]

theorem Moves.hwAddrs (h : Moves g rx s s') : s'.hwAddrs = s.hwAddrs := by
  unfold State.hwAddrs
  rw [h.ifList]

theorem Moves.walk (h : Moves g rx s s') : s'.walk = s.walk := by
  induction h with
  | refl => rfl
  | tail _ hmove ih => rw [hmove.walk, ih]

theorem Moves.nextPtr (h : Moves g rx s s') : s.nextPtr ≤ s'.nextPtr := by
  induction h with
  | refl => exact le_rfl
  | tail _ hmove ih => exact ih.trans hmove.nextPtr

theorem Writes.frame (h : Writes rx s s') :
    s'.ifList = s.ifList ∧ s'.forwList = s.forwList ∧ s'.walk = s.walk ∧ s.nextPtr ≤ s'.nextPtr := by
  induction h with
  | refl => exact ⟨rfl, rfl, rfl, le_rfl⟩
  | tail _ hwrite ih =>
    obtain ⟨h1, h2, h3, h4⟩ := hwrite.frame
    obtain ⟨h5, h6, h7, h8⟩ := ih
    exact ⟨h1.trans h5, h2.trans h6, h3.trans h7, h8.trans h4⟩

theorem Writes.hwAddrs (h : Writes rx s s') : s'.hwAddrs = s.hwAddrs := by
  unfold State.hwAddrs
  rw [h.frame.1]

theorem Writes.at (h : Writes rx s s') (hs : s.Wf) {ptr : ℕ} {addr : Mac} (hat : s.At ptr addr) :
    s'.At ptr addr :=
  (h.preserves hs hat fun _ _ ht hI hwrite => hwrite.at ht hI).2

theorem Writes.extends (h : Writes rx s s') (hs : s.Wf) {o : OrigNode p} (ho : o ∈ s.origs) :
    ∃ o' ∈ s'.origs, o.Extends o' := by
  refine (h.preserves (I := fun t => ∃ o' ∈ t.origs, o.Extends o') hs ⟨o, ho, .refl o⟩ ?_).2
  rintro t t' ht ⟨o', ho', hext⟩ hwrite
  obtain ⟨o'', ho'', hext'⟩ := hwrite.extends ht ho'
  exact ⟨o'', ho'', hext.trans hext'⟩

theorem Writes.extends_origAt (h : Writes rx s s') (hs : s.Wf) {ptr : ℕ} {addr : Mac}
    (hat : s.At ptr addr) : (s.origAt ptr).Extends (s'.origAt ptr) := by
  obtain ⟨hmem, hptr, _⟩ := hs.origAt_mem hat
  obtain ⟨o', ho', hext⟩ := h.extends hs hmem
  have := (h.wf hs).origAt_of_mem ho'
  rw [hext.ptr, hptr] at this
  rwa [this]

end BatmanAdv
