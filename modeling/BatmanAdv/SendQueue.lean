import BatmanAdv.Reachable

/-!
# The queue of outgoing packets

Every interface has one own packet in `forw_list`. `send_outstanding_packets` takes a packet off and, if
it is an own one, queues the next own packet of its interface, while it walks the list. It unlinks a
packet as if it were the first of the list, so that what stands in front of it is lost: an own packet
that was re-armed to a time before that of the next packet, if that one is due as well.
-/

namespace BatmanAdv

open Transition

variable {p : Platform} {g : Garbage p} {s s' : State p} {e : Event p} {now : Time} {rnd ifNum : ℕ}

def State.transmitted (s : State p) : Event p → Option ForwNode
  | .sendNext _ _ =>
    match s.walk with
    | some (currTime, some pos) =>
      (s.forwList.find? (·.ptr = pos)).filter fun f => decide (f.sendTime ≤ currTime)
    | _ => none
  | _ => none

/-- Two packets of the queue are not the same one, nor own packets of one interface. -/
def ForwNode.Apart (a b : ForwNode) : Prop :=
  a.ptr ≠ b.ptr ∧ ¬ (a.own = true ∧ b.own = true ∧ a.ifOutgoing = b.ifOutgoing)

/-- **The queue**: no interface has two own packets in it, and an own packet has the sequence number
before the one its interface uses next. -/
structure State.QueueOk (s : State p) : Prop where
  ptr_lt : ∀ f ∈ s.forwList, f.ptr < s.nextPtr
  apart : s.forwList.Pairwise ForwNode.Apart
  own : ∀ f ∈ s.forwList, f.own = true →
    f.ifOutgoing < s.ifList.length ∧ f.pack.seqno + 1 = (s.outOf f.ifOutgoing).seqno

def ForwNode.isOwnOf (f : ForwNode) (ifNum : ℕ) : Bool := f.own && f.ifOutgoing == ifNum

/-- Every interface has exactly one own packet in the queue. -/
def State.OneEach (s : State p) : Prop :=
  ∀ ifNum < s.ifList.length, s.forwList.countP (·.isOwnOf ifNum) = 1

instance (s : State p) : Decidable s.OneEach :=
  inferInstanceAs (Decidable (∀ ifNum < s.ifList.length, _))

/-- When an own packet is re-armed while the next one of the queue is due, it is not to be sent before
that one. -/
def RearmsBehind (x : State p × Event p) : Prop :=
  match x.2 with
  | .sendNext now rnd =>
    ∀ f ∈ x.1.transmitted x.2, f.own = true → ∀ walk ∈ x.1.walk,
      ∀ next ∈ (forwAfter x.1.forwList f.ptr).head?,
        next.sendTime ≤ walk.1 → next.sendTime ≤ x.1.sendTimeOf now rnd
  | _ => True

instance (x : State p × Event p) : Decidable (RearmsBehind x) := by
  unfold RearmsBehind
  split <;> infer_instance

/-- A packet that leaves the queue in this step is processed for transmission. -/
def LosesNothing (x : State p × Event p) : Prop :=
  ∀ u, step x.1 x.2 = some u → ∀ f ∈ x.1.forwList, f ∈ u.forwList ∨ x.1.transmitted x.2 = some f

/-! ## Inserting -/

theorem insertForw_perm (f : ForwNode) (l : List ForwNode) : (insertForw f l).Perm (f :: l) := by
  induction l with
  | nil => exact .refl _
  | cons a l ih =>
    unfold insertForw
    split_ifs
    · exact .refl _
    · exact (ih.cons a).trans (.swap f a l)

theorem mem_insertForw {f x : ForwNode} {l : List ForwNode} :
    x ∈ insertForw f l ↔ x = f ∨ x ∈ l := by
  rw [(insertForw_perm f l).mem_iff, List.mem_cons]

theorem ForwNode.Apart.symm {a b : ForwNode} (h : a.Apart b) : b.Apart a :=
  ⟨h.1.symm, fun hown => h.2 ⟨hown.2.1, hown.1, hown.2.2.symm⟩⟩

theorem State.outOf_modOut (s : State p) (i j : ℕ) (f : BatmanPacket → BatmanPacket) :
    (s.modOut i f).outOf j = if i = j ∧ j < s.ifList.length then f (s.outOf j) else s.outOf j := by
  unfold State.outOf State.modOut
  rw [List.getElem?_modify]
  by_cases hj : j < s.ifList.length
  · rw [List.getElem?_eq_getElem hj]
    by_cases hij : i = j
    · simp [hij, hj]
    · simp [hij]
  · rw [List.getElem?_eq_none (not_lt.mp hj), if_neg fun h => hj h.2]
    rfl

def State.ownNode (s : State p) (ifNum : ℕ) (now : Time) (rnd : ℕ) : ForwNode where
  ptr := s.nextPtr
  sendTime := s.sendTimeOf now rnd
  own := true
  pack := s.outOf ifNum
  packHna := s.trans.hnaBuff.take (s.trans.numHna * 6)
  ifOutgoing := ifNum

theorem State.forwList_scheduleOwnPacket (s : State p) (ifNum : ℕ) (now : Time) (rnd : ℕ) :
    (s.scheduleOwnPacket ifNum now rnd).forwList = insertForw (s.ownNode ifNum now rnd) s.forwList :=
  rfl

def State.forwardNode (s : State p) (g : Garbage p) (origNode : ℕ) (neigh : Mac) (pkt : BatmanPacket)
    (hna : List Byte) (directlinkFlag : Bool) (now : Time) (ifOutgoing : ℕ) : ForwNode where
  ptr := s.nextPtr
  sendTime := now
  own := false
  pack :=
    { pkt with
      tq := penalizeHop (forwardTqTtl g (s.origAt origNode) neigh pkt).1
      ttl := (forwardTqTtl g (s.origAt origNode) neigh pkt).2
      oldOrig := neigh
      flags := if directlinkFlag then directlink else 0 }
  packHna := hna
  ifOutgoing := ifOutgoing

theorem State.scheduleForwardPacket_eq (s : State p) (g : Garbage p) (origNode : ℕ) (neigh : Mac)
    (pkt : BatmanPacket) (hna : List Byte) (directlinkFlag : Bool) (now : Time) (ifOutgoing : ℕ) :
    s.scheduleForwardPacket g origNode neigh pkt hna directlinkFlag now ifOutgoing =
      if pkt.ttl.toNat ≤ 1 then s
      else
        { s with
          forwList :=
            s.forwardNode g origNode neigh pkt hna directlinkFlag now ifOutgoing :: s.forwList
          nextPtr := s.nextPtr + 1 } :=
  rfl

theorem State.outOf_scheduleOwnPacket (s : State p) (now : Time) (rnd : ℕ)
    (h : ifNum < s.ifList.length) (j : ℕ) :
    ((s.scheduleOwnPacket ifNum now rnd).outOf j).seqno =
      if j = ifNum then (s.outOf ifNum).seqno + 1 else (s.outOf j).seqno := by
  have hout : (s.scheduleOwnPacket ifNum now rnd).outOf j =
      (s.modOut ifNum fun out => { out with seqno := out.seqno + 1 }).outOf j := rfl
  rw [hout, s.outOf_modOut]
  by_cases hj : j = ifNum
  · subst hj
    rw [if_pos ⟨rfl, h⟩, if_pos rfl]
  · rw [if_neg fun hij => hj hij.1.symm, if_neg hj]

theorem State.length_scheduleOwnPacket (s : State p) (ifNum : ℕ) (now : Time) (rnd : ℕ) :
    (s.scheduleOwnPacket ifNum now rnd).ifList.length = s.ifList.length :=
  List.length_modify _ _ _

/-- The next own packet of an interface that has none in the queue. -/
theorem State.QueueOk.scheduleOwnPacket (h : s.QueueOk) (hif : ifNum < s.ifList.length)
    (hnone : ∀ f ∈ s.forwList, f.own = true → f.ifOutgoing ≠ ifNum) (now : Time) (rnd : ℕ) :
    (s.scheduleOwnPacket ifNum now rnd).QueueOk := by
  refine ⟨fun f hf => ?_, ?_, fun f hf hown => ?_⟩
  · show f.ptr < s.nextPtr + 1
    rcases mem_insertForw.mp hf with rfl | hf
    · exact Nat.lt_succ_self _
    · exact Nat.lt_succ_of_lt (h.ptr_lt f hf)
  · have hperm := insertForw_perm (s.ownNode ifNum now rnd) s.forwList
    refine (hperm.pairwise_iff ForwNode.Apart.symm).mpr (List.pairwise_cons.mpr ⟨?_, h.apart⟩)
    intro f hf
    refine ⟨(h.ptr_lt f hf).ne', ?_⟩
    rintro ⟨_, hown, heq⟩
    exact hnone f hf hown heq.symm
  · rw [s.length_scheduleOwnPacket, s.outOf_scheduleOwnPacket now rnd hif]
    rcases mem_insertForw.mp hf with rfl | hf
    · refine ⟨hif, ?_⟩
      rw [if_pos rfl]
    · rw [if_neg (hnone f hf hown)]
      exact h.own f hf hown

/-! ## Taking a packet off -/

theorem forwAfter_cons (f : ForwNode) (l : List ForwNode) : forwAfter (f :: l) f.ptr = l := by
  unfold forwAfter
  rw [List.dropWhile_cons_of_neg (by simp), List.tail_cons]

theorem forwAfter_of_find {l : List ForwNode} {pos : ℕ} {f : ForwNode}
    (h : l.find? (·.ptr = pos) = some f) :
    ∃ pre, l = pre ++ f :: forwAfter l pos ∧ f.ptr = pos := by
  obtain ⟨hpos, pre, post, rfl, hpre⟩ := List.find?_eq_some_iff_append.mp h
  have hptr : f.ptr = pos := by simpa using hpos
  have hafter : forwAfter (pre ++ f :: post) pos = post := by
    unfold forwAfter
    rw [List.dropWhile_append_of_pos fun a ha => by simpa using hpre a ha, ← hptr]
    exact forwAfter_cons f post
  exact ⟨pre, by rw [hafter], hptr⟩

/-- **A round of the send loop** ends the pass, or processes a packet. -/
theorem State.sendNext_transmitted (h : s.sendNext now rnd = some s') :
    s.transmitted (.sendNext now rnd) = none ∧ s' = { s with walk := none } ∨
      ∃ t f pre post, s.transmitted (.sendNext now rnd) = some f ∧ s.walk = some (t, some f.ptr) ∧
        s.forwList = pre ++ f :: post ∧ f.sendTime ≤ t ∧
        s' = (let u : State p := { s with forwList := post, walk := some (t, post.head?.map (·.ptr)) }
          if f.own then u.scheduleOwnPacket f.ifOutgoing now rnd else u) := by
  unfold State.sendNext at h
  unfold State.transmitted
  rcases hwalk : s.walk with _ | ⟨t, _ | pos⟩
  · rw [hwalk] at h
    cases h
  · rw [hwalk] at h
    exact .inl ⟨rfl, (Option.some.inj h).symm⟩
  · rw [hwalk] at h
    dsimp only at h ⊢
    cases hfind : s.forwList.find? (·.ptr = pos) with
    | none =>
      rw [hfind] at h
      cases h
    | some f =>
      rw [hfind] at h
      dsimp only at h
      obtain ⟨pre, hlist, hptr⟩ := forwAfter_of_find hfind
      by_cases hdue : f.sendTime ≤ t
      · rw [if_pos hdue] at h
        refine .inr ⟨t, f, pre, forwAfter s.forwList pos, ?_, by rw [hptr], hlist, hdue,
          (Option.some.inj h).symm⟩
        rw [Option.filter_some_pos (by simpa using hdue)]
      · rw [if_neg hdue] at h
        refine .inl ⟨?_, (Option.some.inj h).symm⟩
        rw [Option.filter_some_neg (by simpa using hdue)]

/-! ## The other steps -/

/-- What happens outside `send_outstanding_packets`: at most a forwarded packet is queued in front. -/
structure State.Queues (s s' : State p) : Prop where
  length : s'.ifList.length = s.ifList.length
  seqno : ∀ i, (s'.outOf i).seqno = (s.outOf i).seqno
  nextPtr : s.nextPtr ≤ s'.nextPtr
  list : s'.forwList = s.forwList ∨
    ∃ f : ForwNode, f.own = false ∧ s.nextPtr ≤ f.ptr ∧ f.ptr < s'.nextPtr ∧
      s'.forwList = f :: s.forwList

theorem State.Queues.of_ifList (hif : s'.ifList = s.ifList) (hlist : s'.forwList = s.forwList)
    (hptr : s.nextPtr ≤ s'.nextPtr) : s.Queues s' where
  length := by rw [hif]
  seqno i := by unfold State.outOf; rw [hif]
  nextPtr := hptr
  list := .inl hlist

theorem State.queues_batmanOgm (hs : s.Wf) (g : Garbage p) (rx : Ogm) :
    s.Queues (s.batmanOgm g rx).1 := by
  have hmoves : Moves g rx s (s.batmanOgm g rx).1 := State.batmanOgm_moves hs
  refine ⟨by rw [hmoves.ifList], fun i => by unfold State.outOf; rw [hmoves.ifList], hmoves.nextPtr, ?_⟩
  rcases State.batmanOgm_cases hs g rx with ⟨_, hwrites⟩ | ⟨_, heq⟩ | ⟨hprocess, t, hwrites, hqueue⟩
  · exact .inl hwrites.frame.2.1
  · rw [heq]
    exact .inl (s.forwList_countState g rx)
  · have hlist : t.forwList = s.forwList := hwrites.frame.2.1.trans (s.forwList_countState g rx)
    have hptr : s.nextPtr ≤ t.nextPtr :=
      (State.countState_moves (g := g) hs (.inr hprocess)).nextPtr.trans hwrites.frame.2.2.2
    rcases hqueue with heq | ⟨f, hfptr, hown, heq⟩
    · rw [heq]
      exact .inl hlist
    · rw [heq]
      refine .inr ⟨f, hown, hfptr ▸ hptr, ?_, by rw [← hlist]⟩
      rw [hfptr]
      exact Nat.lt_succ_self _

theorem State.queues_hnaUpdate (s : State p) : s.Queues s.hnaUpdate := by
  unfold State.hnaUpdate
  generalize s.trans.hnaUpdate s.currTime p s.tapMtu s.primary = updated
  obtain ⟨trans, announced⟩ := updated
  cases announced with
  | none => exact .of_ifList rfl rfl le_rfl
  | some numHna =>
    refine ⟨List.length_modify _ _ _, fun i => ?_, le_rfl, .inl rfl⟩
    dsimp only
    rw [State.outOf_modOut]
    split_ifs
    · rfl
    · rfl

theorem State.queues_receiveTap (s : State p) (shost dhost : Mac) :
    s.Queues (s.receiveTap shost dhost) := by
  unfold State.receiveTap
  dsimp only
  split_ifs
  · refine ⟨List.length_modify _ _ _, fun i => ?_, le_rfl, .inl rfl⟩
    unfold State.outOf
    dsimp only
    rw [List.getElem?_modify]
    cases s.ifList[i]? with
    | none => rfl
    | some batmanIf => by_cases hi : 0 = i <;> simp [hi]
  · exact .of_ifList rfl rfl le_rfl

theorem step_queues (hs : s.Wf) (h : step s e = some s') :
    (∃ now rnd, e = .sendNext now rnd ∧ s.sendNext now rnd = some s') ∨
      s.walk = none ∧ s.transmitted e = none ∧ s.Queues s' ∧
        (s'.walk = none ∨ ∃ now, s' = s.sendBegin now) := by
  cases stepped h with
  | sendNext now rnd _ _ hnext => exact .inl ⟨now, rnd, rfl, hnext⟩
  | ogm g rx hwalk =>
    have hmoves : Moves g rx s (s.batmanOgm g rx).1 := State.batmanOgm_moves hs
    exact .inr ⟨hwalk, rfl, State.queues_batmanOgm hs g rx, .inl (hmoves.walk.trans hwalk)⟩
  | bcast g frame hwalk =>
    refine .inr ⟨hwalk, rfl, ?_⟩
    rcases s.receiveBcast_cases g frame with heq | ⟨o, _, _, heq⟩
    · rw [heq]
      exact ⟨.of_ifList rfl rfl le_rfl, .inl hwalk⟩
    · rw [heq]
      exact ⟨.of_ifList rfl rfl le_rfl, .inl hwalk⟩
  | tap shost dhost hwalk =>
    exact .inr ⟨hwalk, rfl, s.queues_receiveTap shost dhost,
      .inl ((s.receiveTap_frame shost dhost).2.2.2.1.trans hwalk)⟩
  | clock now hwalk => exact .inr ⟨hwalk, rfl, .of_ifList rfl rfl le_rfl, .inl hwalk⟩
  | hnaUpdate hwalk =>
    exact .inr ⟨hwalk, rfl, s.queues_hnaUpdate, .inl (s.hnaUpdate_frame.2.2.2.1.trans hwalk)⟩
  | purge g currTime gwTime hwalk =>
    obtain ⟨hif, hlist, hw, hptr⟩ := s.purgeOrig_frame g currTime gwTime
    exact .inr ⟨hwalk, rfl, .of_ifList hif hlist hptr.ge, .inl (hw.trans hwalk)⟩
  | sendBegin now hwalk =>
    exact .inr ⟨hwalk, rfl, .of_ifList rfl rfl le_rfl, .inr ⟨now, rfl⟩⟩

theorem State.QueueOk.queues (h : s.QueueOk) (hq : s.Queues s') : s'.QueueOk := by
  have hold : ∀ f ∈ s.forwList, f.own = true →
      f.ifOutgoing < s'.ifList.length ∧ f.pack.seqno + 1 = (s'.outOf f.ifOutgoing).seqno := by
    intro f hf hown
    rw [hq.length, hq.seqno]
    exact h.own f hf hown
  rcases hq.list with heq | ⟨f, hforwarded, hlow, hhigh, heq⟩
  · refine ⟨fun x hx => ?_, heq ▸ h.apart, fun x hx => hold x (heq ▸ hx)⟩
    exact (h.ptr_lt x (heq ▸ hx)).trans_le hq.nextPtr
  · refine ⟨fun x hx => ?_, ?_, fun x hx hown => ?_⟩
    · rw [heq] at hx
      rcases List.mem_cons.mp hx with rfl | hx
      · exact hhigh
      · exact (h.ptr_lt x hx).trans_le hq.nextPtr
    · rw [heq]
      refine List.pairwise_cons.mpr ⟨fun x hx => ⟨?_, fun hboth => ?_⟩, h.apart⟩
      · exact ((h.ptr_lt x hx).trans_le hlow).ne'
      · rw [hforwarded] at hboth
        exact Bool.false_ne_true hboth.1
    · rw [heq] at hx
      rcases List.mem_cons.mp hx with rfl | hx
      · rw [hforwarded] at hown
        cases hown
      · exact hold x hx hown

theorem State.QueueOk.suffix (h : s.QueueOk) {pre post : List ForwNode} {f : ForwNode}
    (hlist : s.forwList = pre ++ f :: post) (walk : Option (Time × Option ℕ)) :
    ({ s with forwList := post, walk := walk } : State p).QueueOk ∧
      ∀ x ∈ post, f.Apart x := by
  have hmem : ∀ x ∈ post, x ∈ s.forwList := fun x hx => by
    rw [hlist]
    exact List.mem_append_right _ (List.mem_cons_of_mem _ hx)
  have happart := (List.pairwise_append.mp (hlist ▸ h.apart)).2.1
  obtain ⟨hf, hpost⟩ := List.pairwise_cons.mp happart
  exact ⟨⟨fun x hx => h.ptr_lt x (hmem x hx), hpost, fun x hx => h.own x (hmem x hx)⟩, hf⟩

theorem State.QueueOk.sendNext (h : s.QueueOk) (hnext : s.sendNext now rnd = some s') :
    s'.QueueOk := by
  rcases State.sendNext_transmitted hnext with ⟨_, rfl⟩ | ⟨t, f, pre, post, _, _, hlist, _, rfl⟩
  · exact ⟨h.ptr_lt, h.apart, h.own⟩
  · obtain ⟨hpost, hapart⟩ := h.suffix hlist (some (t, post.head?.map (·.ptr)))
    dsimp only
    by_cases hown : f.own = true
    · rw [if_pos hown]
      refine hpost.scheduleOwnPacket ?_ (fun x hx hxown heq => ?_) now rnd
      · exact (h.own f (by rw [hlist]; simp) hown).1
      · exact (hapart x hx).2 ⟨hown, hxown, heq.symm⟩
    · rw [if_neg hown]
      exact hpost

theorem step_queueOk (hs : s.Wf) (h : s.QueueOk) (hstep : step s e = some s') : s'.QueueOk := by
  rcases step_queues hs hstep with ⟨now, rnd, _, hnext⟩ | ⟨_, _, hqueues, _⟩
  · exact h.sendNext hnext
  · exact h.queues hqueues

/-! ## The start -/

theorem State.countP_scheduleOwnPacket (s : State p) (i : ℕ) (now : Time) (rnd j : ℕ) :
    (s.scheduleOwnPacket i now rnd).forwList.countP (·.isOwnOf j) =
      s.forwList.countP (·.isOwnOf j) + if i = j then 1 else 0 := by
  rw [s.forwList_scheduleOwnPacket, (insertForw_perm _ _).countP_eq, List.countP_cons]
  unfold ForwNode.isOwnOf State.ownNode
  simp

theorem Config.scheduled_queue (cfg : Config) (p : Platform) {k : ℕ} (hk : k ≤ cfg.hwAddrs.length) :
    let s := (List.range k).foldl
      (fun s i => s.scheduleOwnPacket i (cfg.now i) (cfg.rnd i)) (cfg.start p)
    s.QueueOk ∧ s.ifList.length = cfg.hwAddrs.length ∧ (∀ f ∈ s.forwList, f.ifOutgoing < k) ∧
      ∀ j < k, s.forwList.countP (·.isOwnOf j) = 1 := by
  induction k with
  | zero =>
    refine ⟨⟨?_, List.Pairwise.nil, ?_⟩, List.length_map _, ?_, ?_⟩
    · exact fun f hf => absurd hf List.not_mem_nil
    · exact fun f hf => absurd hf List.not_mem_nil
    · exact fun f hf => absurd hf List.not_mem_nil
    · exact fun j hj => absurd hj (Nat.not_lt_zero j)
  | succ k ih =>
    obtain ⟨hok, hlen, hif, hcount⟩ := ih (Nat.le_of_succ_le hk)
    rw [List.range_succ, List.foldl_append, List.foldl_cons, List.foldl_nil]
    generalize (List.range k).foldl
      (fun s i => s.scheduleOwnPacket i (cfg.now i) (cfg.rnd i)) (cfg.start p) = s
      at hok hlen hif hcount
    have hlt : k < s.ifList.length := by rw [hlen]; exact hk
    refine ⟨hok.scheduleOwnPacket hlt (fun f hf _ => (hif f hf).ne) _ _, ?_, fun f hf => ?_,
      fun j hj => ?_⟩
    · rw [s.length_scheduleOwnPacket, hlen]
    · rcases mem_insertForw.mp hf with rfl | hf
      · exact Nat.lt_succ_self k
      · exact Nat.lt_succ_of_lt (hif f hf)
    · rw [s.countP_scheduleOwnPacket]
      by_cases hkj : k = j
      · have hzero : s.forwList.countP (·.isOwnOf j) = 0 := by
          refine List.countP_eq_zero.mpr fun f hf hown => ?_
          have hif' := hif f hf
          simp only [ForwNode.isOwnOf, Bool.and_eq_true, beq_iff_eq] at hown
          omega
        rw [hzero, if_pos hkj]
      · rw [hcount j (by omega), if_neg hkj]

theorem Config.walk_boot (cfg : Config) (p : Platform) : (cfg.boot p).walk = none := by
  have hfold : ∀ (l : List ℕ) (t : State p), t.walk = none →
      (l.foldl (fun s i => s.scheduleOwnPacket i (cfg.now i) (cfg.rnd i)) t).walk = none := by
    intro l
    induction l with
    | nil => exact fun t ht => ht
    | cons i l ih => exact fun t ht => ih _ ht
  exact hfold _ _ rfl

theorem Config.boot_queue (cfg : Config) (p : Platform) :
    (cfg.boot p).QueueOk ∧ (cfg.boot p).OneEach := by
  obtain ⟨hok, hlen, _, hcount⟩ := cfg.scheduled_queue p le_rfl
  refine ⟨⟨hok.ptr_lt, hok.apart, hok.own⟩, fun j hj => hcount j ?_⟩
  exact hlen ▸ hj

theorem Run.queueOk {cfg : Config} {tr : List (State p × Event p)} (h : Run p cfg tr s) :
    s.QueueOk := by
  have hinv := Trace.state_invariant (I := fun s => s.Wf ∧ s.QueueOk) h
    ⟨cfg.boot_wf p, (cfg.boot_queue p).1⟩
    fun t e u ht hstep => ⟨step_wf ht.1 hstep, step_queueOk ht.1 ht.2 hstep⟩
  exact hinv.2.2

/-! ## Passes -/

/-- The packet the send loop comes to is the first one of the queue, or it ends the pass. -/
def State.WalkOk (s : State p) : Prop :=
  ∀ t pos, s.walk = some (t, some pos) →
    s.forwList.head?.map (·.ptr) = some pos ∨ ∃ f ∈ s.forwList, f.ptr = pos ∧ ¬ f.sendTime ≤ t

theorem State.walkOk_of_none (h : s.walk = none) : s.WalkOk := by
  intro t pos hwalk
  rw [h] at hwalk
  cases hwalk

theorem State.WalkOk.first (h : s.WalkOk) (hok : s.QueueOk) {t : Time} {f : ForwNode}
    {pre post : List ForwNode} (hwalk : s.walk = some (t, some f.ptr))
    (hlist : s.forwList = pre ++ f :: post) (hdue : f.sendTime ≤ t) : pre = [] := by
  cases pre with
  | nil => rfl
  | cons a pre =>
    have happart := hok.apart
    rw [hlist] at happart
    have hne : a.ptr ≠ f.ptr := ((List.pairwise_cons.mp happart).1 f (by simp)).1
    rcases h t f.ptr hwalk with hhead | ⟨x, hx, hptr, hlate⟩
    · rw [hlist] at hhead
      exact absurd (Option.some.inj hhead) hne
    · have : Std.Symm ForwNode.Apart := ⟨fun _ _ => ForwNode.Apart.symm⟩
      by_cases hxf : x = f
      · exact absurd (hxf ▸ hdue) hlate
      · exact absurd hptr (hok.apart.forall hx (by rw [hlist]; simp) hxf).1

/-- **A round of the send loop**, if it re-arms behind what is due. -/
theorem State.sendNext_oneEach (hok : s.QueueOk) (hwalk : s.WalkOk) (hone : s.OneEach)
    (hgood : RearmsBehind (s, .sendNext now rnd)) (h : s.sendNext now rnd = some s') :
    s'.WalkOk ∧ s'.OneEach ∧
      ∀ f ∈ s.forwList, f ∈ s'.forwList ∨ s.transmitted (.sendNext now rnd) = some f := by
  rcases State.sendNext_transmitted h with ⟨_, rfl⟩ | ⟨t, f, pre, post, hsent, hpos, hlist, hdue, rfl⟩
  · exact ⟨State.walkOk_of_none rfl, hone, fun f hf => .inl hf⟩
  · obtain rfl := hwalk.first hok hpos hlist hdue
    rw [List.nil_append] at hlist
    have hafter : forwAfter s.forwList f.ptr = post := by rw [hlist, forwAfter_cons]
    have hlost : ∀ (l : List ForwNode), (∀ x ∈ post, x ∈ l) → ∀ x ∈ s.forwList, x ∈ l ∨
        s.transmitted (.sendNext now rnd) = some x := by
      intro l hl x hx
      rw [hlist] at hx
      rcases List.mem_cons.mp hx with rfl | hx
      · exact .inr hsent
      · exact .inl (hl x hx)
    dsimp only
    by_cases hown : f.own = true
    · rw [if_pos hown]
      have hcount : ∀ j, s.forwList.countP (·.isOwnOf j) =
          post.countP (·.isOwnOf j) + if f.ifOutgoing = j then 1 else 0 := by
        intro j
        rw [hlist, List.countP_cons]
        simp [ForwNode.isOwnOf, hown]
      refine ⟨?_, fun j hj => ?_, hlost _ fun x hx => mem_insertForw.mpr (.inr hx)⟩
      · intro t' pos hwalk'
        obtain ⟨rfl, hhead⟩ := Prod.mk.inj (Option.some.inj hwalk')
        -- the next packet stays first, unless it is not due and ends the pass
        cases hp : post with
        | nil =>
          rw [hp] at hhead
          cases hhead
        | cons next post' =>
          rw [hp] at hhead
          obtain rfl : next.ptr = pos := Option.some.inj hhead
          have hbehind := hgood f hsent hown _ hpos next (by
            rw [hafter, hp]
            rfl)
          by_cases hlate : next.sendTime ≤ t
          · left
            rw [State.forwList_scheduleOwnPacket, insertForw, if_neg (not_lt.mpr ?_)]
            · rfl
            · exact hbehind hlate
          · right
            exact ⟨next, mem_insertForw.mpr (.inr List.mem_cons_self), rfl, hlate⟩
      · rw [State.countP_scheduleOwnPacket]
        exact (hcount j).symm.trans (hone j (by rwa [State.length_scheduleOwnPacket] at hj))
    · rw [if_neg hown]
      refine ⟨?_, fun j hj => ?_, hlost _ fun x hx => hx⟩
      · intro t' pos hwalk'
        obtain ⟨rfl, hhead⟩ := Prod.mk.inj (Option.some.inj hwalk')
        exact .inl hhead
      · rw [← hone j hj, hlist, List.countP_cons_of_neg]
        simp [ForwNode.isOwnOf, hown]

theorem State.sendBegin_walkOk (s : State p) (now : Time) : (s.sendBegin now).WalkOk := by
  intro t pos hwalk
  left
  unfold State.sendBegin at hwalk ⊢
  cases hlist : s.forwList with
  | nil =>
    rw [hlist] at hwalk
    cases hwalk
  | cons f l =>
    rw [hlist] at hwalk
    exact (Prod.mk.inj (Option.some.inj hwalk)).2

theorem State.OneEach.queues (h : s.OneEach) (hq : s.Queues s') : s'.OneEach := by
  intro j hj
  rw [hq.length] at hj
  rcases hq.list with heq | ⟨f, hforwarded, _, _, heq⟩
  · rw [heq]
    exact h j hj
  · rw [heq, List.countP_cons_of_neg]
    · exact h j hj
    · simp [ForwNode.isOwnOf, hforwarded]

theorem step_oneEach (hs : s.Wf) (hok : s.QueueOk) (hwalk : s.WalkOk) (hone : s.OneEach)
    (hgood : RearmsBehind (s, e)) (h : step s e = some s') :
    s'.WalkOk ∧ s'.OneEach ∧ LosesNothing (s, e) := by
  have hlose : (∀ f ∈ s.forwList, f ∈ s'.forwList ∨ s.transmitted e = some f) → LosesNothing (s, e) := by
    intro hall u hu
    rw [h] at hu
    cases hu
    exact hall
  rcases step_queues hs h with ⟨now, rnd, rfl, hnext⟩ | ⟨_, _, hqueues, hafter⟩
  · obtain ⟨h1, h2, h3⟩ := State.sendNext_oneEach hok hwalk hone hgood hnext
    exact ⟨h1, h2, hlose h3⟩
  · refine ⟨?_, hone.queues hqueues, hlose fun f hf => .inl ?_⟩
    · rcases hafter with hnone | ⟨now, rfl⟩
      · exact State.walkOk_of_none hnone
      · exact s.sendBegin_walkOk now
    · rcases hqueues.list with heq | ⟨x, _, _, _, heq⟩
      · rwa [heq]
      · rw [heq]
        exact List.mem_cons_of_mem x hf

/-- **The send queue.** In a run that re-arms own packets behind what is due, every interface has exactly
one own packet in the queue in every state, after every pass among them, and no packet leaves the queue
but to be transmitted. -/
theorem send_queue {cfg : Config} {tr : List (State p × Event p)} (h : Run p cfg tr s)
    (hgood : ∀ x ∈ tr, RearmsBehind x) :
    (∀ x ∈ tr, x.1.OneEach ∧ LosesNothing x) ∧ s.OneEach := by
  have hinv := Trace.invariant_of_good (G := fun _ t e => RearmsBehind (t, e))
    (I := fun pre t => t.Wf ∧ t.QueueOk ∧ t.WalkOk ∧ t.OneEach ∧
      ∀ x ∈ pre, x.1.OneEach ∧ LosesNothing x) h
    ⟨cfg.boot_wf p, (cfg.boot_queue p).1, State.walkOk_of_none (cfg.walk_boot p),
      (cfg.boot_queue p).2, by simp⟩
    (fun pre t e u ⟨ht, hok, hwalk, hone, hpre⟩ hG hu => by
      obtain ⟨hwalk', hone', hlose⟩ := step_oneEach ht hok hwalk hone hG hu
      refine ⟨step_wf ht hu, step_queueOk ht hok hu, hwalk', hone', fun x hx => ?_⟩
      rcases List.mem_append.mp hx with hx | hx
      · exact hpre x hx
      · rw [List.mem_singleton.mp hx]
        exact ⟨hone, hlose⟩)
    fun pre x post heq => hgood x (by rw [heq]; simp)
  exact ⟨hinv.2.2.2.2, hinv.2.2.2.1⟩

/-- The send time of an own packet, where it does not wrap. -/
theorem State.toNat_sendTimeOf (hinterval : jitter.toNat ≤ s.originatorInterval.toInt)
    (hwrap : now.toNat + s.originatorInterval.toInt - jitter.toNat + rnd < 2 ^ 32) :
    ((s.sendTimeOf now rnd).toNat : ℤ) =
      now.toNat + s.originatorInterval.toInt - jitter.toNat + rnd := by
  have hj : jitter.toNat = 100 := rfl
  rw [hj] at hinterval hwrap ⊢
  have hmsb : s.originatorInterval.msb = false := by
    rw [BitVec.msb_eq_toInt]
    simp only [decide_eq_false_iff_not, not_lt]
    omega
  rw [BitVec.toInt_eq_toNat_of_msb hmsb] at hinterval hwrap ⊢
  unfold State.sendTimeOf
  rw [BitVec.signExtend_eq_setWidth_of_msb_false hmsb]
  simp only [BitVec.toNat_add, BitVec.toNat_sub, BitVec.toNat_setWidth, BitVec.toNat_ofNat, hj]
  omega

/-- Own packets are re-armed behind what is due where the interval is at least the jitter and the clock
neither goes back nor wraps. -/
theorem rearmsBehind_of_interval {t : Time} {pos : Option ℕ} (hwalk : s.walk = some (t, pos))
    (hinterval : 100 ≤ s.originatorInterval.toInt) (hclock : t ≤ now)
    (hwrap : now.toNat + 2 ^ 16 < 2 ^ 32) (hrnd : rnd < 2 * jitter.toNat) :
    RearmsBehind (s, .sendNext now rnd) := by
  intro f _ _ walk hmem next _ hdue
  obtain rfl : (t, pos) = walk := Option.some.inj (hwalk.symm.trans hmem)
  refine BitVec.le_trans (BitVec.le_trans hdue hclock) ?_
  show now ≤ s.sendTimeOf now rnd
  have hj : jitter.toNat = 100 := rfl
  have hlt : s.originatorInterval.toInt < 2 ^ 15 := BitVec.toInt_lt
  have htime := State.toNat_sendTimeOf (s := s) (by rw [hj]; exact hinterval)
    (show now.toNat + s.originatorInterval.toInt - jitter.toNat + rnd < 2 ^ 32 by omega)
  rw [BitVec.le_def]
  omega

/-- A node that sends every millisecond. -/
def Net.hasty : Config :=
  { Net.cfg with
    originatorInterval := 1
    originatorInterval_pos := by decide
    now := fun _ => 1000
    rnd := fun i => if i = 1 then 50 else 0
    rnd_lt := fun i => by split_ifs <;> decide }

/-- A pass of the usual node keeps both of its packets. -/
theorem send_queue_linkUp : ∃ tr s,
    Run Net.p64 Net.cfg tr s ∧ tr.map Prod.snd = Net.linkUp Net.p64 ∧ s.OneEach := by
  obtain ⟨tr, s, hrun, hevents, hcheck⟩ := Run.of_exec Net.cfg (Net.linkUp Net.p64)
    (fun tr _ => decide (∀ x ∈ tr, RearmsBehind x)) (by decide +kernel)
  exact ⟨tr, s, hrun, hevents, (send_queue hrun (of_decide_eq_true hcheck)).2⟩

/-- The packet of the first interface is re-armed in front of the second one, and lost with it. -/
theorem send_queue_loses : ∃ tr s,
    Run Net.p64 Net.hasty tr s ∧
    tr.map Prod.snd = [.sendBegin 1000, .sendNext 1000 0, .sendNext 1000 199, .sendNext 1000 0] ∧
    s.walk = none ∧ ¬ s.OneEach := by
  obtain ⟨tr, s, hrun, hevents, hcheck⟩ := Run.of_exec (p := Net.p64) Net.hasty
    [.sendBegin 1000, .sendNext 1000 0, .sendNext 1000 199, .sendNext 1000 0]
    (fun _ (s : State Net.p64) => decide (s.walk = none ∧ ¬ s.OneEach)) (by decide +kernel)
  exact ⟨tr, s, hrun, hevents, of_decide_eq_true hcheck⟩

end BatmanAdv
