import BatmanAdv.RouterLive
import Mathlib.Data.List.MinMax

/-!
# Forwarded OGMs

`schedule_forward_packet` takes `tq` and `ttl` of the rebroadcast from the packet or from the router of
the originator. What is stored about a neighbour never exceeds what OGMs of the originator have carried,
so that a rebroadcast promises no better link than was heard of.
-/

namespace BatmanAdv

open Transition

variable {p : Platform} {g : Garbage p} {rx : Ogm} {s s' : State p}

/-! ## OGMs received -/

def ogmsOf (tr : List (State p × Event p)) (orig : Mac) : List BatmanPacket :=
  tr.filterMap fun x =>
    match x.2 with
    | .ogm _ rx => if rx.pkt.orig = orig then some rx.pkt else none
    | _ => none

def maxTq (tr : List (State p × Event p)) (orig : Mac) : ℕ :=
  ((ogmsOf tr orig).map (·.tq.toNat)).foldr max 0

def maxTtl (tr : List (State p × Event p)) (orig : Mac) : ℕ :=
  ((ogmsOf tr orig).map (·.ttl.toNat)).foldr max 0

theorem foldr_max_append (l l' : List ℕ) : l.foldr max 0 ≤ (l ++ l').foldr max 0 :=
  List.max_le_of_forall_le l _ fun _ hx => List.le_max_of_le (List.mem_append_left _ hx) le_rfl

theorem ogmsOf_append (tr tr' : List (State p × Event p)) (orig : Mac) :
    ogmsOf (tr ++ tr') orig = ogmsOf tr orig ++ ogmsOf tr' orig :=
  List.filterMap_append

theorem maxTq_append (tr tr' : List (State p × Event p)) (orig : Mac) :
    maxTq tr orig ≤ maxTq (tr ++ tr') orig := by
  unfold maxTq
  rw [ogmsOf_append, List.map_append]
  exact foldr_max_append _ _

theorem maxTtl_append (tr tr' : List (State p × Event p)) (orig : Mac) :
    maxTtl tr orig ≤ maxTtl (tr ++ tr') orig := by
  unfold maxTtl
  rw [ogmsOf_append, List.map_append]
  exact foldr_max_append _ _

theorem mem_ogmsOf_snoc (tr : List (State p × Event p)) (s : State p) (g : Garbage p) (rx : Ogm) :
    rx.pkt ∈ ogmsOf (tr ++ [(s, .ogm g rx)]) rx.pkt.orig := by
  rw [ogmsOf_append]
  refine List.mem_append_right _ ?_
  unfold ogmsOf
  simp

theorem tq_le_maxTq (tr : List (State p × Event p)) (s : State p) (g : Garbage p) (rx : Ogm) :
    rx.pkt.tq.toNat ≤ maxTq (tr ++ [(s, .ogm g rx)]) rx.pkt.orig :=
  List.le_max_of_le (List.mem_map_of_mem (mem_ogmsOf_snoc tr s g rx)) le_rfl

theorem ttl_le_maxTtl (tr : List (State p × Event p)) (s : State p) (g : Garbage p) (rx : Ogm) :
    rx.pkt.ttl.toNat ≤ maxTtl (tr ++ [(s, .ogm g rx)]) rx.pkt.orig :=
  List.le_max_of_le (List.mem_map_of_mem (mem_ogmsOf_snoc tr s g rx)) le_rfl

/-! ## What is stored about a neighbour -/

/-- Every link quality in the ring, their average and the ttl are bounded. -/
structure NeighNode.Bounded (tq ttl : ℕ) (n : NeighNode p) : Prop where
  recv : ∀ lq ∈ n.tqRecv.toList, lq.toNat ≤ tq
  avg : n.tqAvg.toNat ≤ tq
  ttl : n.lastTtl.toNat ≤ ttl

theorem NeighNode.Bounded.mono {tq ttl tq' ttl' : ℕ} {n : NeighNode p} (h : n.Bounded tq ttl)
    (htq : tq ≤ tq') (httl : ttl ≤ ttl') : n.Bounded tq' ttl' :=
  ⟨fun lq hlq => (h.recv lq hlq).trans htq, h.avg.trans htq, h.ttl.trans httl⟩

theorem NeighNode.bounded_new (tq ttl ptr : ℕ) (addr : Mac) (origNode ifIncoming : ℕ) :
    (NeighNode.new ptr addr origNode ifIncoming : NeighNode p).Bounded tq ttl := by
  refine ⟨fun lq hlq => ?_, Nat.zero_le _, Nat.zero_le _⟩
  have hzero : lq = 0 := by
    unfold NeighNode.new at hlq
    simp only [Vector.toList_replicate] at hlq
    exact List.eq_of_mem_replicate hlq
  rw [hzero]
  exact Nat.zero_le _

theorem NeighNode.Bounded.pushTq {tq ttl : ℕ} {n : NeighNode p} (h : n.Bounded tq ttl) {value : Byte}
    (hvalue : value.toNat ≤ tq) : (n.pushTq value).Bounded tq ttl := by
  have hrecv : ∀ lq ∈ (ringBufferSet n.tqRecv n.tqIndex value).1.toList, lq.toNat ≤ tq := by
    intro lq hlq
    rcases mem_ringBufferSet hlq with hlq | rfl
    · exact h.recv lq hlq
    · exact hvalue
  exact ⟨hrecv, ringBufferAvg_le hrecv, h.ttl⟩

theorem NeighNode.Bounded.receive {tq ttl : ℕ} {n : NeighNode p} (h : n.Bounded tq ttl)
    {pkt : BatmanPacket} (htq : pkt.tq.toNat ≤ tq) (httl : pkt.ttl.toNat ≤ ttl) (dup : Bool)
    (rcvdTime : Time) : (n.receive pkt dup rcvdTime).Bounded tq ttl := by
  have htouch : ({ n with lastValid := rcvdTime } : NeighNode p).Bounded tq ttl :=
    ⟨h.recv, h.avg, h.ttl⟩
  have hpush := htouch.pushTq htq
  unfold NeighNode.receive
  cases dup with
  | true => exact hpush
  | false => exact ⟨hpush.recv, hpush.avg, httl⟩

/-- The neighbours of an entry are bounded by what its originator has carried. -/
def State.Bounded (tq ttl : Mac → ℕ) (s : State p) : Prop :=
  ∀ o ∈ s.origs, ∀ n ∈ o.neighList, n.Bounded (tq o.orig) (ttl o.orig)

variable {tq ttl : Mac → ℕ}

theorem State.Bounded.modOrig (h : s.Bounded tq ttl) {ptr : ℕ} {f : OrigNode p → OrigNode p}
    (horig : ∀ o, (f o).orig = o.orig)
    (hf : ∀ o ∈ s.origs, o.ptr = ptr → (∀ n ∈ o.neighList, n.Bounded (tq o.orig) (ttl o.orig)) →
      ∀ n ∈ (f o).neighList, n.Bounded (tq o.orig) (ttl o.orig)) :
    (s.modOrig ptr f).Bounded tq ttl := by
  refine State.forall_modOrig h fun o ho hptr hn => ?_
  rw [horig]
  exact hf o ho hptr hn

theorem Write.bounded (h : Write rx s s') (hs : s.Wf) (hb : s.Bounded tq ttl)
    (htq : rx.pkt.tq.toNat ≤ tq rx.pkt.orig) (httl : rx.pkt.ttl.toNat ≤ ttl rx.pkt.orig) :
    s'.Bounded tq ttl := by
  cases h with
  | clock => exact hb
  | create addr hforeign =>
    intro o ho
    rcases hs.mem_getOrigNode ho with ho | ⟨rfl, _⟩
    · exact hb o ho
    · exact fun n hn => absurd hn List.not_mem_nil
  | own ptr b c => exact hb.modOrig (fun _ => rfl) fun o _ _ hn => hn
  | neighbor origNode origNeighNode hneigh hat hnone =>
    refine State.Bounded.modOrig (s := s) hb (fun _ => rfl) fun o _ _ hn n hn' => ?_
    rcases List.mem_append.mp hn' with hn' | hn'
    · exact hn n hn'
    · rw [List.mem_singleton.mp hn']
      exact NeighNode.bounded_new _ _ _ _ _ _
  | valid ptr neigh =>
    refine hb.modOrig (fun _ => rfl) fun o _ _ hn n hn' => ?_
    obtain ⟨n', hn'', rfl⟩ := List.mem_map.mp hn'
    dsimp only
    split_ifs
    · exact ⟨(hn n' hn'').recv, (hn n' hn'').avg, (hn n' hn'').ttl⟩
    · exact hn n' hn''
  | entry ptr f => exact hb.modOrig (fun _ => rfl) fun o _ _ hn => hn
  | pushZero ptr dup hat =>
    refine hb.modOrig (fun _ => rfl) fun o _ _ hn n hn' => ?_
    obtain ⟨n', hn'', rfl⟩ := List.mem_map.mp hn'
    split_ifs
    · exact hn n' hn''
    · exact (hn n' hn'').pushTq (Nat.zero_le _)
  | receive ptr hat neigh pkt htq' httl' dup =>
    refine hb.modOrig (fun _ => rfl) fun o ho hptr hn n hn' => ?_
    have horig : o.orig = rx.pkt.orig := by
      obtain ⟨o', ho', hptr', horig'⟩ := hat
      rw [hs.eq_of_ptr ho ho' (hptr.trans hptr'.symm), horig']
    obtain ⟨n', hn'', rfl⟩ := List.mem_map.mp hn'
    dsimp only
    split_ifs
    · refine (hn n' hn'').receive ?_ ?_ dup _
      · rw [horig]
        exact htq'.trans htq
      · rw [horig, httl']
        exact httl
    · exact hn n' hn''
  | route ptr hat best hbest recv len =>
    exact State.Bounded.modOrig (s := s) (f := (·.withRoutes (updateRoutes s.hwAddrs s.currTime
      s.trans (s.origAt ptr) best (some recv) len).2)) hb (fun _ => rfl) fun o _ _ hn => hn
  | gateway gwList => exact hb

theorem Move.bounded (h : Move g rx s s') (hs : s.Wf) (hb : s.Bounded tq ttl)
    (htq : rx.pkt.tq.toNat ≤ tq rx.pkt.orig) (httl : rx.pkt.ttl.toNat ≤ ttl rx.pkt.orig) :
    s'.Bounded tq ttl := by
  cases h with
  | write h => exact h.bounded hs hb htq httl
  | count ptr hat =>
    refine hb.modOrig (fun _ => rfl) fun o _ _ hn n hn' => ?_
    obtain ⟨n', hn'', rfl⟩ := List.mem_map.mp hn'
    exact ⟨(hn n' hn'').recv, (hn n' hn'').avg, (hn n' hn'').ttl⟩
  | forward f hptr hown => exact hb

theorem State.Bounded.purgeOrig (hs : s.Wf) (hb : s.Bounded tq ttl) {currTime gwTime : Time} :
    (s.purgeOrig g currTime gwTime).Bounded tq ttl := by
  obtain ⟨_, hfrom, _⟩ := State.origs_purgeOrig g currTime gwTime hs
  intro x hx n hn
  obtain ⟨o, ho, _, hpurged⟩ := hfrom x hx
  rw [hpurged.neighList] at hn
  rw [hpurged.orig]
  exact hb o ho n (List.mem_filter.mp hn).1

theorem State.Quiet.bounded (h : s.Quiet s') (hb : s.Bounded tq ttl) : s'.Bounded tq ttl := by
  intro o' ho' n hn
  obtain ⟨o, ho, hsame⟩ := h.mem ho'
  rw [hsame] at hn ⊢
  exact hb o ho n hn

theorem State.Bounded.mono {tq' ttl' : Mac → ℕ} (hb : s.Bounded tq ttl) (htq : ∀ m, tq m ≤ tq' m)
    (httl : ∀ m, ttl m ≤ ttl' m) : s.Bounded tq' ttl' :=
  fun o ho n hn => (hb o ho n hn).mono (htq _) (httl _)

theorem Run.bounded {cfg : Config} {tr : List (State p × Event p)} (h : Run p cfg tr s) :
    s.Bounded (maxTq tr) (maxTtl tr) := by
  have hinv := Trace.invariant (I := fun tr s => s.Wf ∧ s.Bounded (maxTq tr) (maxTtl tr)) h
    ⟨cfg.boot_wf p, cfg.forall_origs_boot⟩
    fun pre t e u ⟨ht, hb⟩ hstep => by
      refine ⟨step_wf ht hstep, ?_⟩
      have hb' : t.Bounded (maxTq (pre ++ [(t, e)])) (maxTtl (pre ++ [(t, e)])) :=
        hb.mono (maxTq_append _ _) (maxTtl_append _ _)
      rcases step_cases ht hstep with ⟨g, rx, rfl, _, _, hmoves⟩ | ⟨g, currTime, gwTime, rfl, rfl⟩ |
        ⟨_, _, hquiet⟩
      · exact (hmoves.preserves ht hb' fun _ _ hwf hI hmove =>
          hmove.bounded hwf hI (tq_le_maxTq pre t g rx) (ttl_le_maxTtl pre t g rx)).2
      · exact hb'.purgeOrig ht
      · exact hquiet.bounded hb'
  exact hinv.2

/-! ## The packet that is queued -/

/-- The `tq` and `ttl` `schedule_forward_packet` rebroadcasts the OGM with, before the hop penalty. -/
def State.forwarded (s : State p) (g : Garbage p) (rx : Ogm) : Byte × Byte :=
  forwardTqTtl g (((s.counted g rx).ranked g rx).origAt (s.counted g rx).origNode) rx.neigh
    ((s.counted g rx).rate rx).pkt

theorem Counted.forward_queued {c : Counted p} {directlinkFlag : Bool} {f : ForwNode}
    (hranked : (c.ranked g rx).forwList = c.state.forwList)
    (h : (c.forward g rx directlinkFlag).forwList = f :: c.state.forwList) :
    1 < (c.rate rx).pkt.ttl.toNat ∧ f.pack.orig = (c.rate rx).pkt.orig ∧
      f.pack.tq = penalizeHop
        (forwardTqTtl g ((c.ranked g rx).origAt c.origNode) rx.neigh (c.rate rx).pkt).1 ∧
      f.pack.ttl =
        (forwardTqTtl g ((c.ranked g rx).origAt c.origNode) rx.neigh (c.rate rx).pkt).2 := by
  unfold Counted.forward State.scheduleForwardPacket at h
  by_cases httl : (c.rate rx).pkt.ttl.toNat ≤ 1
  · rw [if_pos httl, hranked] at h
    exact absurd h.symm (List.cons_ne_self _ _)
  · rw [if_neg httl] at h
    obtain ⟨rfl, _⟩ := List.cons.inj h
    exact ⟨not_le.mp httl, rfl, rfl, rfl⟩

/-- **What an OGM queues.** -/
theorem State.queued {f : ForwNode} (hs : s.Wf)
    (h : (s.batmanOgm g rx).1.forwList = f :: s.forwList) :
    s.ogmCase rx = .process ∧ 1 < rx.pkt.ttl.toNat ∧ f.pack.orig = rx.pkt.orig ∧
      f.pack.tq = penalizeHop (s.forwarded g rx).1 ∧ f.pack.ttl = (s.forwarded g rx).2 := by
  have hne : ∀ l : List ForwNode, l = s.forwList → l = f :: s.forwList → False :=
    fun l h1 h2 => List.cons_ne_self f s.forwList (h2.symm.trans h1)
  by_cases hprocess : s.ogmCase rx = .process
  · obtain ⟨hmoves, hat, hat', hneigh⟩ := State.counted_moves (g := g) hs hprocess
    have hcounted := hmoves.wf hs
    obtain ⟨_, hpkt, _, _⟩ := Counted.rate_moves hcounted hat'
    have hforw : (s.counted g rx).state.forwList = s.forwList :=
      ((State.counted_writes (g := g) hs hprocess).1.frame.2.1).trans (s.forwList_countState g rx)
    have hranked : ((s.counted g rx).ranked g rx).forwList = (s.counted g rx).state.forwList :=
      (Counted.ranked_moves hcounted hat hat' hneigh).frame.2.1
    rw [State.batmanOgm_of_process hprocess] at h
    dsimp only at h
    rcases (s.counted g rx).finish_cases g rx with heq | heq | ⟨flag, heq⟩
    · rw [heq] at h
      exact (hne _ hforw h).elim
    · rw [heq] at h
      exact (hne _ (hranked.trans hforw) h).elim
    · rw [heq, ← hforw] at h
      obtain ⟨httl, horig, htq, httl'⟩ := Counted.forward_queued hranked h
      rw [hpkt] at httl horig
      exact ⟨hprocess, httl, horig, htq, httl'⟩
  · refine (hne _ ?_ h).elim
    rcases State.batmanOgm_cases hs g rx with ⟨_, hwrites⟩ | ⟨_, heq⟩ | ⟨hc, _⟩
    · exact hwrites.frame.2.1
    · rw [heq]
      exact s.forwList_countState g rx
    · exact absurd hc hprocess

/-! ## The entry it is forwarded for -/

def State.forwardEntry (s : State p) (g : Garbage p) (rx : Ogm) : OrigNode p :=
  ((s.counted g rx).ranked g rx).origAt (s.counted g rx).origNode

theorem State.forwardEntry_spec (hs : s.Wf) (hprocess : s.ogmCase rx = .process) :
    Moves g rx s ((s.counted g rx).ranked g rx) ∧
      s.forwardEntry g rx ∈ ((s.counted g rx).ranked g rx).origs ∧
      (s.forwardEntry g rx).orig = rx.pkt.orig := by
  obtain ⟨hcount, hat, hat', hneigh⟩ := State.counted_moves (g := g) hs hprocess
  have hranked := Counted.ranked_moves (g := g) (hcount.wf hs) hat hat' hneigh
  have hall : Moves g rx s ((s.counted g rx).ranked g rx) := hcount.trans hranked.moves
  obtain ⟨hmem, _, horig⟩ := (hall.wf hs).origAt_mem (hranked.at (hcount.wf hs) hat)
  exact ⟨hall, hmem, horig⟩

theorem OrigNode.neighAt_mem {o : OrigNode p} {n : NeighNode p} (hn : n ∈ o.neighList) :
    o.neighAt g n.ptr ∈ o.neighList := by
  unfold OrigNode.neighAt
  cases hfind : o.neighList.find? (·.ptr = n.ptr) with
  | none => exact absurd (List.find?_eq_none.mp hfind n hn) (by simp)
  | some m => exact List.mem_of_find?_eq_some hfind

theorem Run.forwardEntry_bounded {cfg : Config} {tr : List (State p × Event p)} (h : Run p cfg tr s)
    (hprocess : s.ogmCase rx = .process) : ∀ n ∈ (s.forwardEntry g rx).neighList,
      n.Bounded (maxTq (tr ++ [(s, .ogm g rx)]) rx.pkt.orig)
        (maxTtl (tr ++ [(s, .ogm g rx)]) rx.pkt.orig) := by
  obtain ⟨hmoves, hmem, horig⟩ := State.forwardEntry_spec (g := g) h.wf hprocess
  have hbefore : s.Bounded (maxTq (tr ++ [(s, .ogm g rx)])) (maxTtl (tr ++ [(s, .ogm g rx)])) :=
    h.bounded.mono (maxTq_append _ _) (maxTtl_append _ _)
  have hafter := (hmoves.preserves h.wf hbefore fun _ _ hwf hI hmove =>
    hmove.bounded hwf hI (tq_le_maxTq tr s g rx) (ttl_le_maxTtl tr s g rx)).2
  intro n hn
  have hn' := hafter _ hmem n hn
  rwa [horig] at hn'

theorem step_ogm (h : step s (.ogm g rx) = some s') : s' = (s.batmanOgm g rx).1 := by
  cases stepped h with
  | ogm => rfl

/-! ## No quality inflation -/

/-- Every router is in the list of its entry. -/
def State.RouterListed (s : State p) : Prop :=
  ∀ o ∈ s.origs, o.router = none ∨ ∃ n ∈ o.neighList, o.router = some n.ptr

instance (s : State p) : Decidable s.RouterListed :=
  inferInstanceAs (Decidable (∀ o ∈ s.origs, _ ∨ _))

theorem State.routerOk_of_listed {currTime gwTime : Time} (hs : s.Wf) (hok : s.RouterOk)
    (hlisted : (s.purgeOrig g currTime gwTime).RouterListed) :
    (s.purgeOrig g currTime gwTime).RouterOk := by
  obtain ⟨_, hfrom, _⟩ := State.origs_purgeOrig g currTime gwTime hs
  intro x hx
  obtain ⟨o, ho, _, hpurged⟩ := hfrom x hx
  have hlisted' := hlisted x hx
  rw [hpurged.routerOk_iff]
  rw [hpurged] at hlisted'
  have hif : ∀ n ∈ o.keptNeighs currTime, o.router = some n.ptr → o.batmanIf = some n.ifIncoming :=
    fun n hn => (hok o ho).batmanIf (hs.node o ho) (List.mem_filter.mp hn).1
  unfold OrigNode.purge at hlisted' ⊢
  dsimp only at hlisted' ⊢
  split_ifs at hlisted' ⊢ with hre
  · refine OrigNode.routerOk_setRouter hif fun n hn => ?_
    rcases bestNeighNode_cases (o.keptNeighs currTime) with ⟨_, hnone⟩ | ⟨b, hb, hbest, _⟩
    · rw [hnone] at hn
      cases hn
    · obtain rfl : b = n := Option.some.inj (hbest.symm.trans hn)
      exact ⟨b, hb, rfl, rfl⟩
  · rcases hlisted' with hnone | ⟨n, hn, hptr⟩
    · exact .inl hnone
    · exact .inr ⟨n, hn, hptr, hif n hn hptr⟩

theorem Run.routerOk_of_listed {cfg : Config} {tr : List (State p × Event p)} (h : Run p cfg tr s)
    (hpurge : ∀ x ∈ tr, ∀ g currTime gwTime, x.2 = .purge g currTime gwTime →
      (x.1.purgeOrig g currTime gwTime).RouterListed) : s.RouterOk := by
  have hinv := Trace.invariant_of_good (I := fun _ s => s.Wf ∧ s.RouterOk)
    (G := fun _ s e => ∀ g currTime gwTime, e = .purge g currTime gwTime →
      (s.purgeOrig g currTime gwTime).RouterListed) h
    ⟨cfg.boot_wf p, cfg.forall_origs_boot⟩
    (fun pre t e u ⟨ht, hok⟩ hgood hstep => by
      refine ⟨step_wf ht hstep, ?_⟩
      rcases step_cases ht hstep with ⟨g, rx, rfl, _, _, hmoves⟩ | ⟨g, currTime, gwTime, rfl, rfl⟩ |
        ⟨_, _, hquiet⟩
      · exact (hmoves.preserves ht hok fun _ _ hwf hI hmove => hmove.routerOk hwf hI).2
      · exact State.routerOk_of_listed ht hok (hgood g currTime gwTime rfl)
      · exact hquiet.routerOk hok)
    fun pre x post heq => hpurge x (by rw [heq]; simp)
  exact hinv.2

theorem penalizeHop_le {tq : Byte} {bound : ℕ} (h : tq.toNat ≤ bound) :
    (penalizeHop tq).toNat ≤ bound * (tqMaxValue - tqHopPenalty) / tqMaxValue := by
  have htq := tq.isLt
  have hdiv : tq.toNat * (tqMaxValue - tqHopPenalty) / tqMaxValue ≤
      bound * (tqMaxValue - tqHopPenalty) / tqMaxValue :=
    Nat.div_le_div_right (Nat.mul_le_mul_right _ h)
  unfold penalizeHop
  rw [BitVec.toNat_ofNat]
  exact (Nat.mod_le _ _).trans hdiv

/-- **No quality inflation.** A queued OGM carries at most what the best OGM of its originator carried
on arrival, less the hop penalty, in every run whose purges leave the routers in their lists. -/
theorem forward_tq_le {cfg : Config} {tr : List (State p × Event p)} {f : ForwNode}
    (h : Run p cfg tr s)
    (hpurge : ∀ x ∈ tr, ∀ g currTime gwTime, x.2 = .purge g currTime gwTime →
      (x.1.purgeOrig g currTime gwTime).RouterListed)
    (hstep : step s (.ogm g rx) = some s') (hqueued : s'.forwList = f :: s.forwList) :
    f.pack.tq.toNat ≤ maxTq (tr ++ [(s, .ogm g rx)]) f.pack.orig * (tqMaxValue - tqHopPenalty) /
        tqMaxValue ∧
      (0 < maxTq (tr ++ [(s, .ogm g rx)]) f.pack.orig →
        f.pack.tq.toNat < maxTq (tr ++ [(s, .ogm g rx)]) f.pack.orig) := by
  rw [step_ogm hstep] at hqueued
  obtain ⟨hprocess, _, horig, htq, _⟩ := State.queued h.wf hqueued
  obtain ⟨hmoves, hmem, _⟩ := State.forwardEntry_spec (g := g) h.wf hprocess
  have hbounded := h.forwardEntry_bounded (g := g) hprocess
  have hrouter : (s.forwardEntry g rx).RouterOk :=
    (hmoves.preserves h.wf (h.routerOk_of_listed hpurge) fun _ _ hwf hI hmove =>
      hmove.routerOk hwf hI).2 _ hmem
  have hpkt : ((s.counted g rx).rate rx).pkt.tq.toNat ≤
      maxTq (tr ++ [(s, .ogm g rx)]) rx.pkt.orig := by
    obtain ⟨hcount, _, hat', _⟩ := State.counted_moves (g := g) h.wf hprocess
    exact (Counted.rate_moves (hcount.wf h.wf) hat').2.2.1.trans (tq_le_maxTq tr s g rx)
  have hforwarded : (s.forwarded g rx).1.toNat ≤ maxTq (tr ++ [(s, .ogm g rx)]) rx.pkt.orig := by
    show (forwardTqTtl g (s.forwardEntry g rx) rx.neigh _).1.toNat ≤ _
    generalize s.forwardEntry g rx = o at hbounded hrouter
    unfold forwardTqTtl
    cases hr : o.router with
    | none => exact hpkt
    | some ptr =>
      dsimp only
      split_ifs
      · -- the router is one of the neighbours
        rcases hrouter with hnone | ⟨n, hn, hptr, _⟩
        · rw [hr] at hnone
          cases hnone
        · obtain rfl : ptr = n.ptr := Option.some.inj (hr.symm.trans hptr)
          exact (hbounded _ (OrigNode.neighAt_mem hn)).avg
      · exact hpkt
  rw [horig, htq]
  have hle := penalizeHop_le hforwarded
  refine ⟨hle, fun hpos => hle.trans_lt ?_⟩
  unfold tqMaxValue tqHopPenalty
  omega

/-- A step that queues a packet with `q`. -/
def State.queues (s : State p) (e : Event p) (q : ForwNode → Bool) : Bool :=
  (step s e).any fun s' =>
    match s'.forwList with
    | f :: l => decide (l = s.forwList) && q f
    | [] => false

theorem exists_queued {e : Event p} {q : ForwNode → Bool} (h : s.queues e q = true) :
    ∃ s' f, step s e = some s' ∧ s'.forwList = f :: s.forwList ∧ q f = true := by
  obtain ⟨s', hstep, hs'⟩ := (Option.any_eq_true _ _).mp h
  cases hlist : s'.forwList with
  | nil =>
    rw [hlist] at hs'
    cases hs'
  | cons f l =>
    rw [hlist] at hs'
    obtain ⟨hl, hq⟩ := (Bool.and_eq_true _ _).mp hs'
    exact ⟨s', f, hstep, by rw [hlist, of_decide_eq_true hl], hq⟩

/-- The third OGM of `A`, after a purge. -/
def Net.third : Event Net.p64 := .ogm (Net.zeros Net.p64) (Net.ogm Net.macA Net.macA 0 3 2100)

theorem forward_tq_third : ∃ tr s s' f, Run Net.p64 Net.cfg tr s ∧
    tr.map Prod.snd = Net.linkUp Net.p64 ++ [.purge (Net.zeros Net.p64) 2000 2000] ∧
    step s Net.third = some s' ∧ s'.forwList = f :: s.forwList ∧
    f.pack.tq.toNat ≤ maxTq (tr ++ [(s, Net.third)]) f.pack.orig * (tqMaxValue - tqHopPenalty) /
      tqMaxValue := by
  obtain ⟨tr, s, hrun, hevents, hcheck⟩ := Run.of_exec Net.cfg
    (Net.linkUp Net.p64 ++ [.purge (Net.zeros Net.p64) 2000 2000])
    (fun tr s => (tr.all fun x => x.2.onPurge fun g currTime gwTime =>
      decide (x.1.purgeOrig g currTime gwTime).RouterListed) && s.queues Net.third fun _ => true)
    (by decide +kernel)
  obtain ⟨hpurge, hqueue⟩ := (Bool.and_eq_true _ _).mp hcheck
  obtain ⟨s', f, hstep, hqueued, _⟩ := exists_queued hqueue
  exact ⟨tr, s, s', f, hrun, hevents, hstep, hqueued,
    (forward_tq_le hrun (forall_purge_of_all hpurge) hstep hqueued).1⟩

end BatmanAdv
