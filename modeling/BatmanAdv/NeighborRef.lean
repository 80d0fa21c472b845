import BatmanAdv.Reachable

/-!
# The originator entry of a neighbour

Every neighbour points to the originator entry of its own address, `orig_node`, and `update_orig`
reads `bcast_own_sum` through that pointer. An entry and the neighbours that point to it are refreshed
by different packets, so that `purge_orig` may free the entry and keep the neighbour.
-/

namespace BatmanAdv

open Transition

variable {p : Platform} {g : Garbage p} {rx : Ogm} {currTime gwTime : Time} {s s' : State p}

/-- Every neighbour in the list points to an entry with its address. -/
def OrigNode.RefsOk (s : State p) (o : OrigNode p) : Prop :=
  ∀ n ∈ o.neighList, s.At n.origNode n.addr

instance (s : State p) (o : OrigNode p) : Decidable (o.RefsOk s) :=
  inferInstanceAs (Decidable (∀ n ∈ o.neighList, _))

def State.RefsOk (s : State p) : Prop := ∀ o ∈ s.origs, o.RefsOk s

instance (s : State p) : Decidable s.RefsOk := inferInstanceAs (Decidable (∀ o ∈ s.origs, _))

/-- No entry expires that a neighbour which stays, of an entry which stays, points to. -/
def State.KeepsRefs (s : State p) (currTime : Time) : Prop :=
  ∀ o ∈ s.origs, expired o.lastValid currTime = false →
    ∀ n ∈ o.neighList, expired n.lastValid currTime = false →
      ∀ e ∈ s.origs, e.ptr = n.origNode → expired e.lastValid currTime = false

instance (s : State p) (currTime : Time) : Decidable (s.KeepsRefs currTime) :=
  inferInstanceAs (Decidable (∀ o ∈ s.origs, _ → ∀ n ∈ o.neighList, _ → ∀ e ∈ s.origs, _))

/-! ## OGMs -/

theorem OrigNode.RefsOk.map {o o' : OrigNode p} {f : NeighNode p → NeighNode p} (h : o.RefsOk s)
    (hlist : o'.neighList = o.neighList.map f)
    (hf : ∀ n, (f n).addr = n.addr ∧ (f n).origNode = n.origNode) : o'.RefsOk s := by
  intro n hn
  rw [hlist] at hn
  obtain ⟨n', hn', rfl⟩ := List.mem_map.mp hn
  rw [(hf n').1, (hf n').2]
  exact h n' hn'

theorem OrigNode.RefsOk.mapSameLink {o o' : OrigNode p} {f : NeighNode p → NeighNode p}
    (h : o.RefsOk s) (hlist : o'.neighList = o.neighList.map f) (hf : ∀ n, (f n).SameLink n) :
    o'.RefsOk s :=
  h.map hlist fun n => ⟨(hf n).addr, (hf n).origNode⟩

theorem Write.refsOk (h : Write rx s s') (hs : s.Wf) (hok : s.RefsOk) : s'.RefsOk := by
  -- the entries pointed to are still there
  have hkeep : ∀ o ∈ s.origs, o.RefsOk s' := fun o ho n hn => h.at hs (hok o ho n hn)
  cases h with
  | clock => exact hok
  | create addr hforeign =>
    intro o ho
    rcases hs.mem_getOrigNode ho with ho | ⟨rfl, _⟩
    · exact hkeep o ho
    · exact fun n hn => absurd hn List.not_mem_nil
  | own ptr b c => exact State.forall_modOrig hkeep fun o _ _ ho => ho
  | neighbor origNode origNeighNode hneigh hat hnone =>
    refine State.forall_modOrig (s := s) hkeep fun o _ _ ho n hn => ?_
    rcases List.mem_append.mp hn with hn | hn
    · exact ho n hn
    · rw [List.mem_singleton.mp hn]
      exact State.At.modOrig (s := s) hneigh (fun _ => rfl) fun _ => rfl
  | valid ptr neigh =>
    refine State.forall_modOrig hkeep fun o _ _ ho => ?_
    exact ho.mapSameLink (o.neighList_modNeigh _ _) fun n =>
      NeighNode.SameLink.ite (n.sameLink_touch _) (.refl n) _
  | entry ptr f => exact State.forall_modOrig hkeep fun o _ _ ho => ho
  | pushZero ptr dup hat =>
    refine State.forall_modOrig hkeep fun o _ _ ho => ?_
    exact ho.mapSameLink (o.neighList_pushZero _ _ _) fun n =>
      NeighNode.SameLink.ite (.refl n) (n.sameLink_pushTq 0) _
  | receive ptr hat neigh pkt htq httl dup =>
    refine State.forall_modOrig hkeep fun o _ _ ho => ?_
    exact ho.mapSameLink (o.neighList_receive _ _ _ _) fun n =>
      NeighNode.SameLink.ite (n.sameLink_receive pkt dup _) (.refl n) _
  | route ptr hat best hbest recv len =>
    exact State.forall_modOrig (s := s) (f := (·.withRoutes (updateRoutes s.hwAddrs s.currTime
      s.trans (s.origAt ptr) best (some recv) len).2)) hkeep fun o _ _ ho => ho
  | gateway gwList => exact hok

theorem Move.refsOk (h : Move g rx s s') (hs : s.Wf) (hok : s.RefsOk) : s'.RefsOk := by
  -- the entries pointed to are still there
  have hkeep : ∀ o ∈ s.origs, o.RefsOk s' := fun o ho n hn => h.at hs (hok o ho n hn)
  cases h with
  | write h => exact h.refsOk hs hok
  | count ptr hat =>
    refine State.forall_modOrig hkeep fun o _ _ ho => ?_
    exact ho.map rfl fun _ => ⟨rfl, rfl⟩
  | forward f hptr hown => exact hok

/-! ## Purging -/

theorem State.refsOk_purgeOrig (hs : s.Wf) (hok : s.RefsOk) :
    (s.purgeOrig g currTime gwTime).RefsOk ↔ s.KeepsRefs currTime := by
  obtain ⟨_, hfrom, hto⟩ := State.origs_purgeOrig g currTime gwTime hs
  constructor
  · intro h o ho hkept n hn hn' e he hptr
    obtain ⟨x, hx, hpurged⟩ := hto o ho hkept
    have hnx : n ∈ x.neighList := by
      rw [hpurged.neighList]
      exact List.mem_filter.mpr ⟨hn, by rw [hn']; rfl⟩
    obtain ⟨y, hy, hyptr, _⟩ := h x hx n hnx
    obtain ⟨e', he', hexp, hpurged'⟩ := hfrom y hy
    have hee : e' = e := hs.eq_of_ptr he' he (by rw [← hpurged'.ptr, hyptr, hptr])
    rwa [← hee]
  · intro h x hx n hn
    obtain ⟨o, ho, hkept, hpurged⟩ := hfrom x hx
    rw [hpurged.neighList] at hn
    obtain ⟨hn, hn'⟩ := List.mem_filter.mp hn
    obtain ⟨e, he, hptr, horig⟩ := hok o ho n hn
    obtain ⟨y, hy, hpurged'⟩ := hto e he (h o ho hkept n hn (by simpa using hn') e he hptr)
    exact ⟨y, hy, hpurged'.ptr.trans hptr, hpurged'.orig.trans horig⟩

/-! ## Runs -/

theorem State.Quiet.refsOk (h : s.Quiet s') (hok : s.RefsOk) : s'.RefsOk := by
  intro o' ho' n hn
  obtain ⟨o, ho, hsame⟩ := h.mem ho'
  rw [hsame] at hn
  obtain ⟨e, he, hptr, horig⟩ := hok o ho n hn
  obtain ⟨e', he', hsame'⟩ := h.mem_of_mem he
  rw [hsame'] at he'
  exact ⟨_, he', hptr, horig⟩

/-- **Every neighbour points to a live entry with its address** in every state of a run exactly if no
purge of the run frees an entry and keeps a neighbour that points to it. -/
theorem neighbor_ref_iff {cfg : Config} {tr : List (State p × Event p)} (h : Run p cfg tr s) :
    ((∀ x ∈ tr, x.1.RefsOk) ∧ s.RefsOk) ↔
      ∀ x ∈ tr, ∀ g currTime gwTime, x.2 = .purge g currTime gwTime → x.1.KeepsRefs currTime := by
  refine Trace.forall_iff_good h (cfg.boot_wf p) (fun t e u => step_wf) ?_ ?_
    (G := fun s e => ∀ g currTime gwTime, e = .purge g currTime gwTime → s.KeepsRefs currTime)
  · exact cfg.forall_origs_boot
  · intro t e u ht hok hstep
    rcases step_cases ht hstep with ⟨g, rx, rfl, _, _, hmoves⟩ | ⟨g, currTime, gwTime, rfl, rfl⟩ |
      ⟨_, hpurge, hquiet⟩
    · exact iff_of_true (hmoves.preserves ht hok fun _ _ hwf hI hmove => hmove.refsOk hwf hI).2
        (by simp)
    · rw [State.refsOk_purgeOrig ht hok]
      constructor
      · intro h g' c' w' heq
        cases heq
        exact h
      · exact fun h => h g currTime gwTime rfl
    · exact iff_of_true (hquiet.refsOk hok) fun g c w heq => absurd heq (hpurge g c w)

/-- `A` falls silent, and its entry and its link are purged together. -/
def Net.silent : List (Event Net.p64) :=
  Net.linkUp Net.p64 ++ [.purge (Net.zeros Net.p64) 300000 300000]

theorem neighbor_ref_silent : ∃ tr s, Run Net.p64 Net.cfg tr s ∧ tr.map Prod.snd = Net.silent ∧
    (∀ x ∈ tr, x.1.RefsOk) ∧ s.RefsOk := by
  obtain ⟨tr, s, hrun, hevents, hgood⟩ := Run.of_exec Net.cfg Net.silent
    (fun tr _ => tr.all fun x => x.2.onPurge fun _ currTime _ => decide (x.1.KeepsRefs currTime))
    (by decide +kernel)
  exact ⟨tr, s, hrun, hevents, (neighbor_ref_iff hrun).mpr (forall_purge_of_all hgood)⟩

/-- `A` only relays the OGMs of `B` from now on: they refresh the entry of `B` and its neighbour `A`,
and nothing refreshes the entry of `A`. -/
def Net.relayed : List (Event Net.p64) :=
  Net.linkUp Net.p64 ++
    [.ogm (Net.zeros Net.p64) (Net.ogm Net.macA Net.macB 0 1 1400),
      .ogm (Net.zeros Net.p64) (Net.ogm Net.macA Net.macB 0 2 300000),
      .purge (Net.zeros Net.p64) 300001 300001]

theorem neighbor_ref_dangles : ∃ tr s, Run Net.p64 Net.cfg tr s ∧ tr.map Prod.snd = Net.relayed ∧
    ¬ s.RefsOk := by
  obtain ⟨tr, s, hrun, hevents, hbad⟩ := Run.of_exec Net.cfg Net.relayed
    (fun _ s => decide (¬ s.RefsOk)) (by decide +kernel)
  exact ⟨tr, s, hrun, hevents, of_decide_eq_true hbad⟩

end BatmanAdv
