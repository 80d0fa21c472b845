import BatmanAdv.Reachable

/-!
# The router of an originator

The router of an originator entry is a neighbour of that entry, heard on the interface `batman_if`.
`update_orig` keeps it so; `purge_orig` does unless it frees the router and finds no better neighbour,
which leaves a pointer to freed memory.
-/

namespace BatmanAdv

open Transition

variable {p : Platform} {g : Garbage p} {rx : Ogm} {currTime gwTime : Time}

/-- There is no router, or it is in the list and `batman_if` is its interface. -/
def OrigNode.RouterOk (o : OrigNode p) : Prop :=
  o.router = none ∨
    ∃ n ∈ o.neighList, o.router = some n.ptr ∧ o.batmanIf = some n.ifIncoming

instance (o : OrigNode p) : Decidable o.RouterOk := inferInstanceAs (Decidable (_ ∨ _))

def State.RouterOk (s : State p) : Prop := ∀ o ∈ s.origs, o.RouterOk

instance (s : State p) : Decidable s.RouterOk := inferInstanceAs (Decidable (∀ o ∈ s.origs, _))

/-- If the router expires, so does every other neighbour, or one that stays has a higher `tq_avg` than
what is read through the pointer to the freed router. -/
def OrigNode.KeepsRouter (g : Garbage p) (currTime : Time) (o : OrigNode p) : Prop :=
  ∀ r ∈ o.neighList, o.router = some r.ptr → expired r.lastValid currTime = true →
    (∀ n ∈ o.neighList, expired n.lastValid currTime = true) ∨
      ∃ n ∈ o.neighList, expired n.lastValid currTime = false ∧
        (g.neigh r.ptr).tqAvg.toNat < n.tqAvg.toNat

instance (o : OrigNode p) : Decidable (o.KeepsRouter g currTime) :=
  inferInstanceAs (Decidable (∀ r ∈ o.neighList, _ → _ → _))

/-! ## Changing the router -/

namespace OrigNode

variable {next : ℕ} {o o' : OrigNode p}

theorem RouterOk.batmanIf (hok : o.RouterOk) (hwf : o.Wf next) {n : NeighNode p}
    (hn : n ∈ o.neighList) (hrouter : o.router = some n.ptr) : o.batmanIf = some n.ifIncoming := by
  rcases hok with hnone | ⟨n', hn', hrouter', hif⟩
  · rw [hnone] at hrouter
    cases hrouter
  · have hptr : n.ptr = n'.ptr := Option.some.inj (hrouter.symm.trans hrouter')
    rw [hwf.eq_of_ptr hn hn' hptr]
    exact hif

theorem RouterOk.of_extends (hok : o.RouterOk) (hext : o.Extends o') (hrouter : o'.router = o.router)
    (hif : o'.batmanIf = o.batmanIf) : o'.RouterOk := by
  rcases hok with hnone | ⟨n, hn, hr, hi⟩
  · exact .inl (hrouter.trans hnone)
  · obtain ⟨n', hn', hptr, _, hif', _⟩ := hext.neigh n hn
    exact .inr ⟨n', hn', by rw [hrouter, hr, hptr], by rw [hif, hi, hif']⟩

theorem routerOk_setRouter {best : Option (NeighNode p)}
    (hif : ∀ n ∈ o.neighList, o.router = some n.ptr → o.batmanIf = some n.ifIncoming)
    (hbest : ∀ n, best = some n →
      ∃ n' ∈ o.neighList, n'.ptr = n.ptr ∧ n'.ifIncoming = n.ifIncoming) :
    (o.setRouter best).RouterOk := by
  unfold OrigNode.setRouter
  cases best with
  | none =>
    split_ifs with hne
    · exact .inl rfl
    · exact .inl (not_not.mp hne)
  | some n =>
    obtain ⟨n', hn', hptr, hif'⟩ := hbest n rfl
    split_ifs with hne
    · exact .inr ⟨n', hn', congrArg some hptr.symm, congrArg some hif'.symm⟩
    · have hrouter : o.router = some n'.ptr := (not_not.mp hne).trans (congrArg some hptr.symm)
      exact .inr ⟨n', hn', hrouter, hif n' hn' hrouter⟩

end OrigNode

/-! ## OGMs -/

theorem State.routerOk_modOrig {s : State p} {ptr : ℕ} {f : OrigNode p → OrigNode p} (hok : s.RouterOk)
    (hext : ∀ o : OrigNode p, o.Extends (f o)) (hrouter : ∀ o, (f o).router = o.router)
    (hif : ∀ o, (f o).batmanIf = o.batmanIf) : (s.modOrig ptr f).RouterOk :=
  State.forall_modOrig hok fun o _ _ ho => ho.of_extends (hext o) (hrouter o) (hif o)

theorem Write.routerOk {s s' : State p} (h : Write rx s s') (hs : s.Wf) (hok : s.RouterOk) :
    s'.RouterOk := by
  cases h with
  | clock => exact hok
  | create addr hforeign =>
    intro o ho
    rcases hs.mem_getOrigNode ho with ho | ⟨rfl, _⟩
    · exact hok o ho
    · exact .inl rfl
  | own ptr b c =>
    refine State.routerOk_modOrig hok (fun o => ?_) (fun _ => rfl) fun _ => rfl
    exact .of_eq rfl rfl rfl
  | neighbor origNode origNeighNode =>
    refine State.routerOk_modOrig (s := s) hok (fun o => ?_) (fun _ => rfl) fun _ => rfl
    exact ⟨rfl, rfl, fun n hn => ⟨n, List.mem_append_left _ hn, rfl, rfl, rfl, rfl⟩⟩
  | valid ptr neigh =>
    refine State.routerOk_modOrig hok (fun o => ?_) (fun _ => rfl) fun _ => rfl
    exact .of_sameLink rfl rfl (o.neighList_modNeigh _ _) fun n =>
      NeighNode.SameLink.ite (n.sameLink_touch _) (.refl n) _
  | entry ptr f =>
    refine State.routerOk_modOrig hok (fun o => ?_) (fun _ => rfl) fun _ => rfl
    exact .of_eq rfl rfl rfl
  | pushZero ptr dup hat =>
    refine State.routerOk_modOrig hok (fun o => ?_) (fun _ => rfl) fun _ => rfl
    exact .of_sameLink rfl rfl (o.neighList_pushZero _ _ _) fun n =>
      NeighNode.SameLink.ite (.refl n) (n.sameLink_pushTq 0) _
  | receive ptr hat neigh pkt htq httl dup =>
    refine State.routerOk_modOrig hok (fun o => ?_) (fun _ => rfl) fun _ => rfl
    exact .of_sameLink rfl rfl (o.neighList_receive _ _ _ _) fun n =>
      NeighNode.SameLink.ite (n.sameLink_receive pkt dup _) (.refl n) _
  | route ptr hat best hbest recv len =>
    refine State.forall_modOrig (s := s) (f := (·.withRoutes (updateRoutes s.hwAddrs s.currTime
      s.trans (s.origAt ptr) best (some recv) len).2)) hok fun o ho hptr hook => ?_
    rw [← hptr, hs.origAt_of_mem ho] at hbest ⊢
    obtain ⟨hrouter, hif⟩ := updateRoutes_snd s.hwAddrs s.currTime s.trans o best (some recv) len
    have hset : (o.setRouter best).RouterOk :=
      OrigNode.routerOk_setRouter (fun n hn => hook.batmanIf (hs.node o ho) hn) hbest
    rw [OrigNode.setRouter_frame] at hset
    unfold OrigNode.withRoutes
    rw [hrouter, hif]
    exact hset
  | gateway gwList => exact hok

theorem Move.routerOk {s s' : State p} (h : Move g rx s s') (hs : s.Wf) (hok : s.RouterOk) :
    s'.RouterOk := by
  cases h with
  | write h => exact h.routerOk hs hok
  | count ptr hat =>
    refine State.routerOk_modOrig hok (fun o => ?_) (fun _ => rfl) fun _ => rfl
    exact .of_map rfl rfl rfl fun _ => ⟨rfl, rfl, rfl, rfl⟩
  | forward f hptr hown => exact hok

/-! ## Purging -/

theorem bestNeighNode_foldl (l : List (NeighNode p)) (b : NeighNode p) :
    ∃ m ∈ b :: l, l.foldl (fun best n =>
        match best with
        | none => some n
        | some b => if n.tqAvg.toNat > b.tqAvg.toNat then some n else some b) (some b) = some m ∧
      ∀ n ∈ b :: l, n.tqAvg.toNat ≤ m.tqAvg.toNat := by
  induction l generalizing b with
  | nil => exact ⟨b, List.mem_cons_self, rfl, by simp⟩
  | cons n l ih =>
    rw [List.foldl_cons]
    dsimp only
    split_ifs with hgt
    · obtain ⟨m, hmem, hm, hall⟩ := ih n
      have hbm : b.tqAvg.toNat ≤ m.tqAvg.toNat := hgt.le.trans (hall n List.mem_cons_self)
      exact ⟨m, List.mem_cons_of_mem _ hmem, hm, List.forall_mem_cons.mpr ⟨hbm, hall⟩⟩
    · obtain ⟨m, hmem, hm, hall⟩ := ih b
      obtain ⟨hbm, hall⟩ := List.forall_mem_cons.mp hall
      have hnm : n.tqAvg.toNat ≤ m.tqAvg.toNat := (not_lt.mp hgt).trans hbm
      refine ⟨m, ?_, hm, List.forall_mem_cons.mpr ⟨hbm, List.forall_mem_cons.mpr ⟨hnm, hall⟩⟩⟩
      rcases List.mem_cons.mp hmem with rfl | hmem
      · exact List.mem_cons_self
      · exact List.mem_cons_of_mem _ (List.mem_cons_of_mem _ hmem)

/-- The best neighbour is in the list and no other has a higher `tq_avg`. -/
theorem bestNeighNode_cases (l : List (NeighNode p)) :
    (l = [] ∧ bestNeighNode l = none) ∨
      ∃ b ∈ l, bestNeighNode l = some b ∧ ∀ n ∈ l, n.tqAvg.toNat ≤ b.tqAvg.toNat := by
  cases l with
  | nil => exact .inl ⟨rfl, rfl⟩
  | cons n l => exact .inr (bestNeighNode_foldl l n)

theorem OrigNode.mem_keptNeighs {o : OrigNode p} {n : NeighNode p} :
    n ∈ o.keptNeighs currTime ↔ n ∈ o.neighList ∧ expired n.lastValid currTime = false := by
  unfold OrigNode.keptNeighs
  rw [List.mem_filter, Bool.not_eq_true']

/-- With a neighbour purged, one left and a router, the averages decide. -/
theorem OrigNode.reroutes_iff {o : OrigNode p} {r b : NeighNode p} (hr : r ∈ o.neighList)
    (hexp : expired r.lastValid currTime = true) {router : ℕ} (hrouter : o.router = some router)
    (hbest : bestNeighNode (o.keptNeighs currTime) = some b) :
    o.reroutes g currTime = true ↔
      (({ o with neighList := o.keptNeighs currTime } : OrigNode p).neighAt g router).tqAvg.toNat <
        b.tqAvg.toNat := by
  have hpurged : (o.neighList.any fun n => expired n.lastValid currTime) = true :=
    List.any_eq_true.mpr ⟨r, hr, hexp⟩
  unfold OrigNode.reroutes
  rw [hpurged, hbest, hrouter, Bool.true_and]
  exact decide_eq_true_iff

/-- **What a purge makes of the router of an entry.** -/
theorem OrigNode.routerOk_purge {next : ℕ} {o : OrigNode p} (hwf : o.Wf next) (hok : o.RouterOk) :
    (o.purge g currTime).RouterOk ↔ o.KeepsRouter g currTime := by
  have hif : ∀ n ∈ o.keptNeighs currTime, o.router = some n.ptr → o.batmanIf = some n.ifIncoming :=
    fun n hn => hok.batmanIf hwf (mem_keptNeighs.mp hn).1
  have hfreed : ∀ r ∈ o.neighList, expired r.lastValid currTime = true →
      ∀ n ∈ o.keptNeighs currTime, n.ptr ≠ r.ptr := by
    intro r hr hexp n hn hptr
    obtain ⟨hn, hkept⟩ := mem_keptNeighs.mp hn
    rw [hwf.eq_of_ptr hn hr hptr, hexp] at hkept
    cases hkept
  have hread : ∀ r ∈ o.neighList, expired r.lastValid currTime = true →
      ({ o with neighList := o.keptNeighs currTime } : OrigNode p).neighAt g r.ptr = g.neigh r.ptr := by
    intro r hr hexp
    unfold OrigNode.neighAt
    rw [List.find?_eq_none.mpr fun n hn => by simpa using hfreed r hr hexp n hn, Option.getD_none]
  unfold OrigNode.purge
  dsimp only
  split_ifs with hre
  · -- the new router is the best of those that stay
    refine iff_of_true (OrigNode.routerOk_setRouter hif fun n hn => ?_) fun r hr hrouter hexp => ?_
    · rcases bestNeighNode_cases (o.keptNeighs currTime) with ⟨_, hnone⟩ | ⟨b, hb, hbest, _⟩
      · rw [hnone] at hn
        cases hn
      · obtain rfl : b = n := Option.some.inj (hbest.symm.trans hn)
        exact ⟨b, hb, rfl, rfl⟩
    · rcases bestNeighNode_cases (o.keptNeighs currTime) with ⟨hnil, _⟩ | ⟨b, hb, hbest, _⟩
      · refine .inl fun n hn => ?_
        by_contra hkept
        have hmem : n ∈ o.keptNeighs currTime := mem_keptNeighs.mpr ⟨hn, by simpa using hkept⟩
        rw [hnil] at hmem
        exact List.not_mem_nil hmem
      · rw [OrigNode.reroutes_iff hr hexp hrouter hbest, hread r hr hexp] at hre
        exact .inr ⟨b, (mem_keptNeighs.mp hb).1, (mem_keptNeighs.mp hb).2, hre⟩
  · -- the router is left as it is
    rcases hok with hnone | ⟨r, hr, hrouter, hbatman⟩
    · refine iff_of_true (.inl hnone) fun r _ hrouter => ?_
      rw [hnone] at hrouter
      cases hrouter
    · cases hexp : expired r.lastValid currTime with
      | false =>
        refine iff_of_true (.inr ⟨r, mem_keptNeighs.mpr ⟨hr, hexp⟩, hrouter, hbatman⟩) ?_
        intro r' hr' hrouter' hexp'
        rw [hwf.eq_of_ptr hr' hr (Option.some.inj (hrouter'.symm.trans hrouter)), hexp] at hexp'
        cases hexp'
      | true =>
        rcases bestNeighNode_cases (o.keptNeighs currTime) with ⟨_, hnone⟩ | ⟨b, hb, hbest, hmax⟩
        · refine absurd ?_ hre
          unfold OrigNode.reroutes
          rw [List.any_eq_true.mpr ⟨r, hr, hexp⟩, hnone]
          rfl
        · rw [OrigNode.reroutes_iff hr hexp hrouter hbest, hread r hr hexp] at hre
          refine iff_of_false ?_ fun hkeeps => ?_
          · rintro (hnone | ⟨n, hn, hrouter', _⟩)
            · rw [hrouter] at hnone
              cases hnone
            · exact hfreed r hr hexp n hn (Option.some.inj (hrouter'.symm.trans hrouter))
          · rcases hkeeps r hr hrouter hexp with hall | ⟨n, hn, hkept, hlt⟩
            · have hb' := mem_keptNeighs.mp hb
              rw [hall b hb'.1] at hb'
              cases hb'.2
            · exact hre (hlt.trans_le (hmax n (mem_keptNeighs.mpr ⟨hn, hkept⟩)))

theorem OrigNode.Purged.routerOk_iff {o x : OrigNode p} (h : o.Purged g currTime x) :
    x.RouterOk ↔ (o.purge g currTime).RouterOk := by
  rw [h]
  rfl

theorem State.routerOk_purgeOrig {s : State p} (hs : s.Wf) (hok : s.RouterOk) :
    (s.purgeOrig g currTime gwTime).RouterOk ↔
      ∀ o ∈ s.origs, expired o.lastValid currTime = false → o.KeepsRouter g currTime := by
  obtain ⟨_, hfrom, hto⟩ := State.origs_purgeOrig g currTime gwTime hs
  constructor
  · intro h o ho hkept
    obtain ⟨x, hx, hpurged⟩ := hto o ho hkept
    exact (OrigNode.routerOk_purge (hs.node o ho) (hok o ho)).mp (hpurged.routerOk_iff.mp (h x hx))
  · intro h x hx
    obtain ⟨o, ho, hkept, hpurged⟩ := hfrom x hx
    exact hpurged.routerOk_iff.mpr
      ((OrigNode.routerOk_purge (hs.node o ho) (hok o ho)).mpr (h o ho hkept))

/-! ## Runs -/

theorem State.Quiet.routerOk {s s' : State p} (h : s.Quiet s') (hok : s.RouterOk) : s'.RouterOk := by
  intro o' ho'
  obtain ⟨o, ho, hsame⟩ := h.mem ho'
  rw [hsame]
  exact hok o ho

/-- **The router of an originator** is live in every state of a run exactly if every purge of the run
either keeps the routers of the entries it keeps or replaces them. -/
theorem router_live_iff {cfg : Config} {tr : List (State p × Event p)} {s : State p}
    (h : Run p cfg tr s) :
    ((∀ x ∈ tr, x.1.RouterOk) ∧ s.RouterOk) ↔
      ∀ x ∈ tr, ∀ g currTime gwTime, x.2 = .purge g currTime gwTime →
        ∀ o ∈ x.1.origs, expired o.lastValid currTime = false → o.KeepsRouter g currTime := by
  refine Trace.forall_iff_good h (cfg.boot_wf p) (fun t e u => step_wf) ?_ ?_
    (G := fun s e => ∀ g currTime gwTime, e = .purge g currTime gwTime →
      ∀ o ∈ s.origs, expired o.lastValid currTime = false → o.KeepsRouter g currTime)
  · exact cfg.forall_origs_boot
  · intro t e u ht hok hstep
    rcases step_cases ht hstep with ⟨g, rx, rfl, _, _, hmoves⟩ | ⟨g, currTime, gwTime, rfl, rfl⟩ |
      ⟨_, hpurge, hquiet⟩
    · exact iff_of_true (hmoves.preserves ht hok fun _ _ hwf hI hmove => hmove.routerOk hwf hI).2
        (by simp)
    · rw [State.routerOk_purgeOrig ht hok]
      constructor
      · intro h g' c' w' heq
        cases heq
        exact h
      · exact fun h => h g currTime gwTime rfl
    · exact iff_of_true (hquiet.routerOk hok) fun g c w heq => absurd heq (hpurge g c w)

/-- `A` is heard over both interfaces, then only over the second one, and the purge routes to it. -/
def Net.rerouted : List (Event Net.p64) :=
  Net.linkUp Net.p64 ++
    [.ogm (Net.zeros Net.p64) (Net.echo Net.macA Net.me1 1 1 250000),
      .ogm (Net.zeros Net.p64) (Net.ogm Net.macA Net.macA 1 3 250000),
      .ogm (Net.zeros Net.p64) (Net.ogm Net.macA Net.macA 1 4 250100),
      .purge (Net.zeros Net.p64) 250200 250200]

theorem router_live_rerouted : ∃ tr s, Run Net.p64 Net.cfg tr s ∧ tr.map Prod.snd = Net.rerouted ∧
    (∀ x ∈ tr, x.1.RouterOk) ∧ s.RouterOk := by
  obtain ⟨tr, s, hrun, hevents, hgood⟩ := Run.of_exec Net.cfg Net.rerouted
    (fun tr _ => tr.all fun x => x.2.onPurge fun g currTime _ =>
      decide (∀ o ∈ x.1.origs, expired o.lastValid currTime = false → o.KeepsRouter g currTime))
    (by decide +kernel)
  exact ⟨tr, s, hrun, hevents, (router_live_iff hrun).mpr (forall_purge_of_all hgood)⟩

/-- The link over the first interface expires, and the second one has never delivered an OGM that
counted. -/
def Net.lostRouter : List (Event Net.p64) :=
  Net.linkUp Net.p64 ++
    [.ogm (Net.zeros Net.p64) (Net.ogm Net.macA Net.macA 1 3 300000),
      .purge (Net.zeros Net.p64) 300001 300001]

theorem router_not_live : ∃ tr s, Run Net.p64 Net.cfg tr s ∧ tr.map Prod.snd = Net.lostRouter ∧
    ¬ s.RouterOk := by
  obtain ⟨tr, s, hrun, hevents, hbad⟩ := Run.of_exec Net.cfg Net.lostRouter
    (fun _ s => decide (¬ s.RouterOk)) (by decide +kernel)
  exact ⟨tr, s, hrun, hevents, of_decide_eq_true hbad⟩

end BatmanAdv
