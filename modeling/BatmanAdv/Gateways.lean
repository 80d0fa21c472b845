import BatmanAdv.LastWrites

/-!
# The gateway list

A gateway node is in `gw_list` from the first OGM of its originator with a class until some time after the
class was withdrawn or the originator purged. In between it is marked with the time of that, `deleted`, and a
class that comes back takes the mark away. The list and `gwflags` of the originators go together.
-/

namespace BatmanAdv

open Transition

variable {p : Platform} {s s' : State p} {g : Garbage p} {gwList : List GwNode} {origNode : ℕ} {now : Time}

/-! ## The list -/

/-- The originator has a node that is not marked. -/
def Listed (gwList : List GwNode) (origNode : ℕ) : Prop :=
  ∃ gwNode ∈ gwList, gwNode.origNode = origNode ∧ gwNode.deleted = 0

instance (gwList : List GwNode) (origNode : ℕ) : Decidable (Listed gwList origNode) :=
  inferInstanceAs (Decidable (∃ gwNode ∈ gwList, _ ∧ _))

/-- No originator has two nodes. -/
def OneNodeEach (gwList : List GwNode) : Prop := (gwList.map (·.origNode)).Nodup

theorem OneNodeEach.eq_of_origNode (h : OneNodeEach gwList) {a b : GwNode} (ha : a ∈ gwList) (hb : b ∈ gwList)
    (heq : a.origNode = b.origNode) : a = b :=
  List.inj_on_of_nodup_map h ha hb heq

theorem OneNodeEach.count_le (h : OneNodeEach gwList) (origNode : ℕ) :
    gwList.countP (·.origNode = origNode) ≤ 1 := by
  have hcount := List.nodup_iff_count_le_one.mp h origNode
  rwa [List.count, List.countP_map] at hcount

/-- `update_gw_list` keeps the originators in the list, and puts this one behind them. -/
theorem map_updateGwList (origNode : ℕ) (newGwflags : Byte) (now : Time) (gwList : List GwNode) :
    (origNode ∈ gwList.map (·.origNode) →
      (updateGwList origNode newGwflags now gwList).map (·.origNode) = gwList.map (·.origNode)) ∧
    (origNode ∉ gwList.map (·.origNode) →
      (updateGwList origNode newGwflags now gwList).map (·.origNode) = gwList.map (·.origNode) ++ [origNode]) := by
  induction gwList with
  | nil => exact ⟨fun hin => absurd hin List.not_mem_nil, fun _ => rfl⟩
  | cons x gwList ih =>
    unfold updateGwList
    by_cases heq : x.origNode = origNode
    · rw [if_pos heq]
      refine ⟨fun _ => by split_ifs <;> rfl, fun hnot => ?_⟩
      exact absurd (List.mem_map.mpr ⟨x, List.mem_cons_self, heq⟩) hnot
    · rw [if_neg heq, List.map_cons, List.map_cons, List.mem_cons, or_iff_right (Ne.symm heq)]
      exact ⟨fun hin => by rw [ih.1 hin], fun hnot => by rw [ih.2 hnot, List.cons_append]⟩

theorem OneNodeEach.updateGwList (h : OneNodeEach gwList) (origNode : ℕ) (newGwflags : Byte) (now : Time) :
    OneNodeEach (updateGwList origNode newGwflags now gwList) := by
  obtain ⟨hin, hout⟩ := map_updateGwList origNode newGwflags now gwList
  unfold OneNodeEach
  by_cases hmem : origNode ∈ gwList.map (·.origNode)
  · rw [hin hmem]
    exact h
  · rw [hout hmem]
    exact List.nodup_append.mpr ⟨h, List.nodup_singleton _, fun a ha b hb hab =>
      hmem (by rw [← List.mem_singleton.mp hb, ← hab]; exact ha)⟩

theorem mem_updateGwList_of_ne {gwNode : GwNode} (hne : gwNode.origNode ≠ origNode) (newGwflags : Byte) (now : Time) :
    gwNode ∈ updateGwList origNode newGwflags now gwList ↔ gwNode ∈ gwList := by
  induction gwList with
  | nil =>
    refine iff_of_false (fun hin => hne ?_) List.not_mem_nil
    rw [List.mem_singleton.mp hin]
  | cons x gwList ih =>
    unfold updateGwList
    by_cases heq : x.origNode = origNode
    · rw [if_pos heq, List.mem_cons, List.mem_cons]
      refine or_congr_left (iff_of_false (fun hx => hne ?_) fun hx => hne (hx ▸ heq))
      rw [hx]
      split_ifs <;> exact heq
    · rw [if_neg heq, List.mem_cons, List.mem_cons, ih]

/-- The node of this originator is marked where its class is withdrawn, and only there. -/
theorem deleted_updateGwList (origNode : ℕ) (newGwflags : Byte) (now : Time) (gwList : List GwNode)
    (hfound : newGwflags = 0 → origNode ∈ gwList.map (·.origNode)) :
    ∃ gwNode ∈ updateGwList origNode newGwflags now gwList, gwNode.origNode = origNode ∧
      gwNode.deleted = if newGwflags = 0 then now else 0 := by
  induction gwList with
  | nil =>
    refine ⟨_, List.mem_singleton_self _, rfl, ?_⟩
    rw [if_neg fun hzero => List.not_mem_nil (hfound hzero)]
  | cons x gwList ih =>
    unfold updateGwList
    by_cases heq : x.origNode = origNode
    · rw [if_pos heq]
      refine ⟨_, List.mem_cons_self, ?_⟩
      split_ifs <;> exact ⟨heq, rfl⟩
    · rw [if_neg heq]
      obtain ⟨gwNode, hin, hnode⟩ := ih fun hzero =>
        (List.mem_cons.mp (hfound hzero)).resolve_left (Ne.symm heq)
      exact ⟨gwNode, List.mem_cons_of_mem _ hin, hnode⟩

theorem map_deleteGw (origNode : ℕ) (now : Time) (gwList : List GwNode) :
    (deleteGw origNode now gwList).map (·.origNode) = gwList.map (·.origNode) := by
  induction gwList with
  | nil => rfl
  | cons x gwList ih =>
    unfold deleteGw
    split_ifs
    · rfl
    · rw [List.map_cons, List.map_cons, ih]

theorem mem_deleteGw_of_ne {gwNode : GwNode} (hne : gwNode.origNode ≠ origNode) (now : Time) :
    gwNode ∈ deleteGw origNode now gwList ↔ gwNode ∈ gwList := by
  induction gwList with
  | nil => exact Iff.rfl
  | cons x gwList ih =>
    unfold deleteGw
    split_ifs with hx
    · rw [List.mem_cons, List.mem_cons]
      exact or_congr_left (iff_of_false (fun heq => hne (heq ▸ hx.2)) fun heq => hne (heq ▸ hx.2))
    · rw [List.mem_cons, List.mem_cons, ih]

/-- Behind the first node of the originator there is no other. -/
theorem not_listed_deleteGw (h : OneNodeEach gwList) (hnow : now ≠ 0) :
    ¬ Listed (deleteGw origNode now gwList) origNode := by
  induction gwList with
  | nil =>
    rintro ⟨x, hx, -⟩
    cases hx
  | cons x gwList ih =>
    obtain ⟨hnot, hnodup⟩ := List.nodup_cons.mp h
    unfold deleteGw
    split_ifs with hx
    · rintro ⟨y, hy, horig, hdel⟩
      obtain rfl | hy := List.mem_cons.mp hy
      · exact hnow hdel
      · exact hnot (List.mem_map.mpr ⟨y, hy, horig.trans hx.2.symm⟩)
    · rintro ⟨y, hy, horig, hdel⟩
      obtain rfl | hy := List.mem_cons.mp hy
      · exact hx ⟨hdel, horig⟩
      · exact ih hnodup ⟨y, hy, horig, hdel⟩

/-! ## The list and the table -/

/-- The originator at this pointer announces a class. -/
def State.Gateway (s : State p) (ptr : ℕ) : Prop := ∃ o ∈ s.origs, o.ptr = ptr ∧ o.gwflags ≠ 0

theorem State.Table.gateway_iff (h : s.Table) {o : OrigNode p} (ho : o ∈ s.origs) :
    s.Gateway o.ptr ↔ o.gwflags ≠ 0 := by
  constructor
  · rintro ⟨x, hx, hptr, hflags⟩
    exact h.eq_of_ptr hx ho hptr ▸ hflags
  · exact fun hflags => ⟨o, ho, rfl, hflags⟩

theorem State.Calm.gateway_iff (h : s.Calm s') (ptr : ℕ) : s'.Gateway ptr ↔ s.Gateway ptr := by
  constructor
  · rintro ⟨o', ho', rfl, hflags⟩
    obtain ⟨o, ho, hsame⟩ | hfresh := h.old_or_fresh o' ho'
    · exact ⟨o, ho, hsame.ptr.symm, hsame.gwflags ▸ hflags⟩
    · exact absurd hfresh.gwflags hflags
  · rintro ⟨o, ho, rfl, hflags⟩
    obtain ⟨o', ho', hsame⟩ := h.stays o ho
    exact ⟨o', ho', hsame.ptr, hsame.gwflags ▸ hflags⟩

/-- No node points to memory that has not been allocated. -/
def State.GwBounded (s : State p) : Prop := ∀ gwNode ∈ s.gwList, gwNode.origNode < s.nextPtr

/-- Each originator has a node at most, and one that is not marked just while it announces a class. -/
structure State.GwOk (s : State p) : Prop where
  one : OneNodeEach s.gwList
  listed : ∀ ptr, Listed s.gwList ptr ↔ s.Gateway ptr

theorem mem_map_updateGwList {ptr : ℕ} {newGwflags : Byte}
    (h : ptr ∈ (updateGwList origNode newGwflags now gwList).map (·.origNode)) :
    ptr = origNode ∨ ptr ∈ gwList.map (·.origNode) := by
  obtain ⟨hin, hout⟩ := map_updateGwList origNode newGwflags now gwList
  by_cases hmem : origNode ∈ gwList.map (·.origNode)
  · exact .inr (hin hmem ▸ h)
  · rw [hout hmem, List.mem_append, List.mem_singleton] at h
    exact h.symm

/-! ## Nodes point to what was allocated -/

theorem State.gwBounded_iff : s.GwBounded ↔ ∀ ptr ∈ s.gwList.map (·.origNode), ptr < s.nextPtr := by
  unfold State.GwBounded
  rw [List.forall_mem_map]

theorem State.gwBounded_purgeOrigNode (h : s.GwBounded) (g : Garbage p) (currTime gwTime : Time) (origNode : ℕ) :
    (s.purgeOrigNode g currTime gwTime origNode).GwBounded := by
  rw [State.gwBounded_iff] at h ⊢
  unfold State.purgeOrigNode
  split_ifs
  · show ∀ ptr ∈ (deleteGw origNode gwTime s.gwList).map (·.origNode), ptr < s.nextPtr
    rw [map_deleteGw]
    exact h
  · unfold State.purgeNeighbors
    dsimp only
    split_ifs <;> exact h

theorem State.gwBounded_purgeOrig (h : s.GwBounded) (g : Garbage p) (currTime gwTime : Time) :
    (s.purgeOrig g currTime gwTime).GwBounded := by
  have hfold : ∀ (l : List ℕ) (t : State p), t.GwBounded →
      (l.foldl (fun s ptr => s.purgeOrigNode g currTime gwTime ptr) t).GwBounded := by
    intro l
    induction l with
    | nil => exact fun _ ht => ht
    | cons ptr l ih => exact fun t ht => ih _ (t.gwBounded_purgeOrigNode ht g currTime gwTime ptr)
  exact fun gwNode hin => hfold _ s h gwNode (List.mem_of_mem_filter hin)

theorem State.Calm.gwBounded (h : s.Calm s') (hb : s.GwBounded) : s'.GwBounded := by
  intro gwNode hin
  rw [h.gwList] at hin
  exact (hb gwNode hin).trans_le h.nextPtr

theorem step_gwBounded (hs : s.Wf) (h : s.GwBounded) {e : Event p} (hstep : step s e = some s') : s'.GwBounded := by
  obtain ⟨g, rx, rfl, rfl⟩ | ⟨g, currTime, gwTime, rfl, rfl⟩ | ⟨-, hcalm⟩ := step_calm hs hstep
  · obtain ⟨hcalm, hupdate⟩ := s.batmanOgm_calm hs g rx
    by_cases hcall : s.UpdatesOrig g rx
    · obtain ⟨t, o, best, hbefore, ho, -, -, hafter⟩ := hupdate hcall
      have hends := hbefore.table.ends ho best rx
      have ht := State.gwBounded_iff.mp (hbefore.gwBounded h)
      refine hafter.gwBounded (State.gwBounded_iff.mpr fun ptr hin => ?_)
      rw [hends.nextPtr]
      rw [hends.gwList] at hin
      split_ifs at hin
      · obtain rfl | hin := mem_map_updateGwList hin
        · exact hbefore.table.ptr_lt o ho
        · exact ht ptr hin
      · exact ht ptr hin
    · exact (hcalm hcall).gwBounded h
  · exact s.gwBounded_purgeOrig h g currTime gwTime
  · exact hcalm.gwBounded h

namespace State.GwOk

theorem calm (h : s.GwOk) (hcalm : s.Calm s') : s'.GwOk := by
  refine ⟨hcalm.gwList ▸ h.one, fun ptr => ?_⟩
  rw [hcalm.gwList, hcalm.gateway_iff]
  exact h.listed ptr

theorem write (h : s.GwOk) {ptr : ℕ} (hone : OneNodeEach s'.gwList)
    (hnodes : ∀ gwNode : GwNode, gwNode.origNode ≠ ptr → (gwNode ∈ s'.gwList ↔ gwNode ∈ s.gwList))
    (hentries : ∀ q, q ≠ ptr → (s'.Gateway q ↔ s.Gateway q))
    (hself : Listed s'.gwList ptr ↔ s'.Gateway ptr) : s'.GwOk := by
  refine ⟨hone, fun q => ?_⟩
  by_cases heq : q = ptr
  · rw [heq]
    exact hself
  · have hlisted : Listed s'.gwList q ↔ Listed s.gwList q := by
      constructor <;> rintro ⟨gwNode, hin, rfl, hdel⟩
      · exact ⟨gwNode, (hnodes gwNode heq).mp hin, rfl, hdel⟩
      · exact ⟨gwNode, (hnodes gwNode heq).mpr hin, rfl, hdel⟩
    rw [hlisted, hentries q heq]
    exact h.listed q

/-! ## The writes -/

theorem ends {t u : State p} {o : OrigNode p} {rx : Ogm} (h : t.GwOk) (ht : t.Table) (ho : o ∈ t.origs)
    (hends : t.Ends u o rx) (htime : rx.gwTime ≠ 0) : u.GwOk := by
  obtain ⟨y, hy, hptr, -, hflags, -⟩ := hends.self
  have hself : u.Gateway o.ptr ↔ rx.pkt.gwflags ≠ 0 := by
    rw [← hptr, hends.table.gateway_iff hy, hflags]
  have hentries : ∀ q, q ≠ o.ptr → (u.Gateway q ↔ t.Gateway q) := by
    intro q hne
    constructor <;> rintro ⟨x, hx, rfl, hx'⟩
    · exact ⟨x, (hends.other x hne).mp hx, rfl, hx'⟩
    · exact ⟨x, (hends.other x hne).mpr hx, rfl, hx'⟩
  have hbefore : Listed t.gwList o.ptr ↔ o.gwflags ≠ 0 := (h.listed o.ptr).trans (ht.gateway_iff ho)
  by_cases heq : o.gwflags = rx.pkt.gwflags
  · have hlist : u.gwList = t.gwList := hends.gwList.trans (if_neg (not_not.mpr heq))
    refine h.write (hlist ▸ h.one) (fun _ _ => hlist ▸ Iff.rfl) hentries ?_
    rw [hlist, hself, hbefore, heq]
  · have hlist : u.gwList = updateGwList o.ptr rx.pkt.gwflags rx.gwTime t.gwList := hends.gwList.trans (if_pos heq)
    have hone := h.one.updateGwList o.ptr rx.pkt.gwflags rx.gwTime
    refine h.write (hlist ▸ hone) (fun gwNode hne => hlist ▸ mem_updateGwList_of_ne hne _ _) hentries ?_
    -- a class that is withdrawn was there, and so was its node
    obtain ⟨gwNode, hin, horig, hdel⟩ := deleted_updateGwList o.ptr rx.pkt.gwflags rx.gwTime t.gwList fun hzero => by
      obtain ⟨gwNode, hin, horig, -⟩ := hbefore.mpr fun hnone => heq (hnone.trans hzero.symm)
      exact List.mem_map.mpr ⟨gwNode, hin, horig⟩
    rw [hself, hlist]
    constructor
    · rintro ⟨x, hx, hxorig, hxdel⟩ hzero
      rw [hone.eq_of_origNode hx hin (hxorig.trans horig.symm), hdel, if_pos hzero] at hxdel
      exact htime hxdel
    · intro hclass
      exact ⟨gwNode, hin, horig, hdel.trans (if_neg hclass)⟩

theorem purgeOrigNode (h : s.GwOk) (hs : s.Wf) {o : OrigNode p} (ho : o ∈ s.origs) (g : Garbage p)
    (currTime : Time) {gwTime : Time} (htime : gwTime ≠ 0) : (s.purgeOrigNode g currTime gwTime o.ptr).GwOk := by
  unfold State.purgeOrigNode
  rw [hs.origAt_of_mem ho]
  by_cases hexp : expired o.lastValid currTime = true
  · rw [if_pos hexp]
    obtain ⟨-, hmem⟩ := State.origs_purgeExpired gwTime hs ho
    have hlist : (s.purgeExpired o.ptr gwTime).gwList = deleteGw o.ptr gwTime s.gwList := rfl
    refine h.write ?_ (fun gwNode hne => hlist ▸ mem_deleteGw_of_ne hne _)
      (fun q hne => ?_) ?_
    · rw [hlist]
      unfold OneNodeEach
      rw [map_deleteGw]
      exact h.one
    · constructor <;> rintro ⟨x, hx, rfl, hflags⟩
      · exact ⟨x, ((hmem x).mp hx).1, rfl, hflags⟩
      · exact ⟨x, (hmem x).mpr ⟨hx, hne⟩, rfl, hflags⟩
    · rw [hlist]
      refine iff_of_false (not_listed_deleteGw h.one htime) ?_
      rintro ⟨x, hx, hptr, -⟩
      exact ((hmem x).mp hx).2 hptr
  · rw [if_neg hexp]
    obtain ⟨-, x, hpurged, hmem⟩ := State.origs_purgeNeighbors g currTime hs ho
    have hframe : (s.purgeNeighbors g currTime o.ptr).gwList = s.gwList := by
      unfold State.purgeNeighbors
      dsimp only
      split_ifs <;> rfl
    have hflags : x.gwflags = o.gwflags := by rw [hpurged, OrigNode.purge_frame]
    refine ⟨hframe ▸ h.one, fun q => ?_⟩
    rw [hframe, h.listed q]
    constructor <;> rintro ⟨y, hy, rfl, hy'⟩
    · by_cases heq : y.ptr = o.ptr
      · obtain rfl := hs.eq_of_ptr hy ho heq
        exact ⟨x, (hmem x).mpr (.inl rfl), hpurged.ptr, hflags ▸ hy'⟩
      · exact ⟨y, (hmem y).mpr (.inr ⟨hy, heq⟩), rfl, hy'⟩
    · obtain rfl | ⟨hy, -⟩ := (hmem y).mp hy
      · exact ⟨o, ho, hpurged.ptr.symm, hflags ▸ hy'⟩
      · exact ⟨y, hy, rfl, hy'⟩

/-- Only nodes that are marked are taken out at the end. -/
theorem purgeOrig (h : s.GwOk) (hs : s.Wf) (g : Garbage p) (currTime : Time) {gwTime : Time} (htime : gwTime ≠ 0) :
    (s.purgeOrig g currTime gwTime).GwOk := by
  have hfold := (State.purgeFold_induct g currTime gwTime (I := fun _ => State.GwOk) (s.origs.map (·.ptr)) hs
    (List.pairwise_map.mpr hs.distinct) (fun ptr hptr => List.mem_map.mp hptr) h
    fun _ t o ht ho _ hIt => hIt.purgeOrigNode ht ho g currTime htime).2
  unfold State.purgeOrig
  generalize (s.origs.map (·.ptr)).foldl (fun s ptr => s.purgeOrigNode g currTime gwTime ptr) s = t at hfold
  refine ⟨(List.filter_sublist.map _).nodup hfold.one, fun ptr => ?_⟩
  have hlisted : Listed (t.gwList.filter fun gwNode =>
      !decide (gwNode.deleted ≠ 0 ∧ gwNode.deleted + 3 * purgeTimeout < currTime)) ptr ↔ Listed t.gwList ptr := by
    constructor <;> rintro ⟨gwNode, hin, horig, hdel⟩
    · exact ⟨gwNode, List.mem_of_mem_filter hin, horig, hdel⟩
    · exact ⟨gwNode, List.mem_filter.mpr ⟨hin, by simp [hdel]⟩, horig, hdel⟩
  exact hlisted.trans (hfold.listed ptr)

end State.GwOk

/-! ## Runs -/

/-- The clock `update_gw_list` and `purge_orig` read is not 0. -/
def Event.GwTimed : Event p → Prop
  | .ogm _ rx => rx.gwTime ≠ 0
  | .purge _ _ gwTime => gwTime ≠ 0
  | _ => True

theorem step_gwOk (hs : s.Wf) (h : s.GwOk) {e : Event p} (htime : e.GwTimed) (hstep : step s e = some s') :
    s'.GwOk := by
  obtain ⟨g, rx, rfl, rfl⟩ | ⟨g, currTime, gwTime, rfl, rfl⟩ | ⟨-, hcalm⟩ := step_calm hs hstep
  · obtain ⟨hcalm, hupdate⟩ := s.batmanOgm_calm hs g rx
    by_cases hcall : s.UpdatesOrig g rx
    · obtain ⟨t, o, best, hbefore, ho, -, -, hafter⟩ := hupdate hcall
      have hends := hbefore.table.ends ho best rx
      exact ((h.calm hbefore).ends hbefore.table ho hends htime).calm hafter
    · exact h.calm (hcalm hcall)
  · exact h.purgeOrig hs g currTime htime
  · exact h.calm hcalm

theorem Config.gwList_boot (cfg : Config) (p : Platform) : (cfg.boot p).gwList = [] := by
  have hfold : ∀ (l : List ℕ) (t : State p),
      (l.foldl (fun s i => s.scheduleOwnPacket i (cfg.now i) (cfg.rnd i)) t).gwList = t.gwList := by
    intro l
    induction l with
    | nil => exact fun _ => rfl
    | cons i l ih => exact fun t => ih (t.scheduleOwnPacket i (cfg.now i) (cfg.rnd i))
  exact hfold (List.range cfg.hwAddrs.length) (cfg.start p)

theorem Run.gwBounded {cfg : Config} {tr : List (State p × Event p)} (h : Run p cfg tr s) : s.GwBounded := by
  have hinv := h.state_invariant (I := fun t => t.Wf ∧ t.GwBounded) ⟨cfg.boot_wf p, fun gwNode hin => by
      rw [cfg.gwList_boot] at hin
      cases hin⟩
    fun t e u ⟨ht, hb⟩ hstep => ⟨step_wf ht hstep, step_gwBounded ht hb hstep⟩
  exact hinv.2.2

theorem Config.boot_gwOk (cfg : Config) (p : Platform) : (cfg.boot p).GwOk := by
  refine ⟨?_, fun ptr => ?_⟩
  · rw [cfg.gwList_boot]
    exact List.nodup_nil
  · rw [cfg.gwList_boot]
    refine iff_of_false ?_ ?_
    · rintro ⟨gwNode, hin, -⟩
      cases hin
    · rintro ⟨o, ho, -⟩
      rw [(cfg.origs_boot p).1] at ho
      cases ho

theorem Run.gwOk {cfg : Config} {tr : List (State p × Event p)} (h : Run p cfg tr s)
    (htime : ∀ x ∈ tr, x.2.GwTimed) : s.GwOk := by
  have hinv := h.invariant_of_good (I := fun _ t => t.Wf ∧ t.GwOk) (G := fun _ _ e => e.GwTimed)
    ⟨cfg.boot_wf p, cfg.boot_gwOk p⟩
    (fun _ t e u ⟨ht, hok⟩ htimed hstep => ⟨step_wf ht hstep, step_gwOk ht hok htimed hstep⟩)
    fun pre x post heq => htime x (by rw [heq]; simp)
  exact hinv.2

/-- **The gateway list.** Where `get_time` does not return 0, in every reachable state each originator has at
most one gateway node, it has one that is not marked just while its `gwflags` are not 0, and the nodes of
originators that have been purged are marked. -/
theorem gateway_list_consistent {cfg : Config} {tr : List (State p × Event p)} (h : Run p cfg tr s)
    (htime : ∀ x ∈ tr, x.2.GwTimed) :
    (∀ o ∈ s.origs, s.gwList.countP (·.origNode = o.ptr) ≤ 1 ∧
      ((∃ gwNode ∈ s.gwList, gwNode.origNode = o.ptr ∧ gwNode.deleted = 0) ↔ o.gwflags ≠ 0)) ∧
    ∀ gwNode ∈ s.gwList, (∀ o ∈ s.origs, o.ptr ≠ gwNode.origNode) → gwNode.deleted ≠ 0 := by
  have hok := Run.gwOk h htime
  refine ⟨fun o ho => ⟨hok.one.count_le o.ptr, ?_⟩, fun gwNode hin hgone hdel => ?_⟩
  · exact (hok.listed o.ptr).trans ((Run.wf h).table.gateway_iff ho)
  · obtain ⟨o, ho, hptr, -⟩ := (hok.listed gwNode.origNode).mp ⟨gwNode, hin, rfl, hdel⟩
    exact hgone o ho hptr

def Net.gateway (gwflags : Byte) (seqno : Seqno) (now : Time) : Event Net.p64 :=
  .ogm (Net.zeros Net.p64)
    { Net.ogm Net.macA Net.macA 0 seqno now with
      pkt := { (Net.ogm Net.macA Net.macA 0 seqno now).pkt with gwflags := gwflags } }

/-- `A` becomes a gateway, withdraws, comes back with another class and is purged. -/
def Net.gateways : List (Event Net.p64) :=
  Net.linkUp Net.p64 ++
    [Net.gateway 5 3 1400, Net.gateway 0 4 1500, Net.gateway 7 5 1600, .purge (Net.zeros Net.p64) 300000 300000]

instance : (e : Event p) → Decidable e.GwTimed
  | .ogm _ _ => instDecidableNot
  | .purge _ _ _ => instDecidableNot
  | .bcast _ _ => .isTrue trivial
  | .tap _ _ => .isTrue trivial
  | .clock _ => .isTrue trivial
  | .hnaUpdate => .isTrue trivial
  | .sendBegin _ => .isTrue trivial
  | .sendNext _ _ => .isTrue trivial

theorem gateway_list_purged : ∃ tr s, Run Net.p64 Net.cfg tr s ∧ tr.map Prod.snd = Net.gateways ∧
    s.origs.length = 0 ∧ s.gwList.length = 1 ∧ ∀ gwNode ∈ s.gwList, gwNode.deleted ≠ 0 := by
  obtain ⟨tr, s, hrun, hevents, hcheck⟩ := Run.of_exec Net.cfg Net.gateways
    (fun tr s => decide ((∀ x ∈ tr, x.2.GwTimed) ∧ s.origs.length = 0 ∧ s.gwList.length = 1)) (by decide +kernel)
  obtain ⟨htime, hnone, hone⟩ := of_decide_eq_true hcheck
  refine ⟨tr, s, hrun, hevents, hnone, hone, fun gwNode hin => ?_⟩
  refine (gateway_list_consistent hrun htime).2 gwNode hin fun o ho => ?_
  rw [List.length_eq_zero_iff.mp hnone] at ho
  cases ho

end BatmanAdv
