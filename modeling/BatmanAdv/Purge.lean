import BatmanAdv.OgmMoves

/-!
# What a purge leaves

`purge_orig` goes through the originator entries one by one. What it leaves of an entry it keeps does
not depend on the other entries (`OrigNode.purge`), up to the announced hosts, which `update_routes`
writes anew.
-/

namespace BatmanAdv

variable {p : Platform} {g : Garbage p} {currTime gwTime : Time} {s : State p}

/-! ## One entry -/

def OrigNode.purge (g : Garbage p) (currTime : Time) (o : OrigNode p) : OrigNode p :=
  let o' := { o with neighList := o.keptNeighs currTime }
  if o.reroutes g currTime then o'.setRouter (bestNeighNode (o.keptNeighs currTime)) else o'

/-- `x` is what the purge leaves of `o`. -/
def OrigNode.Purged (g : Garbage p) (currTime : Time) (o x : OrigNode p) : Prop :=
  x = { o.purge g currTime with hnaBuff := x.hnaBuff, hnaBuffLen := x.hnaBuffLen }

theorem OrigNode.setRouter_frame (o : OrigNode p) (best : Option (NeighNode p)) :
    o.setRouter best =
      { o with router := (o.setRouter best).router, batmanIf := (o.setRouter best).batmanIf } := by
  unfold OrigNode.setRouter
  split_ifs
  · cases best <;> rfl
  · rfl

theorem OrigNode.purge_frame (g : Garbage p) (currTime : Time) (o : OrigNode p) :
    o.purge g currTime =
      { o with
        neighList := o.keptNeighs currTime
        router := (o.purge g currTime).router
        batmanIf := (o.purge g currTime).batmanIf } := by
  unfold OrigNode.purge
  dsimp only
  split_ifs
  · exact OrigNode.setRouter_frame _ _
  · rfl

theorem OrigNode.Purged.ptr {o x : OrigNode p} (h : o.Purged g currTime x) : x.ptr = o.ptr := by
  rw [h, OrigNode.purge_frame]

theorem OrigNode.Purged.orig {o x : OrigNode p} (h : o.Purged g currTime x) : x.orig = o.orig := by
  rw [h, OrigNode.purge_frame]

theorem OrigNode.Purged.neighList {o x : OrigNode p} (h : o.Purged g currTime x) :
    x.neighList = o.keptNeighs currTime := by
  rw [h, OrigNode.purge_frame]

/-! ## One round of the loop -/

variable (g currTime gwTime)

theorem State.Table.purgeExpired (hs : s.Table) {o : OrigNode p} (ho : o ∈ s.origs) :
    (s.purgeExpired o.ptr gwTime).Table ∧ s.origs.Perm (o :: (s.purgeExpired o.ptr gwTime).origs) := by
  have hi : chooseOrig o.orig s.origHash.size < s.origHash.size :=
    Nat.mod_lt _ hs.ok.size_pos
  have hchain : ∀ x ∈ s.origHash.table (chooseOrig o.orig s.origHash.size), x ∈ s.origs :=
    fun x hx => Hashtable.mem_buckets.mpr ⟨_, hi, hx⟩
  have hfind : (s.origHash.table (chooseOrig o.orig s.origHash.size)).find? (·.ptr = o.ptr) =
      some o := by
    cases hf : (s.origHash.table (chooseOrig o.orig s.origHash.size)).find? (·.ptr = o.ptr) with
    | none =>
      have hin : o ∈ s.origHash.table (chooseOrig o.orig s.origHash.size) := by
        obtain ⟨i, hi', hin⟩ := Hashtable.mem_buckets.mp ho
        have hplaced : chooseOrig o.orig s.origHash.size = i := hs.ok.placed i hi' o hin
        rwa [hplaced]
      exact absurd (List.find?_eq_none.mp hf o hin) (by simp)
    | some x =>
      have hptr : x.ptr = o.ptr := by simpa using List.find?_some hf
      rw [hs.eq_of_ptr (hchain x (List.mem_of_find?_eq_some hf)) ho hptr]
  obtain ⟨hperm, hok⟩ := hashRemoveBucket_spec hs.ok macCallbacks_lawful hi hfind
  have hhash : (s.purgeExpired o.ptr gwTime).origHash =
      hashRemoveBucket s.origHash (chooseOrig o.orig s.origHash.size) (·.ptr = o.ptr) := by
    unfold State.purgeExpired
    rw [hs.origAt_of_mem ho]
  have hdis := (hperm.pairwise_iff fun hne => hne.symm).mp hs.distinct
  unfold State.origs
  rw [hhash]
  refine ⟨⟨hhash ▸ hok, ?_, fun x hx => ?_⟩, hperm⟩
  · unfold State.origs
    rw [hhash]
    exact (List.pairwise_cons.mp hdis).2
  · unfold State.origs at hx
    rw [hhash] at hx
    exact hs.ptr_lt x (hperm.mem_iff.mpr (List.mem_cons_of_mem _ hx))

theorem State.origs_purgeExpired (hs : s.Wf) {o : OrigNode p} (ho : o ∈ s.origs) :
    (s.purgeExpired o.ptr gwTime).Wf ∧
      ∀ x, x ∈ (s.purgeExpired o.ptr gwTime).origs ↔ x ∈ s.origs ∧ x.ptr ≠ o.ptr := by
  obtain ⟨htable, hperm⟩ := hs.table.purgeExpired gwTime ho
  have hdis := (hperm.pairwise_iff fun hne => hne.symm).mp hs.distinct
  have hmem : ∀ x, x ∈ (s.purgeExpired o.ptr gwTime).origs ↔ x ∈ s.origs ∧ x.ptr ≠ o.ptr := by
    intro x
    constructor
    · intro hx
      exact ⟨hperm.mem_iff.mpr (List.mem_cons_of_mem _ hx),
        ((List.pairwise_cons.mp hdis).1 x hx).symm⟩
    · rintro ⟨hx, hne⟩
      rcases List.mem_cons.mp (hperm.mem_iff.mp hx) with rfl | hx
      · exact absurd rfl hne
      · exact hx
  exact ⟨⟨htable.ok, htable.distinct, fun x hx => hs.node x ((hmem x).mp hx).1,
    fun x hx => hs.foreign x ((hmem x).mp hx).1⟩, hmem⟩

theorem State.origs_updateRoutes (hs : s.Wf) {o : OrigNode p} (ho : o ∈ s.origs)
    (best : Option (NeighNode p)) (recv : Option (List Byte)) (len : ℕ) :
    (s.updateRoutes o.ptr best recv len).Wf ∧
      ∀ y, y ∈ (s.updateRoutes o.ptr best recv len).origs ↔
        y = o.withRoutes
            (BatmanAdv.updateRoutes s.hwAddrs s.currTime s.trans o best recv len).2 ∨
          y ∈ s.origs ∧ y.ptr ≠ o.ptr := by
  unfold State.updateRoutes
  rw [hs.origAt_of_mem ho]
  generalize (BatmanAdv.updateRoutes s.hwAddrs s.currTime s.trans o best recv len) = routed
  have hwf : (s.modOrig o.ptr (·.withRoutes routed.2)).Wf :=
    hs.modOrig (fun _ => rfl) (fun _ => rfl) fun o ho _ => (hs.node o ho).of_eq rfl rfl
  exact ⟨⟨hwf.ok, hwf.distinct, hwf.node, hwf.foreign⟩, fun y => hs.mem_modOrig_iff ho⟩

/-- `purge_orig` on an entry it keeps, after the neighbours that have expired are gone. -/
theorem State.purgeNeighbors_eq (hs : s.Wf) {o : OrigNode p} (ho : o ∈ s.origs) (g : Garbage p)
    (currTime : Time) :
    ∃ t, t = s.modOrig o.ptr (fun o => { o with neighList := o.keptNeighs currTime }) ∧ t.Wf ∧
      { o with neighList := o.keptNeighs currTime } ∈ t.origs ∧
      s.purgeNeighbors g currTime o.ptr =
        if o.reroutes g currTime then
          t.updateRoutes o.ptr (bestNeighNode (o.keptNeighs currTime)) o.hnaBuff o.hnaBuffLen
        else t := by
  refine ⟨_, rfl, ?_, (hs.mem_modOrig_iff ho).mpr (.inl rfl), ?_⟩
  · exact hs.modOrig (fun _ => rfl) (fun _ => rfl) fun o ho _ => (hs.node o ho).filter rfl rfl
  · unfold State.purgeNeighbors
    dsimp only
    rw [hs.origAt_of_mem ho]

theorem State.origs_purgeNeighbors (hs : s.Wf) {o : OrigNode p} (ho : o ∈ s.origs) :
    (s.purgeNeighbors g currTime o.ptr).Wf ∧
      ∃ x, o.Purged g currTime x ∧
        ∀ y, y ∈ (s.purgeNeighbors g currTime o.ptr).origs ↔
          y = x ∨ y ∈ s.origs ∧ y.ptr ≠ o.ptr := by
  obtain ⟨s1, hmod, hs1, ho1, heq⟩ := State.purgeNeighbors_eq hs ho g currTime
  have hmem1 : ∀ y, y ∈ s1.origs ↔ y = { o with neighList := o.keptNeighs currTime } ∨
      y ∈ s.origs ∧ y.ptr ≠ o.ptr := fun y => hmod ▸ hs.mem_modOrig_iff ho
  rw [heq]
  split_ifs with hr
  · obtain ⟨hwf, hmem2⟩ := State.origs_updateRoutes hs1 ho1 (bestNeighNode (o.keptNeighs currTime))
      o.hnaBuff o.hnaBuffLen
    refine ⟨hwf, _, ?_, fun y => (hmem2 y).trans (or_congr_right ?_)⟩
    · obtain ⟨hrouter, hif⟩ := updateRoutes_snd s1.hwAddrs s1.currTime s1.trans
        { o with neighList := o.keptNeighs currTime } (bestNeighNode (o.keptNeighs currTime))
        o.hnaBuff o.hnaBuffLen
      unfold OrigNode.Purged OrigNode.purge
      rw [if_pos hr, OrigNode.setRouter_frame, ← hrouter, ← hif]
      rfl
    · rw [hmem1]
      constructor
      · rintro ⟨rfl | hy, hne⟩
        · exact absurd rfl hne
        · exact hy
      · exact fun hy => ⟨.inr hy, hy.2⟩
  · refine ⟨hs1, _, ?_, hmem1⟩
    unfold OrigNode.Purged OrigNode.purge
    rw [if_neg hr]

/-- One round of the loop: the entry is gone, or `Purged`, and the others stay. -/
theorem State.origs_purgeOrigNode (hs : s.Wf) {o : OrigNode p} (ho : o ∈ s.origs) :
    (s.purgeOrigNode g currTime gwTime o.ptr).Wf ∧
      (∀ y ∈ s.origs, y.ptr ≠ o.ptr → y ∈ (s.purgeOrigNode g currTime gwTime o.ptr).origs) ∧
      (∀ y ∈ (s.purgeOrigNode g currTime gwTime o.ptr).origs,
        y ∈ s.origs ∧ y.ptr ≠ o.ptr ∨ expired o.lastValid currTime = false ∧ o.Purged g currTime y) ∧
      (expired o.lastValid currTime = false →
        ∃ y ∈ (s.purgeOrigNode g currTime gwTime o.ptr).origs, o.Purged g currTime y) := by
  unfold State.purgeOrigNode
  rw [hs.origAt_of_mem ho]
  by_cases hexp : expired o.lastValid currTime = true
  · rw [if_pos hexp]
    obtain ⟨hwf, hmem⟩ := State.origs_purgeExpired gwTime hs ho
    exact ⟨hwf, fun y hy hne => (hmem y).mpr ⟨hy, hne⟩, fun y hy => .inl ((hmem y).mp hy),
      fun hfalse => absurd hexp (by simp [hfalse])⟩
  · rw [if_neg hexp]
    have hexp' : expired o.lastValid currTime = false := by simpa using hexp
    obtain ⟨hwf, x, hx, hmem⟩ := State.origs_purgeNeighbors g currTime hs ho
    refine ⟨hwf, fun y hy hne => (hmem y).mpr (.inr ⟨hy, hne⟩), fun y hy => ?_,
      fun _ => ⟨x, (hmem x).mpr (.inl rfl), hx⟩⟩
    rcases (hmem y).mp hy with rfl | hy
    · exact .inr ⟨hexp', hx⟩
    · exact .inl hy

/-! ## The whole purge -/

/-- **Induction over the entries.** `I` may read which entries are still to come. -/
theorem State.purgeFold_induct {I : List ℕ → State p → Prop} (l : List ℕ) (hs : s.Wf)
    (hnodup : l.Nodup) (hlive : ∀ ptr ∈ l, ∃ o ∈ s.origs, o.ptr = ptr) (hI : I l s)
    (hround : ∀ l t o, t.Wf → o ∈ t.origs → o.ptr ∉ l → I (o.ptr :: l) t →
      I l (t.purgeOrigNode g currTime gwTime o.ptr)) :
    (l.foldl (fun s ptr => s.purgeOrigNode g currTime gwTime ptr) s).Wf ∧
      I [] (l.foldl (fun s ptr => s.purgeOrigNode g currTime gwTime ptr) s) := by
  induction l generalizing s with
  | nil => exact ⟨hs, hI⟩
  | cons ptr l ih =>
    obtain ⟨hnot, hnodup'⟩ := List.nodup_cons.mp hnodup
    obtain ⟨o, ho, rfl⟩ := hlive ptr List.mem_cons_self
    obtain ⟨hwf, hkeep, _, _⟩ :=
      State.origs_purgeOrigNode g currTime gwTime hs ho
    refine ih hwf hnodup' (fun ptr' hptr' => ?_) (hround l s o hs ho hnot hI)
    obtain ⟨o', ho', rfl⟩ := hlive ptr' (List.mem_cons_of_mem _ hptr')
    exact ⟨o', hkeep o' ho' (fun h => hnot (h ▸ hptr')), rfl⟩

/-- A property every round keeps is kept by `purge_orig`. -/
theorem State.purgeOrig_induct {I : State p → Prop} (hs : s.Wf) (hI : I s)
    (hround : ∀ t o, t.Wf → o ∈ t.origs → I t → I (t.purgeOrigNode g currTime gwTime o.ptr))
    (hgw : ∀ (t : State p) gwList, I t → I { t with gwList := gwList }) :
    I (s.purgeOrig g currTime gwTime) := by
  unfold State.purgeOrig
  refine hgw _ _ (State.purgeFold_induct g currTime gwTime (I := fun _ => I) (s.origs.map (·.ptr)) hs ?_ ?_ hI
    fun _ t o ht ho _ hIt => hround t o ht ho hIt).2
  · exact List.pairwise_map.mpr hs.distinct
  · intro ptr hptr
    obtain ⟨o, ho, rfl⟩ := List.mem_map.mp hptr
    exact ⟨o, ho, rfl⟩

/-- **`purge_orig`** leaves exactly what `OrigNode.purge` makes of the entries that have not expired. -/
theorem State.origs_purgeOrig (hs : s.Wf) :
    (s.purgeOrig g currTime gwTime).Wf ∧
      (∀ x ∈ (s.purgeOrig g currTime gwTime).origs,
        ∃ o ∈ s.origs, expired o.lastValid currTime = false ∧ o.Purged g currTime x) ∧
      (∀ o ∈ s.origs, expired o.lastValid currTime = false →
        ∃ x ∈ (s.purgeOrig g currTime gwTime).origs, o.Purged g currTime x) := by
  have hfold := State.purgeFold_induct g currTime gwTime
    (I := fun l t =>
      (∀ x ∈ t.origs, x.ptr ∈ l ∧ x ∈ s.origs ∨
        ∃ o ∈ s.origs, expired o.lastValid currTime = false ∧ o.Purged g currTime x) ∧
      (∀ o ∈ s.origs, o.ptr ∈ l ∧ o ∈ t.origs ∨ o.ptr ∉ l ∧ (expired o.lastValid currTime = false →
        ∃ x ∈ t.origs, o.Purged g currTime x)))
    (s.origs.map (·.ptr)) hs (List.pairwise_map.mpr hs.distinct)
    (fun ptr hptr => by obtain ⟨o, ho, rfl⟩ := List.mem_map.mp hptr; exact ⟨o, ho, rfl⟩)
    ⟨fun x hx => .inl ⟨List.mem_map_of_mem hx, hx⟩, fun o ho => .inl ⟨List.mem_map_of_mem ho, ho⟩⟩
    ?_
  · obtain ⟨hwf, h1, h2⟩ := hfold
    refine ⟨⟨hwf.ok, hwf.distinct, hwf.node, hwf.foreign⟩, fun x hx => ?_, fun o ho => ?_⟩
    · rcases h1 x hx with ⟨hnil, _⟩ | h
      · exact absurd hnil List.not_mem_nil
      · exact h
    · rcases h2 o ho with ⟨hnil, _⟩ | ⟨_, h⟩
      · exact absurd hnil List.not_mem_nil
      · exact h
  · rintro l t o ht ho hnot ⟨h1, h2⟩
    obtain ⟨hwf, hkeep, hfrom, hto⟩ :=
      State.origs_purgeOrigNode g currTime gwTime ht ho
    -- the entry of this round is still as it was at the start
    have hos : o ∈ s.origs := by
      rcases h1 o ho with ⟨_, h⟩ | ⟨o', ho', _, hpurged⟩
      · exact h
      · rcases h2 o' ho' with ⟨_, hin⟩ | ⟨hnot', _⟩
        · exact ht.eq_of_ptr ho hin hpurged.ptr ▸ ho'
        · exact absurd (hpurged.ptr ▸ List.mem_cons_self) hnot'
    refine ⟨fun x hx => ?_, fun o' ho' => ?_⟩
    · rcases hfrom x hx with ⟨hxt, hne⟩ | ⟨hexp, hpurged⟩
      · rcases h1 x hxt with ⟨hin, hxs⟩ | h
        · exact .inl ⟨(List.mem_cons.mp hin).resolve_left hne, hxs⟩
        · exact .inr h
      · exact .inr ⟨o, hos, hexp, hpurged⟩
    · by_cases hptr : o'.ptr = o.ptr
      · obtain rfl := hs.eq_of_ptr ho' hos hptr
        exact .inr ⟨hnot, hto⟩
      · rcases h2 o' ho' with ⟨hin, hin'⟩ | ⟨hnot', h⟩
        · exact .inl ⟨(List.mem_cons.mp hin).resolve_left hptr, hkeep o' hin' hptr⟩
        · refine .inr ⟨fun hl => hnot' (List.mem_cons_of_mem _ hl), fun hexp => ?_⟩
          obtain ⟨x, hx, hpurged⟩ := h hexp
          refine ⟨x, hkeep x hx ?_, hpurged⟩
          rw [hpurged.ptr]
          exact hptr

end BatmanAdv
