import BatmanAdv.Reachable

/-!
# Purging by age

`purge_orig` compares `last_valid + PURGE_TIMEOUT` with the time as numbers. This is the age of the stamp
where the sum lies in the same turn of the 32-bit clock as the time: in the last minutes before the clock
wraps everything is dropped, and in the first ones after it what is stale is kept.
-/

namespace BatmanAdv

variable {p : Platform} {g : Garbage p} {s : State p} {stamp currTime gwTime : Time}

/-- The milliseconds since the stamp, of a clock that counts modulo 2^32. -/
def age (stamp currTime : Time) : ℕ := (currTime - stamp).toNat

def Stale (stamp currTime : Time) : Prop := purgeTimeout.toNat < age stamp currTime

instance (stamp currTime : Time) : Decidable (Stale stamp currTime) :=
  inferInstanceAs (Decidable (_ < _))

/-- The moment the stamp gets stale, counted on from this turn of the clock, lies in this turn. -/
def SameTurn (stamp currTime : Time) : Prop :=
  0 ≤ (currTime.toNat : ℤ) - age stamp currTime + purgeTimeout.toNat ∧
    (currTime.toNat : ℤ) - age stamp currTime + purgeTimeout.toNat < 2 ^ 32

instance (stamp currTime : Time) : Decidable (SameTurn stamp currTime) :=
  inferInstanceAs (Decidable (_ ∧ _))

/-- All stamps of the table are less than 2^31 milliseconds old. -/
def State.Stamped (s : State p) (currTime : Time) : Prop :=
  ∀ o ∈ s.origs, age o.lastValid currTime < 2 ^ 31 ∧
    ∀ n ∈ o.neighList, age n.lastValid currTime < 2 ^ 31

instance (s : State p) (currTime : Time) : Decidable (s.Stamped currTime) :=
  inferInstanceAs (Decidable (∀ o ∈ s.origs, _))

/-- The purge drops what is stale, and nothing else. -/
structure State.PurgesByAge (g : Garbage p) (currTime gwTime : Time) (s : State p) : Prop where
  removed : ∀ o ∈ s.origs,
    (∀ x ∈ (s.purgeOrig g currTime gwTime).origs, x.ptr ≠ o.ptr) ↔ Stale o.lastValid currTime
  kept : ∀ x ∈ (s.purgeOrig g currTime gwTime).origs, ∃ o ∈ s.origs,
    x = { o with
      neighList := o.neighList.filter fun n => !decide (Stale n.lastValid currTime)
      router := x.router
      batmanIf := x.batmanIf
      hnaBuff := x.hnaBuff
      hnaBuffLen := x.hnaBuffLen }

/-! ## One stamp -/

/-- The comparison of `purge_orig` tells the age exactly where the sum does not leave the turn. -/
theorem expired_iff_stale_iff (h : age stamp currTime < 2 ^ 31) :
    (expired stamp currTime = true ↔ Stale stamp currTime) ↔ SameTurn stamp currTime := by
  unfold expired Stale SameTurn age at *
  rw [decide_eq_true_iff, BitVec.lt_def, BitVec.toNat_add]
  rw [BitVec.toNat_sub] at *
  have hstamp := stamp.isLt
  have hcurr := currTime.isLt
  have htimeout : purgeTimeout.toNat = 200000 := rfl
  rw [htimeout]
  omega

/-! ## The table -/

theorem State.removed_purgeOrig_iff (hs : s.Wf) {o : OrigNode p} (ho : o ∈ s.origs) :
    (∀ x ∈ (s.purgeOrig g currTime gwTime).origs, x.ptr ≠ o.ptr) ↔
      expired o.lastValid currTime = true := by
  obtain ⟨_, hfrom, hto⟩ := State.origs_purgeOrig g currTime gwTime hs
  constructor
  · intro hgone
    by_contra hexp
    obtain ⟨x, hx, hpurged⟩ := hto o ho (by simpa using hexp)
    exact hgone x hx hpurged.ptr
  · rintro hexp x hx hptr
    obtain ⟨o', ho', hexp', hpurged⟩ := hfrom x hx
    rw [hs.eq_of_ptr ho' ho (hpurged.ptr.symm.trans hptr), hexp] at hexp'
    cases hexp'

/-- What is filtered by two tests is the same exactly where the tests agree. -/
theorem filter_eq_filter_iff {α : Type*} {q r : α → Bool} {l : List α} :
    l.filter q = l.filter r ↔ ∀ x ∈ l, q x = r x := by
  refine ⟨fun h x hx => ?_, List.filter_congr⟩
  apply Bool.eq_iff_iff.mpr
  have hmem : x ∈ l.filter q ↔ x ∈ l.filter r := by rw [h]
  rwa [List.mem_filter, List.mem_filter, and_iff_right hx, and_iff_right hx] at hmem

theorem OrigNode.keptNeighs_eq_iff {o : OrigNode p}
    (h : ∀ n ∈ o.neighList, age n.lastValid currTime < 2 ^ 31) :
    (o.keptNeighs currTime = o.neighList.filter fun n => !decide (Stale n.lastValid currTime)) ↔
      ∀ n ∈ o.neighList, SameTurn n.lastValid currTime := by
  unfold OrigNode.keptNeighs
  rw [filter_eq_filter_iff]
  refine forall₂_congr fun n hn => ?_
  rw [← expired_iff_stale_iff (h n hn), Bool.not_inj_iff, Bool.eq_iff_iff, decide_eq_true_iff]

/-- **Purging by age.** -/
theorem State.purgesByAge_iff (hs : s.Wf) (hstamped : s.Stamped currTime) (g : Garbage p)
    (gwTime : Time) :
    s.PurgesByAge g currTime gwTime ↔
      ∀ o ∈ s.origs, SameTurn o.lastValid currTime ∧
        (¬ Stale o.lastValid currTime → ∀ n ∈ o.neighList, SameTurn n.lastValid currTime) := by
  obtain ⟨_, hfrom, hto⟩ := State.origs_purgeOrig g currTime gwTime hs
  constructor
  · intro h o ho
    have hexp : expired o.lastValid currTime = true ↔ Stale o.lastValid currTime :=
      (State.removed_purgeOrig_iff hs ho).symm.trans (h.removed o ho)
    refine ⟨(expired_iff_stale_iff (hstamped o ho).1).mp hexp, fun hfresh => ?_⟩
    apply (OrigNode.keptNeighs_eq_iff (hstamped o ho).2).mp
    obtain ⟨x, hx, hpurged⟩ := hto o ho (by simpa using mt hexp.mp hfresh)
    obtain ⟨o', ho', hkept⟩ := h.kept x hx
    have hptr : x.ptr = o'.ptr := by rw [hkept]
    obtain rfl := hs.eq_of_ptr ho' ho (hptr.symm.trans hpurged.ptr)
    rw [← hpurged.neighList, hkept]
  · intro h
    have hexp : ∀ o ∈ s.origs, expired o.lastValid currTime = true ↔ Stale o.lastValid currTime :=
      fun o ho => (expired_iff_stale_iff (hstamped o ho).1).mpr (h o ho).1
    refine ⟨fun o ho => ?_, fun x hx => ?_⟩
    · rw [State.removed_purgeOrig_iff hs ho]
      exact hexp o ho
    · obtain ⟨o, ho, hkeep, hpurged⟩ := hfrom x hx
      have hfresh : ¬ Stale o.lastValid currTime := by
        rw [← hexp o ho, hkeep]
        exact Bool.false_ne_true
      have hneighs := (OrigNode.keptNeighs_eq_iff (hstamped o ho).2).mpr ((h o ho).2 hfresh)
      refine ⟨o, ho, ?_⟩
      rw [← hneighs, hpurged, OrigNode.purge_frame]

/-- A purge five minutes after the last OGM. -/
theorem State.purgesByAge_linkUp : ∃ tr s,
    Run Net.p64 Net.cfg tr s ∧ tr.map Prod.snd = Net.linkUp Net.p64 ∧ s.origs ≠ [] ∧
    s.PurgesByAge (Net.zeros Net.p64) 300000 300000 := by
  obtain ⟨tr, s, hrun, hevents, hcheck⟩ := Run.of_exec Net.cfg (Net.linkUp Net.p64)
    (fun _ (s : State Net.p64) => decide (s.origs ≠ [] ∧ s.Stamped 300000 ∧
      ∀ o ∈ s.origs, SameTurn o.lastValid 300000 ∧
        (¬ Stale o.lastValid 300000 → ∀ n ∈ o.neighList, SameTurn n.lastValid 300000)))
    (by decide +kernel)
  obtain ⟨hne, hstamped, hturn⟩ := of_decide_eq_true hcheck
  exact ⟨tr, s, hrun, hevents, hne, (State.purgesByAge_iff (Run.wf hrun) hstamped _ _).mpr hturn⟩

/-- An OGM heard a tenth of a second before the purge, shortly before the clock wraps. -/
def Net.late : List (Event Net.p64) :=
  Net.linkUp Net.p64 ++ [.ogm (Net.zeros Net.p64) (Net.ogm Net.macA Net.macA 0 3 4294967000)]

/-- Its entry is dropped. -/
theorem State.purgesByAge_late : ∃ tr s,
    Run Net.p64 Net.cfg tr s ∧ tr.map Prod.snd = Net.late ∧ s.Stamped 4294967100 ∧
    ¬ s.PurgesByAge (Net.zeros Net.p64) 4294967100 4294967100 := by
  obtain ⟨tr, s, hrun, hevents, hcheck⟩ := Run.of_exec Net.cfg Net.late
    (fun _ (s : State Net.p64) => decide (s.Stamped 4294967100 ∧
      ∃ o ∈ s.origs, ¬ Stale o.lastValid 4294967100 ∧
        ∀ x ∈ (s.purgeOrig (Net.zeros Net.p64) 4294967100 4294967100).origs, x.ptr ≠ o.ptr))
    (by decide +kernel)
  obtain ⟨hstamped, o, ho, hfresh, hgone⟩ := of_decide_eq_true hcheck
  exact ⟨tr, s, hrun, hevents, hstamped, fun h => hfresh ((h.removed o ho).mp hgone)⟩

end BatmanAdv
