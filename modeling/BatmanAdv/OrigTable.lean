import BatmanAdv.Lib.Trace
import BatmanAdv.Purge
import BatmanAdv.Reachable

/-!
# `get_orig_node` and `purge_orig` on the table

What one call of `get_orig_node` finds depends on all calls before it, on the table having been resized
under the entries, and on the entries `purge_orig` has taken out. Between these the entries may be written
to, up to their address.
-/

namespace BatmanAdv

open Transition

variable {p : Platform} {s : State p} {g : Garbage p} {currTime gwTime : Time} {ptr : ℕ} {addr : Mac}

namespace State

/-! ## The entries by pointer and address -/

/-- Where the entries are, and whose they are. -/
def keys (s : State p) : List (ℕ × Mac) := s.origs.map fun o => (o.ptr, o.orig)

theorem at_iff_mem_keys : s.At ptr addr ↔ (ptr, addr) ∈ s.keys := by
  unfold At keys
  simp only [List.mem_map, Prod.mk.injEq]

theorem keys_modOrig {f : OrigNode p → OrigNode p} (hptr : ∀ o, (f o).ptr = o.ptr)
    (horig : ∀ o, (f o).orig = o.orig) : (s.modOrig ptr f).keys = s.keys := by
  unfold keys
  rw [origs_modOrig, List.map_map]
  apply List.map_congr_left
  intro o _
  show ((if o.ptr = ptr then f o else o).ptr, (if o.ptr = ptr then f o else o).orig) = (o.ptr, o.orig)
  split_ifs
  · rw [hptr, horig]
  · rfl

namespace Table

theorem eq_of_orig (h : s.Table) {a b : OrigNode p} (ha : a ∈ s.origs) (hb : b ∈ s.origs)
    (horig : a.orig = b.orig) : a = b := by
  have hfind := (findOrigNode_eq_some_iff h.ok).mpr ⟨ha, horig⟩
  rw [(findOrigNode_eq_some_iff h.ok).mpr ⟨hb, rfl⟩] at hfind
  cases hfind
  rfl

theorem nodup_orig (h : s.Table) : (s.origs.map (·.orig)).Nodup := by
  have hdistinct : s.origs.Pairwise fun a b => a.orig ≠ b.orig := by
    refine h.distinct.imp_of_mem fun {a b} ha hb hne horig => hne ?_
    rw [h.eq_of_orig ha hb horig]
  exact List.pairwise_map.mpr hdistinct

theorem findOrigNode_of_mem (h : s.Table) {o : OrigNode p} (ho : o ∈ s.origs) :
    s.findOrigNode o.orig = some o :=
  (findOrigNode_eq_some_iff h.ok).mpr ⟨ho, rfl⟩

end Table

/-! ## A purge -/

def Expires (s : State p) (currTime : Time) (ptr : ℕ) : Prop :=
  ∃ o ∈ s.origs, o.ptr = ptr ∧ expired o.lastValid currTime = true

/-- A table with these entries, none of them new. -/
structure Keeps (s t : State p) : Prop where
  table : t.Table
  size : t.origHash.size = s.origHash.size
  nextPtr : t.nextPtr = s.nextPtr
  length : t.origs.length ≤ s.origs.length

theorem Keeps.trans {t u : State p} (h : s.Keeps t) (h' : t.Keeps u) : s.Keeps u where
  table := h'.table
  size := h'.size.trans h.size
  nextPtr := h'.nextPtr.trans h.nextPtr
  length := h'.length.trans h.length

theorem Table.keeps_modOrig (h : s.Table) {f : OrigNode p → OrigNode p} (hptr : ∀ o, (f o).ptr = o.ptr)
    (horig : ∀ o, (f o).orig = o.orig) : s.Keeps (s.modOrig ptr f) where
  table := h.modOrig hptr horig
  size := rfl
  nextPtr := rfl
  length := by rw [origs_modOrig, List.length_map]

theorem Table.keeps_updateRoutes (h : s.Table) (ptr : ℕ) (best : Option (NeighNode p)) (recv : Option (List Byte))
    (len : ℕ) :
    s.Keeps (s.updateRoutes ptr best recv len) ∧ (s.updateRoutes ptr best recv len).keys = s.keys := by
  unfold State.updateRoutes
  generalize BatmanAdv.updateRoutes s.hwAddrs s.currTime s.trans (s.origAt ptr) best recv len = routed
  have hkeeps : s.Keeps (s.modOrig ptr (·.withRoutes routed.2)) :=
    h.keeps_modOrig (fun _ => rfl) fun _ => rfl
  refine ⟨⟨hkeeps.table.congr rfl le_rfl, hkeeps.size, hkeeps.nextPtr, hkeeps.length⟩, ?_⟩
  exact keys_modOrig (fun _ => rfl) fun _ => rfl

/-- One round of the loop, for an entry that stays. -/
theorem Table.keeps_purgeNeighbors (h : s.Table) (g : Garbage p) (currTime : Time) (ptr : ℕ) :
    s.Keeps (s.purgeNeighbors g currTime ptr) ∧ (s.purgeNeighbors g currTime ptr).keys = s.keys := by
  unfold State.purgeNeighbors
  dsimp only
  have hkeeps : s.Keeps (s.modOrig ptr fun o => { o with neighList := o.keptNeighs currTime }) :=
    h.keeps_modOrig (fun _ => rfl) fun _ => rfl
  have hkeys : (s.modOrig ptr fun o => { o with neighList := o.keptNeighs currTime }).keys = s.keys :=
    keys_modOrig (fun _ => rfl) fun _ => rfl
  split_ifs
  · obtain ⟨hroutes, hsame⟩ := hkeeps.table.keeps_updateRoutes ptr
      (bestNeighNode ((s.origAt ptr).keptNeighs currTime)) (s.origAt ptr).hnaBuff (s.origAt ptr).hnaBuffLen
    exact ⟨hkeeps.trans hroutes, hsame.trans hkeys⟩
  · exact ⟨hkeeps, hkeys⟩

theorem mem_modOrig_of_ne {y : OrigNode p} (hy : y ∈ s.origs) (hne : y.ptr ≠ ptr)
    (f : OrigNode p → OrigNode p) : y ∈ (s.modOrig ptr f).origs :=
  mem_origs_modOrig.mpr ⟨y, hy, if_neg hne⟩

theorem mem_purgeOrigNode_of_ne (h : s.Table) {o y : OrigNode p} (ho : o ∈ s.origs) (hy : y ∈ s.origs)
    (hne : y.ptr ≠ o.ptr) : y ∈ (s.purgeOrigNode g currTime gwTime o.ptr).origs := by
  unfold State.purgeOrigNode
  split_ifs
  · obtain hsame | hother := List.mem_cons.mp ((h.purgeExpired gwTime ho).2.mem_iff.mp hy)
    · exact absurd (congrArg OrigNode.ptr hsame) hne
    · exact hother
  · unfold State.purgeNeighbors
    dsimp only
    split_ifs
    · exact mem_modOrig_of_ne (mem_modOrig_of_ne hy hne _) hne _
    · exact mem_modOrig_of_ne hy hne _

/-- One round of the loop: the entry is gone just when it has timed out. -/
theorem Table.purgeOrigNode (h : s.Table) (g : Garbage p) (currTime gwTime : Time) {o : OrigNode p} (ho : o ∈ s.origs) :
    s.Keeps (s.purgeOrigNode g currTime gwTime o.ptr) ∧
      ∀ k, k ∈ (s.purgeOrigNode g currTime gwTime o.ptr).keys ↔
        k ∈ s.keys ∧ ¬ (k.1 = o.ptr ∧ expired o.lastValid currTime = true) := by
  unfold State.purgeOrigNode
  rw [h.origAt_of_mem ho]
  by_cases hexp : expired o.lastValid currTime = true
  · rw [if_pos hexp]
    obtain ⟨htable, hperm⟩ := h.purgeExpired gwTime ho
    have hkeys : s.keys.Perm ((o.ptr, o.orig) :: (s.purgeExpired o.ptr gwTime).keys) := hperm.map _
    have hdistinct := (hperm.pairwise_iff fun hne => hne.symm).mp h.distinct
    refine ⟨⟨htable, ?_, rfl, ?_⟩, fun k => ?_⟩
    · rfl
    · rw [hperm.length_eq, List.length_cons]
      exact Nat.le_succ _
    · rw [hkeys.mem_iff, List.mem_cons]
      constructor
      · intro hk
        refine ⟨.inr hk, fun hgone => ?_⟩
        obtain ⟨y, hy, rfl⟩ := List.mem_map.mp hk
        exact (List.pairwise_cons.mp hdistinct).1 y hy hgone.1.symm
      · rintro ⟨rfl | hk, hstays⟩
        · exact absurd ⟨rfl, hexp⟩ hstays
        · exact hk
  · rw [if_neg hexp]
    obtain ⟨hkeeps, hkeys⟩ := h.keeps_purgeNeighbors g currTime o.ptr
    refine ⟨hkeeps, fun k => ?_⟩
    rw [hkeys]
    exact ⟨fun hk => ⟨hk, fun hgone => hexp hgone.2⟩, And.left⟩

theorem Table.purgeFold (h : s.Table) (g : Garbage p) (currTime gwTime : Time) (l : List ℕ) (hnodup : l.Nodup)
    (hlive : ∀ ptr ∈ l, ∃ o ∈ s.origs, o.ptr = ptr) :
    s.Keeps (l.foldl (fun s ptr => s.purgeOrigNode g currTime gwTime ptr) s) ∧
      ∀ k, k ∈ (l.foldl (fun s ptr => s.purgeOrigNode g currTime gwTime ptr) s).keys ↔
        k ∈ s.keys ∧ ¬ (k.1 ∈ l ∧ s.Expires currTime k.1) := by
  induction l generalizing s with
  | nil =>
    refine ⟨⟨h, rfl, rfl, le_rfl⟩, fun k => ?_⟩
    exact ⟨fun hk => ⟨hk, fun hin => List.not_mem_nil hin.1⟩, And.left⟩
  | cons ptr l ih =>
    obtain ⟨hnot, hnodup'⟩ := List.nodup_cons.mp hnodup
    obtain ⟨o, ho, rfl⟩ := hlive ptr List.mem_cons_self
    obtain ⟨hkeeps, hround⟩ := h.purgeOrigNode g currTime gwTime ho
    have hother : ∀ y ∈ s.origs, y.ptr ≠ o.ptr → y ∈ (s.purgeOrigNode g currTime gwTime o.ptr).origs :=
      fun y hy hne => mem_purgeOrigNode_of_ne h ho hy hne
    obtain ⟨hrest, hkeys⟩ := ih hkeeps.table hnodup' fun ptr hptr => by
      obtain ⟨y, hy, rfl⟩ := hlive ptr (List.mem_cons_of_mem _ hptr)
      exact ⟨y, hother y hy fun hsame => hnot (hsame ▸ hptr), rfl⟩
    -- an entry still to come is as it was
    have hexpires : ∀ ptr ∈ l, (s.purgeOrigNode g currTime gwTime o.ptr).Expires currTime ptr ↔
        s.Expires currTime ptr := by
      intro ptr hptr
      obtain ⟨y, hy, rfl⟩ := hlive ptr (List.mem_cons_of_mem _ hptr)
      have hy' := hother y hy fun hsame => hnot (hsame ▸ hptr)
      constructor
      · rintro ⟨x, hx, hxptr, hexp⟩
        exact ⟨y, hy, rfl, hkeeps.table.eq_of_ptr hx hy' hxptr ▸ hexp⟩
      · rintro ⟨x, hx, hxptr, hexp⟩
        exact ⟨y, hy', rfl, h.eq_of_ptr hx hy hxptr ▸ hexp⟩
    refine ⟨hkeeps.trans hrest, fun k => ?_⟩
    rw [List.foldl_cons, hkeys, hround, List.mem_cons]
    have hself : s.Expires currTime o.ptr ↔ expired o.lastValid currTime = true := by
      constructor
      · rintro ⟨x, hx, hxptr, hexp⟩
        exact h.eq_of_ptr hx ho hxptr ▸ hexp
      · exact fun hexp => ⟨o, ho, rfl, hexp⟩
    by_cases hk : k.1 = o.ptr
    · have hout : k.1 ∉ l := hk ▸ hnot
      rw [hk, hself]
      simp [hnot]
    · by_cases hl : k.1 ∈ l
      · simp [hk, hl, hexpires k.1 hl]
      · simp [hk, hl]

/-- **A purge takes out the entries that have timed out, and no others.** -/
theorem Table.purgeOrig (h : s.Table) (g : Garbage p) (currTime gwTime : Time) :
    s.Keeps (s.purgeOrig g currTime gwTime) ∧
      ∀ ptr addr, (s.purgeOrig g currTime gwTime).At ptr addr ↔
        s.At ptr addr ∧ ¬ s.Expires currTime ptr := by
  have hnodup : (s.origs.map (·.ptr)).Nodup := List.pairwise_map.mpr h.distinct
  obtain ⟨hkeeps, hkeys⟩ := h.purgeFold g currTime gwTime (s.origs.map (·.ptr)) hnodup
    fun ptr hptr => List.mem_map.mp hptr
  unfold State.purgeOrig
  refine ⟨⟨hkeeps.table.congr rfl le_rfl, hkeeps.size, hkeeps.nextPtr, hkeeps.length⟩, fun ptr addr => ?_⟩
  rw [at_iff_mem_keys, at_iff_mem_keys]
  refine (hkeys (ptr, addr)).trans (and_congr_right fun hk => not_congr ?_)
  obtain ⟨o, ho, heq⟩ := List.mem_map.mp hk
  cases heq
  exact and_iff_right (List.mem_map_of_mem ho)

end State

/-! ## The load of the table -/

/-- At most a quarter of the table is in use, and there is room for one more entry in twice its size. -/
def Hashtable.Light {α : Type*} (hash : Hashtable α) : Prop := hash.elements * 4 ≤ hash.size ∧ 4 ≤ hash.size

theorem size_hashAdd {α κ : Type*} (cb : HashCallbacks κ) (key : α → κ) (hash : Hashtable α) (data : α) :
    (hashAdd cb key hash data).1.size = hash.size := by
  unfold hashAdd
  dsimp only
  split_ifs <;> rfl

theorem size_hashResize {α κ : Type*} (cb : HashCallbacks κ) (key : α → κ) (hash : Hashtable α) (size : ℕ) :
    (hashResize cb key hash size).size = size := by
  have hfold : ∀ (l : List α) (new : Hashtable α),
      (l.foldl (fun newHash data => (hashAdd cb key newHash data).1) new).size = new.size := by
    intro l
    induction l with
    | nil => exact fun _ => rfl
    | cons data l ih => exact fun new => (ih _).trans (size_hashAdd cb key new data)
  exact hfold hash.buckets (hashNew size)

namespace State

theorem Keeps.light {t : State p} (h : s.Table) (hkeeps : s.Keeps t) (hlight : s.origHash.Light) :
    t.origHash.Light := by
  have hs : s.origHash.elements = s.origs.length := h.ok.elements_eq
  have ht : t.origHash.elements = t.origs.length := hkeeps.table.ok.elements_eq
  have hlength := hkeeps.length
  obtain ⟨hload, hroom⟩ := hlight
  unfold Hashtable.Light
  rw [hkeeps.size]
  omega

/-- **`get_orig_node` leaves the table at most a quarter full.** -/
theorem Table.light_getOrigNode (h : s.Table) (hlight : s.origHash.Light) (addr : Mac) :
    (s.getOrigNode addr).1.origHash.Light := by
  unfold State.getOrigNode
  cases hfind : s.findOrigNode addr with
  | some o => exact hlight
  | none =>
    obtain ⟨hload, hroom⟩ := hlight
    have hnone : hashFind macCallbacks OrigNode.orig s.origHash
      (OrigNode.new s.nextPtr addr : OrigNode p).orig = none := hfind
    obtain ⟨-, hperm, hok⟩ := hashAdd_of_none h.ok macCallbacks_lawful hnone
    have hsize := size_hashAdd macCallbacks OrigNode.orig s.origHash (OrigNode.new s.nextPtr addr : OrigNode p)
    have hcount : (hashAdd macCallbacks OrigNode.orig s.origHash
        (OrigNode.new s.nextPtr addr : OrigNode p)).1.elements = s.origHash.elements + 1 := by
      rw [hok.elements_eq, hperm.length_eq, List.length_cons, h.ok.elements_eq]
    dsimp only
    unfold addOrigNode
    dsimp only
    split_ifs with hfull
    · obtain ⟨hperm', hok'⟩ := hashResize_spec hok macCallbacks_lawful
        (Nat.mul_pos hok.size_pos Nat.two_pos)
      have hcount' := hok'.elements_eq
      rw [hperm'.length_eq, ← hok.elements_eq] at hcount'
      unfold Hashtable.Light
      rw [hcount', size_hashResize, hsize, hcount]
      omega
    · unfold Hashtable.Light
      rw [hsize] at hfull ⊢
      omega

/-! ## Calls in any order -/

/-- What happens to the table: a call of `get_orig_node`, a purge, or a write to an entry by anybody else. -/
inductive TableEvent (p : Platform) where
  | get (addr : Mac)
  | purge (g : Garbage p) (currTime gwTime : Time)
  | write (ptr : ℕ) (f : OrigNode p → OrigNode p)

/-- Nobody writes to `orig`, and an entry stays where it is. -/
def tableStep (s : State p) : TableEvent p → Option (State p)
  | .get addr => some (s.getOrigNode addr).1
  | .purge g currTime gwTime => some (s.purgeOrig g currTime gwTime)
  | .write ptr f => some (s.modOrig ptr fun o => { f o with ptr := o.ptr, orig := o.orig })

/-- The event takes the entry at `ptr` out of the table. -/
def Purges (x : State p × TableEvent p) (ptr : ℕ) : Prop :=
  match x.2 with
  | .get _ => False
  | .purge _ currTime _ => x.1.Expires currTime ptr
  | .write _ _ => False

/-- What one event leaves: the table is one, and light, and loses only what is purged. -/
theorem tableStep_spec {t : State p} {e : TableEvent p} (h : s.Table) (hlight : s.origHash.Light)
    (hstep : tableStep s e = some t) :
    t.Table ∧ t.origHash.Light ∧ ∀ ptr addr, s.At ptr addr → ¬ Purges (s, e) ptr → t.At ptr addr := by
  cases e with
  | get addr' =>
    cases hstep
    obtain ⟨htable, -, hmem, -⟩ := h.getOrigNode addr'
    refine ⟨htable, h.light_getOrigNode hlight addr', fun ptr addr hat _ => ?_⟩
    obtain ⟨o, ho, hptr, horig⟩ := hat
    exact ⟨o, hmem o ho, hptr, horig⟩
  | purge g currTime gwTime =>
    cases hstep
    obtain ⟨hkeeps, hat⟩ := h.purgeOrig g currTime gwTime
    exact ⟨hkeeps.table, hkeeps.light h hlight, fun ptr addr hs hstays => (hat ptr addr).mpr ⟨hs, hstays⟩⟩
  | write ptr' f =>
    cases hstep
    have hkeeps : s.Keeps (s.modOrig ptr' fun o => { f o with ptr := o.ptr, orig := o.orig }) :=
      h.keeps_modOrig (fun _ => rfl) fun _ => rfl
    exact ⟨hkeeps.table, hkeeps.light h hlight, fun ptr addr hs _ => hs.modOrig (fun _ => rfl) fun _ => rfl⟩

variable {t : State p} {tr : List (State p × TableEvent p)}

/-- The table of `batman()`, empty at first, is a table in every state, and light. -/
theorem table_of_trace (h₀ : s.origHash = hashNew 128) (h : Trace tableStep s tr t) :
    (∀ x ∈ tr, x.1.Table ∧ x.1.origHash.Light) ∧ t.Table ∧ t.origHash.Light := by
  have hnil : s.origs = [] := by
    unfold origs
    rw [h₀]
    exact buckets_hashNew 128
  have hstart : s.Table ∧ s.origHash.Light := by
    refine ⟨⟨h₀ ▸ Hashtable.Ok.hashNew (by decide), ?_, ?_⟩, ?_⟩
    · rw [hnil]
      exact List.Pairwise.nil
    · rw [hnil]
      exact fun o ho => absurd ho List.not_mem_nil
    · rw [h₀]
      show 0 * 4 ≤ 128 ∧ 4 ≤ 128
      decide
  exact h.state_invariant (I := fun u => u.Table ∧ u.origHash.Light) hstart fun u e v hu hstep =>
    ⟨(tableStep_spec hu.1 hu.2 hstep).1, (tableStep_spec hu.1 hu.2 hstep).2.1⟩

theorem At.of_trace {b : List (State p × TableEvent p)} {addr : Mac} {ptr : ℕ}
    (htables : ∀ x ∈ b, x.1.Table ∧ x.1.origHash.Light) (h : Trace tableStep s b t) (hat : s.At ptr addr)
    (hstays : ∀ x ∈ b, ¬ Purges x ptr) : t.At ptr addr := by
  induction h with
  | nil => exact hat
  | @snoc b t e u run hstep ih =>
    have ht := ih (fun x hx => htables x (List.mem_append_left _ hx)) fun x hx =>
      hstays x (List.mem_append_left _ hx)
    have hlast := htables (t, e) (by simp)
    exact (tableStep_spec hlast.1 hlast.2 hstep).2.2 ptr addr ht (hstays (t, e) (by simp))

theorem Table.getOrigNode_of_at (h : s.Table) (hat : s.At ptr addr) : s.getOrigNode addr = (s, ptr) := by
  obtain ⟨o, ho, rfl, rfl⟩ := hat
  unfold State.getOrigNode
  rw [h.findOrigNode_of_mem ho]

theorem Table.at_getOrigNode (h : s.Table) (addr : Mac) :
    (s.getOrigNode addr).1.At (s.getOrigNode addr).2 addr := by
  obtain ⟨-, -, -, e, he, hptr, hentry⟩ := h.getOrigNode addr
  refine ⟨e, he, hptr, ?_⟩
  cases hfind : s.findOrigNode addr with
  | some o =>
    rw [hfind, Option.getD_some] at hentry
    rw [hentry]
    exact ((findOrigNode_eq_some_iff h.ok).mp hfind).2
  | none =>
    rw [hfind, Option.getD_none] at hentry
    rw [hentry]
    rfl

/-- **A call of `get_orig_node` at the end of any sequence of calls and purges.** It returns an entry of the
address, and the one of an earlier call unless that was purged; addresses stay distinct, the other entries
found, and the table a quarter full at most. -/
theorem getOrigNode_of_trace (h₀ : s.origHash = hashNew 128) (h : Trace tableStep s tr t) (addr : Mac) :
    (t.getOrigNode addr).1.At (t.getOrigNode addr).2 addr ∧
      (∀ a x b, tr = a ++ x :: b → x.2 = .get addr → (∀ y ∈ b, ¬ Purges y (x.1.getOrigNode addr).2) →
        t.getOrigNode addr = (t, (x.1.getOrigNode addr).2)) ∧
      (t.origs.map (·.orig)).Nodup ∧ ((t.getOrigNode addr).1.origs.map (·.orig)).Nodup ∧
      (∀ o ∈ t.origs, o ∈ (t.getOrigNode addr).1.origs ∧
        (t.getOrigNode addr).1.findOrigNode o.orig = some o) ∧
      (t.getOrigNode addr).1.origHash.elements * 4 ≤ (t.getOrigNode addr).1.origHash.size := by
  obtain ⟨htables, ht, hlight⟩ := table_of_trace h₀ h
  obtain ⟨hnext, -, hmem, -⟩ := ht.getOrigNode addr
  refine ⟨ht.at_getOrigNode addr, ?_, ht.nodup_orig, hnext.nodup_orig, ?_, (ht.light_getOrigNode hlight addr).1⟩
  · rintro a x b rfl hget hstays
    obtain ⟨-, u, hu, hrest⟩ := h.split
    have hx := htables x (by simp)
    rw [hget] at hu
    cases hu
    refine ht.getOrigNode_of_at (At.of_trace ?_ hrest (hx.1.at_getOrigNode addr) hstays)
    exact fun y hy => htables y (by simp [hy])
  · exact fun o ho => ⟨hmem o ho, hnext.findOrigNode_of_mem (hmem o ho)⟩

/-- `A` and `B` get entries, and both are purged; then `B` gets a new one. -/
theorem getOrigNode_of_trace_purged :
    ∃ (tr : List (State Net.p64 × TableEvent Net.p64)) (t : State Net.p64),
      (Net.cfg.start Net.p64).origHash = hashNew 128 ∧ Trace tableStep (Net.cfg.start Net.p64) tr t ∧
      t.origs.map (·.orig) = [Net.macB] ∧
      (t.getOrigNode Net.macA).1.At (t.getOrigNode Net.macA).2 Net.macA ∧
      (∀ a x b, tr = a ++ x :: b → x.2 = .get Net.macA → (∀ y ∈ b, ¬ Purges y (x.1.getOrigNode Net.macA).2) →
        t.getOrigNode Net.macA = (t, (x.1.getOrigNode Net.macA).2)) ∧
      (t.origs.map (·.orig)).Nodup ∧ ((t.getOrigNode Net.macA).1.origs.map (·.orig)).Nodup ∧
      (∀ o ∈ t.origs, o ∈ (t.getOrigNode Net.macA).1.origs ∧
        (t.getOrigNode Net.macA).1.findOrigNode o.orig = some o) ∧
      (t.getOrigNode Net.macA).1.origHash.elements * 4 ≤ (t.getOrigNode Net.macA).1.origHash.size := by
  have hrun : ∃ tr t, Trace tableStep (Net.cfg.start Net.p64) tr t ∧
      tr.map Prod.snd =
        [.get Net.macA, .get Net.macB, .purge (Net.zeros Net.p64) 300000 300000, .get Net.macB] ∧
      decide (t.origs.map (·.orig) = [Net.macB]) = true :=
    Trace.exists_of_exec (q := fun _ (t : State Net.p64) => decide (t.origs.map (·.orig) = [Net.macB]))
      (by decide +kernel)
  obtain ⟨tr, t, htrace, -, hcheck⟩ := hrun
  exact ⟨tr, t, rfl, htrace, of_decide_eq_true hcheck, getOrigNode_of_trace rfl htrace Net.macA⟩

end State

end BatmanAdv
