import BatmanAdv.Purge

/-!
# Reachable states

The originator table is well-formed and the interfaces keep their addresses in every state the daemon
reaches.
-/

namespace BatmanAdv

open Transition

variable {p : Platform} {s s' : State p}

/-! ## Interfaces -/

theorem map_modify_eq {α β : Type*} {f : α → α} {k : α → β} (h : ∀ a, k (f a) = k a) (l : List α)
    (i : ℕ) : (l.modify i f).map k = l.map k := by
  apply List.ext_getElem?
  intro j
  rw [List.getElem?_map, List.getElem?_map, List.getElem?_modify]
  cases l[j]? with
  | none => rfl
  | some a => by_cases hij : i = j <;> simp [hij, h]

theorem State.hwAddrs_modOut (s : State p) (ifNum : ℕ) (f : BatmanPacket → BatmanPacket) :
    (s.modOut ifNum f).hwAddrs = s.hwAddrs := by
  apply map_modify_eq
  intro batmanIf
  rfl

theorem State.length_ifList (s : State p) : s.ifList.length = s.hwAddrs.length :=
  (List.length_map _).symm

/-! ## Each event -/

theorem State.Wf.congr (hs : s.Wf) (hhash : s'.origHash = s.origHash) (hptr : s.nextPtr ≤ s'.nextPtr)
    (haddrs : s'.hwAddrs = s.hwAddrs) : s'.Wf := by
  have horigs : s'.origs = s.origs := by unfold State.origs; rw [hhash]
  refine ⟨hhash ▸ hs.ok, horigs ▸ hs.distinct, fun o ho => ?_, fun o ho => ?_⟩
  · rw [horigs] at ho
    exact (hs.node o ho).mono hptr
  · rw [horigs] at ho
    rw [haddrs]
    exact hs.foreign o ho

theorem State.hwAddrs_scheduleOwnPacket (s : State p) (ifNum : ℕ) (now : Time) (rnd : ℕ) :
    (s.scheduleOwnPacket ifNum now rnd).hwAddrs = s.hwAddrs :=
  s.hwAddrs_modOut ifNum fun out => { out with seqno := out.seqno + 1 }

theorem State.origs_scheduleOwnPacket (s : State p) (ifNum : ℕ) (now : Time) (rnd : ℕ) :
    (s.scheduleOwnPacket ifNum now rnd).origs = s.origs.map (·.shiftBcastOwn ifNum) :=
  Hashtable.buckets_map _ _

theorem State.Wf.scheduleOwnPacket (hs : s.Wf) (ifNum : ℕ) (now : Time) (rnd : ℕ) :
    (s.scheduleOwnPacket ifNum now rnd).Wf := by
  have horigs := s.origs_scheduleOwnPacket ifNum now rnd
  refine ⟨hs.ok.map fun _ => rfl, ?_, fun o ho => ?_, fun o ho => ?_⟩
  · rw [horigs, List.pairwise_map]
    exact hs.distinct
  · rw [horigs] at ho
    obtain ⟨o', ho', rfl⟩ := List.mem_map.mp ho
    have hwf : (o'.shiftBcastOwn ifNum).Wf s.nextPtr := (hs.node o' ho').of_eq rfl rfl
    exact hwf.mono (Nat.le_succ _)
  · rw [horigs] at ho
    obtain ⟨o', ho', rfl⟩ := List.mem_map.mp ho
    rw [s.hwAddrs_scheduleOwnPacket]
    exact hs.foreign o' ho'

/-- A broadcast frame is refused or written to the history of its originator. -/
theorem State.receiveBcast_cases (s : State p) (g : Garbage p) (frame : BcastFrame) :
    s.receiveBcast g frame = (s, false) ∨
      ∃ o, s.findOrigNode frame.orig = some o ∧
        getBitStatus (g.front o.ptr) o.seqBits o.lastBcastSeqno frame.seqno = false ∧
        s.receiveBcast g frame =
          (s.modOrig o.ptr (·.acceptBcast (g.front o.ptr) frame.seqno), true) := by
  unfold State.receiveBcast
  split_ifs
  · exact .inl rfl
  · exact .inl rfl
  · exact .inl rfl
  · cases hf : s.findOrigNode frame.orig with
    | none => exact .inl rfl
    | some o =>
      dsimp only
      split_ifs with hstatus
      · exact .inl rfl
      · exact .inr ⟨o, rfl, by simpa using hstatus, rfl⟩

theorem State.receiveTap_frame (s : State p) (shost dhost : Mac) :
    (s.receiveTap shost dhost).origHash = s.origHash ∧
      (s.receiveTap shost dhost).nextPtr = s.nextPtr ∧
      (s.receiveTap shost dhost).forwList = s.forwList ∧
      (s.receiveTap shost dhost).walk = s.walk ∧
      (s.receiveTap shost dhost).currTime = s.currTime ∧
      (s.receiveTap shost dhost).trans = s.trans.hnaAdd s.hwAddrs s.currTime shost s.primary ∧
      (s.receiveTap shost dhost).hwAddrs = s.hwAddrs := by
  unfold State.receiveTap
  dsimp only
  split_ifs
  · refine ⟨rfl, rfl, rfl, rfl, rfl, rfl, ?_⟩
    apply map_modify_eq
    intro batmanIf
    rfl
  · exact ⟨rfl, rfl, rfl, rfl, rfl, rfl, rfl⟩

theorem State.hnaUpdate_frame (s : State p) :
    s.hnaUpdate.origHash = s.origHash ∧ s.hnaUpdate.nextPtr = s.nextPtr ∧
      s.hnaUpdate.forwList = s.forwList ∧ s.hnaUpdate.walk = s.walk ∧
      s.hnaUpdate.trans = (s.trans.hnaUpdate s.currTime p s.tapMtu s.primary).1 ∧
      s.hnaUpdate.hwAddrs = s.hwAddrs := by
  unfold State.hnaUpdate
  generalize s.trans.hnaUpdate s.currTime p s.tapMtu s.primary = updated
  obtain ⟨trans, announced⟩ := updated
  cases announced with
  | none => exact ⟨rfl, rfl, rfl, rfl, rfl, rfl⟩
  | some numHna =>
    exact ⟨rfl, rfl, rfl, rfl, rfl, State.hwAddrs_modOut _ _ _⟩

/-- A round of the send loop ends the walk, or takes a packet off the list and re-arms it if it is an
own one. -/
theorem State.sendNext_cases {now : Time} {rnd : ℕ} (h : s.sendNext now rnd = some s') :
    s' = { s with walk := none } ∨
      ∃ t pos f, s.walk = some (t, some pos) ∧ s.forwList.find? (·.ptr = pos) = some f ∧
        f.sendTime ≤ t ∧
        s' = (let u : State p :=
          { s with
            forwList := forwAfter s.forwList pos
            walk := some (t, (forwAfter s.forwList pos).head?.map (·.ptr)) }
          if f.own then u.scheduleOwnPacket f.ifOutgoing now rnd else u) := by
  unfold State.sendNext at h
  split at h
  · exact absurd h (by simp)
  · exact .inl (Option.some.inj h).symm
  · next t pos hwalk =>
    split at h
    · exact absurd h (by simp)
    · next f hfind =>
      by_cases hdue : f.sendTime ≤ t
      · rw [if_pos hdue] at h
        exact .inr ⟨t, pos, f, hwalk, hfind, hdue, (Option.some.inj h).symm⟩
      · rw [if_neg hdue] at h
        exact .inl (Option.some.inj h).symm

theorem State.purgeOrig_frame (s : State p) (g : Garbage p) (currTime gwTime : Time) :
    (s.purgeOrig g currTime gwTime).ifList = s.ifList ∧
      (s.purgeOrig g currTime gwTime).forwList = s.forwList ∧
      (s.purgeOrig g currTime gwTime).walk = s.walk ∧
      (s.purgeOrig g currTime gwTime).nextPtr = s.nextPtr := by
  have hroutes : ∀ (t : State p) ptr best recv len, ∃ hash trans,
      t.updateRoutes ptr best recv len = { t with origHash := hash, trans := trans } := by
    intro t ptr best recv len
    unfold State.updateRoutes
    generalize BatmanAdv.updateRoutes t.hwAddrs t.currTime t.trans (t.origAt ptr) best recv len = routed
    exact ⟨_, _, rfl⟩
  have hround : ∀ (t : State p) ptr, ∃ hash trans gwList,
      t.purgeOrigNode g currTime gwTime ptr =
        { t with origHash := hash, trans := trans, gwList := gwList } := by
    intro t ptr
    unfold State.purgeOrigNode
    by_cases hexp : expired (t.origAt ptr).lastValid currTime = true
    · rw [if_pos hexp]
      exact ⟨_, _, _, rfl⟩
    · rw [if_neg hexp]
      unfold State.purgeNeighbors
      dsimp only
      split_ifs
      · obtain ⟨hash, trans, heq⟩ := hroutes (t.modOrig ptr fun o =>
          { o with neighList := o.keptNeighs currTime }) ptr
          (bestNeighNode ((t.origAt ptr).keptNeighs currTime)) (t.origAt ptr).hnaBuff
          (t.origAt ptr).hnaBuffLen
        exact ⟨hash, trans, t.gwList, heq⟩
      · exact ⟨_, t.trans, t.gwList, rfl⟩
  have hfold : ∀ (l : List ℕ) (t : State p), ∃ hash trans gwList,
      l.foldl (fun s ptr => s.purgeOrigNode g currTime gwTime ptr) t =
        { t with origHash := hash, trans := trans, gwList := gwList } := by
    intro l
    induction l with
    | nil => exact fun t => ⟨_, _, _, rfl⟩
    | cons ptr l ih =>
      intro t
      obtain ⟨hash, trans, gwList, heq⟩ := hround t ptr
      obtain ⟨hash', trans', gwList', heq'⟩ := ih (t.purgeOrigNode g currTime gwTime ptr)
      refine ⟨hash', trans', gwList', ?_⟩
      rw [List.foldl_cons, heq', heq]
  unfold State.purgeOrig
  obtain ⟨hash, trans, gwList, heq⟩ := hfold (s.origs.map (·.ptr)) s
  rw [heq]
  exact ⟨rfl, rfl, rfl, rfl⟩

/-! ## Runs -/

theorem step_hwAddrs {e : Event p} (hs : s.Wf) (h : step s e = some s') : s'.hwAddrs = s.hwAddrs := by
  cases stepped h with
  | ogm g rx => exact (State.batmanOgm_moves (g := g) hs).hwAddrs
  | bcast g frame =>
    rcases s.receiveBcast_cases g frame with heq | ⟨o, _, _, heq⟩
    · rw [heq]
    · rw [heq]
      exact State.modOrig_hwAddrs
  | tap shost dhost => exact (s.receiveTap_frame shost dhost).2.2.2.2.2.2
  | clock => rfl
  | hnaUpdate => exact s.hnaUpdate_frame.2.2.2.2.2
  | purge g currTime gwTime =>
    unfold State.hwAddrs
    rw [(s.purgeOrig_frame g currTime gwTime).1]
  | sendBegin => rfl
  | sendNext now rnd _ _ hnext =>
    rcases State.sendNext_cases hnext with rfl | ⟨t, pos, f, _, _, _, rfl⟩
    · rfl
    · dsimp only
      split_ifs
      · exact State.hwAddrs_scheduleOwnPacket _ _ _ _
      · rfl

theorem step_nextPtr {e : Event p} (hs : s.Wf) (h : step s e = some s') : s.nextPtr ≤ s'.nextPtr := by
  cases stepped h with
  | ogm g rx => exact (State.batmanOgm_moves (g := g) hs).nextPtr
  | bcast g frame =>
    rcases s.receiveBcast_cases g frame with heq | ⟨o, _, _, heq⟩
    · rw [heq]
    · rw [heq]
      exact le_rfl
  | tap shost dhost => exact (s.receiveTap_frame shost dhost).2.1.ge
  | clock => exact le_rfl
  | hnaUpdate => exact s.hnaUpdate_frame.2.1.ge
  | purge g currTime gwTime => exact (s.purgeOrig_frame g currTime gwTime).2.2.2.ge
  | sendBegin => exact le_rfl
  | sendNext now rnd _ _ hnext =>
    rcases State.sendNext_cases hnext with rfl | ⟨t, pos, f, _, _, _, rfl⟩
    · exact le_rfl
    · dsimp only
      split_ifs
      · exact Nat.le_succ _
      · exact le_rfl

theorem step_wf {e : Event p} (hs : s.Wf) (h : step s e = some s') : s'.Wf := by
  cases stepped h with
  | ogm g rx => exact (State.batmanOgm_moves (g := g) hs).wf hs
  | bcast g frame =>
    rcases s.receiveBcast_cases g frame with heq | ⟨o, _, _, heq⟩
    · rw [heq]
      exact hs
    · rw [heq]
      exact hs.modOrig (fun _ => rfl) (fun _ => rfl) fun o ho _ => (hs.node o ho).of_eq rfl rfl
  | tap shost dhost =>
    obtain ⟨hhash, hptr, _, _, _, _, haddrs⟩ := s.receiveTap_frame shost dhost
    exact hs.congr hhash hptr.ge haddrs
  | clock => exact hs.congr rfl le_rfl rfl
  | hnaUpdate =>
    obtain ⟨hhash, hptr, _, _, _, haddrs⟩ := s.hnaUpdate_frame
    exact hs.congr hhash hptr.ge haddrs
  | purge g currTime gwTime => exact (State.origs_purgeOrig g currTime gwTime hs).1
  | sendBegin => exact hs.congr rfl le_rfl rfl
  | sendNext now rnd _ _ hnext =>
    rcases State.sendNext_cases hnext with rfl | ⟨t, pos, f, _, _, _, rfl⟩
    · exact hs.congr rfl le_rfl rfl
    · dsimp only
      split_ifs
      · refine State.Wf.scheduleOwnPacket ?_ _ _ _
        exact hs.congr rfl le_rfl rfl
      · exact hs.congr rfl le_rfl rfl

/-- `o'` is `o` up to the bookkeeping of own packets and of broadcast frames. -/
def OrigNode.SameRoute (o o' : OrigNode p) : Prop :=
  o' =
    { o with
      bcastOwn := o'.bcastOwn
      bcastOwnSum := o'.bcastOwnSum
      seqBits := o'.seqBits
      lastBcastSeqno := o'.lastBcastSeqno }

/-- No route changes from `s` to `s'`. -/
def State.Quiet (s s' : State p) : Prop :=
  ∃ f : OrigNode p → OrigNode p, s'.origs = s.origs.map f ∧ ∀ o : OrigNode p, o.SameRoute (f o)

namespace State.Quiet

theorem of_origHash (h : s'.origHash = s.origHash) : s.Quiet s' := by
  refine ⟨id, ?_, fun o => rfl⟩
  rw [List.map_id]
  unfold State.origs
  rw [h]

theorem mem (h : s.Quiet s') {o' : OrigNode p} (ho' : o' ∈ s'.origs) :
    ∃ o ∈ s.origs, o.SameRoute o' := by
  obtain ⟨f, hf, hsame⟩ := h
  rw [hf] at ho'
  obtain ⟨o, ho, rfl⟩ := List.mem_map.mp ho'
  exact ⟨o, ho, hsame o⟩

theorem mem_of_mem (h : s.Quiet s') {o : OrigNode p} (ho : o ∈ s.origs) :
    ∃ o' ∈ s'.origs, o.SameRoute o' := by
  obtain ⟨f, hf, hsame⟩ := h
  exact ⟨f o, hf ▸ List.mem_map_of_mem ho, hsame o⟩

end State.Quiet

/-- **What a step does to the originator table.** An OGM makes a sequence of writes, a purge is
`purge_orig`, and nothing else changes a route. -/
theorem step_cases {e : Event p} (hs : s.Wf) (h : step s e = some s') :
    (∃ g rx, e = .ogm g rx ∧ rx.Receivable s ∧ s' = (s.batmanOgm g rx).1 ∧ Moves g rx s s') ∨
      (∃ g currTime gwTime, e = .purge g currTime gwTime ∧ s' = s.purgeOrig g currTime gwTime) ∨
      (∀ g rx, e ≠ .ogm g rx) ∧ (∀ g currTime gwTime, e ≠ .purge g currTime gwTime) ∧
        s.Quiet s' := by
  cases stepped h with
  | ogm g rx _ hrx => exact .inl ⟨g, rx, rfl, hrx, rfl, State.batmanOgm_moves hs⟩
  | purge g currTime gwTime => exact .inr (.inl ⟨g, currTime, gwTime, rfl, rfl⟩)
  | bcast g frame =>
    refine .inr (.inr ⟨by simp, by simp, ?_⟩)
    rcases s.receiveBcast_cases g frame with heq | ⟨o, _, _, heq⟩
    · rw [heq]
      exact .of_origHash rfl
    · rw [heq]
      refine ⟨_, State.origs_modOrig, fun o' => ?_⟩
      split_ifs
      · rfl
      · rfl
  | tap shost dhost =>
    exact .inr (.inr ⟨by simp, by simp, .of_origHash (s.receiveTap_frame shost dhost).1⟩)
  | clock now => exact .inr (.inr ⟨by simp, by simp, .of_origHash rfl⟩)
  | hnaUpdate => exact .inr (.inr ⟨by simp, by simp, .of_origHash s.hnaUpdate_frame.1⟩)
  | sendBegin now => exact .inr (.inr ⟨by simp, by simp, .of_origHash rfl⟩)
  | sendNext now rnd _ _ hnext =>
    refine .inr (.inr ⟨by simp, by simp, ?_⟩)
    rcases State.sendNext_cases hnext with rfl | ⟨t, pos, f, _, _, _, rfl⟩
    · exact .of_origHash rfl
    · dsimp only
      split_ifs
      · exact ⟨_, State.origs_scheduleOwnPacket _ _ _ _, fun o => rfl⟩
      · exact .of_origHash rfl

theorem Config.origs_boot (cfg : Config) (p : Platform) :
    (cfg.boot p).origs = [] ∧ (cfg.boot p).hwAddrs = cfg.hwAddrs := by
  have hfold : ∀ (l : List ℕ) (t : State p), t.origs = [] →
      (l.foldl (fun s i => s.scheduleOwnPacket i (cfg.now i) (cfg.rnd i)) t).origs = [] ∧
        (l.foldl (fun s i => s.scheduleOwnPacket i (cfg.now i) (cfg.rnd i)) t).hwAddrs =
          t.hwAddrs := by
    intro l
    induction l with
    | nil => exact fun t ht => ⟨ht, rfl⟩
    | cons i l ih =>
      intro t ht
      obtain ⟨h1, h2⟩ := ih (t.scheduleOwnPacket i (cfg.now i) (cfg.rnd i))
        (by rw [State.origs_scheduleOwnPacket, ht]; rfl)
      exact ⟨h1, h2.trans (t.hwAddrs_scheduleOwnPacket _ _ _)⟩
  obtain ⟨h1, h2⟩ := hfold (List.range cfg.hwAddrs.length) (cfg.start p)
    (by unfold State.origs Config.start; simp)
  refine ⟨h1, h2.trans ?_⟩
  unfold State.hwAddrs Config.start
  rw [List.map_map]
  exact List.map_id _

theorem Config.forall_origs_boot (cfg : Config) {P : OrigNode p → Prop} : ∀ o ∈ (cfg.boot p).origs, P o := by
  rw [(cfg.origs_boot p).1]
  exact fun o ho => absurd ho List.not_mem_nil

theorem Config.boot_wf (cfg : Config) (p : Platform) : (cfg.boot p).Wf := by
  have hok : ∀ (l : List ℕ) (t : State p), t.Wf →
      (l.foldl (fun s i => s.scheduleOwnPacket i (cfg.now i) (cfg.rnd i)) t).Wf := by
    intro l
    induction l with
    | nil => exact fun t ht => ht
    | cons i l ih => exact fun t ht => ih _ (ht.scheduleOwnPacket _ _ _)
  have hstart : (cfg.start p).Wf := by
    have hnil : (cfg.start p).origs = [] := by unfold State.origs Config.start; simp
    refine ⟨Hashtable.Ok.hashNew (by decide), ?_, ?_, ?_⟩
    · rw [hnil]
      exact List.Pairwise.nil
    · rw [hnil]
      exact fun o ho => absurd ho List.not_mem_nil
    · rw [hnil]
      exact fun o ho => absurd ho List.not_mem_nil
  exact (hok _ _ hstart).congr rfl le_rfl rfl

/-- **The originator table of a reachable state is well-formed.** -/
theorem Run.wf {cfg : Config} {tr : List (State p × Event p)} (h : Run p cfg tr s) : s.Wf :=
  (Trace.state_invariant h (cfg.boot_wf p) fun _ _ _ ht hstep => step_wf ht hstep).2

theorem Run.hwAddrs {cfg : Config} {tr : List (State p × Event p)} (h : Run p cfg tr s) :
    s.hwAddrs = cfg.hwAddrs := by
  have hinv := Trace.state_invariant (I := fun s => s.Wf ∧ s.hwAddrs = cfg.hwAddrs) h
    ⟨cfg.boot_wf p, (cfg.origs_boot p).2⟩
    fun t e u ht hstep => ⟨step_wf ht.1 hstep, (step_hwAddrs ht.1 hstep).trans ht.2⟩
  exact hinv.2.2

/-! ## Properties of neighbours -/

/-- A property that a new neighbour has and that nothing written to a neighbour breaks. -/
structure NeighNode.Kept (Q : NeighNode p → Prop) : Prop where
  new (ptr : ℕ) (addr : Mac) (origNode ifIncoming : ℕ) : Q (NeighNode.new ptr addr origNode ifIncoming)
  touch (n : NeighNode p) (t : Time) (h : Q n) : Q (n.touch t)
  pushTq (n : NeighNode p) (value : Byte) (h : Q n) : Q (n.pushTq value)
  receive (n : NeighNode p) (pkt : BatmanPacket) (dup : Bool) (t : Time) (h : Q n) :
    Q (n.receive pkt dup t)
  count (front : ℕ → ℕ → p.Word) (n : NeighNode p) (d : ℤ) (m : Bool) (h : Q n) :
    Q (n.countPacket front d m)

/-- Every neighbour of every originator has `Q`. -/
def State.Neighs (Q : NeighNode p → Prop) (s : State p) : Prop := ∀ o ∈ s.origs, ∀ n ∈ o.neighList, Q n

namespace State.Neighs

variable {Q : NeighNode p → Prop}

theorem modOrig (h : s.Neighs Q) {ptr : ℕ} {f : OrigNode p → OrigNode p}
    (hf : ∀ o : OrigNode p, (∀ n ∈ o.neighList, Q n) → ∀ n ∈ (f o).neighList, Q n) :
    (s.modOrig ptr f).Neighs Q :=
  State.forall_modOrig h fun o _ _ ho => hf o ho

theorem map_ite {l : List (NeighNode p)} (h : ∀ n ∈ l, Q n) {c : NeighNode p → Prop} [DecidablePred c]
    {f k : NeighNode p → NeighNode p} (hf : ∀ n, Q n → Q (f n)) (hk : ∀ n, Q n → Q (k n)) :
    ∀ n ∈ l.map fun n => if c n then f n else k n, Q n := by
  intro n hn
  obtain ⟨n', hn', rfl⟩ := List.mem_map.mp hn
  split_ifs
  · exact hf n' (h n' hn')
  · exact hk n' (h n' hn')

end State.Neighs

theorem Write.neighs {Q : NeighNode p → Prop} (hQ : NeighNode.Kept Q) {rx : Ogm} (h : Write rx s s')
    (hs : s.Wf) (hI : s.Neighs Q) : s'.Neighs Q := by
  cases h with
  | clock => exact hI
  | create addr hforeign =>
    intro o ho
    rcases hs.mem_getOrigNode ho with ho | ⟨rfl, _⟩
    · exact hI o ho
    · exact fun n hn => absurd hn List.not_mem_nil
  | own ptr b c => exact hI.modOrig fun o ho => ho
  | neighbor origNode origNeighNode =>
    refine State.Neighs.modOrig (s := s) hI fun o ho n hn => ?_
    rcases List.mem_append.mp hn with hn | hn
    · exact ho n hn
    · rw [List.mem_singleton.mp hn]
      exact hQ.new _ _ _ _
  | valid ptr neigh =>
    refine hI.modOrig fun o ho => ?_
    exact State.Neighs.map_ite ho (fun n => hQ.touch n _) fun _ h => h
  | entry ptr f => exact hI.modOrig fun o ho => ho
  | pushZero ptr dup =>
    refine hI.modOrig fun o ho => ?_
    exact State.Neighs.map_ite ho (fun _ h => h) fun n => hQ.pushTq n 0
  | receive ptr hat neigh pkt htq httl dup =>
    refine hI.modOrig fun o ho => ?_
    exact State.Neighs.map_ite ho (fun n => hQ.receive n pkt dup _) fun _ h => h
  | route ptr hat best hbest recv len =>
    exact State.Neighs.modOrig (s := s) (f := (·.withRoutes (updateRoutes s.hwAddrs s.currTime s.trans
      (s.origAt ptr) best (some recv) len).2)) hI fun o ho => ho
  | gateway gwList => exact hI

theorem step_neighs {Q : NeighNode p → Prop} (hQ : NeighNode.Kept Q) {e : Event p} (hs : s.Wf)
    (h : step s e = some s') (hI : s.Neighs Q) : s'.Neighs Q := by
  rcases step_cases hs h with ⟨g, rx, rfl, _, _, hmoves⟩ | ⟨g, currTime, gwTime, rfl, rfl⟩ |
    ⟨_, _, hquiet⟩
  · refine (hmoves.preserves hs hI fun t t' ht hI hmove => ?_).2
    cases hmove with
    | write h => exact h.neighs hQ ht hI
    | count ptr =>
      refine hI.modOrig fun o ho n hn => ?_
      obtain ⟨n', hn', rfl⟩ := List.mem_map.mp hn
      exact hQ.count _ n' _ _ (ho n' hn')
    | forward => exact hI
  · obtain ⟨_, hfrom, _⟩ := State.origs_purgeOrig g currTime gwTime hs
    intro x hx n hn
    obtain ⟨o, ho, _, hpurged⟩ := hfrom x hx
    rw [hpurged.neighList] at hn
    exact hI o ho n (List.mem_filter.mp hn).1
  · intro o' ho' n hn
    obtain ⟨o, ho, hsame⟩ := hquiet.mem ho'
    rw [hsame] at hn
    exact hI o ho n hn

/-- **A property of every neighbour in every reachable state.** -/
theorem Run.neighs {Q : NeighNode p → Prop} (hQ : NeighNode.Kept Q) {cfg : Config}
    {tr : List (State p × Event p)} (h : Run p cfg tr s) : s.Neighs Q := by
  have hinv := Trace.state_invariant (I := fun s : State p => s.Wf ∧ s.Neighs Q) h
    ⟨cfg.boot_wf p, cfg.forall_origs_boot⟩
    fun t e u ⟨ht, hI⟩ hstep => ⟨step_wf ht hstep, step_neighs hQ ht hstep hI⟩
  exact hinv.2.2

theorem Run.of_exec (cfg : Config) (es : List (Event p)) (q : List (State p × Event p) → State p → Bool)
    (h : (exec step (cfg.boot p) es).any (fun r => q r.1 r.2) = true) :
    ∃ tr s, Run p cfg tr s ∧ tr.map Prod.snd = es ∧ q tr s = true :=
  Trace.exists_of_exec h

/-- A check of the purges of a run. -/
def Event.onPurge (q : Garbage p → Time → Time → Bool) : Event p → Bool
  | .purge g currTime gwTime => q g currTime gwTime
  | _ => true

theorem forall_purge_of_all {tr : List (State p × Event p)}
    {P : State p × Event p → Garbage p → Time → Time → Prop}
    [∀ x g currTime gwTime, Decidable (P x g currTime gwTime)]
    (h : tr.all (fun x => x.2.onPurge fun g currTime gwTime => decide (P x g currTime gwTime)) = true) :
    ∀ x ∈ tr, ∀ g currTime gwTime, x.2 = .purge g currTime gwTime → P x g currTime gwTime := by
  intro x hx g currTime gwTime heq
  have hx' := List.all_eq_true.mp h x hx
  rw [heq] at hx'
  exact of_decide_eq_true hx'

/-! ## A small network

A node with two interfaces and two other nodes, for runs on concrete input. -/

namespace Net

/-- A 64-bit platform; a shift out of range gives the bit the hardware would. -/
def p64 : Platform := ⟨64, .inr rfl, fun n => 1#32 <<< (n % 32).toNat⟩

def p32 : Platform := ⟨32, .inl rfl, fun n => 1#32 <<< (n % 32).toNat⟩

def me0 : Mac := ⟨2, 0, 0, 0, 0, 0xf0⟩
def me1 : Mac := ⟨2, 0, 0, 0, 0, 0xf1⟩
def macA : Mac := ⟨2, 0, 0, 0, 0, 0x0a⟩
def macB : Mac := ⟨2, 0, 0, 0, 0, 0x0b⟩
def macC : Mac := ⟨2, 0, 0, 0, 0, 0x0c⟩

def cfg : Config where
  primary := me0
  secondary := [me1]
  originatorInterval := 1000
  originatorInterval_pos := by decide
  gatewayClass := 0
  tapMtu := 1500
  now _ := 0
  rnd _ := 0
  rnd_lt _ := by decide

/-- Freed memory and the words in front of the windows are zero. -/
def zeros (p : Platform) : Garbage p where
  neigh ptr := NeighNode.new ptr zeroAddr 0 0
  bcastOwnSum _ _ := 0
  front _ _ := 0

/-- The OGM of `orig` heard from `neigh`. -/
def ogm (neigh orig : Mac) (ifIncoming : ℕ) (seqno : Seqno) (now : Time) : Ogm where
  neigh := neigh
  ifIncoming := ifIncoming
  pkt := ⟨batPacket, compatVersion, 0, ttlInit, 0, 255, seqno, orig, orig, 0, 0⟩
  hna := []
  rcvdTime := now
  gwTime := now
  sendTime := now

/-- The same with a `tq` of 100. -/
def weak (neigh orig : Mac) (ifIncoming : ℕ) (seqno : Seqno) (now : Time) : Ogm :=
  { ogm neigh orig ifIncoming seqno now with
    pkt := { (ogm neigh orig ifIncoming seqno now).pkt with tq := 100 } }

/-- The direct rebroadcast of an own packet. -/
def echo (neigh me : Mac) (ifIncoming : ℕ) (seqno : Seqno) (now : Time) : Ogm :=
  { ogm neigh me ifIncoming seqno now with
    pkt := { (ogm neigh me ifIncoming seqno now).pkt with flags := directlink } }

/-- The node sends its own packets, `A` is heard to rebroadcast one, and then two OGMs of its own. -/
def linkUp (p : Platform) : List (Event p) :=
  [.sendBegin 1000, .sendNext 1000 0, .sendNext 1000 0, .sendNext 1000 0,
    .ogm (zeros p) (echo macA me0 0 1 1100),
    .ogm (zeros p) (ogm macA macA 0 1 1200),
    .ogm (zeros p) (ogm macA macA 0 2 1300)]

end Net

end BatmanAdv
