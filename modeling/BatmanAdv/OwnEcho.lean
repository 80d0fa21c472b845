import BatmanAdv.Receive
import BatmanAdv.SendQueue

/-!
# What comes back

A node has no originator entry for itself, so that its own broadcasts are refused when they come back.
Its own OGMs are counted where a neighbour rebroadcasts them: `schedule_own_packet` moves the window of
every entry on, and `batman()` marks the newest bit when it hears the OGM that was sent last. It tells
that OGM by its sequence number alone, which is compared as an `int`: the OGM of another interface counts
as well, one heard before anything was sent counts too, and none counts while the sequence number of the
interface wraps.
-/

namespace BatmanAdv

open Transition

variable {p : Platform} {g : Garbage p} {rx : Ogm} {s s' t : State p} {e : Event p} {ifNum ptr : ℕ}
  {q : Seqno}

/-! ## Own broadcasts -/

theorem State.Wf.receiveBcast_own (hs : s.Wf) (g : Garbage p) {frame : BcastFrame} (hown : frame.orig ∈ s.hwAddrs) :
    s.receiveBcast g frame = (s, false) := by
  rcases s.receiveBcast_cases g frame with heq | ⟨o, hfind, _, _⟩
  · exact heq
  · obtain ⟨ho, horig⟩ := hs.findOrigNode_eq_some_iff.mp hfind
    exact absurd (horig ▸ hown) (hs.foreign o ho)

/-- **This node is no originator to itself**: it has no entry for any of its addresses, and refuses the
broadcast frames it sent, for which nothing is written to the tap or sent. -/
theorem own_bcast_refused {cfg : Config} {tr : List (State p × Event p)} (h : Run p cfg tr s) :
    (∀ o ∈ s.origs, o.orig ∉ s.hwAddrs) ∧
      (∀ (g : Garbage p) (frame : BcastFrame), frame.orig ∈ s.hwAddrs →
        s.receiveBcast g frame = (s, false)) ∧
      ∀ (node : Node p) (g : Garbage p) (frame : Frame), node.state = s →
        frame.rawsockRead.getD 0 0 = batBcast → (BcastPacket.read frame.rawsockRead).orig ∈ s.hwAddrs →
          (node.receivePacketBatiface g frame).outs = [] := by
  have hs := Run.wf h
  refine ⟨hs.foreign, fun g frame hown => hs.receiveBcast_own g hown, fun node g frame hnode htype hown => ?_⟩
  have hrefused : node.state.receiveBcast g ⟨frame.shost, frame.rawsockRead.length,
      (BcastPacket.read frame.rawsockRead).orig, (BcastPacket.read frame.rawsockRead).seqno⟩ =
        (node.state, false) := hnode ▸ hs.receiveBcast_own g hown
  unfold Node.receivePacketBatiface
  dsimp only
  rw [htype, if_neg (show batBcast ≠ batPacket by decide), if_neg (show batBcast ≠ batUnicast by decide),
    if_neg (show batBcast ≠ batIcmp by decide), if_pos rfl, hrefused]
  dsimp only
  rw [if_neg Bool.false_ne_true]
  split_ifs
  · rfl
  · rfl

/-- A broadcast of the primary interface that comes back over `A`. -/
theorem own_bcast_refused_linkUp : ∃ tr s,
    Run Net.p64 Net.cfg tr s ∧ tr.map Prod.snd = Net.linkUp Net.p64 ∧
    s.receiveBcast (Net.zeros Net.p64) ⟨Net.macA, 100, Net.me0, 1⟩ = (s, false) ∧
    (Node.receivePacketBatiface ⟨s, fun _ => none⟩ (Net.zeros Net.p64)
      ⟨broadcastAddr, Net.macA, (⟨batBcast, compatVersion, Net.me0, 1⟩ : BcastPacket).bytes ++ [0x2a]⟩).outs = [] := by
  obtain ⟨tr, s, hrun, hevents, _⟩ := Run.of_exec Net.cfg (Net.linkUp Net.p64) (fun _ _ => true)
    (by decide +kernel)
  obtain ⟨-, hrefused, houts⟩ := own_bcast_refused hrun
  have hown : Net.me0 ∈ s.hwAddrs := by
    rw [Run.hwAddrs hrun]
    decide
  exact ⟨tr, s, hrun, hevents, hrefused _ _ hown, houts _ _ _ rfl rfl hown⟩

/-! ## Own OGMs -/

/-- The sequence number of the own OGM of an interface this step transmits. -/
def State.sentOwn (s : State p) (ifNum : ℕ) (e : Event p) : Option Seqno :=
  ((s.transmitted e).filter (·.isOwnOf ifNum)).map (·.pack.seqno)

def ownSent (ifNum : ℕ) (tr : List (State p × Event p)) : List Seqno :=
  tr.filterMap fun x => x.1.sentOwn ifNum x.2

/-- The step after `pre` receives from the originator of the entry `ptr`, on an interface, the direct
rebroadcast of the own OGM `q` of this interface that was transmitted last. -/
def IsEcho (ptr ifNum : ℕ) (q : Seqno) (pre : List (State p × Event p)) (x : State p × Event p) : Prop :=
  ∃ g rx, x.2 = .ogm g rx ∧ x.1.ogmCase rx = .ownOrig ∧ (x.1.batmanOgm g rx).1.At ptr rx.neigh ∧
    rx.ifIncoming = ifNum ∧ rx.hasDirectlinkFlag = true ∧ x.1.hwAddrs[ifNum]? = some rx.pkt.orig ∧
    rx.pkt.seqno = q ∧ (ownSent ifNum pre).getLast? = some q

/-- The run receives such a rebroadcast of `q`, and not more than 2^16 own OGMs ago. -/
def Echoed (ptr ifNum : ℕ) (tr : List (State p × Event p)) (q : Seqno) : Prop :=
  ∃ a x b, tr = a ++ x :: b ∧ IsEcho ptr ifNum q a x ∧ (ownSent ifNum b).length < 2 ^ 16

/-- The own OGMs of an interface heard back from an originator are in its window, and counted. -/
def EchoesCounted (tr : List (State p × Event p)) (s : State p) : Prop :=
  ∀ o ∈ s.origs, ∀ ifNum < s.ifList.length,
    (∀ i < 64, winBit (o.bcastOwn ifNum) i = true ↔
      Echoed o.ptr ifNum tr ((s.outOf ifNum).seqno - 2 - BitVec.ofNat 16 i)) ∧
    (o.bcastOwnSum ifNum).toNat = (List.range 64).countP (winBit (o.bcastOwn ifNum))

/-- An own OGM with the sequence number before the last of its interface is that OGM exactly where the
sequence number of the interface has not just wrapped. -/
def TellsEcho (pre : List (State p × Event p)) (x : State p × Event p) : Prop :=
  ∀ rx, (∃ g, x.2 = .ogm g rx) → x.1.ogmCase rx = .ownOrig → rx.hasDirectlinkFlag = true →
    rx.pkt.seqno + 2 = (x.1.outOf rx.ifIncoming).seqno →
      (2 ≤ (x.1.outOf rx.ifIncoming).seqno.toNat ↔
        x.1.hwAddrs[rx.ifIncoming]? = some rx.pkt.orig ∧ ownSent rx.ifIncoming pre ≠ [])

/-! ### What is transmitted -/

theorem ownSent_snoc (ifNum : ℕ) (tr : List (State p × Event p)) (x : State p × Event p) :
    ownSent ifNum (tr ++ [x]) = ownSent ifNum tr ++ (x.1.sentOwn ifNum x.2).toList := by
  unfold ownSent
  rw [List.filterMap_append, List.filterMap_cons, List.filterMap_nil]
  cases x.1.sentOwn ifNum x.2 with
  | none => rfl
  | some q => rfl

/-- A step transmits an own OGM of an interface, and queues the next one, or it leaves the sequence number
of the interface alone. -/
theorem step_sentOwn (hs : s.Wf) (hok : s.QueueOk) (h : step s e = some s') (ifNum : ℕ) :
    (∃ q, s.sentOwn ifNum e = some q ∧ q + 1 = (s.outOf ifNum).seqno ∧
        (s'.outOf ifNum).seqno = (s.outOf ifNum).seqno + 1) ∨
      s.sentOwn ifNum e = none ∧ (s'.outOf ifNum).seqno = (s.outOf ifNum).seqno := by
  rcases step_queues hs h with ⟨now, rnd, rfl, hnext⟩ | ⟨_, hnone, hqueues, _⟩
  · unfold State.sentOwn
    rcases State.sendNext_transmitted hnext with ⟨hnone, rfl⟩ | ⟨t, f, pre, post, hsent, _, hlist, _, rfl⟩
    · rw [hnone]
      exact .inr ⟨rfl, rfl⟩
    · rw [hsent]
      have hmem : f ∈ s.forwList := by rw [hlist]; simp
      dsimp only
      by_cases hown : f.own = true
      · rw [if_pos hown]
        obtain ⟨hlt, hseqno⟩ := hok.own f hmem hown
        have hout := State.outOf_scheduleOwnPacket
          ({ s with forwList := post, walk := some (t, post.head?.map (·.ptr)) } : State p) now rnd hlt
          ifNum
        rw [hout]
        by_cases hif : ifNum = f.ifOutgoing
        · subst hif
          refine .inl ⟨f.pack.seqno, ?_, hseqno, if_pos rfl⟩
          rw [Option.filter_some_pos (by simp [ForwNode.isOwnOf, hown])]
          rfl
        · refine .inr ⟨?_, if_neg hif⟩
          rw [Option.filter_some_neg (by simp [ForwNode.isOwnOf, hown, Ne.symm hif])]
          rfl
      · rw [if_neg hown]
        refine .inr ⟨?_, rfl⟩
        rw [Option.filter_some_neg (by simp [ForwNode.isOwnOf, hown])]
        rfl
  · refine .inr ⟨?_, hqueues.seqno ifNum⟩
    unfold State.sentOwn
    rw [hnone]
    rfl

/-- **The own OGM transmitted last** has the sequence number two before the next one. -/
theorem Run.lastSent {cfg : Config} {tr : List (State p × Event p)} (h : Run p cfg tr s)
    (hq : (ownSent ifNum tr).getLast? = some q) : q + 2 = (s.outOf ifNum).seqno := by
  induction h generalizing q with
  | nil => cases hq
  | @snoc tr t e u run hstep ih =>
    rw [ownSent_snoc] at hq
    rcases step_sentOwn (Run.wf run) (Run.queueOk run) hstep ifNum with
      ⟨q', hsent, hseqno, hnext⟩ | ⟨hnone, hsame⟩
    · rw [hsent, Option.toList_some, List.getLast?_append, List.getLast?_singleton, Option.some_or] at hq
      obtain rfl := Option.some.inj hq
      rw [hnext, ← hseqno, BitVec.add_assoc]
      rfl
    · rw [hnone, Option.toList_none, List.append_nil] at hq
      rw [hsame]
      exact ih hq

theorem Trace.outOf_seqno (h : Trace step s tr t) (hs : s.Wf) (hok : s.QueueOk) (ifNum : ℕ) :
    (t.outOf ifNum).seqno = (s.outOf ifNum).seqno + BitVec.ofNat 16 (ownSent ifNum tr).length := by
  suffices key : t.Wf ∧ t.QueueOk ∧
      (t.outOf ifNum).seqno = (s.outOf ifNum).seqno + BitVec.ofNat 16 (ownSent ifNum tr).length from
    key.2.2
  induction h with
  | nil => exact ⟨hs, hok, by simp [ownSent]⟩
  | @snoc tr t e u run hstep ih =>
    obtain ⟨ht, htok, heq⟩ := ih
    refine ⟨step_wf ht hstep, step_queueOk ht htok hstep, ?_⟩
    rw [ownSent_snoc, List.length_append]
    rcases step_sentOwn ht htok hstep ifNum with ⟨q, hsent, _, hnext⟩ | ⟨hnone, hsame⟩
    · rw [hnext, heq, hsent, Option.toList_some, List.length_singleton, BitVec.ofNat_add,
        BitVec.add_assoc]
      rfl
    · rw [hsame, heq, hnone]
      rfl

/-! ### What a step makes of the windows of own OGMs -/

/-- `o'` is the entry `o` with the same windows of own OGMs. -/
structure OrigNode.SameOwn (o o' : OrigNode p) : Prop where
  ptr : o'.ptr = o.ptr
  orig : o'.orig = o.orig
  bcastOwn : o'.bcastOwn = o.bcastOwn
  bcastOwnSum : o'.bcastOwnSum = o.bcastOwnSum

/-- What an entry of a later state comes from: an entry, or a new one. -/
def State.Origin (s : State p) (o : OrigNode p) : Prop :=
  o ∈ s.origs ∨ s.nextPtr ≤ o.ptr ∧ o = OrigNode.new o.ptr o.orig

def State.KeepsOwn (s s' : State p) : Prop :=
  s.nextPtr ≤ s'.nextPtr ∧ ∀ o' ∈ s'.origs, ∃ o, s.Origin o ∧ o.SameOwn o'

theorem OrigNode.SameOwn.refl (o : OrigNode p) : o.SameOwn o := ⟨rfl, rfl, rfl, rfl⟩

theorem OrigNode.SameOwn.trans {a b c : OrigNode p} (hab : a.SameOwn b) (hbc : b.SameOwn c) :
    a.SameOwn c :=
  ⟨hbc.ptr.trans hab.ptr, hbc.orig.trans hab.orig, hbc.bcastOwn.trans hab.bcastOwn,
    hbc.bcastOwnSum.trans hab.bcastOwnSum⟩

namespace State.KeepsOwn

theorem of_origHash (h : s'.origHash = s.origHash) (hptr : s.nextPtr ≤ s'.nextPtr) : s.KeepsOwn s' := by
  refine ⟨hptr, fun o ho => ⟨o, .inl ?_, .refl o⟩⟩
  unfold State.origs at ho ⊢
  rwa [h] at ho

theorem refl (s : State p) : s.KeepsOwn s := of_origHash rfl le_rfl

theorem trans (h : s.KeepsOwn t) (h' : t.KeepsOwn s') : s.KeepsOwn s' := by
  refine ⟨h.1.trans h'.1, fun o'' ho'' => ?_⟩
  obtain ⟨o', ho' | ⟨hnew, heq⟩, hsame'⟩ := h'.2 o'' ho''
  · obtain ⟨o, ho, hsame⟩ := h.2 o' ho'
    exact ⟨o, ho, hsame.trans hsame'⟩
  · exact ⟨o', .inr ⟨h.1.trans hnew, heq⟩, hsame'⟩

theorem modOrig (s : State p) (ptr : ℕ) {f : OrigNode p → OrigNode p}
    (hf : ∀ o : OrigNode p, o.SameOwn (f o)) : s.KeepsOwn (s.modOrig ptr f) := by
  refine ⟨le_rfl, fun o' ho' => ?_⟩
  obtain ⟨o, ho, rfl⟩ := State.mem_origs_modOrig.mp ho'
  refine ⟨o, .inl ho, ?_⟩
  split_ifs
  · exact hf o
  · exact .refl o

theorem getOrigNode (hs : s.Wf) (addr : Mac) : s.KeepsOwn (s.getOrigNode addr).1 := by
  refine ⟨?_, fun o ho => ?_⟩
  · unfold State.getOrigNode
    split
    · exact le_rfl
    · exact Nat.le_succ _
  · rcases hs.mem_getOrigNode ho with ho | ⟨rfl, _⟩
    · exact ⟨o, .inl ho, .refl o⟩
    · exact ⟨_, .inr ⟨le_rfl, rfl⟩, .refl _⟩

end State.KeepsOwn

theorem Write.keepsOwn (h : Write rx s s') (hs : s.Wf) (horig : rx.pkt.orig ∉ s.hwAddrs) :
    s.KeepsOwn s' := by
  cases h with
  | clock => exact .of_origHash rfl le_rfl
  | create addr => exact .getOrigNode hs addr
  | own ptr b c hown => exact absurd hown horig
  | neighbor origNode origNeighNode =>
    have hmod : s.KeepsOwn (s.modOrig origNode fun o => { o with neighList :=
        o.neighList ++ [NeighNode.new s.nextPtr rx.neigh origNeighNode rx.ifIncoming] }) := by
      refine .modOrig s origNode fun o => ?_
      exact ⟨rfl, rfl, rfl, rfl⟩
    exact ⟨Nat.le_succ _, hmod.2⟩
  | valid ptr neigh =>
    refine .modOrig s ptr fun o => ?_
    exact ⟨rfl, rfl, rfl, rfl⟩
  | entry ptr f =>
    refine .modOrig s ptr fun o => ?_
    exact ⟨rfl, rfl, rfl, rfl⟩
  | pushZero ptr dup =>
    refine .modOrig s ptr fun o => ?_
    exact ⟨rfl, rfl, rfl, rfl⟩
  | receive ptr hat neigh pkt htq httl dup =>
    refine .modOrig s ptr fun o => ?_
    exact ⟨rfl, rfl, rfl, rfl⟩
  | route ptr hat best hbest recv len =>
    have hmod : s.KeepsOwn (s.modOrig ptr (·.withRoutes (updateRoutes s.hwAddrs s.currTime s.trans
        (s.origAt ptr) best (some recv) len).2)) := by
      refine .modOrig s ptr fun o => ?_
      exact ⟨rfl, rfl, rfl, rfl⟩
    exact ⟨hmod.1, hmod.2⟩
  | gateway => exact .of_origHash rfl le_rfl

theorem Moves.keepsOwn (h : Moves g rx s s') (hs : s.Wf) (horig : rx.pkt.orig ∉ s.hwAddrs) :
    s.KeepsOwn s' := by
  refine (h.preserves (I := fun t => s.KeepsOwn t ∧ t.hwAddrs = s.hwAddrs) hs ⟨.refl s, rfl⟩ ?_).2.1
  rintro t t' ht ⟨hkeeps, haddrs⟩ hmove
  refine ⟨hkeeps.trans ?_, hmove.hwAddrs.trans haddrs⟩
  cases hmove with
  | write hwrite => exact hwrite.keepsOwn ht (haddrs ▸ horig)
  | count ptr hat =>
    refine .modOrig t ptr fun o => ?_
    exact ⟨rfl, rfl, rfl, rfl⟩
  | forward f => exact .of_origHash rfl (Nat.le_succ _)

def OrigNode.markOwn (o : OrigNode p) (ifNum : ℕ) : OrigNode p :=
  { o with
    bcastOwn := Function.update o.bcastOwn ifNum (bitMark (o.bcastOwn ifNum) 0)
    bcastOwnSum := Function.update o.bcastOwnSum ifNum
      (BitVec.ofNat 8 (bitPacketCount (bitMark (o.bcastOwn ifNum) 0))) }

/-- The test of `batman()`, in `int`. -/
def State.Marks (s : State p) (rx : Ogm) : Prop :=
  rx.hasDirectlinkFlag = true ∧
    (rx.pkt.seqno.toNat : ℤ) - (s.outOf rx.ifIncoming).seqno.toNat + 2 = 0

instance (s : State p) (rx : Ogm) : Decidable (s.Marks rx) := inferInstanceAs (Decidable (_ ∧ _))

theorem State.outOf_getOrigNode (s : State p) (addr : Mac) (i : ℕ) :
    (s.getOrigNode addr).1.outOf i = s.outOf i := by
  unfold State.outOf
  rw [State.getOrigNode_frame]

theorem State.mem_markOwnBcast (hs : s.Wf) (hneigh : rx.neigh ∉ s.hwAddrs) {o' : OrigNode p}
    (ho' : o' ∈ (s.markOwnBcast rx).origs) :
    ∃ o, s.Origin o ∧ o' = if s.Marks rx ∧ o.orig = rx.neigh then o.markOwn rx.ifIncoming else o := by
  have hat := hs.at_getOrigNode rx.neigh
  have hwf := hs.getOrigNode hneigh
  have hmem := fun o (ho : o ∈ (s.getOrigNode rx.neigh).1.origs) => hs.mem_getOrigNode ho
  have hout := s.outOf_getOrigNode rx.neigh rx.ifIncoming
  unfold State.markOwnBcast at ho'
  generalize s.getOrigNode rx.neigh = got at hat hwf hmem hout ho'
  obtain ⟨s1, origNeighNode⟩ := got
  dsimp only at hat hwf hmem hout ho'
  have horigin : ∀ o ∈ s1.origs, s.Origin o := by
    intro o ho
    rcases hmem o ho with ho | ⟨rfl, _⟩
    · exact .inl ho
    · exact .inr ⟨le_rfl, rfl⟩
  rw [hout] at ho'
  by_cases hmarks : s.Marks rx
  · rw [if_pos (by simpa [State.Marks] using hmarks)] at ho'
    obtain ⟨o, ho, rfl⟩ := State.mem_origs_modOrig.mp ho'
    refine ⟨o, horigin o ho, ?_⟩
    obtain ⟨e, he, heptr, heorig⟩ := hat
    have hiff : o.ptr = origNeighNode ↔ o.orig = rx.neigh := by
      constructor
      · intro hptr
        rw [hwf.eq_of_ptr ho he (hptr.trans heptr.symm), heorig]
      · intro horig
        rw [hwf.eq_of_orig ho he (horig.trans heorig.symm), heptr]
    by_cases hptr : o.ptr = origNeighNode
    · rw [if_pos hptr, if_pos ⟨hmarks, hiff.mp hptr⟩]
      rfl
    · rw [if_neg hptr, if_neg fun h => hptr (hiff.mpr h.2)]
  · rw [if_neg (by simpa [State.Marks] using hmarks)] at ho'
    exact ⟨o', horigin o' ho', (if_neg fun h => hmarks h.1).symm⟩

/-- What a step makes of the windows of own OGMs of an entry. -/
inductive OrigNode.OwnStepped (s : State p) (e : Event p) (o o' : OrigNode p) : Prop
  | sent (ifOutgoing : ℕ) (hogm : ∀ g rx, e ≠ .ogm g rx)
      (hsent : ∀ i, (s.sentOwn i e).isSome ↔ i = ifOutgoing)
      (h : (o.shiftBcastOwn ifOutgoing).SameOwn o')
  | echo (g : Garbage p) (rx : Ogm) (he : e = .ogm g rx) (hown : s.ogmCase rx = .ownOrig)
      (h : (if s.Marks rx ∧ o.orig = rx.neigh then o.markOwn rx.ifIncoming else o).SameOwn o')
  | same (hogm : ∀ g rx, e = .ogm g rx → s.ogmCase rx ≠ .ownOrig)
      (hsent : ∀ i, s.sentOwn i e = none) (h : o.SameOwn o')

theorem State.KeepsOwn.stepped (h : s.KeepsOwn s') (hogm : ∀ g rx, e = .ogm g rx → s.ogmCase rx ≠ .ownOrig)
    (hsent : s.transmitted e = none) {o' : OrigNode p} (ho' : o' ∈ s'.origs) :
    ∃ o, s.Origin o ∧ o.OwnStepped s e o' := by
  obtain ⟨o, ho, hsame⟩ := h.2 o' ho'
  refine ⟨o, ho, .same hogm (fun i => ?_) hsame⟩
  unfold State.sentOwn
  rw [hsent]
  rfl

/-- **The windows of own OGMs in a step.** -/
theorem step_own (hs : s.Wf) (h : step s e = some s') {o' : OrigNode p} (ho' : o' ∈ s'.origs) :
    ∃ o, s.Origin o ∧ o.OwnStepped s e o' := by
  cases stepped h with
  | ogm g rx =>
    by_cases hown : s.ogmCase rx = .ownOrig
    · have hclock : ({ s with currTime := rx.rcvdTime } : State p).Wf := hs.congr rfl le_rfl rfl
      have hneigh : rx.neigh ∉ s.hwAddrs := State.ogmCase_foreign (by rw [hown]; simp)
      rw [State.batmanOgm_of_ownOrig hown] at ho'
      obtain ⟨o, ho, heq⟩ := State.mem_markOwnBcast hclock hneigh ho'
      refine ⟨o, ho, .echo g rx rfl hown ?_⟩
      rw [heq]
      exact .refl _
    · have hkeeps : s.KeepsOwn (s.batmanOgm g rx).1 := by
        by_cases hcounts : s.Counts rx
        · exact Moves.keepsOwn (State.batmanOgm_moves hs) hs (State.ogmCase_orig hcounts)
        · have hignored : s.ogmCase rx = .ignored := by
            unfold State.Counts at hcounts
            cases hc : s.ogmCase rx with
            | ignored => rfl
            | ownOrig => exact absurd hc hown
            | noTq => exact absurd (.inl hc) hcounts
            | process => exact absurd (.inr hc) hcounts
          rw [State.batmanOgm_of_ignored hignored]
          exact .of_origHash rfl le_rfl
      refine hkeeps.stepped (fun g' rx' heq => ?_) rfl ho'
      cases heq
      exact hown
  | bcast g frame =>
    refine State.KeepsOwn.stepped ?_ (by simp) rfl ho'
    rcases s.receiveBcast_cases g frame with heq | ⟨o, _, _, heq⟩
    · rw [heq]
      exact .refl s
    · rw [heq]
      refine .modOrig s o.ptr fun o => ?_
      exact ⟨rfl, rfl, rfl, rfl⟩
  | tap shost dhost =>
    exact State.KeepsOwn.stepped (.of_origHash (s.receiveTap_frame shost dhost).1
      (s.receiveTap_frame shost dhost).2.1.ge) (by simp) rfl ho'
  | clock now => exact State.KeepsOwn.stepped (.of_origHash rfl le_rfl) (by simp) rfl ho'
  | hnaUpdate =>
    exact State.KeepsOwn.stepped (.of_origHash s.hnaUpdate_frame.1 s.hnaUpdate_frame.2.1.ge) (by simp)
      rfl ho'
  | purge g currTime gwTime =>
    refine State.KeepsOwn.stepped ⟨(s.purgeOrig_frame g currTime gwTime).2.2.2.ge, fun x hx => ?_⟩
      (by simp) rfl ho'
    obtain ⟨o, ho, _, hpurged⟩ := (State.origs_purgeOrig g currTime gwTime hs).2.1 x hx
    refine ⟨o, .inl ho, ?_⟩
    rw [hpurged, OrigNode.purge_frame]
    exact ⟨rfl, rfl, rfl, rfl⟩
  | sendBegin now => exact State.KeepsOwn.stepped (.of_origHash rfl le_rfl) (by simp) rfl ho'
  | sendNext now rnd _ _ hnext =>
    rcases State.sendNext_transmitted hnext with ⟨hnone, rfl⟩ | ⟨t, f, pre, post, hsent, _, _, _, rfl⟩
    · exact State.KeepsOwn.stepped (.of_origHash rfl le_rfl) (by simp) hnone ho'
    · dsimp only at ho'
      by_cases hown : f.own = true
      · rw [if_pos hown, State.origs_scheduleOwnPacket] at ho'
        obtain ⟨o, ho, rfl⟩ := List.mem_map.mp ho'
        refine ⟨o, .inl ho, .sent f.ifOutgoing (by simp) (fun i => ?_) (.refl _)⟩
        unfold State.sentOwn
        rw [hsent]
        by_cases hi : i = f.ifOutgoing
        · rw [Option.filter_some_pos (by simp [ForwNode.isOwnOf, hown, hi])]
          simp [hi]
        · rw [Option.filter_some_neg (by simp [ForwNode.isOwnOf, hown, Ne.symm hi])]
          simp [hi]
      · rw [if_neg hown] at ho'
        refine ⟨o', .inl ho', .same (by simp) (fun i => ?_) (.refl _)⟩
        unfold State.sentOwn
        rw [hsent]
        rw [Option.filter_some_neg (by simp [ForwNode.isOwnOf, hown])]
        rfl

/-! ### What the windows tell -/

/-- The run receives the rebroadcast of the own OGM transmitted `i` before the last one. -/
def EchoedAt (ptr ifNum : ℕ) (tr : List (State p × Event p)) (i : ℕ) : Prop :=
  ∃ a x b q, tr = a ++ x :: b ∧ IsEcho ptr ifNum q a x ∧ (ownSent ifNum b).length = i

/-- The windows of an entry hold what was heard back, and are counted. -/
structure OrigNode.Tells (tr : List (State p × Event p)) (o : OrigNode p) (ifCount : ℕ) : Prop where
  bits : ∀ ifNum < ifCount, ∀ i < 64,
    winBit (o.bcastOwn ifNum) i = true ↔ EchoedAt o.ptr ifNum tr i
  sum : ∀ ifNum, o.bcastOwnSum ifNum = BitVec.ofNat 8 (bitPacketCount (o.bcastOwn ifNum))

theorem echoedAt_snoc {tr : List (State p × Event p)} {x : State p × Event p} {i : ℕ} :
    EchoedAt ptr ifNum (tr ++ [x]) i ↔
      (i = 0 ∧ ∃ q, IsEcho ptr ifNum q tr x) ∨
        ∃ j, EchoedAt ptr ifNum tr j ∧ i = j + (x.1.sentOwn ifNum x.2).toList.length := by
  constructor
  · rintro ⟨a, y, b, q, heq, hecho, rfl⟩
    rcases List.eq_nil_or_concat b with rfl | ⟨b, z, rfl⟩
    · obtain ⟨rfl, hy⟩ := List.append_inj' heq rfl
      obtain rfl := List.singleton_inj.mp hy
      exact .inl ⟨rfl, q, hecho⟩
    · rw [List.concat_eq_append, ← List.cons_append, ← List.append_assoc] at heq
      obtain ⟨rfl, hz⟩ := List.append_inj' heq rfl
      obtain rfl := List.singleton_inj.mp hz
      refine .inr ⟨_, ⟨a, y, b, q, rfl, hecho, rfl⟩, ?_⟩
      rw [List.concat_eq_append, ownSent_snoc, List.length_append]
  · rintro (⟨rfl, q, hecho⟩ | ⟨_, ⟨a, y, b, q, rfl, hecho, rfl⟩, rfl⟩)
    · exact ⟨tr, x, [], q, rfl, hecho, rfl⟩
    · refine ⟨a, y, b ++ [x], q, by simp, hecho, ?_⟩
      rw [ownSent_snoc, List.length_append]

theorem Trace.nextPtr_le {tr : List (State p × Event p)} (h : Trace step s tr t) (hs : s.Wf) :
    s.nextPtr ≤ t.nextPtr := by
  have hinv := Trace.state_invariant (I := fun t => t.Wf ∧ s.nextPtr ≤ t.nextPtr) h ⟨hs, le_rfl⟩
    fun t e u ht hstep => ⟨step_wf ht.1 hstep, ht.2.trans (step_nextPtr ht.1 hstep)⟩
  exact hinv.2.2

theorem Run.lt_of_echoedAt {cfg : Config} {tr : List (State p × Event p)} (h : Run p cfg tr s) {i : ℕ}
    (hecho : EchoedAt ptr ifNum tr i) : ptr < s.nextPtr := by
  obtain ⟨a, x, b, q, rfl, ⟨g, rx, hx, _, hat, _⟩, _⟩ := hecho
  obtain ⟨hbefore, u, hu, hafter⟩ := Trace.split h
  have hwf := step_wf (Run.wf hbefore) hu
  obtain ⟨o, ho, hptr, _⟩ := hat
  have hu' : u = (x.1.batmanOgm g rx).1 := by
    rw [hx] at hu
    cases stepped hu with
    | ogm => rfl
  rw [← hu'] at ho
  exact hptr ▸ (hwf.node o ho).ptr_lt.trans_le (Trace.nextPtr_le hafter hwf)

theorem OrigNode.tells_new {cfg : Config} {tr : List (State p × Event p)} (h : Run p cfg tr s)
    {addr : Mac} (hptr : s.nextPtr ≤ ptr) (ifCount : ℕ) :
    (OrigNode.new ptr addr : OrigNode p).Tells tr ifCount := by
  refine ⟨fun ifNum _ i _ => iff_of_false ?_ fun hecho => ?_, fun ifNum => ?_⟩
  · rw [show (OrigNode.new ptr addr : OrigNode p).bcastOwn ifNum = bitInit from rfl, winBit_bitInit]
    exact Bool.false_ne_true
  · exact absurd (Run.lt_of_echoedAt h hecho) (not_lt.mpr hptr)
  · rw [bitPacketCount_eq, List.countP_eq_zero.mpr]
    · rfl
    · intro i _
      rw [show (OrigNode.new ptr addr : OrigNode p).bcastOwn ifNum = bitInit from rfl, winBit_bitInit]
      exact Bool.false_ne_true

/-- The test of `batman()` finds the sequence number before the last, unless that one has wrapped. -/
theorem State.marks_iff :
    s.Marks rx ↔ rx.hasDirectlinkFlag = true ∧
      rx.pkt.seqno + 2 = (s.outOf rx.ifIncoming).seqno ∧ 2 ≤ (s.outOf rx.ifIncoming).seqno.toNat := by
  unfold State.Marks
  refine and_congr_right fun _ => ?_
  generalize (s.outOf rx.ifIncoming).seqno = out
  have h1 := rx.pkt.seqno.isLt
  have h2 := out.isLt
  have htwo : (2 : Seqno).toNat = 2 := rfl
  constructor
  · intro h
    refine ⟨BitVec.eq_of_toNat_eq ?_, by omega⟩
    rw [BitVec.toNat_add, htwo]
    omega
  · rintro ⟨heq, h⟩
    have := congrArg BitVec.toNat heq
    rw [BitVec.toNat_add, htwo] at this
    omega

/-- Under the condition, the OGM that is marked for an entry is the echo its originator sent. -/
theorem marks_iff_isEcho {cfg : Config} {tr : List (State p × Event p)} (h : Run p cfg tr s)
    (hown : s.ogmCase rx = .ownOrig) (hstep : step s (.ogm g rx) = some s')
    (hgood : TellsEcho tr (s, .ogm g rx)) {o' : OrigNode p} (ho' : o' ∈ s'.origs) :
    (s.Marks rx ∧ o'.orig = rx.neigh) ∧ rx.ifIncoming = ifNum ↔
      ∃ q, IsEcho o'.ptr ifNum q tr (s, .ogm g rx) := by
  have hs' := step_wf (Run.wf h) hstep
  have heq : s' = (s.batmanOgm g rx).1 := by
    cases stepped hstep with
    | ogm => rfl
  rw [State.marks_iff]
  constructor
  · rintro ⟨⟨⟨hflag, hseqno, hwrap⟩, horig⟩, rfl⟩
    obtain ⟨haddr, hsent⟩ := (hgood rx ⟨g, rfl⟩ hown hflag hseqno).mp hwrap
    obtain ⟨q, hq⟩ : ∃ q, (ownSent rx.ifIncoming tr).getLast? = some q :=
      ⟨_, List.getLast?_eq_some_getLast hsent⟩
    have hlast := Run.lastSent h hq
    have hqeq : rx.pkt.seqno = q := by
      rw [← hlast] at hseqno
      bv_omega
    refine ⟨q, g, rx, rfl, hown, ?_, rfl, hflag, haddr, hqeq, hq⟩
    rw [← heq]
    exact ⟨o', ho', rfl, horig⟩
  · rintro ⟨q, g', rx', hx, _, ⟨o, ho, hptr, horig⟩, rfl, hflag, haddr, rfl, hq⟩
    cases hx
    have hseqno := Run.lastSent h hq
    have hne : ownSent rx.ifIncoming tr ≠ [] := by
      rintro hnil
      rw [hnil] at hq
      cases hq
    rw [← heq] at ho
    refine ⟨⟨⟨hflag, hseqno, (hgood rx ⟨g, rfl⟩ hown hflag hseqno).mpr ⟨haddr, hne⟩⟩, ?_⟩, rfl⟩
    rw [← hs'.eq_of_ptr ho ho' hptr]
    exact horig

theorem winBit_shiftBcastOwn (o : OrigNode p) {i : ℕ} (hi : i < 64) :
    winBit ((o.shiftBcastOwn ifNum).bcastOwn ifNum) i =
      (decide (1 ≤ i) && winBit (o.bcastOwn ifNum) (i - 1)) := by
  have hnew : (o.shiftBcastOwn ifNum).bcastOwn ifNum =
      (bitGetPacket (fun _ => 0) (o.bcastOwn ifNum) ((1 : ℕ) : ℤ) false).1 :=
    Function.update_self _ _ _
  rw [hnew, winBit_bitGetPacket_forward _ _ _ (by omega) hi]
  simp

theorem winBit_markOwn (o : OrigNode p) (i : ℕ) :
    winBit ((o.markOwn ifNum).bcastOwn ifNum) i = (winBit (o.bcastOwn ifNum) i || decide (i = 0)) := by
  have hnew : (o.markOwn ifNum).bcastOwn ifNum = bitMark (o.bcastOwn ifNum) ((0 : ℕ) : ℤ) :=
    Function.update_self _ _ _
  rw [hnew, winBit_bitMark (by omega) (.inr (by omega))]

theorem OrigNode.Tells.of_sameOwn {tr : List (State p × Event p)} {o o' : OrigNode p} {ifCount : ℕ}
    (h : o.Tells tr ifCount) (hsame : o.SameOwn o') : o'.Tells tr ifCount := by
  refine ⟨fun ifNum hif i hi => ?_, fun ifNum => ?_⟩
  · rw [hsame.bcastOwn, hsame.ptr]
    exact h.bits ifNum hif i hi
  · rw [hsame.bcastOwn, hsame.bcastOwnSum]
    exact h.sum ifNum

theorem OrigNode.Tells.shift {tr : List (State p × Event p)} {x : State p × Event p} {o : OrigNode p}
    {ifCount ifOutgoing : ℕ} (h : o.Tells tr ifCount)
    (hsent : ∀ i, (x.1.sentOwn i x.2).isSome ↔ i = ifOutgoing)
    (hecho : ∀ ptr ifNum q, ¬ IsEcho ptr ifNum q tr x) :
    (o.shiftBcastOwn ifOutgoing).Tells (tr ++ [x]) ifCount := by
  refine ⟨fun ifNum hif i hi => ?_, fun ifNum => ?_⟩
  · have hnone : ¬ (i = 0 ∧ ∃ q, IsEcho o.ptr ifNum q tr x) := fun ⟨_, q, hq⟩ => hecho _ _ q hq
    show _ ↔ EchoedAt o.ptr ifNum (tr ++ [x]) i
    rw [echoedAt_snoc, or_iff_right hnone]
    by_cases heq : ifNum = ifOutgoing
    · subst heq
      obtain ⟨q, hq⟩ := Option.isSome_iff_exists.mp ((hsent ifNum).mpr rfl)
      rw [winBit_shiftBcastOwn o hi, hq, Option.toList_some, List.length_singleton, Bool.and_eq_true,
        decide_eq_true_iff]
      constructor
      · rintro ⟨hpos, hbit⟩
        exact ⟨i - 1, (h.bits ifNum hif _ (by omega)).mp hbit, by omega⟩
      · rintro ⟨j, hj, rfl⟩
        exact ⟨by omega, (h.bits ifNum hif _ (by omega)).mpr hj⟩
    · have hnot : x.1.sentOwn ifNum x.2 = none := by
        rw [← Option.not_isSome_iff_eq_none, hsent]
        exact heq
      have hsame : (o.shiftBcastOwn ifOutgoing).bcastOwn ifNum = o.bcastOwn ifNum :=
        Function.update_of_ne heq _ _
      rw [hsame, hnot, h.bits ifNum hif i hi]
      simp
  · by_cases heq : ifNum = ifOutgoing
    · subst heq
      unfold OrigNode.shiftBcastOwn
      dsimp only
      rw [Function.update_self, Function.update_self]
    · unfold OrigNode.shiftBcastOwn
      dsimp only
      rw [Function.update_of_ne heq, Function.update_of_ne heq]
      exact h.sum ifNum

theorem OrigNode.Tells.mark {tr : List (State p × Event p)} {x : State p × Event p} {o : OrigNode p}
    {ifCount ifIncoming : ℕ} (h : o.Tells tr ifCount) (hsent : ∀ i, x.1.sentOwn i x.2 = none)
    {c : Prop} [Decidable c]
    (hecho : ∀ ifNum, c ∧ ifIncoming = ifNum ↔ ∃ q, IsEcho o.ptr ifNum q tr x) :
    (if c then o.markOwn ifIncoming else o).Tells (tr ++ [x]) ifCount := by
  have hptr : (if c then o.markOwn ifIncoming else o).ptr = o.ptr := by split_ifs <;> rfl
  refine ⟨fun ifNum hif i hi => ?_, fun ifNum => ?_⟩
  · rw [hptr, echoedAt_snoc, hsent, ← hecho, Option.toList_none, List.length_nil]
    simp only [Nat.add_zero, exists_eq_right', ← h.bits ifNum hif i hi]
    by_cases hc : c
    · rw [if_pos hc]
      by_cases heq : ifNum = ifIncoming
      · subst heq
        rw [winBit_markOwn]
        simp [hc, or_comm]
      · have hsame : (o.markOwn ifIncoming).bcastOwn ifNum = o.bcastOwn ifNum :=
          Function.update_of_ne heq _ _
        rw [hsame]
        simp [Ne.symm heq]
    · rw [if_neg hc]
      simp [hc]
  · split_ifs
    · by_cases heq : ifNum = ifIncoming
      · subst heq
        unfold OrigNode.markOwn
        dsimp only
        rw [Function.update_self, Function.update_self]
      · unfold OrigNode.markOwn
        dsimp only
        rw [Function.update_of_ne heq, Function.update_of_ne heq]
        exact h.sum ifNum
    · exact h.sum ifNum

/-- **One step.** -/
theorem OrigNode.Tells.step {cfg : Config} {tr : List (State p × Event p)} (hrun : Run p cfg tr s)
    (hstep : BatmanAdv.step s e = some s') (hgood : TellsEcho tr (s, e)) {o o' : OrigNode p}
    {ifCount : ℕ} (h : o.Tells tr ifCount) (hstepped : o.OwnStepped s e o') (ho' : o' ∈ s'.origs) :
    o'.Tells (tr ++ [(s, e)]) ifCount := by
  cases hstepped with
  | sent ifOutgoing hogm hsent hsame =>
    refine (h.shift hsent ?_).of_sameOwn hsame
    rintro _ _ _ ⟨g, rx, hx, _⟩
    exact hogm g rx hx
  | echo g rx he hown hsame =>
    subst he
    have hptr : o'.ptr = o.ptr ∧ o'.orig = o.orig := by
      rw [hsame.ptr, hsame.orig]
      split_ifs
      · exact ⟨rfl, rfl⟩
      · exact ⟨rfl, rfl⟩
    refine (h.mark (fun _ => rfl) fun ifNum => ?_).of_sameOwn hsame
    rw [← hptr.1, ← hptr.2]
    exact marks_iff_isEcho hrun hown hstep hgood ho'
  | same hogm hsent hsame =>
    have hecho : ∀ ifNum, False ∧ 0 = ifNum ↔ ∃ q, IsEcho o.ptr ifNum q tr (s, e) := by
      refine fun ifNum => iff_of_false (fun hf => hf.1) ?_
      rintro ⟨_, g, rx, hx, hown, _⟩
      exact hogm g rx hx hown
    have hmark := h.mark hsent hecho
    rw [if_neg not_false] at hmark
    exact hmark.of_sameOwn hsame

/-- The echo of an own OGM tells how many were transmitted since. -/
theorem Run.seqno_of_isEcho {cfg : Config} {a b : List (State p × Event p)} {x : State p × Event p}
    (h : Run p cfg (a ++ x :: b) s) (hecho : IsEcho ptr ifNum q a x) :
    q + 2 + BitVec.ofNat 16 (ownSent ifNum b).length = (s.outOf ifNum).seqno := by
  obtain ⟨hbefore, u, hu, hafter⟩ := Trace.split h
  obtain ⟨g, rx, hx, _, _, _, _, _, _, hlast⟩ := hecho
  have hwf := Run.wf hbefore
  have hok := Run.queueOk hbefore
  have hnone : x.1.sentOwn ifNum x.2 = none := by
    rw [hx]
    rfl
  have hsame : (u.outOf ifNum).seqno = (x.1.outOf ifNum).seqno := by
    rcases step_sentOwn hwf hok hu ifNum with ⟨_, hsent, _, _⟩ | ⟨_, hsame⟩
    · rw [hnone] at hsent
      cases hsent
    · exact hsame
  rw [Trace.outOf_seqno hafter (step_wf hwf hu) (step_queueOk hwf hok hu) ifNum, hsame,
    Run.lastSent hbefore hlast]

/-- **Own OGMs heard back.** In a run where the sequence number tells the own OGM that comes back, bit `i`
of a window is set exactly where the own OGM `i` before the last one transmitted was heard back from the
originator while it was the last one, and `bcast_own_sum` counts these bits. -/
theorem own_echo {cfg : Config} {tr : List (State p × Event p)} (h : Run p cfg tr s)
    (hgood : ∀ a x b, tr = a ++ x :: b → TellsEcho a x) : EchoesCounted tr s := by
  have hinv := Trace.invariant_of_good (G := fun pre t e => TellsEcho pre (t, e))
    (I := fun pre t => Run p cfg pre t ∧ t.ifList.length = cfg.hwAddrs.length ∧
      ∀ o ∈ t.origs, o.Tells pre cfg.hwAddrs.length) h
    ⟨.nil, by rw [State.length_ifList, (cfg.origs_boot p).2], cfg.forall_origs_boot⟩
    (fun pre t e u ⟨hrun, hlen, htells⟩ hG hu => by
      refine ⟨hrun.snoc hu, ?_, fun o' ho' => ?_⟩
      · rw [State.length_ifList, step_hwAddrs (Run.wf hrun) hu, ← State.length_ifList, hlen]
      · obtain ⟨o, horigin, hstepped⟩ := step_own (Run.wf hrun) hu ho'
        have ho : o.Tells pre cfg.hwAddrs.length := by
          rcases horigin with ho | ⟨hnew, heq⟩
          · exact htells o ho
          · rw [heq]
            exact OrigNode.tells_new hrun hnew _
        exact ho.step hrun hu hG hstepped ho')
    hgood
  obtain ⟨_, hlen, htells⟩ := hinv
  refine fun o ho ifNum hif => ⟨fun i hi => ?_, ?_⟩
  · rw [(htells o ho).bits ifNum (hlen ▸ hif) i hi]
    constructor
    · rintro ⟨a, x, b, q, rfl, hecho, rfl⟩
      have hseqno := Run.seqno_of_isEcho h hecho
      have hq : (s.outOf ifNum).seqno - 2 - BitVec.ofNat 16 (ownSent ifNum b).length = q := by
        rw [← hseqno]
        bv_omega
      rw [hq]
      exact ⟨a, x, b, rfl, hecho, by omega⟩
    · rintro ⟨a, x, b, rfl, hecho, hlt⟩
      have hseqno := Run.seqno_of_isEcho h hecho
      refine ⟨a, x, b, _, rfl, hecho, ?_⟩
      have hlen : BitVec.ofNat 16 (ownSent ifNum b).length = BitVec.ofNat 16 i := by
        generalize BitVec.ofNat 16 (ownSent ifNum b).length = m at hseqno
        bv_omega
      have := congrArg BitVec.toNat hlen
      rwa [BitVec.toNat_ofNat, BitVec.toNat_ofNat, Nat.mod_eq_of_lt hlt,
        Nat.mod_eq_of_lt (by omega)] at this
  · rw [(htells o ho).sum ifNum, bitPacketCount_eq, BitVec.toNat_ofNat, Nat.mod_eq_of_lt]
    have hle : (List.range 64).countP (winBit (o.bcastOwn ifNum)) ≤ 64 :=
      List.countP_le_length.trans_eq List.length_range
    omega

instance (pre : List (State p × Event p)) (x : State p × Event p) : Decidable (TellsEcho pre x) :=
  match x with
  | (s, .ogm g rx) =>
    decidable_of_iff (s.ogmCase rx = .ownOrig → rx.hasDirectlinkFlag = true →
        rx.pkt.seqno + 2 = (s.outOf rx.ifIncoming).seqno →
          (2 ≤ (s.outOf rx.ifIncoming).seqno.toNat ↔
            s.hwAddrs[rx.ifIncoming]? = some rx.pkt.orig ∧ ownSent rx.ifIncoming pre ≠ []))
      ⟨fun h _ hrx => by
        obtain ⟨_, heq⟩ := hrx
        cases heq
        exact h, fun h => h rx ⟨g, rfl⟩⟩
  | (_, .bcast _ _) => isTrue fun _ ⟨_, h⟩ => by cases h
  | (_, .tap _ _) => isTrue fun _ ⟨_, h⟩ => by cases h
  | (_, .clock _) => isTrue fun _ ⟨_, h⟩ => by cases h
  | (_, .hnaUpdate) => isTrue fun _ ⟨_, h⟩ => by cases h
  | (_, .purge _ _ _) => isTrue fun _ ⟨_, h⟩ => by cases h
  | (_, .sendBegin _) => isTrue fun _ ⟨_, h⟩ => by cases h
  | (_, .sendNext _ _) => isTrue fun _ ⟨_, h⟩ => by cases h

/-- `A` rebroadcasts the first own OGM of the interface it hears. -/
theorem own_echo_linkUp : ∃ tr s,
    Run Net.p64 Net.cfg tr s ∧ tr.map Prod.snd = Net.linkUp Net.p64 ∧
    EchoesCounted tr s ∧ ∃ o ∈ s.origs, winBit (o.bcastOwn 0) 0 = true := by
  obtain ⟨tr, s, hrun, hevents, hcheck⟩ := Run.of_exec Net.cfg (Net.linkUp Net.p64)
    (fun tr (s : State Net.p64) => decide
      ((∀ n < tr.length, ∀ x ∈ tr[n]?, TellsEcho (tr.take n) x) ∧
        ∃ o ∈ s.origs, winBit (o.bcastOwn 0) 0 = true)) (by decide +kernel)
  obtain ⟨hgood, hmarked⟩ := of_decide_eq_true hcheck
  refine ⟨tr, s, hrun, hevents, own_echo hrun fun a x b htr => ?_, hmarked⟩
  have := hgood a.length (by simp [htr]) x (by simp [htr])
  rwa [htr, List.take_left'] at this
  rfl

/-- The rebroadcast of an OGM of the first interface, heard on the second one, which has just sent the
same sequence number. -/
def Net.otherInterface : List (Event Net.p64) :=
  [.sendBegin 1000, .sendNext 1000 0, .sendNext 1000 0, .sendNext 1000 0,
    .ogm (Net.zeros Net.p64) (Net.echo Net.macA Net.me0 1 1 1100)]

/-- It is counted for the second interface. -/
theorem own_echo_otherInterface : ∃ tr s,
    Run Net.p64 Net.cfg tr s ∧ tr.map Prod.snd = Net.otherInterface ∧ ¬ EchoesCounted tr s := by
  obtain ⟨tr, s, hrun, hevents, hcheck⟩ := Run.of_exec Net.cfg Net.otherInterface
    (fun _ (s : State Net.p64) => decide (∃ o ∈ s.origs, winBit (o.bcastOwn 1) 0 = true))
    (by decide +kernel)
  obtain ⟨o, ho, hbit⟩ := of_decide_eq_true hcheck
  refine ⟨tr, s, hrun, hevents, fun hcounted => ?_⟩
  have hif : 1 < s.ifList.length := by
    rw [State.length_ifList, Run.hwAddrs hrun]
    decide
  obtain ⟨a, x, b, htr, ⟨g, rx, hx, _, _, _, _, haddr, _⟩, _⟩ :=
    ((hcounted o ho 1 hif).1 0 (by decide)).mp hbit
  have hmem : x.2 ∈ Net.otherInterface := by
    rw [← hevents]
    exact List.mem_map_of_mem (by rw [htr]; simp)
  have horig : rx.pkt.orig = Net.me0 := by
    rw [hx] at hmem
    simp only [Net.otherInterface, List.mem_cons, reduceCtorEq, false_or, List.not_mem_nil, or_false,
      Event.ogm.injEq] at hmem
    rw [hmem.2]
    rfl
  rw [htr] at hrun
  rw [Run.hwAddrs (Trace.split hrun).1, horig] at haddr
  exact absurd haddr (by decide)

end BatmanAdv
