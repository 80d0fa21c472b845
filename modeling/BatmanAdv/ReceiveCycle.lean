import BatmanAdv.Version
import Mathlib.Logic.Function.Basic

/-!
# The loop of `receive_packet_batiface`

Up to `PACKETS_PER_CYCLE` frames of one interface are read and handled, until there is none, an OGM for
`batman()` is among them, or a read or a write fails. The branch for broadcast frames goes through `if_list`
with the variable that names the interface to read from. So behind a broadcast that was sent on, the loop
reads from the last interface.
-/

namespace BatmanAdv

variable {p : Platform}

/-! ## The loop -/

def packetsPerCycle : ℕ := 10

/-- What the outside decides in a round. -/
structure ReceiveRound (p : Platform) where
  garbage : Garbage p
  /-- The read fails, and not for want of a frame. -/
  readFails : Bool
  /-- The frames `rawsock_write` does not take. -/
  writeFails : Frame → Bool

/-- The write fails, and `receive_packet_batiface` looks whether it does. -/
def ReceiveRound.fails (round : ReceiveRound p) (out : Output) : Bool :=
  out.sent.any round.writeFails

/-- What one call leads to. -/
structure ReceiveCycle (p : Platform) where
  node : Node p
  /-- The frames that wait at each `raw_sock`. -/
  socks : ℕ → List Frame
  outs : List Output
  /-- The OGM for `batman()`: `*if_incoming`, `neigh` and `packet_buff`. -/
  ogm : Option (ℕ × Mac × List Byte)
  ret : ℤ

/-- The frame is sent on by the `BAT_BCAST` branch. -/
def Node.acceptsBcast (node : Node p) (g : Garbage p) (frame : Frame) : Bool :=
  !(frame.rawsockRead.length < 2 : Bool) && frame.rawsockRead.getD 0 0 = batBcast &&
    (node.state.receiveBcast g frame.bcast).2

/-- `batman_if` behind `list_for_each(if_pos, &if_list)`. -/
def Node.lastIf (node : Node p) (batmanIf : ℕ) : ℕ :=
  if node.state.ifList = [] then batmanIf else node.state.ifList.length - 1

def Node.receiveRounds :
    ℕ → (ℕ → ReceiveRound p) → Node p → (ℕ → List Frame) → ℕ → ReceiveCycle p
  | 0, _, node, socks, _ => ⟨node, socks, [], none, 0⟩
  | n + 1, rounds, node, socks, batmanIf =>
    if (rounds 0).readFails then ⟨node, socks, [], none, -1⟩
    else
      match socks batmanIf with
      -- `EWOULDBLOCK`
      | [] => ⟨node, socks, [], none, 0⟩
      | frame :: queue =>
        let socks := Function.update socks batmanIf queue
        let r := node.receivePacketBatiface (rounds 0).garbage frame
        match r.ogm with
        | some ogm => ⟨r.node, socks, r.outs, some (batmanIf, ogm), 1⟩
        | none =>
          if r.outs.any (rounds 0).fails then
            ⟨r.node, socks, r.outs.takeWhile fun out => !(rounds 0).fails out, none, -1⟩
          else
            let batmanIf := if node.acceptsBcast (rounds 0).garbage frame then node.lastIf batmanIf else batmanIf
            let rest := receiveRounds n (fun i => rounds (i + 1)) r.node socks batmanIf
            { rest with outs := r.outs ++ rest.outs }

def Node.receiveCycle (node : Node p) (rounds : ℕ → ReceiveRound p) (socks : ℕ → List Frame)
    (batmanIf : ℕ) : ReceiveCycle p :=
  node.receiveRounds packetsPerCycle rounds socks batmanIf

/-! ## One round -/

/-- The frame is handled, and the loop goes on. -/
def Node.Handles (node : Node p) (round : ReceiveRound p) (frame : Frame) : Prop :=
  (node.receivePacketBatiface round.garbage frame).ogm = none ∧
    ¬ (node.receivePacketBatiface round.garbage frame).outs.any round.fails

/-- The loop goes on with the same interface. -/
def Node.Passes (node : Node p) (round : ReceiveRound p) (frame : Frame) : Prop :=
  node.Handles round frame ∧ ¬ node.acceptsBcast round.garbage frame

/-- The loop goes on with the last interface. -/
def Node.SendsOn (node : Node p) (round : ReceiveRound p) (frame : Frame) : Prop :=
  node.Handles round frame ∧ node.acceptsBcast round.garbage frame

variable {node : Node p} {rounds : ℕ → ReceiveRound p} {socks : ℕ → List Frame} {batmanIf n : ℕ}
  {frame : Frame} {queue : List Frame}

theorem Node.receivePacketBatiface_ifList (node : Node p) (g : Garbage p) (frame : Frame) :
    (node.receivePacketBatiface g frame).node.state.ifList = node.state.ifList := by
  obtain ⟨outs, h⟩ | h | ⟨outs, h⟩ := node.receivePacketBatiface_cases g frame
  · rw [h]
  · rw [h]
  · rw [h]
    obtain hrefused | ⟨o, -, -, haccepted⟩ := node.state.receiveBcast_cases g frame.bcast
    · rw [hrefused]
    · rw [haccepted]
      rfl

/-- Only a broadcast that is sent on changes something. -/
theorem Node.receivePacketBatiface_node {g : Garbage p} (h : ¬ node.acceptsBcast g frame) :
    (node.receivePacketBatiface g frame).node = node := by
  by_cases hlen : frame.rawsockRead.length < 2
  · unfold Node.receivePacketBatiface
    dsimp only
    rw [if_pos hlen]
  by_cases hbcast : frame.rawsockRead.getD 0 0 = batBcast
  · rw [node.receivePacketBatiface_bcast g hlen hbcast]
    obtain hrefused | ⟨o, -, -, haccepted⟩ := node.state.receiveBcast_cases g frame.bcast
    · rw [hrefused]
    · refine absurd ?_ h
      unfold Node.acceptsBcast
      rw [haccepted, hbcast]
      simpa using hlen
  · unfold Node.receivePacketBatiface
    dsimp only
    rw [if_neg hlen]
    split_ifs <;> rfl

theorem Node.lastIf_congr {node' : Node p} (h : node'.state.ifList = node.state.ifList) (batmanIf : ℕ) :
    node'.lastIf batmanIf = node.lastIf batmanIf := by
  unfold Node.lastIf
  rw [h]

theorem Node.receiveRounds_of_handles (hread : (rounds 0).readFails = false)
    (hsock : socks batmanIf = frame :: queue) (h : node.Handles (rounds 0) frame) :
    ∃ outs, node.receiveRounds (n + 1) rounds socks batmanIf =
      { (node.receivePacketBatiface (rounds 0).garbage frame).node.receiveRounds n (fun i => rounds (i + 1))
          (Function.update socks batmanIf queue)
          (if node.acceptsBcast (rounds 0).garbage frame then node.lastIf batmanIf else batmanIf) with
        outs := outs } := by
  rw [Node.receiveRounds, if_neg (by simp [hread]), hsock]
  dsimp only
  rw [h.1]
  dsimp only
  rw [if_neg h.2]
  exact ⟨_, rfl⟩

/-- A frame behind which the loop ends: it is the only one read, and an OGM came in here. -/
theorem Node.receiveRounds_of_not_handles (hread : (rounds 0).readFails = false)
    (hsock : socks batmanIf = frame :: queue) (h : ¬ node.Handles (rounds 0) frame) :
    (node.receiveRounds (n + 1) rounds socks batmanIf).socks = Function.update socks batmanIf queue ∧
      ∀ ogm ∈ (node.receiveRounds (n + 1) rounds socks batmanIf).ogm, ogm.1 = batmanIf := by
  rw [Node.receiveRounds, if_neg (by simp [hread]), hsock]
  dsimp only
  cases hogm : (node.receivePacketBatiface (rounds 0).garbage frame).ogm with
  | some ogm =>
    refine ⟨rfl, ?_⟩
    rintro ogm' heq
    cases heq
    rfl
  | none =>
    have hfails : (node.receivePacketBatiface (rounds 0).garbage frame).outs.any (rounds 0).fails = true := by
      by_contra hgood
      exact h ⟨hogm, hgood⟩
    dsimp only
    rw [if_pos hfails]
    exact ⟨rfl, fun _ hnone => by cases hnone⟩

theorem Node.receiveRounds_of_no_frame (node : Node p) (n : ℕ) (rounds : ℕ → ReceiveRound p)
    (h : (rounds 0).readFails = true ∨ socks batmanIf = []) :
    (node.receiveRounds n rounds socks batmanIf).socks = socks ∧
      (node.receiveRounds n rounds socks batmanIf).ogm = none := by
  cases n with
  | zero => exact ⟨rfl, rfl⟩
  | succ n =>
    rw [Node.receiveRounds]
    by_cases hread : (rounds 0).readFails = true
    · rw [if_pos hread]
      exact ⟨rfl, rfl⟩
    · rw [if_neg hread, h.resolve_left hread]
      exact ⟨rfl, rfl⟩

/-! ## What is read -/

/-- Only reads take frames away. -/
theorem Node.receiveRounds_socks (n : ℕ) (rounds : ℕ → ReceiveRound p) (node : Node p)
    (socks : ℕ → List Frame) (batmanIf : ℕ) (i : ℕ) :
    ∃ k, (node.receiveRounds n rounds socks batmanIf).socks i = (socks i).drop k := by
  induction n generalizing rounds node socks batmanIf with
  | zero => exact ⟨0, rfl⟩
  | succ n ih =>
    -- one frame less at the interface read from
    have hone : ∀ {frame queue}, socks batmanIf = frame :: queue →
        ∃ k, Function.update socks batmanIf queue i = (socks i).drop k := by
      intro frame queue hsock
      by_cases hi : i = batmanIf
      · subst hi
        exact ⟨1, by rw [Function.update_self, hsock]; rfl⟩
      · exact ⟨0, Function.update_of_ne hi ..⟩
    cases hsock : socks batmanIf with
    | nil => exact ⟨0, by rw [(node.receiveRounds_of_no_frame _ _ (.inr hsock)).1]; rfl⟩
    | cons frame queue =>
      obtain ⟨j, hj⟩ := hone hsock
      by_cases hread : (rounds 0).readFails = true
      · exact ⟨0, by rw [(node.receiveRounds_of_no_frame _ _ (.inl hread)).1]; rfl⟩
      rw [Bool.not_eq_true] at hread
      by_cases hh : node.Handles (rounds 0) frame
      · obtain ⟨outs, h⟩ := Node.receiveRounds_of_handles (n := n) hread hsock hh
        obtain ⟨k, hk⟩ := ih (fun i => rounds (i + 1)) (node.receivePacketBatiface (rounds 0).garbage frame).node
          (Function.update socks batmanIf queue)
          (if node.acceptsBcast (rounds 0).garbage frame then node.lastIf batmanIf else batmanIf)
        refine ⟨j + k, ?_⟩
        rw [h]
        exact hk.trans (by rw [hj, List.drop_drop])
      · exact ⟨j, by rw [(Node.receiveRounds_of_not_handles hread hsock hh).1]; exact hj⟩

theorem Node.receiveRounds_shorter (node : Node p) (n : ℕ) (rounds : ℕ → ReceiveRound p)
    (hread : (rounds 0).readFails = false)
    (hsock : socks batmanIf = frame :: queue) :
    ((node.receiveRounds (n + 1) rounds socks batmanIf).socks batmanIf).length ≤ queue.length := by
  by_cases hh : node.Handles (rounds 0) frame
  · obtain ⟨outs, h⟩ := Node.receiveRounds_of_handles (n := n) hread hsock hh
    obtain ⟨k, hk⟩ := Node.receiveRounds_socks n (fun i => rounds (i + 1))
      (node.receivePacketBatiface (rounds 0).garbage frame).node (Function.update socks batmanIf queue)
      (if node.acceptsBcast (rounds 0).garbage frame then node.lastIf batmanIf else batmanIf) batmanIf
    rw [Function.update_self] at hk
    rw [h]
    exact hk ▸ (List.drop_sublist k queue).length_le
  · rw [(Node.receiveRounds_of_not_handles hread hsock hh).1, Function.update_self]

/-- Up to `n` frames from the front of one queue are read, and an OGM among them is reported with this
interface. -/
def ReceiveCycle.ReadsOnly (r : ReceiveCycle p) (socks : ℕ → List Frame) (batmanIf n : ℕ) : Prop :=
  (∃ k ≤ n, r.socks = Function.update socks batmanIf ((socks batmanIf).drop k)) ∧
    ∀ ogm ∈ r.ogm, ogm.1 = batmanIf

/-- Within `n` rounds a broadcast is sent on, and then there is a frame at the last interface to read, which
is another one. -/
def Node.Strays (node : Node p) (n : ℕ) (rounds : ℕ → ReceiveRound p) (socks : ℕ → List Frame)
    (batmanIf : ℕ) : Prop :=
  batmanIf ≠ node.lastIf batmanIf ∧ socks (node.lastIf batmanIf) ≠ [] ∧
    ∃ m, m + 1 < n ∧ (∀ i ≤ m + 1, (rounds i).readFails = false) ∧
      (∀ i < m, ∃ frame, (socks batmanIf)[i]? = some frame ∧ node.Passes (rounds i) frame) ∧
      ∃ frame, (socks batmanIf)[m]? = some frame ∧ node.SendsOn (rounds m) frame

theorem ReceiveCycle.readsOnly_zero {r : ReceiveCycle p} (hsocks : r.socks = socks) (hogm : r.ogm = none) :
    r.ReadsOnly socks batmanIf n :=
  ⟨⟨0, Nat.zero_le _, by rw [hsocks, List.drop_zero, Function.update_eq_self]⟩, by simp [hogm]⟩

theorem ReceiveCycle.readsOnly_one {r : ReceiveCycle p} (hsock : socks batmanIf = frame :: queue)
    (hsocks : r.socks = Function.update socks batmanIf queue) (hogm : ∀ ogm ∈ r.ogm, ogm.1 = batmanIf) :
    r.ReadsOnly socks batmanIf (n + 1) :=
  ⟨⟨1, Nat.le_add_left .., by rw [hsocks, hsock]; rfl⟩, hogm⟩

/-- One frame is read, and then what the rest of the loop reads. -/
theorem ReceiveCycle.readsOnly_succ {r : ReceiveCycle p} (hsock : socks batmanIf = frame :: queue)
    (hless : (r.socks batmanIf).length ≤ queue.length) :
    r.ReadsOnly socks batmanIf (n + 1) ↔ r.ReadsOnly (Function.update socks batmanIf queue) batmanIf n := by
  unfold ReceiveCycle.ReadsOnly
  rw [Function.update_self]
  refine and_congr_left fun _ => ?_
  constructor
  · rintro ⟨k, hk, h⟩
    cases k with
    | zero =>
      rw [h, Function.update_self, hsock] at hless
      exact absurd hless (by simp)
    | succ k => exact ⟨k, Nat.le_of_succ_le_succ hk, by rw [h, hsock, Function.update_idem]; rfl⟩
  · rintro ⟨k, hk, h⟩
    exact ⟨k + 1, Nat.succ_le_succ hk, by rw [h, hsock, Function.update_idem]; rfl⟩

/-! ## When another queue is read -/

/-- A frame that passes shortens the queue. -/
theorem Node.strays_of_passes (hread : (rounds 0).readFails = false)
    (hsock : socks batmanIf = frame :: queue) (h : node.Passes (rounds 0) frame) :
    node.Strays (n + 1) rounds socks batmanIf ↔
      node.Strays n (fun i => rounds (i + 1)) (Function.update socks batmanIf queue) batmanIf := by
  unfold Node.Strays
  refine and_congr_right fun hne => ?_
  rw [Function.update_of_ne (Ne.symm hne), Function.update_self, hsock]
  refine and_congr_right fun _ => ?_
  constructor
  · rintro ⟨m, hm, hreads, hpass, sent, hsent, hsends⟩
    cases m with
    | zero =>
      cases hsent
      exact absurd hsends.2 h.2
    | succ m =>
      refine ⟨m, Nat.lt_of_succ_lt_succ hm, fun i hi => hreads (i + 1) (Nat.succ_le_succ hi), ?_, sent, hsent, hsends⟩
      exact fun i hi => hpass (i + 1) (Nat.succ_lt_succ hi)
  · rintro ⟨m, hm, hreads, hpass, hsent⟩
    refine ⟨m + 1, Nat.succ_lt_succ hm, ?_, ?_, hsent⟩
    · intro i hi
      cases i with
      | zero => exact hread
      | succ i => exact hreads i (Nat.le_of_succ_le_succ hi)
    · intro i hi
      cases i with
      | zero => exact ⟨frame, rfl, h⟩
      | succ i => exact hpass i (Nat.lt_of_succ_lt_succ hi)

/-- The first frame that does not pass decides. -/
theorem Node.Strays.head (hstrays : node.Strays n rounds socks batmanIf) (hsock : socks batmanIf = frame :: queue)
    (h : ¬ node.Passes (rounds 0) frame) :
    node.SendsOn (rounds 0) frame ∧ 1 < n ∧ (rounds 1).readFails = false := by
  obtain ⟨-, -, m, hm, hreads, hpass, sent, hsent, hsends⟩ := hstrays
  rw [hsock] at hpass hsent
  cases m with
  | zero =>
    cases hsent
    exact ⟨hsends, hm, hreads 1 le_rfl⟩
  | succ m =>
    obtain ⟨passed, hpassed, hpasses⟩ := hpass 0 (Nat.succ_pos m)
    cases hpassed
    exact absurd hpasses h

/-- A broadcast is sent on, and another interface is the last. -/
theorem Node.receiveRounds_of_sendsOn (hlast : batmanIf ≠ node.lastIf batmanIf)
    (hread : (rounds 0).readFails = false) (hsock : socks batmanIf = frame :: queue)
    (h : node.SendsOn (rounds 0) frame) :
    (node.receiveRounds (n + 1) rounds socks batmanIf).ReadsOnly socks batmanIf (n + 1) ↔
      ¬ node.Strays (n + 1) rounds socks batmanIf := by
  obtain ⟨outs, hr⟩ := Node.receiveRounds_of_handles (n := n) hread hsock h.1
  rw [if_pos h.2] at hr
  have hnot : ¬ node.Passes (rounds 0) frame := fun hpass => hpass.2 h.2
  have hsame : Function.update socks batmanIf queue (node.lastIf batmanIf) = socks (node.lastIf batmanIf) :=
    Function.update_of_ne (Ne.symm hlast) ..
  rw [hr]
  by_cases hnone : (rounds 1).readFails = true ∨ socks (node.lastIf batmanIf) = []
  · -- the next read gives nothing
    have hrest := (node.receivePacketBatiface (rounds 0).garbage frame).node.receiveRounds_of_no_frame n
      (fun i => rounds (i + 1)) (hnone.imp_right fun hempty => hsame.trans hempty)
    refine iff_of_true (ReceiveCycle.readsOnly_one hsock hrest.1 ?_) fun hstrays => ?_
    · rintro ogm hogm
      exact absurd hogm (by rw [hrest.2]; exact Option.not_mem_none ogm)
    · obtain hfails | hempty := hnone
      · rw [(hstrays.head hsock hnot).2.2] at hfails
        cases hfails
      · exact hstrays.2.1 hempty
  rw [not_or, Bool.not_eq_true] at hnone
  cases n with
  | zero =>
    refine iff_of_true (ReceiveCycle.readsOnly_one hsock rfl fun _ hogm => by cases hogm) fun hstrays => ?_
    exact absurd (hstrays.head hsock hnot).2.1 (by omega)
  | succ n =>
    refine iff_of_false ?_ fun hstays => hstays ?_
    · -- the queue of the last interface is shorter now
      rintro ⟨⟨k, -, hk⟩, -⟩
      obtain ⟨other, rest, hother⟩ := List.exists_cons_of_ne_nil hnone.2
      have hshorter := (node.receivePacketBatiface (rounds 0).garbage frame).node.receiveRounds_shorter n
        (fun i => rounds (i + 1)) hnone.1 (hsame.trans hother)
      dsimp only at hk
      rw [hk, Function.update_of_ne (Ne.symm hlast), hother] at hshorter
      exact absurd hshorter (by simp)
    · refine ⟨hlast, hnone.2, 0, by omega, fun i hi => ?_, fun i hi => absurd hi (Nat.not_lt_zero i), frame,
        by rw [hsock]; rfl, h⟩
      obtain rfl | rfl : i = 0 ∨ i = 1 := by omega
      · exact hread
      · exact hnone.1

/-- The rounds read from one interface just when they do not stray. -/
theorem Node.receiveRounds_readsOnly_iff (n : ℕ) (rounds : ℕ → ReceiveRound p) (node : Node p)
    (socks : ℕ → List Frame) (batmanIf : ℕ) :
    (node.receiveRounds n rounds socks batmanIf).ReadsOnly socks batmanIf n ↔
      ¬ node.Strays n rounds socks batmanIf := by
  induction n generalizing rounds node socks batmanIf with
  | zero =>
    refine iff_of_true (ReceiveCycle.readsOnly_zero rfl rfl) ?_
    rintro ⟨-, -, m, hm, -⟩
    exact absurd hm (Nat.not_lt_zero _)
  | succ n ih =>
    by_cases hnone : (rounds 0).readFails = true ∨ socks batmanIf = []
    · have hr := node.receiveRounds_of_no_frame (n + 1) rounds hnone
      refine iff_of_true (ReceiveCycle.readsOnly_zero hr.1 hr.2) ?_
      rintro ⟨-, -, m, -, hreads, hpass, sent, hsent, -⟩
      obtain hfails | hempty := hnone
      · rw [hreads 0 (Nat.zero_le _)] at hfails
        cases hfails
      · rw [hempty] at hsent
        cases hsent
    rw [not_or, Bool.not_eq_true] at hnone
    obtain ⟨frame, queue, hsock⟩ := List.exists_cons_of_ne_nil hnone.2
    by_cases hh : node.Handles (rounds 0) frame
    · by_cases hlast : batmanIf ≠ node.lastIf batmanIf ∧ node.acceptsBcast (rounds 0).garbage frame
      · exact Node.receiveRounds_of_sendsOn hlast.1 hnone.1 hsock ⟨hh, hlast.2⟩
      · have hsame : (if node.acceptsBcast (rounds 0).garbage frame then node.lastIf batmanIf else batmanIf) =
            batmanIf := by
          split_ifs with haccepts
          · by_contra hne
            exact hlast ⟨Ne.symm hne, haccepts⟩
          · rfl
        have hless := node.receiveRounds_shorter n rounds hnone.1 hsock
        obtain ⟨outs, hr⟩ := Node.receiveRounds_of_handles (n := n) hnone.1 hsock hh
        rw [hsame] at hr
        rw [ReceiveCycle.readsOnly_succ hsock hless, hr]
        refine (ih ..).trans (not_congr ?_)
        by_cases haccepts : node.acceptsBcast (rounds 0).garbage frame
        · -- the last interface stays the last
          have heq : batmanIf = node.lastIf batmanIf := by
            by_contra hne
            exact hlast ⟨hne, haccepts⟩
          refine iff_of_false (fun hstrays => hstrays.1 ?_) fun hstrays => hstrays.1 heq
          rwa [Node.lastIf_congr (node.receivePacketBatiface_ifList (rounds 0).garbage frame)]
        · rw [Node.receivePacketBatiface_node haccepts]
          exact (Node.strays_of_passes hnone.1 hsock ⟨hh, haccepts⟩).symm
    · have hr := Node.receiveRounds_of_not_handles (n := n) hnone.1 hsock hh
      refine iff_of_true (ReceiveCycle.readsOnly_one hsock hr.1 hr.2) fun hstrays => ?_
      exact hh (hstrays.head hsock fun hpass => hh hpass.1).1.1

/-- **`receive_packet_batiface` reads from its own interface just when it does not stray.** -/
theorem Node.receiveCycle_readsOnly_iff (node : Node p) (rounds : ℕ → ReceiveRound p)
    (socks : ℕ → List Frame) (batmanIf : ℕ) :
    (node.receiveCycle rounds socks batmanIf).ReadsOnly socks batmanIf packetsPerCycle ↔
      ¬ node.Strays packetsPerCycle rounds socks batmanIf :=
  node.receiveRounds_readsOnly_iff packetsPerCycle rounds socks batmanIf

/-- A broadcast of `A` waits at the first interface, an OGM of `B` at the second. -/
def Net.twoQueues (i : ℕ) : List Frame :=
  if i = 0 then
    [⟨broadcastAddr, Net.macA, (⟨batBcast, compatVersion, Net.macA, 1⟩ : BcastPacket).bytes ++ List.replicate 14 0⟩]
  else if i = 1 then [⟨broadcastAddr, Net.macB, (Net.ogm Net.macB Net.macB 1 7 0).pkt.bytes⟩]
  else []

/-- Nothing fails. -/
def Net.calm (_ : ℕ) : ReceiveRound Net.p64 := ⟨Net.zeros Net.p64, false, fun _ => false⟩

/-- Behind the broadcast the OGM of the second interface is read, and reported to come from there. -/
theorem Node.receiveCycle_strays :
    ¬ ∀ (cfg : Config) (tr : List (State Net.p64 × Event Net.p64)) (node : Node Net.p64)
      (rounds : ℕ → ReceiveRound Net.p64) (socks : ℕ → List Frame) (batmanIf : ℕ),
      Run Net.p64 cfg tr node.state → batmanIf < node.state.ifList.length →
        (node.receiveCycle rounds socks batmanIf).ReadsOnly socks batmanIf packetsPerCycle := by
  intro h
  obtain ⟨tr, s, hrun, -, hcheck⟩ := Run.of_exec Net.cfg (Net.linkUp Net.p64)
    (fun _ (s : State Net.p64) => decide (0 < s.ifList.length ∧
      ((Node.mk s fun _ => none).receiveCycle Net.calm Net.twoQueues 0).ogm.map (·.1) = some 1)) (by decide +kernel)
  obtain ⟨hif, hogm⟩ := of_decide_eq_true hcheck
  obtain ⟨ogm, hsome, hincoming⟩ := Option.map_eq_some_iff.mp hogm
  have hzero := (h Net.cfg tr ⟨s, fun _ => none⟩ Net.calm Net.twoQueues 0 hrun hif).2 ogm hsome
  rw [hincoming] at hzero
  cases hzero

end BatmanAdv
