import BatmanAdv.Lib.Flight
import BatmanAdv.Receive

/-!
# A network of daemons

Any number of daemons and the frames between them. Frames are lost, delayed and overtaken at will; one
that is not addressed to everybody is delivered to one interface at most, the one it is addressed to.
Between any two steps the daemons may come to any state whatever, so that nothing is assumed of their
routing tables, or of what they do besides.
-/

namespace BatmanAdv

open Flight Transition

variable {ι : Type*} {p : Platform}

/-- An output is kept with the daemon that made it, as it was then. -/
structure Mesh (ι : Type*) (p : Platform) where
  nodes : ι → Node p
  flight : Traffic (ι × Node p) Frame Output

/-- What happens in the network; `g` is what freed memory holds for the daemon that acts. -/
inductive MeshEvent (ι : Type*) (p : Platform) where
  /-- The daemons go on with everything else they do. -/
  | change (nodes : ι → Node p)
  /-- A frame of the tap. -/
  | tap (i : ι) (g : Garbage p) (tapFrame : List Byte)
  /-- A message of a unix client. -/
  | client (i : ι) (g : Garbage p) (unixClient : UnixClient) (buff : List Byte)
  /-- Frames that are no reaction to one of these: OGMs, and whatever else there is. -/
  | other (i : ι) (frames : List Frame)
  /-- The `k`-th frame in flight reaches an interface. -/
  | receive (i : ι) (g : Garbage p) (k : ℕ)
  | lose (k : ℕ)

/-- A frame reaches everybody or the interface it is addressed to. -/
def Frame.Reaches (frame : Frame) (hwAddrs : List Mac) : Prop :=
  frame.dhost = broadcastAddr ∨ frame.dhost ∈ hwAddrs

instance (frame : Frame) (hwAddrs : List Mac) : Decidable (frame.Reaches hwAddrs) :=
  inferInstanceAs (Decidable (_ ∨ _))

namespace Mesh

def start (nodes : ι → Node p) : Mesh ι p := ⟨nodes, .empty⟩

section Step

variable [DecidableEq ι]

def setNode (m : Mesh ι p) (i : ι) (node : Node p) : Mesh ι p :=
  { m with nodes := Function.update m.nodes i node }

def inject (m : Mesh ι p) (i : ι) (outs : List Output) : Mesh ι p :=
  { m with flight := m.flight.inject Output.sent (i, m.nodes i) outs }

/-- The outputs of the daemon `i` for the frame `x` it receives. -/
def react (m : Mesh ι p) (i : ι) (k : ℕ) (x : ℕ × Frame) (outs : List Output) : Mesh ι p :=
  { m with
    flight :=
      if x.2.dhost = broadcastAddr then m.flight.share Output.sent x (i, m.nodes i) outs
      else m.flight.deliver Output.sent k x (i, m.nodes i) outs }

def step (m : Mesh ι p) : MeshEvent ι p → Option (Mesh ι p)
  | .change nodes => some { m with nodes := nodes }
  | .tap i g tapFrame =>
    let (s, outs) := (m.nodes i).state.receivePacketTap g tapFrame
    some ((m.inject i outs).setNode i { m.nodes i with state := s })
  | .client i g unixClient buff =>
    -- `unix_listen` passes on messages of this size only
    if buff.length = icmpPacketSize then
      some (m.inject i ((m.nodes i).state.handlePacket g unixClient buff))
    else none
  | .other i frames => some (m.inject i (frames.map .rawsockWrite))
  | .receive i g k =>
    match m.flight.air[k]? with
    | none => none
    | some x =>
      if x.2.Reaches (m.nodes i).state.hwAddrs then
        let r := (m.nodes i).receivePacketBatiface g x.2
        some ((m.react i k x r.outs).setNode i r.node)
      else none
  | .lose k => some { m with flight := m.flight.lose k }

end Step

/-! ## What a step does to the frames -/

/-- The frames after a step, one case for each thing that can happen to them. -/
inductive Flown (m : Mesh ι p) : Traffic (ι × Node p) Frame Output → Prop
  | still : Flown m m.flight
  | inject (i : ι) (outs : List Output) :
      Flown m (m.flight.inject Output.sent (i, m.nodes i) outs)
  | lose (k : ℕ) : Flown m (m.flight.lose k)
  | deliver (i : ι) (g : Garbage p) (k : ℕ) (x : ℕ × Frame) (hx : m.flight.air[k]? = some x)
      (hdhost : x.2.dhost ≠ broadcastAddr) :
      Flown m (m.flight.deliver Output.sent k x (i, m.nodes i)
        ((m.nodes i).receivePacketBatiface g x.2).outs)
  | share (i : ι) (g : Garbage p) (x : ℕ × Frame) (hx : x ∈ m.flight.air)
      (hdhost : x.2.dhost = broadcastAddr) :
      Flown m (m.flight.share Output.sent x (i, m.nodes i)
        ((m.nodes i).receivePacketBatiface g x.2).outs)

variable {m m' : Mesh ι p}

theorem Flown.rooted {n : Traffic (ι × Node p) Frame Output} (h : m.Flown n)
    (hm : m.flight.Rooted) : n.Rooted ∧ m.flight.next ≤ n.next := by
  cases h with
  | still => exact ⟨hm, le_rfl⟩
  | inject i outs => exact ⟨hm.inject, Nat.le_succ _⟩
  | lose k => exact ⟨hm.lose, le_rfl⟩
  | deliver i g k x hx hdhost => exact ⟨hm.deliver (List.mem_of_getElem? hx), le_rfl⟩
  | share i g x hx hdhost => exact ⟨hm.share hx, le_rfl⟩

/-! ## Reactions -/

/-- How daemons react to frames with `I`: what they send has `I` again, and `Q` holds of each of their
outputs. -/
def Reacts (I : Frame → Prop) (Q : Entry (ι × Node p) Frame Output → Prop) (root : ℕ) : Prop :=
  ∀ (i : ι) (node : Node p) (g : Garbage p) (frame : Frame), I frame →
    ∀ o ∈ (node.receivePacketBatiface g frame).outs,
      (∀ frame', o.sent = some frame' → I frame') ∧ Q ⟨root, (i, node), some frame, o⟩

/-- Frames with `I` are charged with `w`: a daemon spends no more than the charge of the frame it reacts
to, and nothing for a frame that others receive too. -/
def Spends (p : Platform) (I : Frame → Prop) (q : Option Frame → Output → Bool) (w : Frame → ℕ) :
    Prop :=
  ∀ (node : Node p) (g : Garbage p) (frame : Frame), I frame →
    let cost := Traffic.price q w Output.sent (some frame) (node.receivePacketBatiface g frame).outs
    cost ≤ w frame ∧ (frame.dhost = broadcastAddr → cost = 0)

variable {I : Frame → Prop} {Q : Entry (ι × Node p) Frame Output → Prop}
  {q : Option Frame → Output → Bool} {w : Frame → ℕ} {root budget : ℕ}

theorem price_transmits (w : Frame → ℕ) (cause : Option Frame) (frame : Frame) :
    Traffic.price transmits w Output.sent cause [.rawsockWrite frame] = 1 + w frame := rfl

theorem Flown.descend {n : Traffic (ι × Node p) Frame Output} (h : m.Flown n)
    (hreacts : Reacts I Q root) (hroot : root < m.flight.next) (hm : m.flight.Descend I Q root) :
    n.Descend I Q root := by
  cases h with
  | still => exact hm
  | inject i outs => exact hm.inject fun hnext => absurd hnext hroot.ne'
  | lose k => exact hm.lose
  | deliver i g k x hx hdhost =>
    exact hm.deliver (List.mem_of_getElem? hx) fun frame hI hxeq o ho => by
      rw [hxeq] at ho
      exact hreacts i (m.nodes i) g frame hI o ho
  | share i g x hx hdhost =>
    exact hm.share hx fun frame hI hxeq o ho => by
      rw [hxeq] at ho
      exact hreacts i (m.nodes i) g frame hI o ho

theorem Flown.within {n : Traffic (ι × Node p) Frame Output} (h : m.Flown n)
    (hspends : Spends p I q w) (hroot : root < m.flight.next) (hm : m.flight.Descend I Q root)
    (hwithin : m.flight.Within q w root budget) : n.Within q w root budget := by
  cases h with
  | still => exact hwithin
  | inject i outs => exact hwithin.inject hroot.ne'
  | lose k => exact hwithin.lose
  | deliver i g k x hx hdhost =>
    obtain ⟨r, frame⟩ := x
    refine hwithin.deliver hx fun hr => ?_
    subst hr
    exact (hspends (m.nodes i) g frame (hm.air frame (List.mem_of_getElem? hx))).1
  | share i g x hx hdhost =>
    obtain ⟨r, frame⟩ := x
    refine hwithin.share fun hr => ?_
    subst hr
    exact (hspends (m.nodes i) g frame (hm.air frame hx)).2 hdhost

theorem Flown.forall_log {n : Traffic (ι × Node p) Frame Output} (h : m.Flown n)
    (hinject : ∀ root party o, Q ⟨root, party, none, o⟩)
    (hreacts : ∀ root, Reacts (fun _ => True) Q root) (hm : ∀ e ∈ m.flight.log, Q e) :
    ∀ e ∈ n.log, Q e := by
  have hreaction : ∀ (i : ι) (g : Garbage p) (x : ℕ × Frame),
      ∀ o ∈ ((m.nodes i).receivePacketBatiface g x.2).outs, Q ⟨x.1, (i, m.nodes i), some x.2, o⟩ :=
    fun i g x o ho => (hreacts x.1 i (m.nodes i) g x.2 trivial o ho).2
  intro e he
  cases h with
  | still => exact hm e he
  | inject i outs =>
    rcases Traffic.mem_log_inject.mp he with he | ⟨o, _, rfl⟩
    · exact hm e he
    · exact hinject _ _ _
  | lose k => exact hm e he
  | deliver i g k x hx hdhost =>
    rcases Traffic.mem_log_emit.mp he with he | ⟨o, ho, rfl⟩
    · exact hm e he
    · exact hreaction i g x o ho
  | share i g x hx hdhost =>
    rcases Traffic.mem_log_emit.mp he with he | ⟨o, ho, rfl⟩
    · exact hm e he
    · exact hreaction i g x o ho

/-! ## Runs -/

variable [DecidableEq ι] {nodes : ι → Node p} {tr : List (Mesh ι p × MeshEvent ι p)}

theorem flown {e : MeshEvent ι p} (h : m.step e = some m') : m.Flown m'.flight := by
  cases e with
  | change nodes =>
    cases h
    exact .still
  | tap i g tapFrame =>
    cases h
    exact .inject i _
  | client i g unixClient buff =>
    simp only [step] at h
    split_ifs at h with hlen
    cases h
    exact .inject i _
  | other i frames =>
    cases h
    exact .inject i _
  | receive i g k =>
    simp only [step] at h
    split at h
    · cases h
    · next x hx =>
      split_ifs at h with hreaches
      cases h
      by_cases hdhost : x.2.dhost = broadcastAddr
      · simp only [setNode, react, if_pos hdhost]
        exact .share i g x (List.mem_of_getElem? hx) hdhost
      · simp only [setNode, react, if_neg hdhost]
        exact .deliver i g k x hx hdhost
  | lose k =>
    cases h
    exact .lose k

abbrev Run (nodes : ι → Node p) (tr : List (Mesh ι p × MeshEvent ι p)) (m : Mesh ι p) : Prop :=
  Trace step (start nodes) tr m

theorem Run.rooted (h : Run nodes tr m) : m.flight.Rooted :=
  (Trace.state_invariant h Traffic.Rooted.empty fun _ _ _ hm hstep => ((flown hstep).rooted hm).1).2

/-- **What holds of every reaction in a run.** -/
theorem Run.forall_log (h : Run nodes tr m) (hinject : ∀ root party o, Q ⟨root, party, none, o⟩)
    (hreacts : ∀ root, Reacts (fun _ => True) Q root) : ∀ e ∈ m.flight.log, Q e := by
  have hstart : ∀ e ∈ (start nodes).flight.log, Q e := fun e he => by cases he
  exact (Trace.state_invariant (I := fun m => ∀ e ∈ m.flight.log, Q e) h hstart
    fun _ _ _ hm hstep => (flown hstep).forall_log hinject hreacts hm).2

/-- **The descendants of an injection.** -/
theorem descend_of_run (h : Trace step m tr m') (hreacts : Reacts I Q root)
    (hrooted : m.flight.Rooted) (hroot : root < m.flight.next) (hm : m.flight.Descend I Q root) :
    m'.flight.Descend I Q root := by
  have hinv := Trace.state_invariant
    (I := fun m => (m.flight.Rooted ∧ root < m.flight.next) ∧ m.flight.Descend I Q root)
    h ⟨⟨hrooted, hroot⟩, hm⟩ fun t e u ht hstep => by
      obtain ⟨⟨htrooted, htroot⟩, htm⟩ := ht
      obtain ⟨hurooted, hle⟩ := (flown hstep).rooted htrooted
      exact ⟨⟨hurooted, htroot.trans_le hle⟩, (flown hstep).descend hreacts htroot htm⟩
  exact hinv.2.2

/-- **What an injection brings about** is within the budget it starts with. -/
theorem within_of_run (h : Trace step m tr m') (hreacts : Reacts I Q root) (hspends : Spends p I q w)
    (hrooted : m.flight.Rooted) (hroot : root < m.flight.next) (hm : m.flight.Descend I Q root)
    (hwithin : m.flight.Within q w root budget) : m'.flight.Within q w root budget := by
  have hinv := Trace.state_invariant
    (I := fun m => ((m.flight.Rooted ∧ root < m.flight.next) ∧ m.flight.Descend I Q root) ∧
      m.flight.Within q w root budget)
    h ⟨⟨⟨hrooted, hroot⟩, hm⟩, hwithin⟩ fun t e u ht hstep => by
      obtain ⟨⟨⟨htrooted, htroot⟩, htm⟩, htwithin⟩ := ht
      obtain ⟨hurooted, hle⟩ := (flown hstep).rooted htrooted
      exact ⟨⟨⟨hurooted, htroot.trans_le hle⟩, (flown hstep).descend hreacts htroot htm⟩,
        (flown hstep).within hspends htroot htm htwithin⟩
  exact hinv.2.2

/-! ## Injections -/

variable {a b : List (Mesh ι p × MeshEvent ι p)} {u v : Mesh ι p} {e : MeshEvent ι p} {i : ι}
  {outs : List Output}

/-- The step `e` injects `outs`. -/
def Injects (u : Mesh ι p) (e : MeshEvent ι p) (i : ι) (outs : List Output) : Prop :=
  ∀ u', u.step e = some u' → u'.flight = u.flight.inject Output.sent (i, u.nodes i) outs

theorem Run.injected (h : Run nodes (a ++ (u, e) :: b) v) (he : u.Injects e i outs) :
    ∃ u', Trace step u' b v ∧ u'.flight = u.flight.inject Output.sent (i, u.nodes i) outs ∧
      u.flight.Rooted := by
  obtain ⟨hpre, u', hstep, hpost⟩ := Trace.split h
  exact ⟨u', hpost, he u' hstep, Run.rooted hpre⟩

/-- **What holds of all descendants of an injection.** -/
theorem Run.descend (h : Run nodes (a ++ (u, e) :: b) v) (he : u.Injects e i outs)
    (hreacts : Reacts I Q u.flight.next)
    (houts : ∀ o ∈ outs, (∀ frame, o.sent = some frame → I frame) ∧
      Q ⟨u.flight.next, (i, u.nodes i), none, o⟩) :
    v.flight.Descend I Q u.flight.next := by
  obtain ⟨u', hrun, hu', hrooted⟩ := Run.injected h he
  apply descend_of_run hrun hreacts
  · rw [hu']
    exact hrooted.inject
  · rw [hu']
    exact Nat.lt_succ_self _
  · rw [hu']
    exact (hrooted.descend le_rfl).inject fun _ => houts

/-- **What an injection brings about** is no more than it is charged with. -/
theorem Run.count_le (h : Run nodes (a ++ (u, e) :: b) v) (he : u.Injects e i outs)
    (hreacts : Reacts I Q u.flight.next) (hspends : Spends p I q w)
    (houts : ∀ o ∈ outs, (∀ frame, o.sent = some frame → I frame) ∧
      Q ⟨u.flight.next, (i, u.nodes i), none, o⟩) :
    v.flight.count q u.flight.next ≤ Traffic.price q w Output.sent none outs := by
  obtain ⟨u', hrun, hu', hrooted⟩ := Run.injected h he
  refine (within_of_run hrun hreacts hspends ?_ ?_ ?_ ?_).count_le
  · rw [hu']
    exact hrooted.inject
  · rw [hu']
    exact Nat.lt_succ_self _
  · rw [hu']
    exact (hrooted.descend le_rfl).inject fun _ => houts
  · rw [hu']
    exact hrooted.within_inject

end Mesh

end BatmanAdv
