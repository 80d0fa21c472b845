import BatmanAdv.Mesh
import BatmanAdv.Reachable

/-!
# Unicast payload

A frame of the tap that goes out as `BAT_UNICAST`. Whatever the routing tables say, there is one copy of
it in the network, whose ttl goes down with each transmission and which changes in nothing else until a
daemon that has the destination among its interfaces writes it to its tap.
-/

namespace BatmanAdv

open Flight Transition

variable {ι : Type*} {p : Platform}

/-! ## The frames of one payload -/

/-- The header `receive_packet_tap` makes, with the ttl that is left. -/
def UnicastPacket.towards (dest : Mac) (ttl : Byte) : UnicastPacket :=
  { packetType := batUnicast
    version := compatVersion
    dest := dest
    ttl := ttl }

/-- A `BAT_UNICAST` frame for `dest` with this payload. -/
def Frame.Carries (dest : Mac) (payload : List Byte) (frame : Frame) : Prop :=
  ∃ ttl, frame.packetBuff = (UnicastPacket.towards dest ttl).bytes ++ payload

/-- What `receive_packet_tap` does with a frame: nothing goes out, or broadcast packets, or one unicast
packet. -/
theorem State.receivePacketTap_cases (s : State p) (g : Garbage p) (tapFrame : List Byte) :
    (∀ frame, Output.rawsockWrite frame ∈ (s.receivePacketTap g tapFrame).2 →
      frame.packetType = batBcast) ∨
    ∃ dest hwAddr router, (s.receivePacketTap g tapFrame).2 = [.rawsockWrite
      ⟨router, hwAddr, (UnicastPacket.towards dest ttlInit).bytes ++ tapRead tapFrame⟩] := by
  unfold State.receivePacketTap
  dsimp only
  split_ifs with hempty hbroadcast
  · refine .inl fun frame hframe => ?_
    cases hframe
  · refine .inl fun frame hframe => ?_
    obtain ⟨batmanIf, _, hout⟩ := List.mem_map.mp hframe
    cases hout
    rfl
  · generalize s.receiveTap (Mac.read (tapRead tapFrame) 6) (Mac.read (tapRead tapFrame) 0) = s'
    generalize (s'.trans.transtableSearch (Mac.read (tapRead tapFrame) 0)).getD broadcastAddr = dest
    rcases s'.sendTowards_cases g dest ((UnicastPacket.towards dest ttlInit).bytes ++ tapRead tapFrame)
      with hnone | ⟨hwAddr, router, hsend⟩
    · refine .inl fun frame hframe => ?_
      rw [UnicastPacket.towards] at hnone
      rw [hnone] at hframe
      cases hframe
    · exact .inr ⟨dest, hwAddr, router, hsend⟩

section Receive

variable {dest : Mac} {payload : List Byte} {frame : Frame} {ttl : Byte}

theorem tapRead_fits (tapFrame : List Byte) :
    unicastPacketSize + (tapRead tapFrame).length < packetBuffLen := by
  have hlen : (tapRead tapFrame).length ≤ packetBuffLen - 1 - batmanMaxpacketsize :=
    List.length_take_le _ _
  have hsizes : unicastPacketSize + (packetBuffLen - 1 - batmanMaxpacketsize) < packetBuffLen := by
    decide
  omega

/-- **A daemon that reads the frame** drops it, writes the payload to its tap, or passes the frame on
with one ttl less. -/
theorem Node.receive_carried (node : Node p) (g : Garbage p)
    (hfits : unicastPacketSize + payload.length < packetBuffLen)
    (hbuff : frame.packetBuff = (UnicastPacket.towards dest ttl).bytes ++ payload) :
    (node.receivePacketBatiface g frame).outs = [] ∨
      frame.dhost ≠ broadcastAddr ∧
        (dest ∈ node.state.hwAddrs ∧ (node.receivePacketBatiface g frame).outs = [.tapWrite payload] ∨
          2 ≤ ttl.toNat ∧ ∃ hwAddr router, (node.receivePacketBatiface g frame).outs =
            [.rawsockWrite
              ⟨router, hwAddr, (UnicastPacket.towards dest (ttl - 1)).bytes ++ payload⟩]) := by
  have hlen : frame.packetBuff.length = unicastPacketSize + payload.length := by
    rw [hbuff, List.length_append, UnicastPacket.length_bytes]
  have hread : frame.rawsockRead = (UnicastPacket.towards dest ttl).bytes ++ payload := by
    rw [Frame.rawsockRead_eq (hlen ▸ hfits), hbuff]
  have houts : (node.receivePacketBatiface g frame).outs = node.state.receiveUnicast g frame := by
    unfold Node.receivePacketBatiface
    rw [hread]
    rfl
  rw [houts]
  unfold State.receiveUnicast
  rw [hread]
  dsimp only
  rw [UnicastPacket.read_bytes, UnicastPacket.drop_bytes]
  split_ifs with hdhost hshost hshort hmine httl
  · exact .inl rfl
  · exact .inl rfl
  · exact .inl rfl
  · exact .inr ⟨hdhost, .inl ⟨isMyMac_eq_true.mp hmine, rfl⟩⟩
  · exact .inl rfl
  · have htwo : 2 ≤ ttl.toNat := two_le_ttl httl
    rcases node.state.sendTowards_cases g dest
      ((UnicastPacket.towards dest (ttl - 1)).bytes ++ payload) with hnone | ⟨hwAddr, router, hsend⟩
    · exact .inl hnone
    · exact .inr ⟨hdhost, .inr ⟨htwo, hwAddr, router, hsend⟩⟩

end Receive

/-! ## In the network -/

/-- A payload is written to a tap. -/
def writesTap (_ : Option Frame) : Output → Bool
  | .rawsockWrite _ => false
  | .tapWrite _ => true
  | .unixWrite _ _ => false

/-- What a payload for `dest` leads to. -/
def Delivers (dest : Mac) (payload : List Byte) (e : Entry (ι × Node p) Frame Output) : Prop :=
  match e.out with
  | .rawsockWrite frame => frame.Carries dest payload
  | .tapWrite buff => dest ∈ e.party.2.state.hwAddrs ∧ buff = payload
  | .unixWrite _ _ => False

/-- The transmissions a frame may still cause. -/
def ttlLeft (frame : Frame) : ℕ := (UnicastPacket.read frame.packetBuff).ttl.toNat - 1

theorem ttlLeft_eq {frame : Frame} {dest : Mac} {payload : List Byte} {ttl : Byte}
    (hbuff : frame.packetBuff = (UnicastPacket.towards dest ttl).bytes ++ payload) :
    ttlLeft frame = ttl.toNat - 1 := by
  unfold ttlLeft
  rw [hbuff, UnicastPacket.read_bytes]
  rfl

section Payload

variable {dest : Mac} {payload : List Byte}

theorem carries_reacts (hfits : unicastPacketSize + payload.length < packetBuffLen) (root : ℕ) :
    Mesh.Reacts (ι := ι) (p := p) (Frame.Carries dest payload) (Delivers dest payload) root := by
  intro i node g frame hcarries out hout
  obtain ⟨ttl, hbuff⟩ := hcarries
  rcases Node.receive_carried node g hfits hbuff with
    hnone | ⟨_, ⟨hmine, hwrite⟩ | ⟨_, hwAddr, router, hsend⟩⟩
  · rw [hnone] at hout
    cases hout
  · rw [hwrite] at hout
    obtain rfl := List.mem_singleton.mp hout
    exact ⟨(fun _ h => by cases h), hmine, rfl⟩
  · rw [hsend] at hout
    obtain rfl := List.mem_singleton.mp hout
    have hcarries : Frame.Carries dest payload
        ⟨router, hwAddr, (UnicastPacket.towards dest (ttl - 1)).bytes ++ payload⟩ := ⟨ttl - 1, rfl⟩
    exact ⟨(fun _ h => by cases h; exact hcarries), hcarries⟩

theorem carries_spends_ttl (hfits : unicastPacketSize + payload.length < packetBuffLen) :
    Mesh.Spends p (Frame.Carries dest payload) transmits ttlLeft := by
  intro node g frame hcarries
  obtain ⟨ttl, hbuff⟩ := hcarries
  rcases Node.receive_carried node g hfits hbuff with
    hnone | ⟨hdhost, ⟨_, hwrite⟩ | ⟨htwo, hwAddr, router, hsend⟩⟩
  · rw [hnone]
    exact ⟨Nat.zero_le _, fun _ => rfl⟩
  · rw [hwrite]
    exact ⟨Nat.zero_le _, fun h => absurd h hdhost⟩
  · rw [hsend]
    refine ⟨?_, fun h => absurd h hdhost⟩
    rw [Mesh.price_transmits, ttlLeft_eq rfl, ttlLeft_eq hbuff, toNat_ttl_sub_one htwo]
    omega

theorem carries_spends_tap (hfits : unicastPacketSize + payload.length < packetBuffLen) :
    Mesh.Spends p (Frame.Carries dest payload) writesTap fun _ => 1 := by
  intro node g frame hcarries
  obtain ⟨ttl, hbuff⟩ := hcarries
  rcases Node.receive_carried node g hfits hbuff with
    hnone | ⟨hdhost, ⟨_, hwrite⟩ | ⟨_, hwAddr, router, hsend⟩⟩
  · rw [hnone]
    exact ⟨Nat.zero_le _, fun _ => rfl⟩
  · rw [hwrite]
    exact ⟨le_rfl, fun h => absurd h hdhost⟩
  · rw [hsend]
    exact ⟨le_rfl, fun h => absurd h hdhost⟩

end Payload

variable [DecidableEq ι] {nodes : ι → Node p} {a b : List (Mesh ι p × MeshEvent ι p)} {u v : Mesh ι p}
  {i : ι} {g : Garbage p}

theorem Mesh.injects_tap (u : Mesh ι p) (i : ι) (g : Garbage p) (tapFrame : List Byte) :
    u.Injects (.tap i g tapFrame) i ((u.nodes i).state.receivePacketTap g tapFrame).2 := by
  intro u' hstep
  cases hstep
  rfl

/-- **A frame of the tap that goes out as unicast** is transmitted `TTL` times at most and written to one
tap at most, as it was read, at a daemon with the destination among its interfaces. -/
theorem unicast_once {tapFrame : List Byte} {frame : Frame}
    (h : Mesh.Run nodes (a ++ (u, .tap i g tapFrame) :: b) v)
    (hframe : Output.rawsockWrite frame ∈ ((u.nodes i).state.receivePacketTap g tapFrame).2)
    (htype : frame.packetType = batUnicast) :
    v.flight.count transmits u.flight.next ≤ ttlInit.toNat ∧
      v.flight.count writesTap u.flight.next ≤ 1 ∧
      ∀ e ∈ v.flight.log, e.root = u.flight.next → ∀ buff, e.out = .tapWrite buff →
        (UnicastPacket.read frame.packetBuff).dest ∈ e.party.2.state.hwAddrs ∧
          buff = tapRead tapFrame := by
  rcases (u.nodes i).state.receivePacketTap_cases g tapFrame with hbcast | ⟨dest, hwAddr, router, houts⟩
  · exact absurd (htype.symm.trans (hbcast frame hframe)) (by decide)
  have hfits := tapRead_fits tapFrame
  have hinjects := u.injects_tap i g tapFrame
  rw [houts] at hframe hinjects
  obtain rfl : frame = _ := Output.rawsockWrite.inj (List.mem_singleton.mp hframe)
  have hfirst : ∀ o ∈ [Output.rawsockWrite
      ⟨router, hwAddr, (UnicastPacket.towards dest ttlInit).bytes ++ tapRead tapFrame⟩],
      (∀ frame, o.sent = some frame → frame.Carries dest (tapRead tapFrame)) ∧
        Delivers dest (tapRead tapFrame)
          (⟨u.flight.next, (i, u.nodes i), none, o⟩ : Entry (ι × Node p) Frame Output) := by
    intro o ho
    obtain rfl := List.mem_singleton.mp ho
    exact ⟨(fun _ h => by cases h; exact ⟨ttlInit, rfl⟩), ⟨ttlInit, rfl⟩⟩
  have hdescend := Mesh.Run.descend h hinjects (carries_reacts hfits _) hfirst
  refine ⟨?_, ?_, fun e he hroot buff hout => ?_⟩
  · exact Mesh.Run.count_le h hinjects (carries_reacts hfits _) (carries_spends_ttl hfits) hfirst
  · exact Mesh.Run.count_le h hinjects (carries_reacts hfits _) (carries_spends_tap hfits) hfirst
  · have hdelivers := hdescend.log e he hroot
    unfold Delivers at hdelivers
    rw [hout] at hdelivers
    rwa [UnicastPacket.read_bytes]

/-! ## A chain of daemons -/

namespace Net

inductive Station where
  | source
  | relay
  | target
  deriving DecidableEq

/-- A daemon with one interface that reaches `addr`, where the host `macC` is, by way of `router`. -/
def daemon (me addr router : Mac) : Node p64 where
  state :=
    { cfg.boot p64 with
      ifList := [cfg.batmanIf me]
      origHash := State.addOrigNode (hashNew 4)
        { OrigNode.new 0 addr with
          router := some 1
          batmanIf := some 0
          neighList := [NeighNode.new 1 router 0 0] }
      trans := ((transtableInit [me] 0 me).transtableAdd [me] 0 macC addr).1 }
  unixPacket _ := none

/-- `source` reaches `target` by way of `relay`. -/
def chain : Station → Node p64
  | .source => daemon me0 macB macA
  | .relay => daemon macA macB macB
  | .target => daemon macB me0 macA

def tapFrame : List Byte := macC.bytes ++ me0.bytes ++ [0x08, 0x00, 0x2a]

def firstFrame : Frame := ⟨macA, me0, (UnicastPacket.towards macB ttlInit).bytes ++ tapRead tapFrame⟩

def alongChain : List (MeshEvent Station p64) :=
  [.tap .source (zeros p64) tapFrame, .receive .relay (zeros p64) 0, .receive .target (zeros p64) 0]

end Net

/-- The frame is transmitted twice, and written to the tap of the daemon it is for. -/
theorem unicast_once_relayed : ∃ tr v, Mesh.Run Net.chain tr v ∧ tr.map Prod.snd = Net.alongChain ∧
    v.flight.count transmits 0 = 2 ∧ v.flight.count writesTap 0 = 1 ∧
    v.flight.count transmits 0 ≤ ttlInit.toNat ∧
    ∀ e ∈ v.flight.log, e.root = 0 → ∀ buff, e.out = .tapWrite buff →
      Net.macB ∈ e.party.2.state.hwAddrs ∧ buff = Net.tapFrame := by
  obtain ⟨tr, v, hrun, hevents, hcheck⟩ := Trace.exists_of_exec
    (q := fun _ (v : Mesh Net.Station Net.p64) =>
      decide (v.flight.count transmits 0 = 2 ∧ v.flight.count writesTap 0 = 1))
    (show (exec Mesh.step (Mesh.start Net.chain) Net.alongChain).any _ = true by decide +kernel)
  obtain ⟨htransmits, htaps⟩ := of_decide_eq_true hcheck
  obtain ⟨⟨u, e⟩, rest, rfl, rfl, hrest⟩ := List.map_eq_cons_iff.mp hevents
  obtain rfl : u = Mesh.start Net.chain := Trace.head_eq hrun
  have hfirst : Output.rawsockWrite Net.firstFrame ∈
      ((Net.chain .source).state.receivePacketTap (Net.zeros Net.p64) Net.tapFrame).2 := by
    decide +kernel
  obtain ⟨hle, _, hdelivered⟩ := unicast_once (a := []) hrun hfirst rfl
  exact ⟨_, v, hrun, hevents, htransmits, htaps, hle, hdelivered⟩

end BatmanAdv
