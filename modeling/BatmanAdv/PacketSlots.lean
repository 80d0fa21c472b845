import BatmanAdv.Echo
import BatmanAdv.UnixListen

/-!
# The slots of `unix_packet`

A client whose `uid` is 0 takes the first free slot with its first packet, and is given its index as
`uid`. The first slot has the index 0, so the client in it still counts as one without a slot: with its
next packet it takes another one, and when it is closed its slot is not cleared. In every other slot there
is a client that is open and has that `uid`, and what arrives for a `uid` goes to the client that used it
last.
-/

namespace BatmanAdv

open Transition ListHeadFirst

namespace UnixListen

/-! ## Definitions -/

/-- The client a pass is at. -/
def current (l : UnixListen) : Option ℕ :=
  match l.walk with
  | some ⟨.entry ptr, _, _⟩ => some ptr
  | _ => none

/-- **Every slot in use belongs to an open client** with its index as `uid`, and no client has two. -/
def SlotsOk (l : UnixListen) : Prop :=
  (∀ u ptr, l.unixPacket u = some ptr → ∃ c ∈ l.clients, c.ptr = ptr ∧ c.uid = u) ∧
    ∀ u v ptr, l.unixPacket u = some ptr → l.unixPacket v = some ptr → u = v

def AtSlotZero (l : UnixListen) : Prop := (l.unixPacket 0).isSome ∧ l.current = l.unixPacket 0

instance (l : UnixListen) : Decidable l.AtSlotZero := inferInstanceAs (Decidable (_ ∧ _))

/-- The client in slot 0 is not closed, and sends no packet while another slot is free. -/
def SlotKept (l : UnixListen) : ListenEvent → Prop
  | .close => ¬ l.AtSlotZero
  | .read buff _ => buff.getD 0 0 = 0x70 → buff.length = icmpPacketSize + 2 → l.freeSlot.isSome →
      ¬ l.AtSlotZero
  | _ => True

instance (l : UnixListen) : DecidablePred l.SlotKept
  | .close => inferInstanceAs (Decidable (¬ l.AtSlotZero))
  | .read buff _ => inferInstanceAs (Decidable (buff.getD 0 0 = 0x70 →
      buff.length = icmpPacketSize + 2 → l.freeSlot.isSome → ¬ l.AtSlotZero))
  | .accept _ _ => .isTrue trivial
  | .pass => .isTrue trivial
  | .skip => .isTrue trivial

/-- `unix_packet` with the clients it points to; `freed` is what is found in memory that is not in use. -/
def packetClients (l : UnixListen) (freed : ℕ → UnixClient) (u : Byte) : Option UnixClient :=
  (l.unixPacket u).map fun ptr => ((l.clientAt ptr).map (·.toUnixClient)).getD (freed ptr)

/-- The `uid` a message is given to `handle_packet` with, and the client that sent it. -/
def requestOf (l : UnixListen) (buff : List Byte) : Option (Byte × ℕ) :=
  if buff.getD 0 0 = 0x70 then
    (l.current.bind l.clientAt).bind fun c => (l.packetCommand c buff).2.map fun uid => (uid, c.ptr)
  else none

end UnixListen

/-- What a step changes about who sent the last packet with a `uid`. -/
def UnixListen.requestStep (sent : Byte → Option ℕ) (l : UnixListen) : ListenEvent → Byte → Option ℕ
  | .read buff _ => (l.requestOf buff).elim sent fun r => Function.update sent r.1 (some r.2)
  | .close => fun u => if sent u = l.current then none else sent u
  | _ => sent

/-- The open client that sent the last packet with a `uid`. -/
def requesters (tr : List (UnixListen × ListenEvent)) : Byte → Option ℕ :=
  tr.foldl (fun sent x => x.1.requestStep sent x.2) fun _ => none

/-- **What arrives for a unix client** is written to the open client that sent the last packet with the
`uid` it carries. -/
def RepliesOk (tr : List (UnixListen × ListenEvent)) (l : UnixListen) : Prop :=
  ∀ (p : Platform) (s : State p) (g : Garbage p) (freed : ℕ → UnixClient) (frame : Frame) (sock : ℕ)
    (buff : List Byte),
    .unixWrite sock buff ∈ ((Node.mk s (l.packetClients freed)).receivePacketBatiface g frame).outs →
    ∃ c ∈ l.clients, c.sock = sock ∧ c.uid = (IcmpPacket.read buff).uid ∧
      requesters tr (IcmpPacket.read buff).uid = some c.ptr

/-! ## What is written to unix clients -/

section Writes

variable {p : Platform} {g : Garbage p} {frame : Frame} {sock : ℕ} {buff : List Byte}

theorem State.not_unixWrite_sendTowards (s : State p) (dest : Mac) (packetBuff : List Byte) :
    .unixWrite sock buff ∉ s.sendTowards g dest packetBuff := by
  intro hmem
  rcases s.sendTowards_cases g dest packetBuff with hnone | ⟨hwAddr, router, hsend⟩
  · rw [hnone] at hmem
    cases hmem
  · rw [hsend] at hmem
    cases List.mem_singleton.mp hmem

theorem State.not_unixWrite_receiveUnicast (s : State p) : .unixWrite sock buff ∉ s.receiveUnicast g frame := by
  unfold State.receiveUnicast
  dsimp only
  split_ifs
  · exact List.not_mem_nil
  · exact List.not_mem_nil
  · exact List.not_mem_nil
  · simp
  · exact List.not_mem_nil
  · exact s.not_unixWrite_sendTowards _ _

theorem State.not_unixWrite_rebroadcast (s : State p) : .unixWrite sock buff ∉ s.rebroadcast frame := by
  simp [State.rebroadcast]

/-- The `uid` is among the bytes that are written. -/
theorem IcmpPacket.uid_read_take (packetBuff : List Byte) :
    (IcmpPacket.read (packetBuff.take icmpPacketSize)).uid = (IcmpPacket.read packetBuff).uid := by
  show (packetBuff.take icmpPacketSize).getD 16 0 = packetBuff.getD 16 0
  rw [List.getD_eq_getElem?_getD, List.getD_eq_getElem?_getD, List.getElem?_take_of_lt (by decide)]

/-- **A daemon writes an ICMP packet to the client in the slot of its `uid`**, and nothing else to a
client. -/
theorem Node.receive_unixWrite {node : Node p}
    (h : .unixWrite sock buff ∈ (node.receivePacketBatiface g frame).outs) :
    ∃ unixClient, node.unixPacket (IcmpPacket.read buff).uid = some unixClient ∧ unixClient.sock = sock := by
  unfold Node.receivePacketBatiface at h
  dsimp only at h
  split_ifs at h
  · cases h
  · cases h
  · cases h
  · exact absurd h (node.state.not_unixWrite_receiveUnicast)
  · change .unixWrite sock buff ∈ node.receiveIcmp g frame at h
    unfold Node.receiveIcmp at h
    dsimp only at h
    split_ifs at h
    · cases h
    · cases h
    · cases h
    · exact absurd h (node.state.not_unixWrite_sendTowards _ _)
    · split at h
      · next unixClient hslot =>
        cases List.mem_singleton.mp h
        rw [IcmpPacket.uid_read_take]
        exact ⟨unixClient, hslot, rfl⟩
      · cases h
    · exact absurd h (node.state.not_unixWrite_sendTowards _ _)
    · cases h
    · exact absurd h (node.state.not_unixWrite_sendTowards _ _)
  · exact absurd h node.state.not_unixWrite_rebroadcast
  · exact absurd h List.not_mem_nil
  · exact absurd h List.not_mem_nil

/-- **`handle_packet`** writes to the client whose message it is, and sends requests with its `uid`. -/
theorem State.handlePacket_outs (s : State p) {unixClient : UnixClient} {out : Output}
    (h : out ∈ s.handlePacket g unixClient buff) :
    (∃ answer, out = .unixWrite unixClient.sock answer) ∨
      ∃ request, out = .rawsockWrite request ∧ request.icmp.uid = unixClient.uid := by
  rcases s.handlePacket_cases g unixClient buff with hnone | hclient | ⟨-, -, -, hwAddr, router, hsend⟩
  · rw [hnone] at h
    cases h
  · rw [hclient] at h
    exact .inl ⟨_, List.mem_singleton.mp h⟩
  · rw [hsend] at h
    refine .inr ⟨_, List.mem_singleton.mp h, ?_⟩
    rw [Frame.icmp_of_write rfl]

end Writes

/-! ## A step -/

namespace UnixListen

variable {l t : UnixListen} {c : ListedClient} {w : UnixWalk} {ptr : ℕ} {buff : List Byte} {xs : List ℕ}
  {info debugLevelMax : ℕ}

theorem current_eq (hwalk : l.walk = some w) (hpos : w.unixPos = .entry ptr) : l.current = some ptr := by
  obtain ⟨pos, posTmp, prev⟩ := w
  dsimp only at hpos
  subst hpos
  unfold current
  rw [hwalk]

theorem atSlotZero_iff (hcurrent : l.current = some ptr) : l.AtSlotZero ↔ l.unixPacket 0 = some ptr := by
  unfold AtSlotZero
  rw [hcurrent]
  constructor
  · rintro ⟨-, h⟩
    exact h.symm
  · intro h
    rw [h]
    exact ⟨rfl, rfl⟩

theorem ClientsOk.slotsOk_iff (h : l.ClientsOk xs) :
    l.SlotsOk ↔ ∀ u ptr, l.unixPacket u = some ptr → ∃ c ∈ l.clients, c.ptr = ptr ∧ c.uid = u := by
  refine and_iff_left_of_imp fun hslots u v ptr hu hv => ?_
  obtain ⟨c, hc, hptr, rfl⟩ := hslots u ptr hu
  obtain ⟨d, hd, hptr', rfl⟩ := hslots v ptr hv
  rw [h.eq_of_ptr hc hd (hptr.trans hptr'.symm)]

theorem SlotsOk.uid_eq (hslots : l.SlotsOk) (h : l.ClientsOk xs) (hc : c ∈ l.clients) {u : Byte}
    (hu : l.unixPacket u = some c.ptr) : c.uid = u := by
  obtain ⟨d, hd, hptr, rfl⟩ := hslots.1 u c.ptr hu
  rw [h.eq_of_ptr hc hd hptr.symm]

theorem freeSlot_eq_some {i : Byte} (h : l.freeSlot = some i) : l.unixPacket i = none := by
  simpa using List.find?_some h

/-- What a packet does to the slots: nothing, or its client takes a free one. -/
theorem packetCommand_cases (l : UnixListen) (c : ListedClient) (buff : List Byte) :
    ((l.packetCommand c buff).1 = l ∧
        ((l.packetCommand c buff).2 = none ∨
          l.unixPacket c.uid = some c.ptr ∧ (l.packetCommand c buff).2 = some c.uid) ∧
        (buff.length = icmpPacketSize + 2 → c.uid = 0 → l.freeSlot = none)) ∨
      ∃ i, buff.length = icmpPacketSize + 2 ∧ c.uid = 0 ∧ l.freeSlot = some i ∧
        (l.packetCommand c buff).1 =
          ({ l with unixPacket := Function.update l.unixPacket i (some c.ptr) }).modClient c.ptr
            (fun x => { x with uid := i }) ∧
        (l.packetCommand c buff).2 = some i := by
  unfold packetCommand takeSlot
  by_cases hlen : buff.length = icmpPacketSize + 2
  · rw [if_pos hlen]
    by_cases huid : c.uid = 0
    · rw [if_pos huid]
      cases hfree : l.freeSlot with
      | none =>
        refine .inl ⟨rfl, ?_, fun _ _ => rfl⟩
        dsimp only
        split_ifs with hslot
        · exact .inr ⟨hslot, rfl⟩
        · exact .inl rfl
      | some i =>
        refine .inr ⟨i, hlen, huid, rfl, rfl, ?_⟩
        exact if_pos (Function.update_self i _ _)
    · rw [if_neg huid]
      refine .inl ⟨rfl, ?_, fun _ h0 => absurd h0 huid⟩
      dsimp only
      split_ifs with hslot
      · exact .inr ⟨hslot, rfl⟩
      · exact .inl rfl
  · rw [if_neg hlen]
    exact .inl ⟨rfl, .inl rfl, fun hlen' => absurd hlen' hlen⟩

/-- A message is a packet, or it leaves the slots and the `uid`s as they are. -/
theorem readClient_cases (h : l.readClient debugLevelMax c buff info = some t) :
    (buff.getD 0 0 = 0x70 ∧ t = (l.packetCommand c buff).1) ∨
      buff.getD 0 0 ≠ 0x70 ∧ t.unixPacket = l.unixPacket ∧ ∃ f : ListedClient → ListedClient,
        t.clients = l.clients.map f ∧ ∀ x, (f x).ptr = x.ptr ∧ (f x).uid = x.uid := by
  unfold readClient at h
  split_ifs at h with hp
  · exact .inl ⟨hp, (Option.some.inj h).symm⟩
  · obtain ⟨hframe, f, hclients⟩ := debugCommand_frame h
    refine .inr ⟨hp, ?_, _, hclients, fun x => ⟨rfl, rfl⟩⟩
    rw [hframe]
  · obtain rfl := Option.some.inj h
    exact .inr ⟨hp, rfl, id, (List.map_id _).symm, fun x => ⟨rfl, rfl⟩⟩

theorem SlotsOk.of_map (hslots : l.SlotsOk) {f : ListedClient → ListedClient}
    (hpacket : t.unixPacket = l.unixPacket) (hclients : t.clients = l.clients.map f)
    (hf : ∀ x, (f x).ptr = x.ptr ∧ (f x).uid = x.uid) : t.SlotsOk := by
  unfold SlotsOk
  rw [hpacket, hclients]
  refine ⟨fun u ptr hu => ?_, hslots.2⟩
  obtain ⟨c, hc, hptr, huid⟩ := hslots.1 u ptr hu
  exact ⟨f c, List.mem_map_of_mem hc, (hf c).1.trans hptr, (hf c).2.trans huid⟩

/-- A client that takes a slot keeps them as they should be, unless it has slot 0. -/
theorem SlotsOk.takeSlot (hslots : l.SlotsOk) (h : l.ClientsOk xs) (hc : c ∈ l.clients) {i : Byte}
    (huid : c.uid = 0) (hfree : l.unixPacket i = none)
    (ht : t = ({ l with unixPacket := Function.update l.unixPacket i (some c.ptr) }).modClient c.ptr
      (fun x => { x with uid := i })) (hok : t.ClientsOk xs) :
    t.SlotsOk ↔ l.unixPacket 0 ≠ some c.ptr := by
  have hpacket : t.unixPacket = Function.update l.unixPacket i (some c.ptr) := by rw [ht]; rfl
  have hclients : t.clients = l.clients.map fun x => if x.ptr = c.ptr then { x with uid := i } else x := by
    rw [ht]
    rfl
  constructor
  · intro hslots' hzero
    have hi : i ≠ 0 := by
      rintro rfl
      rw [hfree] at hzero
      cases hzero
    have hzero' : t.unixPacket 0 = some c.ptr := by
      rw [hpacket, Function.update_of_ne hi.symm]
      exact hzero
    have hnew : t.unixPacket i = some c.ptr := by
      rw [hpacket]
      exact Function.update_self _ _ _
    exact hi (hslots'.2 i 0 c.ptr hnew hzero')
  · intro hzero
    rw [hok.slotsOk_iff]
    intro u ptr hu
    rw [hpacket] at hu
    rw [hclients]
    by_cases hui : u = i
    · subst hui
      rw [Function.update_self] at hu
      cases hu
      refine ⟨{ c with uid := u }, List.mem_map.mpr ⟨c, hc, ?_⟩, rfl, rfl⟩
      rw [if_pos rfl]
    · rw [Function.update_of_ne hui] at hu
      obtain ⟨d, hd, rfl, rfl⟩ := hslots.1 u ptr hu
      refine ⟨d, List.mem_map.mpr ⟨d, hd, if_neg fun hsame => hzero ?_⟩, rfl, rfl⟩
      rw [h.eq_of_ptr hd hc hsame, huid] at hu
      exact hu

/-- A packet keeps the slots as they should be exactly where `SlotKept` says so. -/
theorem SlotsOk.packetCommand (hslots : l.SlotsOk) (h : l.ClientsOk xs) (hc : c ∈ l.clients)
    (hok : (l.packetCommand c buff).1.ClientsOk xs) :
    (l.packetCommand c buff).1.SlotsOk ↔
      (buff.length = icmpPacketSize + 2 → l.freeSlot.isSome → l.unixPacket 0 ≠ some c.ptr) := by
  rcases l.packetCommand_cases c buff with ⟨hsame, -, hfull⟩ | ⟨i, hlen, huid, hfree, htake, -⟩
  · rw [hsame]
    refine iff_of_true hslots fun hlen hsome hzero => ?_
    rw [hfull hlen (hslots.uid_eq h hc hzero)] at hsome
    cases hsome
  · rw [hslots.takeSlot h hc huid (freeSlot_eq_some hfree) htake hok]
    constructor
    · intro hzero _ _
      exact hzero
    · intro hzero
      exact hzero hlen (by rw [hfree]; rfl)

theorem SlotsOk.closeClient (hslots : l.SlotsOk) (h : l.ClientsOk xs) (hc : c ∈ l.clients)
    (hclose : l.closeClient w c = some t) {ys : List ℕ} (hok : t.ClientsOk ys) :
    t.SlotsOk ↔ l.unixPacket 0 ≠ some c.ptr := by
  obtain ⟨-, hclients, hpacket⟩ := closeClient_frame hclose
  have hgone : ∀ x ∈ t.clients, x.ptr ≠ c.ptr := by
    intro x hx
    rw [hclients, List.mem_filter, decide_eq_true_iff] at hx
    exact hx.2
  constructor
  · intro hslots' hzero
    have huid : c.uid = 0 := hslots.uid_eq h hc hzero
    rw [if_neg (not_not.mpr huid)] at hpacket
    obtain ⟨d, hd, hptr, -⟩ := hslots'.1 0 c.ptr (hpacket ▸ hzero)
    exact hgone d hd hptr
  · intro hzero
    rw [hok.slotsOk_iff]
    intro u ptr hu
    have hold : l.unixPacket u = some ptr ∧ ptr ≠ c.ptr := by
      rw [hpacket] at hu
      split_ifs at hu with huid
      · by_cases hsame : u = c.uid
        · subst hsame
          rw [Function.update_self] at hu
          cases hu
        · rw [Function.update_of_ne hsame] at hu
          refine ⟨hu, ?_⟩
          rintro rfl
          exact hsame (hslots.uid_eq h hc hu).symm
      · refine ⟨hu, ?_⟩
        rintro rfl
        rw [not_not, hslots.uid_eq h hc hu] at huid
        exact hzero (huid ▸ hu)
    obtain ⟨d, hd, hptr, rfl⟩ := hslots.1 u ptr hold.1
    refine ⟨d, ?_, hptr, rfl⟩
    rw [hclients, List.mem_filter, decide_eq_true_iff]
    exact ⟨hd, hptr ▸ hold.2⟩

/-- **A step** keeps the slots as they should be exactly when `SlotKept` says so. -/
theorem ListOk.slots_step (h : l.ListOk xs) (hslots : l.SlotsOk) {e : ListenEvent} {l' : UnixListen}
    (hstep : listenStep debugLevelMax l e = some l') : l'.SlotsOk ↔ SlotKept l e := by
  obtain ⟨ys, hok'⟩ := h.step hstep
  have hok := h.toClientsOk
  cases listenStepped hstep with
  | accept ptr sock hwalk hnew =>
    refine iff_of_true ⟨fun u x hu => ?_, hslots.2⟩ trivial
    obtain ⟨c, hc, hptr, huid⟩ := hslots.1 u x hu
    exact ⟨c, List.mem_append_left _ hc, hptr, huid⟩
  | pass hwalk => exact iff_of_true hslots trivial
  | skip w ptr c hwalk hpos hat => exact iff_of_true hslots trivial
  | read w ptr c buff info t hwalk hpos hat hlen hread =>
    obtain ⟨hc, rfl⟩ := clientAt_eq_some hat
    have hzero := atSlotZero_iff (current_eq hwalk hpos)
    change t.SlotsOk ↔ (_ → _ → _ → ¬ l.AtSlotZero)
    rw [hzero]
    rcases readClient_cases hread with ⟨hp, rfl⟩ | ⟨hp, hpacket, f, hclients, hf⟩
    · rw [hslots.packetCommand hok hc (hok.readClient hread)]
      exact ⟨fun hkept _ => hkept, fun hkept => hkept hp⟩
    · exact iff_of_true (hslots.of_map hpacket hclients hf) fun hp' => absurd hp' hp
  | close w ptr c t hwalk hpos hat hclose =>
    obtain ⟨hc, rfl⟩ := clientAt_eq_some hat
    have hzero := atSlotZero_iff (current_eq hwalk hpos)
    change t.SlotsOk ↔ ¬ l.AtSlotZero
    rw [hzero]
    have hok' : t.ClientsOk ys := ⟨hok'.lists, hok'.live, hok'.ptrs, hok'.socks⟩
    exact hslots.closeClient hok hc hclose hok'

/-! ## Who is written to -/

/-- Each client in a slot sent the last packet with that `uid`. -/
def Requested (tr : List (UnixListen × ListenEvent)) (l : UnixListen) : Prop :=
  ∀ u ptr, l.unixPacket u = some ptr → requesters tr u = some ptr

variable {pre : List (UnixListen × ListenEvent)}

theorem requesters_snoc (pre : List (UnixListen × ListenEvent)) (l : UnixListen) (e : ListenEvent) :
    requesters (pre ++ [(l, e)]) = l.requestStep (requesters pre) e := by
  unfold requesters
  rw [List.foldl_append]
  rfl

theorem requestOf_eq (hcurrent : l.current = some ptr) (hat : l.clientAt ptr = some c) :
    l.requestOf buff =
      if buff.getD 0 0 = 0x70 then (l.packetCommand c buff).2.map fun uid => (uid, c.ptr) else none := by
  unfold requestOf
  rw [hcurrent, Option.bind_some, hat, Option.bind_some]

theorem Requested.packetCommand (hreq : Requested pre l) {u : Byte} {ptr' : ℕ}
    (hu : (l.packetCommand c buff).1.unixPacket u = some ptr') :
    (((l.packetCommand c buff).2.map fun uid => (uid, c.ptr)).elim (requesters pre)
      fun r => Function.update (requesters pre) r.1 (some r.2)) u = some ptr' := by
  rcases l.packetCommand_cases c buff with ⟨hsame, hnone | ⟨hslot, huid⟩, -⟩ | ⟨i, -, -, -, htake, huid⟩
  · rw [hsame] at hu
    rw [hnone]
    exact hreq u ptr' hu
  · rw [hsame] at hu
    rw [huid]
    show Function.update (requesters pre) c.uid (some c.ptr) u = some ptr'
    by_cases hsame : u = c.uid
    · subst hsame
      rw [Function.update_self, ← hslot, hu]
    · rw [Function.update_of_ne hsame]
      exact hreq u ptr' hu
  · rw [htake] at hu
    rw [huid]
    change Function.update l.unixPacket i (some c.ptr) u = some ptr' at hu
    show Function.update (requesters pre) i (some c.ptr) u = some ptr'
    by_cases hsame : u = i
    · subst hsame
      rw [Function.update_self] at hu ⊢
      exact hu
    · rw [Function.update_of_ne hsame] at hu ⊢
      exact hreq u ptr' hu

/-- A step that keeps the slots as they should be. -/
theorem Requested.step (hreq : Requested pre l) {e : ListenEvent} {l' : UnixListen} (hslots' : l'.SlotsOk)
    (hstep : listenStep debugLevelMax l e = some l') : Requested (pre ++ [(l, e)]) l' := by
  intro u ptr' hu
  rw [requesters_snoc]
  cases listenStepped hstep with
  | accept ptr sock hwalk hnew => exact hreq u ptr' hu
  | pass hwalk => exact hreq u ptr' hu
  | skip w ptr c hwalk hpos hat => exact hreq u ptr' hu
  | read w ptr c buff info t hwalk hpos hat hlen hread =>
    show ((l.requestOf buff).elim (requesters pre)
      fun r => Function.update (requesters pre) r.1 (some r.2)) u = some ptr'
    rw [requestOf_eq (current_eq hwalk hpos) hat]
    rcases readClient_cases hread with ⟨hp, rfl⟩ | ⟨hp, hpacket, -⟩
    · rw [if_pos hp]
      exact hreq.packetCommand hu
    · rw [if_neg hp]
      exact hreq u ptr' (hpacket ▸ hu)
  | close w ptr c t hwalk hpos hat hclose =>
    obtain ⟨hc, rfl⟩ := clientAt_eq_some hat
    obtain ⟨-, hclients, hpacket⟩ := closeClient_frame hclose
    obtain ⟨d, hd, rfl, -⟩ := hslots'.1 u ptr' hu
    change t.unixPacket u = some d.ptr at hu
    change d ∈ t.clients at hd
    have hne : d.ptr ≠ c.ptr := by
      rw [hclients, List.mem_filter, decide_eq_true_iff] at hd
      exact hd.2
    have hold : l.unixPacket u = some d.ptr := by
      rw [hpacket] at hu
      split_ifs at hu
      · by_cases hsame : u = c.uid
        · subst hsame
          rw [Function.update_self] at hu
          cases hu
        · rwa [Function.update_of_ne hsame] at hu
      · exact hu
    show (if requesters pre u = l.current then none else requesters pre u) = some d.ptr
    rw [hreq u d.ptr hold, current_eq hwalk hpos, if_neg fun hsame => hne (Option.some.inj hsame)]

/-- **Replies** go to who asked, where the slots are as they should be. -/
theorem SlotsOk.repliesOk (hslots : l.SlotsOk) (h : l.ClientsOk xs) (hreq : Requested pre l) :
    RepliesOk pre l := by
  intro p s g freed frame sock buff hwrite
  obtain ⟨unixClient, hslot, rfl⟩ := Node.receive_unixWrite hwrite
  obtain ⟨ptr, hu, hat⟩ := Option.map_eq_some_iff.mp hslot
  obtain ⟨c, hc, rfl, huid⟩ := hslots.1 _ ptr hu
  rw [h.clientAt_ptr hc] at hat
  exact ⟨c, hc, congrArg UnixClient.sock hat, huid, hreq _ c.ptr hu⟩

end UnixListen

variable {cfg : ListenConfig} {tr : List (UnixListen × ListenEvent)} {l : UnixListen}

theorem ListenConfig.boot_slotsOk (cfg : ListenConfig) : cfg.boot.SlotsOk := by
  constructor
  · rintro u ptr ⟨⟩
  · rintro u v ptr ⟨⟩

/-- **Every slot in use belongs to an open client with its `uid`, no client has two, and replies go to who
asked**, all through a run, exactly when the client in slot 0 is not closed, and sends no packet while
another slot is free. -/
theorem slots_iff_slotKept (run : ListenRun cfg tr l) :
    Throughout (fun pre t => t.SlotsOk ∧ RepliesOk pre t) tr l ↔ ∀ x ∈ tr, x.1.SlotKept x.2 := by
  constructor
  · intro hall
    exact (run.forall_iff_good (A := fun l => ∃ xs, l.ListOk xs) (P := UnixListen.SlotsOk)
      ⟨[], cfg.boot_listOk⟩ (fun _ _ _ hok hstep => hok.choose_spec.step hstep) cfg.boot_slotsOk
      fun _ _ _ hok hslots hstep => hok.choose_spec.slots_step hslots hstep).mp
        (hall.states fun _ _ hP => hP.1)
  · intro hkept
    apply run.throughout
    intro pre t hrun hpre
    have hinv : (∃ xs, t.ListOk xs) ∧ t.SlotsOk ∧ UnixListen.Requested pre t := by
      refine hrun.invariant_of_good
        (I := fun pre t => (∃ xs, t.ListOk xs) ∧ t.SlotsOk ∧ UnixListen.Requested pre t)
        (G := fun _ t e => t.SlotKept e) ⟨⟨[], cfg.boot_listOk⟩, cfg.boot_slotsOk, ?_⟩ ?_ ?_
      · rintro u ptr ⟨⟩
      · rintro pre t e u ⟨⟨xs, hok⟩, hslots, hreq⟩ hgood hstep
        have hslots' := (hok.slots_step hslots hstep).mpr hgood
        exact ⟨hok.step hstep, hslots', hreq.step hslots' hstep⟩
      · rintro a x b rfl
        exact hkept x (hpre (by simp))
    obtain ⟨⟨xs, hok⟩, hslots, hreq⟩ := hinv
    exact ⟨hslots, hslots.repliesOk hok.toClientsOk hreq⟩

def Net.packetMessage : List Byte := 0x70 :: 0x3a :: ping

/-- The client in slot 1 sends packets and is closed. -/
theorem slots_secondClient : ∃ tr l, ListenRun ⟨5, 0, by decide, 0⟩ tr l ∧
    tr.map Prod.snd = [.accept 1 5, .accept 2 6, .pass, .read Net.packetMessage 0, .read Net.packetMessage 0,
      .pass, .skip, .read Net.packetMessage 0, .pass, .skip, .close] ∧
    Throughout (fun pre t => t.SlotsOk ∧ RepliesOk pre t) tr l := by
  have hrun : ∃ tr l, ListenRun ⟨5, 0, by decide, 0⟩ tr l ∧
      tr.map Prod.snd = [.accept 1 5, .accept 2 6, .pass, .read Net.packetMessage 0, .read Net.packetMessage 0,
        .pass, .skip, .read Net.packetMessage 0, .pass, .skip, .close] ∧
      tr.all (fun x => x.1.SlotKept x.2) = true := Trace.exists_of_exec (by decide +kernel)
  obtain ⟨tr, l, run, hevents, hkept⟩ := hrun
  refine ⟨tr, l, run, hevents, (slots_iff_slotKept run).mpr fun x hx => ?_⟩
  exact of_decide_eq_true (List.all_eq_true.mp hkept x hx)

/-- A client sends two packets, and has the slots 0 and 1 then. -/
theorem not_always_slotsOk : ¬ ∀ cfg tr l, ListenRun cfg tr l → l.SlotsOk := by
  intro hall
  have hrun : ∃ tr l, ListenRun ⟨5, 0, by decide, 0⟩ tr l ∧
      tr.map Prod.snd = [.accept 1 5, .pass, .read Net.packetMessage 0, .pass, .read Net.packetMessage 0] ∧
      decide (l.unixPacket 0 = some 1 ∧ l.unixPacket 1 = some 1) = true :=
    Trace.exists_of_exec (by decide +kernel)
  obtain ⟨tr, l, run, -, hend⟩ := hrun
  obtain ⟨hzero, hone⟩ := of_decide_eq_true hend
  exact absurd ((hall _ tr l run).2 0 1 1 hzero hone) (by decide)

end BatmanAdv
