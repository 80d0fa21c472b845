import BatmanAdv.Lib.Trace
import BatmanAdv.ListBatman
import BatmanAdv.Receive

/-!
# Unix clients (`unix_listen`)

The thread that serves the unix socket: it accepts clients, and in a pass over `client_list` it reads from
each client whose socket `select` reports. Which sockets these are, what is read and where `malloc` puts
things is left open; one step is one client accepted, or one client of a pass.

`list_del` is told that the list head is the entry before the client it deletes. So closing a client cuts
off every older one that is still in the list.
-/

namespace BatmanAdv

open Transition ListHeadFirst

/-! ## The state -/

/-- A live `struct unix_client`, with its address. -/
structure ListedClient extends UnixClient where
  ptr : ℕ
  debugLevel : Byte
  deriving DecidableEq

/-- A live `struct debug_level_info`, with its address. -/
structure DebugLevelInfo where
  ptr : ℕ
  fd : ℕ
  deriving DecidableEq

/-- `unix_pos`, `unix_pos_tmp` and `prev_list_head_unix`. -/
structure UnixWalk where
  unixPos : ListPtr
  unixPosTmp : ListPtr
  prevListHeadUnix : ListPtr

/-- What `unix_listen` works on. -/
structure UnixListen where
  /-- The clients that are accepted and not closed: those in memory. -/
  clients : List ListedClient
  clientList : ListHeadFirst
  /-- `unix_packet`. -/
  unixPacket : Byte → Option ℕ
  infos : List DebugLevelInfo
  /-- `debug_clients.fd_list`. -/
  fdList : ℤ → ListHeadFirst
  /-- `debug_clients.clients_num`. -/
  clientsNum : ℤ → BitVec 16
  /-- The pass over `client_list`, while one runs. -/
  walk : Option UnixWalk

/-- What happens to the thread. -/
inductive ListenEvent where
  /-- A client is accepted: the address of its structure and its socket. -/
  | accept (ptr sock : ℕ)
  | pass
  /-- Nothing to read from the client at `unix_pos`. -/
  | skip
  /-- The bytes it sent, and where `malloc` puts an entry of `fd_list`. -/
  | read (buff : List Byte) (info : ℕ)
  /-- The end of the file, or an error. -/
  | close

def fdSetsize : ℕ := 1024

def unixBuffSize : ℕ := 50

/-- `(int)debug_level - '1'`. -/
def levelIndex (debugLevel : Byte) : ℤ := debugLevel.toNat - 49

namespace UnixListen

/-! ## The functions -/

def clientAt (l : UnixListen) (ptr : ℕ) : Option ListedClient := l.clients.find? (·.ptr = ptr)

def modClient (l : UnixListen) (ptr : ℕ) (f : ListedClient → ListedClient) : UnixListen :=
  { l with clients := l.clients.map fun c => if c.ptr = ptr then f c else c }

def fdAt (l : UnixListen) (ptr : ℕ) : Option ℕ := (l.infos.find? (·.ptr = ptr)).map (·.fd)

/-- The entry of a client is taken out of the `fd_list` of its level. -/
def removeDebug (l : UnixListen) (unixClient : ListedClient) : Option UnixListen :=
  let level := levelIndex unixClient.debugLevel
  let fdList := l.fdList level
  match fdList.findEntry (fun ptr => l.fdAt ptr = some unixClient.sock) (l.infos.length + 1) .head
      (fdList.next .head) with
  | none => none
  | some none => some l
  | some (some (prevListHead, debugPos)) =>
    some
      { l with
        fdList := Function.update l.fdList level (fdList.listDel prevListHead (.entry debugPos))
        clientsNum := Function.update l.clientsNum level (l.clientsNum level - 1)
        infos := l.infos.filter fun info => info.ptr ≠ debugPos }

/-- A new entry for a client in the `fd_list` of a level; an address in use is not handed out. -/
def addDebug (l : UnixListen) (unixClient : ListedClient) (info : ℕ) (debugLevel : Byte) :
    Option UnixListen :=
  let level := levelIndex debugLevel
  if l.infos.any fun i => i.ptr = info then none
  else
    some <| ({ l with
      infos := ⟨info, unixClient.sock⟩ :: l.infos
      fdList := Function.update l.fdList level ((l.fdList level).listAdd (.entry info))
      clientsNum := Function.update l.clientsNum level (l.clientsNum level + 1) }).modClient
        unixClient.ptr fun c => { c with debugLevel := debugLevel }

/-- A message that starts with `d`. -/
def debugCommand (debugLevelMax : ℕ) (l : UnixListen) (unixClient : ListedClient) (buff : List Byte)
    (info : ℕ) : Option UnixListen :=
  let debugLevel := buff.getD 2 0
  if 2 < buff.length ∧ 48 < debugLevel.toNat ∧ debugLevel.toNat ≤ debugLevelMax + 48 then
    (if unixClient.debugLevel ≠ 0 then l.removeDebug unixClient else some l).bind fun l =>
      if unixClient.debugLevel ≠ debugLevel then l.addDebug unixClient info debugLevel
      else some (l.modClient unixClient.ptr fun c => { c with debugLevel := 0 })
  else some l

/-- The first `NULL` of `unix_packet[0 .. 254]`. -/
def freeSlot (l : UnixListen) : Option Byte :=
  ((List.range 255).map (BitVec.ofNat 8)).find? fun i => (l.unixPacket i).isNone

/-- A client without a `uid` takes a slot of `unix_packet`. -/
def takeSlot (l : UnixListen) (unixClient : ListedClient) : UnixListen × Byte :=
  if unixClient.uid = 0 then
    match l.freeSlot with
    | some i =>
      (({ l with unixPacket := Function.update l.unixPacket i (some unixClient.ptr) }).modClient
        unixClient.ptr fun c => { c with uid := i }, i)
    | none => (l, unixClient.uid)
  else (l, unixClient.uid)

/-- A message that starts with `p`. Returns the `uid` it goes on to `handle_packet` with, if it does. -/
def packetCommand (l : UnixListen) (unixClient : ListedClient) (buff : List Byte) :
    UnixListen × Option Byte :=
  if buff.length = icmpPacketSize + 2 then
    let (l, uid) := l.takeSlot unixClient
    (l, if l.unixPacket uid = some unixClient.ptr then some uid else none)
  else (l, none)

def readClient (debugLevelMax : ℕ) (l : UnixListen) (unixClient : ListedClient) (buff : List Byte)
    (info : ℕ) : Option UnixListen :=
  if buff.getD 0 0 = 0x70 then some (l.packetCommand unixClient buff).1
  else if buff.getD 0 0 = 0x64 then l.debugCommand debugLevelMax unixClient buff info
  else some l

/-- The client at `unix_pos` has closed its connection. -/
def closeClient (l : UnixListen) (w : UnixWalk) (unixClient : ListedClient) : Option UnixListen :=
  (if unixClient.debugLevel ≠ 0 then l.removeDebug unixClient else some l).map fun l =>
    { l with
      unixPacket :=
        if unixClient.uid ≠ 0 then Function.update l.unixPacket unixClient.uid none else l.unixPacket
      clientList := l.clientList.listDel w.prevListHeadUnix w.unixPos
      clients := l.clients.filter fun c => c.ptr ≠ unixClient.ptr }

/-- The test of `list_for_each_safe`. -/
def enter (l : UnixListen) (w : UnixWalk) : UnixListen :=
  { l with walk := if w.unixPos = .head then none else some w }

def startPass (l : UnixListen) : UnixListen :=
  let unixPos := l.clientList.next .head
  l.enter ⟨unixPos, l.clientList.next unixPos, .head⟩

/-- The next round of `list_for_each_safe`. -/
def advance (l : UnixListen) (w : UnixWalk) : UnixListen :=
  l.enter { w with unixPos := w.unixPosTmp, unixPosTmp := l.clientList.next w.unixPosTmp }

/-- An accepted client, zeroed but for its socket. -/
def acceptClient (l : UnixListen) (ptr sock : ℕ) : UnixListen :=
  { l with
    clients := l.clients ++ [{ sock := sock, uid := 0, ptr := ptr, debugLevel := 0 }]
    clientList := l.clientList.listAddTail (.entry ptr) }

/-- What `malloc` and `accept` return: an address that is not in use, and a descriptor that is not open
and that `FD_SET` takes. -/
def Acceptable (l : UnixListen) (ptr sock : ℕ) : Prop :=
  (∀ c ∈ l.clients, c.ptr ≠ ptr ∧ c.sock ≠ sock) ∧ sock ≠ 1 ∧ sock < fdSetsize

instance (l : UnixListen) (ptr sock : ℕ) : Decidable (l.Acceptable ptr sock) :=
  inferInstanceAs (Decidable (_ ∧ _ ∧ _))

end UnixListen

open UnixListen

/-- One step of the thread. -/
def listenStep (debugLevelMax : ℕ) (l : UnixListen) (e : ListenEvent) : Option UnixListen :=
  match l.walk with
  | none =>
    match e with
    | .accept ptr sock => if l.Acceptable ptr sock then some (l.acceptClient ptr sock) else none
    | .pass => some l.startPass
    | _ => none
  | some w =>
    match w.unixPos with
    | .entry ptr =>
      match l.clientAt ptr with
      | none => none
      | some unixClient =>
        match e with
        | .skip => some (l.advance w)
        | .read buff info =>
          if 0 < buff.length ∧ buff.length ≤ unixBuffSize then
            (l.readClient debugLevelMax unixClient buff info).map (·.advance w)
          else none
        | .close => (l.closeClient w unixClient).map (·.advance w)
        | _ => none
    | _ => none

/-- The steps, one case for each event. -/
inductive ListenStepped (debugLevelMax : ℕ) (l : UnixListen) : ListenEvent → UnixListen → Prop
  | accept (ptr sock : ℕ) (hwalk : l.walk = none) (hnew : l.Acceptable ptr sock) :
      ListenStepped debugLevelMax l (.accept ptr sock) (l.acceptClient ptr sock)
  | pass (hwalk : l.walk = none) : ListenStepped debugLevelMax l .pass l.startPass
  | skip (w : UnixWalk) (ptr : ℕ) (c : ListedClient) (hwalk : l.walk = some w)
      (hpos : w.unixPos = .entry ptr) (hat : l.clientAt ptr = some c) :
      ListenStepped debugLevelMax l .skip (l.advance w)
  | read (w : UnixWalk) (ptr : ℕ) (c : ListedClient) (buff : List Byte) (info : ℕ) (t : UnixListen)
      (hwalk : l.walk = some w) (hpos : w.unixPos = .entry ptr) (hat : l.clientAt ptr = some c)
      (hlen : 0 < buff.length ∧ buff.length ≤ unixBuffSize)
      (hread : l.readClient debugLevelMax c buff info = some t) :
      ListenStepped debugLevelMax l (.read buff info) (t.advance w)
  | close (w : UnixWalk) (ptr : ℕ) (c : ListedClient) (t : UnixListen) (hwalk : l.walk = some w)
      (hpos : w.unixPos = .entry ptr) (hat : l.clientAt ptr = some c)
      (hclose : l.closeClient w c = some t) : ListenStepped debugLevelMax l .close (t.advance w)

theorem listenStepped {debugLevelMax : ℕ} {l l' : UnixListen} {e : ListenEvent}
    (h : listenStep debugLevelMax l e = some l') : ListenStepped debugLevelMax l e l' := by
  unfold listenStep at h
  split at h
  · next hwalk =>
    cases e with
    | accept ptr sock =>
      dsimp only at h
      split_ifs at h with hnew
      cases h
      exact .accept ptr sock hwalk hnew
    | pass =>
      cases h
      exact .pass hwalk
    | skip => cases h
    | read buff info => cases h
    | close => cases h
  · next w hwalk =>
    split at h
    · next ptr hpos =>
      split at h
      · cases h
      · next c hat =>
        cases e with
        | accept ptr sock => cases h
        | pass => cases h
        | skip =>
          cases h
          exact .skip w ptr c hwalk hpos hat
        | read buff info =>
          dsimp only at h
          split_ifs at h with hlen
          obtain ⟨t, hread, rfl⟩ := Option.map_eq_some_iff.mp h
          exact .read w ptr c buff info t hwalk hpos hat hlen hread
        | close =>
          obtain ⟨t, hclose, rfl⟩ := Option.map_eq_some_iff.mp h
          exact .close w ptr c t hwalk hpos hat hclose
    · cases h

/-- What the daemon is started with: the number of debug levels, its own level (0 for none) and the
address of the entry for its own output. -/
structure ListenConfig where
  debugLevelMax : ℕ
  debugLevel : ℕ
  debugLevel_le : debugLevel ≤ debugLevelMax
  info : ℕ

namespace ListenConfig

variable (cfg : ListenConfig)

/-- The index of the daemon's own level. -/
def ownLevel : ℤ := cfg.debugLevel - 1

/-- **The state `unix_listen` enters its loop in**; without a daemonized start the own output is the first
entry of its level. -/
def boot : UnixListen where
  clients := []
  clientList := .init
  unixPacket _ := none
  infos := if cfg.debugLevel = 0 then [] else [⟨cfg.info, 1⟩]
  fdList :=
    if cfg.debugLevel = 0 then fun _ => .init
    else Function.update (fun _ => .init) cfg.ownLevel (ListHeadFirst.init.listAdd (.entry cfg.info))
  clientsNum :=
    if cfg.debugLevel = 0 then fun _ => 0 else Function.update (fun _ => 0) cfg.ownLevel 1
  walk := none

end ListenConfig

abbrev ListenRun (cfg : ListenConfig) (tr : List (UnixListen × ListenEvent)) (l : UnixListen) : Prop :=
  Trace (listenStep cfg.debugLevelMax) cfg.boot tr l

/-! ## What the functions leave alone -/

namespace UnixListen

variable {l t : UnixListen} {c : ListedClient} {w : UnixWalk} {buff : List Byte} {info debugLevelMax : ℕ}

theorem removeDebug_frame (h : l.removeDebug c = some t) :
    t = { l with fdList := t.fdList, clientsNum := t.clientsNum, infos := t.infos } := by
  unfold removeDebug at h
  dsimp only at h
  split at h
  · cases h
  · cases h
    rfl
  · cases h
    rfl

theorem removed_frame (h : (if c.debugLevel ≠ 0 then l.removeDebug c else some l) = some t) :
    t = { l with fdList := t.fdList, clientsNum := t.clientsNum, infos := t.infos } := by
  split_ifs at h
  · exact removeDebug_frame h
  · cases h
    rfl

theorem removed_infos (h : (if c.debugLevel ≠ 0 then l.removeDebug c else some l) = some t) :
    t.infos ⊆ l.infos := by
  split_ifs at h
  · unfold removeDebug at h
    dsimp only at h
    split at h
    · cases h
    · cases h
      exact List.Subset.refl _
    · cases h
      exact List.filter_subset_self _
  · cases h
    exact List.Subset.refl _

theorem addDebug_frame {debugLevel : Byte} (h : l.addDebug c info debugLevel = some t) :
    t = { l with fdList := t.fdList, clientsNum := t.clientsNum, infos := t.infos, clients := t.clients } ∧
      t.clients = (l.modClient c.ptr fun x => { x with debugLevel := debugLevel }).clients := by
  unfold addDebug at h
  dsimp only at h
  split_ifs at h
  cases h
  exact ⟨rfl, rfl⟩

/-- A level of a message is not valid, or the entry of the client is taken out; another level gets a new
one. -/
theorem debugCommand_cases (h : l.debugCommand debugLevelMax c buff info = some t) :
    t = l ∨ ∃ t1, (if c.debugLevel ≠ 0 then l.removeDebug c else some l) = some t1 ∧
      ((∃ debugLevel : Byte, 48 < debugLevel.toNat ∧ debugLevel.toNat ≤ debugLevelMax + 48 ∧
          t1.addDebug c info debugLevel = some t) ∨
        t = t1.modClient c.ptr fun x => { x with debugLevel := 0 }) := by
  unfold debugCommand at h
  dsimp only at h
  by_cases hvalid : 2 < buff.length ∧ 48 < (buff.getD 2 0).toNat ∧
      (buff.getD 2 0).toNat ≤ debugLevelMax + 48
  · rw [if_pos hvalid] at h
    obtain ⟨t1, hremoved, h⟩ := Option.bind_eq_some_iff.mp h
    refine .inr ⟨t1, hremoved, ?_⟩
    by_cases hlevel : c.debugLevel ≠ buff.getD 2 0
    · rw [if_pos hlevel] at h
      exact .inl ⟨_, hvalid.2.1, hvalid.2.2, h⟩
    · rw [if_neg hlevel] at h
      exact .inr (Option.some.inj h).symm
  · rw [if_neg hvalid] at h
    exact .inl (Option.some.inj h).symm

theorem modClient_debugLevel (l : UnixListen) (ptr : ℕ) (debugLevel : Byte) :
    (l.modClient ptr fun x => { x with debugLevel := debugLevel }).clients =
      l.clients.map fun x => { x with debugLevel := if x.ptr = ptr then debugLevel else x.debugLevel } := by
  apply List.map_congr_left
  intro x _
  by_cases hx : x.ptr = ptr
  · simp only [if_pos hx]
  · simp only [if_neg hx]

theorem debugCommand_frame (h : l.debugCommand debugLevelMax c buff info = some t) :
    t = { l with fdList := t.fdList, clientsNum := t.clientsNum, infos := t.infos, clients := t.clients } ∧
      ∃ f : ListedClient → Byte, t.clients = l.clients.map fun x => { x with debugLevel := f x } := by
  rcases debugCommand_cases h with rfl | ⟨t1, hremoved, ⟨debugLevel, -, -, hadd⟩ | rfl⟩
  · exact ⟨rfl, fun x => x.debugLevel, (List.map_id _).symm⟩
  · have hframe := removed_frame hremoved
    have hclients : t1.clients = l.clients := by rw [hframe]
    obtain ⟨hframe', hclients'⟩ := addDebug_frame hadd
    refine ⟨?_, fun x => if x.ptr = c.ptr then debugLevel else x.debugLevel, ?_⟩
    · rw [hframe', hframe]
    · rw [hclients', modClient_debugLevel, hclients]
  · have hframe := removed_frame hremoved
    have hclients : t1.clients = l.clients := by rw [hframe]
    refine ⟨?_, fun x => if x.ptr = c.ptr then 0 else x.debugLevel, ?_⟩
    · rw [hframe]
      rfl
    · rw [modClient_debugLevel, hclients]

theorem packetCommand_frame (l : UnixListen) (c : ListedClient) (buff : List Byte) :
    (l.packetCommand c buff).1 = { l with
        unixPacket := (l.packetCommand c buff).1.unixPacket
        clients := (l.packetCommand c buff).1.clients } ∧
      ∃ f : ListedClient → Byte,
        (l.packetCommand c buff).1.clients = l.clients.map fun x => { x with uid := f x } := by
  have hsame : ∃ f : ListedClient → Byte, l.clients = l.clients.map fun x => { x with uid := f x } :=
    ⟨fun x => x.uid, (List.map_id _).symm⟩
  unfold packetCommand takeSlot
  split_ifs with hlen huid
  · cases l.freeSlot with
    | none => exact ⟨rfl, hsame⟩
    | some i =>
      refine ⟨rfl, fun x => if x.ptr = c.ptr then i else x.uid, ?_⟩
      apply List.map_congr_left
      intro x _
      by_cases hx : x.ptr = c.ptr
      · simp only [if_pos hx]
      · simp only [if_neg hx]
  · exact ⟨rfl, hsame⟩
  · exact ⟨rfl, hsame⟩

/-- Reading from a client changes no list of clients, no address and no socket. -/
theorem readClient_frame (h : l.readClient debugLevelMax c buff info = some t) :
    t.clientList = l.clientList ∧ t.walk = l.walk ∧ ∃ f : ListedClient → ListedClient,
      t.clients = l.clients.map f ∧ ∀ x, (f x).ptr = x.ptr ∧ (f x).sock = x.sock := by
  unfold readClient at h
  split_ifs at h
  · cases h
    obtain ⟨hframe, f, hclients⟩ := l.packetCommand_frame c buff
    refine ⟨?_, ?_, _, hclients, fun x => ⟨rfl, rfl⟩⟩
    · rw [hframe]
    · rw [hframe]
  · obtain ⟨hframe, f, hclients⟩ := debugCommand_frame h
    refine ⟨?_, ?_, _, hclients, fun x => ⟨rfl, rfl⟩⟩
    · rw [hframe]
    · rw [hframe]
  · cases h
    exact ⟨rfl, rfl, id, (List.map_id _).symm, fun x => ⟨rfl, rfl⟩⟩

theorem closeClient_frame (h : l.closeClient w c = some t) :
    t.clientList = l.clientList.listDel w.prevListHeadUnix w.unixPos ∧
      t.clients = (l.clients.filter fun x => x.ptr ≠ c.ptr) ∧
      t.unixPacket = (if c.uid ≠ 0 then Function.update l.unixPacket c.uid none else l.unixPacket) := by
  unfold closeClient at h
  obtain ⟨t1, hremoved, rfl⟩ := Option.map_eq_some_iff.mp h
  have hframe := removed_frame hremoved
  rw [hframe]
  exact ⟨rfl, rfl, rfl⟩

theorem clientAt_eq_some {ptr : ℕ} (h : l.clientAt ptr = some c) : c ∈ l.clients ∧ c.ptr = ptr :=
  ⟨List.mem_of_find?_eq_some h, by simpa using List.find?_some h⟩

/-! ## The list of clients -/

/-- `client_list` holds entries that are in memory; addresses and sockets are different. -/
structure ClientsOk (l : UnixListen) (xs : List ℕ) : Prop where
  lists : l.clientList.Lists xs
  live : ∀ ptr ∈ xs, ptr ∈ l.clients.map (·.ptr)
  ptrs : (l.clients.map (·.ptr)).Nodup
  socks : (l.clients.map (·.sock)).Nodup

/-- A pass is at an entry of the list, knows the next one, and takes the head for the one before. -/
def WalkOk (xs : List ℕ) (w : UnixWalk) : Prop :=
  w.prevListHeadUnix = .head ∧
    ∃ a ptr b, xs = a ++ ptr :: b ∧ w.unixPos = .entry ptr ∧ w.unixPosTmp = firstPtr b

/-- **The invariant of the list**, whatever has been cut off. -/
structure ListOk (l : UnixListen) (xs : List ℕ) : Prop extends ClientsOk l xs where
  walk : ∀ w, l.walk = some w → WalkOk xs w

/-- **`client_list` holds exactly the clients that are accepted and not closed.** -/
def Listed (l : UnixListen) : Prop :=
  ∃ xs, l.clientList.Lists xs ∧ ∀ ptr, ptr ∈ xs ↔ ptr ∈ l.clients.map (·.ptr)

variable {xs a b : List ℕ} {ptr sock : ℕ}

theorem ClientsOk.listed_iff (h : l.ClientsOk xs) :
    l.Listed ↔ ∀ ptr, ptr ∈ xs ↔ ptr ∈ l.clients.map (·.ptr) := by
  constructor
  · rintro ⟨ys, hlists, hys⟩
    rwa [← h.lists.unique hlists] at hys
  · intro hxs
    exact ⟨xs, h.lists, hxs⟩

theorem ClientsOk.eq_of_ptr (h : l.ClientsOk xs) {x y : ListedClient} (hx : x ∈ l.clients)
    (hy : y ∈ l.clients) (heq : x.ptr = y.ptr) : x = y :=
  List.inj_on_of_nodup_map h.ptrs hx hy heq

theorem ClientsOk.eq_of_sock (h : l.ClientsOk xs) {x y : ListedClient} (hx : x ∈ l.clients)
    (hy : y ∈ l.clients) (heq : x.sock = y.sock) : x = y :=
  List.inj_on_of_nodup_map h.socks hx hy heq

theorem ClientsOk.clientAt_ptr (h : l.ClientsOk xs) (hc : c ∈ l.clients) : l.clientAt c.ptr = some c := by
  cases hat : l.clientAt c.ptr with
  | none => exact absurd (List.find?_eq_none.mp hat c hc) (by simp)
  | some d =>
    obtain ⟨hd, hptr⟩ := clientAt_eq_some hat
    rw [h.eq_of_ptr hd hc hptr]

theorem ListOk.current (h : l.ListOk xs) (hwalk : l.walk = some w) (hpos : w.unixPos = .entry ptr) :
    w.prevListHeadUnix = .head ∧ ∃ a b, xs = a ++ ptr :: b ∧ w.unixPosTmp = firstPtr b := by
  obtain ⟨hprev, a, x, b, hsplit, hpos', hnext⟩ := h.walk w hwalk
  rw [hpos] at hpos'
  cases hpos'
  exact ⟨hprev, a, b, hsplit, hnext⟩

/-- A round of `list_for_each_safe` starts at an entry, or the pass ends. -/
theorem ClientsOk.enter (h : l.ClientsOk (a ++ b)) {w : UnixWalk} (hprev : w.prevListHeadUnix = .head)
    (hpos : w.unixPos = firstPtr b) (hnext : w.unixPosTmp = l.clientList.next w.unixPos) :
    (l.enter w).ListOk (a ++ b) := by
  refine ⟨⟨h.lists, h.live, h.ptrs, h.socks⟩, fun w' hw => ?_⟩
  change (if w.unixPos = .head then none else some w) = some w' at hw
  split_ifs at hw with hhead
  cases hw
  cases b with
  | nil => exact absurd hpos hhead
  | cons ptr b => exact ⟨hprev, a, ptr, b, rfl, hpos, hnext.trans (hpos ▸ h.lists.next_entry)⟩

theorem ClientsOk.startPass (h : l.ClientsOk xs) : l.startPass.ListOk xs :=
  ClientsOk.enter (a := []) h rfl h.lists.next_head rfl

theorem ClientsOk.advance (h : l.ClientsOk (a ++ b)) (hprev : w.prevListHeadUnix = .head)
    (hnext : w.unixPosTmp = firstPtr b) : (l.advance w).ListOk (a ++ b) :=
  h.enter hprev hnext rfl

theorem ListOk.acceptClient (h : l.ListOk xs) (hwalk : l.walk = none) (hnew : l.Acceptable ptr sock) :
    (l.acceptClient ptr sock).ListOk (xs ++ [ptr]) := by
  obtain ⟨hfresh, -⟩ := hnew
  have hptr : ptr ∉ l.clients.map (·.ptr) := by
    intro hmem
    obtain ⟨c, hc, rfl⟩ := List.mem_map.mp hmem
    exact (hfresh c hc).1 rfl
  have hsock : sock ∉ l.clients.map (·.sock) := by
    intro hmem
    obtain ⟨c, hc, rfl⟩ := List.mem_map.mp hmem
    exact (hfresh c hc).2 rfl
  refine ⟨⟨h.lists.listAddTail fun hmem => hptr (h.live ptr hmem), ?_, ?_, ?_⟩, fun w hw => ?_⟩
  · intro x hx
    rw [UnixListen.acceptClient, List.map_append]
    exact List.mem_append.mpr ((List.mem_append.mp hx).imp_left (h.live x))
  · rw [UnixListen.acceptClient, List.map_append]
    exact h.ptrs.append (List.nodup_singleton ptr) (by simpa using hptr)
  · rw [UnixListen.acceptClient, List.map_append]
    exact h.socks.append (List.nodup_singleton sock) (by simpa using hsock)
  · exact absurd (hwalk.symm.trans hw) (by simp)

theorem readClient_ptrs (h : l.readClient debugLevelMax c buff info = some t) :
    t.clients.map (·.ptr) = l.clients.map (·.ptr) ∧ t.clients.map (·.sock) = l.clients.map (·.sock) := by
  obtain ⟨-, -, f, hclients, hf⟩ := readClient_frame h
  rw [hclients, List.map_map, List.map_map]
  exact ⟨List.map_congr_left fun x _ => (hf x).1, List.map_congr_left fun x _ => (hf x).2⟩

theorem ClientsOk.readClient (h : l.ClientsOk xs) (hread : l.readClient debugLevelMax c buff info = some t) :
    t.ClientsOk xs := by
  obtain ⟨hlist, -, -⟩ := readClient_frame hread
  obtain ⟨hptrs, hsocks⟩ := readClient_ptrs hread
  exact ⟨hlist ▸ h.lists, hptrs ▸ h.live, hptrs ▸ h.ptrs, hsocks ▸ h.socks⟩

theorem closeClient_ptrs (h : l.closeClient w c = some t) :
    t.clients.map (·.ptr) = (l.clients.map (·.ptr)).filter (· ≠ c.ptr) := by
  rw [(closeClient_frame h).2.1, List.filter_map]
  rfl

/-- **Closing a client** leaves what is behind it in the list. -/
theorem ClientsOk.closeClient (h : l.ClientsOk (a ++ c.ptr :: b)) (hprev : w.prevListHeadUnix = .head)
    (hpos : w.unixPos = .entry c.ptr) (hclose : l.closeClient w c = some t) : t.ClientsOk b := by
  obtain ⟨hlist, hclients, -⟩ := closeClient_frame hclose
  have hsub : t.clients.Sublist l.clients := hclients ▸ List.filter_sublist
  have hnodup := (List.nodup_append.mp h.lists.nodup).2.1
  refine ⟨?_, fun ptr hptr => ?_, h.ptrs.sublist (hsub.map _), h.socks.sublist (hsub.map _)⟩
  · rw [hlist, hprev, hpos]
    exact Lists.listDel (a := []) h.lists
  · rw [closeClient_ptrs hclose, List.mem_filter, decide_eq_true_iff]
    refine ⟨h.live ptr (by simp [hptr]), ?_⟩
    rintro rfl
    exact (List.nodup_cons.mp hnodup).1 hptr

/-- **A step** keeps the invariant of the list. -/
theorem ListOk.step (h : l.ListOk xs) {e : ListenEvent} {l' : UnixListen}
    (hstep : listenStep debugLevelMax l e = some l') : ∃ ys, l'.ListOk ys := by
  cases listenStepped hstep with
  | accept ptr sock hwalk hnew => exact ⟨_, h.acceptClient hwalk hnew⟩
  | pass hwalk => exact ⟨_, h.toClientsOk.startPass⟩
  | skip w ptr c hwalk hpos hat =>
    obtain ⟨hprev, a, b, rfl, hnext⟩ := h.current hwalk hpos
    have hok : l.ClientsOk ((a ++ [ptr]) ++ b) := by simpa using h.toClientsOk
    exact ⟨_, hok.advance hprev hnext⟩
  | read w ptr c buff info t hwalk hpos hat hlen hread =>
    obtain ⟨hprev, a, b, rfl, hnext⟩ := h.current hwalk hpos
    have hok : l.ClientsOk ((a ++ [ptr]) ++ b) := by simpa using h.toClientsOk
    exact ⟨_, (hok.readClient hread).advance hprev hnext⟩
  | close w ptr c t hwalk hpos hat hclose =>
    obtain ⟨hc, rfl⟩ := clientAt_eq_some hat
    obtain ⟨hprev, a, b, rfl, hnext⟩ := h.current hwalk hpos
    exact ⟨_, ClientsOk.advance (a := []) (h.closeClient hprev hpos hclose) hprev hnext⟩

end UnixListen

variable {cfg : ListenConfig} {tr : List (UnixListen × ListenEvent)} {l : UnixListen}

theorem ListenConfig.boot_listOk (cfg : ListenConfig) : cfg.boot.ListOk [] := by
  refine ⟨⟨lists_init, by simp, List.nodup_nil, List.nodup_nil⟩, fun w hw => ?_⟩
  cases hw

/-! ## Closing clients -/

/-- The addresses of the clients that a run accepted and has not closed. -/
def openClients (tr : List (UnixListen × ListenEvent)) : List ℕ :=
  tr.foldl (fun ptrs x => match x.2 with
    | .accept ptr _ => ptrs ++ [ptr]
    | .close => ptrs.filter fun ptr => x.1.walk.map (·.unixPos) ≠ some (.entry ptr)
    | _ => ptrs) []

theorem ListenRun.map_ptr_clients (run : ListenRun cfg tr l) : l.clients.map (·.ptr) = openClients tr := by
  refine run.invariant (I := fun tr l => l.clients.map (·.ptr) = openClients tr) rfl ?_
  intro pre t e u ih hstep
  unfold openClients at ih ⊢
  rw [List.foldl_append, ← ih]
  cases listenStepped hstep with
  | accept ptr sock hwalk hnew => exact List.map_append
  | pass hwalk => rfl
  | skip w ptr c hwalk hpos hat => rfl
  | read w ptr c buff info t' hwalk hpos hat hlen hread => exact (readClient_ptrs hread).1
  | close w ptr c t' hwalk hpos hat hclose =>
    obtain ⟨-, rfl⟩ := clientAt_eq_some hat
    refine (closeClient_ptrs hclose).trans ?_
    apply List.filter_congr
    intro x _
    rw [hwalk, Option.map_some, hpos]
    simp [eq_comm]

/-- A closed client was the first in `client_list`. -/
def FirstClosed (l : UnixListen) : ListenEvent → Prop
  | .close => l.walk.map (·.unixPos) = some (l.clientList.next .head)
  | _ => True

instance (l : UnixListen) : DecidablePred (FirstClosed l)
  | .close => inferInstanceAs (Decidable (l.walk.map (·.unixPos) = some (l.clientList.next .head)))
  | .accept _ _ => .isTrue trivial
  | .pass => .isTrue trivial
  | .skip => .isTrue trivial
  | .read _ _ => .isTrue trivial

/-- **A step** takes the clients it closes off the list, and no other, exactly when they are first in it. -/
theorem UnixListen.ListOk.listed_step {xs : List ℕ} {debugLevelMax : ℕ} {e : ListenEvent} {l' : UnixListen}
    (h : l.ListOk xs) (hlisted : l.Listed) (hstep : listenStep debugLevelMax l e = some l') :
    l'.Listed ↔ FirstClosed l e := by
  rw [h.listed_iff] at hlisted
  have hkept : ∀ t : UnixListen, t.clientList = l.clientList → t.clients.map (·.ptr) = l.clients.map (·.ptr) →
      t.Listed := by
    intro t hlist hptrs
    refine ⟨xs, hlist ▸ h.lists, ?_⟩
    rwa [hptrs]
  cases listenStepped hstep with
  | accept ptr sock hwalk hnew =>
    have hnew' := (h.acceptClient hwalk hnew).toClientsOk
    refine iff_of_true (hnew'.listed_iff.mpr fun x => ?_) trivial
    rw [UnixListen.acceptClient, List.map_append, List.mem_append, List.mem_append, hlisted]
    rfl
  | pass hwalk => exact iff_of_true (hkept _ rfl rfl) trivial
  | skip w ptr c hwalk hpos hat => exact iff_of_true (hkept _ rfl rfl) trivial
  | read w ptr c buff info t hwalk hpos hat hlen hread =>
    have hlist : t.clientList = l.clientList := (readClient_frame hread).1
    exact iff_of_true (hkept _ hlist (readClient_ptrs hread).1) trivial
  | close w ptr c t hwalk hpos hat hclose =>
    obtain ⟨hc, rfl⟩ := clientAt_eq_some hat
    obtain ⟨hprev, a, b, rfl, hnext⟩ := h.current hwalk hpos
    have hclosed := h.toClientsOk.closeClient hprev hpos hclose
    have hnodup := List.nodup_append.mp h.lists.nodup
    -- what is before the closed client is cut off
    have hcut : (t.advance w).Listed ↔ a = [] := by
      have hadvanced := (ClientsOk.advance (a := []) hclosed hprev hnext).toClientsOk
      rw [hadvanced.listed_iff]
      change (∀ ptr, ptr ∈ b ↔ ptr ∈ t.clients.map (·.ptr)) ↔ a = []
      rw [closeClient_ptrs hclose]
      constructor
      · intro hall
        apply List.eq_nil_iff_forall_not_mem.mpr
        intro y hy
        have hyc : y ≠ c.ptr := hnodup.2.2 y hy c.ptr List.mem_cons_self
        have hyb : y ∈ b := (hall y).mpr (by simpa [hyc] using (hlisted y).mp (by simp [hy]))
        exact hnodup.2.2 y hy y (List.mem_cons_of_mem _ hyb) rfl
      · rintro rfl y
        rw [List.mem_filter, ← hlisted, List.nil_append, List.mem_cons, decide_eq_true_iff]
        constructor
        · intro hy
          refine ⟨.inr hy, ?_⟩
          rintro rfl
          exact (List.nodup_cons.mp hnodup.2.1).1 hy
        · rintro ⟨rfl | hy, hne⟩
          · exact absurd rfl hne
          · exact hy
    rw [hcut]
    change a = [] ↔ l.walk.map (·.unixPos) = some (l.clientList.next .head)
    rw [hwalk, Option.map_some, hpos, h.lists.next_head, Option.some_inj]
    cases a with
    | nil => exact iff_of_true rfl rfl
    | cons y a =>
      refine iff_of_false (by simp) ?_
      rintro ⟨⟩
      exact hnodup.2.2 c.ptr List.mem_cons_self c.ptr List.mem_cons_self rfl

/-- **`client_list` holds exactly the clients that are accepted and not closed**, all through a run, exactly
when every client that is closed is the first in the list. -/
theorem listed_iff_firstClosed (run : ListenRun cfg tr l) :
    ((∀ x ∈ tr, x.1.Listed) ∧ l.Listed) ↔ ∀ x ∈ tr, FirstClosed x.1 x.2 :=
  run.forall_iff_good (A := fun l => ∃ xs, l.ListOk xs) (P := UnixListen.Listed) ⟨[], cfg.boot_listOk⟩
    (fun _ _ _ hok hstep => hok.choose_spec.step hstep) ⟨[], lists_init, by simp [ListenConfig.boot]⟩
    fun _ _ _ hok hlisted hstep => hok.choose_spec.listed_step hlisted hstep

/-- Two clients, closed one after the other from the front. -/
theorem listed_closedInOrder : ∃ tr l, ListenRun ⟨5, 0, by decide, 0⟩ tr l ∧
    tr.map Prod.snd = [.accept 1 5, .accept 2 6, .pass, .close, .close] ∧
    (∀ x ∈ tr, x.1.Listed) ∧ l.Listed := by
  have hrun : ∃ tr l, ListenRun ⟨5, 0, by decide, 0⟩ tr l ∧
      tr.map Prod.snd = [.accept 1 5, .accept 2 6, .pass, .close, .close] ∧
      tr.all (fun x => FirstClosed x.1 x.2) = true := Trace.exists_of_exec (by decide +kernel)
  obtain ⟨tr, l, run, hevents, hclosed⟩ := hrun
  refine ⟨tr, l, run, hevents, (listed_iff_firstClosed run).mpr fun x hx => ?_⟩
  exact of_decide_eq_true (List.all_eq_true.mp hclosed x hx)

/-- Two clients, and the one that came last is closed: the list is empty then. -/
theorem not_always_listed : ¬ ∀ cfg tr l, ListenRun cfg tr l → l.Listed := by
  intro hall
  have hrun : ∃ tr l, ListenRun ⟨5, 0, by decide, 0⟩ tr l ∧
      tr.map Prod.snd = [.accept 1 5, .accept 2 6, .pass, .skip, .close] ∧
      decide (l.clientList.next .head = .head ∧ 1 ∈ l.clients.map (·.ptr)) = true :=
    Trace.exists_of_exec (by decide +kernel)
  obtain ⟨tr, l, run, -, hend⟩ := hrun
  obtain ⟨hhead, hopen⟩ := of_decide_eq_true hend
  obtain ⟨xs, hlists, hxs⟩ := hall _ tr l run
  obtain rfl : xs = [] := firstPtr_eq_head (hlists.next_head.symm.trans hhead)
  exact absurd ((hxs 1).mpr hopen) List.not_mem_nil

end BatmanAdv
