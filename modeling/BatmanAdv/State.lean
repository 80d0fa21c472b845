import BatmanAdv.BitArray
import BatmanAdv.Hash
import BatmanAdv.RingBuffer

/-!
# The state of the daemon (`batman-adv.h`)

The structures of `batman-adv.h` and `trans_table.h` and the globals that hold them. Objects the
source allocates carry the number of their allocation (`ptr`), which stands for their address;
numbers are not used twice, so that a pointer to a freed object never becomes valid again. A
`struct batman_if *` is the interface's `if_num`, its place in `if_list`.
-/

namespace BatmanAdv

variable (p : Platform)

structure NeighNode where
  ptr : ℕ
  addr : Mac
  realPacketCount : Byte
  tqRecv : TqRecv
  tqIndex : Byte
  tqAvg : Byte
  lastTtl : Byte
  lastValid : Time
  realBits : p.SeqBits
  /-- The originator entry of `addr`, a pointer. -/
  origNode : ℕ
  ifIncoming : ℕ

/-- `struct orig_node`. Its `hna_list` is in `TransTable.hnaLists`. -/
structure OrigNode where
  ptr : ℕ
  orig : Mac
  router : Option ℕ
  batmanIf : Option ℕ
  lastValid : Time
  lastBcastSeqno : Seqno
  hnaBuff : Option (List Byte)
  hnaBuffLen : ℕ
  neighList : List (NeighNode p)
  gwflags : Byte
  /-- `bcast_own`, by interface. -/
  bcastOwn : ℕ → p.SeqBits
  bcastOwnSum : ℕ → Byte
  tqOwn : Byte
  tqAsymPenalty : ℤ
  lastRealSeqno : Seqno
  lastTtl : Byte
  seqBits : p.SeqBits

/-- `struct forw_node`; `pack_buff` is an OGM and the HNA bytes behind it. -/
structure ForwNode where
  ptr : ℕ
  sendTime : Time
  own : Bool
  pack : BatmanPacket
  packHna : List Byte
  ifOutgoing : ℕ
  deriving DecidableEq

structure GwNode where
  origNode : ℕ
  unavailFactor : ℕ
  lastFailure : Time
  deleted : Time

structure BatmanIf where
  hwAddr : Mac
  bcastSeqno : Seqno
  out : BatmanPacket

structure TransElement where
  ptr : ℕ
  mac : Mac
  batmanMac : Mac
  age : Time

/-- A list head: the global `hna_list`, or that of an originator entry. -/
inductive HnaHead where
  | own
  | orig (ptr : ℕ)
  deriving DecidableEq

/-- The globals of `trans_table.c`. -/
structure TransTable where
  transHash : Hashtable TransElement
  /-- The elements linked in each list, in its order. -/
  hnaLists : HnaHead → List ℕ
  hnaChanged : Bool
  numHna : ℕ
  hnaBuff : List Byte
  nextElem : ℕ

/-- The globals of `batman-adv.c`, and how far a call of `send_outstanding_packets` has come. -/
structure State where
  ifList : List BatmanIf
  origHash : Hashtable (OrigNode p)
  trans : TransTable
  gwList : List GwNode
  forwList : List ForwNode
  /-- Inside `send_outstanding_packets`: its `curr_time` and `forw_pos`, `none` being the head. -/
  walk : Option (Time × Option ℕ)
  nextPtr : ℕ
  currTime : Time
  originatorInterval : BitVec 16
  tapMtu : ℤ

/-- What the memory the code reads without owning it holds: freed neighbours, the `bcast_own_sum` of
freed originators by interface, and the words in front of the windows of an object. -/
structure Garbage where
  neigh : ℕ → NeighNode p
  bcastOwnSum : ℕ → ℕ → Byte
  front : ℕ → ℕ → p.Word

variable {p}

/-! ## Hashing by address (`originator.c`) -/

/-- One round of the loop of `choose_orig`. -/
def chooseStep (hash : BitVec 32) (key : Byte) : BitVec 32 :=
  let hash := hash + key.setWidth 32
  let hash := hash + (hash <<< 10)
  hash ^^^ (hash >>> 6)

def chooseOrig (data : Mac) (size : ℕ) : ℕ :=
  let hash := data.bytes.foldl chooseStep 0
  let hash := hash + (hash <<< 3)
  let hash := hash ^^^ (hash >>> 11)
  let hash := hash + (hash <<< 15)
  hash.toNat % size

def macCallbacks : HashCallbacks Mac where
  compare a b := a == b
  choose := chooseOrig

theorem macCallbacks_lawful : macCallbacks.Lawful where
  refl a := beq_self_eq_true a
  symm a b h := by simp [macCallbacks] at h ⊢; exact h.symm
  trans a b c hab hbc := by simp [macCallbacks] at hab hbc ⊢; exact hab.trans hbc
  choose_congr a b size h := by simp [macCallbacks] at h; rw [h]
  choose_lt _ _ hsize := Nat.mod_lt _ hsize

@[simp] theorem macCallbacks_compare (a b : Mac) : macCallbacks.compare a b = (a == b) := rfl

/-! ## Interfaces -/

def State.hwAddrs (s : State p) : List Mac := s.ifList.map BatmanIf.hwAddr

def isMyMac (hwAddrs : List Mac) (addr : Mac) : Bool := hwAddrs.any fun hwAddr => hwAddr == addr

@[simp] theorem isMyMac_eq_true {hwAddrs : List Mac} {addr : Mac} :
    isMyMac hwAddrs addr = true ↔ addr ∈ hwAddrs := by
  simp [isMyMac]

/-! ## Originator entries -/

namespace State

/-- The originator entries, in the order of `hash_iterate`. -/
def origs (s : State p) : List (OrigNode p) := s.origHash.buckets

def orig? (s : State p) (ptr : ℕ) : Option (OrigNode p) := s.origs.find? (·.ptr = ptr)

def modOrig (s : State p) (ptr : ℕ) (f : OrigNode p → OrigNode p) : State p :=
  { s with origHash := s.origHash.map fun o => if o.ptr = ptr then f o else o }

def bcastOwnSum (s : State p) (g : Garbage p) (ptr ifNum : ℕ) : Byte :=
  match s.orig? ptr with
  | some o => o.bcastOwnSum ifNum
  | none => g.bcastOwnSum ptr ifNum

variable {s : State p} {ptr : ℕ} {f : OrigNode p → OrigNode p}

theorem origs_modOrig :
    (s.modOrig ptr f).origs = s.origs.map fun o => if o.ptr = ptr then f o else o :=
  Hashtable.buckets_map _ _

theorem mem_origs_modOrig {o : OrigNode p} :
    o ∈ (s.modOrig ptr f).origs ↔ ∃ o' ∈ s.origs, (if o'.ptr = ptr then f o' else o') = o := by
  rw [origs_modOrig, List.mem_map]

@[simp] theorem modOrig_ifList : (s.modOrig ptr f).ifList = s.ifList := rfl
@[simp] theorem modOrig_hwAddrs : (s.modOrig ptr f).hwAddrs = s.hwAddrs := rfl
@[simp] theorem modOrig_trans : (s.modOrig ptr f).trans = s.trans := rfl
@[simp] theorem modOrig_gwList : (s.modOrig ptr f).gwList = s.gwList := rfl
@[simp] theorem modOrig_forwList : (s.modOrig ptr f).forwList = s.forwList := rfl
@[simp] theorem modOrig_walk : (s.modOrig ptr f).walk = s.walk := rfl
@[simp] theorem modOrig_nextPtr : (s.modOrig ptr f).nextPtr = s.nextPtr := rfl
@[simp] theorem modOrig_currTime : (s.modOrig ptr f).currTime = s.currTime := rfl

end State

end BatmanAdv
