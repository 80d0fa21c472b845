import BatmanAdv.Packet

/-!
# Packets (`packet.h`) and the frames that carry them

The headers of unicast, ICMP, broadcast and originator packets as they lie in a frame. A payload packet
is changed in place: its header is read from the front of the buffer, and a changed header is written
back over it.
-/

namespace BatmanAdv

/-! ## Constants -/

def batIcmp : Byte := 2

def batUnicast : Byte := 3

def batBcast : Byte := 4

def echoReply : Byte := 0

def destinationUnreachable : Byte := 3

def echoRequest : Byte := 8

def ttlExceeded : Byte := 11

def unicastPacketSize : ℕ := 9

def icmpPacketSize : ℕ := 19

def batmanMaxpacketsize : ℕ := max unicastPacketSize bcastPacketSize

/-- The buffer `batman()` receives packets in. -/
def packetBuffLen : ℕ := 2000

/-! ## Headers -/

/-- `ntohs` of the two bytes at `buff[at]`. -/
def readSeqno (buff : List Byte) (at_ : ℕ) : Seqno := buff.getD at_ 0 ++ buff.getD (at_ + 1) 0

def seqnoBytes (seqno : Seqno) : List Byte := [seqno.extractLsb' 8 8, seqno.extractLsb' 0 8]

structure UnicastPacket where
  packetType : Byte
  version : Byte
  dest : Mac
  ttl : Byte
  deriving DecidableEq

structure IcmpPacket where
  packetType : Byte
  version : Byte
  msgType : Byte
  dst : Mac
  orig : Mac
  ttl : Byte
  uid : Byte
  seqno : Seqno
  deriving DecidableEq

structure BcastPacket where
  packetType : Byte
  version : Byte
  orig : Mac
  seqno : Seqno
  deriving DecidableEq

namespace UnicastPacket

def bytes (h : UnicastPacket) : List Byte := [h.packetType, h.version] ++ h.dest.bytes ++ [h.ttl]

def read (buff : List Byte) : UnicastPacket :=
  ⟨buff.getD 0 0, buff.getD 1 0, Mac.read buff 2, buff.getD 8 0⟩

/-- `buff` with this header over its front. -/
def write (h : UnicastPacket) (buff : List Byte) : List Byte := h.bytes ++ buff.drop unicastPacketSize

theorem length_bytes (h : UnicastPacket) : h.bytes.length = unicastPacketSize := rfl

theorem read_bytes (h : UnicastPacket) (payload : List Byte) : read (h.bytes ++ payload) = h := rfl

theorem drop_bytes (h : UnicastPacket) (payload : List Byte) :
    (h.bytes ++ payload).drop unicastPacketSize = payload := rfl

end UnicastPacket

namespace IcmpPacket

def bytes (h : IcmpPacket) : List Byte :=
  [h.packetType, h.version, h.msgType] ++ h.dst.bytes ++ h.orig.bytes ++ [h.ttl, h.uid] ++
    seqnoBytes h.seqno

def read (buff : List Byte) : IcmpPacket :=
  ⟨buff.getD 0 0, buff.getD 1 0, buff.getD 2 0, Mac.read buff 3, Mac.read buff 9, buff.getD 15 0,
    buff.getD 16 0, readSeqno buff 17⟩

def write (h : IcmpPacket) (buff : List Byte) : List Byte := h.bytes ++ buff.drop icmpPacketSize

theorem length_bytes (h : IcmpPacket) : h.bytes.length = icmpPacketSize := rfl

theorem read_bytes (h : IcmpPacket) (rest : List Byte) : read (h.bytes ++ rest) = h := by
  have hseqno : readSeqno (h.bytes ++ rest) 17 = h.seqno := BitVec.extractLsb'_append_extractLsb'
  unfold read
  rw [hseqno]
  rfl

theorem read_write (h : IcmpPacket) (buff : List Byte) : read (h.write buff) = h := read_bytes h _

end IcmpPacket

namespace BcastPacket

def bytes (h : BcastPacket) : List Byte :=
  [h.packetType, h.version] ++ h.orig.bytes ++ seqnoBytes h.seqno

def read (buff : List Byte) : BcastPacket :=
  ⟨buff.getD 0 0, buff.getD 1 0, Mac.read buff 2, readSeqno buff 8⟩

end BcastPacket

namespace BatmanPacket

/-- An OGM in a frame, its `seqno` in network order. -/
def bytes (pkt : BatmanPacket) : List Byte :=
  [pkt.packetType, pkt.version, pkt.flags, pkt.ttl, pkt.gwflags, pkt.tq] ++ seqnoBytes pkt.seqno ++
    pkt.orig.bytes ++ pkt.oldOrig.bytes ++ [pkt.numHna, pkt.pad]

def read (buff : List Byte) : BatmanPacket :=
  ⟨buff.getD 0 0, buff.getD 1 0, buff.getD 2 0, buff.getD 3 0, buff.getD 4 0, buff.getD 5 0,
    readSeqno buff 6, Mac.read buff 8, Mac.read buff 14, buff.getD 20 0, buff.getD 21 0⟩

theorem length_bytes (pkt : BatmanPacket) : pkt.bytes.length = batmanPacketSize := rfl

theorem read_bytes (pkt : BatmanPacket) (hna : List Byte) : read (pkt.bytes ++ hna) = pkt := by
  have hseqno : readSeqno (pkt.bytes ++ hna) 6 = pkt.seqno := BitVec.extractLsb'_append_extractLsb'
  unfold read
  rw [hseqno]
  rfl

end BatmanPacket

/-! ## Frames -/

/-- A frame of type `ETH_P_BATMAN`: the addresses of its `struct ether_header`, and what follows. -/
structure Frame where
  dhost : Mac
  shost : Mac
  packetBuff : List Byte
  deriving DecidableEq

namespace Frame

/-- What `rawsock_read` stores of a frame. -/
def rawsockRead (frame : Frame) : List Byte := frame.packetBuff.take (packetBuffLen - 1)

def packetType (frame : Frame) : Byte := frame.packetBuff.getD 0 0

def version (frame : Frame) : Byte := frame.rawsockRead.getD 1 0

theorem rawsockRead_eq {frame : Frame} (hlen : frame.packetBuff.length < packetBuffLen) :
    frame.rawsockRead = frame.packetBuff :=
  List.take_of_length_le (Nat.le_pred_of_lt hlen)

end Frame

end BatmanAdv
