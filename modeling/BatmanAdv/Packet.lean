import Mathlib.Data.Nat.Notation

/-!
# Constants, addresses and packets

The constants of `batman-adv.h` and `packet.h`, the hardware addresses and the originator message
(OGM) `struct batman_packet`. Machine integers are bit vectors of the code's own widths.
-/

namespace BatmanAdv

abbrev Byte := BitVec 8

/-- A sequence number, `uint16_t`. -/
abbrev Seqno := BitVec 16

/-- A clock reading in milliseconds, `uint32_t`. -/
abbrev Time := BitVec 32

/-! ## Constants -/

def jitter : Time := 100

def ttlInit : Byte := 50

def purgeTimeout : Time := 200000

def tqMaxValue : ℕ := 255

def tqLocalWindowSize : ℕ := 64

def tqGlobalWindowSize : ℕ := 10

def tqLocalBidrectSendMinimum : ℕ := 1

def tqLocalBidrectRecvMinimum : ℕ := 1

def tqTotalBidrectLimit : ℕ := 1

def tqHopPenalty : ℕ := 10

def ageThreshold : Time := 3600000

def compatVersion : Byte := 6

def batPacket : Byte := 1

def directlink : Byte := 0x40

def batmanPacketSize : ℕ := 22

def bcastPacketSize : ℕ := 10

def ethAlen : ℕ := 6

/-- `BATMAN_MAXFRAMESIZE`: an ethernet header and the larger of the two payload headers. -/
def batmanMaxframesize : ℕ := 14 + 10

/-! ## Hardware addresses -/

/-- `uint8_t[6]`, compared as a whole with `memcmp`. -/
structure Mac where
  b0 : Byte
  b1 : Byte
  b2 : Byte
  b3 : Byte
  b4 : Byte
  b5 : Byte
  deriving DecidableEq

namespace Mac

def bytes (mac : Mac) : List Byte := [mac.b0, mac.b1, mac.b2, mac.b3, mac.b4, mac.b5]

/-- The six bytes at `buff[at]`. -/
def read (buff : List Byte) (at_ : ℕ) : Mac :=
  ⟨buff.getD at_ 0, buff.getD (at_ + 1) 0, buff.getD (at_ + 2) 0, buff.getD (at_ + 3) 0,
    buff.getD (at_ + 4) 0, buff.getD (at_ + 5) 0⟩

end Mac

def broadcastAddr : Mac := ⟨0xff, 0xff, 0xff, 0xff, 0xff, 0xff⟩

def zeroAddr : Mac := ⟨0, 0, 0, 0, 0, 0⟩

def isBroadcastAddress (dstAddr : Mac) : Bool := dstAddr == broadcastAddr

def isMulticastAddress (dstAddr : Mac) : Bool :=
  dstAddr.b0 == 0x01 && dstAddr.b1 == 0x00 && dstAddr.b2 == 0x5e && (dstAddr.b3 &&& 0x80 == 0)

/-! ## Originator messages -/

structure BatmanPacket where
  packetType : Byte
  version : Byte
  flags : Byte
  ttl : Byte
  gwflags : Byte
  tq : Byte
  seqno : Seqno
  orig : Mac
  oldOrig : Mac
  numHna : Byte
  pad : Byte
  deriving DecidableEq

end BatmanAdv
