import BatmanAdv.Announcement
import BatmanAdv.Batman
import BatmanAdv.BitArray
import BatmanAdv.ClientReader
import BatmanAdv.DebugLevels
import BatmanAdv.DebugOutput
import BatmanAdv.Delivery
import BatmanAdv.Echo
import BatmanAdv.Evidence
import BatmanAdv.FloodFilter
import BatmanAdv.ForwardOnce
import BatmanAdv.ForwardTtl
import BatmanAdv.Forwarding
import BatmanAdv.Frame
import BatmanAdv.Gateways
import BatmanAdv.Genuine
import BatmanAdv.Hash
import BatmanAdv.HashIterate
import BatmanAdv.HashMap
import BatmanAdv.HashPointers
import BatmanAdv.HeardBack
import BatmanAdv.HnaBuffers
import BatmanAdv.HnaTables
import BatmanAdv.HnaUpdate
import BatmanAdv.HopQuality
import BatmanAdv.Interfaces
import BatmanAdv.LastWrites
import BatmanAdv.Lib.CInt
import BatmanAdv.Lib.Chain
import BatmanAdv.Lib.Circular
import BatmanAdv.Lib.Flight
import BatmanAdv.Lib.Handles
import BatmanAdv.Lib.Parties
import BatmanAdv.Lib.Seq
import BatmanAdv.Lib.Trace
import BatmanAdv.LinkQuality
import BatmanAdv.ListBatman
import BatmanAdv.ListCalls
import BatmanAdv.Mesh
import BatmanAdv.Moves
import BatmanAdv.NeighWrites
import BatmanAdv.NeighborRef
import BatmanAdv.Network
import BatmanAdv.OgmBounds
import BatmanAdv.OgmMoves
import BatmanAdv.OrigTable
import BatmanAdv.Originator
import BatmanAdv.OwnAddress
import BatmanAdv.OwnEcho
import BatmanAdv.Packet
import BatmanAdv.PacketSlots
import BatmanAdv.Pings
import BatmanAdv.Purge
import BatmanAdv.PurgeClock
import BatmanAdv.Ranking
import BatmanAdv.Reachable
import BatmanAdv.Rebroadcast
import BatmanAdv.Receive
import BatmanAdv.ReceiveCycle
import BatmanAdv.ReceptionWindow
import BatmanAdv.RingBuffer
import BatmanAdv.RouterLive
import BatmanAdv.Routes
import BatmanAdv.Schedule
import BatmanAdv.SendOrder
import BatmanAdv.SendQueue
import BatmanAdv.SeqWindow
import BatmanAdv.SeqnoWrap
import BatmanAdv.State
import BatmanAdv.TqHistory
import BatmanAdv.TransTable
import BatmanAdv.TwoWay
import BatmanAdv.Unicast
import BatmanAdv.UnixListen
import BatmanAdv.Update
import BatmanAdv.Version
import BatmanAdv.VisNetwork
import BatmanAdv.VisPacket
import BatmanAdv.WindowBits
import BatmanAdv.Windows
