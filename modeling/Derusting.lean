import Derusting.Foundations.Transition
import Derusting.Foundations.Bounded
import Derusting.Foundations.Text
import Derusting.Foundations.Cyclic
import Derusting.Foundations.Permits
import Derusting.Foundations.Regions
import Derusting.Foundations.Entries
import Derusting.Foundations.Mutex
import Derusting.Foundations.Serializer
import Derusting.Foundations.Reader
import Derusting.Foundations.Doorbell
import Derusting.Ring.Kinds
import Derusting.Ring.Tasks
import Derusting.Ring.Reception
import Derusting.Ring.Duplicates
import Derusting.Ring.Presence
import Derusting.Ring.Succession
import Derusting.Ring.Network
import Derusting.Ring.Holder
import Derusting.Ring.Order
import Derusting.Ring.Address
import Derusting.Ring.Ready
import Derusting.Ring.WellFormed
import Derusting.Ring.Takeover
import Derusting.Ring.Acceptance
import Derusting.Ring.Token
import Derusting.Ring.Retention
import Derusting.Ring.Rotation
import Derusting.Lwip.Tcp
import Derusting.Lwip.Ownership
import Derusting.Lwip.EndOfStream
import Derusting.Lwip.Window
import Derusting.Lwip.Stream
import Derusting.Lwip.Listener
import Derusting.Lwip.PacketBuffer
import Derusting.Lwip.UdpSocket
import Derusting.Lwip.CoreLock
import Derusting.Lwip.Alloc
import Derusting.Http.Storage
import Derusting.Http.Request
import Derusting.Http.Fields
import Derusting.Http.Head
import Derusting.Http.CleanUsb
import Derusting.Lwip.Put
import Derusting.Lwip.Outcome
import Derusting.Lwip.Exchange
import Derusting.Lwip.Release
import Derusting.Http.Upload
import Derusting.Http.Stored
import Derusting.Http.Worker
import Derusting.Http.Booking
import Derusting.Http.Chunks
import Derusting.Ring.Datagram
import Derusting.Ring.Broadcast
import Derusting.Ring.Wire
import Derusting.Ring.Packets
import Derusting.Ring.Firmware
import Derusting.Ring.Locks
import Derusting.Ring.Interleaving
import Derusting.Ring.TaskRing
import Derusting.Ring.Distribution
import Derusting.Http.Segmentation
import Derusting.Http.Replication
import Derusting.Ring.Fleet
import Derusting.FreeRtos.TimeDriver
import Derusting.FreeRtos.Executor
import Derusting.Hardware.Rng
import Derusting.Hardware.Marlin
