import TinyTcp.Lib.Run
import TinyTcp.Lib.Wrap32
import TinyTcp.Ring.Queue
import TinyTcp.Ring.QueueTheorems
import TinyTcp.Ring.QueueInvariant
import TinyTcp.Ring.QueueDelivery
import TinyTcp.Ring.SingleProducer
import TinyTcp.Ring.Occupancy
import TinyTcp.Ring.Sequential
import TinyTcp.Lib.Fifo
import TinyTcp.Lib.FlatFile
import TinyTcp.Pkt.Manager
import TinyTcp.Pkt.Blocks
import TinyTcp.Pkt.Cursor
import TinyTcp.Pkt.World
import TinyTcp.Pkt.Access
import TinyTcp.Pkt.AccessRefinement
import TinyTcp.Pkt.Layout
import TinyTcp.Pkt.Conservation
import TinyTcp.Pkt.Resize
import TinyTcp.Pkt.ContHeader
import TinyTcp.Pkt.Keeps
import TinyTcp.Pkt.Coherence
import TinyTcp.Net.LinkLayer
import TinyTcp.Net.Netif
import TinyTcp.Net.Framing
import TinyTcp.Net.RoundTrip
import TinyTcp.Net.Ownership
import TinyTcp.Lib.Claims
import TinyTcp.Lib.OrderedSet
import TinyTcp.Net.RecvPath
import TinyTcp.Net.Inventory
import TinyTcp.Net.RecvLeak
import TinyTcp.Timers.Manager
import TinyTcp.Timers.SetInvariant
import TinyTcp.Timers.Ordered
import TinyTcp.Timers.Alarm
import TinyTcp.Timers.Record
import TinyTcp.Timers.Delivery
import TinyTcp.Timers.WakeUp
import TinyTcp.Msg.Exmsg
import TinyTcp.Msg.Ledger
import TinyTcp.Msg.Moves
import TinyTcp.Msg.Ownership
import TinyTcp.Msg.Lost
import TinyTcp.Msg.Announce
import TinyTcp.Pkt.Fixed
import TinyTcp.Pkt.RefCount
import TinyTcp.Pkt.Rounds
import TinyTcp.Pkt.Behind
import TinyTcp.Pkt.StaysBehind
import TinyTcp.Pkt.FailedHeader
import TinyTcp.Pkt.ResizeExact
import TinyTcp.Net.ArpRequest
import TinyTcp.Net.Transmit
import TinyTcp.Net.DefaultNetif
import TinyTcp.Lib.Pool
import TinyTcp.Mem.MemBlock
import TinyTcp.Pkt.StartUp
import TinyTcp.Timers.Expired
import TinyTcp.Lib.Related
import TinyTcp.Pkt.Carried
import TinyTcp.Pkt.Agree
import TinyTcp.Pkt.Recycled
import TinyTcp.Lib.Parties
import TinyTcp.Ring.Length
import TinyTcp.Ring.FullTest
import TinyTcp.Ring.Refusals
import TinyTcp.Lib.Decimal
import TinyTcp.Pkt.Shortage
import TinyTcp.Net.IpAddr
import TinyTcp.Net.Loopback
import TinyTcp.Net.Teardown
import TinyTcp.Net.LateClear
import TinyTcp.Timers.Handles
import TinyTcp.Lib.CString
import TinyTcp.Net.FindNetif
import TinyTcp.Net.Capture
import TinyTcp.Log.Formatter
import TinyTcp.Log.Pattern
import TinyTcp.Log.Logger
import TinyTcp.Config.ConfigVar
import TinyTcp.Lib.Loop
import TinyTcp.Log.Defines
import TinyTcp.Pkt.Windows
import TinyTcp.Pkt.Reconfigure
import TinyTcp.Lib.Document
import TinyTcp.Config.Registry
import TinyTcp.Log.DefineCast
import TinyTcp.Log.Output
import TinyTcp.Log.Reload
import TinyTcp.Msg.Drain
import TinyTcp.Msg.Callbacks
import TinyTcp.Stack.TimerPath
import TinyTcp.Lib.Locking
import TinyTcp.Sync.LockOrder
import TinyTcp.Sync.Thread
import TinyTcp.Sync.ThreadInvariant
import TinyTcp.Sync.ThreadJoin
import TinyTcp.Sync.ThreadLife
import TinyTcp.Lib.SortedList
import TinyTcp.Config.Containers
import TinyTcp.Msg.Flush
import TinyTcp.Stack.Delivery
import TinyTcp.Lib.Linearizable
import TinyTcp.Ring.Linear
