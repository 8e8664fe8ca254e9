import LinuxIpc.Lib.Transition
import LinuxIpc.Lib.Family
import LinuxIpc.Lib.Simulation
import LinuxIpc.Lib.Trace
import LinuxIpc.Lib.Multicast
import LinuxIpc.Lib.Race
import LinuxIpc.Lib.Critical
import LinuxIpc.Pth1.Counter
import LinuxIpc.PthMutex.Printed
import LinuxIpc.ProdCons.Sections
import LinuxIpc.ProdCons.Wakeup
import LinuxIpc.Lib.Heap
import LinuxIpc.Lib.Slots
import LinuxIpc.ProdCons.Nodes
import LinuxIpc.ProdCons.Ownership
import LinuxIpc.ProdCons.Refinement
import LinuxIpc.ProdCons.Termination
import LinuxIpc.PthSem.Loop
import LinuxIpc.PthSem.Marker
import LinuxIpc.Lib.Buffer
import LinuxIpc.Lib.Decimal
import LinuxIpc.Lib.Fifo
import LinuxIpc.Lib.MsgQueue
import LinuxIpc.UdpChat.Server
import LinuxIpc.UdpChat.Members
import LinuxIpc.TcpChat.Table
import LinuxIpc.TcpChat.Interleaving
import LinuxIpc.TcpChat.Orderly
import LinuxIpc.TcpChat.Arrival
import LinuxIpc.TcpChat.Departure
import LinuxIpc.TcpChat.Integrity
import LinuxIpc.TcpChat.Serial
import LinuxIpc.TcpChat.Handover
import LinuxIpc.TcpChat.TotalOrder
import LinuxIpc.Lib.Relay
import LinuxIpc.TcpChat.Backpressure
import LinuxIpc.Procon.Loop
import LinuxIpc.Procon.Stock
import LinuxIpc.Procon.Sequential
import LinuxIpc.Procon.Served
import LinuxIpc.Procon.Shortage
import LinuxIpc.Procon.Feed
import LinuxIpc.Procon.Liveness
import LinuxIpc.Procon.Admin
import LinuxIpc.Procon.Owing
import LinuxIpc.Procon.Agreement
import LinuxIpc.Procon.MutualWait
import LinuxIpc.QueueChat.Room
import LinuxIpc.QueueChat.Conservation
import LinuxIpc.QueueChat.Delivery
import LinuxIpc.QueueChat.Order
import LinuxIpc.QueueChat.Membership
import LinuxIpc.QueueChat.Overtaking
import LinuxIpc.QueueChat.Bounded
import LinuxIpc.QueueChat.Jam
import LinuxIpc.TcpChat.Roster
import LinuxIpc.TcpChat.Residue
import LinuxIpc.UdpChat.Residue
import LinuxIpc.Lib.Framing
import LinuxIpc.TcpChat.Session
import LinuxIpc.Lib.Stdin
import LinuxIpc.Lib.ArrayStack
import LinuxIpc.Lib.Signed
import LinuxIpc.UdpChat.Client
import LinuxIpc.UdpChat.RoundTrip
import LinuxIpc.FifoChat.Loop
import LinuxIpc.FifoChat.Exit
import LinuxIpc.FifoChat.Printed
import LinuxIpc.Lib.Rendezvous
import LinuxIpc.FifoChat.Opening
import LinuxIpc.FifoChat.Roles
import LinuxIpc.FifoChat.Blocking
import LinuxIpc.TcpChat.Broadcast
import LinuxIpc.TcpChat.Bound
import LinuxIpc.QueueChat.Pieces
import LinuxIpc.UdpChat.Unlink
import LinuxIpc.UdpChat.Name
import LinuxIpc.UdpChat.Network
import LinuxIpc.SlotChat.Admission
import LinuxIpc.SlotChat.Handler
import LinuxIpc.SlotChat.Handoff
import LinuxIpc.SlotChat.Globals
import LinuxIpc.SlotChat.Isolation
import LinuxIpc.TcpTalk.Transcript
import LinuxIpc.TcpTest.Dialogue
import LinuxIpc.Procon.Listing
import LinuxIpc.EchoServer.Worker
import LinuxIpc.EchoServer.Service
import LinuxIpc.Gdb.AddRange
