import LinuxSocket.Lib.Incremental
import LinuxSocket.Memcached.LastWrite
import LinuxSocket.Memcached.Segmentation
import LinuxSocket.Memcached.Pipeline
import LinuxSocket.Memcached.System
import LinuxSocket.Memcached.Sharding
import LinuxSocket.Memcached.LoopSafety
import LinuxSocket.Memcached.BlockSkipping
import LinuxSocket.Memcached.Quit
import LinuxSocket.Memcached.SetGrammar
import LinuxSocket.CircularBuffer.Fifo
import LinuxSocket.Tbuf.Assertions
import LinuxSocket.Ttcp.Agreement
import LinuxSocket.MinHeapTimer.Tick
import LinuxSocket.ListTimer.Reaper
import LinuxSocket.WheelTimer.Countdown
import LinuxSocket.ProcessPool.Coalescing
import LinuxSocket.Http.Grammar
import LinuxSocket.Http.ResponseRoundTrip
import LinuxSocket.Http.Answering
import LinuxSocket.Http.BodyAccounting
import LinuxSocket.Http.ParseProgress
import LinuxSocket.Http.CgiDeadlock
import LinuxSocket.Http.DocumentRoot
import LinuxSocket.Http.CgiVariables
import LinuxSocket.Rot13.Relaying
import LinuxSocket.Netcat.Backpressure
import LinuxSocket.Rot13.WriteAssertion
import LinuxSocket.Ttcp.PayloadBounds
import LinuxSocket.MinHeapTimer.Bounds
import LinuxSocket.Lib.Words
import LinuxSocket.Memcached.TokenSpans
import LinuxSocket.Lib.Transfer
import LinuxSocket.Ttcp.Transfers
import LinuxSocket.Lib.Sockets
import LinuxSocket.Netcat.Sender
import LinuxSocket.ProcessPool.Termination
import LinuxSocket.Lib.Pieces
import LinuxSocket.Rot13.TwoServers
import LinuxSocket.Timers.Agreement
import LinuxSocket.Chargen.Throughput
import LinuxSocket.Procmon.Tick
import LinuxSocket.Http.AcceptRequest
import LinuxSocket.Ttcp.Clients
import LinuxSocket.Memcached.DisjointKeys
import LinuxSocket.ListTimer.MainLoop
