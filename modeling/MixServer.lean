import MixServer.Lib.Run
import MixServer.Lib.Splitter
import MixServer.Lib.Bytes
import MixServer.Lib.Heap
import MixServer.Lib.HeapTail
import MixServer.Lib.Indexed
import MixServer.Lib.Bits
import MixServer.Net.ByteQueue
import MixServer.Net.Buffer
import MixServer.Net.Socket
import MixServer.Net.EventLoop
import MixServer.Net.Msg
import MixServer.Net.BufferIndices
import MixServer.Net.WriteString
import MixServer.Net.Transfer
import MixServer.Server.TcpServer
import MixServer.Server.Invariant
import MixServer.Server.LifeCycle
import MixServer.Server.Trace
import MixServer.Server.ErrorPath
import MixServer.Server.MsgServer
import MixServer.Server.Framing
import MixServer.Client.OnRead
import MixServer.Server.HttpServer
import MixServer.Server.HttpClose
import MixServer.Script.WSFrame
import MixServer.Script.WSStream
import MixServer.Script.WSGrammar
import MixServer.Script.WSRead
import MixServer.Script.WSUnmasked
import MixServer.Script.WSClose
import MixServer.Server.ReadMemory
import MixServer.Server.Buffered
import MixServer.Server.BufferedRuns
import MixServer.Server.Mirrors
import MixServer.Server.UntrustedBytes
import MixServer.Server.EndOfStream
import MixServer.Server.HandOver
import MixServer.Server.HandOverRuns
import MixServer.Server.LineSplit
import MixServer.Script.HttpHandle
import MixServer.Net.Timer
import MixServer.Net.TimerQueue
import MixServer.Net.TimerUpdate
import MixServer.Net.PriQueue
import MixServer.Net.Selector
import MixServer.Net.EventArray
import MixServer.Net.Kqueue
import MixServer.Net.Epoll
import MixServer.Net.Select
import MixServer.Net.SelectPoll
import MixServer.Net.TimerClock
import MixServer.Net.Dispatch
import MixServer.Net.Poll
import MixServer.Server.Backlog
import MixServer.Server.Accept
import MixServer.Server.Batch
import MixServer.Server.Tables
import MixServer.Server.TablesAgree
import MixServer.Server.TableRuns
import MixServer.Server.Shutdown
import MixServer.Server.ProtoMsg
import MixServer.Server.OnMsg
import MixServer.Server.MsgTables
import MixServer.Server.HttpTables
import MixServer.Script.Send
import MixServer.Client.Connector
import MixServer.Client.Memory
import MixServer.Client.Reconnect
import MixServer.Client.Status
import MixServer.Client.FrameBoundary
import MixServer.Client.Attempts
import MixServer.Net.INotify
import MixServer.Server.FileHandle
import MixServer.Server.EchoServer
import MixServer.Mem.SharedPtr
import MixServer.Proto.Generator
import MixServer.Lib.Descent
import MixServer.Script.Reload
import MixServer.Script.ReloadMerge
import MixServer.Script.ReloadRuns
import MixServer.Lib.Varint
import MixServer.Lib.Consume
import MixServer.Lib.WireFormat
import MixServer.Proto.Messages
import MixServer.Net.KernelEvents
import MixServer.Script.Session
import MixServer.System.Sessions
