import Drpc.Library.Transition
import Drpc.Library.Settling
import Drpc.Library.LittleEndian
import Drpc.Library.LimitedQueue
import Drpc.Library.Items
import Drpc.Library.Varint
import Drpc.Proto.Message
import Drpc.Proto.Runtime
import Drpc.Proto.Generated
import Drpc.Proto.FlatRuntime
import Drpc.Proto.HeaderCode
import Drpc.Net.AsyncRead
import Drpc.Server.Receive
import Drpc.Server.Reference
import Drpc.Example.EchoCode
import Drpc.Example.Echo
import Drpc.Scheduler.Wakeup
import Drpc.Client.Channel
import Drpc.Client.Responses
import Drpc.Client.Sessions
import Drpc.EndToEnd.System
import Drpc.Example.EchoCalls
import Drpc.EndToEnd.Agreement
import Drpc.Library.Chain
import Drpc.Util.BufferBlock
import Drpc.Util.ChainedBuffer
import Drpc.Util.Nodes
import Drpc.Util.ReceiveBuffer
import Drpc.Util.Stores
import Drpc.Util.OutputBuffer
import Drpc.Net.SendBuffer
import Drpc.EndToEnd.Resumption
import Drpc.Util.MpmcChunks
import Drpc.Util.MpmcSlots
import Drpc.Util.MpmcDelivery
import Drpc.Util.MpmcReclaim
import Drpc.Util.MpmcRetire
import Drpc.Util.MpmcRelease
import Drpc.Util.MpmcWaiting
import Drpc.Util.MpmcSequential
import Drpc.Util.ReceiveQueue
import Drpc.Util.WriteQueue
import Drpc.Util.BackUp
import Drpc.Net.ReadBuffer
import Drpc.Net.PendingOutput
import Drpc.Net.Teardown
import Drpc.Net.Ending
import Drpc.Net.Work
import Drpc.Net.BufferedEndpoint
import Drpc.Net.ReceivingEnds
import Drpc.EndToEnd.Connections
import Drpc.Util.MpmcAlone
import Drpc.Util.Links
import Drpc.Util.Skip
import Drpc.Util.AnnouncedLength
import Drpc.Library.Fairness
import Drpc.Library.Simulation
import Drpc.EndToEnd.Completion
import Drpc.Net.ByteQueue
import Drpc.Net.FrameOutput
import Drpc.Server.Buffered
import Drpc.Client.Buffered
import Drpc.EndToEnd.ServedStream
import Drpc.EndToEnd.Buffered
import Drpc.EndToEnd.BufferedEndpoints
import Drpc.EndToEnd.EndOfFile
import Drpc.Net.Tasks
import Drpc.Net.Moves
import Drpc.Scheduler.ThreadLoop
import Drpc.EndToEnd.Coroutines
import Drpc.EndToEnd.Deployment
import Drpc.EndToEnd.GeneratedCalls
import Drpc.Util.MpmcDestructor
import Drpc.Library.AtomicQueue
import Drpc.Util.MpmcOrder
import Drpc.Util.MpmcTurns
import Drpc.Util.MpmcLinear
import Drpc.Util.MpmcFirstChunk
