import IronSbe.Core.Primitives
import IronSbe.Core.Strings
import IronSbe.Schema.Truncation
import IronSbe.Schema.Composite
import IronSbe.Schema.Overflow
import IronSbe.Codegen.Sets
import IronSbe.Codegen.Constants
import IronSbe.Codegen.Reachability
import IronSbe.Codegen.ChoiceNames
import IronSbe.Codegen.GroupCodec
import IronSbe.Codegen.Length
import IronSbe.Transport.RingFifo
import IronSbe.Transport.WrappedCopies
import IronSbe.Transport.Smoltcp.Refusal
import IronSbe.Transport.Smoltcp.Sessions
import IronSbe.Transport.Truncated
import IronSbe.Transport.Senders
import IronSbe.Transport.Rdma.Accounting
import IronSbe.Transport.Xdp.Outbound
import IronSbe.Transport.Xdp.FrameSize
import IronSbe.Transport.Dpdk
import IronSbe.Channel.Broadcast.Delivery
import IronSbe.Channel.Spsc
import IronSbe.Channel.Mpsc
import IronSbe.Channel.Oneshot
import IronSbe.Channel.Notifier
import IronSbe.Server.Local
import IronSbe.Server.Dispatch
import IronSbe.Client.Backoff
import IronSbe.Client.Delivery
import IronSbe.Client.Events
import IronSbe.MarketData.InOrder
import IronSbe.MarketData.BookTime
import IronSbe.MarketData.CorrectBook
import IronSbe.MarketData.Queues
import IronSbe.MarketData.Events
import IronSbe.MarketData.SeqLimit
import IronSbe.MarketData.Recovery
import IronSbe.MarketData.Instruments
