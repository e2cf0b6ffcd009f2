import IotChain.Chain.Decoding
import IotChain.Core.Building
import IotChain.Core.Coins
import IotChain.Core.Heights
import IotChain.Core.Indexing
import IotChain.Core.LongestChain
import IotChain.Core.Mirror
import IotChain.Json.Bounds
import IotChain.Json.RoundTrip
import IotChain.Key.Carrying
import IotChain.Key.Generation
import IotChain.Key.Grammar
import IotChain.Key.Parsing
import IotChain.Key.Spellings
import IotChain.Node.Distribution
import IotChain.Node.Network
import IotChain.P2P.Amplification
import IotChain.P2P.Confluence
import IotChain.P2P.Connections
import IotChain.P2P.Dispatching
import IotChain.P2P.Flooding
import IotChain.P2P.Hops
import IotChain.P2P.Listing
import IotChain.P2P.Locking
import IotChain.P2P.Pings
import IotChain.P2P.Registry
import IotChain.P2P.Sending
import IotChain.P2P.Termination
import IotChain.Stream.Cursor
import IotChain.Stream.MemoryReader
import IotChain.Stream.Undoing
import IotChain.VM.Calls
import IotChain.VM.ControlFlow
import IotChain.VM.Dumping
import IotChain.VM.Power
import IotChain.VM.Printing
import IotChain.VM.Sunum
import IotChain.VM.Undefined
import IotChain.VM.Words
