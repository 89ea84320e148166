import JustWebrtc.Core.Machine
import JustWebrtc.Core.Cell
import JustWebrtc.Core.Decimal
import JustWebrtc.Connection.Channel
import JustWebrtc.Connection.State
import JustWebrtc.Connection.Builder
import JustWebrtc.Signalling.Server.Identity
import JustWebrtc.Signalling.Server.Process
import JustWebrtc.Signalling.Server.Delivery
import JustWebrtc.Signalling.Server.Views
import JustWebrtc.Signalling.Client.Peer
import JustWebrtc.Signalling.System.State
import JustWebrtc.Signalling.Client.Futures
import JustWebrtc.Signalling.System.Clients
import JustWebrtc.Signalling.Server.Snapshots
import JustWebrtc.Signalling.Server.Atomic
import JustWebrtc.Signalling.Server.Serving
import JustWebrtc.Signalling.Server.Teardown
import JustWebrtc.Signalling.Client.Discovery
import JustWebrtc.Signalling.Client.Signals
import JustWebrtc.Signalling.Client.Slots
import JustWebrtc.Signalling.Client.Runs
import JustWebrtc.Signalling.Client.Queue
import JustWebrtc.Signalling.System.Discovery
import JustWebrtc.Signalling.System.Glare
import JustWebrtc.Signalling.System.Convergence
import JustWebrtc.Signalling.System.Ledger
import JustWebrtc.Signalling.System.Relay
import JustWebrtc.Signalling.System.Agreement
import JustWebrtc.Signalling.Server.Eviction
import JustWebrtc.Signalling.System.Startup
import JustWebrtc.Signalling.Client.Streams
import JustWebrtc.Signalling.Client.Chains
import JustWebrtc.Signalling.Server.Listening
import JustWebrtc.Signalling.System.Faultless
import JustWebrtc.Signalling.System.Mesh
import JustWebrtc.Connection.Candidates
import JustWebrtc.Connection.Receiving
import JustWebrtc.Signalling.System.Callbacks
import JustWebrtc.Example.Connections
import JustWebrtc.Example.Peers
import JustWebrtc.Example.Entries
import JustWebrtc.Example.Pairing
import JustWebrtc.Core.Exchange
import JustWebrtc.Core.Refinement
import JustWebrtc.Signalling.Server.Linearization
import JustWebrtc.Signalling.System.Capacity
import JustWebrtc.Core.Termination
import JustWebrtc.Signalling.Server.Progress
import JustWebrtc.Signalling.System.Traffic
import JustWebrtc.Signalling.System.Termination
import JustWebrtc.Signalling.System.Rest
import JustWebrtc.Signalling.System.Liveness
import JustWebrtc.Example.Echo
import JustWebrtc.Example.Rounds
import JustWebrtc.Signalling.Client.Slots
