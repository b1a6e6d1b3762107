import WiringRs.Agreement
import WiringRs.BufUnWire
import WiringRs.BufWire
import WiringRs.Canonical
import WiringRs.Compatible
import WiringRs.ConnectionLost
import WiringRs.CutStream
import WiringRs.Grouping
import WiringRs.Overflow
import WiringRs.PointerWidth
import WiringRs.Roundtrip
import WiringRs.SafeInit
import WiringRs.Delivery
import WiringRs.Refinement
import WiringRs.Tags
import WiringRs.Wrappers
import WiringRs.EventsLost
import WiringRs.Handshake
import WiringRs.ListenerRest
import WiringRs.NestedOrder
import WiringRs.Peers
import WiringRs.StreamRead
import WiringRs.WatchSender
import WiringRs.WiredBroadcast
import WiringRs.WiredMpsc
import WiringRs.WiredWatch
import WiringRs.WiredOneshot
import WiringRs.WireChannel
import WiringRs.WiredFrames
