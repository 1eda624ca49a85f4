import FreeRadius.Heap.Runs
import FreeRadius.MinmaxHeap.Runs
import FreeRadius.Hash.Collisions
import FreeRadius.Hash.Runs
import FreeRadius.Htrie.Equivalence
import FreeRadius.Rb.Iterate
import FreeRadius.Cbor.Tagged
import FreeRadius.Cbor.PairTrees
import FreeRadius.AtomicQueue.Sequential
import FreeRadius.Message.Runs
import FreeRadius.Channel.Protocol
import FreeRadius.Dns.Runs
import FreeRadius.Radius.Tagged
import FreeRadius.Radius.LongExtended
import FreeRadius.Radius.EncodedPackets
import FreeRadius.Radius.Wimax
import FreeRadius.Dns.Hostile
import FreeRadius.Inet.Compare
import FreeRadius.Der.OidRoundTrip
import FreeRadius.Der.Prefix
import FreeRadius.Dhcpv4.Prefixes
import FreeRadius.Dhcpv4.Vendors
import FreeRadius.Bfd.Detection
import FreeRadius.Bio.Mem
import FreeRadius.Base.Strict
import FreeRadius.SessionState.Accounting
import FreeRadius.SessionState.Latest
import FreeRadius.Calc.Casts
import FreeRadius.Struct.RoundTrip
import FreeRadius.Edit.Lists
import FreeRadius.Time.Calendar
import FreeRadius.Library.Memcmp
