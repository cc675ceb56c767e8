import Sol25.Sem.Rollback
import Sol25.Sem.Wakeup
import Sol25.Flock.Types
import Sol25.Graph.Search
import Sol25.Flock.State
import Sol25.Callout.Model
import Sol25.Callout.Timeout
import Sol25.Streams.Writers
import Sol25.Xdr.RecRoundTrip
import Sol25.Rpc.CallRoundTrip
import Sol25.Swap.Readd
import Sol25.Segvn.Reserve
import Sol25.Libmp.Printed
import Sol25.Route.Lookup
import Sol25.Ip.Reass
import Sol25.Ip.Honest
import Sol25.Ip.Hostile
import Sol25.Rmap.Sets
import Sol25.Flock.Reclaim
import Sol25.Pcfs.Model
import Sol25.Data.Bitmap
import Sol25.Disp.Bits
import Sol25.Disp.Remove
import Sol25.Disp.Sound
import Sol25.Disksort.Elevator
import Sol25.Message.Adjust
import Sol25.Msg.Select
import Sol25.Sem.Reset
import Sol25.Streams.Insert
import Sol25.Ufs.Free
import Sol25.Ufs.Holes
import Sol25.Xdr.Bytes
import Sol25.Xdr.RecSeek
import Sol25.Segvn.Fork
import Sol25.Xdr.Counts
import Sol25.Seglist.Undo
import Sol25.Ip.OptionsLaw
import Sol25.Swapfs.Cluster
import Sol25.Kmem.PermLaw
import Sol25.Kmem.GeometryLaw
import Sol25.Acl.Decide
import Sol25.Acl.TextLaw
import Sol25.Acl.Load
import Sol25.Msg.Ident
import Sol25.Pcfs.Corrupt
