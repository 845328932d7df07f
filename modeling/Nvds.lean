import Nvds.Allocator.Splitting
import Nvds.Tablet.Operations
import Nvds.Tablet.Acknowledgement
import Nvds.Tablet.NoSpace
import Nvds.Tablet.Scatters
import Nvds.Tablet.Inline
import Nvds.Tablet.Ownership
import Nvds.Cluster.Connections
import Nvds.Cluster.Arrivals
import Nvds.Cluster.Ranges
import Nvds.Cluster.Encoding
import Nvds.Cluster.Sockets
import Nvds.Cluster.ComingUp
import Nvds.Cluster.Replication
import Nvds.Serving.Exhaustion
import Nvds.Serving.Locks
import Nvds.Serving.Sleeping
import Nvds.Serving.OneMap
import Nvds.Serving.Interleavings
import Nvds.Client.Wire
import Nvds.Client.Calls
import Nvds.Client.Datagrams
import Nvds.Client.Deliveries
import Nvds.Client.Stages
import Nvds.Client.Linearizable
