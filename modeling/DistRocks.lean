import DistRocks.Base.OrdMap
import DistRocks.Base.Calls
import DistRocks.Base.Network
import DistRocks.Base.Joining
import DistRocks.Base.Words
import DistRocks.Base.Proc
import DistRocks.Base.Frames
import DistRocks.Base.Spans
import DistRocks.Wire.Bytes
import DistRocks.Wire.ConstValues
import DistRocks.Wire.HandleBuff
import DistRocks.Db.Handle
import DistRocks.Store.Data
import DistRocks.Store.Size
import DistRocks.Store.Log
import DistRocks.Store.Impl
import DistRocks.Store.Requests
import DistRocks.Store.Node
import DistRocks.Store.Discipline
import DistRocks.Store.Votes
import DistRocks.Store.Stream
import DistRocks.Store.OneRecord
import DistRocks.Store.Backlog
import DistRocks.Store.Bounds
import DistRocks.Store.Closed
import DistRocks.Control.Meta
import DistRocks.Control.RoundTrip
import DistRocks.Control.Impl
import DistRocks.Control.Messages
import DistRocks.Control.Process
import DistRocks.Control.Reader
import DistRocks.Control.Construct
import DistRocks.Cluster.View
import DistRocks.Cluster.Trace
import DistRocks.Cluster.Sim
import DistRocks.Cluster.Commands
import DistRocks.Cluster.Balancing
import DistRocks.Cluster.OneMap
import DistRocks.Cluster.Runs
import DistRocks.Cluster.Interleaving
import DistRocks.Cluster.Flight
import DistRocks.Cluster.Invariants
import DistRocks.Cluster.Rounds
import DistRocks.Cluster.Reading
import DistRocks.Cluster.Stops
import DistRocks.Cluster.Stores
import DistRocks.Cluster.Delete
import DistRocks.Cluster.Sizes
import DistRocks.Cluster.Totals
import DistRocks.Cluster.Balance
import DistRocks.Cluster.Idle
import DistRocks.Cluster.Room
import DistRocks.Cluster.Crash
import DistRocks.Cluster.UpdateCrash
import DistRocks.Cluster.Console
import DistRocks.Cluster.Durable
import DistRocks.Cluster.Leftover
import DistRocks.Cluster.Recovery
import DistRocks.Cluster.Joined
import DistRocks.Cluster.Abort
