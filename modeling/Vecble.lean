import Vecble.Cache.Entry
import Vecble.Cache.Shard
import Vecble.Cache.ShardOps
import Vecble.Cache.Cache
import Vecble.Cache.Sweep
import Vecble.Cache.Invariant
import Vecble.Cache.Eviction
import Vecble.Cache.Operations
import Vecble.Cache.Removal
import Vecble.Cache.Budget
import Vecble.Cache.Client
import Vecble.Cache.Refcount
import Vecble.Cache.Coherence
import Vecble.Cache.SecondChance
import Vecble.Cache.Termination
import Vecble.Cache.Admission
import Vecble.Cache.Progress
import Vecble.Cache.Balance
import Vecble.Cache.Metrics
import Vecble.Cache.Lifecycle
import Vecble.Server.Resp
import Vecble.Server.Commands
import Vecble.Server.Store
import Vecble.Server.Interleaving
import Vecble.Storage.Codec
