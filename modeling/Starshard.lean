import Starshard.Bookkeeping.Exact
import Starshard.Delivery.Once
import Starshard.Emptying.Atomic
import Starshard.Eviction.Ages
import Starshard.Eviction.Outcome
import Starshard.Eviction.Reference
import Starshard.Foreground.Accounting
import Starshard.Locking.Deadlock
import Starshard.Migration.Staged
import Starshard.Migration.Telemetry
import Starshard.Promotion.Entry
import Starshard.Repair.Complete
import Starshard.Replication.Order
import Starshard.Retirement.Drained
import Starshard.Scheduler.Registration
import Starshard.Sync.Rebalance
import Starshard.Sync.Snapshot
import Starshard.Interleaving.Effects
import Starshard.Interleaving.Alone
import Starshard.Interleaving.Presence
import Starshard.Interleaving.Progress
import Starshard.Interleaving.Served
import Starshard.Interleaving.Updates
import Starshard.Concurrent.Order
import Starshard.Interleaving.Coherence
import Starshard.Interleaving.Order
