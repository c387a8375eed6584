import Nodal.Lifecycle.Committed
import Nodal.Lifecycle.Stuck
import Nodal.Locks.HandOff
import Nodal.Locks.Race
import Nodal.Removal.Dispositions
import Nodal.Removal.Order
import Nodal.Removal.Vouched
import Nodal.Doctor.Machine
import Nodal.Removal.Absence
import Nodal.Services.Granted
import Nodal.Services.Fixed
import Nodal.Trash.Begun
import Nodal.Merge.Recorded
import Nodal.Setup.Uninstall
import Nodal.Workspace.Fresh
import Nodal.Carry.Reproduce
import Nodal.Hook.Approving
import Nodal.Hook.Execute
import Nodal.Runtime.Verdict
import Nodal.Sweep.States
import Nodal.Lifecycle.Reported
import Nodal.Doctor.Mounts
import Nodal.Removal.Rewritten
import Nodal.Runtime.Anchored
import Nodal.Mcp.Session
import Nodal.Doctor.Origin
import Nodal.Reclaim.Moved
import Nodal.Sweep.Retention
import Nodal.Setup.StartUp
import Nodal.Env.Pointer
import Nodal.Fingerprint.Keys
import Nodal.Workspace.Prune
import Nodal.Context.Refresh
import Nodal.Env.Partition
import Nodal.Lifecycle.Identity
import Nodal.Lifecycle.Naming
import Nodal.Lifecycle.Placed
import Nodal.Recipe.Change
import Nodal.Recipe.Rounds
import Nodal.Runtime.Cleared
import Nodal.Runtime.Sessions
import Nodal.Context.Survey
import Nodal.Store.Events
import Nodal.Runtime.Tether
import Nodal.Services.Containers
import Nodal.Git.Scrub
import Nodal.Git.Snapshot
import Nodal.Context.Memory
import Nodal.Services.Listeners
import Nodal.Doctor.Unpushed
import Nodal.Substrate.Built
import Nodal.Substrate.Evicted
import Nodal.Store.Migrations
