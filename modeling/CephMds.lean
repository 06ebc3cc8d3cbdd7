import CephMds.Framework.Check
import CephMds.Framework.Forest
import CephMds.Framework.Rehang
import CephMds.Framework.Striping
import CephMds.Framework.Cutting
import CephMds.Framework.Run
import CephMds.Framework.Channel
import CephMds.Framework.Ordered
import CephMds.Framework.Writes
import CephMds.Framework.Totals
import CephMds.Framework.Ancestry
import CephMds.Model.Subtree
import CephMds.Model.Fragment
import CephMds.Model.Balancer
import CephMds.Model.Commit
import CephMds.Model.SnapPurge
import CephMds.Model.Stat
import CephMds.Model.Versions
import CephMds.Model.Journal
import CephMds.Model.Remove
import CephMds.Model.Replica
import CephMds.Model.Waiting
import CephMds.Model.Freeze
import CephMds.Model.FreezeTree
import CephMds.Model.DentryKey
import CephMds.Model.Omap
import CephMds.Model.Items
import CephMds.Model.Export
import CephMds.Model.SnapRealm
import CephMds.Model.Caps
import CephMds.Model.CapFlush
import CephMds.Proof.Subtree.Invariant
import CephMds.Proof.Subtree.Bounded
import CephMds.Proof.Subtree.Rename
import CephMds.Proof.Subtree.Reachable
import CephMds.Proof.Subtree.Claim
import CephMds.Proof.Subtree.Authority
import CephMds.Proof.Subtree.Swallow
import CephMds.Proof.Subtree.Resolve
import CephMds.Proof.Subtree.Fragment
import CephMds.Proof.Subtree.Merge
import CephMds.Proof.Subtree.SubtreeMap
import CephMds.Proof.Subtree.Remove
import CephMds.Proof.Subtree.Simplify
import CephMds.Proof.Subtree.Journal
import CephMds.Proof.Balancer.Epoch
import CephMds.Proof.Balancer.Round
import CephMds.Model.PrepRebalance
import CephMds.Proof.Balancer.Matching
import CephMds.Model.TryRebalance
import CephMds.Proof.Balancer.FindExports
import CephMds.Proof.Balancer.Exports
import CephMds.Proof.Balancer.Amounts
import CephMds.Proof.Balancer.System
import CephMds.Model.CheckTargets
import CephMds.Proof.Balancer.Targets
import CephMds.Model.Overload
import CephMds.Proof.Balancer.Overload
import CephMds.Framework.BinaryPath
import CephMds.Framework.LeadingBits
import CephMds.Model.Merging
import CephMds.Proof.Balancer.Merging
import CephMds.Proof.Commit
import CephMds.Proof.SnapPurge
import CephMds.Proof.Stat
import CephMds.Proof.Replica
import CephMds.Proof.Waiting
import CephMds.Proof.Freeze.Accounting
import CephMds.Proof.Freeze.Waiters
import CephMds.Proof.DentryKey
import CephMds.Proof.Discover
import CephMds.Proof.Omap.Batch
import CephMds.Proof.Omap.Limit
import CephMds.Proof.Omap.Durable
import CephMds.Proof.Omap.Crash
import CephMds.Proof.Items
import CephMds.Proof.Export
import CephMds.Proof.Snap.Realms
import CephMds.Proof.Snap.Contexts
import CephMds.Proof.Snap.Runs
import CephMds.Proof.Caps.Flush
import CephMds.Model.CapMigrate
import CephMds.Proof.Caps.Track
import CephMds.Proof.Caps.Migrate
import CephMds.Framework.Text
import CephMds.Model.BinPacker
import CephMds.Proof.BinPacker
import CephMds.Proof.Strategies
import CephMds.Model.LuaBalancer
import CephMds.Proof.LuaBalancer
import CephMds.Framework.Places
import CephMds.Framework.Intervals
import CephMds.Model.Sessions
import CephMds.Model.ClientSessions
import CephMds.Model.SlaveRename
import CephMds.Proof.Subtree.Effects
import CephMds.Proof.SlaveRename
import CephMds.Proof.ClientSessions
import CephMds.Proof.Sessions.Order
import CephMds.Proof.Sessions.Effects
import CephMds.Proof.Sessions.Moves
import CephMds.Proof.Sessions.Replay
import CephMds.Proof.Sessions.Numbers
import CephMds.Proof.Sessions.Tracked
import CephMds.Proof.Sessions.Imports
import CephMds.Proof.Sessions.Transitions
import CephMds.Model.Dispatch
import CephMds.Proof.Dispatch
import CephMds.Model.StandbyReplay
import CephMds.Proof.StandbyReplay
import CephMds.Model.Requests
import CephMds.Proof.Requests
import CephMds.Model.Strays
import CephMds.Proof.Strays
import CephMds.Proof.Versions.Frag
import CephMds.Proof.Versions.Inode
import CephMds.Model.Scripts
import CephMds.Proof.Balancer.Scripts
import CephMds.Model.Simulate
import CephMds.Proof.Simulate
import CephMds.Model.PurgeObjects
import CephMds.Proof.PurgeObjects
import CephMds.Model.EmptyDir
import CephMds.Proof.EmptyDir
import CephMds.Model.LayoutXattr
import CephMds.Proof.LayoutXattr
import CephMds.Model.Readdir
import CephMds.Proof.Readdir
import CephMds.Model.SlaveRollback
import CephMds.Proof.SlaveRollback
import CephMds.Model.OsdBarrier
import CephMds.Proof.OsdBarrier
import CephMds.Model.Beacon
import CephMds.Proof.Beacon
import CephMds.Model.Truncate
import CephMds.Proof.Truncate
import CephMds.Model.SnapParents
import CephMds.Proof.SnapParents
import CephMds.Proof.SnapSplits
import CephMds.Model.ReadSync
import CephMds.Proof.ReadSync
import CephMds.Proof.WaiterFor
import CephMds.Model.CapBarrier
import CephMds.Proof.CapBarrier
import CephMds.Framework.Maxima
import CephMds.Model.FileBits
import CephMds.Proof.FileBits
import CephMds.Model.PathWalk
import CephMds.Proof.PathWalk
import CephMds.Model.FhPos
import CephMds.Proof.FhPos
import CephMds.Framework.Padded
import CephMds.Model.SyncCaps
import CephMds.Proof.SyncCaps
import CephMds.Proof.Fsync
import CephMds.Model.InlineFile
import CephMds.Proof.InlineFile
import CephMds.Model.Refragment
import CephMds.Proof.Refragment.Steal
import CephMds.Proof.Refragment.Finish
import CephMds.Proof.Refragment.Split
import CephMds.Proof.Refragment.Merge
import CephMds.Proof.Refragment.Runs
import CephMds.Model.OpenIno
import CephMds.Proof.OpenIno
import CephMds.Model.TwoPhase
import CephMds.Proof.TwoPhase.Slaves
import CephMds.Proof.TwoPhase.Links
import CephMds.Proof.TwoPhase.Mail
import CephMds.Proof.TwoPhase.Masters
import CephMds.Proof.TwoPhase.Resolves
import CephMds.Proof.TwoPhase.Failures
import CephMds.Proof.TwoPhase.Runs
import CephMds.Framework.Template
import CephMds.Model.ConfigMeta
import CephMds.Proof.ConfigMeta
