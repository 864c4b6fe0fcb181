import SharedList.Tree
import SharedList.Paths
import SharedList.Runs
import SharedList.Feeds
import SharedList.Replicas
import SharedList.Followers
import SharedList.SharedTables
import SharedList.Records
import SharedList.References
import SharedList.Writes
import SharedList.Users
import SharedList.Tables
import SharedList.Clients
import SharedList.ListRecords
import SharedList.Membership
import SharedList.ItemRecords
import SharedList.Lookup
import SharedList.ListsManager
import SharedList.ListsReplica
import SharedList.ListsSync
import SharedList.SingleListManager
import SharedList.ItemsSync
import SharedList.Attribution
import SharedList.ItemMirror
import SharedList.ItemIds
import SharedList.RoundTrips
import SharedList.ItemTables
import SharedList.ListRemoval
import SharedList.RepeatedRemoval
import SharedList.Acceptance
import SharedList.InvitationManager
import SharedList.InvitationOwners
import SharedList.Observers
import SharedList.InvitationsSync
import SharedList.OpenList
import SharedList.AuthManager
import SharedList.HandlerBookkeeping
import SharedList.InvitationSending
import SharedList.Rows
import SharedList.ItemsLoad
import SharedList.SingleListViewController
import SharedList.ListsViewController
import SharedList.ListsLoad
import SharedList.UserRecords
import SharedList.Attempts
import SharedList.AttemptsSession
import SharedList.TimeoutGuard
import SharedList.LoadingGuard
import SharedList.ItemUpdates
import SharedList.UpdatePaths
import SharedList.Reachability
import SharedList.Retention
import SharedList.DroppedEntries
import SharedList.Origins
import SharedList.Lifecycles
import SharedList.LocalViews
import SharedList.Devices
import SharedList.Traces
import SharedList.WriteOrder
import SharedList.TypedItems
import SharedList.ChildChanges
import SharedList.Digits
import SharedList.PushIds
import SharedList.ItemsScreen
import SharedList.ListsScreen
import SharedList.Overlays
import SharedList.Layers
import SharedList.SnapshotNodes
import SharedList.ImmutableTrees
import SharedList.CompoundWrites
import SharedList.PathOrder
import SharedList.UpdateDictionaries
import SharedList.WriteTrees
import SharedList.EventCaches
