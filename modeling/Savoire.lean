import Savoire.Access.AccountTokens
import Savoire.Access.Membership
import Savoire.Access.ViewGrant
import Savoire.Base.Fallback
import Savoire.Base.Manifest
import Savoire.Base.SplitFilter
import Savoire.Board.Limits
import Savoire.Desktop.DiskQueue
import Savoire.Desktop.FolderNames
import Savoire.Desktop.PercentDecode
import Savoire.Desktop.Projection
import Savoire.Desktop.ScanRuns
import Savoire.Desktop.ServerSettings
import Savoire.Desktop.VaultFs
import Savoire.Desktop.VaultRegistry
import Savoire.EdgeSync.KeyEscrow
import Savoire.EdgeSync.StoredContent
import Savoire.Embed.Section
import Savoire.Frontmatter.Rename
import Savoire.History.LineDiff
import Savoire.Index.AnchorIndex
import Savoire.Index.DiskRuns
import Savoire.Index.FeederTexts
import Savoire.Index.LocalServices
import Savoire.Index.Move
import Savoire.Index.QueryWatch
import Savoire.Index.VaultSwitch
import Savoire.Indexer.CachedCalls
import Savoire.Indexer.CountedCache
import Savoire.Indexer.Delivery
import Savoire.Indexer.PrioritySlot
import Savoire.Indexer.Routing
import Savoire.Links.IndexAgreement
import Savoire.MindMap.Materialize
import Savoire.MindMap.SiblingKeys
import Savoire.MindMap.TopicDelta
import Savoire.Outline.Indent
import Savoire.Outline.Move
import Savoire.Outline.Outdent
import Savoire.Outline.TextChanges
import Savoire.Page.ConcurrentEdits
import Savoire.Page.Convert
import Savoire.Query.Agreement
import Savoire.Query.LiveBases
import Savoire.Query.Paging
import Savoire.Query.PushDown
import Savoire.Scene.DrawingOrder
import Savoire.Search.GlobalOrder
import Savoire.Search.Snippets
import Savoire.SharedTree.Convergence
import Savoire.Sync.Delivery
import Savoire.Sync.DocumentReads
import Savoire.Sync.EdgeRooms
import Savoire.Sync.EditLocks
import Savoire.Sync.Flush
import Savoire.Sync.GracePool
import Savoire.Sync.HubSubscriptions
import Savoire.Sync.IndexChannel
import Savoire.Sync.LocalPeers
import Savoire.Sync.NoteTextInUse
import Savoire.Sync.Orchestrator
import Savoire.Sync.SnapshotRoom
import Savoire.Sync.UpdateLog
import Savoire.Sync.WatchedQueries
import Savoire.Table.Gfm
import Savoire.Vault.MoveFolder
import Savoire.Vault.TransferRuns
import Savoire.Vault.UniquePaths
