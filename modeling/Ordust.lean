import Ordust.Representation
import Ordust.Uncrossed
import Ordust.Replay
import Ordust.Priority
import Ordust.Conservation
import Ordust.Noninterference
import Ordust.Sums
import Ordust.NoPanic
import Ordust.Reconciler
import Ordust.Submission
import Ordust.FillOrKill
import Ordust.MatchLoop
import Ordust.Failure
import Ordust.Splitting
import Ordust.Mirror
import Ordust.Resync
import Ordust.Provenance
import Ordust.Progress
import Ordust.LastMention
import Ordust.SharedArena
import Ordust.UpdateIds
import Ordust.Stale
import Ordust.TimePriority
import Ordust.Code.WsClient
import Ordust.Code.HyperliquidAdapter
import Ordust.Code.Terminal
import Ordust.Feed
import Ordust.Hyperliquid
import Ordust.Reconnect
import Ordust.BestExecution
import Ordust.Lifecycle
import Ordust.OrderKinds
import Ordust.WorkBound
import Ordust.Commutation
import Ordust.Drain
import Ordust.NextMaker
import Ordust.QueuePosition
import Ordust.Recovery
import Ordust.Resend
import Ordust.Rebuild
import Ordust.Renaming
import Ordust.OnScreen
