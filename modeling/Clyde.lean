import Clyde.Codex.RecoveryRegistry
import Clyde.Codex.CompactionObserver
import Clyde.Codex.SseTransparency
import Clyde.Codex.SseIndependence
import Clyde.Codex.ToolIds
import Clyde.ReorientInject.Unframed
import Clyde.Daemon.RollupExclusion
import Clyde.Daemon.RollupCoverage
import Clyde.DaemonSupervisor.Lifecycle
import Clyde.Conversation.CompactionSegments
import Clyde.Conversation.RetainedRecords
import Clyde.Conversation.LineCap
import Clyde.SentinelInject.Hook
import Clyde.Retry.Backoff
import Clyde.Daemon.SearchPaging
import Clyde.Daemon.SemanticPins
import Clyde.VectorSearch.RowIds
import Clyde.Livetrack.Drain
import Clyde.Cursor.Continuation
import Clyde.Cursor.Turns
import Clyde.CodeStore.DecodeSafety
import Clyde.CodeStore.ReadFaults
import Clyde.CodeStore.Ranking
import Clyde.VectorSearch.ReadBack
import Clyde.Daemon.HardReset
import Clyde.CodexStore.StreamAgreement
