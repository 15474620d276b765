import Pcmi.Admin.Rotation
import Pcmi.Audit.ExportBinding
import Pcmi.Audit.FirstBreak
import Pcmi.Audit.Pipeline
import Pcmi.Distillation.Attribution
import Pcmi.Distillation.Interval
import Pcmi.Embedding.CircuitBreaker
import Pcmi.Embedding.Worker
import Pcmi.Events.AtLeastOnce
import Pcmi.Events.Subscribe
import Pcmi.Extraction.Attribution
import Pcmi.Graph.Coverage
import Pcmi.Graph.Entities
import Pcmi.Graph.LinkMirror
import Pcmi.Graph.Offsets
import Pcmi.Graph.Related
import Pcmi.Listing.TimeOnly
import Pcmi.Memory.HistoryOrder
import Pcmi.Memory.MergeRace
import Pcmi.Memory.Restore
import Pcmi.Memory.RetentionRules
import Pcmi.Memory.Tenants
import Pcmi.Memory.Timeline
import Pcmi.Middleware.StoreOnce
import Pcmi.Migrations
import Pcmi.Ratelimit.SlidingWindow
import Pcmi.Registry.Aliases
import Pcmi.Retention.ConsolidationOnce
import Pcmi.Retention.Race
import Pcmi.Retention.Validation
import Pcmi.Retrieval.Fallback
import Pcmi.Retrieval.HybridScore
import Pcmi.Retrieval.Summarize
import Pcmi.Review.LinkTargets
import Pcmi.Session.Ended
import Pcmi.Session.Listing
import Pcmi.Session.PromoteHistory
import Pcmi.Session.Scope
import Pcmi.Text
import Pcmi.Usage.Conservation
import Pcmi.Usage.Labels
import Pcmi.Usage.Report
import Pcmi.Webhook.Attempts
import Pcmi.Webhook.Backoff
import Pcmi.Webhook.Signature
