import Skit.Lib.Prog
import Skit.Lib.Run
import Skit.Basic
import Skit.Worker.Partition
import Skit.Worker.Drain
import Skit.Queue.Retry
import Skit.Broker.Kafka
import Skit.Broker.Transport
import Skit.Outbox.Handler
import Skit.Dedup.Exclusion
import Skit.Dedup.Replay
import Skit.Dedup.Interchange
import Skit.Auditlog.Diff
import Skit.Auditlog.FieldHistory
import Skit.Auditlog.Draining
import Skit.Auditlog.AsyncDelivery
import Skit.Partition.Plan
import Skit.Translation.Check
import Skit.Translation.RoundTrip
import Skit.Translation.InMemory
import Skit.Translation.Batch
import Skit.Dim.Provider
import Skit.Settings.Live
import Skit.Errs.Secrecy
import Skit.Rest.Mask
import Skit.Middleware.Compress
import Skit.Resource.Paging
import Skit.Resource.Update
import Skit.Dbx.Tran
import Skit.Httpmw.RoundTrip
import Skit.Queue.Wiring
import Skit.Scaffold.Spellings
import Skit.Retry.Do
import Skit.Dbx.Bulk
import Skit.Httplog.Curl
import Skit.Httplog.LogBody
import Skit.Errs.Projection
import Skit.Logger.Nesting
import Skit.Rest.ETag
import Skit.Worker.Paced
import Skit.Closer.Cleanup
import Skit.Queue.Scheduled
import Skit.Lock.Redis
