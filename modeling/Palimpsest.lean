import Palimpsest.Permissions.Visibility
import Palimpsest.Server.Delivery
import Palimpsest.Server.OneRuleSet
import Palimpsest.Server.Authentication
import Palimpsest.Postgres.Ingest
import Palimpsest.Server.Coherence
import Palimpsest.Dataflow.Filtering
import Palimpsest.Server.SharedKeys
import Palimpsest.Dataflow.Losses
import Palimpsest.Client.Settlement
import Palimpsest.Client.Resumption
import Palimpsest.Server.Teardown
import Palimpsest.Server.Upkeep
import Palimpsest.Dataflow.RulePredicate
import Palimpsest.Client.Pump
import Palimpsest.Frontend.CteScope
import Palimpsest.Frontend.RangeVariables
import Palimpsest.Dataflow.Patterns
import Palimpsest.Frontend.Suppression
import Palimpsest.Dataflow.SqlBags
import Palimpsest.Dataflow.Aggregates
import Palimpsest.Postgres.Advertised
import Palimpsest.Postgres.Calendar
import Palimpsest.Server.Codec
import Palimpsest.Server.References
import Palimpsest.Permissions.Depth
import Palimpsest.Sql.Prepared
import Palimpsest.Postgres.Mirror
import Palimpsest.Wal.Source
import Palimpsest.Wal.Spill
import Palimpsest.Dataflow.Materialization
import Palimpsest.Permissions.Versions
import Palimpsest.Server.Cursor
import Palimpsest.Server.Reconnect
import Palimpsest.Client.Updates
