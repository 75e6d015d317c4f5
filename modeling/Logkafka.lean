import Logkafka.IOHandler.Delivery
import Logkafka.IOHandler.Reference
import Logkafka.IOHandler.Stuck
import Logkafka.IOHandler.Limits
import Logkafka.Position.Codec
import Logkafka.Position.RoundTrip
import Logkafka.Position.Compact
import Logkafka.TailWatcher.Rescan
import Logkafka.Manager.Collected
import Logkafka.Manager.Queue
import Logkafka.Manager.Tables
import Logkafka.Manager.Keys
import Logkafka.Manager.Unwatched
import Logkafka.Zookeeper.Registration
import Logkafka.Zookeeper.ConfigWatch
import Logkafka.Zookeeper.BrokerWatch
import Logkafka.AdminUtils
import Logkafka.IOHandler.Returns
import Logkafka.Manager.Edits
import Logkafka.Manager.Coverage
import Logkafka.IOHandler.Pieces
import Logkafka.IOHandler.Failing
import Logkafka.IOHandler.Batches
import Logkafka.Position.Width
import Logkafka.Position.Interrupted
import Logkafka.TailWatcher.Silence
import Logkafka.Manager.Refused
import Logkafka.Producer
import Logkafka.FilterRegex
import Logkafka.Zookeeper.BrokerUrls
import Logkafka.IOHandler.Room
import Logkafka.IOHandler.Leftover
import Logkafka.IOHandler.Order
import Logkafka.Manager.Stores
import Logkafka.Manager.Mirror
import Logkafka.Manager.Chronology
import Logkafka.Pipeline.Once
import Logkafka.Pipeline.Exact
import Logkafka.Json.Sound
import Logkafka.Deployment
import Logkafka.Manager.State
