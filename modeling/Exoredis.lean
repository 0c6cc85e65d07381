import Exoredis.Protocol.Bounds
import Exoredis.Keyspace.Strings
import Exoredis.Keyspace.Uniqueness
import Exoredis.Keyspace.Bits
import Exoredis.Keyspace.Arguments
import Exoredis.Dump.Reload
import Exoredis.Dump.Lasting
import Exoredis.SortedSet.Ranges
import Exoredis.SortedSet.Twins
import Exoredis.SortedSet.Switches
import Exoredis.Shutdown.Snapshot
import Exoredis.Keyspace.Buckets
import Exoredis.Server.Capacity
import Exoredis.Server.Garbage
import Exoredis.Server.Hashed
import Exoredis.Numbers.Integers
import Exoredis.Keyspace.Hashing
import Exoredis.Protocol.Telnet
import Exoredis.SortedSet.Atomic
import Exoredis.Numbers.Scores
import Exoredis.Refinement.Wire
import Exoredis.Dump.Decimals
import Exoredis.Library.Footprint
import Exoredis.Refinement.Isolation
import Exoredis.Refinement.Lifecycle
