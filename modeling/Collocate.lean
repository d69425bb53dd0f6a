import Collocate.Controller.RolloutProgress
import Collocate.Controller.RolloutActions
import Collocate.Controller.Revisions
import Collocate.Controller.Footprint
import Collocate.Controller.Scaling
import Collocate.Controller.ScaleDown
import Collocate.Controller.Stabilization
import Collocate.Net.IpamSound
import Collocate.Net.IpamComplete
import Collocate.Daemon.Firewall
import Collocate.Daemon.Stopped
import Collocate.Daemon.Deadlines
import Collocate.Daemon.StartPeriod
import Collocate.Trust.Torn
import Collocate.Trust.Revocable
import Collocate.Secrets.Map
import Collocate.Daemon.Lists
import Collocate.Daemon.LbSet
import Collocate.Daemon.Ephemeral
import Collocate.Registry.Pinned
import Collocate.Image.Digests
import Collocate.Image.Pruning
import Collocate.Store.Unique
import Collocate.Store.Crash
import Collocate.Core.Wire
import Collocate.Daemon.Conn
import Collocate.Daemon.Descriptors
import Collocate.Lib.Utf8
import Collocate.Daemon.Logs
import Collocate.Image.Names
import Collocate.Remote.Http
import Collocate.Remote.Chunked
import Collocate.Daemon.PebbleLogs
import Collocate.Compose.Deploy
import Collocate.Compose.Gating
import Collocate.Compose.Buildable
import Collocate.Compose.Revision
import Collocate.Compose.Acceptance
import Collocate.Compose.Converged
import Collocate.Compose.Consumers
import Collocate.Compose.Planned
import Collocate.Compose.Collisions
import Collocate.Daemon.References
import Collocate.Pebble.Replies
import Collocate.Cluster.Resume
import Collocate.Cluster.Split
import Collocate.Cluster.Agreement
import Collocate.Daemon.Idle
import Collocate.Daemon.Budget
import Collocate.Lib.Lexing
import Collocate.Net.Script
import Collocate.Net.Balancing
import Collocate.Net.Tokens
import Collocate.Daemon.Naming
import Collocate.Net.Netcfg
import Collocate.Daemon.Apart
import Collocate.Daemon.Neighbours
import Collocate.Core.Sizes
import Collocate.Cluster.Memory
import Collocate.Compose.Cycles
import Collocate.Compose.Applied
import Collocate.Compose.Segments
import Collocate.Compose.Replicas
import Collocate.Image.Naming
import Collocate.Lib.MountTable
import Collocate.Runtime.MountPlan
import Collocate.Store.Quarantine
import Collocate.Image.Resolving
import Collocate.Registry.BasicAuth
import Collocate.Registry.Challenge
import Collocate.Remote.Query
import Collocate.Sys.Mountinfo
import Collocate.Setup.Routes
import Collocate.Setup.Configuration
import Collocate.Daemon.Timestamps
import Collocate.Gateway.Admission
import Collocate.Gateway.Pipelining
import Collocate.Gateway.Retries
import Collocate.Image.Confined
import Collocate.Image.Commit
import Collocate.Image.Roundtrip
