import RustKV.LibDecimal
import RustKV.LibReader
import RustKV.LibTimedMap
import RustKV.LibPrograms
import RustKV.LibProtocols
import RustKV.LibTasks
import RustKV.LibContracts
import RustKV.LibLoops
import RustKV.LibFairLocks
import RustKV.RespEncoder
import RustKV.RespParser
import RustKV.RespLines
import RustKV.RespGrammar
import RustKV.RespStream
import RustKV.RespSafety
import RustKV.RespRoundTrip
import RustKV.Time
import RustKV.Database
import RustKV.DatabaseSpec
import RustKV.Sharded
import RustKV.ShardedSpec
import RustKV.ShardedRuns
import RustKV.ShardedCounts
import RustKV.ShardedStages
import RustKV.ShardedTasks
import RustKV.ShardedBalance
import RustKV.ShardedAtoms
import RustKV.ShardedOrder
import RustKV.ShardedDel
import RustKV.Command
import RustKV.Executor
import RustKV.ExecutorSpec
import RustKV.Effects
import RustKV.Aof
import RustKV.AofRecords
import RustKV.CommandGrammar
import RustKV.AofReplay
import RustKV.ExecutorSafety
import RustKV.Server
import RustKV.ServerSpec
import RustKV.ServerTasks
import RustKV.ServerAccess
import RustKV.AofRuns
import RustKV.AofAppends
import RustKV.AofDecoding
import RustKV.AofTrails
import RustKV.AofRestart
import RustKV.AofRewrite
import RustKV.AofFailures
import RustKV.AofSnapshots
import RustKV.AofOutlines
import RustKV.ServerSteady
import RustKV.ServerLog
import RustKV.ServerWrites
import RustKV.ServerRewrites
import RustKV.ServerBlocking
import RustKV.ServerAgreement
import RustKV.ServerInfo
import RustKV.ShardedExpiry
import RustKV.ServerExpiry
import RustKV.ServerReplies
import RustKV.Connection
import RustKV.ServerLife
import RustKV.ServerSignal
import RustKV.ServerConversations
import RustKV.ServerClients
import RustKV.ServerShutdown
import RustKV.ServerLives
import RustKV.ServerRestarts
import RustKV.Cli
import RustKV.CliShell
import RustKV.CliReplies
