import Magneto.Lib.Machine
import Magneto.Lib.ListSet
import Magneto.Lib.KeyedList
import Magneto.Lib.ObjectPool
import Magneto.Lib.Word
import Magneto.Lib.Custody
import Magneto.Lib.Ledger
import Magneto.Lib.WeightedChoice
import Magneto.Lib.KeyedSum
import Magneto.Lib.Vec
import Magneto.Lib.HeapOrder
import Magneto.Lib.Probe
import Magneto.Lib.Cells
import Magneto.IOHelper
import Magneto.Model
import Magneto.FramedRead
import Magneto.FramedWrite
import Magneto.Rapid
import Magneto.Thrift
import Magneto.RedisParser
import Magneto.Redis
import Magneto.RedisText
import Magneto.RedisReply
import Magneto.ProtocolRead
import Magneto.RedisPayload
import Magneto.RedisAccept
import Magneto.RedisLocal
import Magneto.RedisStream
import Magneto.RedisConn
import Magneto.RedisPrefix
import Magneto.RedisOffset
import Magneto.RedisOutput
import Magneto.RedisCmd
import Magneto.RedisWriter
import Magneto.EventsDriver
import Magneto.Session
import Magneto.AgentSlave
import Magneto.IOBasic
import Magneto.TalkLife
import Magneto.SessionSpec
import Magneto.AgentSlaveSpec
import Magneto.SessionInv
import Magneto.SessionRun
import Magneto.TalkSolo
import Magneto.TalkSim
import Magneto.TalkStep
import Magneto.TalkConform
import Magneto.TalkDeadline
import Magneto.SessionOrder
import Magneto.TalkAccount
import Magneto.TalkFds
import Magneto.IOBasicFiling
import Magneto.IOBasicErrors
import Magneto.IOBasicSets
import Magneto.IOBasicRead
import Magneto.IOBasicSingle
import Magneto.SessionProgress
import Magneto.IOBasicRun
import Magneto.IOBasicCache
import Magneto.IOBasicPools
import Magneto.SessionOutcome
import Magneto.RapidTalk
import Magneto.RapidStream
import Magneto.RapidCodes
import Magneto.ThriftStream
import Magneto.IOBasicOutcome
import Magneto.Confs
import Magneto.ConnsMgr
import Magneto.ConnsMgrSpec
import Magneto.ConnsCalls
import Magneto.ConnsAge
import Magneto.ConnsCapacity
import Magneto.ConnsSelect
import Magneto.ConnsSafe
import Magneto.ConfsSafe
import Magneto.ConfsNames
import Magneto.ConnsLedger
import Magneto.ConnsRun
import Magneto.ConnsInv
import Magneto.ConnsAbsent
import Magneto.Server
import Magneto.ServerInv
import Magneto.ServerLimit
import Magneto.ServerSessions
import Magneto.ServerReplies
import Magneto.ServerDeadlock
import Magneto.ClientDeadline
import Magneto.Slave
import Magneto.SlaveObjects
import Magneto.SlaveConserved
import Magneto.MsgDestruct
import Magneto.HandOver
import Magneto.HandOverInv
import Magneto.Heap
import Magneto.HeapSpec
import Magneto.HeapRun
import Magneto.EventsDriverHeap
import Magneto.EventsDriverTimers
import Magneto.EventsDriverRefine
import Magneto.EventsDriverRun
import Magneto.AgentDriver
import Magneto.CloseHashmap
import Magneto.CloseHashmapSpec
import Magneto.CloseHashmapOps
import Magneto.CloseHashmapRun
import Magneto.ConnsTable
import Magneto.MPSCFixedPipe
import Magneto.MPSCFixedPipeSpec
import Magneto.MPSCFixedPipeOps
import Magneto.MPSCFixedPipeRun
import Magneto.PipeThreads
import Magneto.PipeThreadsSpec
import Magneto.PipeThreadsMoves
import Magneto.PipeThreadsSteps
import Magneto.PipeThreadsReceiver
import Magneto.PipeThreadsRun
import Magneto.PoolObjs
import Magneto.PoolObjsRun
import Magneto.Scheduler
import Magneto.SchedulerRun
import Magneto.VersionedConfServices
