import Dssd.Runs
import Dssd.Ledger
import Dssd.RaftNode
import Dssd.RaftCluster
import Dssd.RaftMethods
import Dssd.RaftSteps
import Dssd.RaftInvariant
import Dssd.RaftSimulation
import Dssd.RaftSafety
import Dssd.RaftAppend
import Dssd.RaftRange
import Dssd.RaftQuorum
import Dssd.RaftHint
import Dssd.RaftRepair
import Dssd.RaftProgress
import Dssd.Book
import Dssd.RaftBook
import Dssd.MemoryNetwork
import Dssd.NetworkSplit
import Dssd.NetworkMajority
import Dssd.AgentWorld
import Dssd.MirrorFold
import Dssd.AgentBounce
import Dssd.AgentGrid
import Dssd.RegionServer
import Dssd.RegionSteps
import Dssd.RegionDurable
import Dssd.RegionRegistry
import Dssd.RegionFailed
import Dssd.RegionFence
import Dssd.RegionLoss
import Dssd.RegionSteady
import Dssd.RegionSynced
import Dssd.RegionTokens
import Dssd.RegionOnce
import Dssd.RegionPhase
import Dssd.RegionRest
import Dssd.Dict
import Dssd.SwimNode
import Dssd.Quota
import Dssd.SwimBroadcasts
import Dssd.SwimTimers
import Dssd.SwimExpiry
import Dssd.SwimGossip
import Dssd.RoundBarrier
import Dssd.BarrierLoop
import Dssd.BarrierRounds
import Dssd.BarrierWaiters
import Dssd.DilocoWorker
import Dssd.DilocoRounds
import Dssd.DilocoProgress
import Dssd.DilocoMajority
import Dssd.PlaygroundCrash
import Dssd.Addr
import Dssd.Grounded
import Dssd.SwimProcess
import Dssd.SwimRefute
import Dssd.SwimRequests
import Dssd.SwimAcks
import Dssd.SwimRumors
import Dssd.SwimJoin
import Dssd.SwimCrash
import Dssd.SwimSplit
import Dssd.SwimRevive
import Dssd.SwimVerdict
import Dssd.SwimRest
import Dssd.PlaygroundFeed
import Dssd.PlaygroundPage
import Dssd.SwimWire
import Dssd.SwimUntyped
import Dssd.SwimPackets
import Dssd.SwimEncode
