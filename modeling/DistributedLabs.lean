import DistributedLabs.ClerkLinearizable
import DistributedLabs.PutAccounting
import DistributedLabs.LockSafety
import DistributedLabs.JobEquivalence
import DistributedLabs.SwitchDeadlockRun
import DistributedLabs.ReduceAttempt
import DistributedLabs.KvLocality
import DistributedLabs.LabrpcCalls
import DistributedLabs.ServerGrpPartition
import DistributedLabs.DemuxCalls
import DistributedLabs.RaftChecker
import DistributedLabs.ShardConfigBalance
import DistributedLabs.ShardConfigRefusal
import DistributedLabs.CoordinatorStartup
import DistributedLabs.IntermediateFiles
import DistributedLabs.Transport
import DistributedLabs.Labgob
import DistributedLabs.MakePartition
import DistributedLabs.FaultAnnotations
import DistributedLabs.CheckAppends
import DistributedLabs.PutLog
import DistributedLabs.Restarts
import DistributedLabs.CoordinatorProgress
import DistributedLabs.LockProgress
import DistributedLabs.MRApps
import DistributedLabs.LockTestSafety
import DistributedLabs.KVHandlers
import DistributedLabs.RaftHarness
