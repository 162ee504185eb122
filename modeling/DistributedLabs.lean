import DistributedLabs.Kvsrv.Deployed
import DistributedLabs.Kvsrv.Keys
import DistributedLabs.Kvsrv.Retries
import DistributedLabs.Labgob.CheckType
import DistributedLabs.Mr.Apps
import DistributedLabs.Mr.Assignments
import DistributedLabs.Mr.Recovery
import DistributedLabs.Porcupine.Events
import DistributedLabs.Raft.Progress
import DistributedLabs.Raft.Roles
import DistributedLabs.Raft.Stability
import DistributedLabs.Raft.VotedFor
