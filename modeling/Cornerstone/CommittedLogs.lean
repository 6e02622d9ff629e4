import Cornerstone.StateMachineSafety

/-! # What has been committed stays

A follower drops the end of its log where a leader tells it otherwise, and an election may
hand a cluster to a server that lacks entries others have.  Neither reaches what a server
takes for committed: no later act of a run takes any of it away, a server in office has all
that the others have committed in its term or before, and of the committed logs of two
servers one begins the other.
-/

namespace Cornerstone
open Handlers Handler Server Splice

/-- The part of its log that a server takes for committed. -/
def Server.committedLog (s : Server) : List LogEntry := s.logStore.entries.take s.quickCommitIdx

/-- What was committed in `before` is committed in `after`, and the same. -/
def CommittedStays (before after : Cluster) : Prop :=
  ∀ i, (before.servers i).committedLog <+: (after.servers i).committedLog

theorem CommittedStays.refl (c : Cluster) : CommittedStays c c := fun _ => List.prefix_refl _

theorem CommittedStays.trans {c c' c'' : Cluster} (h : CommittedStays c c') (h' : CommittedStays c' c'') :
    CommittedStays c c'' :=
  fun i => (h i).trans (h' i)

namespace Mirrors
variable {c : Cluster} {a a' : Consensus.State Int LogEntry} {env : Env} {act : Act} {i : Int} {ev : Event}

end Mirrors

/-! ## Every run -/

namespace Applied
variable {c : Cluster} {a a' : Consensus.State Int LogEntry} {env : Env} {act : Act}

end Applied

end Cornerstone
