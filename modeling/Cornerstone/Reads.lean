import Cornerstone.Background

/-! # Handlers that only read

Looking something up in the log, in the last snapshot or among the peers changes
nothing, but may end the process.  Every law that allows this is obeyed.
-/

namespace Cornerstone
open Handlers Handler Server

/-- A law that allows the process to end. -/
def Exits (R : Server → List Effect → Server → Prop) : Prop :=
  ∀ s code, R s [.systemExit code] { s with exited := true }

variable {R : Server → List Effect → Server → Prop} {s : Server}

theorem reads_exit {α : Type} (hx : Exits R) (code : Int) :
    Obeys R s (systemExitAndExit code : Action α) := hx s code

theorem reads_derefPeer (hR : Law R) (r : PeerRef) : Obeys R s (derefPeer r) := by
  refine .look_bind ?_
  cases s.peerAt? r with
  | none => exact .halt hR _
  | some p => exact .pure hR _

theorem reads_entryAt (hR : Law R) (idx : Nat) : Obeys R s (entryAt idx) := by
  refine .look_bind ?_
  cases s.logStore.entryAt? idx with
  | none => exact .ite (fun _ => .halt hR _) fun _ => .halt hR _
  | some e => exact .pure hR _

theorem reads_termAt (hR : Law R) (idx : Nat) : Obeys R s (termAt idx) := by
  refine .look_bind ?_
  cases s.logStore.termAt? idx with
  | none => exact .halt hR _
  | some t => exact .pure hR _

theorem reads_termForLog (hR : Law R) (hx : Exits R) (env : Env) (idx : Nat) :
    Obeys R s (termForLog env idx) := by
  refine .look_bind (.ite (fun _ => .pure hR _) fun _ => .ite (fun _ => reads_termAt hR _) fun _ => ?_)
  cases env.lastSnapshot with
  | none => exact reads_exit hx _
  | some snp => exact .ite (fun _ => reads_exit hx _) fun _ => .pure hR _

theorem reads_confInForce (hR : Law R) (env : Env) (committedIdx : Nat) :
    ∀ {fuel : Nat} {conf : ClusterConfig} {s : Server}, Obeys R s (confInForce env committedIdx fuel conf)
  | 0, _, _ => .halt hR _
  | fuel + 1, conf, s => by
    refine .look_bind (.ite (fun _ => .bind hR (reads_entryAt hR _) fun e _ => ?_) fun _ => .pure hR _)
    split
    · exact .halt hR _
    · exact reads_confInForce hR env committedIdx

theorem reads_confOrSnapshot (hR : Law R) (hx : Exits R) (env : Env) (committedIdx : Nat)
    (conf : ClusterConfig) : Obeys R s (confOrSnapshot env committedIdx conf) := by
  refine .look_bind (.ite (fun _ => ?_) fun _ => .ite (fun _ => reads_exit hx _) fun _ => .pure hR _)
  cases env.lastSnapshot with
  | none => exact reads_exit hx _
  | some snp => exact .pure hR _

end Cornerstone
