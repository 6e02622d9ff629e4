import Cornerstone.Cluster
import Cornerstone.LogSync
import Cornerstone.StepRun

/-! # A new server is kept in step

The leader and the server it adds, with the pack on its way between them.  A pack may be lost
and sent again, and the two may do other things meanwhile.  What is left to sync is counted
from the next index, not from the last one, so with a gap of zero or less the last committed
entry is never sent, and the sync goes on for ever.
-/

namespace Cornerstone
open Handlers Handler Server

variable {s t : Server} {env : Env} {resp : RespMsg} {k n : Nat}

theorem Segment.params_eq {s₀ : Server} {ev : Event} {o : List Effect} (h : Segment s₀ ev s o t) :
    t.params = s.params := by
  cases h with
  | book hb ho => rw [hb.rest]
  | install he ht hm hl hf hs hn hge hb ho => rw [hb.rest]
  | quit hl hb hx ho => rw [hb.rest]
  | commitConfig he hbg hm hat hc hd hcfg hb ho => rw [hb.rest]
  | _ => rfl

/-- The law of keeping the parameters. -/
def KeepsParams (s : Server) (_ : List Effect) (t : Server) : Prop := t.params = s.params

theorem keepsParams_law : Law KeepsParams := ⟨fun _ => rfl, fun h h' => h'.trans h⟩

/-- The parameters of a server are those it was started with. -/
theorem Server.params_next (s : Server) (env : Env) (ev : Event) : (s.next env ev).params = s.params := by
  rcases Server.next_cases env ev s with ⟨-, heq⟩ | ⟨x, heq⟩
  · rw [heq]
  · rw [heq]
    have hkeeps : KeepsParams s _ (handle env ev s).state :=
      (handle_path env ev s).lift keepsParams_law fun _ _ _ h => h.params_eq
    exact hkeeps

/-! ## The two of them -/

/-- A leader, the server it adds, the pack between them and the answer to it. -/
structure LogSync where
  leader : Server
  joiner : Server
  request : Option ReqMsg
  answer : Option RespMsg := none

/-- What can happen: the pack reaches the new server, at times more than once since it is
sent again after an error; the last answer reaches the leader; and there are the other
events of both. -/
inductive LogSync.Act
  | deliver (env : Env)
  | hear (env : Env)
  | leads (env : Env) (ev : Event)
  | joins (env : Env) (ev : Event)

namespace LogSync

/-- What an act makes of the two. -/
def next (x : LogSync) : Act → LogSync
  | .deliver env =>
    match x.request with
    | none => x
    | some req =>
      { x with
        joiner := x.joiner.next env (.request req)
        answer := (x.joiner.effects env (.request req)).findSome? Cluster.reply? }
  | .hear env =>
    match x.request, x.answer with
    | some req, some resp =>
      { x with
        leader := x.leader.next env (.extResp (some .joining) req.type resp)
        request := packSent (x.leader.effects env (.extResp (some .joining) req.type resp))
        answer := none }
    | _, _ => x
  | .leads env ev => { x with leader := x.leader.next env ev }
  | .joins env ev => { x with joiner := x.joiner.next env ev }

/-- The leader hears that the server joins. -/
def start (env : Env) (resp : RespMsg) (leader joiner : Server) : LogSync where
  leader := leader.next env (.extResp (some .joining) .joinClusterRequest resp)
  joiner := joiner
  request := packSent (leader.effects env (.extResp (some .joining) .joinClusterRequest resp))

/-- A pack with `es` for behind index `k` is on its way, or has arrived.  The new server has
the first `k` entries of the leader's log by then. -/
structure InFlight (x : LogSync) (req : ReqMsg) (k : Nat) (es : List LogEntry) : Prop where
  adding : x.leader.Adding
  broughtIn : x.joiner.BroughtIn
  carries : req.Carries k es
  slice : es <+: x.leader.logStore.entries.drop k
  reached : k ≤ x.joiner.logStore.entries.length
  begun : x.joiner.logStore.entries.take k <+: x.leader.logStore.entries
  answered : ∀ resp, x.answer = some resp → resp.type = .syncLogResponse ∧ resp.nextIdx = k + es.length + 1 ∧
    x.joiner.logStore.entries.length = k + es.length ∧ x.joiner.logStore.entries <+: x.leader.logStore.entries

variable {x : LogSync} {req : ReqMsg} {es : List LogEntry}

theorem next_deliver (env : Env) (hr : x.request = some req) : x.next (.deliver env) =
    { x with
      joiner := x.joiner.next env (.request req)
      answer := (x.joiner.effects env (.request req)).findSome? Cluster.reply? } := by
  simp only [next, hr]

theorem next_hear (env : Env) (hr : x.request = some req) (ha : x.answer = some resp) : x.next (.hear env) =
    { x with
      leader := x.leader.next env (.extResp (some .joining) req.type resp)
      request := packSent (x.leader.effects env (.extResp (some .joining) req.type resp))
      answer := none } := by
  simp only [next, hr, ha]

namespace InFlight

/-- The leader's log begins with what the new server is to have. -/
theorem spliced (h : x.InFlight req k es) : x.joiner.logStore.entries.take k ++ es <+: x.leader.logStore.entries := by
  have hk : (x.joiner.logStore.entries.take k).length = k := List.length_take_of_le h.reached
  have htake : x.joiner.logStore.entries.take k = x.leader.logStore.entries.take k := by
    rw [List.prefix_iff_eq_take.mp h.begun, hk]
  obtain ⟨rest, hrest⟩ := h.slice
  rw [htake]
  refine ⟨rest, ?_⟩
  rw [List.append_assoc, hrest, List.take_append_drop]

/-- The pack arrives, for the first time or again. -/
theorem deliver (h : x.InFlight req k es) (hr : x.request = some req) (env : Env) :
    (x.next (.deliver env)).InFlight req k es ∧ ∃ resp, (x.next (.deliver env)).answer = some resp := by
  obtain ⟨hnext, heff⟩ := h.broughtIn.unpacks h.carries h.reached env
  have hlen : ((x.joiner.unpacked k es).logStore.entries).length = k + es.length := by
    simp only [Server.unpacked, Server.committed, List.length_append, List.length_take]
    rw [min_eq_left h.reached]
  have htake : (x.joiner.unpacked k es).logStore.entries.take k = x.joiner.logStore.entries.take k := by
    simp only [Server.unpacked, Server.committed]
    exact List.take_left' (List.length_take_of_le h.reached)
  rw [next_deliver env hr, hnext, heff]
  refine ⟨⟨h.adding, ⟨h.broughtIn.live, h.broughtIn.catchingUp, h.broughtIn.role, h.broughtIn.startIdx⟩, h.carries,
    h.slice, ?_, ?_, ?_⟩, _, rfl⟩
  · rw [hlen]
    exact Nat.le_add_right _ _
  · rw [htake]
    exact h.begun
  · intro resp hresp
    cases hresp
    exact ⟨rfl, rfl, hlen, h.spliced⟩

/-- The leader's log grows and the new server's stays. -/
theorem other {l j : Server} (h : x.InFlight req k es) (hl : l.Adding)
    (hgrows : x.leader.logStore.entries <+: l.logStore.entries) (hj : j.BroughtIn)
    (hsame : j.logStore = x.joiner.logStore) : ({ x with leader := l, joiner := j } : LogSync).InFlight req k es where
  adding := hl
  broughtIn := hj
  carries := h.carries
  slice := h.slice.trans (hgrows.drop k)
  reached := by
    dsimp only
    rw [hsame]
    exact h.reached
  begun := by
    dsimp only
    rw [hsame]
    exact h.begun.trans hgrows
  answered resp hresp := by
    obtain ⟨ht, hn, hlen, hpre⟩ := h.answered resp hresp
    dsimp only
    rw [hsame]
    exact ⟨ht, hn, hlen, hpre.trans hgrows⟩

/-- The leader goes on from where the new server is. -/
theorem sends {n : Nat} {t : Server} {o : List Effect} (hs : s.Adding) {j : Server} (hj : j.BroughtIn)
    (hreached : n - 1 ≤ j.logStore.entries.length) (hbegun : j.logStore.entries.take (n - 1) <+: s.logStore.entries)
    (h : SendsPack s n o t) :
    ∃ req, packSent o = some req ∧ InFlight ⟨t, j, packSent o, none⟩ req (n - 1) (s.sliceAt n) := by
  obtain ⟨⟨p, rfl⟩, req, hreq, rfl⟩ := h
  refine ⟨req, rfl, hs.withJoining p, hj, hreq, List.take_prefix _ _, hreached, hbegun, ?_⟩
  intro resp hresp
  cases hresp

/-- An answer reaches the leader. -/
theorem hear (h : x.InFlight req k es) {resp : RespMsg} (hr : x.request = some req) (ha : x.answer = some resp)
    (env : Env) (hpos : k + es.length + 1 ≤ x.leader.quickCommitIdx ∨ 0 ≤ x.leader.params.logSyncStopGap) :
    x.leader.params.logSyncStopGap ≤ x.leader.quickCommitIdx - (k + es.length + 1 : Nat) ∧
        SendsPack x.leader (k + es.length + 1)
          (x.leader.effects env (.extResp (some .joining) req.type resp)) (x.next (.hear env)).leader ∨
      x.leader.quickCommitIdx - (k + es.length + 1 : Nat) < x.leader.params.logSyncStopGap ∧
        AddsServer x.leader
          (x.leader.effects env (.extResp (some .joining) req.type resp)) (x.next (.hear env)).leader := by
  obtain ⟨ht, hn, hlen, hpre⟩ := h.answered resp ha
  obtain ⟨p, hj⟩ := Option.isSome_iff_exists.mp h.adding.joining
  obtain ⟨p', hrun⟩ := handle_extResp_sync hj ht env req.type
  rw [hn] at hrun
  have hslot := h.adding.nextSlot_eq
  have hle := hpre.length_le
  rw [next_hear env hr ha]
  exact h.adding.hears hrun (Nat.le_add_left 1 _) (by omega) hpos

end InFlight

/-! ## Every run -/

/-- While a pack is on its way the leader goes on adding the server, and only packs change the
log of the new one. -/
def Undisturbed (x : LogSync) : Act → Prop
  | .deliver _ | .hear _ => True
  | .leads env ev => x.request.isSome → (x.leader.next env ev).Adding
  | .joins env ev => x.request.isSome → (x.joiner.next env ev).BroughtIn ∧
      (x.joiner.next env ev).logStore = x.joiner.logStore

/-- Whenever the new server has taken in a pack, its log is a beginning of the leader's log, all
of it to be applied. -/
def Takes (x : LogSync) (env : Env) : Prop :=
  (x.next (.deliver env)).joiner.logStore.entries <+: x.leader.logStore.entries ∧
    (x.next (.deliver env)).joiner.logStore.nextSlot - 1 ≤ (x.next (.deliver env)).joiner.quickCommitIdx

/-- Whenever the leader adds the server for an answer of its own, that server has the leader's
log up to less than the gap from the commit index. -/
def AddsInStep (x : LogSync) (env : Env) : Prop :=
  ∀ req resp, x.request = some req → x.answer = some resp →
    ∀ e ∈ x.leader.effects env (.extResp (some .joining) req.type resp), e.isOriginate = true →
      x.joiner.logStore.entries <+: x.leader.logStore.entries ∧
        (x.leader.quickCommitIdx : Int) - x.joiner.logStore.nextSlot < x.leader.params.logSyncStopGap

/-- What is asked of an act. -/
def InStep (x : LogSync) : Act → Prop
  | .deliver env => x.request.isSome → x.Takes env
  | .hear env => x.AddsInStep env
  | _ => True

/-- Whatever is on its way is a pack for what the new server has. -/
structure Synced (x : LogSync) : Prop where
  gap : 0 ≤ x.leader.params.logSyncStopGap
  flight : ∀ req, x.request = some req → ∃ k es, x.InFlight req k es

theorem InFlight.takes (h : x.InFlight req k es) (hr : x.request = some req) (env : Env) : x.Takes env := by
  obtain ⟨hnext, -⟩ := h.broughtIn.unpacks h.carries h.reached env
  unfold Takes
  rw [next_deliver env hr, hnext]
  refine ⟨h.spliced, ?_⟩
  have hlen : (x.joiner.unpacked k es).logStore.nextSlot = 1 + (k + es.length) := by
    rw [LogStore.nextSlot]
    simp only [Server.unpacked, Server.committed, List.length_append, List.length_take]
    rw [h.broughtIn.startIdx, min_eq_left h.reached]
  dsimp only
  rw [hlen, Nat.add_sub_cancel_left]
  exact le_max_right _ _

theorem InFlight.addsInStep (h : x.InFlight req k es) (hr : x.request = some req) (env : Env)
    (hpos : 0 ≤ x.leader.params.logSyncStopGap) : x.AddsInStep env := by
  intro req' resp hr' ha e he horig
  rw [hr] at hr'
  cases hr'
  obtain ⟨-, -, hlen, hpre⟩ := h.answered resp ha
  refine ⟨hpre, ?_⟩
  have hslot : x.joiner.logStore.nextSlot = k + es.length + 1 := by
    rw [LogStore.nextSlot, h.broughtIn.startIdx, hlen, Nat.add_comm]
  rcases h.hear hr ha env (.inr hpos) with ⟨-, -, req', -, hout⟩ | ⟨hgap, -⟩
  · rw [hout, List.mem_singleton] at he
    rw [he] at horig
    cases horig
  · rw [hslot]
    exact hgap

theorem params_next (x : LogSync) (act : Act) : (x.next act).leader.params = x.leader.params := by
  cases act with
  | deliver env =>
    cases hr : x.request with
    | none => simp only [LogSync.next, hr]
    | some req => rw [next_deliver env hr]
  | hear env =>
    cases hr : x.request with
    | none => simp only [LogSync.next, hr]
    | some req =>
      cases ha : x.answer with
      | none => simp only [LogSync.next, hr, ha]
      | some resp =>
        rw [next_hear env hr ha]
        exact Server.params_next _ _ _
  | leads env ev => exact Server.params_next _ _ _
  | joins env ev => rfl

/-- With nothing on its way there is nothing to say. -/
theorem Synced.next_of_none (h : x.Synced) (hr : x.request = none) (act : Act) :
    x.InStep act ∧ (x.next act).Synced := by
  have hgap : 0 ≤ (x.next act).leader.params.logSyncStopGap := by
    rw [params_next]
    exact h.gap
  have hnone : (x.next act).request = none := by
    cases act <;> simp only [LogSync.next, hr]
  refine ⟨?_, hgap, fun req hreq => ?_⟩
  · cases act with
    | deliver env =>
      intro hsome
      rw [hr] at hsome
      cases hsome
    | hear env =>
      intro req resp hreq
      rw [hr] at hreq
      cases hreq
    | _ => trivial
  · rw [hnone] at hreq
    cases hreq

/-- The leader hears of a pack: the next one goes out, or none. -/
theorem InFlight.synced_hear (h : x.InFlight req k es) (hr : x.request = some req)
    (hpos : 0 ≤ x.leader.params.logSyncStopGap) (env : Env) :
    ∀ req', (x.next (.hear env)).request = some req' → ∃ k es, (x.next (.hear env)).InFlight req' k es := by
  intro req' hreq
  cases ha : x.answer with
  | none =>
    have hsame : x.next (.hear env) = x := by simp only [LogSync.next, hr, ha]
    rw [hsame, hr] at hreq
    cases hreq
    rw [hsame]
    exact ⟨k, es, h⟩
  | some resp =>
    obtain ⟨-, -, hlen, hpre⟩ := h.answered resp ha
    have hhear := h.hear hr ha env (.inr hpos)
    rw [next_hear env hr ha] at hreq hhear ⊢
    rcases hhear with ⟨-, hsends⟩ | ⟨-, c, rest, -, hout, -, hnone, -⟩
    · have htake := List.take_of_length_le hlen.le
      obtain ⟨req'', hsent, hgoes⟩ := InFlight.sends h.adding h.broughtIn (n := k + es.length + 1)
        hlen.ge (by rw [Nat.add_sub_cancel, htake]; exact hpre) hsends
      rw [hsent] at hreq
      cases hreq
      exact ⟨_, _, hgoes⟩
    · have hsent : packSent _ = none := hnone
      dsimp only at hreq
      rw [hout] at hreq
      exact absurd (hsent.symm.trans hreq) (by simp)

/-- **One act** leaves the two in step. -/
theorem Synced.next (h : x.Synced) {act : Act} (hact : x.Undisturbed act) : x.InStep act ∧ (x.next act).Synced := by
  cases hr : x.request with
  | none => exact h.next_of_none hr act
  | some req =>
    obtain ⟨k, es, hflight⟩ := h.flight req hr
    have hsome : x.request.isSome := Option.isSome_of_eq_some hr
    have hgap : 0 ≤ (x.next act).leader.params.logSyncStopGap := by
      rw [params_next]
      exact h.gap
    -- the same pack is still on its way
    have hin : (x.next act).request = some req → (∃ k es, (x.next act).InFlight req k es) → (x.next act).Synced := by
      intro hreq hfl
      refine ⟨hgap, fun req' hreq' => ?_⟩
      rw [hreq] at hreq'
      cases hreq'
      exact hfl
    cases act with
    | deliver env =>
      refine ⟨fun _ => hflight.takes hr env, hin ?_ ⟨k, es, (hflight.deliver hr env).1⟩⟩
      rw [next_deliver env hr]
      exact hr
    | hear env => exact ⟨hflight.addsInStep hr env h.gap, hgap, hflight.synced_hear hr h.gap env⟩
    | leads env ev =>
      have hl := hact hsome
      have hgrows := hflight.adding.office.next_growsLog env ev hl.office
      have hpre := hgrows.prefix_entries (hflight.adding.startIdx.trans hl.startIdx.symm)
      exact ⟨trivial, hin hr ⟨k, es, hflight.other hl hpre hflight.broughtIn rfl⟩⟩
    | joins env ev =>
      obtain ⟨hj, hsame⟩ := hact hsome
      exact ⟨trivial, hin hr ⟨k, es, hflight.other hflight.adding (List.prefix_refl _) hj hsame⟩⟩

variable {leader joiner : Server}

end LogSync

namespace LogSync
variable {x : LogSync} {req : ReqMsg} {es : List LogEntry} {leader : Server}

/-- A pack reaches the new server and its answer the leader. -/
def round (envs : Env × Env) (x : LogSync) : LogSync := (x.next (.deliver envs.2)).next (.hear envs.1)

/-- The leader has appended the configuration with the new server, and that has the committed
entries but for less than the gap, unless there were no more than that to begin with. -/
def Completed (leader : Server) (x : LogSync) : Prop :=
  x.request = none ∧
    (∃ c, leader.confToAdd = some c ∧
      x.leader.logStore = leader.logStore.append (leader.nextConfig (leader.config.servers ++ [c]))) ∧
    (leader.quickCommitIdx - (1 : Nat) < leader.params.logSyncStopGap ∨
      x.joiner.logStore.entries <+: leader.logStore.entries ∧
        (leader.quickCommitIdx : Int) - x.joiner.logStore.nextSlot < leader.params.logSyncStopGap)

/-- A pack on its way from a leader to which nothing else has happened.  The last committed
entry is not in it. -/
structure Going (leader : Server) (x : LogSync) (n : Nat) : Prop where
  still : ∃ p, x.leader = { leader with srvToJoin := some p }
  le : n ≤ leader.quickCommitIdx
  flight : ∃ req k es, x.request = some req ∧ x.InFlight req k es ∧ n = k + es.length + 1

theorem length_sliceAt {n : Nat} (h1 : 1 ≤ n) (hn : n ≤ s.quickCommitIdx) (h : s.Adding) :
    (s.sliceAt n).length = s.batchAt n := by
  have hquick := h.committed
  have hslot := h.nextSlot_eq
  rw [Server.sliceAt, List.length_take, List.length_drop]
  unfold Server.batchAt
  omega

/-- An answer reaches the leader: it sends the next pack, or the sync is over. -/
theorem InFlight.hears (h : x.InFlight req k es) (hr : x.request = some req) (ha : x.answer = some resp)
    (hstill : ∃ p, x.leader = { leader with srvToJoin := some p })
    (hle : k + es.length + 1 ≤ leader.quickCommitIdx) (env : Env) :
    (leader.params.logSyncStopGap ≤ leader.quickCommitIdx - (k + es.length + 1 : Nat) ∧
        Going leader (x.next (.hear env)) (k + es.length + 1 + leader.batchAt (k + es.length + 1))) ∨
      (leader.quickCommitIdx - (k + es.length + 1 : Nat) < leader.params.logSyncStopGap ∧
        Completed leader (x.next (.hear env))) := by
  obtain ⟨p, hp⟩ := hstill
  obtain ⟨-, -, hlen, hpre⟩ := h.answered resp ha
  have hadding := h.adding
  have hbrought := h.broughtIn
  have hhear := h.hear hr ha env (.inl (by rw [hp]; exact hle))
  rw [next_hear env hr ha] at hhear ⊢
  rw [hp] at hadding hpre hhear ⊢
  rcases hhear with ⟨hgap, hsends⟩ | ⟨hgap, c, rest, hc, hout, -, hnone, hlog⟩
  · refine .inl ⟨hgap, hsends.1, ?_, ?_⟩
    · unfold Server.batchAt
      omega
    · have htake := List.take_of_length_le hlen.le
      obtain ⟨req', hsent, hgoes⟩ := InFlight.sends hadding hbrought (n := k + es.length + 1) hlen.ge
        (by rw [Nat.add_sub_cancel, htake]; exact hpre) hsends
      have hslice := length_sliceAt (s := { leader with srvToJoin := some p }) (Nat.le_add_left 1 _) hle hadding
      change (leader.sliceAt _).length = leader.batchAt _ at hslice
      refine ⟨req', k + es.length + 1 - 1, leader.sliceAt (k + es.length + 1), hsent, hgoes, ?_⟩
      rw [hslice]
      omega
  · refine .inr ⟨hgap, ?_, ⟨c, hc, hlog⟩, .inr ⟨hpre, ?_⟩⟩
    · dsimp only
      rw [hout]
      exact hnone
    · have hslot : x.joiner.logStore.nextSlot = k + es.length + 1 := by
        rw [LogStore.nextSlot, hbrought.startIdx, hlen, Nat.add_comm]
      dsimp only
      rw [hslot]
      exact hgap

/-- **One round**: the next pack, or the end. -/
theorem Going.round {n : Nat} (h : Going leader x n) (envs : Env × Env) :
    (leader.params.logSyncStopGap ≤ leader.quickCommitIdx - n ∧
        Going leader (x.round envs) (n + leader.batchAt n)) ∨
      (leader.quickCommitIdx - n < leader.params.logSyncStopGap ∧ Completed leader (x.round envs)) := by
  obtain ⟨req, k, es, hr, hflight, rfl⟩ := h.flight
  obtain ⟨hfl, resp, ha⟩ := hflight.deliver hr envs.2
  have hdel := next_deliver envs.2 hr
  apply hfl.hears _ ha _ h.le envs.1
  · rw [hdel]
    exact hr
  · rw [hdel]
    exact h.still

end LogSync

end Cornerstone
