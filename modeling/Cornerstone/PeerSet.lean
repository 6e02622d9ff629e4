import Cornerstone.PeerMoves
import Cornerstone.Quorums

/-! # The peers and the configuration

`reconfigure` computes what to add and what to remove as two differences between a
list and a map, and applies them one by one.  `Follows` says what the map of peers is to
be afterwards, looked at through `peers_.find`, which both loops change at one id only.
-/

namespace Cornerstone
open Handlers Handler Server

variable {s t : Server} {o : List Effect} {newConfig : ClusterConfig}

/-! ## No peer twice -/

theorem PeerMove.nodup {slips : Prop} (h : PeerMove slips s o t) (hs : s.cluster.Nodup) : t.cluster.Nodup := by
  have hsame : t.id = s.id → t.peerIds = s.peerIds → t.cluster.Nodup := by
    intro hid hids
    rwa [Server.cluster, hid, hids]
  have hids : ∀ {u : Server}, u.peerIds = u.marks.map Prod.fst := by
    intro u
    rw [Server.peerIds, Server.marks, List.map_map]
    rfl
  obtain ⟨hself, hnodup⟩ := List.nodup_cons.mp hs
  cases h with
  | idle h => exact hsame h.id (peerIds_of_marks h.marks)
  | ask hid _ _ _ hm _ =>
    refine hsame hid ?_
    rw [hids, hids, hm, List.map_map]
    refine List.map_congr_left fun m _ => ?_
    rw [Function.comp_apply, markBusy]
    split <;> rfl
  | add hid hother hnew _ hm =>
    rename_i p _
    have hadd : t.peerIds = s.peerIds ++ [p.id] := by
      rw [hids, hids, hm, List.map_append]
      rfl
    rw [Server.cluster, hid, hadd]
    refine List.nodup_cons.mpr ⟨?_, List.nodup_append.mpr ⟨hnodup, List.nodup_singleton _, ?_⟩⟩
    · simpa [hself] using Ne.symm hother
    · rintro a ha b hb rfl
      exact hnew (List.mem_singleton.mp hb ▸ ha)
  | erase hid hm =>
    have hsub : t.peerIds.Sublist s.peerIds := by
      rw [hids, hids, hm]
      exact List.filter_sublist.map _
    rw [Server.cluster, hid]
    exact List.nodup_cons.mpr ⟨fun hmem => hself (hsub.subset hmem), hnodup.sublist hsub⟩
  | slip _ hid hids _ => exact hsame hid hids

theorem moves_nodup {slips : Prop} (h : Moves slips s o t) (hs : s.cluster.Nodup) : t.cluster.Nodup := by
  induction h with
  | refl _ => exact hs
  | step h _ ih => exact ih (h.nodup hs)

/-- The server after a run. -/
def Server.afterAll (s : Server) : List (Env × Occurrence) → Server
  | [] => s
  | (env, x) :: xs => (s.after (occur env x)).afterAll xs

theorem after_cases (x : Action Unit) (s : Server) : ∃ e, s.after x = s ∨ s.after x = { (x s).state with exited := e } := by
  unfold Server.after
  split
  · exact ⟨true, .inl rfl⟩
  · split
    · exact ⟨_, .inr rfl⟩
    · split
      · exact ⟨true, .inr rfl⟩
      · exact ⟨_, .inr rfl⟩

theorem nodup_after (env : Env) (x : Occurrence) (hs : s.cluster.Nodup) : (s.after (occur env x)).cluster.Nodup := by
  have hmoved : (occur env x s).state.cluster.Nodup := moves_nodup (moves_occur env x) hs
  obtain ⟨e, h | h⟩ := after_cases (occur env x) s
  · rwa [h]
  · rw [h]
    exact hmoved

theorem nodup_afterAll : ∀ {run : List (Env × Occurrence)} {s : Server}, s.cluster.Nodup →
    (s.afterAll run).cluster.Nodup
  | [], _, hs => hs
  | (env, x) :: _, s, hs => nodup_afterAll (s := s.after (occur env x)) (nodup_after env x hs)

theorem insertPeer_ids (peers : List Peer) (p : Peer) :
    (insertPeer peers p).map Peer.id = if p.id ∈ peers.map Peer.id then peers.map Peer.id
      else peers.map Peer.id ++ [p.id] := by
  unfold insertPeer
  split
  · rfl
  · rw [List.map_append]
    rfl

theorem start_nodup (id : Int) (params : RaftParams) (state : Option SrvState) (logStore : LogStore)
    (config : ClusterConfig) : (Server.start id params state logStore config).cluster.Nodup := by
  have hfold : ∀ (srvs : List SrvConfig) (peers : List Peer), (∀ srv ∈ srvs, srv.id ≠ id) →
      (id :: peers.map Peer.id).Nodup →
      (id :: (srvs.foldl (fun peers srv => insertPeer peers (Peer.new params srv)) peers).map Peer.id).Nodup := by
    intro srvs
    induction srvs with
    | nil => exact fun _ _ h => h
    | cons srv srvs ih =>
      intro peers hne h
      refine ih _ (fun r hr => hne r (List.mem_cons_of_mem _ hr)) ?_
      obtain ⟨hself, hnodup⟩ := List.nodup_cons.mp h
      have hsrv : srv.id ≠ id := hne srv List.mem_cons_self
      have hid : (Peer.new params srv).id = srv.id := rfl
      rw [insertPeer_ids, hid]
      split
      · exact h
      · rename_i hnew
        refine List.nodup_cons.mpr ⟨?_, List.nodup_append.mpr ⟨hnodup, List.nodup_singleton _, ?_⟩⟩
        · simpa [Ne.symm hsrv] using hself
        · rintro a ha b hb rfl
          exact hnew (List.mem_singleton.mp hb ▸ ha)
  refine hfold _ [] (fun srv hsrv => ?_) (List.nodup_singleton id)
  simpa using (List.mem_filter.mp hsrv).2

/-! ## What adding and erasing do to `peers_.find` -/

/-- The next index of a peer that is added: that of the server being brought in, on the
leader that does it, or the end of the log. -/
def Server.addedNextIdx (s : Server) (x : Int) : Nat :=
  match s.srvToJoin with
  | some joining => if s.role = .leader ∧ joining.id = x then joining.nextLogIdx else s.logStore.nextSlot
  | none => s.logStore.nextSlot

/-- The peer object for a server that is added. -/
def Server.newPeer (s : Server) (srv : SrvConfig) : Peer :=
  { Peer.new s.params srv with nextLogIdx := s.addedNextIdx srv.id, hbEnabled := s.role = .leader }

theorem addedPeer_eq (srv : SrvConfig) : s.addedPeer srv = s.newPeer srv := by
  unfold Server.addedPeer Server.newPeer Server.addedNextIdx Server.finishesJoin
  cases s.srvToJoin <;> simp

theorem findPeer_withServer (srv : SrvConfig) (x : Int) :
    (s.withServer srv).findPeer x = (s.findPeer x).or (if srv.id = x then some (s.newPeer srv) else none) := by
  have hid : (s.newPeer srv).id = srv.id := rfl
  simp only [Server.withServer, Server.findPeer, addedPeer_eq, insertPeer, hid]
  split
  · rename_i hmem
    by_cases hx : srv.id = x
    · obtain ⟨p, hp⟩ := Option.isSome_iff_exists.mp (findPeer_isSome.mpr (hx ▸ hmem : x ∈ s.peerIds))
      have hp' : s.peers.find? (fun p => decide (p.id = x)) = some p := hp
      rw [hp', Option.some_or]
    · rw [if_neg hx, Option.or_none]
  · rw [List.find?_append, List.find?_singleton, hid]
    simp only [decide_eq_true_eq]

theorem findPeer_withoutPeer (pid x : Int) :
    (s.withoutPeer pid).findPeer x = if x = pid then none else s.findPeer x := by
  simp only [Server.withoutPeer, Server.findPeer, List.find?_filter]
  split
  · rename_i hx
    subst hx
    simp
  · rename_i hx
    congr 1
    funext p
    by_cases hp : p.id = x
    · simp [hp, hx]
    · simp [hp]

/-! ## The loops -/

/-- The server with servers added one by one. -/
def Server.withServers (s : Server) (srvs : List SrvConfig) : Server := srvs.foldl Server.withServer s

theorem addServers_run : ∀ (srvs : List SrvConfig) (s : Server),
    forEach addServer srvs s = ⟨.ok (), s.withServers srvs, []⟩
  | [], _ => rfl
  | srv :: srvs, s => by
    rw [forEach_cons, bind_run, addServer_run, Outcome.andThen_ok, addServers_run srvs]
    rfl

/-- What adding servers leaves alone. -/
structure Grown (s t : Server) : Prop where
  id : t.id = s.id
  catchingUp : t.catchingUp = s.catchingUp
  role : t.role = s.role
  params : t.params = s.params
  logStore : t.logStore = s.logStore

theorem grown_withServer (srv : SrvConfig) : Grown s (s.withServer srv) := ⟨rfl, rfl, rfl, rfl, rfl⟩

theorem newPeer_withServer {srv srv' : SrvConfig} (h : srv.id ≠ srv'.id) :
    (s.withServer srv).newPeer srv' = s.newPeer srv' := by
  have hnext : (s.withServer srv).addedNextIdx srv'.id = s.addedNextIdx srv'.id := by
    unfold Server.addedNextIdx Server.withServer Server.finishesJoin
    cases hj : s.srvToJoin with
    | none => simp
    | some joining =>
      by_cases hfin : s.role = .leader ∧ joining.id = srv.id
      · simp [hfin, h]
      · simp [hfin]
  rw [Server.newPeer, hnext]
  rfl

/-- The first server with an id is the one that is added under it. -/
theorem withServers_spec : ∀ (srvs : List SrvConfig) (s : Server), Grown s (s.withServers srvs) ∧
    (∀ x, (s.withServers srvs).findPeer x =
      (s.findPeer x).or ((srvs.find? (·.id = x)).map s.newPeer)) ∧
    (s.withServers srvs).srvToJoin =
      if s.role = .leader ∧ ∃ srv ∈ srvs, s.srvToJoin.any (·.id = srv.id) = true then none else s.srvToJoin
  | [], s => ⟨⟨rfl, rfl, rfl, rfl, rfl⟩, fun x => by simp [Server.withServers], by simp [Server.withServers]⟩
  | srv :: srvs, s => by
    obtain ⟨hgrown, hfind, hjoin⟩ := withServers_spec srvs (s.withServer srv)
    refine ⟨⟨hgrown.id, hgrown.catchingUp, hgrown.role, hgrown.params, hgrown.logStore⟩, fun x => ?_, ?_⟩
    · refine (hfind x).trans ?_
      rw [findPeer_withServer, Option.or_assoc, List.find?_cons]
      by_cases hx : srv.id = x
      · simp [hx]
      · simp only [hx, decide_false, if_neg, not_false_eq_true, Option.none_or]
        cases hs : srvs.find? (fun srv => decide (srv.id = x)) with
        | none => rfl
        | some srv' =>
          have hid : srv'.id = x := by simpa using List.find?_some hs
          rw [Option.map_some, Option.map_some, newPeer_withServer (hid ▸ hx)]
    · refine hjoin.trans ?_
      have hrole : (s.withServer srv).role = s.role := rfl
      have hfirst : (s.withServer srv).srvToJoin = if s.finishesJoin srv then none else s.srvToJoin := rfl
      rw [hrole, hfirst]
      by_cases hr : s.role = .leader
      · by_cases hfin : s.srvToJoin.any (·.id = srv.id) = true
        · simp [Server.finishesJoin, hr, hfin]
        · simp [Server.finishesJoin, hr, hfin]
      · simp [Server.finishesJoin, hr]

/-- The server without these peers. -/
def Server.withoutPeers (s : Server) (pids : List Int) : Server := pids.foldl Server.withoutPeer s

theorem findPeer_withoutPeers : ∀ (pids : List Int) (s : Server) (x : Int),
    (s.withoutPeers pids).findPeer x = if x ∈ pids then none else s.findPeer x
  | [], _, _ => by simp [Server.withoutPeers]
  | pid :: pids, s, x => by
    refine (findPeer_withoutPeers pids (s.withoutPeer pid) x).trans ?_
    rw [findPeer_withoutPeer]
    by_cases hx : x = pid
    · simp [hx]
    · simp [hx]

theorem withoutPeers_srvToJoin : ∀ (pids : List Int) (s : Server), (s.withoutPeers pids).srvToJoin = s.srvToJoin
  | [], _ => rfl
  | pid :: pids, s => withoutPeers_srvToJoin pids (s.withoutPeer pid)

theorem erasePeer_run (pid : Int) :
    erasePeer pid s = ⟨.ok (), s.withoutPeer pid, ((s.findPeer pid).map fun p => .erasePeer (p.enableHb false)).toList⟩ := by
  cases hp : s.findPeer pid with
  | some p => simp [erasePeer, hp, Server.withoutPeer]
  | none =>
    have hmem : ∀ p ∈ s.peers, p.id ≠ pid := by simpa [Server.findPeer] using hp
    have hstays : s.withoutPeer pid = s := by
      rw [Server.withoutPeer, List.filter_eq_self.mpr fun p h => decide_eq_true (hmem p h)]
    simp [erasePeer, hp, hstays]

/-- Unless the loop comes upon the server itself, it erases every peer it is given, and
each goes with its heartbeat disabled. -/
theorem removeServers_run : ∀ {pids : List Int} {s : Server}, (s.id ∈ pids → s.catchingUp = true) →
    ∃ o, removeServers newConfig pids s = ⟨.ok false, s.withoutPeers pids, o⟩ ∧
      ∀ pid ∈ pids, ∀ p, s.findPeer pid = some p → .erasePeer (p.enableHb false) ∈ o
  | [], _, _ => ⟨[], rfl, fun _ h => absurd h List.not_mem_nil⟩
  | pid :: pids, s, hself => by
    have hgo : ¬ (pid = s.id ∧ s.catchingUp = false) := by
      rintro ⟨rfl, hcatch⟩
      rw [hself List.mem_cons_self] at hcatch
      cases hcatch
    have hrest : (s.withoutPeer pid).id ∈ pids → (s.withoutPeer pid).catchingUp = true :=
      fun hmem => hself (List.mem_cons_of_mem _ hmem)
    obtain ⟨o, hrun, ho⟩ := removeServers_run hrest
    refine ⟨((s.findPeer pid).map fun p => .erasePeer (p.enableHb false)).toList ++ o, ?_, fun x hx p hp => ?_⟩
    · simp only [removeServers, bind_run, look_run, Outcome.andThen_ok, ite_run, if_neg hgo, erasePeer_run, hrun,
        List.nil_append]
      rfl
    · by_cases hfirst : x = pid
      · subst hfirst
        rw [hp]
        exact List.mem_append_left _ (by simp)
      · refine List.mem_append_right _ (ho x ((List.mem_cons.mp hx).resolve_left hfirst) p ?_)
        rwa [findPeer_withoutPeer, if_neg hfirst]

/-! ## reconfigure -/

/-- The peers follow the configuration: its servers other than this one, those that were
there before with the objects they had, the others with new ones.  A peer that had to
leave did so with its heartbeat disabled. -/
structure Follows (newConfig : ClusterConfig) (s : Server) (o : List Effect) (t : Server) : Prop where
  config : t.config = newConfig
  keys : ∀ x, x ∈ t.peerIds ↔ (∃ srv ∈ newConfig.servers, srv.id = x) ∧ x ≠ s.id
  kept : ∀ x ∈ t.peerIds, x ∈ s.peerIds → t.findPeer x = s.findPeer x
  added : ∀ x ∈ t.peerIds, x ∉ s.peerIds →
    ∃ srv, newConfig.getServer x = some srv ∧ t.findPeer x = some (s.newPeer srv)
  joined : t.srvToJoin = if s.role = .leader ∧ ∃ joining, s.srvToJoin = some joining ∧ joining.id ∈ t.peerIds ∧
    joining.id ∉ s.peerIds then none else s.srvToJoin
  removed : ∀ p ∈ s.peers, p.id ∉ t.peerIds → .erasePeer (p.enableHb false) ∈ o

/-- The servers `reconfigure` adds. -/
def Server.srvsAdded (s : Server) (newConfig : ClusterConfig) : List SrvConfig :=
  newConfig.servers.filter fun srv => srv.id ∉ s.peerIds ∧ srv.id ≠ s.id

/-- The ids `reconfigure` removes. -/
def Server.srvsRemoved (s : Server) (newConfig : ClusterConfig) : List Int :=
  s.peerIds.filter (fun id => newConfig.getServer id = none) ++
    (if newConfig.getServer s.id = none then [s.id] else [])

theorem getServer_isSome {x : Int} : newConfig.getServer x ≠ none ↔ ∃ srv ∈ newConfig.servers, srv.id = x := by
  simp [ClusterConfig.getServer]

theorem find_srvsAdded (x : Int) : (s.srvsAdded newConfig).find? (·.id = x) =
    if x ∈ s.peerIds ∨ x = s.id then none else newConfig.getServer x := by
  rw [Server.srvsAdded, List.find?_filter, ClusterConfig.getServer]
  split
  · rename_i hx
    refine List.find?_eq_none.mpr fun srv _ => ?_
    simp only [decide_eq_true_eq]
    rintro ⟨⟨hnew, hother⟩, rfl⟩
    exact hx.elim hnew hother
  · rename_i hx
    push Not at hx
    congr 1
    funext srv
    by_cases hid : srv.id = x
    · simp [hid, hx]
    · simp [hid]

theorem mem_srvsRemoved {x : Int} : x ∈ s.srvsRemoved newConfig ↔ x ∈ s.cluster ∧ newConfig.getServer x = none := by
  rw [Server.srvsRemoved, Server.cluster, List.mem_append, List.mem_filter, List.mem_cons, decide_eq_true_eq]
  split
  · rename_i hself
    constructor
    · rintro (⟨hmem, hnone⟩ | hmem)
      · exact ⟨.inr hmem, hnone⟩
      · exact ⟨.inl (List.mem_singleton.mp hmem), List.mem_singleton.mp hmem ▸ hself⟩
    · rintro ⟨rfl | hmem, hnone⟩
      · exact .inr (List.mem_singleton.mpr rfl)
      · exact .inl ⟨hmem, hnone⟩
  · rename_i hself
    constructor
    · rintro (⟨hmem, hnone⟩ | hmem)
      · exact ⟨.inr hmem, hnone⟩
      · exact absurd hmem List.not_mem_nil
    · rintro ⟨rfl | hmem, hnone⟩
      · exact absurd hnone hself
      · exact .inl ⟨hmem, hnone⟩

/-- The server after both loops, with the new configuration. -/
def Server.reconfigured (s : Server) (newConfig : ClusterConfig) : Server :=
  { (s.withServers (s.srvsAdded newConfig)).withoutPeers (s.srvsRemoved newConfig) with config := newConfig }

theorem findPeer_reconfigured (hself : s.id ∉ s.peerIds) (x : Int) : (s.reconfigured newConfig).findPeer x =
    if newConfig.getServer x = none ∨ x = s.id then none
      else (s.findPeer x).or ((newConfig.getServer x).map s.newPeer) := by
  have hfind : (s.reconfigured newConfig).findPeer x =
      ((s.withServers (s.srvsAdded newConfig)).withoutPeers (s.srvsRemoved newConfig)).findPeer x := rfl
  obtain ⟨-, hadded, -⟩ := withServers_spec (s.srvsAdded newConfig) s
  rw [hfind, findPeer_withoutPeers, hadded, find_srvsAdded]
  have hnone : x ∉ s.peerIds → s.findPeer x = none := fun hx =>
    Option.not_isSome_iff_eq_none.mp (mt findPeer_isSome.mp hx)
  have hremoved : x ∈ s.srvsRemoved newConfig ↔ (x = s.id ∨ x ∈ s.peerIds) ∧ newConfig.getServer x = none := by
    rw [mem_srvsRemoved, Server.cluster, List.mem_cons]
  by_cases hx : x = s.id
  · subst hx
    simp [hnone hself]
  · by_cases hmem : x ∈ s.peerIds
    · obtain ⟨p, hp⟩ := Option.isSome_iff_exists.mp (findPeer_isSome.mpr hmem)
      simp [hremoved, hx, hmem, hp]
    · rw [hnone hmem]
      by_cases hsrv : newConfig.getServer x = none
      · simp [hremoved, hsrv]
      · simp [hremoved, hx, hmem, hsrv]

/-- Both loops come to their end unless this server has to go. -/
theorem reconfigure_run
    (h : newConfig.getServer s.id ≠ none ∨ s.catchingUp = true) :
    ∃ o, reconfigure newConfig s = ⟨.ok (), s.reconfigured newConfig, o⟩ ∧
      ∀ pid ∈ s.srvsRemoved newConfig, ∀ p, s.findPeer pid = some p → .erasePeer (p.enableHb false) ∈ o := by
  obtain ⟨hgrown, hadded, -⟩ := withServers_spec (s.srvsAdded newConfig) s
  have hstay : (s.withServers (s.srvsAdded newConfig)).id ∈ s.srvsRemoved newConfig →
      (s.withServers (s.srvsAdded newConfig)).catchingUp = true := by
    rw [hgrown.id, hgrown.catchingUp]
    exact fun hmem => h.resolve_left fun hin => hin (mem_srvsRemoved.mp hmem).2
  obtain ⟨o, hrun, ho⟩ := @removeServers_run newConfig _ _ hstay
  refine ⟨o, ?_, fun pid hmem p hp => ho pid hmem p ?_⟩
  · simp only [Server.srvsAdded, Server.srvsRemoved] at hrun
    simp only [reconfigure, bind_run, look_run, Outcome.andThen_ok, addServers_run, hrun, ite_run, Bool.false_eq_true,
      if_false, change_run, List.nil_append, List.append_nil]
    rfl
  · rw [hadded, hp, Option.some_or]

theorem peerIds_reconfigured (hself : s.id ∉ s.peerIds) (x : Int) :
    x ∈ (s.reconfigured newConfig).peerIds ↔ (∃ srv ∈ newConfig.servers, srv.id = x) ∧ x ≠ s.id := by
  rw [← findPeer_isSome, findPeer_reconfigured hself, ← getServer_isSome]
  by_cases hsrv : newConfig.getServer x = none
  · simp [hsrv]
  · obtain ⟨srv, hsrv'⟩ := Option.ne_none_iff_exists'.mp hsrv
    by_cases hx : x = s.id
    · simp [hx]
    · simp [hsrv', hx]

theorem follows_reconfigured (hs : s.cluster.Nodup)
    (ho : ∀ pid ∈ s.srvsRemoved newConfig, ∀ p, s.findPeer pid = some p → .erasePeer (p.enableHb false) ∈ o) :
    Follows newConfig s o (s.reconfigured newConfig) := by
  obtain ⟨hself, hnodup⟩ := List.nodup_cons.mp hs
  have hkeys : ∀ x, _ := @peerIds_reconfigured s newConfig hself
  have hstays : ∀ x ∈ (s.reconfigured newConfig).peerIds, (s.reconfigured newConfig).findPeer x =
      (s.findPeer x).or ((newConfig.getServer x).map s.newPeer) := by
    intro x hx
    obtain ⟨hin, hother⟩ := (hkeys x).mp hx
    rw [findPeer_reconfigured hself, if_neg]
    exact fun hgone => hgone.elim (getServer_isSome.mpr hin) hother
  constructor
  case config => rfl
  case keys => exact hkeys
  case kept =>
    intro x hx hmem
    obtain ⟨p, hp⟩ := Option.isSome_iff_exists.mp (findPeer_isSome.mpr hmem)
    rw [hstays x hx, hp, Option.some_or]
  case added =>
    intro x hx hnew
    obtain ⟨srv, hsrv⟩ := Option.ne_none_iff_exists'.mp (getServer_isSome.mpr ((hkeys x).mp hx).1)
    refine ⟨srv, hsrv, ?_⟩
    rw [hstays x hx, Option.not_isSome_iff_eq_none.mp (mt findPeer_isSome.mp hnew), Option.none_or, hsrv, Option.map_some]
  case joined =>
    obtain ⟨-, -, hjoin⟩ := withServers_spec (s.srvsAdded newConfig) s
    have hfinal : (s.reconfigured newConfig).srvToJoin = (s.withServers (s.srvsAdded newConfig)).srvToJoin :=
      withoutPeers_srvToJoin _ _
    rw [hfinal, hjoin]
    refine if_congr (and_congr_right fun _ => ?_) rfl rfl
    simp only [Server.srvsAdded, List.mem_filter, decide_eq_true_eq, hkeys]
    cases s.srvToJoin with
    | none => simp
    | some joining =>
      simp only [Option.any_some, decide_eq_true_eq, Option.some.injEq]
      constructor
      · rintro ⟨srv, ⟨hsrv, hnew, hother⟩, hid⟩
        exact ⟨joining, rfl, ⟨⟨srv, hsrv, hid.symm⟩, hid ▸ hother⟩, hid ▸ hnew⟩
      · rintro ⟨joining', rfl, ⟨⟨srv, hsrv, hid⟩, hother⟩, hnew⟩
        exact ⟨srv, ⟨hsrv, hid ▸ hnew, hid ▸ hother⟩, hid.symm⟩
  case removed =>
    intro p hp hgone
    have hmem : p.id ∈ s.peerIds := List.mem_map_of_mem hp
    refine ho p.id (mem_srvsRemoved.mpr ⟨List.mem_cons_of_mem _ hmem, ?_⟩) p (findPeer_of_mem hnodup hp)
    by_contra hsrv
    exact hgone ((hkeys p.id).mpr ⟨getServer_isSome.mp hsrv, fun hid => hself (hid ▸ hmem)⟩)

/-- **The peers follow the configuration.**  No run brings a peer in twice, or the server
itself, and from there `reconfigure` with a configuration this server is in, or on a
server that is catching up, returns with the peers the configuration says. -/
theorem peers_follow_config :
    (∀ id params state logStore config run,
      ((Server.start id params state logStore config).afterAll run).cluster.Nodup) ∧
    ∀ (s : Server) (newConfig : ClusterConfig), s.cluster.Nodup →
      newConfig.getServer s.id ≠ none ∨ s.catchingUp = true →
        (reconfigure newConfig s).res = .ok () ∧
          Follows newConfig s (reconfigure newConfig s).out (reconfigure newConfig s).state := by
  refine ⟨fun id params state logStore config run => nodup_afterAll (start_nodup id params state logStore config),
    fun s newConfig hs h => ?_⟩
  obtain ⟨o, hrun, ho⟩ := reconfigure_run h
  rw [hrun]
  exact ⟨rfl, follows_reconfigured hs ho⟩

/-- A leader of two servers that takes a third, named twice, for the second. -/
theorem peers_follow_config_swap :
    let s : Server := { start 1 {} none {} { servers := [⟨1, [49]⟩, ⟨2, [50]⟩] } with
      role := .leader
      srvToJoin := some { Peer.new {} ⟨3, [51]⟩ with nextLogIdx := 7 } }
    let c : ClusterConfig := { logIdx := 8, servers := [⟨1, [49]⟩, ⟨3, [51]⟩, ⟨3, [52]⟩] }
    Follows c s (reconfigure c s).out (reconfigure c s).state ∧ (reconfigure c s).state.peerIds = [3] ∧
      (reconfigure c s).state.peers.map Peer.nextLogIdx = [7] :=
  ⟨(peers_follow_config.2 _ _ (by decide) (.inl (by decide))).2, by decide, by decide⟩

end Cornerstone
