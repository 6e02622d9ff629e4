import Cornerstone.Cluster
import Cornerstone.NewServer
import Cornerstone.Shares

/-! # What callers are told

`append_entries`, `add_srv` and `remove_srv` make up a request and hand it to the server
that is taken for the leader: to the server itself, or through a client that is kept for
each leader there has been.  The caller gets a result that is set once.  The leader known
may be long out of office, the request or its answer may be lost, and whoever listens at
the endpoint may be anyone; what follows is what the caller can rely on all the same.
-/

namespace Cornerstone
open Handlers Handler Server

/-! ## Requests -/

/-- A call of `append_entries`, `add_srv` or `remove_srv`. -/
inductive ApiCall
  | appendEntries (logs : List Bytes)
  | addSrv (srv : SrvConfig)
  | removeSrv (srvId : Int)
deriving DecidableEq, Repr

/-- A request of a client, which names no server and no place in a log. -/
def ReqMsg.ofClient (type : MsgType) (entries : List LogEntry) : ReqMsg :=
  { term := 0, type := type, src := 0, dst := 0, lastLogTerm := 0, lastLogIdx := 0, commitIdx := 0
    logEntries := entries }

/-- The entries that `append_entries` makes of its buffers. -/
def clientEntries (logs : List Bytes) : List LogEntry := logs.map fun buf => ⟨0, buf, .appLog⟩

/-- The request a call makes up; for no buffers there is none. -/
def ApiCall.req? : ApiCall → Option ReqMsg
  | .appendEntries logs =>
    if logs.length = 0 then none else some (.ofClient .clientRequest (clientEntries logs))
  | .addSrv srv => some (.ofClient .addServerRequest [⟨0, srv.serialize, .clusterServer⟩])
  | .removeSrv srvId => some (.ofClient .removeServerRequest [⟨0, putInt srvId, .clusterServer⟩])

/-- The entries that a call is to bring into the log. -/
def ApiCall.entries : ApiCall → List LogEntry
  | .appendEntries logs => clientEntries logs
  | _ => []

/-- `rpc_clients_`: for each leader there has been the endpoint of the client it got, if it
got one. -/
abbrev RpcClients := List (Int × Option Bytes)

/-- Where `send_msg_to_leader` takes a request. -/
inductive Destination
  | nowhere
  | here
  | client (endpoint : Bytes)
deriving DecidableEq, Repr

/-- `send_msg_to_leader` up to where the request is handed on; `connects` says for which
endpoints the factory has a client. -/
def Server.sendMsgToLeader (s : Server) (connects : Bytes → Bool) (rpcClients : RpcClients) :
    Destination × RpcClients :=
  if s.leader = -1 then (.nowhere, rpcClients)
  else if s.leader = s.id then (.here, rpcClients)
  else
    match rpcClients.lookup s.leader with
    | some (some endpoint) => (.client endpoint, rpcClients)
    | some none => (.nowhere, rpcClients)
    | none =>
      match s.config.getServer s.leader with
      | none => (.nowhere, rpcClients)
      | some srvConf =>
        if connects srvConf.endpoint then
          (.client srvConf.endpoint, (s.leader, some srvConf.endpoint) :: rpcClients)
        else (.nowhere, (s.leader, none) :: rpcClients)

/-! ## Callers and servers -/

/-- A call with what its caller has been told, `error` for an exception of the rpc.  A call
with a client has been handed to it. -/
structure CallerResult where
  call : ApiCall
  client : Option Bytes := none
  told : Option (Except Unit Bool) := none

/-- A server has handled the request of the call with this number. -/
structure Handling where
  num : Nat
  call : ApiCall
  server : Int
  before : Server
  env : Env

/-- Servers, their clients for rpc, the calls in the order in which they were made, and the
requests of calls in the order in which they were handled. -/
structure Callers where
  servers : Int → Server
  rpcClients : Int → RpcClients
  calls : List CallerResult := []
  handled : List Handling := []
  history : List (Int × Effect) := []

/-- What happens.  Anything may happen to a server at any time, but that requests of clients
come from calls; whoever listens at an endpoint gets the request of a call, or no one does,
and an rpc may fail at any time. -/
inductive CallAct
  | event (i : Int) (env : Env) (ev : Event)
  | call (i : Int) (env : Env) (connects : Bytes → Bool) (call : ApiCall)
  | arrive (k : Nat) (j : Int) (env : Env)
  | answer (k : Nat)
  | fail (k : Nat)

/-- A request of a client. -/
def Event.ofClient : Event → Bool
  | .request req => req.type = .clientRequest
  | _ => false

/-- The answer among effects. -/
def answerOf (o : List Effect) : Option RespMsg := (o.filterMap Cluster.reply?).head?

namespace Callers

/-- Something happens to a server. -/
def happen (c : Callers) (i : Int) (env : Env) (ev : Event) : Callers :=
  { c with
    servers := Function.update c.servers i ((c.servers i).next env ev)
    history := c.history ++ ((c.servers i).effects env ev).map fun e => (i, e) }

/-- A server handles the request of a call. -/
def serve (c : Callers) (num : Nat) (call : ApiCall) (i : Int) (env : Env) (req : ReqMsg) : Callers :=
  { c.happen i env (.request req) with handled := c.handled ++ [⟨num, call, i, c.servers i, env⟩] }

/-- A new call. -/
def issue (c : Callers) (x : CallerResult) : Callers := { c with calls := c.calls ++ [x] }

/-- The handler that waits for an rpc sets the result. -/
def tell (c : Callers) (k : Nat) (result : Except Unit Bool) : Callers :=
  { c with calls := c.calls.modify k fun x => { x with told := some result } }

/-- The result of this call is to be set by an rpc. -/
def waits (x : CallerResult) : Bool := x.client.isSome && x.told.isNone

/-- `append_entries`, `add_srv` and `remove_srv` of server `i`. -/
def callAt (c : Callers) (i : Int) (env : Env) (connects : Bytes → Bool) (call : ApiCall) : Callers :=
  match call.req? with
  | none => c.issue { call := call, told := some (.ok false) }
  | some req =>
    let (dest, rpcClients) := (c.servers i).sendMsgToLeader connects (c.rpcClients i)
    let c := { c with rpcClients := Function.update c.rpcClients i rpcClients }
    match dest with
    | .nowhere => c.issue { call := call, told := some (.ok false) }
    | .here =>
      let served := (c.issue { call := call }).serve c.calls.length call i env req
      match answerOf ((c.servers i).effects env (.request req)) with
      | some resp => served.tell c.calls.length (.ok resp.accepted)
      | none => served
    | .client endpoint => c.issue { call := call, client := some endpoint }

def next (c : Callers) : CallAct → Callers
  | .event i env ev => if ev.ofClient then c else c.happen i env ev
  | .call i env connects call => if (c.servers i).exited then c else c.callAt i env connects call
  | .arrive k j env =>
    match c.calls[k]? with
    | none => c
    | some x =>
      match x.call.req? with
      | none => c
      | some req =>
        -- a client sends a request once
        if x.client.isNone ∨ (c.servers j).exited ∨ k ∈ c.handled.map Handling.num then c
        else c.serve k x.call j env req
  | .answer k =>
    match c.calls[k]?, c.handled.find? (·.num = k) with
    | some x, some h =>
      match x.call.req? with
      | none => c
      | some req =>
        match answerOf (h.before.effects h.env (.request req)) with
        | some resp => if waits x then c.tell k (.ok resp.accepted) else c
        | none => c
    | _, _ => c
  | .fail k =>
    match c.calls[k]? with
    | some x => if waits x then c.tell k (.error ()) else c
    | none => c

def run (c : Callers) (acts : List CallAct) : Callers := acts.foldl next c

end Callers

/-! ## Entries of clients -/

/-- The entry of a client that an effect brings into the log. -/
def Effect.fromClient? : Effect → Option LogEntry
  | .originate _ _ _ e => if e.valType = .appLog then some e else none
  | _ => none

theorem fromClient?_of_originate {e : Effect} (h : e.isOriginate = false) : e.fromClient? = none := by
  cases e with
  | originate => cases h
  | _ => rfl

/-- The law of bringing in no entry of a client. -/
def TakesNone (_ : Server) (o : List Effect) (_ : Server) : Prop := o.filterMap Effect.fromClient? = []

theorem takesNone_law : Law TakesNone where
  refl _ := rfl
  trans := by
    intro s t u o o' h h'
    rw [TakesNone, List.filterMap_append, h, h', List.nil_append]

theorem takesNone_of_forall {s t : Server} {o : List Effect} (h : ∀ e ∈ o, e.fromClient? = none) : TakesNone s o t :=
  List.filterMap_eq_nil_iff.mpr h

theorem takesNone_plain {s t : Server} {o : List Effect} (h : ∀ e ∈ o, e.plain s.state) : TakesNone s o t := by
  refine takesNone_of_forall fun e he => ?_
  have hplain := h e he
  cases e with
  | originate => cases hplain
  | _ => rfl

/-- Only a request of a client brings entries of clients in. -/
theorem Segment.takesNone {s₀ s t : Server} {ev : Event} {o : List Effect} (h : Segment s₀ ev s o t)
    (hev : ev.ofClient = false) : TakesNone s o t := by
  cases h with
  | book hb ho => exact takesNone_plain ho
  | client he ht hr hs hr₀ hf hm =>
    rw [he, Event.ofClient, ht] at hev
    cases hev
  | replicate _ _ _ _ _ _ _ _ _ ho => exact takesNone_plain ho
  | install _ _ _ _ _ _ _ _ _ ho =>
    exact takesNone_law.trans (takesNone_plain (t := s) ho) rfl
  | quit _ _ _ ho => exact takesNone_plain ho
  | commitEntry => split <;> rfl
  | commitConfig _ _ _ _ _ _ _ _ ho => exact takesNone_plain ho
  | campaign => rfl
  | _ => exact rfl

theorem effects_takesNone (env : Env) {s : Server} {ev : Event} (hev : ev.ofClient = false) :
    (s.effects env ev).filterMap Effect.fromClient? = [] := by
  rcases s.effects_cases env ev with ⟨-, ho⟩ | ⟨-, ho⟩
  · rw [ho]
    rfl
  · rw [ho]
    exact (handle_path env ev s).lift takesNone_law fun _ _ _ hseg => hseg.takesNone hev

/-- The loop of `handle_cli_req` brings in all entries, and answers nothing. -/
theorem appendClientEntries_takes : ∀ (es : List LogEntry) (s : Server), ∃ o,
    appendClientEntries es s =
      ⟨.ok (), { s with logStore := { s.logStore with entries := s.logStore.entries ++ es } }, o⟩ ∧
      o.filterMap Effect.fromClient? = es.filter (·.valType = .appLog) ∧ o.filterMap Cluster.reply? = []
  | [], s => ⟨[], by simp [appendClientEntries], rfl, rfl⟩
  | e :: es, s => by
    obtain ⟨o, hrun, htakes, hanswers⟩ := appendClientEntries_takes es { s with logStore := s.logStore.append e }
    simp only [appendClientEntries, originate, bind_run, look_run, emit_run, change_run, Outcome.andThen_ok,
      List.nil_append, List.append_nil, hrun, LogStore.append_entries, List.append_assoc, List.singleton_append]
    refine ⟨_, rfl, ?_, ?_⟩
    · clear hrun
      rw [List.filter_cons, ← htakes]
      by_cases hlog : e.valType = .appLog
      · simp [List.filterMap_cons, Effect.fromClient?, hlog]
      · simp [List.filterMap_cons, Effect.fromClient?, hlog]
    · clear hrun
      simp [List.filterMap_cons, Cluster.reply?, hanswers]

theorem RequestEffect.no_reply {s : Server} {q : Nat} {e : Effect} (h : RequestEffect s q e) :
    Cluster.reply? e = none := by
  cases h <;> rfl

/-! ## How a server treats the request of a call -/

/-- What is asked for has been done. -/
def ApiCall.Done (call : ApiCall) (s t : Server) (o : List Effect) : Prop :=
  match call with
  | .appendEntries logs => t.logStore.entries = s.logStore.entries ++ clientEntries logs
  | .addSrv srv => s.configChanging = false ∧ (srv.Valid → srv.id ≠ s.id ∧ srv.id ∉ s.peerIds ∧
      t.confToAdd = some srv ∧ ∃ req m, .sendExt req m ∈ o ∧ req.type = .joinClusterRequest ∧ req.dst = srv.id)
  | .removeSrv srvId => s.configChanging = false ∧ (Int.bmod srvId uintSize = srvId → srvId ≠ s.id ∧
      srvId ∈ s.peerIds ∧ ∃ req m, .sendExt req m ∈ o ∧ req.type = .leaveClusterRequest ∧ req.dst = srvId)

/-- A server refuses and stays as it is, cannot read the request, or is in office, takes in
the entries of the call, and gives no other answer than that it has done what is asked for. -/
inductive Treats (call : ApiCall) (s t : Server) (o : List Effect) : Prop
  | refuses {resp : RespMsg} (ho : o = [.reply resp s.state]) (hacc : resp.accepted = false) (ht : t = s)
      (hno : s.role = .leader → call.entries = [])
  | breaks (ho : o = []) (ht : t = s) (hno : call.entries = [])
  | grants (hr : s.role = .leader) (hentries : o.filterMap Effect.fromClient? = call.entries)
      (hans : ∀ resp, answerOf o = some resp → resp.accepted = true ∧ call.Done s t o)

section
variable {s : Server} {env : Env}

theorem next_of_request {req : ReqMsg} (hx : s.exited = false) (hnote : noteTerm req = pure ()) {resp : RespMsg}
    {t : Server} {o : List Effect} (ha : answerReq env req s = ⟨.ok resp, t, o⟩) :
    s.effects env (.request req) = o ++ [.reply resp t.state] ∧ s.next env (.request req) = t := by
  have hrun : handle env (.request req) s = ⟨.ok (), t, o ++ [.reply resp t.state]⟩ := by
    have hn : noteTerm req s = ⟨.ok (), s, []⟩ := by rw [hnote, pure_run]
    exact processReq_run hn ha
  refine ⟨?_, ?_⟩
  · rw [Server.effects, hx, if_neg Bool.false_ne_true, hrun]
  · rw [Server.next_of_ok hx (by rw [hrun]), hrun]

/-- A request that is answered with a refusal and nothing else. -/
theorem treats_refusal {call : ApiCall} {req : ReqMsg} (hx : s.exited = false) (hnote : noteTerm req = pure ())
    (resp : RespMsg) (ha : answerReq env req s = ⟨.ok resp, s, []⟩) (hacc : resp.accepted = false)
    (hno : s.role = .leader → call.entries = []) :
    Treats call s (s.next env (.request req)) (s.effects env (.request req)) := by
  obtain ⟨ho, ht⟩ := next_of_request hx hnote ha
  rw [ho, ht]
  exact .refuses rfl hacc rfl hno

theorem answerOf_append (o : List Effect) (h : o.filterMap Cluster.reply? = []) (resp : RespMsg) (m : SrvState) :
    answerOf (o ++ [.reply resp m]) = some resp := by
  rw [answerOf, List.filterMap_append, h]
  rfl

/-- `handle_cli_req` in office. -/
theorem handleCliReq_leads (env : Env) (req : ReqMsg) (hr : s.role = .leader) : ∃ x u o,
    handleCliReq env req s = ⟨x, u, o⟩ ∧ (∀ resp, x = .ok resp → resp.accepted = true) ∧
      u.logStore.entries = s.logStore.entries ++ req.logEntries ∧
      o.filterMap Effect.fromClient? = req.logEntries.filter (·.valType = .appLog) ∧
      o.filterMap Cluster.reply? = [] := by
  obtain ⟨o, hrun, htakes, hnone⟩ := appendClientEntries_takes req.logEntries s
  set v : Server := { s with logStore := { s.logStore with entries := s.logStore.entries ++ req.logEntries } }
  have hquiet : Quiet v _ _ := quiet_requestAppendEntries env
  have hmore : (requestAppendEntries env v).out.filterMap Effect.fromClient? = [] :=
    List.filterMap_eq_nil_iff.mpr fun e he => fromClient?_of_originate (hquiet.out e he).no_originate
  have hsilent : (requestAppendEntries env v).out.filterMap Cluster.reply? = [] :=
    List.filterMap_eq_nil_iff.mpr fun e he => (hquiet.out e he).no_reply
  have hcli : ∃ x, handleCliReq env req s =
      ⟨x, (requestAppendEntries env v).state, o ++ (requestAppendEntries env v).out⟩ ∧
        ∀ resp, x = .ok resp → resp.accepted = true := by
    simp only [handleCliReq, bind_run, look_run, Outcome.andThen_ok, ite_run, hr, ne_eq, not_true_eq_false,
      if_false, List.nil_append, hrun]
    cases hres : (requestAppendEntries env v).res with
    | error e =>
      refine ⟨.error e, ?_, fun resp h => by cases h⟩
      simp only [Outcome.andThen, hres]
    | ok a =>
      refine ⟨.ok (RespMsg.accept
        { term := s.state.term, type := .appendEntriesResponse, src := s.id, dst := s.leader }
        (requestAppendEntries env v).state.logStore.nextSlot), ?_, fun resp h => ?_⟩
      · simp only [Outcome.andThen, hres, bind_run, look_run, pure_run, List.append_nil]
      · cases h
        rfl
  obtain ⟨x, hx, hacc⟩ := hcli
  refine ⟨x, _, _, hx, hacc, ?_, ?_, ?_⟩
  · rw [hquiet.logStore_eq]
  · rw [List.filterMap_append, htakes, hmore, List.append_nil]
  · rw [List.filterMap_append, hnone, hsilent, List.append_nil]

theorem filter_clientEntries (logs : List Bytes) :
    (clientEntries logs).filter (·.valType = .appLog) = clientEntries logs := by
  refine List.filter_eq_self.mpr fun e he => ?_
  obtain ⟨buf, -, rfl⟩ := List.mem_map.mp he
  rfl

/-- `append_entries`. -/
theorem treats_appendEntries (env : Env) (hx : s.exited = false) (logs : List Bytes) :
    Treats (.appendEntries logs) s (s.next env (.request (.ofClient .clientRequest (clientEntries logs))))
      (s.effects env (.request (.ofClient .clientRequest (clientEntries logs)))) := by
  set req := ReqMsg.ofClient .clientRequest (clientEntries logs) with hreq
  have hnote : noteTerm req = pure () := if_neg (by simp [hreq, ReqMsg.ofClient])
  have hanswer : answerReq env req = handleCliReq env req := rfl
  by_cases hr : s.role = .leader
  · obtain ⟨x, u, o, hcli, hacc, hlog, htakes, hsilent⟩ := handleCliReq_leads env req hr
    rw [show req.logEntries = clientEntries logs from rfl] at hlog htakes
    rw [filter_clientEntries] at htakes
    cases x with
    | error e =>
      -- no answer comes of a request for entries that fails, but the entries stay
      have ho : s.effects env (.request req) = o := by
        rw [Server.effects, hx, if_neg Bool.false_ne_true]
        simp only [handle, processReq, hnote, bind_run, pure_run, List.nil_append, hanswer, hcli, Outcome.andThen]
      refine .grants hr (ho ▸ htakes) fun resp hresp => ?_
      rw [ho, answerOf, hsilent] at hresp
      cases hresp
    | ok resp =>
      obtain ⟨ho, ht⟩ := next_of_request hx hnote (hanswer ▸ hcli)
      refine .grants hr ?_ fun resp' hresp => ?_
      · rw [ho, List.filterMap_append, htakes]
        exact List.append_nil _
      · rw [ho, answerOf_append _ hsilent] at hresp
        cases hresp
        refine ⟨hacc resp rfl, ?_⟩
        rw [ApiCall.Done, ht]
        exact hlog
  · have hlow : handleCliReq env req s = ⟨.ok
        { term := s.state.term, type := .appendEntriesResponse, src := s.id, dst := s.leader }, s, []⟩ := by
      rw [handleCliReq, bind_silent (look_run _), if_pos hr, pure_run]
    exact treats_refusal hx hnote _ (hanswer ▸ hlow) rfl fun h => absurd h hr

/-- A request that is answered with an exception before anything is done. -/
theorem treats_throw {call : ApiCall} {req : ReqMsg} (hx : s.exited = false) (hnote : noteTerm req = pure ())
    (ha : answerReq env req s = ⟨.error .throw, s, []⟩) (hno : call.entries = []) :
    Treats call s (s.next env (.request req)) (s.effects env (.request req)) := by
  have hrun : handle env (.request req) s = ⟨.error .throw, s, []⟩ := by
    simp only [handle, processReq, hnote, bind_run, pure_run, List.nil_append, ha, Outcome.andThen]
  refine .breaks ?_ ?_ hno
  · rw [Server.effects, hx, if_neg Bool.false_ne_true, hrun]
  · rw [Server.next, hx, if_neg Bool.false_ne_true, hrun]
    rfl

/-- A request that is accepted with an extended request to another server. -/
theorem treats_sendExt {call : ApiCall} {req : ReqMsg} (hx : s.exited = false) (hnote : noteTerm req = pure ())
    (hr : s.role = .leader) {resp : RespMsg} {t : Server} {ext : ReqMsg} {m : SrvState}
    (ha : answerReq env req s = ⟨.ok resp, t, [.sendExt ext m]⟩) (hacc : resp.accepted = true)
    (hentries : call.entries = []) (hdone : call.Done s t [.sendExt ext m, .reply resp t.state]) :
    Treats call s (s.next env (.request req)) (s.effects env (.request req)) := by
  obtain ⟨ho, ht⟩ := next_of_request hx hnote ha
  rw [ho, ht]
  refine .grants hr hentries.symm fun resp' hresp => ?_
  rw [answerOf_append _ rfl] at hresp
  cases hresp
  exact ⟨hacc, hdone⟩

/-- `add_srv`. -/
theorem treats_addSrv (env : Env) (hx : s.exited = false) (srv : SrvConfig) {req : ReqMsg}
    (hreq : (ApiCall.addSrv srv).req? = some req) :
    Treats (.addSrv srv) s (s.next env (.request req)) (s.effects env (.request req)) := by
  cases hreq
  have hnote : noteTerm (.ofClient .addServerRequest [⟨0, srv.serialize, .clusterServer⟩]) = pure () := by
    exact if_neg (by simp [ReqMsg.ofClient])
  have hanswer : answerReq env (.ofClient .addServerRequest [⟨0, srv.serialize, .clusterServer⟩]) =
      handleAddSrvReq (.ofClient .addServerRequest [⟨0, srv.serialize, .clusterServer⟩]) := rfl
  set refusal : RespMsg := ⟨s.state.term, .addServerResponse, s.id, s.leader, 0, false⟩ with hrefusal
  by_cases hr : s.role = .leader
  · cases hd : SrvConfig.deserialize srv.serialize with
    | none =>
      refine treats_throw hx hnote ?_ rfl
      rw [hanswer, handleAddSrvReq, bind_silent (look_run _)]
      simp [ReqMsg.ofClient, hr, hd]
    | some r =>
      obtain ⟨srvConf, rest⟩ := r
      by_cases hdup : srvConf.id ∈ s.peerIds ∨ s.id = srvConf.id
      · refine treats_refusal hx hnote refusal ?_ rfl fun _ => rfl
        rw [hanswer, handleAddSrvReq, bind_silent (look_run _)]
        simp [ReqMsg.ofClient, hr, hd, hdup, hrefusal]
      · cases hc : s.configChanging with
        | true =>
          refine treats_refusal hx hnote refusal ?_ rfl fun _ => rfl
          rw [hanswer, handleAddSrvReq, bind_silent (look_run _)]
          simp [ReqMsg.ofClient, hr, hd, hdup, hc, hrefusal]
        | false =>
          set u : Server := { s with confToAdd := some srvConf, srvToJoin := some (Peer.new s.params srvConf) } with hu
          have hrun : answerReq env (.ofClient .addServerRequest [⟨0, srv.serialize, .clusterServer⟩]) s =
              ⟨.ok (refusal.accept s.logStore.nextSlot), u, [.sendExt
                { term := s.state.term, type := .joinClusterRequest, src := s.id, dst := srvConf.id, lastLogTerm := 0
                  lastLogIdx := s.logStore.nextSlot - 1, commitIdx := s.quickCommitIdx
                  logEntries := [⟨s.state.term, s.config.serialize, .conf⟩] } s.state]⟩ := by
            rw [hanswer, handleAddSrvReq, bind_silent (look_run _)]
            simp [ReqMsg.ofClient, hr, hd, hdup, hc, hrefusal, inviteSrvToJoinCluster, derefPeer, peerAt?, Peer.new,
              Peer.id, sendExtReq, hu]
          refine treats_sendExt hx hnote hr hrun rfl rfl ⟨hc, fun hv => ?_⟩
          -- what is read is what was sent
          have hback := SrvConfig.deserialize_serialize hv []
          rw [List.append_nil, hd] at hback
          cases hback
          push Not at hdup
          exact ⟨Ne.symm hdup.2, hdup.1, rfl, _, _, List.mem_cons_self, rfl, rfl⟩
  · refine treats_refusal hx hnote refusal ?_ rfl fun _ => rfl
    rw [hanswer, handleAddSrvReq, bind_silent (look_run _)]
    simp [ReqMsg.ofClient, hr, hrefusal]

/-- `remove_srv`. -/
theorem treats_removeSrv (env : Env) (hx : s.exited = false) (srvId : Int) {req : ReqMsg}
    (hreq : (ApiCall.removeSrv srvId).req? = some req) :
    Treats (.removeSrv srvId) s (s.next env (.request req)) (s.effects env (.request req)) := by
  cases hreq
  have hnote : noteTerm (.ofClient .removeServerRequest [⟨0, putInt srvId, .clusterServer⟩]) = pure () := by
    exact if_neg (by simp [ReqMsg.ofClient])
  have hanswer : answerReq env (.ofClient .removeServerRequest [⟨0, putInt srvId, .clusterServer⟩]) =
      handleRmSrvReq (.ofClient .removeServerRequest [⟨0, putInt srvId, .clusterServer⟩]) := rfl
  set refusal : RespMsg := ⟨s.state.term, .removeServerResponse, s.id, s.leader, 0, false⟩ with hrefusal
  have hlen : (putInt srvId).length = 4 := LittleEndian.leBytes_length 4 _
  have hrefuses : answerReq env (.ofClient .removeServerRequest [⟨0, putInt srvId, .clusterServer⟩]) s =
      ⟨.ok refusal, s, []⟩ → Treats (.removeSrv srvId) s _ _ := fun h =>
    treats_refusal hx hnote refusal h rfl fun _ => rfl
  by_cases hr : s.role = .leader
  · cases hc : s.configChanging with
    | true =>
      refine hrefuses ?_
      rw [hanswer, handleRmSrvReq, bind_silent (look_run _)]
      simp [ReqMsg.ofClient, hr, hlen, hc, hrefusal]
    | false =>
      cases hd : getInt (putInt srvId) with
      | none =>
        refine treats_throw hx hnote ?_ rfl
        rw [hanswer, handleRmSrvReq, bind_silent (look_run _)]
        simp [ReqMsg.ofClient, hr, hlen, hc, hd]
      | some r =>
        obtain ⟨id, rest⟩ := r
        by_cases hself : id = s.id
        · refine hrefuses ?_
          rw [hanswer, handleRmSrvReq, bind_silent (look_run _)]
          simp [ReqMsg.ofClient, hr, hlen, hc, hd, hself, hrefusal]
        · cases hp : s.findPeer id with
          | none =>
            refine hrefuses ?_
            rw [hanswer, handleRmSrvReq, bind_silent (look_run _)]
            simp [ReqMsg.ofClient, hr, hlen, hc, hd, hself, hp, hrefusal]
          | some peer =>
            have hrun : answerReq env (.ofClient .removeServerRequest [⟨0, putInt srvId, .clusterServer⟩]) s =
                ⟨.ok (refusal.accept s.logStore.nextSlot), s, [.sendExt
                  { term := s.state.term, type := .leaveClusterRequest, src := s.id, dst := id, lastLogTerm := 0
                    lastLogIdx := s.logStore.nextSlot - 1, commitIdx := s.quickCommitIdx } s.state]⟩ := by
              rw [hanswer, handleRmSrvReq, bind_silent (look_run _)]
              simp [ReqMsg.ofClient, hr, hlen, hc, hd, hself, hp, hrefusal, sendExtReq]
            refine treats_sendExt hx hnote hr hrun rfl rfl ⟨hc, fun hint => ?_⟩
            -- what is read is what was sent
            have hback := getInt_putInt hint []
            rw [List.append_nil, hd] at hback
            cases hback
            obtain ⟨hmem, rfl⟩ := findPeer_mem hp
            exact ⟨hself, List.mem_map_of_mem hmem, _, _, List.mem_cons_self, rfl, rfl⟩
  · refine hrefuses ?_
    rw [hanswer, handleRmSrvReq, bind_silent (look_run _)]
    simp [ReqMsg.ofClient, hr, hlen, hrefusal]

/-- **How a server treats the request of a call.** -/
theorem treats_call (env : Env) (hx : s.exited = false) {call : ApiCall} {req : ReqMsg} (hreq : call.req? = some req) :
    Treats call s (s.next env (.request req)) (s.effects env (.request req)) := by
  cases call with
  | appendEntries logs =>
    rw [ApiCall.req?] at hreq
    split at hreq
    · cases hreq
    · cases hreq
      exact treats_appendEntries env hx logs
  | addSrv srv => exact treats_addSrv env hx srv hreq
  | removeSrv srvId => exact treats_removeSrv env hx srvId hreq

end

namespace Treats
variable {call : ApiCall} {s t : Server} {o : List Effect}

/-- A server in office takes in the entries of the call, and no other does. -/
theorem entries (h : Treats call s t o) :
    o.filterMap Effect.fromClient? = if s.role = .leader then call.entries else [] := by
  cases h with
  | refuses ho hacc ht hno =>
    rw [ho]
    split
    · exact (hno ‹_›).symm
    · rfl
  | breaks ho ht hno =>
    rw [ho, hno]
    split <;> rfl
  | grants hr hentries hans => rw [hentries, if_pos hr]

theorem of_accepted (h : Treats call s t o) {resp : RespMsg} (hresp : answerOf o = some resp)
    (hacc : resp.accepted = true) : s.role = .leader ∧ call.Done s t o := by
  cases h with
  | refuses ho hrefused ht hno =>
    rw [ho] at hresp
    cases hresp
    rw [hacc] at hrefused
    cases hrefused
  | breaks ho ht hno =>
    rw [ho] at hresp
    cases hresp
  | grants hr hentries hans => exact ⟨hr, (hans resp hresp).2⟩

theorem of_refused (h : Treats call s t o) {resp : RespMsg} (hresp : answerOf o = some resp)
    (hacc : resp.accepted = false) : t = s ∧ o = [.reply resp s.state] := by
  cases h with
  | refuses ho hrefused ht hno =>
    rw [ho] at hresp
    cases hresp
    exact ⟨ht, ho⟩
  | breaks ho ht hno =>
    rw [ho] at hresp
    cases hresp
  | grants hr hentries hans =>
    have hgranted := (hans resp hresp).1
    rw [hacc] at hgranted
    cases hgranted

end Treats

/-! ## What callers can rely on -/

namespace Handling

/-- The server behind the request. -/
def after (h : Handling) : Server :=
  match h.call.req? with
  | some req => h.before.next h.env (.request req)
  | none => h.before

/-- What it has shown. -/
def effects (h : Handling) : List Effect :=
  match h.call.req? with
  | some req => h.before.effects h.env (.request req)
  | none => []

end Handling

/-- The entries of clients a server has brought into its log, in order. -/
def enteredBy (j : Int) (history : List (Int × Effect)) : List LogEntry :=
  history.filterMap fun p => if p.1 = j then p.2.fromClient? else none

/-- The entries of the calls a server has handled in office, in order. -/
def takenBy (j : Int) (handled : List Handling) : List LogEntry :=
  handled.flatMap fun h => if h.server = j ∧ h.before.role = .leader then h.call.entries else []

/-- What callers can rely on: who is told `true` has had what it asked for done by a server in
office, who is told `false` has had nothing done, no request is handled twice, and the
entries that a server brings into its log for clients are those of the calls it has
handled in office, each once and in order. -/
structure CallsKept (c : Callers) : Prop where
  granted : ∀ k x, c.calls[k]? = some x → x.told = some (.ok true) → ∃ h ∈ c.handled, h.num = k ∧
    h.call = x.call ∧ h.before.role = .leader ∧ x.call.Done h.before h.after h.effects
  refused : ∀ k x, c.calls[k]? = some x → x.told = some (.ok false) → ∀ h ∈ c.handled, h.num = k →
    h.after = h.before ∧ ∃ resp m, h.effects = [.reply resp m]
  once : (c.handled.map Handling.num).Nodup
  entered : ∀ j, enteredBy j c.history = takenBy j c.handled

namespace Callers
variable {c : Callers} {i j : Int} {k : Nat} {env : Env} {x : CallerResult} {req : ReqMsg}

/-- Callers and servers at first. -/
def start (servers : Int → Server) : Callers := { servers := servers, rpcClients := fun _ => [] }

/-- What holds of calls between the things that happen. -/
structure Inv (c : Callers) : Prop where
  treated : ∀ h ∈ c.handled, Treats h.call h.before h.after h.effects
  own : ∀ h ∈ c.handled, ∃ x, c.calls[h.num]? = some x ∧ x.call = h.call
  once : (c.handled.map Handling.num).Nodup
  told : ∀ k x b, c.calls[k]? = some x → x.told = some (.ok b) →
    (∃ h ∈ c.handled, h.num = k ∧ ∃ resp, answerOf h.effects = some resp ∧ resp.accepted = b) ∨
      b = false ∧ x.client = none ∧ k ∉ c.handled.map Handling.num
  entered : ∀ j, enteredBy j c.history = takenBy j c.handled

theorem enteredBy_append (j i : Int) (history : List (Int × Effect)) (o : List Effect) :
    enteredBy j (history ++ o.map fun e => (i, e)) =
      enteredBy j history ++ if i = j then o.filterMap Effect.fromClient? else [] := by
  rw [enteredBy, List.filterMap_append, List.filterMap_map]
  split
  · rename_i hij
    subst hij
    simp [enteredBy]
  · rename_i hij
    simp [enteredBy, hij]

theorem takenBy_append (j : Int) (handled : List Handling) (h : Handling) :
    takenBy j (handled ++ [h]) =
      takenBy j handled ++ if h.server = j ∧ h.before.role = .leader then h.call.entries else [] := by
  simp [takenBy]

/-- Something that is no request of a client. -/
theorem Inv.happen (h : c.Inv) (i : Int) (env : Env) {ev : Event} (hev : ev.ofClient = false) :
    (c.happen i env ev).Inv := by
  refine ⟨h.treated, h.own, h.once, h.told, fun j => ?_⟩
  rw [Callers.happen, enteredBy_append, effects_takesNone env hev, h.entered j, ite_self, List.append_nil]

/-- A new call, which has not been handled. -/
theorem Inv.issue (h : c.Inv) (hx : ∀ b, x.told = some (.ok b) → b = false ∧ x.client = none) : (c.issue x).Inv := by
  have hlt : ∀ hd ∈ c.handled, hd.num < c.calls.length := by
    intro hd hmem
    obtain ⟨x, hget, -⟩ := h.own hd hmem
    exact (List.getElem?_eq_some_iff.mp hget).1
  refine ⟨h.treated, fun hd hmem => ?_, h.once, fun k y b hget htold => ?_, h.entered⟩
  · obtain ⟨y, hget, hcall⟩ := h.own hd hmem
    refine ⟨y, ?_, hcall⟩
    rw [Callers.issue, List.getElem?_append_left (hlt hd hmem)]
    exact hget
  · rw [Callers.issue, List.getElem?_append] at hget
    split at hget
    · exact h.told k y b hget htold
    · -- the call is the new one
      rename_i hge
      obtain rfl : y = x := by
        have hmem := List.mem_of_getElem? hget
        exact List.mem_singleton.mp hmem
      obtain ⟨hb, hclient⟩ := hx b htold
      refine .inr ⟨hb, hclient, fun hmem => ?_⟩
      obtain ⟨hd, hhd, rfl⟩ := List.mem_map.mp hmem
      exact hge (hlt hd hhd)

/-- The request of a call is handled. -/
theorem Inv.serve (h : c.Inv) (i : Int) (env : Env) (hx : (c.servers i).exited = false) (hget : c.calls[k]? = some x)
    (hreq : x.call.req? = some req) (hnew : k ∉ c.handled.map Handling.num)
    (hwaits : x.told = none ∨ x.client ≠ none) : (c.serve k x.call i env req).Inv := by
  set hd : Handling := ⟨k, x.call, i, c.servers i, env⟩ with hhd
  have hafter : hd.after = (c.servers i).next env (.request req) := by
    rw [Handling.after, hreq]
  have heffects : hd.effects = (c.servers i).effects env (.request req) := by
    rw [Handling.effects, hreq]
  have htreats : Treats hd.call hd.before hd.after hd.effects := by
    rw [hafter, heffects]
    exact treats_call env hx hreq
  refine ⟨fun hd' hmem => ?_, fun hd' hmem => ?_, ?_, fun n y b hy htold => ?_, fun j => ?_⟩
  · rcases List.mem_append.mp hmem with hmem | hmem
    · exact h.treated hd' hmem
    · rw [List.mem_singleton.mp hmem]
      exact htreats
  · rcases List.mem_append.mp hmem with hmem | hmem
    · exact h.own hd' hmem
    · rw [List.mem_singleton.mp hmem]
      exact ⟨x, hget, rfl⟩
  · rw [Callers.serve, List.map_append]
    refine List.nodup_append.mpr ⟨h.once, List.nodup_singleton k, fun n hn m hm heq => ?_⟩
    rw [heq, List.mem_singleton.mp hm] at hn
    exact hnew hn
  · rcases h.told n y b hy htold with ⟨hd', hmem, hnum, hans⟩ | ⟨hb, hclient, hnone⟩
    · exact .inl ⟨hd', List.mem_append_left _ hmem, hnum, hans⟩
    · refine .inr ⟨hb, hclient, fun hmem => ?_⟩
      rw [Callers.serve, List.map_append, List.mem_append] at hmem
      rcases hmem with hmem | hmem
      · exact hnone hmem
      · obtain rfl : n = k := List.mem_singleton.mp hmem
        obtain rfl : y = x := Option.some.inj (hy.symm.trans hget)
        rcases hwaits with hnot | hsent
        · rw [hnot] at htold
          cases htold
        · exact hsent hclient
  · rw [Callers.serve, Callers.happen, enteredBy_append, takenBy_append, h.entered j, ← heffects, htreats.entries]
    by_cases hij : i = j
    · simp [hij, hhd]
    · simp [hij]

/-- A result is set. -/
theorem Inv.tell (h : c.Inv) (k : Nat) (result : Except Unit Bool)
    (hk : ∀ b, result = .ok b → ∃ hd ∈ c.handled, hd.num = k ∧ ∃ resp, answerOf hd.effects = some resp ∧
      resp.accepted = b) : (c.tell k result).Inv := by
  refine ⟨h.treated, fun hd hmem => ?_, h.once, fun n y b hy htold => ?_, h.entered⟩
  · obtain ⟨y, hget, hcall⟩ := h.own hd hmem
    by_cases hn : k = hd.num
    · refine ⟨{ y with told := some result }, ?_, hcall⟩
      rw [Callers.tell, List.getElem?_modify, hget, hn]
      simp
    · refine ⟨y, ?_, hcall⟩
      rw [Callers.tell, List.getElem?_modify, hget]
      simp [hn]
  · rw [Callers.tell, List.getElem?_modify] at hy
    obtain ⟨old, hold, heq⟩ := Option.map_eq_some_iff.mp hy
    split at heq
    · rename_i hkn
      subst hkn heq
      exact .inl (hk b (Option.some.inj htold))
    · subst heq
      exact h.told n old b hold htold

/-- The number of a new call is new. -/
theorem Inv.fresh (h : c.Inv) : c.calls.length ∉ c.handled.map Handling.num := by
  intro hmem
  obtain ⟨hd, hhd, hnum⟩ := List.mem_map.mp hmem
  obtain ⟨x, hget, -⟩ := h.own hd hhd
  rw [hnum, List.getElem?_eq_none (le_refl _)] at hget
  cases hget

theorem Inv.callAt (h : c.Inv) (hx : (c.servers i).exited = false) (connects : Bytes → Bool) (call : ApiCall) :
    (c.callAt i env connects call).Inv := by
  have hrefuse : ∀ {c : Callers}, c.Inv → (c.issue { call := call, told := some (.ok false) }).Inv := by
    intro c h
    refine h.issue fun b hb => ⟨?_, rfl⟩
    cases hb
    rfl
  unfold Callers.callAt
  cases hreq : call.req? with
  | none => exact hrefuse h
  | some req =>
    dsimp only
    generalize (c.servers i).sendMsgToLeader connects (c.rpcClients i) = d
    obtain ⟨dest, rpcClients⟩ := d
    have hkept : ({ c with rpcClients := Function.update c.rpcClients i rpcClients } : Callers).Inv :=
      ⟨h.treated, h.own, h.once, h.told, h.entered⟩
    cases dest with
    | nowhere => exact hrefuse hkept
    | client endpoint => exact hkept.issue fun b hb => by cases hb
    | here =>
      have hissued := hkept.issue (x := { call := call }) fun b hb => by cases hb
      have hnow : (c.issue { call := call }).calls[c.calls.length]? = some { call := call } := by
        rw [Callers.issue, List.getElem?_concat_length]
      have hserved := hissued.serve i env hx hnow hreq hkept.fresh (.inl rfl)
      dsimp only
      cases hans : answerOf ((c.servers i).effects env (.request req)) with
      | none => exact hserved
      | some resp =>
        refine hserved.tell _ _ fun b hb => ?_
        cases hb
        refine ⟨_, List.mem_append_right _ (List.mem_singleton_self _), rfl, resp, ?_, rfl⟩
        rw [Handling.effects, hreq]
        exact hans

/-- **Whatever happens keeps what holds of calls.** -/
theorem Inv.next (h : c.Inv) (act : CallAct) : (c.next act).Inv := by
  cases act with
  | event i env ev =>
    rw [Callers.next]
    split
    · exact h
    · exact h.happen i env (Bool.eq_false_iff.mpr ‹_›)
  | call i env connects call =>
    rw [Callers.next]
    split
    · exact h
    · exact h.callAt (Bool.eq_false_iff.mpr ‹_›) connects call
  | arrive k j env =>
    rw [Callers.next]
    cases hget : c.calls[k]? with
    | none => exact h
    | some x =>
      dsimp only
      cases hreq : x.call.req? with
      | none => exact h
      | some req =>
        dsimp only
        split
        · exact h
        · rename_i hno
          push Not at hno
          obtain ⟨hsent, hlive, hnew⟩ := hno
          refine h.serve j env (Bool.eq_false_iff.mpr hlive) hget hreq hnew (.inr fun hnone => ?_)
          rw [hnone] at hsent
          exact hsent rfl
  | answer k =>
    rw [Callers.next]
    cases hget : c.calls[k]? with
    | none => exact h
    | some x =>
      cases hfind : c.handled.find? (·.num = k) with
      | none => exact h
      | some hd =>
        dsimp only
        cases hreq : x.call.req? with
        | none => exact h
        | some req =>
          dsimp only
          cases hans : answerOf (hd.before.effects hd.env (.request req)) with
          | none => exact h
          | some resp =>
            dsimp only
            split
            · have hmem := List.mem_of_find?_eq_some hfind
              have hnum : hd.num = k := by simpa using List.find?_some hfind
              refine h.tell k _ fun b hb => ?_
              cases hb
              refine ⟨hd, hmem, hnum, resp, ?_, rfl⟩
              -- it has handled the request of this call
              obtain ⟨y, hy, hcall⟩ := h.own hd hmem
              rw [hnum, hget] at hy
              cases hy
              rw [Handling.effects, ← hcall, hreq]
              exact hans
            · exact h
  | fail k =>
    rw [Callers.next]
    cases hget : c.calls[k]? with
    | none => exact h
    | some x =>
      dsimp only
      split
      · exact h.tell k _ fun b hb => by cases hb
      · exact h

theorem inv_start (servers : Int → Server) : (start servers).Inv :=
  ⟨by simp [start], by simp [start], by simp [start], by simp [start], fun _ => rfl⟩

theorem inv_run (h : c.Inv) (acts : List CallAct) : (c.run acts).Inv := by
  induction acts generalizing c with
  | nil => exact h
  | cons act acts ih => exact ih (h.next act)

/-- What callers can rely on follows. -/
theorem Inv.kept (h : c.Inv) : CallsKept c := by
  have hown : ∀ {hd : Handling} {k : Nat} {x : CallerResult}, hd ∈ c.handled → hd.num = k → c.calls[k]? = some x →
      hd.call = x.call := by
    intro hd k x hmem hnum hget
    obtain ⟨y, hy, hcall⟩ := h.own hd hmem
    rw [hnum, hget] at hy
    cases hy
    exact hcall.symm
  refine ⟨fun k x hget htold => ?_, fun k x hget htold hd hmem hnum => ?_, h.once, h.entered⟩
  · rcases h.told k x true hget htold with ⟨hd, hmem, hnum, resp, hans, hacc⟩ | ⟨hb, -⟩
    · obtain ⟨hr, hdone⟩ := (h.treated hd hmem).of_accepted hans hacc
      have hcall := hown hmem hnum hget
      rw [hcall] at hdone
      exact ⟨hd, hmem, hnum, hcall, hr, hdone⟩
    · cases hb
  · rcases h.told k x false hget htold with ⟨hd', hmem', hnum', resp, hans, hacc⟩ | ⟨-, -, hnone⟩
    · -- no request is handled twice
      obtain rfl : hd = hd' := List.inj_on_of_nodup_map h.once hmem hmem' (hnum.trans hnum'.symm)
      obtain ⟨hsame, ho⟩ := (h.treated hd hmem).of_refused hans hacc
      exact ⟨hsame, resp, _, ho⟩
    · exact absurd (List.mem_map.mpr ⟨hd, hmem, hnum⟩) hnone

end Callers

/-- **What callers are told holds in every run**, whatever leaders come and go, whoever
listens at the endpoints of clients, and whichever requests and answers are lost. -/
theorem calls_kept (servers : Int → Server) (acts : List CallAct) :
    CallsKept ((Callers.start servers).run acts) :=
  (Callers.inv_run (Callers.inv_start servers) acts).kept

/-- A server that is alone takes office; what it is asked for before that is refused. -/
example : ((Callers.start fun _ => loneServer).run [.call 1 {} (fun _ => true) (.appendEntries [[7]]),
    .event 1 {} .electionTimeout, .call 1 {} (fun _ => true) (.appendEntries [[8], [9]])]).calls.map
      CallerResult.told = [some (.ok false), some (.ok true)] := by decide +kernel

end Cornerstone
