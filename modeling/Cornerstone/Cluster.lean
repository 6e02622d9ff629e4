import Cornerstone.ServerRun
import Mathlib.Logic.Function.Basic

/-! # A cluster of servers

The servers of one configuration and the calls between them.  A call carries a
request, which may reach its destination late, never, or more than once; each
delivery answers, and at most one of the answers comes back.  Clients may send
anything at any time, and so may the timers.  There is no membership change, no
crash with a restart, and no state transfer here; a process that ends stays
ended.
-/

namespace Cornerstone
open Handlers

/-- A request on its way, with the answers it has got so far.  `settled` says that
an answer, or a failure, has come back to the sender. -/
structure Call where
  req : ReqMsg
  answers : List RespMsg := []
  settled : Bool := false

/-- The servers with the ids `ids`, their calls, and all that they have done. -/
structure Cluster where
  ids : List Int
  servers : Int → Server
  calls : List Call := []
  history : List (Int × Effect) := []

/-- What can happen in a cluster: a timer of a server, a client's request, the
delivery of a request, the return of one of its answers or a failure, and the
rounds of a committing thread. -/
inductive Act
  | timeout (i : Int)
  | heartbeat (i pid : Int)
  | client (i : Int) (req : ReqMsg)
  | deliver (k : Nat)
  | answer (k j : Nat)
  | fail (k : Nat)
  | wake (i : Int)
  | commit (i : Int)

namespace Cluster

/-- The cluster as it is first started: every server with the same configuration
and nothing in its log. -/
def start (params : Int → RaftParams) (config : ClusterConfig) : Cluster :=
  { ids := config.servers.map SrvConfig.id
    servers := fun i => Server.start i (params i) none {} config }

/-- Whom an act is about, and what it is for that server. -/
def event? (c : Cluster) : Act → Option (Int × Event)
  | .timeout i => some (i, .electionTimeout)
  | .heartbeat i pid => some (i, .hbTimeout pid)
  | .client i req => some (i, .request { req with type := .clientRequest })
  | .deliver k => c.calls[k]?.map fun call => (call.req.dst, .request call.req)
  | .answer k j =>
    match c.calls[k]? with
    | none => none
    | some call =>
      if call.settled then none
      else call.answers[j]?.map fun resp =>
        (call.req.src, .peerResp (some (.peer call.req.dst)) call.req.type resp)
  | .fail k =>
    match c.calls[k]? with
    | none => none
    | some call =>
      if call.settled then none
      else some (call.req.src, .peerErr (some (.peer call.req.dst)) call.req.type)
  | .wake i => some (i, .bgWake)
  | .commit i => some (i, .bgIter)

/-- The request an effect sends to a peer. -/
def sent? : Effect → Option ReqMsg
  | .send req _ => some req
  | _ => none

/-- The answer an effect gives. -/
def reply? : Effect → Option RespMsg
  | .reply resp _ => some resp
  | _ => none

/-- What an act does to the calls there are, given the effects it has. -/
def touch (o : List Effect) (calls : List Call) : Act → List Call
  | .deliver k => calls.modify k fun call =>
      { call with answers := call.answers ++ o.filterMap reply? }
  | .answer k _ | .fail k => calls.modify k fun call => { call with settled := true }
  | _ => calls

/-- The cluster after an act; one that is about nobody in it does nothing. -/
def next (c : Cluster) (env : Env) (act : Act) : Cluster :=
  match c.event? act with
  | none => c
  | some (i, ev) =>
    if i ∈ c.ids then
      let o := (c.servers i).effects env ev
      { c with
        servers := Function.update c.servers i ((c.servers i).next env ev)
        calls := touch o c.calls act ++ (o.filterMap sent?).map fun req => { req := req }
        history := c.history ++ o.map fun e => (i, e) }
    else c

/-- The cluster after a run. -/
def run (c : Cluster) : List (Env × Act) → Cluster
  | [] => c
  | (env, act) :: acts => (c.next env act).run acts

/-- Every act of a run meets `P`. -/
def Along (P : Cluster → Act → Prop) (c : Cluster) : List (Env × Act) → Prop
  | [] => True
  | (env, act) :: acts => P c act ∧ (c.next env act).Along P acts

/-- A condition on what happens to one server, as a condition on an act. -/
def On (P : Server → Event → Prop) (c : Cluster) (act : Act) : Prop :=
  ∀ i ev, c.event? act = some (i, ev) → i ∈ c.ids → P (c.servers i) ev

instance decidableOn (P : Server → Event → Prop) [∀ s ev, Decidable (P s ev)] (c : Cluster) (act : Act) :
    Decidable (c.On P act) :=
  decidable_of_iff (∀ p ∈ c.event? act, p.1 ∈ c.ids → P (c.servers p.1) p.2)
    ⟨fun h i ev he => h (i, ev) he, fun h p hp => h p.1 p.2 hp⟩

instance decidableAlong (P : Cluster → Act → Prop) [∀ c act, Decidable (P c act)] :
    (c : Cluster) → (acts : List (Env × Act)) → Decidable (c.Along P acts)
  | _, [] => inferInstanceAs (Decidable True)
  | c, (env, act) :: acts =>
    haveI := decidableAlong P (c.next env act) acts
    inferInstanceAs (Decidable (P c act ∧ (c.next env act).Along P acts))

variable {P Q : Cluster → Act → Prop}

theorem Along.mono {c : Cluster} {acts : List (Env × Act)} (h : c.Along P acts)
    (hPQ : ∀ c act, P c act → Q c act) : c.Along Q acts := by
  induction acts generalizing c with
  | nil => trivial
  | cons step acts ih => exact ⟨hPQ c step.2 h.1, ih h.2⟩

/-- An invariant that the acts of a run preserve holds where the run ends. -/
theorem Along.invariant {I : Cluster → Prop}
    (hstep : ∀ c env act, I c → P c act → I (c.next env act)) {c : Cluster}
    {acts : List (Env × Act)} (hI : I c) (h : c.Along P acts) : I (c.run acts) := by
  induction acts generalizing c with
  | nil => exact hI
  | cons step acts ih => exact ih (hstep c step.1 step.2 hI h.1) h.2

theorem run_append (c : Cluster) (pre post : List (Env × Act)) :
    c.run (pre ++ post) = (c.run pre).run post := by
  induction pre generalizing c with
  | nil => rfl
  | cons step pre ih => exact ih (c.next step.1 step.2)

theorem along_append {c : Cluster} {pre post : List (Env × Act)} :
    c.Along P (pre ++ post) ↔ c.Along P pre ∧ (c.run pre).Along P post := by
  induction pre generalizing c with
  | nil => exact ⟨fun h => ⟨trivial, h⟩, And.right⟩
  | cons step pre ih =>
    rw [List.cons_append, Along, Along, ih, and_assoc]
    rfl

/-- The history only grows. -/
theorem history_prefix_next (c : Cluster) (env : Env) (act : Act) :
    c.history <+: (c.next env act).history := by
  unfold next
  split
  · exact List.prefix_refl _
  · split
    · exact List.prefix_append _ _
    · exact List.prefix_refl _

theorem history_prefix_run (c : Cluster) (acts : List (Env × Act)) :
    c.history <+: (c.run acts).history := by
  induction acts generalizing c with
  | nil => exact List.prefix_refl _
  | cons step acts ih => exact (c.history_prefix_next step.1 step.2).trans (ih _)

@[simp] theorem ids_next (c : Cluster) (env : Env) (act : Act) : (c.next env act).ids = c.ids := by
  unfold next
  split
  · rfl
  · split <;> rfl

/-! ## Invariants of servers, requests and answers -/

/-- Every server meets `S`, every request on its way `Q`, and every answer to it
`A`. -/
structure Holds (S : Int → Server → Prop) (Q : ReqMsg → Prop) (A : ReqMsg → RespMsg → Prop)
    (c : Cluster) : Prop where
  servers : ∀ i ∈ c.ids, S i (c.servers i)
  calls : ∀ call ∈ c.calls, Q call.req
  answers : ∀ call ∈ c.calls, ∀ resp ∈ call.answers, A call.req resp

/-- Where the event of an act comes from. -/
inductive Comes (Q : ReqMsg → Prop) (A : ReqMsg → RespMsg → Prop) (i : Int) : Event → Prop
  | timeout : Comes Q A i .electionTimeout
  | heartbeat (pid : Int) : Comes Q A i (.hbTimeout pid)
  | client {req : ReqMsg} (h : req.type = .clientRequest) : Comes Q A i (.request req)
  | deliver {req : ReqMsg} (h : Q req) (hd : req.dst = i) : Comes Q A i (.request req)
  | answer {req : ReqMsg} {resp : RespMsg} (h : Q req) (ha : A req resp) (hs : req.src = i) :
      Comes Q A i (.peerResp (some (.peer req.dst)) req.type resp)
  | fail {req : ReqMsg} (h : Q req) (hs : req.src = i) :
      Comes Q A i (.peerErr (some (.peer req.dst)) req.type)
  | wake : Comes Q A i .bgWake
  | commit : Comes Q A i .bgIter

variable {S S' : Int → Server → Prop} {Q Q' : ReqMsg → Prop} {A A' : ReqMsg → RespMsg → Prop}

theorem Holds.comes {c : Cluster} (h : c.Holds S Q A) {act : Act} {i : Int} {ev : Event}
    (he : c.event? act = some (i, ev)) : Comes Q A i ev := by
  cases act with
  | timeout j =>
    cases he
    exact .timeout
  | heartbeat j pid =>
    cases he
    exact .heartbeat pid
  | client j req =>
    cases he
    exact .client rfl
  | deliver k =>
    obtain ⟨call, hcall, heq⟩ := Option.map_eq_some_iff.mp he
    cases heq
    exact .deliver (h.calls call (List.mem_of_getElem? hcall)) rfl
  | answer k j =>
    simp only [event?] at he
    split at he
    · cases he
    · rename_i call hcall
      split at he
      · cases he
      · obtain ⟨resp, hresp, heq⟩ := Option.map_eq_some_iff.mp he
        cases heq
        have hmem := List.mem_of_getElem? hcall
        exact .answer (h.calls call hmem) (h.answers call hmem resp (List.mem_of_getElem? hresp)) rfl
  | fail k =>
    simp only [event?] at he
    split at he
    · cases he
    · rename_i call hcall
      split at he
      · cases he
      · cases he
        exact .fail (h.calls call (List.mem_of_getElem? hcall)) rfl
  | wake j =>
    cases he
    exact .wake
  | commit j =>
    cases he
    exact .commit

/-- A call after an act is one from before, touched, or a new one. -/
theorem mem_calls_next {c : Cluster} {env : Env} {act : Act} {i : Int} {ev : Event}
    (he : c.event? act = some (i, ev)) (hid : i ∈ c.ids) {call : Call}
    (h : call ∈ (c.next env act).calls) :
    (∃ old ∈ c.calls, call.req = old.req ∧ (old.settled = true → call.settled = true) ∧
        ∀ resp ∈ call.answers, resp ∈ old.answers ∨
          ev = .request old.req ∧ ∃ m, .reply resp m ∈ (c.servers i).effects env ev) ∨
      call.answers = [] ∧ call.settled = false ∧
        ∃ m, .send call.req m ∈ (c.servers i).effects env ev := by
  simp only [next, he, if_pos hid, List.mem_append, List.mem_map, List.mem_filterMap] at h
  rcases h with h | ⟨req, ⟨e, he', hsent⟩, rfl⟩
  · left
    have hsame : ∀ call ∈ c.calls, ∃ old ∈ c.calls, call.req = old.req ∧
        (old.settled = true → call.settled = true) ∧ ∀ resp ∈ call.answers, resp ∈ old.answers ∨
          ev = .request old.req ∧ ∃ m, .reply resp m ∈ (c.servers i).effects env ev :=
      fun call h => ⟨call, h, rfl, fun hs => hs, fun resp => .inl⟩
    have hmodify : ∀ {f : Call → Call} {k : Nat}, call ∈ c.calls.modify k f →
        call ∈ c.calls ∨ ∃ old, c.calls[k]? = some old ∧ call = f old := by
      intro f k hmem
      obtain ⟨n, hi⟩ := List.getElem?_of_mem hmem
      rw [List.getElem?_modify] at hi
      obtain ⟨old, hold, heq⟩ := Option.map_eq_some_iff.mp hi
      split at heq
      · rename_i hk
        exact .inr ⟨old, hk ▸ hold, heq.symm⟩
      · exact .inl (heq ▸ List.mem_of_getElem? hold)
    cases act with
    | deliver k =>
      rcases hmodify h with h | ⟨old, hold, rfl⟩
      · exact hsame call h
      · have hev : ev = .request old.req := by
          simp only [event?, hold, Option.map_some, Option.some.injEq, Prod.mk.injEq] at he
          exact he.2.symm
        refine ⟨old, List.mem_of_getElem? hold, rfl, fun hs => hs, fun resp hresp => ?_⟩
        rcases List.mem_append.mp hresp with hresp | hresp
        · exact .inl hresp
        · obtain ⟨e, he', hreply⟩ := List.mem_filterMap.mp hresp
          cases e <;> cases hreply
          exact .inr ⟨hev, _, he'⟩
    | answer k j =>
      rcases hmodify h with h | ⟨old, hold, rfl⟩
      · exact hsame call h
      · exact ⟨old, List.mem_of_getElem? hold, rfl, fun _ => rfl, fun resp => .inl⟩
    | fail k =>
      rcases hmodify h with h | ⟨old, hold, rfl⟩
      · exact hsame call h
      · exact ⟨old, List.mem_of_getElem? hold, rfl, fun _ => rfl, fun resp => .inl⟩
    | _ => exact hsame call h
  · right
    cases e <;> cases hsent
    exact ⟨rfl, rfl, _, he'⟩

/-! ## What an act changes -/

/-- The effects of the server an act is about come to the history. -/
theorem history_next {c : Cluster} {env : Env} {act : Act} {i : Int} {ev : Event}
    (he : c.event? act = some (i, ev)) (hid : i ∈ c.ids) :
    (c.next env act).history = c.history ++ ((c.servers i).effects env ev).map fun e => (i, e) := by
  simp only [next, he, if_pos hid]

theorem servers_next_self {c : Cluster} {env : Env} {act : Act} {i : Int} {ev : Event}
    (he : c.event? act = some (i, ev)) (hid : i ∈ c.ids) :
    (c.next env act).servers i = (c.servers i).next env ev := by
  simp only [next, he, if_pos hid, Function.update_self]

theorem servers_next_of_ne {c : Cluster} {env : Env} {act : Act} {i j : Int} {ev : Event}
    (he : c.event? act = some (i, ev)) (hid : i ∈ c.ids) (hne : j ≠ i) :
    (c.next env act).servers j = c.servers j := by
  simp only [next, he, if_pos hid, Function.update_of_ne hne]

theorem touch_req (o : List Effect) (calls : List Call) (act : Act) :
    (touch o calls act).map Call.req = calls.map Call.req := by
  have hmodify : ∀ {f : Call → Call} (k : Nat), (∀ call, (f call).req = call.req) →
      (calls.modify k f).map Call.req = calls.map Call.req := by
    intro f k hf
    refine List.ext_getElem? fun n => ?_
    rw [List.getElem?_map, List.getElem?_map, List.getElem?_modify]
    cases calls[n]? with
    | none => rfl
    | some call =>
      by_cases hk : k = n
      · simp [hk, hf]
      · simp [hk]
  cases act with
  | deliver k => exact hmodify k fun _ => rfl
  | answer k j => exact hmodify k fun _ => rfl
  | fail k => exact hmodify k fun _ => rfl
  | _ => rfl

/-- The requests on their way, in the order in which they were sent. -/
theorem calls_next_req {c : Cluster} {env : Env} {act : Act} {i : Int} {ev : Event}
    (he : c.event? act = some (i, ev)) (hid : i ∈ c.ids) :
    (c.next env act).calls.map Call.req =
      c.calls.map Call.req ++ ((c.servers i).effects env ev).filterMap sent? := by
  have hnew : ∀ reqs : List ReqMsg, (reqs.map fun req => ({ req := req } : Call)).map Call.req = reqs := by
    intro reqs
    rw [List.map_map]
    exact List.map_id reqs
  simp only [next, he, if_pos hid, List.map_append, touch_req, hnew]

/-- A call that has come back stays so. -/
theorem settled_next {c : Cluster} (env : Env) (act : Act) {k : Nat} {call : Call}
    (h : c.calls[k]? = some call) (hs : call.settled = true) :
    ∃ call', (c.next env act).calls[k]? = some call' ∧ call'.req = call.req ∧ call'.settled = true := by
  have htouch : ∀ o, ∃ call', (touch o c.calls act)[k]? = some call' ∧ call'.req = call.req ∧
      call'.settled = true := by
    intro o
    have hmodify : ∀ {f : Call → Call} (n : Nat), (∀ call, (f call).req = call.req) →
        (∀ call, call.settled = true → (f call).settled = true) →
        ∃ call', (c.calls.modify n f)[k]? = some call' ∧ call'.req = call.req ∧ call'.settled = true := by
      intro f n hreq hf
      rw [List.getElem?_modify, h]
      by_cases hn : n = k
      · exact ⟨f call, by simp [hn], hreq call, hf call hs⟩
      · exact ⟨call, by simp [hn], rfl, hs⟩
    cases act with
    | deliver n => exact hmodify n (fun _ => rfl) fun _ h => h
    | answer n j => exact hmodify n (fun _ => rfl) fun _ _ => rfl
    | fail n => exact hmodify n (fun _ => rfl) fun _ _ => rfl
    | _ => exact ⟨call, h, rfl, hs⟩
  unfold next
  split
  · exact ⟨call, h, rfl, hs⟩
  · rename_i i ev _
    split
    · obtain ⟨call', hcall, hrest⟩ := htouch ((c.servers i).effects env ev)
      refine ⟨call', ?_, hrest⟩
      rw [List.getElem?_append_left (List.getElem?_eq_some_iff.mp hcall).1]
      exact hcall
    · exact ⟨call, h, rfl, hs⟩

/-- The answer that comes back belongs to a call that none has come back for. -/
theorem event?_answer {c : Cluster} {k j : Nat} {i : Int} {ev : Event}
    (he : c.event? (.answer k j) = some (i, ev)) :
    ∃ call resp, c.calls[k]? = some call ∧ call.settled = false ∧ resp ∈ call.answers ∧
      call.req.src = i ∧ ev = .peerResp (some (.peer call.req.dst)) call.req.type resp := by
  simp only [event?] at he
  split at he
  · cases he
  · rename_i call hcall
    split at he
    · cases he
    · rename_i hopen
      obtain ⟨resp, hresp, heq⟩ := Option.map_eq_some_iff.mp he
      cases heq
      exact ⟨call, resp, hcall, Bool.eq_false_iff.mpr hopen, List.mem_of_getElem? hresp, rfl, rfl⟩

/-- A request that reaches a server is addressed to it, or comes from a client. -/
theorem request_dst {c : Cluster} {act : Act} {i : Int} {req : ReqMsg} (he : c.event? act = some (i, .request req)) :
    req.type = .clientRequest ∨ req.dst = i := by
  cases act with
  | client j r =>
    cases he
    exact .inl rfl
  | deliver k =>
    obtain ⟨call, -, heq⟩ := Option.map_eq_some_iff.mp he
    cases heq
    exact .inr rfl
  | answer k j =>
    obtain ⟨call, resp, -, -, -, -, h⟩ := event?_answer he
    cases h
  | fail k =>
    simp only [event?] at he
    split at he
    · cases he
    · split at he <;> cases he
  | _ => cases he

/-- A response reaches a server as the answer to one of its calls. -/
theorem response_act {c : Cluster} {act : Act} {i : Int} {via : Option Server.PeerRef} {reqType : MsgType} {resp : RespMsg}
    (he : c.event? act = some (i, .peerResp via reqType resp)) : ∃ k j, act = .answer k j := by
  cases act with
  | answer k j => exact ⟨k, j, rfl⟩
  | deliver k =>
    obtain ⟨call, -, heq⟩ := Option.map_eq_some_iff.mp he
    cases heq
  | fail k =>
    simp only [event?] at he
    split at he
    · cases he
    · split at he <;> cases he
  | _ => cases he

/-- It has come back now. -/
theorem settled_answer {c : Cluster} {env : Env} {k j : Nat} {i : Int} {ev : Event}
    (he : c.event? (.answer k j) = some (i, ev)) (hid : i ∈ c.ids) {call : Call}
    (h : c.calls[k]? = some call) : (c.next env (.answer k j)).calls[k]? = some { call with settled := true } := by
  have hlt := (List.getElem?_eq_some_iff.mp h).1
  simp only [next, he, if_pos hid, touch]
  rw [List.getElem?_append_left (by rwa [List.length_modify]), List.getElem?_modify, h]
  simp

/-- **One act, one server**: what the others, the calls and the answers satisfy
goes on, and the rest is about the server the act is about. -/
theorem Holds.next {c : Cluster} (h : c.Holds S Q A) (env : Env) {act : Act} {i : Int} {ev : Event}
    (he : c.event? act = some (i, ev)) (hid : i ∈ c.ids)
    (hS : ∀ j s, j ≠ i → S j s → S' j s) (hQ : ∀ req, Q req → Q' req)
    (hA : ∀ req resp, A req resp → A' req resp) (hserver : S' i ((c.servers i).next env ev))
    (hsend : ∀ req m, .send req m ∈ (c.servers i).effects env ev → Q' req)
    (hreply : ∀ req resp m, ev = .request req → Q req →
      .reply resp m ∈ (c.servers i).effects env ev → A' req resp) :
    (c.next env act).Holds S' Q' A' := by
  refine ⟨fun j hj => ?_, fun call hcall => ?_, fun call hcall resp hresp => ?_⟩
  · rw [ids_next] at hj
    simp only [Cluster.next, he, if_pos hid]
    by_cases hji : j = i
    · rw [hji, Function.update_self]
      exact hserver
    · rw [Function.update_of_ne hji]
      exact hS j _ hji (h.servers j hj)
  · rcases mem_calls_next he hid hcall with ⟨old, hold, heq, -, -⟩ | ⟨-, -, m, hsent⟩
    · rw [heq]
      exact hQ _ (h.calls old hold)
    · exact hsend _ m hsent
  · rcases mem_calls_next he hid hcall with ⟨old, hold, heq, -, hans⟩ | ⟨hnil, -, -⟩
    · rw [heq]
      rcases hans resp hresp with hresp | ⟨hev, m, hrep⟩
      · exact hA _ _ (h.answers old hold resp hresp)
      · exact hreply _ _ m hev (h.calls old hold) hrep
    · rw [hnil] at hresp
      cases hresp

/-- An act about nobody in the cluster. -/
theorem next_of_none {c : Cluster} {act : Act} (env : Env)
    (h : ∀ i ev, c.event? act = some (i, ev) → i ∉ c.ids) : c.next env act = c := by
  unfold Cluster.next
  split
  · rfl
  · rename_i i ev he
    rw [if_neg (h i ev he)]

end Cluster
end Cornerstone
