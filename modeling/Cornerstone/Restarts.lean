import Cornerstone.DurableVote
import Cornerstone.ElectionSafety
import Cornerstone.Shares

/-! # Elections with crashes

A process may die anywhere in a handler and be started again.  What it has sent by then
is on its way, what it was waiting for is lost, and it goes on from the state it last
passed to `save_state`, with no office and no votes counted.  As term and vote are saved
before they are seen, an election does not notice: the votes asked for and given are no
later than the state the server comes back with.
-/

namespace Cornerstone
open Handlers

/-- What can happen in a cluster whose processes die: an act, or one in the midst of which
the server it is about dies, after the first `done` effects, and is started again with the
log and the configuration it then finds. -/
inductive Fate
  | act (env : Env) (act : Act)
  | crash (env : Env) (act : Act) (done : Nat) (logStore : LogStore) (config : ClusterConfig)

/-- What a server has passed to `save_state` last. -/
def savedBy (i : Int) (history : List (Int × Effect)) : Option SrvState :=
  lastSaved none (history.filterMap fun p => if p.1 = i then some p.2 else none)

/-- A call after the process of `i` has died: what comes back to `i` is lost. -/
def Call.orphan (i : Int) (call : Call) : Call :=
  if call.req.src = i then { call with settled := true } else call

namespace Cluster

/-- The cluster after a crash. -/
def crash (c : Cluster) (env : Env) (act : Act) (done : Nat) (logStore : LogStore) (config : ClusterConfig) : Cluster :=
  match c.event? act with
  | none => c
  | some (i, ev) =>
    if i ∈ c.ids then
      let o := ((c.servers i).effects env ev).take done
      let calls : List Call := touch o c.calls act ++ (o.filterMap sent?).map fun req => { req := req }
      let history := c.history ++ o.map fun e => (i, e)
      { c with
        servers := Function.update c.servers i
          (.start i (c.servers i).params (savedBy i history) logStore config)
        calls := calls.map (Call.orphan i)
        history := history }
    else c

/-- The cluster after what happens in it. -/
def meet (c : Cluster) : Fate → Cluster
  | .act env act => c.next env act
  | .crash env act done logStore config => c.crash env act done logStore config

/-- The cluster after a run with crashes. -/
def meetAll (c : Cluster) : List Fate → Cluster
  | [] => c
  | f :: fs => (c.meet f).meetAll fs

/-- An act that leaves elections in order and the members as they are. -/
def Survivable (c : Cluster) (act : Act) : Prop := c.On KeepsMembers act ∧ c.On ElectsSafely act

/-- The condition under which elections stay in order: what is handled, to the end or in
part, leaves them so, and a server that is started again finds a log that was never
compacted and the members as they were. -/
def Survives (c : Cluster) : Fate → Prop
  | .act _ act => c.Survivable act
  | .crash _ act done logStore config => (done ≠ 0 → c.Survivable act) ∧ logStore.startIdx = 1 ∧
      (∀ srv ∈ config.servers, srv.id ∈ c.ids) ∧ c.ids ⊆ config.servers.map SrvConfig.id

/-- Everything that happens in a run meets the condition. -/
def SurvivesAll (c : Cluster) : List Fate → Prop
  | [] => True
  | f :: fs => c.Survives f ∧ (c.meet f).SurvivesAll fs

instance (c : Cluster) (act : Act) : Decidable (c.Survivable act) := inferInstanceAs (Decidable (_ ∧ _))

instance decidableSurvives (c : Cluster) : (f : Fate) → Decidable (c.Survives f)
  | .act _ act => inferInstanceAs (Decidable (c.Survivable act))
  | .crash _ act done logStore config => inferInstanceAs (Decidable ((done ≠ 0 → c.Survivable act) ∧
      logStore.startIdx = 1 ∧ (∀ srv ∈ config.servers, srv.id ∈ c.ids) ∧ c.ids ⊆ config.servers.map SrvConfig.id))

instance decidableSurvivesAll : (c : Cluster) → (fs : List Fate) → Decidable (c.SurvivesAll fs)
  | _, [] => inferInstanceAs (Decidable True)
  | c, f :: fs =>
    haveI := decidableSurvivesAll (c.meet f) fs
    inferInstanceAs (Decidable (c.Survives f ∧ (c.meet f).SurvivesAll fs))

end Cluster

/-! ## What has been saved -/

theorem lastSaved_append : ∀ (saved : Option SrvState) (o o' : List Effect),
    lastSaved saved (o ++ o') = lastSaved (lastSaved saved o) o'
  | _, [], _ => rfl
  | saved, e :: o, o' => by
    cases e with
    | saveState st => exact lastSaved_append (some st) o o'
    | _ => exact lastSaved_append saved o o'

/-- What a server does, it adds to what it has saved. -/
theorem savedBy_self (i : Int) (history : List (Int × Effect)) (o : List Effect) :
    savedBy i (history ++ o.map fun e => (i, e)) = lastSaved (savedBy i history) o := by
  have hown : (o.map fun e => (i, e)).filterMap (fun p => if p.1 = i then some p.2 else none) = o := by
    rw [List.filterMap_map]
    simp
  rw [savedBy, List.filterMap_append, hown, lastSaved_append]
  rfl

theorem savedBy_of_ne {i j : Int} (h : j ≠ i) (history : List (Int × Effect)) (o : List Effect) :
    savedBy j (history ++ o.map fun e => (i, e)) = savedBy j history := by
  have hnone : (o.map fun e => (i, e)).filterMap (fun p => if p.1 = j then some p.2 else none) = [] := by
    simp [Ne.symm h]
  rw [savedBy, List.filterMap_append, hnone, List.append_nil]
  rfl

/-! ## What is seen by the time of a crash -/

theorem Durable.take : ∀ {b : Ballot} {o : List Effect} (n : Nat), Durable b o → Durable b (o.take n)
  | _, _, 0, _ => trivial
  | _, [], _ + 1, _ => trivial
  | b, e :: o, n + 1, h => by
    cases e with
    | saveState st => exact Durable.take (b := st.ballot) (o := o) n h
    | send req m => exact ⟨h.1, h.2.1, Durable.take n h.2.2⟩
    | sendExt req m => exact ⟨h.1, Durable.take n h.2⟩
    | reply resp m => exact ⟨h.1, h.2.1, Durable.take n h.2.2⟩
    | _ => exact Durable.take (b := b) (o := o) n h

/-- A vote is asked for in a term no later than the one saved last. -/
theorem Durable.asked_le {b : Ballot} {o : List Effect} (h : Durable b o) (hc : BallotChain b o) {req : ReqMsg}
    {m : SrvState} (hs : .send req m ∈ o) (htype : req.type = .requestVoteRequest) :
    req.term ≤ (lastBallot b o).term := by
  induction o generalizing b with
  | nil => cases hs
  | cons e o ih =>
    rcases List.mem_cons.mp hs with heq | hlater
    · -- it is sent now, in the term that is saved
      subst heq
      have hnow : b = ⟨req.term, req.src⟩ := h.2.1 htype
      have hterm : req.term = b.term := (congrArg Ballot.term hnow).symm
      exact hterm.le.trans hc.le
    · cases e with
      | saveState st => exact ih (b := st.ballot) h hc.2 hlater
      | send req' m' => exact ih (b := b) h.2.2 hc hlater
      | sendExt req' m' => exact ih (b := b) h.2 hc hlater
      | reply resp m' => exact ih (b := b) h.2.2 hc.2 hlater
      | _ => exact ih (b := b) h hc hlater

/-! ## Calls at a crash -/

@[simp] theorem Call.orphan_req (i : Int) (call : Call) : (call.orphan i).req = call.req := by
  unfold Call.orphan
  split <;> rfl

@[simp] theorem Call.orphan_answers (i : Int) (call : Call) : (call.orphan i).answers = call.answers := by
  unfold Call.orphan
  split <;> rfl

theorem Call.orphan_settled {i : Int} {call : Call} (h : call.settled = true) : (call.orphan i).settled = true := by
  unfold Call.orphan
  split
  · rfl
  · exact h

namespace Cluster
variable {c : Cluster} {env : Env} {act : Act} {i : Int} {ev : Event} {done : Nat} {logStore : LogStore}
  {config : ClusterConfig}

/-- A call that an act touches is the same call, perhaps with more answers. -/
theorem touch_get (o : List Effect) (act : Act) {calls : List Call} {k : Nat} {call : Call}
    (h : calls[k]? = some call) :
    ∃ call', (touch o calls act)[k]? = some call' ∧ call'.req = call.req ∧
      (call.settled = true → call'.settled = true) ∧
      (call'.answers = call.answers ∨ act = .deliver k ∧ call'.answers = call.answers ++ o.filterMap reply?) := by
  have hmodify : ∀ (f : Call → Call) (n : Nat), (calls.modify n f)[k]? =
      some (if n = k then f call else call) := by
    intro f n
    rw [List.getElem?_modify, h]
    rfl
  cases act with
  | deliver n =>
    refine ⟨_, hmodify _ n, ?_⟩
    by_cases hn : n = k
    · rw [if_pos hn]
      exact ⟨rfl, id, .inr ⟨by rw [hn], rfl⟩⟩
    · rw [if_neg hn]
      exact ⟨rfl, id, .inl rfl⟩
  | answer n j =>
    refine ⟨_, hmodify _ n, ?_⟩
    split
    · exact ⟨rfl, fun _ => rfl, .inl rfl⟩
    · exact ⟨rfl, id, .inl rfl⟩
  | fail n =>
    refine ⟨_, hmodify _ n, ?_⟩
    split
    · exact ⟨rfl, fun _ => rfl, .inl rfl⟩
    · exact ⟨rfl, id, .inl rfl⟩
  | _ => exact ⟨call, h, rfl, id, .inl rfl⟩

@[simp] theorem ids_crash (c : Cluster) (env : Env) (act : Act) (done : Nat) (logStore : LogStore)
    (config : ClusterConfig) : (c.crash env act done logStore config).ids = c.ids := by
  unfold crash
  split
  · rfl
  · split <;> rfl

theorem history_crash (he : c.event? act = some (i, ev)) (hid : i ∈ c.ids) :
    (c.crash env act done logStore config).history =
      c.history ++ (((c.servers i).effects env ev).take done).map fun e => (i, e) := by
  simp only [crash, he, if_pos hid]

theorem servers_crash_self (he : c.event? act = some (i, ev)) (hid : i ∈ c.ids) :
    (c.crash env act done logStore config).servers i = .start i (c.servers i).params
      (lastSaved (savedBy i c.history) (((c.servers i).effects env ev).take done)) logStore config := by
  simp only [crash, he, if_pos hid, Function.update_self, savedBy_self]

theorem servers_crash_of_ne (he : c.event? act = some (i, ev)) (hid : i ∈ c.ids) {j : Int} (hj : j ≠ i) :
    (c.crash env act done logStore config).servers j = c.servers j := by
  simp only [crash, he, if_pos hid, Function.update_of_ne hj]

/-- The requests on their way after a crash. -/
theorem calls_crash_req (he : c.event? act = some (i, ev)) (hid : i ∈ c.ids) :
    (c.crash env act done logStore config).calls.map Call.req =
      c.calls.map Call.req ++ (((c.servers i).effects env ev).take done).filterMap sent? := by
  have hreq : Call.req ∘ Call.orphan i = Call.req := funext fun call => call.orphan_req i
  simp only [crash, he, if_pos hid, List.map_map, hreq, List.map_append, touch_req]
  simp [Function.comp_def]

/-- A call that has come back stays so. -/
theorem settled_crash (he : c.event? act = some (i, ev)) (hid : i ∈ c.ids) {k : Nat} {call : Call}
    (h : c.calls[k]? = some call) (hs : call.settled = true) :
    ∃ call', (c.crash env act done logStore config).calls[k]? = some call' ∧ call'.req = call.req ∧
      call'.settled = true := by
  simp only [crash, he, if_pos hid]
  obtain ⟨call', hcall, hreq, hs', -⟩ := touch_get (((c.servers i).effects env ev).take done) act h
  refine ⟨call'.orphan i, ?_, (call'.orphan_req i).trans hreq, Call.orphan_settled (hs' hs)⟩
  rw [List.getElem?_map, List.getElem?_append_left (List.getElem?_eq_some_iff.mp hcall).1, hcall]
  rfl

/-- A call after a crash is one from before, or one of what the server has sent by then. -/
theorem mem_calls_crash (he : c.event? act = some (i, ev)) (hid : i ∈ c.ids) {call : Call}
    (h : call ∈ (c.crash env act done logStore config).calls) :
    (∃ old ∈ c.calls, call.req = old.req ∧ ∀ resp ∈ call.answers, resp ∈ old.answers ∨
        ev = .request old.req ∧ ∃ m, .reply resp m ∈ ((c.servers i).effects env ev).take done) ∨
      call.answers = [] ∧ ∃ m, .send call.req m ∈ ((c.servers i).effects env ev).take done := by
  simp only [crash, he, if_pos hid, List.map_append, List.mem_append, List.mem_map, List.mem_filterMap] at h
  rcases h with ⟨mid, hmid, rfl⟩ | ⟨fresh, ⟨req, ⟨e, hsent, hreq⟩, rfl⟩, rfl⟩
  · left
    obtain ⟨k, hk⟩ := List.getElem?_of_mem hmid
    have hlt : k < c.calls.length := by
      have hlen := congrArg List.length (touch_req (((c.servers i).effects env ev).take done) c.calls act)
      rw [List.length_map, List.length_map] at hlen
      rw [← hlen]
      exact (List.getElem?_eq_some_iff.mp hk).1
    have hold : c.calls[k]? = some c.calls[k] := List.getElem?_eq_getElem hlt
    obtain ⟨call', hcall, hreq, -, hans⟩ := touch_get (((c.servers i).effects env ev).take done) act hold
    obtain rfl : mid = call' := Option.some.inj (hk.symm.trans hcall)
    refine ⟨c.calls[k], List.getElem_mem hlt, (mid.orphan_req i).trans hreq, fun resp hresp => ?_⟩
    rw [Call.orphan_answers] at hresp
    rcases hans with hsame | ⟨hact, hmore⟩
    · rw [hsame] at hresp
      exact .inl hresp
    · rw [hmore] at hresp
      rcases List.mem_append.mp hresp with hresp | hresp
      · exact .inl hresp
      · rw [hact, event?, hold] at he
        cases he
        obtain ⟨e, he', hreply⟩ := List.mem_filterMap.mp hresp
        cases e <;> cases hreply
        exact .inr ⟨rfl, _, he'⟩
  · right
    cases e <;> cases hreq
    exact ⟨Call.orphan_answers i _, _, by rw [Call.orphan_req]; exact hsent⟩

/-- A crash about nobody in the cluster. -/
theorem crash_of_none (h : ∀ i ev, c.event? act = some (i, ev) → i ∉ c.ids) :
    c.crash env act done logStore config = c := by
  unfold crash
  split
  · rfl
  · rename_i i ev he
    rw [if_neg (h i ev he)]

end Cluster

/-! ## The invariant -/

/-- What holds of elections between the steps of a run with crashes. -/
structure Lasting (c : Cluster) : Prop where
  polled : Polled c
  saved : ∀ i ∈ c.ids, ((savedBy i c.history).getD {}).ballot = (c.servers i).state.ballot

/-- What a server has passed to `save_state` has the term and the vote it has in memory,
whatever happens. -/
theorem saved_next {c : Cluster} {act : Act} {i : Int} {ev : Event} (env : Env)
    (h : ∀ j ∈ c.ids, ((savedBy j c.history).getD {}).ballot = (c.servers j).state.ballot)
    (he : c.event? act = some (i, ev)) (hid : i ∈ c.ids) {j : Int} (hj : j ∈ c.ids) :
    ((savedBy j (c.next env act).history).getD {}).ballot = ((c.next env act).servers j).state.ballot := by
  rw [Cluster.history_next he hid]
  by_cases hji : j = i
  · subst hji
    rw [savedBy_self, Node.lastSaved_ballot, h j hj, Cluster.servers_next_self he hid]
    exact ((c.servers j).next_savesFirst env ev).last
  · rw [savedBy_of_ne hji, Cluster.servers_next_of_ne he hid hji]
    exact h j hj

namespace Polled
variable {c : Cluster} {env : Env} {act : Act} {i : Int} {ev : Event}

/-- An act that leaves elections in order and the members as they are is a turn. -/
theorem turn_of_survivable (h : Polled c) (he : c.event? act = some (i, ev)) (hid : i ∈ c.ids)
    (hact : c.Survivable act) : Turn c env act i ev := by
  have hsafe := hact.2 i ev he hid
  have h1 := (h.holds.servers i hid).startIdx
  refine ⟨he, hid, ?_, h.votesSafely he hsafe, hsafe⟩
  cases h.holds.comes he with
  | client hcli => exact polls_next env h1 (.inr (.inr hcli))
  | deliver hreq hd =>
    rcases hreq with happ | hvote
    · exact polls_next env h1 (.inl happ)
    · exact polls_next env h1 (.inr (.inl hvote.type))
  | commit => exact polls_ordinary env h1 trivial (hact.1 i _ he hid)
  | _ => exact polls_next env h1 trivial

end Polled

/-- A server dies in the midst of handling an event, or before it does anything. -/
structure Crashes (c : Cluster) (env : Env) (act : Act) (done : Nat) (i : Int) (ev : Event) : Prop where
  event : c.event? act = some (i, ev)
  mem : i ∈ c.ids
  turn : done ≠ 0 → Polled.Turn c env act i ev

namespace Crashes
variable {c : Cluster} {env : Env} {act : Act} {done : Nat} {i : Int} {ev : Event} {logStore : LogStore}
  {config : ClusterConfig}

/-- A server as a node that has saved what is on record. -/
def lastNode (c : Cluster) (i : Int) : Node := ⟨c.servers i, savedBy i c.history, (c.node i).votes⟩

theorem lastNode_inv (h : Lasting c) (hid : i ∈ c.ids) : (lastNode c i).Inv :=
  ⟨h.saved i hid, (h.polled.nodes i hid).votes, (h.polled.nodes i hid).unique⟩

/-- What the server has done by then has been handled in order. -/
theorem turn_of_mem (h : Crashes c env act done i ev) {e : Effect}
    (he : e ∈ ((c.servers i).effects env ev).take done) : Polled.Turn c env act i ev := by
  refine h.turn fun hd => ?_
  rw [hd, List.take_zero] at he
  cases he

/-- The server comes back with the votes it has given in order, and in no earlier term. -/
theorem node_crash (h : Crashes c env act done i ev) (hl : Lasting c) :
    ((c.crash env act done logStore config).node i).Inv ∧
      (c.servers i).state.term ≤ ((c.crash env act done logStore config).servers i).state.term := by
  have hidself := (hl.polled.holds.servers i h.mem).id
  have hsafe : (lastNode c i).Safe (.crash env ev done logStore config) := fun hd => (h.turn hd).votes
  obtain ⟨hinv, hle⟩ := (lastNode_inv hl h.mem).next hsafe
  have hserver : ((lastNode c i).next (.crash env ev done logStore config)).server =
      (c.crash env act done logStore config).servers i := by
    rw [Cluster.servers_crash_self h.event h.mem]
    show Server.start (c.servers i).id _ _ _ _ = _
    rw [hidself]
    rfl
  have hvotes : ((c.crash env act done logStore config).node i).votes =
      ((lastNode c i).next (.crash env ev done logStore config)).votes := by
    simp only [Cluster.node, Cluster.history_crash h.event h.mem, List.filterMap_append, List.filterMap_map,
      Function.comp_def, if_true]
    rfl
  rw [hserver] at hle
  have hnow : ((c.crash env act done logStore config).node i).server =
      ((lastNode c i).next (.crash env ev done logStore config)).server := hserver.symm
  refine ⟨⟨rfl, ?_, ?_⟩, hle⟩
  · rw [hvotes, hnow]
    exact hinv.votes
  · rw [hvotes]
    exact hinv.unique

theorem node_crash_of_ne (h : Crashes c env act done i ev) {j : Int} (hj : j ≠ i) :
    (c.crash env act done logStore config).node j = c.node j := by
  have hnone : (((c.servers i).effects env ev).take done).filterMap
      (fun e => if (i, e).1 = j then (i, e).2.vote else none) = [] := by
    simp [Ne.symm hj]
  simp only [Cluster.node, Cluster.history_crash h.event h.mem, Cluster.servers_crash_of_ne h.event h.mem hj,
    List.filterMap_append, List.filterMap_map, Function.comp_def, hnone, List.append_nil]

theorem term_le (h : Crashes c env act done i ev) (hl : Lasting c) (j : Int) :
    (c.servers j).state.term ≤ ((c.crash env act done logStore config).servers j).state.term := by
  by_cases hj : j = i
  · rw [hj]
    exact (h.node_crash hl).2
  · rw [Cluster.servers_crash_of_ne h.event h.mem hj]

theorem history_subset (h : Crashes c env act done i ev) :
    c.history ⊆ (c.crash env act done logStore config).history := by
  rw [Cluster.history_crash h.event h.mem]
  exact List.subset_append_left _ _

/-- What is on record is what the server comes back with. -/
theorem saved_crash (h : Crashes c env act done i ev) (hl : Lasting c) {j : Int} (hj : j ∈ c.ids) :
    ((savedBy j (c.crash env act done logStore config).history).getD {}).ballot =
      ((c.crash env act done logStore config).servers j).state.ballot := by
  rw [Cluster.history_crash h.event h.mem]
  by_cases hji : j = i
  · rw [hji, savedBy_self, Cluster.servers_crash_self h.event h.mem]
    rfl
  · rw [savedBy_of_ne hji, Cluster.servers_crash_of_ne h.event h.mem hji]
    exact hl.saved j hj

/-- A vote that has been asked for by the time of the crash is of a term that is saved. -/
theorem asked_le (h : Crashes c env act done i ev) (hl : Lasting c) {req : ReqMsg} {m : SrvState}
    (hs : .send req m ∈ ((c.servers i).effects env ev).take done) (htype : req.type = .requestVoteRequest) :
    req.term ≤ ((c.crash env act done logStore config).servers i).state.term := by
  have hdurable := ((c.servers i).next_savesFirst env ev).durable.take done
  have hchain := (Node.effects_chain env (h.turn_of_mem hs).votes).1.take done
  have hterm : (lastSaved (savedBy i c.history) (((c.servers i).effects env ev).take done)).getD {} =
      ((c.crash env act done logStore config).servers i).state := by
    rw [Cluster.servers_crash_self h.event h.mem]
    rfl
  rw [← hterm]
  have hlast := Node.lastSaved_ballot (savedBy i c.history) (((c.servers i).effects env ev).take done)
  rw [hl.saved i h.mem] at hlast
  exact (hdurable.asked_le hchain hs htype).trans (congrArg Ballot.term hlast).ge

/-- The server comes back as the member it was. -/
theorem member_crash (h : Crashes c env act done i ev) (h1 : logStore.startIdx = 1)
    (hto : ∀ srv ∈ config.servers, srv.id ∈ c.ids) (hfrom : c.ids ⊆ config.servers.map SrvConfig.id) :
    Member c.ids i ((c.crash env act done logStore config).servers i) := by
  rw [Cluster.servers_crash_self h.event h.mem]
  refine ⟨rfl, h1, (List.nodup_cons.mp (start_nodup i _ _ logStore config)).2, fun q => ?_⟩
  have hpeers := mem_start_peerIds i (c.servers i).params config q
  have hids : q ∈ config.servers.map SrvConfig.id ↔ q ∈ c.ids := by
    refine ⟨fun hq => ?_, fun hq => hfrom hq⟩
    obtain ⟨srv, hsrv, rfl⟩ := List.mem_map.mp hq
    exact hto srv hsrv
  rw [hids] at hpeers
  exact hpeers

theorem holds_crash (h : Crashes c env act done i ev) (hl : Lasting c) (h1 : logStore.startIdx = 1)
    (hto : ∀ srv ∈ config.servers, srv.id ∈ c.ids) (hfrom : c.ids ⊆ config.servers.map SrvConfig.id) :
    (c.crash env act done logStore config).Holds (Member c.ids)
      (Requested (c.crash env act done logStore config))
      (VoteGiven (c.crash env act done logStore config).history) := by
  have hholds := hl.polled.holds
  have hmember := hholds.servers i h.mem
  refine ⟨fun j hj => ?_, fun call hcall => ?_, fun call hcall resp hresp => ?_⟩
  · rw [Cluster.ids_crash] at hj
    by_cases hji : j = i
    · rw [hji]
      exact h.member_crash h1 hto hfrom
    · rw [Cluster.servers_crash_of_ne h.event h.mem hji]
      exact hholds.servers j hj
  · rcases Cluster.mem_calls_crash h.event h.mem hcall with ⟨old, hold, hreq, -⟩ | ⟨-, m, hsent⟩
    · rw [hreq]
      rcases hholds.calls old hold with happ | hvote
      · exact .inl happ
      · exact .inr ⟨hvote.type, hvote.src_ne, by simpa using hvote.dst_mem, hvote.dst_ne,
          hvote.term_le.trans (h.term_le hl _)⟩
    · have hturn := h.turn_of_mem hsent
      have heffect := hturn.polls.effect hmember.startIdx _ (List.mem_of_mem_take hsent)
      rcases heffect.of_send with happ | ⟨hev, hr, -, pid, hpid, hreq⟩
      · exact .inl happ
      · -- the term it is asked for in is the one the candidate comes back with
        obtain ⟨hmem, hne⟩ := (hmember.mem pid).mp hpid
        have hsafe := hturn.safe
        rw [hev] at hsafe
        have htype : call.req.type = .requestVoteRequest := by rw [hreq]; rfl
        have hsrc : call.req.src = i := by
          rw [hreq]
          exact hmember.id
        have hle : call.req.term ≤ ((c.crash env act done logStore config).servers i).state.term :=
          h.asked_le hl hsent htype
        refine .inr ⟨htype, ?_, ?_, ?_, ?_⟩
        · rw [hreq]
          exact (hsafe hr).1
        · rw [Cluster.ids_crash, hreq]
          exact hmem
        · rw [hsrc, hreq]
          exact hne
        · rw [hsrc]
          exact hle
  · intro hg
    rcases Cluster.mem_calls_crash h.event h.mem hcall with ⟨old, hold, hreq, hans⟩ | ⟨hnil, -⟩
    · rw [hreq]
      rcases hans resp hresp with hresp | ⟨hev, m, hreply⟩
      · obtain ⟨htype, hterm, hv⟩ := hholds.answers old hold resp hresp hg
        exact ⟨htype, hterm, hv.mono h.history_subset⟩
      · have heffect := (h.turn_of_mem hreply).polls.effect hmember.startIdx _ (List.mem_of_mem_take hreply)
        obtain ⟨req, hev', htype, hterm, hdst⟩ := heffect.of_reply hg
        obtain rfl : old.req = req := by
          rw [hev] at hev'
          cases hev'
          rfl
        have hdi : old.req.dst = i := by
          rcases Cluster.request_dst (hev ▸ h.event) with hcli | hdi
          · rw [htype] at hcli
            cases hcli
          · exact hdi
        refine ⟨htype, hterm, .reply resp m, ?_, ?_⟩
        · rw [hdi, Cluster.history_crash h.event h.mem]
          exact List.mem_append_right _ (List.mem_map_of_mem hreply)
        · rw [Effect.vote, if_pos hg, hterm, hdst]
    · rw [hnil] at hresp
      cases hresp

/-- No vote is asked for twice. -/
theorem once_crash (h : Crashes c env act done i ev) (hl : Lasting c) :
    (((c.crash env act done logStore config).calls.map Call.req).filterMap ReqMsg.ballotKey).Nodup := by
  rw [Cluster.calls_crash_req h.event h.mem]
  by_cases hd : done = 0
  · rw [hd, List.take_zero, List.filterMap_nil, List.append_nil]
    exact hl.polled.once
  · have honce := hl.polled.once_next (h.turn hd)
    rw [Cluster.calls_next_req h.event h.mem] at honce
    refine honce.sublist (List.Sublist.filterMap _ ?_)
    exact (List.Sublist.refl _).append ((List.take_sublist _ _).filterMap _)

/-- The server comes back with no votes counted; the others have those they had. -/
theorem tally_crash (h : Crashes c env act done i ev) (hl : Lasting c) {j : Int} (hj : j ∈ c.ids) :
    Tallied c.ids (c.crash env act done logStore config).history (c.crash env act done logStore config).calls j
      ((c.crash env act done logStore config).servers j).poll := by
  by_cases hji : j = i
  · rw [hji, Cluster.servers_crash_self h.event h.mem]
    exact .zero rfl
  · rw [Cluster.servers_crash_of_ne h.event h.mem hji]
    refine (hl.polled.tally j hj).mono h.history_subset fun t q hans => ?_
    obtain ⟨k, call, hcall, hs, hkey⟩ := hans
    obtain ⟨call', hcall', hreq, hs'⟩ := Cluster.settled_crash h.event h.mem hcall hs
    exact ⟨k, call', hcall', hs', hreq ▸ hkey⟩

/-- Whoever has taken office by the time of the crash had earned its votes by then. -/
theorem earned_crash (h : Crashes c env act done i ev) (hl : Lasting c) {before after : List (Int × Effect)}
    {j : Int} {t n : Nat}
    (heq : (c.crash env act done logStore config).history = before ++ (j, .becomeLeader t n) :: after) :
    Earned c.ids before j t n ∧ c.ids.dedup.length / 2 < n := by
  by_cases hd : done = 0
  · rw [Cluster.history_crash h.event h.mem, hd, List.take_zero, List.map_nil, List.append_nil] at heq
    exact hl.polled.earned before after j t n heq
  · -- had it gone on, the history would be the same up to there
    have hwhole : (c.next env act).history =
        before ++ (j, .becomeLeader t n) ::
          (after ++ (((c.servers i).effects env ev).drop done).map fun e => (i, e)) := by
      rw [Cluster.history_next h.event h.mem, ← List.take_append_drop done ((c.servers i).effects env ev),
        List.map_append, ← List.append_assoc, List.take_append_drop, ← Cluster.history_crash h.event h.mem, heq]
      simp
    exact hl.polled.earned_next (h.turn hd) hwhole

/-- **A crash leaves elections in order.** -/
theorem lasting (h : Crashes c env act done i ev) (hl : Lasting c) (h1 : logStore.startIdx = 1)
    (hto : ∀ srv ∈ config.servers, srv.id ∈ c.ids) (hfrom : c.ids ⊆ config.servers.map SrvConfig.id) :
    Lasting (c.crash env act done logStore config) := by
  refine ⟨⟨?_, fun j hj => ?_, fun j hj => ?_, h.once_crash hl, fun before after j t n heq => ?_⟩,
    fun j hj => ?_⟩
  · rw [Cluster.ids_crash]
    exact h.holds_crash hl h1 hto hfrom
  · rw [Cluster.ids_crash] at hj
    by_cases hji : j = i
    · rw [hji]
      exact (h.node_crash hl).1
    · rw [h.node_crash_of_ne hji]
      exact hl.polled.nodes j hj
  · rw [Cluster.ids_crash] at hj ⊢
    exact h.tally_crash hl hj
  · rw [Cluster.ids_crash]
    exact h.earned_crash hl heq
  · rw [Cluster.ids_crash] at hj
    exact h.saved_crash hl hj

end Crashes

/-! ## Every run -/

theorem lasting_start (params : Int → RaftParams) (config : ClusterConfig) : Lasting (.start params config) :=
  ⟨polled_start params config, fun _ _ => rfl⟩

/-- **Whatever happens leaves elections in order**, if it meets the condition. -/
theorem Lasting.meet {c : Cluster} {f : Fate} (h : Lasting c) (hf : c.Survives f) : Lasting (c.meet f) := by
  cases f with
  | act env act =>
    rw [Cluster.meet]
    by_cases hnobody : ∀ i ev, c.event? act = some (i, ev) → i ∉ c.ids
    · rw [Cluster.next_of_none env hnobody]
      exact h
    · push Not at hnobody
      obtain ⟨i, ev, he, hid⟩ := hnobody
      refine ⟨h.polled.next (h.polled.turn_of_survivable he hid hf), fun j hj => ?_⟩
      rw [Cluster.ids_next] at hj
      exact saved_next env h.saved he hid hj
  | crash env act done logStore config =>
    rw [Cluster.meet]
    obtain ⟨hact, h1, hto, hfrom⟩ := hf
    by_cases hnobody : ∀ i ev, c.event? act = some (i, ev) → i ∉ c.ids
    · rw [Cluster.crash_of_none hnobody]
      exact h
    · push Not at hnobody
      obtain ⟨i, ev, he, hid⟩ := hnobody
      have hcrash : Crashes c env act done i ev :=
        ⟨he, hid, fun hd => h.polled.turn_of_survivable he hid (hact hd)⟩
      exact hcrash.lasting h h1 hto hfrom

theorem Lasting.meetAll {c : Cluster} {fs : List Fate} (h : Lasting c) (hfs : c.SurvivesAll fs) :
    Lasting (c.meetAll fs) := by
  induction fs generalizing c with
  | nil => exact h
  | cons f fs ih => exact ih (h.meet hfs.1) hfs.2

/-- **Elections survive crashes**: in every run in which what is handled, to the end or until
the process dies, leaves elections in order, and servers come back as the members they
were, no two servers take office in one term, and whoever does has the votes it counts
from as many members, in its term. -/
theorem election_safe_of_crashes (params : Int → RaftParams) (config : ClusterConfig) (fs : List Fate)
    (h : (Cluster.start params config).SurvivesAll fs) :
    ElectionSafe ((Cluster.start params config).meetAll fs).ids
      ((Cluster.start params config).meetAll fs).history :=
  ((lasting_start params config).meetAll h).polled.safe

/-- Server 2 dies as soon as it has answered server 1 with its vote.  Started again, it
refuses server 3 in the same term; then server 1 hears of its vote and takes office. -/
def crashRun : List Fate :=
  [.act {} (.timeout 1), .crash {} (.deliver 0) 3 {} { servers := [⟨1, [49]⟩, ⟨2, [50]⟩, ⟨3, [51]⟩] },
    .act {} (.timeout 3), .act {} (.deliver 3), .act {} (.answer 3 0), .act {} (.answer 0 0)]

theorem election_safe_of_crashes_three :
    ElectionSafe (freshCluster.meetAll crashRun).ids (freshCluster.meetAll crashRun).history :=
  election_safe_of_crashes _ _ crashRun (by decide +kernel)

end Cornerstone
