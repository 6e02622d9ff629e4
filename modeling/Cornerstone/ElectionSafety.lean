import Cornerstone.Cluster
import Cornerstone.Consensus
import Cornerstone.Elections
import Cornerstone.PeerSet

/-! # At most one leader for each term

A server takes office with the votes of more than half of the members, each given to it
in its term, and a member gives one vote a term.  What makes the count right is that a
candidate asks each peer once a term and hears of each request once at most; what makes
it wrong is a vote of an earlier term that `handle_peer_resp` lets through.
-/

namespace Cornerstone
open Handlers

/-! ## What is claimed -/

/-- Member `q` has given `c` its vote of term `t`. -/
def Voted (history : List (Int × Effect)) (q : Int) (t : Nat) (c : Int) : Prop :=
  ∃ e, (q, e) ∈ history ∧ e.vote = some ⟨t, c⟩

/-- The `n` votes of a server are those of `n` members, given in the term. -/
def Earned (ids : List Int) (history : List (Int × Effect)) (c : Int) (t n : Nat) : Prop :=
  ∃ V : List Int, V.Nodup ∧ V ⊆ ids ∧ V.length = n ∧ ∀ q ∈ V, Voted history q t c

/-- In no term two servers take office, and whoever does has earned its votes. -/
structure ElectionSafe (ids : List Int) (history : List (Int × Effect)) : Prop where
  one_leader : ∀ t i j m n, (i, .becomeLeader t m) ∈ history → (j, .becomeLeader t n) ∈ history → i = j
  earned : ∀ before after i t n, history = before ++ (i, .becomeLeader t n) :: after →
    Earned ids before i t n

/-- The acts of an election: timers, and requests and their responses on their way. -/
def Act.electoral : Act → Prop
  | .timeout _ | .heartbeat _ _ | .deliver _ | .answer _ _ | .fail _ => True
  | _ => False

/-- The condition under which an event leaves an election in order: no timeout at the
largest term or of a server whose id is the mark for no vote, and no granted vote of an
earlier term while votes are counted. -/
def ElectsSafely (s : Server) : Event → Prop
  | .electionTimeout => s.role ≠ .leader → s.id ≠ -1 ∧ s.state.term + 1 < ulongSize
  | .peerResp _ _ resp => resp.type = .requestVoteResponse → resp.accepted = true →
      s.electionCompleted = false → s.state.term ≤ resp.term
  | _ => True

instance (act : Act) : Decidable act.electoral := by
  cases act <;> unfold Act.electoral <;> infer_instance

instance (s : Server) (ev : Event) : Decidable (ElectsSafely s ev) := by
  cases ev <;> unfold ElectsSafely <;> infer_instance

/-! ## Votes given -/

theorem Voted.mono {history history' : List (Int × Effect)} {q c : Int} {t : Nat}
    (h : Voted history q t c) (hsub : history ⊆ history') : Voted history' q t c := by
  obtain ⟨e, he, hv⟩ := h
  exact ⟨e, hsub he, hv⟩

namespace Cluster
variable {c : Cluster} {env : Env} {act : Act} {i : Int} {ev : Event}

/-- A server of the cluster with the votes it has given. -/
def node (c : Cluster) (i : Int) : Node where
  server := c.servers i
  saved := some (c.servers i).state
  votes := c.history.filterMap fun p => if p.1 = i then p.2.vote else none

theorem voted_iff {q d : Int} {t : Nat} : Voted c.history q t d ↔ ⟨t, d⟩ ∈ (c.node q).votes := by
  simp only [Voted, node, List.mem_filterMap]
  constructor
  · rintro ⟨e, he, hv⟩
    exact ⟨(q, e), he, by rw [if_pos rfl, hv]⟩
  · rintro ⟨⟨j, e⟩, he, hv⟩
    split at hv
    · rename_i hj
      obtain rfl : j = q := hj
      exact ⟨e, he, hv⟩
    · cases hv

/-- **A member gives one vote a term.** -/
theorem voted_unique {q d d' : Int} {t : Nat} (h : (c.node q).Inv) (hv : Voted c.history q t d)
    (hv' : Voted c.history q t d') : d = d' := by
  have heq := h.unique _ (voted_iff.mp hv) _ (voted_iff.mp hv') rfl
  exact congrArg Ballot.vote heq

/-- A safe event keeps a server and its votes in order. -/
theorem node_next (he : c.event? act = some (i, ev)) (hid : i ∈ c.ids) (hsafe : VotesSafely (c.servers i) ev)
    {j : Int} (h : (c.node j).Inv) :
    ((c.next env act).node j).Inv ∧
      (c.servers j).state.term ≤ ((c.next env act).servers j).state.term := by
  by_cases hj : j = i
  · subst hj
    obtain ⟨hinv, hle⟩ := h.next (show (c.node j).Safe (.event env ev) from hsafe)
    have hserver : (c.next env act).servers j = (c.servers j).next env ev := servers_next_self he hid
    have hvotes : ((c.next env act).node j).votes =
        (c.node j).votes ++ ((c.servers j).effects env ev).filterMap Effect.vote := by
      simp only [node, history_next he hid, List.filterMap_append, List.filterMap_map, Function.comp_def,
        if_true]
    refine ⟨⟨rfl, fun v hv => ?_, fun v hv w hw => ?_⟩, ?_⟩
    · rw [hvotes] at hv
      have hsettled := hinv.votes v hv
      simp only [node, hserver]
      exact hsettled
    · rw [hvotes] at hv hw
      exact hinv.unique v hv w hw
    · rw [hserver]
      exact hle
  · have hsame : (c.next env act).node j = c.node j := by
      have hnone : ((c.servers i).effects env ev).filterMap
          (fun e => if (i, e).1 = j then (i, e).2.vote else none) = [] := by
        simp [Ne.symm hj]
      simp only [node, history_next he hid, servers_next_of_ne he hid hj, List.filterMap_append,
        List.filterMap_map, Function.comp_def, hnone, List.append_nil]
    rw [hsame, servers_next_of_ne he hid hj]
    exact ⟨h, le_refl _⟩

end Cluster

/-! ## Requests for votes -/

/-- Who asks whom for which vote. -/
def ReqMsg.ballotKey (req : ReqMsg) : Option (Int × Nat × Int) :=
  if req.type = .requestVoteRequest then some (req.src, req.term, req.dst) else none

/-- The votes that effects ask for. -/
def Effect.asksVote (e : Effect) : Option (Int × Nat × Int) := (Cluster.sent? e).bind ReqMsg.ballotKey

theorem asks_of_offPoll {e : Effect} (h : e.offPoll = true) : e.asksVote = none := by
  cases e with
  | send req m =>
    have htype : req.type = .appendEntriesRequest := of_decide_eq_true h
    simp [Effect.asksVote, Cluster.sent?, ReqMsg.ballotKey, htype]
  | _ => rfl

/-- Whoever keeps out of elections asks for no vote. -/
theorem Bystands.asks {s t : Server} {o : List Effect} (h : Bystands s o t) (h1 : s.logStore.startIdx = 1) :
    o.filterMap Effect.asksVote = [] :=
  List.filterMap_eq_nil_iff.mpr fun e he => asks_of_offPoll (h.out h1 e he)

/-- The requests for votes a candidate makes. -/
theorem asks_voteReq {s : Server} (pids : List Int) (m : SrvState) :
    (pids.map fun pid => Effect.send (s.voteReq pid) m).filterMap Effect.asksVote =
      pids.map fun pid => (s.id, s.state.term, pid) := by
  rw [List.filterMap_map, ← List.filterMap_eq_map]
  rfl

/-- A server that asks for votes stands for election. -/
theorem Polls.asks {s t : Server} {ev : Event} {o : List Effect} (h : Polls s ev o t)
    (h1 : s.logStore.startIdx = 1) :
    o.filterMap Effect.asksVote = [] ∨ ev = .electionTimeout ∧ s.role ≠ .leader ∧ t.poll = s.campaign.poll ∧
      o.filterMap Effect.asksVote = s.peerIds.map fun pid => (s.id, s.campaign.state.term, pid) := by
  cases h with
  | bystands h => exact .inl (h.asks h1)
  | grants he hq hterm hdst hg h =>
    refine .inl ?_
    rw [List.filterMap_append, h.asks h1]
    rfl
  | stands he hr ht =>
    refine .inr ⟨he, hr, ht, ?_⟩
    rw [List.filterMap_append, asks_voteReq]
    rfl
  | alone he hr hp h =>
    refine .inl ?_
    rw [List.filterMap_append, List.filterMap_cons_none rfl, h.asks h1]
    rfl
  | counts he ht hle hopen h => exact .inl rfl
  | @wins _ _ _ u _ _ he ht hle hopen hu hmost h =>
    refine .inl ?_
    have h1' : u.logStore.startIdx = 1 := (congrArg Poll.startIdx hu).trans h1
    rw [List.filterMap_cons_none rfl, h.asks h1']

/-- What an event that is not kept out of elections shows of it. -/
inductive PollEffect (s t : Server) (ev : Event) : Effect → Prop
  | off {e : Effect} (h : e.offPoll = true) : PollEffect s t ev e
  | grant {req : ReqMsg} {resp : RespMsg} (m : SrvState) (he : ev = .request req)
      (hq : req.type = .requestVoteRequest) (hterm : resp.term = req.term) (hdst : resp.dst = req.src) :
      PollEffect s t ev (.reply resp m)
  | ask {pid : Int} (m : SrvState) (he : ev = .electionTimeout) (hr : s.role ≠ .leader)
      (ht : t.poll = s.campaign.poll) (hpid : pid ∈ s.peerIds) :
      PollEffect s t ev (.send (s.campaign.voteReq pid) m)
  | lead (term n : Nat) : PollEffect s t ev (.becomeLeader term n)

theorem Polls.effect {s t : Server} {ev : Event} {o : List Effect} (h : Polls s ev o t)
    (h1 : s.logStore.startIdx = 1) : ∀ e ∈ o, PollEffect s t ev e := by
  have hcamp : ∀ e ∈ s.campaignEffects, PollEffect s t ev e := by
    intro e he
    refine .off ?_
    rcases List.mem_cons.mp he with rfl | he
    · rfl
    · rw [List.mem_singleton.mp he]
      rfl
  intro e hmem
  cases h with
  | bystands h => exact .off (h.out h1 e hmem)
  | grants he hq hterm hdst hg h =>
    rcases List.mem_append.mp hmem with hmem | hmem
    · exact .off (h.out h1 e hmem)
    · rw [List.mem_singleton.mp hmem]
      exact .grant _ he hq hterm hdst
  | stands he hr ht =>
    rcases List.mem_append.mp hmem with hmem | hmem
    · exact hcamp e hmem
    · obtain ⟨pid, hpid, rfl⟩ := List.mem_map.mp hmem
      exact .ask _ he hr ht hpid
  | alone he hr hp h =>
    rcases List.mem_append.mp hmem with hmem | hmem
    · exact hcamp e hmem
    · rcases List.mem_cons.mp hmem with rfl | hmem
      · exact .lead _ _
      · exact .off (h.out h1 e hmem)
  | counts he ht hle hopen h => cases hmem
  | @wins _ _ _ u _ _ he ht hle hopen hu hmost h =>
    rcases List.mem_cons.mp hmem with rfl | hmem
    · exact .lead _ _
    · exact .off (h.out ((congrArg Poll.startIdx hu).trans h1) e hmem)

/-- The requests an event sends. -/
theorem PollEffect.of_send {s t : Server} {ev : Event} {req : ReqMsg} {m : SrvState}
    (h : PollEffect s t ev (.send req m)) :
    req.type = .appendEntriesRequest ∨ ev = .electionTimeout ∧ s.role ≠ .leader ∧
      t.poll = s.campaign.poll ∧ ∃ pid ∈ s.peerIds, req = s.campaign.voteReq pid := by
  cases h with
  | off h => exact .inl (of_decide_eq_true h)
  | ask m he hr ht hpid => exact .inr ⟨he, hr, ht, _, hpid, rfl⟩

/-- A granted vote answers a request for it. -/
theorem PollEffect.of_reply {s t : Server} {ev : Event} {resp : RespMsg} {m : SrvState}
    (h : PollEffect s t ev (.reply resp m)) (hg : resp.grants = true) :
    ∃ req, ev = .request req ∧ req.type = .requestVoteRequest ∧ resp.term = req.term ∧ resp.dst = req.src := by
  cases h with
  | off h => simp [Effect.offPoll, hg] at h
  | grant m he hq hterm hdst => exact ⟨_, he, hq, hterm, hdst⟩

/-- A server takes office alone when it stands for election, or with a response. -/
theorem Polls.lead {s t : Server} {ev : Event} {o pre post : List Effect} {term n : Nat} (h : Polls s ev o t)
    (h1 : s.logStore.startIdx = 1) (ho : o = pre ++ .becomeLeader term n :: post) :
    (ev = .electionTimeout ∧ s.role ≠ .leader ∧ s.peerIds = [] ∧ pre = s.campaignEffects ∧
      term = s.campaign.state.term ∧ n = 1) ∨
    ∃ via reqType resp, ev = .peerResp via reqType resp ∧ resp.type = .requestVoteResponse ∧
      resp.term ≤ s.state.term ∧ s.electionCompleted = false ∧ pre = [] ∧ term = s.state.term ∧
      n = (s.poll.counting resp.accepted).votes ∧ (s.peerIds.length + 1) / 2 < n := by
  have hmem : .becomeLeader term n ∈ o := by
    rw [ho]
    exact List.mem_append_right _ List.mem_cons_self
  have hnot : ∀ {o : List Effect}, (∀ e ∈ o, e.offPoll = true) → .becomeLeader term n ∉ o := by
    intro o hoff hmem
    cases hoff _ hmem
  have hcamp : .becomeLeader term n ∉ s.campaignEffects := by simp [Server.campaignEffects]
  cases h with
  | bystands h => exact absurd hmem (hnot (h.out h1))
  | grants he hq hterm hdst hg h =>
    rcases List.mem_append.mp hmem with hmem | hmem
    · exact absurd hmem (hnot (h.out h1))
    · cases List.mem_singleton.mp hmem
  | stands he hr ht =>
    rcases List.mem_append.mp hmem with hmem | hmem
    · exact absurd hmem hcamp
    · obtain ⟨pid, -, heq⟩ := List.mem_map.mp hmem
      cases heq
  | alone he hr hp h =>
    obtain ⟨rfl, hlead, -⟩ := (List.append_cons_inj_of_notMem hcamp (hnot (h.out h1))).mp ho
    cases hlead
    exact .inl ⟨he, hr, hp, rfl, rfl, rfl⟩
  | counts he ht hle hopen h => cases hmem
  | wins he ht hle hopen hu hmost h =>
    have hoff := hnot (h.out ((congrArg Poll.startIdx hu).trans h1))
    obtain ⟨rfl, hlead, -⟩ := (List.append_cons_inj_of_notMem List.not_mem_nil hoff).mp ho
    cases hlead
    exact .inr ⟨_, _, _, he, ht, hle, hopen, rfl, congrArg Poll.term hu, congrArg Poll.votes hu, hmost⟩

/-- Two calls for one vote are one call. -/
theorem ballotKey_unique {calls : List Call} (h : ((calls.map Call.req).filterMap ReqMsg.ballotKey).Nodup)
    {k k' : Nat} {call call' : Call} {key : Int × Nat × Int} (hk : calls[k]? = some call)
    (hk' : calls[k']? = some call') (hkey : call.req.ballotKey = some key)
    (hkey' : call'.req.ballotKey = some key) : k = k' := by
  rw [List.filterMap_map, List.Nodup, List.pairwise_filterMap, List.pairwise_iff_getElem] at h
  obtain ⟨hlt, hget⟩ := List.getElem?_eq_some_iff.mp hk
  obtain ⟨hlt', hget'⟩ := List.getElem?_eq_some_iff.mp hk'
  rcases Nat.lt_trichotomy k k' with hkk | hkk | hkk
  · exact absurd rfl (h k k' hlt hlt' hkk key (by rw [hget]; exact hkey) key (by rw [hget']; exact hkey'))
  · exact hkk
  · exact absurd rfl (h k' k hlt' hlt hkk key (by rw [hget']; exact hkey') key (by rw [hget]; exact hkey))

/-! ## The members -/

/-- A server as one of the members `ids`: it was never compacted, and its peers are the
others. -/
structure Member (ids : List Int) (i : Int) (s : Server) : Prop where
  id : s.id = i
  startIdx : s.logStore.startIdx = 1
  nodup : s.peerIds.Nodup
  mem : ∀ q, q ∈ s.peerIds ↔ q ∈ ids ∧ q ≠ i

/-- Two polls at the same server with the same peers. -/
structure Poll.Same (p p' : Poll) : Prop where
  id : p'.id = p.id
  peerIds : p'.peerIds = p.peerIds
  startIdx : p'.startIdx = p.startIdx

theorem Poll.Ages.same {p p' : Poll} (h : p.Ages p') : p.Same p' := by
  rcases h with rfl | ⟨-, hp⟩
  · exact ⟨rfl, rfl, rfl⟩
  · rw [hp]
    exact ⟨rfl, rfl, rfl⟩

theorem Member.of_same {ids : List Int} {i : Int} {s t : Server} (h : Member ids i s)
    (hp : s.poll.Same t.poll) : Member ids i t := by
  have hids : t.peerIds = s.peerIds := hp.peerIds
  refine ⟨hp.id.trans h.id, hp.startIdx.trans h.startIdx, ?_, ?_⟩
  · rw [hids]
    exact h.nodup
  · rw [hids]
    exact h.mem

/-- A server and its peers are all members. -/
theorem Member.length {ids : List Int} {i : Int} {s : Server} (h : Member ids i s) (hi : i ∈ ids) :
    ids.dedup.length = s.peerIds.length + 1 := by
  have hnodup : (i :: s.peerIds).Nodup :=
    List.nodup_cons.mpr ⟨fun hmem => ((h.mem i).mp hmem).2 rfl, h.nodup⟩
  have hperm : ids.dedup.Perm (i :: s.peerIds) := by
    refine (List.perm_ext_iff_of_nodup (List.nodup_dedup ids) hnodup).mpr fun q => ?_
    rw [List.mem_dedup, List.mem_cons, h.mem]
    by_cases hq : q = i
    · simp [hq, hi]
    · simp [hq]
  rw [hperm.length_eq, List.length_cons]

theorem Polls.same {s t : Server} {ev : Event} {o : List Effect} (h : Polls s ev o t) :
    s.poll.Same t.poll := by
  have hcount : ∀ {u : Server} {b : Bool}, u.poll = s.poll.counting b → s.poll.Same u.poll := by
    intro u b hu
    rw [hu]
    exact ⟨rfl, rfl, rfl⟩
  cases h with
  | bystands h => exact h.ages.same
  | grants he hq hterm hdst hg h => exact h.ages.same
  | stands he hr ht =>
    rw [ht]
    exact ⟨rfl, rfl, rfl⟩
  | alone he hr hp h =>
    have hrest := h.ages.same
    exact ⟨hrest.id, hrest.peerIds, hrest.startIdx⟩
  | counts he ht hle hopen h => exact hcount h
  | wins he ht hle hopen hu hmost h =>
    have hsame := hcount hu
    have hrest := h.ages.same
    exact ⟨hrest.id.trans hsame.id, hrest.peerIds.trans hsame.peerIds,
      hrest.startIdx.trans hsame.startIdx⟩

/-! ## Votes counted -/

/-- The call with which `c` has asked `q` in term `t` has come back. -/
def Answered (calls : List Call) (c : Int) (t : Nat) (q : Int) : Prop :=
  ∃ (k : Nat) (call : Call), calls[k]? = some call ∧ call.settled = true ∧
    call.req.ballotKey = some (c, t, q)

/-- The votes a server has counted are those of as many members, who have given them in
its term: its own, and those that have come back. -/
def Tallied (ids : List Int) (history : List (Int × Effect)) (calls : List Call) (i : Int) (p : Poll) :
    Prop :=
  ∃ V : List Int, V.Nodup ∧ V ⊆ ids ∧ V.length = p.votes ∧
    ∀ q ∈ V, Voted history q p.term i ∧ (q = i ∨ Answered calls i p.term q)

theorem Answered.next {c : Cluster} {d q : Int} {t : Nat} (h : Answered c.calls d t q) (env : Env)
    (act : Act) : Answered (c.next env act).calls d t q := by
  obtain ⟨k, call, hcall, hs, hkey⟩ := h
  obtain ⟨call', hcall', hreq, hs'⟩ := Cluster.settled_next env act hcall hs
  exact ⟨k, call', hcall', hs', hreq ▸ hkey⟩

namespace Tallied
variable {ids : List Int} {history history' : List (Int × Effect)} {calls : List Call} {i : Int} {p p' : Poll}

theorem earned (h : Tallied ids history calls i p) : Earned ids history i p.term p.votes := by
  obtain ⟨V, hnodup, hsub, hlen, hV⟩ := h
  exact ⟨V, hnodup, hsub, hlen, fun q hq => (hV q hq).1⟩

theorem mono {calls' : List Call} (h : Tallied ids history calls i p) (hsub : history ⊆ history')
    (hcalls : ∀ t q, Answered calls i t q → Answered calls' i t q) : Tallied ids history' calls' i p := by
  obtain ⟨V, hnodup, hV, hlen, hvotes⟩ := h
  exact ⟨V, hnodup, hV, hlen, fun q hq => ⟨(hvotes q hq).1.mono hsub, (hvotes q hq).2.imp_right (hcalls _ q)⟩⟩

theorem zero (h : p.votes = 0) : Tallied ids history calls i p :=
  ⟨[], List.nodup_nil, List.nil_subset _, h.symm, by simp⟩

theorem ages (h : Tallied ids history calls i p) (hp : p.Ages p') : Tallied ids history calls i p' := by
  rcases hp with rfl | ⟨-, hp⟩
  · exact h
  · exact .zero (by rw [hp])

/-- The vote of a candidate for itself. -/
theorem own (hi : i ∈ ids) (hone : p.votes = 1) (hv : Voted history i p.term i) :
    Tallied ids history calls i p :=
  ⟨[i], List.nodup_singleton i, by simpa using hi, hone.symm, by simpa using hv⟩

/-- One more vote, of a member that has not been heard of before. -/
theorem add (h : Tallied ids history calls i p) {q : Int} (hq : q ∈ ids) (hv : Voted history q p.term i)
    (hne : q ≠ i) (hnew : ¬ Answered calls i p.term q) {calls' : List Call}
    (hcalls : ∀ t q, Answered calls i t q → Answered calls' i t q) (hans : Answered calls' i p.term q) :
    Tallied ids history calls' i (p.counting true) := by
  obtain ⟨V, hnodup, hsub, hlen, hV⟩ := h
  refine ⟨q :: V, List.nodup_cons.mpr ⟨fun hmem => ?_, hnodup⟩, List.cons_subset.mpr ⟨hq, hsub⟩, ?_, ?_⟩
  · rcases (hV q hmem).2 with heq | hold
    · exact hne heq
    · exact hnew hold
  · rw [List.length_cons, hlen]
    rfl
  · intro r hr
    rcases List.mem_cons.mp hr with rfl | hr
    · exact ⟨hv, .inr hans⟩
    · exact ⟨(hV r hr).1, (hV r hr).2.imp_right (hcalls _ r)⟩

end Tallied

/-! ## The invariant -/

/-- What holds of a request for a vote. -/
structure VoteAsked (c : Cluster) (req : ReqMsg) : Prop where
  type : req.type = .requestVoteRequest
  src_ne : req.src ≠ -1
  dst_mem : req.dst ∈ c.ids
  dst_ne : req.dst ≠ req.src
  term_le : req.term ≤ (c.servers req.src).state.term

/-- A request on its way is one of a leader, or for a vote. -/
def Requested (c : Cluster) (req : ReqMsg) : Prop := req.type = .appendEntriesRequest ∨ VoteAsked c req

/-- A vote that comes back was given. -/
def VoteGiven (history : List (Int × Effect)) (req : ReqMsg) (resp : RespMsg) : Prop :=
  resp.grants = true → req.type = .requestVoteRequest ∧ resp.term = req.term ∧
    Voted history req.dst req.term req.src

/-- What holds of elections between acts. -/
structure Polled (c : Cluster) : Prop where
  holds : c.Holds (Member c.ids) (Requested c) (VoteGiven c.history)
  nodes : ∀ i ∈ c.ids, (c.node i).Inv
  tally : ∀ i ∈ c.ids, Tallied c.ids c.history c.calls i (c.servers i).poll
  once : ((c.calls.map Call.req).filterMap ReqMsg.ballotKey).Nodup
  earned : ∀ before after i t n, c.history = before ++ (i, .becomeLeader t n) :: after →
    Earned c.ids before i t n ∧ c.ids.dedup.length / 2 < n

namespace Polled
variable {c : Cluster} {env : Env} {act : Act} {i : Int} {ev : Event}

/-- What one event of a server makes of the cluster, in terms of its poll. -/
structure Turn (c : Cluster) (env : Env) (act : Act) (i : Int) (ev : Event) : Prop where
  event : c.event? act = some (i, ev)
  mem : i ∈ c.ids
  polls : Polls (c.servers i) ev ((c.servers i).effects env ev) ((c.servers i).next env ev)
  votes : VotesSafely (c.servers i) ev
  safe : ElectsSafely (c.servers i) ev

theorem history_subset (c : Cluster) (env : Env) (act : Act) : c.history ⊆ (c.next env act).history :=
  (c.history_prefix_next env act).subset

theorem term_le (h : Polled c) (ht : Turn c env act i ev) (j : Int) :
    (c.servers j).state.term ≤ ((c.next env act).servers j).state.term := by
  by_cases hj : j = i
  · exact (Cluster.node_next ht.event ht.mem ht.votes (h.nodes j (hj ▸ ht.mem))).2
  · rw [Cluster.servers_next_of_ne ht.event ht.mem hj]

/-- A new term of a candidate is one more than the old one. -/
theorem campaign_term (ht : Turn c env act i ev) (he : ev = .electionTimeout)
    (hr : (c.servers i).role ≠ .leader) :
    (c.servers i).campaign.state.term = (c.servers i).state.term + 1 := by
  have hsafe := ht.safe
  rw [he] at hsafe
  exact Nat.mod_eq_of_lt (hsafe hr).2

theorem holds_next (h : Polled c) (ht : Turn c env act i ev) :
    (c.next env act).Holds (Member c.ids) (Requested (c.next env act)) (VoteGiven (c.next env act).history) := by
  have hmember := h.holds.servers i ht.mem
  have heffect := ht.polls.effect hmember.startIdx
  refine h.holds.next env ht.event ht.mem (fun j s _ hs => hs) (fun req hreq => ?_)
    (fun req resp hresp hg => ?_) (hmember.of_same ht.polls.same) (fun req m hsend => ?_)
    fun req resp m he hreq hreply hg => ?_
  · rcases hreq with happ | hvote
    · exact .inl happ
    · exact .inr ⟨hvote.type, hvote.src_ne, by simpa using hvote.dst_mem, hvote.dst_ne,
        hvote.term_le.trans (h.term_le ht _)⟩
  · obtain ⟨htype, hterm, hv⟩ := hresp hg
    exact ⟨htype, hterm, hv.mono (history_subset c env act)⟩
  · rcases (heffect _ hsend).of_send with happ | ⟨he, hr, hpoll, pid, hpid, rfl⟩
    · exact .inl happ
    · obtain ⟨hmem, hne⟩ := (hmember.mem pid).mp hpid
      have hsafe := ht.safe
      rw [he] at hsafe
      have hid : (c.servers i).campaign.id = i := hmember.id
      refine .inr ⟨rfl, (hsafe hr).1, ?_, ?_, ?_⟩
      · rw [Cluster.ids_next]
        exact hmem
      · rw [Server.voteReq, hid]
        exact hne
      · rw [Server.voteReq, hid, Cluster.servers_next_self ht.event ht.mem]
        exact (congrArg Poll.term hpoll).ge
  · obtain ⟨req', he', htype, hterm, hdst⟩ := (heffect _ hreply).of_reply hg
    obtain rfl : req = req' := by
      rw [he] at he'
      cases he'
      rfl
    have hto : req.dst = i := by
      rcases Cluster.request_dst (he ▸ ht.event) with hcli | hto
      · rw [htype] at hcli
        cases hcli
      · exact hto
    refine ⟨htype, hterm, .reply resp m, ?_, ?_⟩
    · rw [hto, Cluster.history_next ht.event ht.mem]
      exact List.mem_append_right _ (List.mem_map_of_mem hreply)
    · rw [Effect.vote, if_pos hg, hterm, hdst]

theorem once_next (h : Polled c) (ht : Turn c env act i ev) :
    (((c.next env act).calls.map Call.req).filterMap ReqMsg.ballotKey).Nodup := by
  have hmember := h.holds.servers i ht.mem
  have hasks : (((c.servers i).effects env ev).filterMap Cluster.sent?).filterMap ReqMsg.ballotKey =
      ((c.servers i).effects env ev).filterMap Effect.asksVote := List.filterMap_filterMap
  rw [Cluster.calls_next_req ht.event ht.mem, List.filterMap_append, hasks]
  rcases ht.polls.asks hmember.startIdx with hnil | ⟨he, hr, -, hkeys⟩
  · rw [hnil, List.append_nil]
    exact h.once
  · rw [hkeys]
    refine List.nodup_append.mpr ⟨h.once, ?_, ?_⟩
    · refine hmember.nodup.map fun p q hpq => ?_
      simpa using hpq
    · rintro key hold key' hnew rfl
      -- the new term has not been stood in before
      obtain ⟨pid, -, rfl⟩ := List.mem_map.mp hnew
      obtain ⟨req, hreq, hkey⟩ := List.mem_filterMap.mp hold
      obtain ⟨call, hcall, rfl⟩ := List.mem_map.mp hreq
      unfold ReqMsg.ballotKey at hkey
      split at hkey
      · rename_i htype
        simp only [Option.some.injEq, Prod.mk.injEq] at hkey
        obtain ⟨hsrc, hterm, -⟩ := hkey
        rcases h.holds.calls call hcall with happ | hvote
        · rw [htype] at happ
          cases happ
        · have hle := hvote.term_le
          rw [hsrc, hmember.id, hterm, campaign_term ht he hr] at hle
          omega
      · cases hkey

/-- A response that is counted adds a vote that was given, and not counted before. -/
theorem tallied_counting (h : Polled c) (ht : Turn c env act i ev) {via : Option Server.PeerRef}
    {reqType : MsgType} {resp : RespMsg} (he : ev = .peerResp via reqType resp)
    (htype : resp.type = .requestVoteResponse) (hle : resp.term ≤ (c.servers i).state.term)
    (hopen : (c.servers i).electionCompleted = false) :
    Tallied c.ids c.history (c.next env act).calls i ((c.servers i).poll.counting resp.accepted) := by
  have hold := h.tally i ht.mem
  have hcalls : ∀ t q, Answered c.calls i t q → Answered (c.next env act).calls i t q :=
    fun t q hans => hans.next env act
  cases hacc : resp.accepted with
  | false => exact hold.mono (List.Subset.refl _) hcalls
  | true =>
    obtain ⟨k, j, rfl⟩ := Cluster.response_act (he ▸ ht.event)
    obtain ⟨call, resp', hcall, hunsettled, hresp, hsrc, heq⟩ := Cluster.event?_answer ht.event
    rw [he] at heq
    cases heq
    have hsafe := ht.safe
    rw [he] at hsafe
    have hmem := List.mem_of_getElem? hcall
    obtain ⟨hqtype, hterm, hvoted⟩ := h.holds.answers call hmem resp hresp
      (by simp [RespMsg.grants, htype, hacc])
    have hnow : call.req.term = (c.servers i).poll.term :=
      hterm.symm.trans (le_antisymm hle (hsafe htype hacc hopen))
    have hkey : call.req.ballotKey = some (i, (c.servers i).poll.term, call.req.dst) := by
      rw [ReqMsg.ballotKey, if_pos hqtype, hsrc, hnow]
    rw [hsrc, hnow] at hvoted
    rcases h.holds.calls call hmem with happ | hvote
    · rw [hqtype] at happ
      cases happ
    refine hold.add hvote.dst_mem hvoted (hsrc ▸ hvote.dst_ne) ?_ hcalls ?_
    · rintro ⟨k', call', hcall', hs', hkey'⟩
      obtain rfl := ballotKey_unique h.once hcall hcall' hkey hkey'
      rw [hcall] at hcall'
      cases hcall'
      rw [hunsettled] at hs'
      cases hs'
    · exact ⟨k, _, Cluster.settled_answer ht.event ht.mem hcall, rfl, hkey⟩

/-- The vote of a candidate for itself is saved before anything else happens. -/
theorem voted_campaign (h : Polled c) (ht : Turn c env act i ev) (he : ev = .electionTimeout)
    (hr : (c.servers i).role ≠ .leader) {history : List (Int × Effect)}
    (hsub : ((c.servers i).campaignEffects.map fun e => (i, e)) ⊆ history) :
    Voted history i (c.servers i).campaign.state.term i := by
  have hsafe := ht.safe
  rw [he] at hsafe
  have hid := (h.holds.servers i ht.mem).id
  refine ⟨.saveState (c.servers i).campaign.state, hsub ?_, ?_⟩
  · simp [Server.campaignEffects]
  · have hvote : (c.servers i).campaign.state.votedFor = (c.servers i).id := rfl
    rw [Effect.vote, hvote, if_neg (hsafe hr).1, SrvState.ballot, hvote, hid]

theorem tally_next (h : Polled c) (ht : Turn c env act i ev) {j : Int} (hj : j ∈ c.ids) :
    Tallied c.ids (c.next env act).history (c.next env act).calls j ((c.next env act).servers j).poll := by
  have hsub := history_subset c env act
  have hold : ∀ d ∈ c.ids, Tallied c.ids (c.next env act).history (c.next env act).calls d (c.servers d).poll :=
    fun d hd => (h.tally d hd).mono hsub fun t q hans => hans.next env act
  by_cases hji : j = i
  · subst hji
    rw [Cluster.servers_next_self ht.event ht.mem]
    have hhist : (((c.servers j).effects env ev).map fun e => (j, e)) ⊆ (c.next env act).history := by
      rw [Cluster.history_next ht.event ht.mem]
      exact List.subset_append_right _ _
    have hpolls := ht.polls
    generalize (c.servers j).next env ev = t at hpolls ⊢
    generalize (c.servers j).effects env ev = o at hpolls hhist
    cases hpolls with
    | bystands hb => exact (hold j hj).ages hb.ages
    | grants he hq hterm hdst hg hb => exact (hold j hj).ages hb.ages
    | stands he hr hpoll =>
      rw [hpoll]
      rw [List.map_append] at hhist
      have hvoted := h.voted_campaign ht he hr fun _ hx => hhist (List.mem_append_left _ hx)
      exact .own hj rfl hvoted
    | alone he hr hp hb =>
      rw [List.map_append] at hhist
      have hvoted := h.voted_campaign ht he hr fun _ hx => hhist (List.mem_append_left _ hx)
      exact Tallied.ages (.own hj rfl hvoted) hb.ages
    | counts he htype hle hopen hb =>
      rw [hb]
      exact (h.tallied_counting ht he htype hle hopen).mono hsub fun _ _ => id
    | wins he htype hle hopen hu hmost hb =>
      refine Tallied.ages ?_ hb.ages
      rw [hu]
      exact (h.tallied_counting ht he htype hle hopen).mono hsub fun _ _ => id
  · rw [Cluster.servers_next_of_ne ht.event ht.mem hji]
    exact hold j hj

/-- Whoever takes office now has earned its votes by then, and they are a majority. -/
theorem earned_now (h : Polled c) (ht : Turn c env act i ev) {pre post : List Effect} {t n : Nat}
    (ho : (c.servers i).effects env ev = pre ++ .becomeLeader t n :: post) :
    Earned c.ids (c.history ++ pre.map fun e => (i, e)) i t n ∧ c.ids.dedup.length / 2 < n := by
  have hmember := h.holds.servers i ht.mem
  rw [hmember.length ht.mem]
  rcases ht.polls.lead hmember.startIdx ho with ⟨he, hr, hnone, rfl, rfl, rfl⟩ |
    ⟨via, reqType, resp, he, htype, hle, hopen, rfl, rfl, rfl, hmost⟩
  · have hvoted := h.voted_campaign ht he hr (List.subset_append_right c.history _)
    refine ⟨⟨[i], List.nodup_singleton i, by simpa using ht.mem, rfl, by simpa using hvoted⟩, ?_⟩
    simp [hnone]
  · rw [List.map_nil, List.append_nil]
    exact ⟨(h.tallied_counting ht he htype hle hopen).earned, hmost⟩

theorem earned_next (h : Polled c) (ht : Turn c env act i ev) {before after : List (Int × Effect)} {j : Int}
    {t n : Nat} (heq : (c.next env act).history = before ++ (j, .becomeLeader t n) :: after) :
    Earned c.ids before j t n ∧ c.ids.dedup.length / 2 < n := by
  rw [Cluster.history_next ht.event ht.mem] at heq
  have hnow : ∀ more, before = c.history ++ more →
      ((c.servers i).effects env ev).map (fun e => (i, e)) = more ++ (j, .becomeLeader t n) :: after →
      Earned c.ids before j t n ∧ c.ids.dedup.length / 2 < n := by
    rintro more rfl hmap
    obtain ⟨pre, rest, ho, rfl, hrest⟩ := List.map_eq_append_iff.mp hmap
    obtain ⟨e, post, rfl, he, -⟩ := List.map_eq_cons_iff.mp hrest
    cases he
    exact h.earned_now ht ho
  rcases List.append_eq_append_iff.mp heq with ⟨more, hbefore, hmap⟩ | ⟨more, hhist, hafter⟩
  · exact hnow more hbefore hmap
  · cases more with
    | nil => exact hnow [] (by simpa using hhist.symm) (by simpa using hafter.symm)
    | cons x more =>
      cases hafter
      exact h.earned before more j t n hhist

/-- **An act keeps elections in order.** -/
theorem next (h : Polled c) (ht : Turn c env act i ev) : Polled (c.next env act) := by
  refine ⟨?_, fun j hj => ?_, fun j hj => ?_, h.once_next ht, fun before after j t n heq => ?_⟩
  · rw [Cluster.ids_next]
    exact h.holds_next ht
  · rw [Cluster.ids_next] at hj
    exact (Cluster.node_next ht.event ht.mem ht.votes (h.nodes j hj)).1
  · rw [Cluster.ids_next] at hj ⊢
    exact h.tally_next ht hj
  · rw [Cluster.ids_next]
    exact h.earned_next ht heq

/-- Elections in order are safe. -/
theorem safe (h : Polled c) : ElectionSafe c.ids c.history := by
  refine ⟨fun t i j m n hi hj => ?_, fun before after i t n heq => (h.earned before after i t n heq).1⟩
  have hquorum : ∀ {d : Int} {k : Nat}, (d, .becomeLeader t k) ∈ c.history →
      Consensus.Quorum c.ids.dedup fun q => Voted c.history q t d := by
    intro d k hd
    obtain ⟨before, after, heq⟩ := List.append_of_mem hd
    obtain ⟨⟨V, hnodup, hsub, hlen, hV⟩, hmost⟩ := h.earned before after d t k heq
    have hgrow : before ⊆ c.history := by
      rw [heq]
      exact List.subset_append_left _ _
    exact ⟨V, hnodup, fun q hq => List.mem_dedup.mpr (hsub hq), hlen ▸ hmost,
      fun q hq => (hV q hq).mono hgrow⟩
  obtain ⟨q, hq, hvi, hvj⟩ := (hquorum hi).inter (hquorum hj)
  exact Cluster.voted_unique (h.nodes q (List.mem_dedup.mp hq)) hvi hvj

/-- Whoever asks for a vote is somebody. -/
theorem votesSafely (h : Polled c) (he : c.event? act = some (i, ev)) (hsafe : ElectsSafely (c.servers i) ev) :
    VotesSafely (c.servers i) ev := by
  cases ev with
  | electionTimeout => exact hsafe
  | request req =>
    have hsrc : (req.type = .requestVoteRequest → req.src ≠ -1) ∧ req.type ≠ .joinClusterRequest := by
      cases h.holds.comes he with
      | client hcli => simp [hcli]
      | deliver hreq hd =>
        rcases hreq with happ | hvote
        · simp [happ]
        · exact ⟨fun _ => hvote.src_ne, by simp [hvote.type]⟩
    exact ⟨hsrc.1, fun hjoin => absurd hjoin hsrc.2⟩
  | _ => trivial

/-- A safe event of the core algorithm is a turn. -/
theorem turn (h : Polled c) (he : c.event? act = some (i, ev)) (hid : i ∈ c.ids) (hcore : ev.core)
    (hsafe : ElectsSafely (c.servers i) ev) : Turn c env act i ev :=
  ⟨he, hid, polls_next env (h.holds.servers i hid).startIdx hcore, h.votesSafely he hsafe, hsafe⟩

/-- The acts of an election are about the core algorithm. -/
theorem core_of_electoral (h : Polled c) (hact : act.electoral) (he : c.event? act = some (i, ev)) : ev.core := by
  cases h.holds.comes he with
  | client hcli => exact .inr (.inr hcli)
  | deliver hreq hd =>
    rcases hreq with happ | hvote
    · exact .inl happ
    · exact .inr (.inl hvote.type)
  | commit =>
    cases act with
    | commit j => exact hact.elim
    | deliver k =>
      obtain ⟨call, -, heq⟩ := Option.map_eq_some_iff.mp he
      cases heq
    | answer k j =>
      obtain ⟨call, resp, -, -, -, -, heq⟩ := Cluster.event?_answer he
      cases heq
    | fail k =>
      simp only [Cluster.event?] at he
      split at he
      · cases he
      · split at he <;> cases he
    | _ => cases he
  | _ => trivial

end Polled

/-! ## Every run -/

theorem mem_start_peerIds (id : Int) (params : RaftParams) (config : ClusterConfig) (q : Int) :
    q ∈ (Server.start id params none {} config).peerIds ↔ q ∈ config.servers.map SrvConfig.id ∧ q ≠ id := by
  have hfold : ∀ (srvs : List SrvConfig) (peers : List Peer),
      q ∈ (srvs.foldl (fun peers srv => Server.insertPeer peers (Peer.new params srv)) peers).map Peer.id ↔
        q ∈ peers.map Peer.id ∨ q ∈ srvs.map SrvConfig.id := by
    intro srvs
    induction srvs with
    | nil => simp
    | cons srv srvs ih =>
      intro peers
      have hid : (Peer.new params srv).id = srv.id := rfl
      rw [List.foldl_cons, ih, insertPeer_ids, hid, List.map_cons, List.mem_cons]
      split
      · rename_i hmem
        constructor
        · exact fun h => h.imp_right .inr
        · rintro (h | rfl | h)
          · exact .inl h
          · exact .inl hmem
          · exact .inr h
      · rw [List.mem_append, List.mem_singleton, or_assoc]
  rw [Server.peerIds, Server.start, hfold]
  simp only [List.map_nil, List.not_mem_nil, false_or, List.mem_map, List.mem_filter, decide_eq_true_eq]
  constructor
  · rintro ⟨srv, ⟨hsrv, hne⟩, rfl⟩
    exact ⟨⟨srv, hsrv, rfl⟩, hne⟩
  · rintro ⟨⟨srv, hsrv, rfl⟩, hne⟩
    exact ⟨srv, ⟨hsrv, hne⟩, rfl⟩

theorem polled_start (params : Int → RaftParams) (config : ClusterConfig) :
    Polled (Cluster.start params config) := by
  refine ⟨⟨fun i _ => ?_, by simp [Cluster.start], by simp [Cluster.start]⟩, fun i _ => ?_,
    fun i _ => .zero rfl, by simp [Cluster.start], ?_⟩
  · have hnodup := start_nodup i (params i) none {} config
    exact ⟨rfl, rfl, (List.nodup_cons.mp hnodup).2, mem_start_peerIds i (params i) config⟩
  · exact ⟨rfl, by simp [Cluster.node, Cluster.start], by simp [Cluster.node, Cluster.start]⟩
  · rintro before after i t n heq
    simp [Cluster.start] at heq

/-- An act of an election that leaves it in order. -/
def ElectsOrderly (c : Cluster) (act : Act) : Prop := act.electoral ∧ c.On ElectsSafely act

instance (c : Cluster) (act : Act) : Decidable (ElectsOrderly c act) :=
  inferInstanceAs (Decidable (_ ∧ _))

/-- **In every run of elections whose steps are in order, no two servers take office in one
term, and whoever does has the votes it counts from as many members, in its term.** -/
theorem election_safe_of_orderly (params : Int → RaftParams) (config : ClusterConfig)
    (acts : List (Env × Act)) (h : (Cluster.start params config).Along ElectsOrderly acts) :
    ElectionSafe ((Cluster.start params config).run acts).ids ((Cluster.start params config).run acts).history := by
  refine (h.invariant (I := Polled) (fun c env act hc hact => ?_) (polled_start params config)).safe
  by_cases hnobody : ∀ i ev, c.event? act = some (i, ev) → i ∉ c.ids
  · rw [Cluster.next_of_none env hnobody]
    exact hc
  · push Not at hnobody
    obtain ⟨i, ev, he, hid⟩ := hnobody
    exact hc.next (hc.turn he hid (hc.core_of_electoral hact.1 he) (hact.2 i ev he hid))

/-- A cluster of three servers as it is first started. -/
def freshCluster : Cluster := .start (fun _ => {}) { servers := [⟨1, [49]⟩, ⟨2, [50]⟩, ⟨3, [51]⟩] }

/-- Server 1 is elected with the vote of server 2. -/
theorem election_safe_of_orderly_three :
    ElectionSafe (freshCluster.run [({}, .timeout 1), ({}, .deliver 0), ({}, .answer 0 0)]).ids
      (freshCluster.run [({}, .timeout 1), ({}, .deliver 0), ({}, .answer 0 0)]).history :=
  election_safe_of_orderly _ _ _ (by decide +kernel)

/-- Server 2 votes for server 1 in term 1.  Server 1 stands again before it hears of that,
and takes office in term 2 with the vote of term 1; server 3 does so with a vote of its
term. -/
def staleVoteRun : List (Env × Act) :=
  [({}, .timeout 1), ({}, .deliver 0), ({}, .timeout 1), ({}, .answer 0 0),
    ({}, .timeout 3), ({}, .timeout 3), ({}, .deliver 9), ({}, .answer 9 0)]

/-- **A vote of an earlier term makes a second leader.** -/
theorem election_safe_fails :
    ¬ ElectionSafe (freshCluster.run staleVoteRun).ids (freshCluster.run staleVoteRun).history := by
  intro h
  have hone := h.one_leader 2 1 3 2 2 (by decide +kernel) (by decide +kernel)
  exact absurd hone (by decide)

end Cornerstone
