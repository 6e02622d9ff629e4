import Cornerstone.Paths

/-! # One vote per term

A server that crashes restarts from the state it last passed to `save_state`.
What the persisted term and vote promise is a chain: the term only grows, and
within a term the vote goes from none to some server and stays there.  Every
handler keeps to the chain, effect by effect, so that a crash between two effects
does no harm, except where `handle_join_cluster_req` takes over the term of the
inviting server unseen.
-/

namespace Cornerstone
open Handlers Handler Server

/-! ## Ballots -/

/-- A term and the vote given in it; the vote is -1 for none. -/
structure Ballot where
  term : Nat
  vote : Int
deriving DecidableEq, Repr

namespace Ballot
variable {v b b' : Ballot}

/-- A ballot that may come before another. -/
def Precedes (b b' : Ballot) : Prop :=
  b.term < b'.term ∨ b.term = b'.term ∧ (b.vote = b'.vote ∨ b.vote = -1)

theorem Precedes.refl (b : Ballot) : b.Precedes b := .inr ⟨rfl, .inl rfl⟩

theorem Precedes.le (h : b.Precedes b') : b.term ≤ b'.term := by
  rcases h with h | ⟨h, -⟩
  · exact h.le
  · exact h.le

/-- A vote that was given by the time the ballot is `b`. -/
def Settled (v b : Ballot) : Prop := v.term < b.term ∨ v = b ∧ v.vote ≠ -1

theorem Settled.mono (h : v.Settled b) (hb : b.Precedes b') : v.Settled b' := by
  rcases h with h | ⟨rfl, hv⟩
  · exact .inl (lt_of_lt_of_le h hb.le)
  · rcases hb with hlt | ⟨hterm, hvote | hnone⟩
    · exact .inl hlt
    · refine .inr ⟨?_, hv⟩
      cases v
      cases b'
      exact congrArg₂ Ballot.mk hterm hvote
    · exact absurd hnone hv

/-- Two settled votes of one term are the same. -/
theorem Settled.unique {w : Ballot} (h : v.Settled b) (h' : w.Settled b) (hvw : v.term = w.term)
    (hb : ¬ v.term < b.term) : v = w := by
  rcases h with h | ⟨rfl, -⟩
  · exact absurd h hb
  · rcases h' with h' | ⟨rfl, -⟩
    · exact absurd (hvw ▸ h') hb
    · rfl

end Ballot

/-- The ballot that a persisted state stands for. -/
def SrvState.ballot (st : SrvState) : Ballot := ⟨st.term, st.votedFor⟩

/-! ## What the effects of a server say about its ballot -/

/-- An answer that grants a vote. -/
def RespMsg.grants (r : RespMsg) : Bool := r.type = .requestVoteResponse ∧ r.accepted

/-- The votes that effects give: by an answer, or by saving one. -/
def Effect.vote : Effect → Option Ballot
  | .reply r _ => if r.grants then some ⟨r.term, r.dst⟩ else none
  | .saveState st => if st.votedFor = -1 then none else some st.ballot
  | _ => none

/-- The ballot after effects, from the states they save. -/
def lastBallot : Ballot → List Effect → Ballot
  | b, [] => b
  | _, .saveState st :: o => lastBallot st.ballot o
  | b, _ :: o => lastBallot b o

/-- Effects along which the ballot only moves on and every vote is the one of the
ballot. -/
def BallotChain : Ballot → List Effect → Prop
  | _, [] => True
  | b, .saveState st :: o => b.Precedes st.ballot ∧ BallotChain st.ballot o
  | b, .reply r _ :: o => (r.grants = true → b = ⟨r.term, r.dst⟩ ∧ r.dst ≠ -1) ∧ BallotChain b o
  | b, _ :: o => BallotChain b o

theorem lastBallot_append : ∀ (b : Ballot) (o o' : List Effect),
    lastBallot b (o ++ o') = lastBallot (lastBallot b o) o'
  | b, [], o' => rfl
  | b, e :: o, o' => by
    cases e <;> exact lastBallot_append _ o o'

theorem BallotChain.append : ∀ {b : Ballot} {o o' : List Effect}, BallotChain b o →
    BallotChain (lastBallot b o) o' → BallotChain b (o ++ o')
  | b, [], o', _, h' => h'
  | b, e :: o, o', h, h' => by
    cases e with
    | saveState st => exact ⟨h.1, BallotChain.append h.2 h'⟩
    | reply r => exact ⟨h.1, BallotChain.append h.2 h'⟩
    | _ => exact BallotChain.append (b := b) (o := o) h h'

/-- A crash leaves a chain. -/
theorem BallotChain.take : ∀ {b : Ballot} {o : List Effect} (n : Nat), BallotChain b o →
    BallotChain b (o.take n)
  | b, o, 0, _ => trivial
  | b, [], n + 1, _ => trivial
  | b, e :: o, n + 1, h => by
    cases e with
    | saveState st => exact ⟨h.1, BallotChain.take n h.2⟩
    | reply r => exact ⟨h.1, BallotChain.take n h.2⟩
    | _ => exact BallotChain.take (b := b) (o := o) n h

/-- One effect of a chain moves the ballot on, and a vote it gives is the new
ballot's. -/
theorem BallotChain.uncons {b : Ballot} {e : Effect} {o : List Effect} (h : BallotChain b (e :: o)) :
    ∃ b', b.Precedes b' ∧ (∀ v, e.vote = some v → v = b' ∧ v.vote ≠ -1) ∧ BallotChain b' o ∧
      lastBallot b (e :: o) = lastBallot b' o := by
  cases e with
  | saveState st =>
    refine ⟨st.ballot, h.1, fun v hv => ?_, h.2, rfl⟩
    simp only [Effect.vote] at hv
    split at hv
    · cases hv
    · cases hv
      exact ⟨rfl, ‹_›⟩
  | reply r =>
    refine ⟨b, .refl b, fun v hv => ?_, h.2, rfl⟩
    simp only [Effect.vote] at hv
    split at hv
    · cases hv
      obtain ⟨rfl, hne⟩ := h.1 ‹_›
      exact ⟨rfl, hne⟩
    · cases hv
  | _ => exact ⟨b, .refl b, fun v hv => (by cases hv), h, rfl⟩

/-- What is settled stays settled, and the term does not go down. -/
theorem BallotChain.settled_of_settled {b : Ballot} {o : List Effect} (h : BallotChain b o)
    {v : Ballot} (hv : v.Settled b) : v.Settled (lastBallot b o) := by
  induction o generalizing b with
  | nil => exact hv
  | cons e o ih =>
    obtain ⟨b', hb, -, hc, hlast⟩ := h.uncons
    rw [hlast]
    exact ih hc (hv.mono hb)

theorem BallotChain.le {b : Ballot} {o : List Effect} (h : BallotChain b o) :
    b.term ≤ (lastBallot b o).term := by
  induction o generalizing b with
  | nil => exact le_refl _
  | cons e o ih =>
    obtain ⟨b', hb, -, hc, hlast⟩ := h.uncons
    rw [hlast]
    exact hb.le.trans (ih hc)

/-- A vote among effects is that of the first one or comes later. -/
theorem mem_votes_cons {e : Effect} {o : List Effect} {v : Ballot} :
    v ∈ (e :: o).filterMap Effect.vote ↔ e.vote = some v ∨ v ∈ o.filterMap Effect.vote := by
  rw [← List.singleton_append, List.filterMap_append, List.mem_append]
  simp

/-- Along a chain every vote is settled in the end. -/
theorem BallotChain.settled {b : Ballot} {o : List Effect} (h : BallotChain b o) {v : Ballot}
    (hv : v ∈ o.filterMap Effect.vote) : v.Settled (lastBallot b o) := by
  induction o generalizing b with
  | nil => cases hv
  | cons e o ih =>
    obtain ⟨b', hb, hvote, hc, hlast⟩ := h.uncons
    rw [hlast]
    rcases mem_votes_cons.mp hv with he | ho
    · obtain ⟨rfl, hne⟩ := hvote v he
      exact hc.settled_of_settled (.inr ⟨rfl, hne⟩)
    · exact ih hc ho

/-- **A chain gives one vote a term**, the votes settled before it included. -/
theorem BallotChain.unique {b : Ballot} {o : List Effect} (h : BallotChain b o) {v w : Ballot}
    (hv : v.Settled b ∨ v ∈ o.filterMap Effect.vote) (hw : w ∈ o.filterMap Effect.vote)
    (hvw : v.term = w.term) : v = w := by
  induction o generalizing b v w with
  | nil => cases hw
  | cons e o ih =>
    obtain ⟨b', hb, hvote, hc, -⟩ := h.uncons
    have hnow : ∀ u, e.vote = some u → u.Settled b' := fun u hu => .inr (hvote u hu)
    have hsettled : v.Settled b' ∨ v ∈ o.filterMap Effect.vote := by
      rcases hv with hv | hv
      · exact .inl (hv.mono hb)
      · exact (mem_votes_cons.mp hv).imp_left (hnow v)
    rcases mem_votes_cons.mp hw with he | ho
    · rcases hsettled with hv' | hv'
      · obtain ⟨rfl, -⟩ := hvote w he
        exact hv'.unique (hnow w he) hvw (by omega)
      · exact (ih hc (.inl (hnow w he)) hv' hvw.symm).symm
    · exact ih hc hsettled ho hvw

/-! ## The law of a handler -/

/-- A handler whose effects form a chain that ends with the server's ballot. -/
structure KeepsBallot (s : Server) (o : List Effect) (t : Server) : Prop where
  chain : BallotChain s.state.ballot o
  last : lastBallot s.state.ballot o = t.state.ballot

theorem keepsBallot_law : Law KeepsBallot where
  refl s := ⟨trivial, rfl⟩
  trans := by
    intro s t u o o' h h'
    refine ⟨h.chain.append ?_, ?_⟩
    · rw [h.last]
      exact h'.chain
    · rw [lastBallot_append, h.last, h'.last]

theorem keepsBallot_plain {s t : Server} {o : List Effect} (ho : ∀ e ∈ o, e.plain s.state)
    (h : t.state.ballot = s.state.ballot) : KeepsBallot s o t := by
  induction o with
  | nil => exact ⟨trivial, h.symm⟩
  | cons e o ih =>
    obtain ⟨hc, hl⟩ := ih fun e' he' => ho e' (List.mem_cons_of_mem _ he')
    have he := ho e List.mem_cons_self
    cases e <;> first | exact ⟨hc, hl⟩ | cases he

/-- The condition under which an event leaves the persisted votes in order: no
timeout at the largest term or of a server whose id is the mark for no vote, no
vote asked for in the name of that mark, and no invitation that takes the server
back to an older term or to its own term after it has voted. -/
def VotesSafely (s : Server) : Event → Prop
  | .electionTimeout => s.role ≠ .leader → s.id ≠ -1 ∧ s.state.term + 1 < ulongSize
  | .request req =>
    (req.type = .requestVoteRequest → req.src ≠ -1) ∧
    (req.type = .joinClusterRequest → s.catchingUp = false →
      (∃ e, req.logEntries = [e] ∧ e.valType = .conf) →
      s.state.term < req.term ∨ s.state.term = req.term ∧ s.state.votedFor = -1)
  | _ => True

/-- Every segment of a safe event keeps to the chain. -/
theorem Segment.keepsBallot {s₀ s t : Server} {ev : Event} {o : List Effect}
    (hsafe : VotesSafely s₀ ev) (h : Segment s₀ ev s o t) : KeepsBallot s o t := by
  cases h with
  | book hb ho => exact keepsBallot_plain ho (by rw [hb.rest])
  | @reply _ resp hr =>
    refine ⟨⟨fun hg => ?_, trivial⟩, rfl⟩
    simp only [RespMsg.grants, decide_eq_true_eq] at hg
    obtain ⟨hterm, hdst, req, rfl, ht, hsrc⟩ := hr hg.1 hg.2
    exact ⟨by rw [SrvState.ballot, hterm, hdst], hsrc ▸ hsafe.1 ht⟩
  | save s => exact ⟨⟨.refl _, trivial⟩, rfl⟩
  | newTerm hlt => exact ⟨⟨.inl hlt, trivial⟩, rfl⟩
  | grant he ht hterm hv => exact ⟨⟨.inr ⟨rfl, hv⟩, trivial⟩, rfl⟩
  | campaign he hr =>
    subst he
    obtain ⟨-, hlt⟩ := hsafe hr
    have hterm : s₀.state.incTerm.term = s₀.state.term + 1 := Nat.mod_eq_of_lt hlt
    refine ⟨⟨.inl ?_, .inr ⟨rfl, .inr rfl⟩, trivial⟩, rfl⟩
    show s₀.state.term < s₀.state.incTerm.term
    omega
  | join he ht hm hv hc =>
    subst he
    refine ⟨⟨?_, trivial⟩, rfl⟩
    rcases hsafe.2 ht hc ⟨_, hm, hv⟩ with hlt | ⟨heq, hnone⟩
    · exact .inl hlt
    · exact .inr ⟨heq, .inr hnone⟩
  | install he ht hm hl hf hs hn hge hb ho =>
    have hst : t.state.ballot = s.state.ballot := by
      rw [hb.rest]
      simp [SrvState.ballot]
    refine keepsBallot_law.trans (keepsBallot_plain (t := s) ho rfl) ⟨⟨?_, trivial⟩, rfl⟩
    rw [hst]
    exact .refl _
  | quit hl hb hx ho => exact keepsBallot_plain ho (by rw [hb.rest])
  | commitEntry he hbg hm hat hc =>
    refine ⟨?_, ?_⟩
    · split <;> trivial
    · split <;> simp [lastBallot, SrvState.ballot]
  | commitConfig he hbg hm hat hc hd hcfg hb ho =>
    refine keepsBallot_plain ho ?_
    rw [hb.rest]
    simp [SrvState.ballot]
  | replicate he ht hterm hle hl hf hs hge hok ho => exact keepsBallot_plain ho rfl
  | _ => exact ⟨by trivial, by rfl⟩

/-- **Every handler keeps to the chain on a safe event.** -/
theorem handle_keepsBallot (env : Env) {s : Server} {ev : Event} (h : VotesSafely s ev) :
    KeepsBallot s (handle env ev s).out (handle env ev s).state :=
  (handle_path env ev s).lift keepsBallot_law fun _ _ _ hseg => hseg.keepsBallot h

/-! ## Runs with crashes -/

/-- What `save_state` has last stored. -/
def lastSaved : Option SrvState → List Effect → Option SrvState
  | saved, [] => saved
  | _, .saveState st :: o => lastSaved (some st) o
  | saved, _ :: o => lastSaved saved o

/-- A server, the state it has stored, and the votes it has given so far. -/
structure Node where
  server : Server
  saved : Option SrvState
  votes : List Ballot := []

/-- A step of a node: an event is handled, or the process dies after the first
`done` effects of handling one and is started again, with whatever log and
configuration it then finds. -/
inductive Happening
  | event (env : Env) (ev : Event)
  | crash (env : Env) (ev : Event) (done : Nat) (logStore : LogStore) (config : ClusterConfig)

namespace Node

def next (n : Node) : Happening → Node
  | .event env ev =>
    { server := n.server.next env ev
      saved := lastSaved n.saved (n.server.effects env ev)
      votes := n.votes ++ (n.server.effects env ev).filterMap Effect.vote }
  | .crash env ev done logStore config =>
    let o := (n.server.effects env ev).take done
    { server := .start n.server.id n.server.params (lastSaved n.saved o) logStore config
      saved := lastSaved n.saved o
      votes := n.votes ++ o.filterMap Effect.vote }

def run (n : Node) : List Happening → Node
  | [] => n
  | h :: hs => (n.next h).run hs

/-- The condition on a step: an event that is handled, to the end or in part, is
safe for the votes. -/
def Safe (n : Node) : Happening → Prop
  | .event _ ev => VotesSafely n.server ev
  | .crash _ ev done _ _ => done ≠ 0 → VotesSafely n.server ev

/-- Every step of a run is safe. -/
def RunSafe (n : Node) : List Happening → Prop
  | [] => True
  | h :: hs => n.Safe h ∧ (n.next h).RunSafe hs

/-- A node as it is first started. -/
def start (id : Int) (params : RaftParams) (saved : Option SrvState) (logStore : LogStore)
    (config : ClusterConfig) : Node :=
  { server := .start id params saved logStore config, saved := saved }

/-- What holds of a node between steps. -/
structure Inv (n : Node) : Prop where
  saved : (n.saved.getD {}).ballot = n.server.state.ballot
  votes : ∀ v ∈ n.votes, v.Settled n.server.state.ballot
  unique : ∀ v ∈ n.votes, ∀ w ∈ n.votes, v.term = w.term → v = w

theorem inv_start (id : Int) (params : RaftParams) (saved : Option SrvState) (logStore : LogStore)
    (config : ClusterConfig) : (start id params saved logStore config).Inv :=
  ⟨rfl, by simp [start], by simp [start]⟩

/-- What is stored after effects is their last ballot. -/
theorem lastSaved_ballot : ∀ (saved : Option SrvState) (o : List Effect),
    ((lastSaved saved o).getD {}).ballot = lastBallot (saved.getD {}).ballot o
  | saved, [] => rfl
  | saved, e :: o => by
    cases e with
    | saveState st => exact lastSaved_ballot (some st) o
    | _ => exact lastSaved_ballot saved o

/-- A chain of effects from the server's ballot keeps the votes in order. -/
theorem Inv.votes_append {n : Node} (h : n.Inv) {o : List Effect}
    (hc : BallotChain n.server.state.ballot o) :
    (∀ v ∈ n.votes ++ o.filterMap Effect.vote, v.Settled (lastBallot n.server.state.ballot o)) ∧
      ∀ v ∈ n.votes ++ o.filterMap Effect.vote, ∀ w ∈ n.votes ++ o.filterMap Effect.vote,
        v.term = w.term → v = w := by
  refine ⟨fun v hv => ?_, fun v hv w hw hvw => ?_⟩
  · rcases List.mem_append.mp hv with hv | hv
    · exact hc.settled_of_settled (h.votes v hv)
    · exact hc.settled hv
  · rcases List.mem_append.mp hw with hw | hw
    · rcases List.mem_append.mp hv with hv | hv
      · exact h.unique v hv w hw hvw
      · exact (hc.unique (.inl (h.votes w hw)) hv hvw.symm).symm
    · exact hc.unique ((List.mem_append.mp hv).imp_left (h.votes v)) hw hvw

/-- The effects of a safe event form a chain that ends with the next ballot. -/
theorem effects_chain (env : Env) {s : Server} {ev : Event} (h : VotesSafely s ev) :
    BallotChain s.state.ballot (s.effects env ev) ∧
      lastBallot s.state.ballot (s.effects env ev) = (s.next env ev).state.ballot := by
  have hk := handle_keepsBallot env h
  unfold Server.effects
  split
  · rename_i hx
    rw [Server.next, if_pos hx]
    exact ⟨trivial, rfl⟩
  · rename_i hx
    obtain ⟨x, hnext⟩ := Server.next_of_live env ev (Bool.eq_false_iff.mpr hx)
    rw [hnext]
    exact ⟨hk.chain, hk.last⟩

/-- **A safe step keeps the invariant and does not lower the term.** -/
theorem Inv.next {n : Node} (h : n.Inv) {hap : Happening} (hsafe : n.Safe hap) :
    (n.next hap).Inv ∧ n.server.state.term ≤ (n.next hap).server.state.term := by
  cases hap with
  | event env ev =>
    obtain ⟨hc, hlast⟩ := effects_chain env hsafe
    obtain ⟨hvotes, hunique⟩ := h.votes_append hc
    rw [hlast] at hvotes
    refine ⟨⟨?_, hvotes, hunique⟩, ?_⟩
    · rw [Node.next, lastSaved_ballot, h.saved]
      exact hlast
    · have hle := hc.le
      rw [hlast] at hle
      exact hle
  | crash env ev done logStore config =>
    have hc : BallotChain n.server.state.ballot ((n.server.effects env ev).take done) := by
      by_cases hd : done = 0
      · rw [hd, List.take_zero]
        trivial
      · exact (effects_chain env (hsafe hd)).1.take done
    obtain ⟨hvotes, hunique⟩ := h.votes_append hc
    have hst : (n.next (.crash env ev done logStore config)).server.state.ballot =
        lastBallot n.server.state.ballot ((n.server.effects env ev).take done) := by
      rw [← h.saved]
      exact lastSaved_ballot _ _
    refine ⟨⟨rfl, ?_, hunique⟩, ?_⟩
    · rw [hst]
      exact hvotes
    · have hle := hc.le
      rw [← hst] at hle
      exact hle

theorem Inv.run {n : Node} (h : n.Inv) {hs : List Happening} (hsafe : n.RunSafe hs) :
    (n.run hs).Inv ∧ n.server.state.term ≤ (n.run hs).server.state.term := by
  induction hs generalizing n with
  | nil => exact ⟨h, le_refl _⟩
  | cons hap hs ih =>
    obtain ⟨hinv, hle⟩ := h.next hsafe.1
    obtain ⟨hinv', hle'⟩ := ih hinv hsafe.2
    exact ⟨hinv', hle.trans hle'⟩

theorem runSafe_append {n : Node} {hs hs' : List Happening} (h : n.RunSafe (hs ++ hs')) :
    n.RunSafe hs ∧ (n.run hs).RunSafe hs' := by
  induction hs generalizing n with
  | nil => exact ⟨trivial, h⟩
  | cons hap hs ih =>
    obtain ⟨h₁, h₂⟩ := ih h.2
    exact ⟨⟨h.1, h₁⟩, h₂⟩

theorem run_append (n : Node) (hs hs' : List Happening) :
    n.run (hs ++ hs') = (n.run hs).run hs' := by
  induction hs generalizing n with
  | nil => rfl
  | cons hap hs ih => exact ih (n.next hap)

end Node

/-- Term monotonicity and one vote per term, for a run of one server. -/
structure VotesOnce (n : Node) (hs : List Happening) : Prop where
  term_mono : ∀ done rest, hs = done ++ rest →
    (n.run done).server.state.term ≤ (n.run hs).server.state.term
  one_vote : ∀ v ∈ (n.run hs).votes, ∀ w ∈ (n.run hs).votes, v.term = w.term → v.vote = w.vote

/-- **In every run whose steps are safe, crashes included, the term never
decreases and each term sees one vote at most.** -/
theorem votes_once_of_safe (id : Int) (params : RaftParams) (saved : Option SrvState)
    (logStore : LogStore) (config : ClusterConfig) (hs : List Happening)
    (hsafe : (Node.start id params saved logStore config).RunSafe hs) :
    VotesOnce (Node.start id params saved logStore config) hs := by
  have hinv := Node.inv_start id params saved logStore config
  refine ⟨fun done rest heq => ?_, fun v hv w hw hvw => ?_⟩
  · subst heq
    obtain ⟨h₁, h₂⟩ := Node.runSafe_append hsafe
    rw [Node.run_append]
    exact ((hinv.run h₁).1.run h₂).2
  · exact congrArg Ballot.vote ((hinv.run hsafe).1.unique v hv w hw hvw)

/-- A candidate's request for a vote in term 1. -/
def askedBy (candidate : Int) : Happening :=
  .event {} (.request {
    term := 1, type := .requestVoteRequest, src := candidate, dst := 3
    lastLogTerm := 0, lastLogIdx := 0, commitIdx := 0 })

/-- Server 3 of a cluster of three as it is first started. -/
def freshVoter : Node :=
  .start 3 {} none {} { servers := [⟨1, [49]⟩, ⟨2, [50]⟩, ⟨3, [51]⟩] }

/-- A vote for server 1 survives a restart: server 2 asks in vain. -/
theorem votes_once_of_safe_restart :
    VotesOnce freshVoter [askedBy 1, .crash {} .bgWake 0 {} {}, askedBy 2] :=
  votes_once_of_safe 3 {} none {} _ _
    ⟨⟨fun _ => by decide, fun h => by cases h⟩, fun _ => trivial,
      ⟨fun _ => by decide, fun h => by cases h⟩, trivial⟩

/-- The leader of term 1, server 2, invites server 3 to join. -/
def invitation : Happening :=
  .event {} (.request {
    term := 1, type := .joinClusterRequest, src := 2, dst := 3
    lastLogTerm := 0, lastLogIdx := 0, commitIdx := 0
    logEntries := [⟨1, ClusterConfig.serialize { servers := [⟨2, [50]⟩] }, .conf⟩] })

/-- **An invitation makes a server vote twice**: it clears the vote of term 1
without leaving the term. -/
theorem votes_once_fails : ¬ VotesOnce freshVoter [askedBy 1, invitation, askedBy 2] := by
  intro h
  have hvotes : (freshVoter.run [askedBy 1, invitation, askedBy 2]).votes =
      [⟨1, 1⟩, ⟨1, 1⟩, ⟨1, 2⟩, ⟨1, 2⟩] := by decide +kernel
  have hone := h.one_vote ⟨1, 1⟩ (by simp [hvotes]) ⟨1, 2⟩ (by simp [hvotes]) rfl
  exact absurd hone (by decide)

end Cornerstone
