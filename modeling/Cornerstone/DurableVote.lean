import Cornerstone.VoteOnce

/-! # Votes are saved before they are seen

Whatever message leaves a server, what it last saved has the term and the vote it
has in memory.  Term and vote change in six places, each of which saves before
anything is sent; between two handlers, and wherever a handler sends, the saved
ballot is the one in memory.  No condition on the run is needed, not even where
the vote itself goes wrong.
-/

namespace Cornerstone
open Handlers Handler Server

/-- A message that reveals a vote is about the ballot `b`: a granting answer goes to
the server voted for, and votes are asked for by a server that voted for itself. -/
def Effect.Reveals (b : Ballot) : Effect → Prop
  | .reply resp _ => resp.grants = true → b = ⟨resp.term, resp.dst⟩
  | .send req _ => req.type = .requestVoteRequest → b = ⟨req.term, req.src⟩
  | _ => True

/-- Effects along which every message leaves while the ballot saved last, `b` before
them, is the one in memory. -/
def Durable : Ballot → List Effect → Prop
  | _, [] => True
  | _, .saveState st :: o => Durable st.ballot o
  | b, .send req m :: o => m.ballot = b ∧ (Effect.send req m).Reveals b ∧ Durable b o
  | b, .sendExt _ m :: o => m.ballot = b ∧ Durable b o
  | b, .reply resp m :: o => m.ballot = b ∧ (Effect.reply resp m).Reveals b ∧ Durable b o
  | b, _ :: o => Durable b o

theorem Durable.append : ∀ {b : Ballot} {o o' : List Effect}, Durable b o →
    Durable (lastBallot b o) o' → Durable b (o ++ o')
  | b, [], o', _, h' => h'
  | b, e :: o, o', h, h' => by
    cases e with
    | saveState st => exact Durable.append (b := st.ballot) (o := o) h h'
    | send req m => exact ⟨h.1, h.2.1, Durable.append h.2.2 h'⟩
    | sendExt req m => exact ⟨h.1, Durable.append h.2 h'⟩
    | reply resp m => exact ⟨h.1, h.2.1, Durable.append h.2.2 h'⟩
    | _ => exact Durable.append (b := b) (o := o) h h'

/-- The law of saving before sending. -/
structure SavesFirst (s : Server) (o : List Effect) (t : Server) : Prop where
  durable : Durable s.state.ballot o
  last : lastBallot s.state.ballot o = t.state.ballot

theorem savesFirst_law : Law SavesFirst where
  refl s := ⟨trivial, rfl⟩
  trans := by
    intro s t u o o' h h'
    refine ⟨h.durable.append ?_, ?_⟩
    · rw [h.last]
      exact h'.durable
    · rw [lastBallot_append, h.last, h'.last]

theorem savesFirst_plain {s t : Server} {o : List Effect} (ho : ∀ e ∈ o, e.plain s.state)
    (h : t.state.ballot = s.state.ballot) : SavesFirst s o t := by
  induction o with
  | nil => exact ⟨trivial, h.symm⟩
  | cons e o ih =>
    obtain ⟨hd, hl⟩ := ih fun e' he' => ho e' (List.mem_cons_of_mem _ he')
    have he := ho e List.mem_cons_self
    cases e with
    | send req m =>
      simp only [Effect.plain, decide_eq_true_eq] at he
      obtain ⟨rfl, hvote⟩ := he
      refine ⟨⟨rfl, fun ht => ?_, hd⟩, hl⟩
      obtain ⟨hterm, hfor⟩ := hvote ht
      rw [SrvState.ballot, hterm, hfor]
    | sendExt req m =>
      simp only [Effect.plain, decide_eq_true_eq] at he
      exact ⟨⟨by rw [he], hd⟩, hl⟩
    | _ => first | exact ⟨hd, hl⟩ | cases he

/-- **Every segment saves first.** -/
theorem Segment.savesFirst {s₀ s t : Server} {ev : Event} {o : List Effect}
    (h : Segment s₀ ev s o t) : SavesFirst s o t := by
  cases h with
  | book hb ho => exact savesFirst_plain ho (by rw [hb.rest])
  | @reply _ resp hr =>
    refine ⟨⟨rfl, fun hg => ?_, trivial⟩, rfl⟩
    simp only [RespMsg.grants, decide_eq_true_eq] at hg
    obtain ⟨hterm, hdst, -⟩ := hr hg.1 hg.2
    rw [SrvState.ballot, hterm, hdst]
  | replicate _ _ _ _ _ _ _ _ _ ho => exact savesFirst_plain ho rfl
  | install _ _ _ _ _ _ _ _ hb ho =>
    have hst : t.state.ballot = s.state.ballot := by
      rw [hb.rest]
      simp [SrvState.ballot]
    exact savesFirst_law.trans (savesFirst_plain (t := s) ho rfl) ⟨trivial, rfl⟩
  | quit hl hb hx ho => exact savesFirst_plain ho (by rw [hb.rest])
  | commitEntry _ _ _ _ _ =>
    have hst : ∀ n, s₀.state.ballot = (s₀.state.setCommitIdx n).ballot := by simp [SrvState.ballot]
    split
    · exact ⟨trivial, hst _⟩
    · exact ⟨trivial, hst _⟩
  | commitConfig _ _ _ _ _ _ _ hb ho =>
    exact savesFirst_plain ho (by rw [hb.rest]; simp [SrvState.ballot])
  | _ => exact ⟨trivial, rfl⟩

/-- Whatever happens to a server, it saves first. -/
theorem handle_savesFirst (env : Env) (ev : Event) (s : Server) :
    Obeys SavesFirst s (handle env ev) :=
  (handle_path env ev s).lift savesFirst_law fun _ _ _ => Segment.savesFirst

theorem Server.next_savesFirst (env : Env) (ev : Event) (s : Server) :
    SavesFirst s (s.effects env ev) (s.next env ev) := by
  have hhandle := handle_savesFirst env ev s
  rcases s.effects_cases env ev with ⟨hx, ho⟩ | ⟨hx, ho⟩
  · have hsame : s.next env ev = s := by rw [Server.next, if_pos hx]
    rw [ho, hsame]
    exact savesFirst_law.refl s
  · obtain ⟨x, hnext⟩ := s.next_of_live env ev hx
    rw [ho, hnext]
    exact ⟨hhandle.durable, hhandle.last⟩

end Cornerstone
