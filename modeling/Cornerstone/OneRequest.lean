import Cornerstone.PeerSet

/-! # One request at a time

A server with what is in flight through each of its peer objects.  A request that
replicates goes up for its peer when it is sent and down when its rpc completes; a peer
that is erased takes what it had with it.  The flag and the count agree as long as
nobody takes office while a peer is still busy and no exception comes out of the
construction of a request.
-/

namespace Cornerstone
open Handlers Handler Server

/-- A server, and how many requests that replicate are in flight through each peer object. -/
structure Traffic where
  server : Server
  inFlight : Int → Nat

/-- What an effect does to what is in flight. -/
def Effect.noted (inFlight : Int → Nat) : Effect → Int → Nat
  | .send req _ => fun x => if req.type.replicates = true ∧ x = req.dst then inFlight x + 1 else inFlight x
  | .erasePeer p => fun x => if x = p.id then 0 else inFlight x
  | _ => inFlight

/-- The peer whose request an occurrence ends. -/
def Occurrence.ends : Occurrence → Option Int
  | .release (some (.peer pid)) reqType _ => if reqType.replicates then some pid else none
  | _ => none

namespace Traffic

/-- One step: the rpc that ends is over, and then the handler does what it does. -/
def step (w : Traffic) (env : Env) (x : Occurrence) : Traffic where
  server := w.server.after (occur env x)
  inFlight := (w.server.shown (occur env x)).foldl Effect.noted fun pid =>
    if x.ends = some pid then w.inFlight pid - 1 else w.inFlight pid

/-- A run. -/
def run (w : Traffic) : List (Env × Occurrence) → Traffic
  | [] => w
  | (env, x) :: xs => (w.step env x).run xs

/-- Every step of a run meets `P`. -/
def Along (P : Traffic → Env → Occurrence → Prop) (w : Traffic) : List (Env × Occurrence) → Prop
  | [] => True
  | (env, x) :: xs => P w env x ∧ (w.step env x).Along P xs

/-- A server that starts has nothing in flight. -/
def start (id : Int) (params : RaftParams) (state : Option SrvState) (logStore : LogStore)
    (config : ClusterConfig) : Traffic :=
  ⟨Server.start id params state logStore config, fun _ => 0⟩

end Traffic

variable {s t : Server} {o : List Effect} {f : Int → Nat}

/-! ## The flags and what is in flight -/

/-- The flags and the counts agree. -/
def Agree (f : Int → Nat) (s : Server) : Prop := ∀ x, f x = if (x, true) ∈ s.marks then 1 else 0

theorem noted_idle : ∀ {o : List Effect} {f : Int → Nat}, (∀ e ∈ o, e.idle = true) → o.foldl Effect.noted f = f
  | [], _, _ => rfl
  | e :: o, f, h => by
    have hfirst : e.noted f = f := by
      have he := h e List.mem_cons_self
      cases e with
      | send req memory =>
        have hrep : req.type.replicates = false := by simpa [Effect.idle] using he
        funext x
        simp [Effect.noted, hrep]
      | erasePeer p => cases he
      | _ => rfl
    rw [List.foldl_cons, hfirst]
    exact noted_idle fun e' he' => h e' (List.mem_cons_of_mem _ he')

theorem mem_marks_iff (hs : s.peerIds.Nodup) {x : Int} : (x, true) ∈ s.marks ↔ s.busyWith x = true := by
  rw [Server.marks, Server.busyWith, List.mem_map]
  constructor
  · rintro ⟨p, hp, hmark⟩
    obtain ⟨rfl, hbusy⟩ := Prod.mk.inj hmark
    rw [findPeer_of_mem hs hp, Option.any_some]
    exact hbusy
  · intro h
    cases hp : s.findPeer x with
    | none =>
      rw [hp] at h
      cases h
    | some p =>
      rw [hp, Option.any_some] at h
      obtain ⟨hmem, rfl⟩ := findPeer_mem hp
      exact ⟨p, hmem, by rw [Peer.mark, h]⟩

theorem mem_markBusy {pid x : Int} {l : List (Int × Bool)} (h : pid ∈ l.map Prod.fst) :
    (x, true) ∈ l.map (markBusy pid) ↔ x = pid ∨ (x, true) ∈ l := by
  obtain ⟨⟨a, b⟩, hmem, rfl⟩ := List.mem_map.mp h
  rw [List.mem_map]
  constructor
  · rintro ⟨⟨c, d⟩, hc, hmark⟩
    unfold markBusy at hmark
    split at hmark
    · rename_i heq
      exact .inl ((Prod.mk.inj hmark).1.symm.trans heq)
    · exact .inr (hmark ▸ hc)
  · rintro (rfl | hx)
    · exact ⟨(x, b), hmem, if_pos rfl⟩
    · refine ⟨(x, true), hx, ?_⟩
      unfold markBusy
      split <;> rfl

/-- One change that is no slip keeps flags and counts in agreement. -/
theorem PeerMove.agree (h : PeerMove False s o t) (hs : s.cluster.Nodup) (hf : Agree f s) :
    Agree (o.foldl Effect.noted f) t := by
  have hnodup := (List.nodup_cons.mp hs).2
  intro x
  cases h with
  | idle h =>
    rw [noted_idle h.out, hf x, h.marks]
  | ask hid hmem hfree htype hm ho =>
    rename_i o req memory
    have hdst : req.dst ∈ s.marks.map Prod.fst := by
      rw [Server.marks, List.map_map]
      exact hmem
    rw [List.foldl_append, noted_idle ho, List.foldl_cons, List.foldl_nil, hm]
    simp only [Effect.noted, htype, true_and, mem_markBusy hdst]
    have hzero : f req.dst = 0 := by
      rw [hf, if_neg fun h => ?_]
      rw [(mem_marks_iff hnodup).mp h] at hfree
      cases hfree
    by_cases hx : x = req.dst
    · subst hx
      simp [hzero]
    · simp [hx, hf x]
  | add hid hother hnew hfree hm =>
    rename_i p
    have hnone : ¬ (x, true) = p.mark := by
      intro heq
      have hbusy := (Prod.mk.inj heq).2
      rw [hfree] at hbusy
      cases hbusy
    rw [List.foldl_nil, hf x, hm]
    simp [hnone]
  | erase hid hm =>
    rename_i p
    rw [List.foldl_cons, List.foldl_nil, hm]
    simp only [Effect.noted, List.mem_filter, decide_eq_true_eq, hf x]
    by_cases hx : x = p.id
    · simp [hx]
    · simp [hx]
  | slip h _ _ _ => exact h.elim

/-- What is true of a live server in a run whose steps keep one request a peer. -/
def Traffic.Sound (w : Traffic) : Prop := w.server.cluster.Nodup ∧ (w.server.exited = false → Agree w.inFlight w.server)

end Cornerstone
