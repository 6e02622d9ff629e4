import Cornerstone.ConsensusSafety
import Mathlib.Logic.Relation

/-! # Runs of the protocol

Several steps in a row, what holds of every state they reach, and the states that the
steps make, by name.  A system that replicates logs is shown to follow the protocol by
giving, for each of its own steps, the steps here that do the same.
-/

namespace Consensus

variable {ι α : Type} [DecidableEq ι] {members : List ι} {epoch : α → Nat} {Fair : Prop} {s s' : State ι α}

/-- Any number of steps. -/
abbrev Steps (members : List ι) (epoch : α → Nat) (Fair : Prop) : State ι α → State ι α → Prop :=
  Relation.ReflTransGen (Step members epoch Fair)

/-- What holds in every state. -/
structure Sound (members : List ι) (epoch : α → Nat) (Fair : Prop) (s : State ι α) : Prop where
  matching : Matching epoch s
  acking : Acking s
  voting : Voting epoch s
  complete : Fair → Complete members epoch s

/-- Nothing has happened. -/
def State.initial : State ι α where
  term _ := 0
  log _ := []
  voted _ _ _ := False
  bid _ _ _ := False
  leader _ := none
  record _ := []
  acked _ _ := 0

omit [DecidableEq ι] in
theorem sound_initial : Sound members epoch Fair (State.initial : State ι α) := by
  have hrooted : ∀ record, Rooted epoch record ([] : List α) := fun record i a hi => by
    rw [List.getElem?_nil] at hi
    cases hi
  refine ⟨⟨?_, ?_, ?_, ?_, ?_, ?_, ?_⟩, ⟨?_, ?_, ?_⟩, ⟨?_, ?_, ?_, ?_, ?_, ?_, ?_⟩, fun _ => ⟨?_, ?_, ?_, ?_⟩⟩
  all_goals simp [State.initial, Own, hrooted]

/-- A fair step is one in which elections are fair. -/
theorem Step.fair (h : Step members epoch Fair s s') (hf : Fair) : Step members epoch True s s' := by
  cases h with
  | raise ht => exact .raise ht
  | stand ht => exact .stand ht
  | grant hb hv hup => exact .grant hb hv hup
  | elect hl hb hq => exact .elect hl (fun _ => hb hf) fun _ => hq hf
  | append hl he => exact .append hl he
  | accept hl hq hm ht => exact .accept hl hq hm ht

theorem Sound.step (h : Sound members epoch Fair s) (hs : Step members epoch Fair s s') :
    Sound members epoch Fair s' :=
  ⟨h.matching.step hs, h.acking.step h.matching hs, h.voting.step h.matching hs,
    fun hf => (h.complete hf).step h.matching h.acking h.voting (hs.fair hf)⟩

/-- **What holds is kept, and nothing goes back.** -/
theorem Sound.steps (h : Sound members epoch Fair s) (hs : Steps members epoch Fair s s') :
    Sound members epoch Fair s' ∧ Extends s s' := by
  induction hs with
  | refl => exact ⟨h, .refl s⟩
  | tail _ hstep ih => exact ⟨ih.1.step hstep, ih.2.trans (hstep.extends ih.1.matching)⟩

/-! ## States by name -/

namespace State

/-- Member `q` is in term `t`. -/
def raised (s : State ι α) (q : ι) (t : Nat) : State ι α :=
  { s with term := Function.update s.term q t }

/-- Member `q` stands for election in term `t`. -/
def stood (s : State ι α) (q : ι) (t : Nat) : State ι α :=
  { s with
    term := Function.update s.term q t
    voted := fun p u c => s.voted p u c ∨ p = q ∧ u = t ∧ c = q
    bid := fun p u l => s.bid p u l ∨ p = q ∧ u = t ∧ l = s.log q }

/-- Member `q` has voted for `c` in its term. -/
def granted (s : State ι α) (q c : ι) : State ι α :=
  { s with voted := fun p u d => s.voted p u d ∨ p = q ∧ u = s.term q ∧ d = c }

/-- Member `c` leads its term. -/
def elected (s : State ι α) (c : ι) : State ι α :=
  { s with
    leader := Function.update s.leader (s.term c) (some c)
    record := Function.update s.record (s.term c) (s.log c) }

/-- The leader `c` has appended `es`. -/
def appended (s : State ι α) (c : ι) (es : List α) : State ι α :=
  { s with
    log := Function.update s.log c (s.log c ++ es)
    record := Function.update s.record (s.term c) (s.log c ++ es) }

/-- Member `q` has the log `l` and with it the first `m` entries of its leader. -/
def accepted (s : State ι α) (q : ι) (m : Nat) (l : List α) : State ι α :=
  { s with
    log := Function.update s.log q l
    acked := Function.update s.acked q
      (Function.update (s.acked q) (s.term q) (max (s.acked q (s.term q)) m)) }

end State

theorem steps_raised {q : ι} {t : Nat} (h : s.term q ≤ t) : Steps members epoch Fair s (s.raised q t) := by
  rcases h.eq_or_lt with heq | hlt
  · rw [State.raised, ← heq, Function.update_eq_self]
  · exact .single (.raise hlt)

theorem steps_stood {q : ι} {t : Nat} (h : s.term q < t) : Steps members epoch Fair s (s.stood q t) :=
  .single (.stand h)

theorem steps_granted {q c : ι} {l : List α} (hb : s.bid c (s.term q) l) (hv : ∀ c', s.voted q (s.term q) c' → c' = c)
    (hup : UpToDate epoch l (s.log q)) : Steps members epoch Fair s (s.granted q c) :=
  .single (.grant hb hv hup)

theorem steps_elected {c : ι} (hl : s.leader (s.term c) = none) (hb : Fair → ∃ l, s.bid c (s.term c) l)
    (hq : Fair → Quorum members fun q => s.voted q (s.term c) c) :
    Steps members epoch Fair s (s.elected c) :=
  .single (.elect hl hb hq)

theorem steps_appended {c : ι} {es : List α} (hm : Matching epoch s) (hl : s.leader (s.term c) = some c)
    (hes : ∀ e ∈ es, epoch e = s.term c) : Steps members epoch Fair s (s.appended c es) := by
  induction es generalizing s with
  | nil =>
    rw [State.appended, List.append_nil, Function.update_eq_self, ← hm.office c hl, Function.update_eq_self]
  | cons e es ih =>
    have hstep : Step members epoch Fair s (s.appended c [e]) := .append hl (hes e List.mem_cons_self)
    have hrest := ih (hm.step hstep) hl fun e' he' => hes e' (List.mem_cons_of_mem _ he')
    have heq : (s.appended c [e]).appended c es = s.appended c (e :: es) := by
      simp only [State.appended, Function.update_self, Function.update_idem, List.append_assoc,
        List.singleton_append]
    rw [heq] at hrest
    exact .head hstep hrest

theorem steps_accepted {q c : ι} {m : Nat} {l : List α} (hl : s.leader (s.term q) = some c) (hq : q ≠ c)
    (hm : m ≤ (s.record (s.term q)).length) (ht : Takes ((s.record (s.term q)).take m) (s.log q) l) :
    Steps members epoch Fair s (s.accepted q m l) :=
  .single (.accept hl hq hm ht)

/-! ## What may be applied -/

/-- A quorum has the log of the leader of some term, up to `u`, to index `n` or beyond. -/
def Decided (members : List ι) (epoch : α → Nat) (s : State ι α) (u n : Nat) : Prop :=
  n = 0 ∨ ∃ t k, t ≤ u ∧ Own epoch s t k ∧ Chosen members s t (k + 1) ∧ n ≤ k + 1

/-- The log `l`, as far as it goes up to index `n`, is what a quorum has. -/
def Backed (members : List ι) (epoch : α → Nat) (s : State ι α) (u : Nat) (l : List α) (n : Nat) : Prop :=
  n = 0 ∨ ∃ t k, t ≤ u ∧ Own epoch s t k ∧ Chosen members s t (k + 1) ∧ n ≤ k + 1 ∧ l.take n <+: s.record t

/-- A quorum has the entry `a` at position `n`. -/
def Fixed (members : List ι) (epoch : α → Nat) (s : State ι α) (n : Nat) (a : α) : Prop :=
  ∃ t k, Own epoch s t k ∧ Chosen members s t (k + 1) ∧ n ≤ k ∧ (s.record t)[n]? = some a

omit [DecidableEq ι] in
theorem Decided.mono {u u' n n' : Nat} (h : Decided members epoch s u n) (hext : Extends s s') (hu : u ≤ u')
    (hn : n' ≤ n) : Decided members epoch s' u' n' := by
  rcases h with rfl | ⟨t, k, ht, hown, hchosen, hk⟩
  · exact .inl (Nat.le_zero.mp hn)
  · exact .inr ⟨t, k, ht.trans hu, hown.mono hext, hchosen.mono hext, hn.trans hk⟩

omit [DecidableEq ι] in
theorem Backed.mono {u u' n : Nat} {l : List α} (h : Backed members epoch s u l n) (hext : Extends s s')
    (hu : u ≤ u') : Backed members epoch s' u' l n := by
  rcases h with rfl | ⟨t, k, ht, hown, hchosen, hk, hpre⟩
  · exact .inl rfl
  · exact .inr ⟨t, k, ht.trans hu, hown.mono hext, hchosen.mono hext, hk, hpre.trans (hext.record t)⟩

omit [DecidableEq ι] in
theorem Backed.decided {u n : Nat} {l : List α} (h : Backed members epoch s u l n) :
    Decided members epoch s u n := by
  rcases h with rfl | ⟨t, k, ht, hown, hchosen, hk, -⟩
  · exact .inl rfl
  · exact .inr ⟨t, k, ht, hown, hchosen, hk⟩

omit [DecidableEq ι] in
theorem Fixed.mono {n : Nat} {a : α} (h : Fixed members epoch s n a) (hext : Extends s s') :
    Fixed members epoch s' n a := by
  obtain ⟨t, k, hown, hchosen, hk, ha⟩ := h
  obtain ⟨rest, hrest⟩ := hext.record t
  have hlt := (List.getElem?_eq_some_iff.mp ha).1
  exact ⟨t, k, hown.mono hext, hchosen.mono hext, hk, by rw [← hrest, List.getElem?_append_left hlt, ha]⟩

omit [DecidableEq ι] in
/-- What is within a log that is backed is fixed. -/
theorem Backed.fixed {u n i : Nat} {l : List α} {a : α} (h : Backed members epoch s u l n) (hi : i < n)
    (ha : l[i]? = some a) : Fixed members epoch s i a := by
  obtain ⟨t, k, -, hown, hchosen, hk, rest, hrest⟩ := h.resolve_left (by omega)
  refine ⟨t, k, hown, hchosen, by omega, ?_⟩
  have hlt := (List.getElem?_eq_some_iff.mp ha).1
  rw [← hrest, List.getElem?_append_left (by rw [List.length_take]; omega), List.getElem?_take, if_pos hi, ha]

namespace Complete

omit [DecidableEq ι] in
/-- **Leaders have what is decided.** -/
theorem backed_record (h : Complete members epoch s) {u n : Nat} {c : ι} (hc : s.leader u = some c)
    (hd : Decided members epoch s u n) : Backed members epoch s u (s.record u) n := by
  rcases hd with rfl | ⟨t, k, ht, hown, hchosen, hk⟩
  · exact .inl rfl
  · refine .inr ⟨t, k, ht, hown, hchosen, hk, ?_⟩
    rcases ht.eq_or_lt with rfl | hlt
    · exact List.take_prefix _ _
    · have hpre := h.record t k hown hchosen.open u c hlt hc
      have hlen : ((s.record t).take (k + 1)).length = k + 1 := by
        have := hown.lt
        rw [List.length_take]
        omega
      obtain ⟨rest, hrest⟩ := hpre
      rw [← hrest, List.take_append_of_le_length (by omega)]
      exact (List.take_prefix _ _).trans (List.take_prefix _ _)

omit [DecidableEq ι] in
/-- So has any part of their logs. -/
theorem backed_of_take (h : Complete members epoch s) {u n m : Nat} {c : ι} {l : List α}
    (hc : s.leader u = some c) (hd : Decided members epoch s u n)
    (hl : l.take n = ((s.record u).take m).take n) : Backed members epoch s u l n := by
  rcases h.backed_record hc hd with rfl | ⟨t, k, ht, hown, hchosen, hk, hrec⟩
  · exact .inl rfl
  · refine .inr ⟨t, k, ht, hown, hchosen, hk, ?_⟩
    have hpart : l.take n <+: (s.record u).take n := by
      rw [hl, List.take_take, Nat.min_comm, ← List.take_take]
      exact List.take_prefix _ _
    exact hpart.trans hrec

omit [DecidableEq ι] in
/-- A member that has a part of a leader's log has what is decided, if the part goes that
far or is all it has. -/
theorem backed_of_prefix (h : Complete members epoch s) {u n m : Nat} {c : ι} {l : List α}
    (hc : s.leader u = some c) (hd : Decided members epoch s u n) (hle : m ≤ (s.record u).length)
    (hpre : (s.record u).take m <+: l) (hm : n ≤ m ∨ l.length ≤ m) : Backed members epoch s u l n := by
  have hlen : ((s.record u).take m).length = m := by
    rw [List.length_take]
    omega
  refine h.backed_of_take (m := m) hc hd ?_
  rcases hm with hn | hl
  · obtain ⟨rest, hrest⟩ := hpre
    rw [← hrest, List.take_append_of_le_length (by omega)]
  · rw [hpre.eq_of_length_le (by omega)]

omit [DecidableEq ι] in
/-- A member that takes in a part of a leader's log keeps what is decided. -/
theorem backed_takes (h : Complete members epoch s) {u u' n m : Nat} {c : ι} {l l' : List α}
    (hb : Backed members epoch s u l n) (hu : u ≤ u') (hc : s.leader u' = some c)
    (ht : Takes ((s.record u').take m) l l') : Backed members epoch s u' l' n := by
  rcases ht with ⟨-, rfl⟩ | ⟨-, rfl⟩
  · exact hb.mono (.refl s) hu
  · exact h.backed_of_take hc (hb.decided.mono (.refl s) hu le_rfl) rfl

omit [DecidableEq ι] in
/-- **What is fixed is fixed once.** -/
theorem fixed_unique (h : Complete members epoch s) (hm : Matching epoch s) {n : Nat} {a b : α}
    (ha : Fixed members epoch s n a) (hb : Fixed members epoch s n b) : a = b := by
  obtain ⟨t, k, hown, hchosen, hk, ha⟩ := ha
  obtain ⟨t', k', hown', hchosen', hk', hb⟩ := hb
  have hsame := h.agree hown hown' hchosen hchosen' hm (show n + 1 ≤ k + 1 by omega) (show n + 1 ≤ k' + 1 by omega)
  have hget := congrArg (·[n]?) hsame
  simp only [List.getElem?_take, Nat.lt_succ_self, if_true, ha, hb] at hget
  exact Option.some.inj hget

end Complete

end Consensus
