import Mathlib.Data.List.Infix
import Mathlib.Data.List.Nodup
import Mathlib.Logic.Function.Basic

/-! # Replicated logs with a leader for each term

Members keep logs of entries, each entry carrying the term it is from.  In a term
one member at most leads; it appends to its log, and what other members take in
is a part of that log.  `record` keeps, for each term, the log of its leader as it
was when last seen in office.  Votes and elections are here as well, but how a
leader comes to be the only one of its term is left open: `Fair` says whether it
takes a quorum of votes.
-/

namespace Consensus

variable {ι α : Type}

/-! ## Quorums -/

/-- More than half of the members satisfy `P`. -/
def Quorum (members : List ι) (P : ι → Prop) : Prop :=
  ∃ V : List ι, V.Nodup ∧ V ⊆ members ∧ members.length / 2 < V.length ∧ ∀ q ∈ V, P q

namespace Quorum
variable {members : List ι} {P Q : ι → Prop}

theorem mono (h : Quorum members P) (hPQ : ∀ q, P q → Q q) : Quorum members Q := by
  obtain ⟨V, hnodup, hsub, hlen, hP⟩ := h
  exact ⟨V, hnodup, hsub, hlen, fun q hq => hPQ q (hP q hq)⟩

/-- **Two quorums meet.** -/
theorem inter (hP : Quorum members P) (hQ : Quorum members Q) : ∃ q ∈ members, P q ∧ Q q := by
  obtain ⟨V, hV, hVsub, hVlen, hVP⟩ := hP
  obtain ⟨W, hW, hWsub, hWlen, hWQ⟩ := hQ
  by_contra hnone
  have hdisj : V.Disjoint W := fun q hqV hqW => hnone ⟨q, hVsub hqV, hVP q hqV, hWQ q hqW⟩
  have hnodup : (V ++ W).Nodup := hV.append hW hdisj
  have hsub : V ++ W ⊆ members := by
    intro q hq
    rcases List.mem_append.mp hq with hq | hq
    · exact hVsub hq
    · exact hWsub hq
  have hle := List.Nodup.length_le_of_subset hnodup hsub
  rw [List.length_append] at hle
  omega

end Quorum

/-! ## The protocol -/

/-- What the members are doing.  `voted q t c` says that `q` has voted for `c` in
term `t`, `bid c t l` that `c` has stood for election in term `t` with log `l`, and
`acked q t` how far `q` has taken in the log of the leader of term `t`. -/
structure State (ι α : Type) where
  term : ι → Nat
  log : ι → List α
  voted : ι → Nat → ι → Prop
  bid : ι → Nat → List α → Prop
  leader : Nat → Option ι
  record : Nat → List α
  acked : ι → Nat → Nat

variable [DecidableEq ι] (members : List ι) (epoch : α → Nat)

/-- The term of the last entry, zero for none. -/
def lastEpoch (l : List α) : Nat := (l.getLast?.map epoch).getD 0

/-- A log with which one may ask the owner of the log `l'` for its vote. -/
def UpToDate (l l' : List α) : Prop :=
  lastEpoch epoch l' < lastEpoch epoch l ∨
    lastEpoch epoch l = lastEpoch epoch l' ∧ l'.length ≤ l.length

/-- The log `new` is what becomes of `old` when it takes in the log `told`: as it
was, if it has that already, and otherwise `told`. -/
def Takes (told old new : List α) : Prop :=
  told <+: old ∧ new = old ∨ ¬ told <+: old ∧ new = told

/-- The steps of the protocol. -/
inductive Step (Fair : Prop) : State ι α → State ι α → Prop
  /-- A member hears of a later term. -/
  | raise {s : State ι α} {q : ι} {t : Nat} (h : s.term q < t) :
      Step Fair s { s with term := Function.update s.term q t }
  /-- A member stands for election in a new term and votes for itself. -/
  | stand {s : State ι α} {q : ι} {t : Nat} (h : s.term q < t) :
      Step Fair s { s with
        term := Function.update s.term q t
        voted := fun p u c => s.voted p u c ∨ p = q ∧ u = t ∧ c = q
        bid := fun p u l => s.bid p u l ∨ p = q ∧ u = t ∧ l = s.log q }
  /-- A member votes for another one that has stood in its term. -/
  | grant {s : State ι α} {q c : ι} {l : List α} (hb : s.bid c (s.term q) l)
      (hv : ∀ c', s.voted q (s.term q) c' → c' = c) (hup : UpToDate epoch l (s.log q)) :
      Step Fair s { s with voted := fun p u d => s.voted p u d ∨ p = q ∧ u = s.term q ∧ d = c }
  /-- A member takes office, if fairly then with the votes of a quorum in a term it
  has stood in. -/
  | elect {s : State ι α} {c : ι} (hl : s.leader (s.term c) = none)
      (hb : Fair → ∃ l, s.bid c (s.term c) l)
      (hq : Fair → Quorum members fun q => s.voted q (s.term c) c) :
      Step Fair s { s with
        leader := Function.update s.leader (s.term c) (some c)
        record := Function.update s.record (s.term c) (s.log c) }
  /-- The leader of a term appends an entry of the term. -/
  | append {s : State ι α} {c : ι} {e : α} (hl : s.leader (s.term c) = some c)
      (he : epoch e = s.term c) :
      Step Fair s { s with
        log := Function.update s.log c (s.log c ++ [e])
        record := Function.update s.record (s.term c) (s.log c ++ [e]) }
  /-- A member takes in the log of the leader of its term, up to some index. -/
  | accept {s : State ι α} {q c : ι} {m : Nat} {l : List α} (hl : s.leader (s.term q) = some c)
      (hq : q ≠ c) (hm : m ≤ (s.record (s.term q)).length)
      (ht : Takes ((s.record (s.term q)).take m) (s.log q) l) :
      Step Fair s { s with
        log := Function.update s.log q l
        acked := Function.update s.acked q
          (Function.update (s.acked q) (s.term q) (max (s.acked q (s.term q)) m)) }

/-! ## Logs and the records of leaders -/

variable {epoch}

/-- Each entry of a log stands where it stands in the record of its term, behind
the same entries. -/
def Rooted (epoch : α → Nat) (record : Nat → List α) (l : List α) : Prop :=
  ∀ i a, l[i]? = some a → l.take (i + 1) <+: record (epoch a)

namespace Rooted
variable {record : Nat → List α} {l l' : List α}

theorem of_isPrefix (h : Rooted epoch record l') (hp : l <+: l') : Rooted epoch record l := by
  obtain ⟨rest, rfl⟩ := hp
  intro i a hi
  have hlt : i < l.length := (List.getElem?_eq_some_iff.mp hi).1
  have h' := h i a (by rw [List.getElem?_append_left hlt, hi])
  rwa [List.take_append_of_le_length (by omega)] at h'

/-- **Matching**: two logs with an entry of one term at one index agree up to
there. -/
theorem take_eq (h : Rooted epoch record l) (h' : Rooted epoch record l') {i : Nat} {a a' : α}
    (ha : l[i]? = some a) (ha' : l'[i]? = some a') (he : epoch a = epoch a') :
    l.take (i + 1) = l'.take (i + 1) := by
  have hlt : i < l.length := (List.getElem?_eq_some_iff.mp ha).1
  have hlt' : i < l'.length := (List.getElem?_eq_some_iff.mp ha').1
  have hp := h i a ha
  have hp' := h' i a' ha'
  rw [← he] at hp'
  have hlen : (l.take (i + 1)).length = (l'.take (i + 1)).length := by
    rw [List.length_take, List.length_take]
    omega
  exact (List.prefix_of_prefix_length_le hp hp' hlen.le).eq_of_length hlen

/-- Records may grow, and what no entry is from may change. -/
theorem mono {record' : Nat → List α} (h : Rooted epoch record l)
    (hr : ∀ t, record t ≠ [] → record t <+: record' t) : Rooted epoch record' l := by
  intro i a hi
  have hp := h i a hi
  refine hp.trans (hr _ fun hnil => ?_)
  rw [hnil, List.prefix_nil] at hp
  have hlt : i < l.length := (List.getElem?_eq_some_iff.mp hi).1
  rw [List.take_eq_nil_iff] at hp
  rcases hp with hp | hp
  · omega
  · rw [hp, List.length_nil] at hlt
    omega

theorem append (h : Rooted epoch record l) {e : α} (he : record (epoch e) = l ++ [e]) :
    Rooted epoch record (l ++ [e]) := by
  intro i a hi
  rcases Nat.lt_or_ge i l.length with hlt | hge
  · rw [List.getElem?_append_left hlt] at hi
    rw [List.take_append_of_le_length (by omega)]
    exact h i a hi
  · rw [List.getElem?_append_right hge] at hi
    obtain ⟨hz, ha⟩ := List.getElem?_eq_some_iff.mp hi
    rw [List.length_singleton] at hz
    rw [List.getElem_singleton] at ha
    rw [List.take_of_length_le (by rw [List.length_append, List.length_singleton]; omega), ← ha, he]

end Rooted

/-- What holds of logs and records. -/
structure Matching (epoch : α → Nat) (s : State ι α) : Prop where
  /-- The record of a term is its leader's log while it is in office. -/
  office : ∀ c, s.leader (s.term c) = some c → s.record (s.term c) = s.log c
  log : ∀ q, Rooted epoch s.record (s.log q)
  record : ∀ t, Rooted epoch s.record (s.record t)
  log_le : ∀ q, ∀ a ∈ s.log q, epoch a ≤ s.term q
  record_le : ∀ t, ∀ a ∈ s.record t, epoch a ≤ t
  vacant : ∀ t, s.leader t = none → s.record t = []
  led : ∀ t c, s.leader t = some c → t ≤ s.term c

namespace Matching
variable {members} {s s' : State ι α} {Fair : Prop}

/-- Nothing but the terms of members that do not lead has changed. -/
theorem raise (h : Matching epoch s) {q : ι} {t : Nat} (ht : s.term q < t)
    (hterm : s'.term = Function.update s.term q t) (hlog : s'.log = s.log)
    (hleader : s'.leader = s.leader) (hrecord : s'.record = s.record) : Matching epoch s' := by
  have hle : ∀ p, s.term p ≤ s'.term p := by
    intro p
    rw [hterm]
    by_cases hp : p = q
    · rw [hp, Function.update_self]
      exact ht.le
    · rw [Function.update_of_ne hp]
  refine ⟨fun c hc => ?_, ?_, ?_, fun p a ha => ?_, ?_, ?_, fun u c hc => ?_⟩
  · rw [hleader] at hc
    by_cases hcq : c = q
    · have hled := h.led _ _ hc
      rw [hterm, hcq, Function.update_self] at hled
      omega
    · rw [hterm, Function.update_of_ne hcq] at hc ⊢
      rw [hrecord, hlog]
      exact h.office c hc
  · rw [hrecord, hlog]
    exact h.log
  · rw [hrecord]
    exact h.record
  · rw [hlog] at ha
    exact (h.log_le p a ha).trans (hle p)
  · rw [hrecord]
    exact h.record_le
  · rw [hleader, hrecord]
    exact h.vacant
  · rw [hleader] at hc
    exact (h.led u c hc).trans (hle c)

omit [DecidableEq ι] in
theorem elect (h : Matching epoch s) {c : ι} (hl : s.leader (s.term c) = none)
    (hs : s' = { s with
      leader := Function.update s.leader (s.term c) (some c)
      record := Function.update s.record (s.term c) (s.log c) }) : Matching epoch s' := by
  subst hs
  have hgrow : ∀ t, s.record t ≠ [] →
      s.record t <+: Function.update s.record (s.term c) (s.log c) t := by
    intro t ht
    by_cases htc : t = s.term c
    · exact absurd (htc ▸ h.vacant _ hl) ht
    · rw [Function.update_of_ne htc]
  refine ⟨fun d hd => ?_, fun q => (h.log q).mono hgrow, fun t => ?_, h.log_le, fun t a ha => ?_,
    fun t ht => ?_, fun t d hd => ?_⟩
  · by_cases hdc : s.term d = s.term c
    · simp only [hdc, Function.update_self, Option.some.injEq] at hd ⊢
      rw [hd]
    · simp only [Function.update_of_ne hdc] at hd ⊢
      exact h.office d hd
  · by_cases htc : t = s.term c
    · simp only [htc, Function.update_self]
      exact (h.log c).mono hgrow
    · simp only [Function.update_of_ne htc]
      exact (h.record t).mono hgrow
  · by_cases htc : t = s.term c
    · simp only [htc, Function.update_self] at ha ⊢
      exact h.log_le c a ha
    · simp only [Function.update_of_ne htc] at ha
      exact h.record_le t a ha
  · by_cases htc : t = s.term c
    · simp [htc] at ht
    · simp only [Function.update_of_ne htc] at ht ⊢
      exact h.vacant t ht
  · by_cases htc : t = s.term c
    · simp only [htc, Function.update_self, Option.some.injEq] at hd
      rw [htc, hd]
    · simp only [Function.update_of_ne htc] at hd
      exact h.led t d hd

theorem append (h : Matching epoch s) {c : ι} {e : α} (hl : s.leader (s.term c) = some c)
    (he : epoch e = s.term c)
    (hs : s' = { s with
      log := Function.update s.log c (s.log c ++ [e])
      record := Function.update s.record (s.term c) (s.log c ++ [e]) }) : Matching epoch s' := by
  subst hs
  have hgrow : ∀ t, s.record t ≠ [] →
      s.record t <+: Function.update s.record (s.term c) (s.log c ++ [e]) t := by
    intro t _
    by_cases htc : t = s.term c
    · rw [htc, Function.update_self, h.office c hl]
      exact List.prefix_append _ _
    · rw [Function.update_of_ne htc]
  have hnew : Rooted epoch (Function.update s.record (s.term c) (s.log c ++ [e])) (s.log c ++ [e]) :=
    ((h.log c).mono hgrow).append (by rw [he, Function.update_self])
  have hle : ∀ a ∈ s.log c ++ [e], epoch a ≤ s.term c := by
    intro a ha
    rcases List.mem_append.mp ha with ha | ha
    · exact h.log_le c a ha
    · rw [List.mem_singleton.mp ha, he]
  refine ⟨fun d hd => ?_, fun q => ?_, fun t => ?_, fun q a ha => ?_, fun t a ha => ?_,
    fun t ht => ?_, h.led⟩
  · by_cases hdc : d = c
    · simp only [hdc, Function.update_self]
    · have hne : s.term d ≠ s.term c := by
        intro hterm
        rw [hterm, hl, Option.some.injEq] at hd
        exact hdc hd.symm
      simp only [Function.update_of_ne hne, Function.update_of_ne hdc]
      exact h.office d hd
  · by_cases hqc : q = c
    · simp only [hqc, Function.update_self]
      exact hnew
    · simp only [Function.update_of_ne hqc]
      exact (h.log q).mono hgrow
  · by_cases htc : t = s.term c
    · simp only [htc, Function.update_self]
      exact hnew
    · simp only [Function.update_of_ne htc]
      exact (h.record t).mono hgrow
  · by_cases hqc : q = c
    · simp only [hqc, Function.update_self] at ha ⊢
      exact hle a ha
    · simp only [Function.update_of_ne hqc] at ha
      exact h.log_le q a ha
  · by_cases htc : t = s.term c
    · simp only [htc, Function.update_self] at ha ⊢
      exact hle a ha
    · simp only [Function.update_of_ne htc] at ha
      exact h.record_le t a ha
  · by_cases htc : t = s.term c
    · rw [htc, hl] at ht
      cases ht
    · simp only [Function.update_of_ne htc]
      exact h.vacant t ht

theorem accept (h : Matching epoch s) {q c : ι} {m : Nat} {l : List α}
    (hl : s.leader (s.term q) = some c) (hq : q ≠ c)
    (ht : Takes ((s.record (s.term q)).take m) (s.log q) l)
    (hs' : s'.term = s.term) (hlog : s'.log = Function.update s.log q l)
    (hleader : s'.leader = s.leader) (hrecord : s'.record = s.record) : Matching epoch s' := by
  have hnew : Rooted epoch s.record l ∧ ∀ a ∈ l, epoch a ≤ s.term q := by
    rcases ht with ⟨-, rfl⟩ | ⟨-, rfl⟩
    · exact ⟨h.log q, h.log_le q⟩
    · exact ⟨(h.record _).of_isPrefix (List.take_prefix _ _),
        fun a ha => h.record_le _ a (List.mem_of_mem_take ha)⟩
  refine ⟨fun d hd => ?_, fun p => ?_, ?_, fun p a ha => ?_, ?_, ?_, ?_⟩
  · rw [hleader, hs'] at hd
    have hdq : d ≠ q := by
      rintro rfl
      rw [hl, Option.some.injEq] at hd
      exact hq hd.symm
    rw [hrecord, hs', hlog, Function.update_of_ne hdq]
    exact h.office d hd
  · rw [hrecord, hlog]
    by_cases hp : p = q
    · rw [hp, Function.update_self]
      exact hnew.1
    · rw [Function.update_of_ne hp]
      exact h.log p
  · rw [hrecord]
    exact h.record
  · rw [hlog] at ha
    rw [hs']
    by_cases hp : p = q
    · rw [hp, Function.update_self] at ha
      rw [hp]
      exact hnew.2 a ha
    · rw [Function.update_of_ne hp] at ha
      exact h.log_le p a ha
  · rw [hrecord]
    exact h.record_le
  · rw [hleader, hrecord]
    exact h.vacant
  · rw [hleader, hs']
    exact h.led

/-- **Every step keeps logs and records matching.** -/
theorem step (h : Matching epoch s) (hs : Step members epoch Fair s s') : Matching epoch s' := by
  cases hs with
  | raise ht => exact h.raise ht rfl rfl rfl rfl
  | stand ht => exact h.raise ht rfl rfl rfl rfl
  | grant hb hv hup => exact ⟨h.office, h.log, h.record, h.log_le, h.record_le, h.vacant, h.led⟩
  | elect hl hb hq => exact h.elect hl rfl
  | append hl he => exact h.append hl he rfl
  | accept hl hq hm ht => exact h.accept hl hq ht rfl rfl rfl rfl

omit [DecidableEq ι] in
/-- Along a log the terms do not decrease. -/
theorem epoch_le (h : Matching epoch s) {l : List α} (hl : Rooted epoch s.record l) {i j : Nat}
    {a b : α} (ha : l[i]? = some a) (hb : l[j]? = some b) (hij : i ≤ j) : epoch a ≤ epoch b := by
  have hp := hl j b hb
  have hmem : a ∈ l.take (j + 1) := by
    refine List.mem_of_getElem? (i := i) ?_
    rw [List.getElem?_take, if_pos (by omega), ha]
  exact h.record_le _ a (hp.subset hmem)

end Matching

end Consensus
