import Cornerstone.PtrRelease

/-! # Programs with reference counted pointers

What a program may do (`Possible`): use handles there are, and put new ones into objects
there are.  The counters stay exact over such operations with an exception: an assignment
releases what the target held before it looks at the source.  Where the source goes with
what is released, or is the target itself and the last handle, the counters of a freed
block are used; and a handle that is released must not be part of an object it destroys.
-/

namespace Cornerstone.Ptr
namespace Heap

/-- A handle there is. -/
def Live (s : Heap) (h : Nat) : Prop := h < s.handles ∧ (s.handle h).live = true

instance (s : Heap) (h : Nat) : Decidable (s.Live h) :=
  inferInstanceAs (Decidable (h < s.handles ∧ (s.handle h).live = true))

/-- A variable, or a part of an object there is. -/
def Place (s : Heap) (owner : Option Nat) : Prop := ∀ o, owner = some o → o < s.cells ∧ (s.cell o).destroyed = 0

/-- The operations a program can write down.  No strong handle is made of a weak one but by
`operator &`, and a weak handle has no `reset`. -/
def Possible (s : Heap) : Op → Prop
  | .empty _ owner => s.Place owner
  | .csNew owner => s.Place owner
  | .copy weak src owner => s.Live src ∧ (weak = false → (s.handle src).weak = false) ∧ s.Place owner
  | .move src owner => s.Live src ∧ s.Place owner
  | .promote src owner => s.Live src ∧ (s.handle src).weak = true ∧ s.Place owner
  | .test h => s.Live h ∧ (s.handle h).weak = true
  | .assign dst src => s.Live dst ∧ s.Live src ∧ ((s.handle dst).weak = false → (s.handle src).weak = false)
  | .reset h => s.Live h ∧ (s.handle h).weak = false
  | .destroy h => s.Live h

/-- One more handle can be counted. -/
def Room (s : Heap) (but : Option Nat) (weak : Bool) (t : Option Nat) : Prop :=
  ∀ b, t = some b → (s.holders but weak b).card + 1 < uintSize / 2

/-- A handle that is not part of an object the release of another destroys. -/
def Outlives (s : Heap) (x h : Nat) : Prop := ∀ o, (s.handle h).owner = some o → ¬ LetGo s x o

/-- Where the counters stay exact. -/
def Safe (s : Heap) : Op → Prop
  | .copy weak src _ => s.Room none weak (s.handle src).target
  | .promote src _ => s.Room none false (s.handle src).target
  | .assign dst src =>
    s.Room (some dst) (s.handle dst).weak (s.handle src).target ∧
    ((s.handle dst).weak = false → s.Outlives dst dst ∧ s.Outlives dst src ∧
      (src = dst → ∀ b, (s.handle src).target = some b → ¬ LetGo s dst b)) ∧
    ((s.handle dst).weak = true → src = dst → ∀ b, (s.handle src).target = some b →
      ∃ w, s.holders (some dst) w b ≠ ∅)
  | .reset h => s.Outlives h h
  | .destroy h => (s.handle h).weak = false → s.Outlives h h
  | _ => True

/-- **Reference counting is exact**: each counter is the number of live handles of its kind, the destructor
has run once where there is no strong one, and the block is freed once where there is
none at all. -/
structure Exact (s : Heap) : Prop where
  strong : ∀ b < s.cells, (s.cell b).strong = (s.holders none false b).card
  weak : ∀ b < s.cells, (s.cell b).weak = (s.holders none true b).card
  destroyed : ∀ b < s.cells, (s.cell b).destroyed = if (s.holders none false b).card = 0 then 1 else 0
  freed : ∀ b < s.cells, (s.cell b).freed =
    if (s.holders none false b).card = 0 ∧ (s.holders none true b).card = 0 then 1 else 0

/-- Every operation of a program meets a condition on the heap before it. -/
def AllSteps (order : DestroyOrder) (P : Heap → Op → Prop) : Heap → List Op → Prop
  | _, [] => True
  | s, op :: ops => P s op ∧ ∀ s', s.step order op = .ok s' → AllSteps order P s' ops

variable {s s' : Heap} {but : Option Nat} {inside : List Nat} {owed : Option (Bool × Nat)} {b h x : Nat} {w : Bool}

theorem num_none (w : Bool) : s.num but none w b = (s.holders but w b).card := by
  rw [num, if_neg (by simp), Nat.add_zero]

theorem Counted.exact (h : Counted none [] none s) : s.Exact := by
  have hcell : ∀ b < s.cells, (s.cell b).Exact (s.holders none false b).card (s.holders none true b).card false :=
    fun b hb => by
      rw [← num_none false, ← num_none true]
      exact h.cell b hb
  refine ⟨fun b hb => (hcell b hb).strong, fun b hb => ?_, fun b hb => (hcell b hb).destroyed, fun b hb => ?_⟩
  · rw [(hcell b hb).weak]
    exact int32_natCast (hcell b hb).weaks_lt
  · rw [(hcell b hb).freed]
    simp only [and_true]

/-! ## Handles set aside and taken back -/

theorem Counted.of_num {but' : Option Nat} {owed' : Option (Bool × Nat)}
    (hnum : ∀ w b, s.num but' owed' w b = s.num but owed w b) (hc : Counted but inside owed s) :
    Counted but' inside owed' s :=
  ⟨fun b hb => by rw [hnum, hnum]; exact hc.cell b hb, hc.inside_lt, hc.target,
    fun i hi hlive o ho => by rw [hnum]; exact hc.owner i hi hlive o ho⟩

/-- A handle that counts is one that is owed for. -/
theorem counted_aside (hlive : s.Live h) : Counted none inside none s ↔ Counted (some h) inside (s.holds h) s :=
  ⟨Counted.of_num fun _ _ => num_aside hlive.1 hlive.2, Counted.of_num fun _ _ => (num_aside hlive.1 hlive.2).symm⟩

theorem holders_setTarget (h : Nat) (t : Option Nat) :
    (s.setTarget h t).holders (some h) w b = s.holders (some h) w b := by
  ext i
  rw [mem_holders, mem_holders]
  by_cases hi : i = h
  · simp [hi]
  · simp [setTarget, setHandle, hi]

theorem holders_push (hd : Handle) : (s.push hd).holders (some s.handles) w b = s.holders none w b := by
  ext i
  rw [mem_holders, mem_holders]
  by_cases hi : i = s.handles
  · simp [hi]
  · have hlt : i < s.handles + 1 ↔ i < s.handles := by omega
    simp [push, hi, hlt]

theorem Counted.setTarget {t : Option Nat} (hc : Counted (some h) inside none s)
    (ht : ∀ b, t = some b → b < s.cells) : Counted (some h) inside none (s.setTarget h t) := by
  have hnum : ∀ w b, (s.setTarget h t).num (some h) none w b = s.num (some h) none w b := fun w b => by
    rw [num_none, num_none, holders_setTarget]
  have hsame : ∀ i, ((s.setTarget h t).handle i).live = (s.handle i).live ∧
      ((s.setTarget h t).handle i).owner = (s.handle i).owner := fun i => by
    by_cases hi : i = h
    · subst hi
      simp [Heap.setTarget, setHandle]
    · simp [Heap.setTarget, setHandle, hi]
  refine ⟨fun b hb => ?_, hc.inside_lt, fun i hi hlive b hb => ?_, fun i hi hlive o ho => ?_⟩
  · rw [hnum, hnum]
    exact hc.cell b hb
  · by_cases hih : i = h
    · subst hih
      exact ht b (by simpa [Heap.setTarget, setHandle] using hb)
    · exact hc.target i hi ((hsame i).1.symm.trans hlive) b (by simpa [Heap.setTarget, setHandle, hih] using hb)
  · rw [hnum]
    exact hc.owner i hi ((hsame i).1.symm.trans hlive) o ((hsame i).2.symm.trans ho)

theorem Counted.alive (hc : Counted but inside none s) {o : Nat} (hlt : o < s.cells)
    (hdestroyed : (s.cell o).destroyed = 0) : s.num but none false o ≠ 0 := by
  intro hzero
  have hone := (hc.cell o hlt).destroyed
  rw [hdestroyed, if_pos hzero] at hone
  cases hone

theorem Counted.push {hd : Handle} (hc : Counted none [] none s) (ht : ∀ b, hd.target = some b → b < s.cells)
    (hplace : s.Place hd.owner) : Counted (some s.handles) [] none (s.push hd) := by
  have hnum : ∀ w b, (s.push hd).num (some s.handles) none w b = s.num none none w b := fun w b => by
    rw [num_none, num_none, holders_push]
  have hold : ∀ i < s.handles + 1, i ≠ s.handles → i < s.handles ∧ (s.push hd).handle i = s.handle i :=
    fun i hi hne => ⟨by omega, by simp [Heap.push, hne]⟩
  refine ⟨fun b hb => ?_, fun b hb => absurd hb List.not_mem_nil, fun i hi hlive b hb => ?_, fun i hi hlive o ho => ?_⟩
  · rw [hnum, hnum]
    exact hc.cell b hb
  · by_cases hnew : i = s.handles
    · subst hnew
      exact ht b (by simpa [Heap.push] using hb)
    · obtain ⟨hlt, hsame⟩ := hold i hi hnew
      rw [hsame] at hlive hb
      exact hc.target i hlt hlive b hb
  · rw [hnum]
    by_cases hnew : i = s.handles
    · subst hnew
      obtain ⟨hlt, hdestroyed⟩ := hplace o (by simpa [Heap.push] using ho)
      exact ⟨hlt, .inl (hc.alive hlt hdestroyed)⟩
    · obtain ⟨hlt, hsame⟩ := hold i hi hnew
      rw [hsame] at hlive ho
      exact hc.owner i hlt hlive o ho

/-- **A handle set aside is counted again**, once `_inc_ref` has been called for it. -/
theorem incRef_run (hc : Counted (some x) [] none s) (hlive : s.Live x)
    (hheld : ∀ b, (s.handle x).target = some b →
      s.num (some x) none false b ≠ 0 ∨ (s.handle x).weak = true ∧ s.num (some x) none true b ≠ 0)
    (hroom : s.Room (some x) (s.handle x).weak (s.handle x).target) :
    ∃ s', s.incRef (s.handle x).weak (s.handle x).target = .ok s' ∧ Counted none [] none s' ∧ Later s s' := by
  cases ht : (s.handle x).target with
  | none =>
    have hholds : s.holds x = none := by rw [holds, ht, Option.map_none]
    refine ⟨s, rfl, (counted_aside hlive).mpr ?_, Later.refl s⟩
    rwa [hholds]
  | some b =>
    have hb : b < s.cells := hc.target x hlive.1 hlive.2 b ht
    have hexact := hc.cell b hb
    have hheld' := hheld b ht
    have hfreed : (s.cell b).freed = 0 := by
      refine hexact.freed_eq_zero (hheld'.imp_right fun h => .inl h.2)
    have hlt := hroom b ht
    rw [← num_none] at hlt
    have howner : ∀ i < s.handles, (s.handle i).live = true → (s.handle i).owner = some b →
        s.num (some x) none false b ≠ 0 := fun i hi hl ho =>
      (hc.owner i hi hl b ho).2.resolve_right (List.not_mem_nil)
    have hback : ∀ w c, (s.handle x).weak = w → c.Exact (s.num (some x) (some (w, b)) false b)
        (s.num (some x) (some (w, b)) true b) (decide (b ∈ [])) → Counted none [] none (s.setCell b c) := by
      intro w c hw hcell
      have hholds : (s.setCell b c).holds x = some (w, b) := holds_eq_some.mpr ⟨hw, ht⟩
      refine (counted_aside (s := s.setCell b c) hlive).mpr ?_
      rw [hholds]
      refine hc.setCell (fun w' b' hne => num_owed_ne hne) (fun _ _ => Iff.rfl) hb hcell fun i hi hl ho => .inl ?_
      have hpos := howner i hi hl ho
      rw [num_none] at hpos
      rw [num]
      omega
    cases hw : (s.handle x).weak with
    | true =>
      rw [hw] at hlt
      have hpos : s.num (some x) none false b ≠ 0 ∨ s.num (some x) none true b ≠ 0 := hheld'.imp_right And.right
      have hinc := hexact.inc_weak hpos hlt
      rw [← num_owed_self, ← (show s.num (some x) (some (true, b)) false b = s.num (some x) none false b from
        num_owed_other true)] at hinc
      refine ⟨_, ?_, hback true _ hw hinc, later_setCell (Nat.le_refl _) (Nat.le_refl _)⟩
      simp only [incRef, counters_ok hfreed, bind, Except.bind, if_true]
      rfl
    | false =>
      rw [hw] at hlt
      have hpos : s.num (some x) none false b ≠ 0 := by
        refine hheld'.resolve_right fun h => ?_
        rw [hw] at h
        cases h.1
      have hinc := hexact.inc_strong hpos hlt
      rw [← num_owed_self, ← (show s.num (some x) (some (false, b)) true b = s.num (some x) none true b from
        num_owed_other false)] at hinc
      refine ⟨_, ?_, hback false _ hw hinc, later_setCell (Nat.le_refl _) (Nat.le_refl _)⟩
      simp only [incRef, counters_ok hfreed, bind, Except.bind, Bool.false_eq_true, if_false]
      rfl

/-! ## Single operations -/

/-- The memory of a live handle is there, and so is what it points at. -/
theorem p_live (hc : Counted but [] none s) (hlive : s.Live h) : s.p h = .ok (s.handle h).target := by
  refine p_ok fun o ho => ?_
  obtain ⟨hlt, hheld⟩ := hc.owner h hlive.1 hlive.2 o ho
  exact hc.freed_eq_zero hlt (.inl ⟨false, hheld.resolve_right List.not_mem_nil⟩)

/-- A live handle counts. -/
theorem num_live (but : Option Nat) (hlive : s.Live h) (ht : (s.handle h).target = some b) (hne : some h ≠ but) :
    s.num but none (s.handle h).weak b ≠ 0 := by
  rw [num_none]
  exact Finset.card_ne_zero_of_mem (mem_holders.mpr ⟨hlive.1, hlive.2, rfl, ht, hne⟩)

/-- **A release from outside**: of a handle whose decrement is all that is owed. -/
theorem release_run (order : DestroyOrder) (hc : Counted (some h) [] (s.holds h) s)
    (htarget : ∀ b, (s.handle h).target = some b → b < s.cells)
    (howner : ∀ o, (s.handle h).owner = some o → o < s.cells ∧ s.num (some h) (s.holds h) false o ≠ 0)
    (hout : (s.handle h).weak = false → s.Outlives h h) :
    ∃ s', s.release order h = .ok s' ∧ Ran s h [] [] s s' ∧ ((s.handle h).weak = true → s'.handle = s.handle) := by
  cases hw : (s.handle h).weak with
  | false =>
    have hstays : Stays s h := fun o ho => by
      obtain ⟨hlt, hheld⟩ := howner o ho
      refine ⟨hout hw o ho, hlt, ?_⟩
      rw [(hc.cell o hlt).destroyed, if_neg hheld]
    have hfuel : s.standing < s.cells + 1 := by
      have hle := Finset.card_filter_le (Finset.range s.cells) fun b => (s.cell b).destroyed = 0
      rw [Finset.card_range] at hle
      exact Nat.lt_succ_of_le hle
    obtain ⟨s', hrun, hran⟩ := decRefAndFree_run hstays (s.cells + 1) (Since.refl s h) hc htarget (.inl rfl) hfuel
    exact ⟨s', hrun, hran, fun hweak => by cases hweak⟩
  | true =>
    have hp := p_ok fun o ho => hc.freed_eq_zero (howner o ho).1 (.inl ⟨false, (howner o ho).2⟩)
    cases ht : (s.handle h).target with
    | none =>
      have hholds : s.holds h = none := by rw [holds, ht, Option.map_none]
      rw [hholds] at hc
      refine ⟨s, ?_, ⟨Since.refl s h, hc, fun _ _ _ _ _ => rfl, Later.refl s⟩, fun _ => rfl⟩
      simp only [release, decRefAndFree, hp, ht, bind, Except.bind]
      rfl
    | some b =>
      rw [show s.holds h = some (true, b) from holds_eq_some.mpr ⟨hw, ht⟩] at hc
      obtain ⟨c, hrun, hc', hdestroyed, hlater⟩ := decWeak_run hc (htarget b ht)
      refine ⟨_, ?_, ran_setCell (Since.refl s h) hc' hdestroyed hlater, fun _ => rfl⟩
      simp only [release, decRefAndFree, hp, ht, hw, bind, Except.bind, if_true]
      exact hrun

theorem push_live (hd : Handle) (hlive : hd.live = true) : (s.push hd).Live s.handles :=
  ⟨Nat.lt_succ_self _, by simp [push, hlive]⟩

theorem push_handle (hd : Handle) : (s.push hd).handle s.handles = hd := by
  simp [push]

/-- A new handle and its `_inc_ref`, in whichever order. -/
theorem incRef_push {t : Option Nat} (hd : Handle) (hs : (s.push hd).incRef w t = .ok s') :
    ∃ s₁, s.incRef w t = .ok s₁ ∧ s₁.push hd = s' := by
  cases t with
  | none => exact ⟨s, rfl, Except.ok.inj hs⟩
  | some b =>
    unfold incRef counters at hs ⊢
    by_cases hfreed : (s.cell b).freed > 0
    · have hfreed' : ((s.push hd).cell b).freed > 0 := hfreed
      simp only [if_pos hfreed', bind, Except.bind] at hs
      cases hs
    · have hfreed' : ¬ ((s.push hd).cell b).freed > 0 := hfreed
      simp only [if_neg hfreed', bind, Except.bind] at hs
      simp only [if_neg hfreed, bind, Except.bind]
      cases w with
      | true => exact ⟨_, rfl, Except.ok.inj hs⟩
      | false => exact ⟨_, rfl, Except.ok.inj hs⟩

/-- **A new handle**: a copy of one there is, or one to nothing. -/
theorem new_run (hd : Handle) (hc : Counted none [] none s) (hlive : hd.live = true) (hplace : s.Place hd.owner)
    (ht : ∀ b, hd.target = some b → b < s.cells)
    (hheld : ∀ b, hd.target = some b → s.num none none false b ≠ 0 ∨ hd.weak = true ∧ s.num none none true b ≠ 0)
    (hroom : s.Room none hd.weak hd.target) :
    ∃ s₁, s.incRef hd.weak hd.target = .ok s₁ ∧ Counted none [] none (s₁.push hd) ∧ Later s (s₁.push hd) := by
  have hnum : ∀ w b, (s.push hd).num (some s.handles) none w b = s.num none none w b := fun w b => by
    rw [num_none, num_none, holders_push]
  have hpush := hc.push ht hplace
  have hheld' : ∀ b, ((s.push hd).handle s.handles).target = some b →
      (s.push hd).num (some s.handles) none false b ≠ 0 ∨
        ((s.push hd).handle s.handles).weak = true ∧ (s.push hd).num (some s.handles) none true b ≠ 0 := fun b hb => by
    rw [push_handle] at hb ⊢
    rw [hnum, hnum]
    exact hheld b hb
  have hroom' : (s.push hd).Room (some s.handles) ((s.push hd).handle s.handles).weak
      ((s.push hd).handle s.handles).target := fun b hb => by
    rw [push_handle] at hb ⊢
    rw [holders_push]
    exact hroom b hb
  obtain ⟨s', hrun, hc', hlater⟩ := incRef_run hpush (push_live hd hlive) hheld' hroom'
  rw [push_handle] at hrun
  obtain ⟨s₁, hrun₁, rfl⟩ := incRef_push hd hrun
  exact ⟨s₁, hrun₁, hc', ⟨hlater.cells, hlater.destroyed, hlater.freed⟩⟩

/-- Handles that were not part of what was destroyed are there still. -/
theorem Since.live_of_outlives (h : Since s x s') {i : Nat} (hlive : s.Live i) (hout : s.Outlives x i) : s'.Live i := by
  refine ⟨h.handles ▸ hlive.1, ?_⟩
  by_contra hgone
  obtain ⟨o, ho, hlet⟩ := h.gone i hlive.2 (by simpa using hgone)
  exact hout o ho hlet

theorem Since.holders_subset (h : Since s x s') : s'.holders but w b ⊆ s.holders but w b := by
  intro i hi
  obtain ⟨hlt, hlive, hweak, htarget, hne⟩ := mem_holders.mp hi
  exact mem_holders.mpr ⟨h.handles ▸ hlt, h.live i hlive, (h.weak i).symm.trans hweak,
    (h.target i).symm.trans htarget, hne⟩

/-- A handle whose destructor has begun counts no more. -/
theorem holders_dead (hdead : (s.handle h).live = false) : s.holders (some h) w b = s.holders none w b := by
  rw [holders_aside]
  refine Finset.erase_eq_of_notMem fun hmem => ?_
  obtain ⟨-, hlive, -⟩ := mem_holders.mp hmem
  rw [hdead] at hlive
  cases hlive

theorem counted_dead (hdead : (s.handle h).live = false) :
    Counted none inside owed s ↔ Counted (some h) inside owed s := by
  have hnum : ∀ w b, s.num (some h) owed w b = s.num none owed w b := fun w b => by
    rw [num, num, holders_dead hdead]
  exact ⟨Counted.of_num hnum, Counted.of_num fun w b => (hnum w b).symm⟩

theorem letGo_kill (h : LetGo (s.kill x) x b) : LetGo s x b := by
  induction h with
  | @all b hpart hlet ih =>
    have hmem : ∀ i ∈ s.holders (some x) false b, i ∈ (s.kill x).holders (some x) false b := fun i hi => by
      rw [holders_kill, Finset.mem_erase]
      exact ⟨fun heq => (mem_holders.mp hi).2.2.2.2 (congrArg some heq), hi⟩
    refine .all (fun i hi => ?_) fun i hi o ho => ?_
    · rw [← (kill_same x i).2.2]
      exact hpart i (hmem i hi)
    · exact ih i (hmem i hi) o ((kill_same x i).2.2.trans ho)

theorem destroy_handle_run (order : DestroyOrder) (hc : Counted none [] none s) (hlive : s.Live h)
    (hout : (s.handle h).weak = false → s.Outlives h h) :
    ∃ s', (s.kill h).release order h = .ok s' ∧ Counted none [] none s' ∧ Later s s' := by
  obtain ⟨hweak, htarget, howner⟩ := kill_same (s := s) h h
  have hdead : ((s.kill h).handle h).live = false := by rw [kill_live, if_pos rfl]
  have hkill := (counted_dead hdead).mp (hc.kill hlive.1 hlive.2 (by simp))
  rw [← kill_holds h h] at hkill
  have hparts : ∀ o, ((s.kill h).handle h).owner = some o →
      o < s.cells ∧ (s.kill h).num (some h) ((s.kill h).holds h) false o ≠ 0 := fun o ho => by
    obtain ⟨hlt, hheld⟩ := hc.owner h hlive.1 hlive.2 o (howner ▸ ho)
    refine ⟨hlt, ?_⟩
    rw [kill_holds, num, holders_dead hdead, ← num, num_kill hlive.1 hlive.2 (by simp)]
    exact hheld.resolve_right List.not_mem_nil
  obtain ⟨s', hrun, hran, -⟩ := release_run order hkill
    (fun b hb => hc.target h hlive.1 hlive.2 b (htarget ▸ hb)) hparts
    fun hw o ho hlet => hout (hweak ▸ hw) o (howner ▸ ho) (letGo_kill hlet)
  have hdead' : (s'.handle h).live = false := by
    by_contra hlive'
    have hback := hran.since.live h (by simpa using hlive')
    rw [hdead] at hback
    cases hback
  exact ⟨s', hrun, (counted_dead hdead').mpr hran.counted, ⟨hran.later.cells, hran.later.destroyed, hran.later.freed⟩⟩

/-- The handle released before something else is put into it. -/
theorem release_live_run (order : DestroyOrder) (hc : Counted none [] none s) (hlive : s.Live h)
    (hout : (s.handle h).weak = false → s.Outlives h h) :
    ∃ s', s.release order h = .ok s' ∧ Ran s h [] [] s s' ∧ ((s.handle h).weak = true → s'.handle = s.handle) := by
  have haside := (counted_aside hlive).mp hc
  refine release_run order haside (hc.target h hlive.1 hlive.2) (fun o ho => ?_) hout
  obtain ⟨hlt, hheld⟩ := haside.owner h hlive.1 hlive.2 o ho
  exact ⟨hlt, hheld.resolve_right List.not_mem_nil⟩

/-- A handle stays live over a release of another kind of thing: a weak handle destroys nothing, and of what a
strong one destroys this one is no part. -/
theorem Ran.live {i : Nat} (hran : Ran s h [] [] s s') (hkeep : (s.handle h).weak = true → s'.handle = s.handle)
    (hlive : s.Live i) (hout : (s.handle h).weak = false → s.Outlives h i) : s'.Live i := by
  cases hw : (s.handle h).weak with
  | false => exact hran.since.live_of_outlives hlive (hout hw)
  | true => exact ⟨hran.since.handles ▸ hlive.1, by rw [hkeep hw]; exact hlive.2⟩

theorem setTarget_live {t : Option Nat} {i : Nat} (hlive : s.Live i) : (s.setTarget h t).Live i := by
  refine ⟨hlive.1, ?_⟩
  by_cases hi : i = h
  · subst hi
    simpa [setTarget, setHandle] using hlive.2
  · simpa [setTarget, setHandle, hi] using hlive.2

theorem setTarget_handle (h : Nat) (t : Option Nat) :
    (s.setTarget h t).handle h = { s.handle h with target := t } := by
  simp [setTarget, setHandle]

theorem reset_run (order : DestroyOrder) (hc : Counted none [] none s) (hlive : s.Live h)
    (hout : s.Outlives h h) :
    ∃ s', s.step order (.reset h) = .ok s' ∧ Counted none [] none s' ∧ Later s s' := by
  obtain ⟨s₁, hrun, hran, hkeep⟩ := release_live_run order hc hlive fun _ => hout
  have hlive₁ := hran.live hkeep hlive fun _ => hout
  have hset := hran.counted.setTarget (t := none) fun b hb => nomatch hb
  have hnone : ((s₁.setTarget h none).handle h).target = none := by rw [setTarget_handle]
  obtain ⟨s₂, hinc, hc₂, hlater⟩ := incRef_run hset (setTarget_live hlive₁) (fun b hb => by rw [hnone] at hb; cases hb)
    (fun b hb => by rw [hnone] at hb; cases hb)
  rw [hnone] at hinc
  obtain rfl : s₁.setTarget h none = s₂ := Except.ok.inj hinc
  refine ⟨_, ?_, hc₂, hran.later.trans ⟨hlater.cells, hlater.destroyed, hlater.freed⟩⟩
  simp only [step, hrun, p_live hran.counted hlive₁, bind, Except.bind]
  rfl

/-- **Assignment**: the source outlives the release, and something is left of what it points at. -/
theorem assign_run (order : DestroyOrder) {dst src : Nat} (hc : Counted none [] none s)
    (hp : s.Possible (.assign dst src)) (hs : s.Safe (.assign dst src)) :
    ∃ s', s.step order (.assign dst src) = .ok s' ∧ Counted none [] none s' ∧ Later s s' := by
  obtain ⟨hdst, hsrc, hkind⟩ := hp
  obtain ⟨hroom, hstrong, hweak⟩ := hs
  obtain ⟨s₁, hrun, hran, hkeep⟩ := release_live_run order hc hdst fun hw => (hstrong hw).1
  have hdst₁ := hran.live hkeep hdst fun hw => (hstrong hw).1
  have hsrc₁ := hran.live hkeep hsrc fun hw => (hstrong hw).2.1
  have htarget := hran.since.target src
  have hset := hran.counted.setTarget (t := (s.handle src).target) fun b hb =>
    hran.counted.target src hsrc₁.1 hsrc₁.2 b (htarget.trans hb)
  have hnum : ∀ w b, (s₁.setTarget dst (s.handle src).target).num (some dst) none w b = s₁.num (some dst) none w b :=
    fun w b => by rw [num_none, num_none, holders_setTarget]
  have hheld : ∀ b, (s.handle src).target = some b → s₁.num (some dst) none false b ≠ 0 ∨
      (s.handle dst).weak = true ∧ s₁.num (some dst) none true b ≠ 0 := by
    intro b hb
    by_cases hself : src = dst
    · cases hw : (s.handle dst).weak with
      | false => exact .inl fun hzero => (hstrong hw).2.2 hself b hb (hran.since.letGo hzero)
      | true =>
        obtain ⟨w, hne⟩ := hweak hw hself b hb
        have hsame : s₁.num (some dst) none w b ≠ 0 := by
          rw [num_none, holders, hkeep hw, hran.since.handles]
          exact Finset.card_ne_zero.mpr (Finset.nonempty_iff_ne_empty.mpr hne)
        cases w with
        | false => exact .inl hsame
        | true => exact .inr ⟨rfl, hsame⟩
    · have hother := num_live (some dst) hsrc₁ (htarget.trans hb) fun heq => hself (Option.some.inj heq)
      rw [hran.since.weak src] at hother
      cases hws : (s.handle src).weak with
      | false => exact .inl (hws ▸ hother)
      | true =>
        -- no strong handle takes the value of a weak one
        refine .inr ⟨?_, hws ▸ hother⟩
        by_contra hw
        have hboth := hkind (by simpa using hw)
        rw [hws] at hboth
        cases hboth
  have hhandle : (s₁.setTarget dst (s.handle src).target).handle dst =
      { s₁.handle dst with target := (s.handle src).target } := setTarget_handle dst _
  have hwdst : (s₁.handle dst).weak = (s.handle dst).weak := hran.since.weak dst
  obtain ⟨s₂, hinc, hc₂, hlater⟩ := incRef_run hset (setTarget_live hdst₁)
    (fun b hb => by
      rw [hhandle] at hb ⊢
      rw [hnum, hnum, hwdst]
      exact hheld b hb)
    (fun b hb => by
      rw [hhandle] at hb ⊢
      rw [holders_setTarget, hwdst]
      exact (Nat.add_le_add_right (Finset.card_le_card hran.since.holders_subset) 1).trans_lt (hroom b hb))
  refine ⟨s₂, ?_, hc₂, hran.later.trans ⟨hlater.cells, hlater.destroyed, hlater.freed⟩⟩
  rw [hhandle] at hinc
  simp only [step, hrun, p_live hran.counted hsrc₁, p_live hran.counted hdst₁, htarget, hhandle, bind, Except.bind]
  exact hinc

/-- Nothing points at a block that is still to be made. -/
theorem holders_fresh (hc : Counted none [] none s) : s.holders none w s.cells = ∅ := by
  refine Finset.eq_empty_iff_forall_notMem.mpr fun i hi => ?_
  obtain ⟨hlt, hlive, -, htarget, -⟩ := mem_holders.mp hi
  exact Nat.lt_irrefl _ (hc.target i hlt hlive _ htarget)

/-- **A new block**, with the handle `cs_new` returns. -/
theorem csNew_run (order : DestroyOrder) {owner : Option Nat} (hc : Counted none [] none s) (hplace : s.Place owner) :
    ∃ s', s.step order (.csNew owner) = .ok s' ∧ Counted none [] none s' ∧ Later s s' := by
  set c : Cell := { strong := int32 (0 + 1) } with hcdef
  set made : Heap := { (s.setCell s.cells {}).setCell s.cells c with cells := s.cells + 1 } with hmade
  set hd : Handle := ⟨false, some s.cells, owner, true⟩ with hhd
  have hcell : ∀ b < s.cells, made.cell b = s.cell b := fun b hb => by
    simp [hmade, setCell, Nat.ne_of_lt hb]
  have hnew : made.cell s.cells = c := by
    simp [hmade, setCell]
  have hlater : Later s (made.push hd) :=
    ⟨Nat.le_succ _, fun b hb => Nat.le_of_eq (congrArg Cell.destroyed (hcell b hb).symm),
      fun b hb => Nat.le_of_eq (congrArg Cell.freed (hcell b hb).symm)⟩
  have hlive : (made.push hd).Live s.handles := push_live hd rfl
  have hholds : (made.push hd).holds s.handles = some (false, s.cells) :=
    holds_eq_some.mpr ⟨congrArg Handle.weak (push_handle hd), congrArg Handle.target (push_handle hd)⟩
  have hold : ∀ w b, b ≠ s.cells →
      (made.push hd).num (some s.handles) (some (false, s.cells)) w b = s.num none none w b := fun w b hne => by
    rw [num_owed_ne hne, num_none, num_none]
    exact congrArg Finset.card (holders_push hd)
  have hempty : ∀ w, (made.push hd).num (some s.handles) none w s.cells = 0 := fun w => by
    rw [num_none]
    exact (congrArg Finset.card (holders_push hd)).trans (Finset.card_eq_zero.mpr (holders_fresh hc))
  have hhandle : ∀ i < s.handles + 1, i ≠ s.handles → i < s.handles ∧ (made.push hd).handle i = s.handle i :=
    fun i hi hne => ⟨by omega, by simp [push, hmade, setCell, hne]⟩
  refine ⟨made.push hd, ?_, (counted_aside hlive).mpr ?_, hlater⟩
  · have hfreed : (({ s.setCell s.cells {} with cells := s.cells + 1 } : Heap).cell s.cells) = {} := by
      simp [setCell]
    have hcounters := counters_ok (congrArg Cell.freed hfreed)
    rw [hfreed] at hcounters
    simp only [step, incRef, hcounters, bind, Except.bind, Bool.false_eq_true, if_false]
    rfl
  · rw [hholds]
    refine ⟨fun b hb => ?_, fun b hb => absurd hb List.not_mem_nil, fun i hi hl b hb => ?_, fun i hi hl o ho => ?_⟩
    · by_cases hbb : b = s.cells
      · subst hbb
        rw [num_owed_self, hempty, show (made.push hd).num (some s.handles) (some (false, s.cells)) true s.cells = _
          from num_owed_other false]
        show (made.cell s.cells).Exact _ _ _
        rw [hnew]
        exact (hempty true).symm ▸ Cell.Exact.first
      · have hlt : b < s.cells := by
          have hb' : b < s.cells + 1 := hb
          omega
        rw [hold false b hbb, hold true b hbb]
        show (made.cell b).Exact _ _ _
        rw [hcell b hlt]
        exact hc.cell b hlt
    · by_cases hi' : i = s.handles
      · subst hi'
        have hb' : some s.cells = some b := (congrArg Handle.target (push_handle (s := made) hd)).symm.trans hb
        exact Option.some.inj hb' ▸ Nat.lt_succ_self _
      · obtain ⟨hlt, hsame⟩ := hhandle i hi hi'
        rw [hsame] at hl hb
        exact (hc.target i hlt hl b hb).trans (Nat.lt_succ_self _)
    · have hheld : o < s.cells → s.num none none false o ≠ 0 → o < made.cells ∧
          ((made.push hd).num (some s.handles) (some (false, s.cells)) false o ≠ 0 ∨ o ∈ []) := fun hlt hne =>
        ⟨hlt.trans (Nat.lt_succ_self _), .inl ((hold false o (Nat.ne_of_lt hlt)).symm ▸ hne)⟩
      by_cases hi' : i = s.handles
      · subst hi'
        obtain ⟨hlt, hdestroyed⟩ := hplace o ((congrArg Handle.owner (push_handle (s := made) hd)).symm.trans ho)
        exact hheld hlt (hc.alive hlt hdestroyed)
      · obtain ⟨hlt, hsame⟩ := hhandle i hi hi'
        rw [hsame] at hl ho
        obtain ⟨hlt', hne⟩ := hc.owner i hlt hl o ho
        exact hheld hlt' (hne.resolve_right List.not_mem_nil)

/-- **A move** hands over what the source holds. -/
theorem move_run (order : DestroyOrder) {src : Nat} {owner : Option Nat} (hc : Counted none [] none s)
    (hlive : s.Live src) (hplace : s.Place owner) :
    ∃ s', s.step order (.move src owner) = .ok s' ∧ Counted none [] none s' ∧ Later s s' := by
  set hd : Handle := ⟨(s.handle src).weak, (s.handle src).target, owner, true⟩ with hhd
  set moved : Heap := (s.push hd).setTarget src none with hmoved
  have hne : src ≠ s.handles := Nat.ne_of_lt hlive.1
  have hnew : moved.handle s.handles = hd := by
    simp [hmoved, Heap.setTarget, setHandle, Heap.push, hne.symm]
  have hsrc : moved.handle src = { s.handle src with target := none } := by
    rw [hmoved, setTarget_handle]
    simp [Heap.push, hne]
  have hold : ∀ i, i ≠ s.handles → i ≠ src → moved.handle i = s.handle i := fun i hn hs => by
    simp [hmoved, Heap.setTarget, setHandle, Heap.push, hn, hs]
  have hholders : ∀ w b, moved.holders (some s.handles) w b = s.holders (some src) w b := by
    intro w b
    ext i
    rw [mem_holders, mem_holders]
    by_cases hi : i = s.handles
    · simp [hi]
    · by_cases hi' : i = src
      · subst hi'
        simp [hsrc]
      · have hlt : i < moved.handles ↔ i < s.handles := by
          show i < s.handles + 1 ↔ _
          omega
        simp [hold i hi hi', hi, hi', hlt]
  have hholds : moved.holds s.handles = s.holds src := by
    rw [holds, holds, hnew]
  have hnum : ∀ w b, moved.num (some s.handles) (moved.holds s.handles) w b = s.num (some src) (s.holds src) w b :=
    fun w b => by rw [num, num, hholders, hholds]
  have hlive' : moved.Live s.handles := ⟨Nat.lt_succ_self _, by rw [hnew]⟩
  have haside := (counted_aside hlive).mp hc
  refine ⟨moved, ?_, (counted_aside hlive').mpr ⟨fun b hb => ?_, fun b hb => absurd hb List.not_mem_nil, fun i hi hl b hb => ?_,
    fun i hi hl o ho => ?_⟩, ⟨Nat.le_refl _, fun _ _ => Nat.le_refl _, fun _ _ => Nat.le_refl _⟩⟩
  · simp only [step, p_live hc hlive, bind, Except.bind]
    rfl
  · rw [hnum, hnum]
    exact haside.cell b hb
  · by_cases hn : i = s.handles
    · subst hn
      rw [hnew] at hb
      exact hc.target src hlive.1 hlive.2 b hb
    · by_cases hs : i = src
      · subst hs
        rw [hsrc] at hb
        cases hb
      · rw [hold i hn hs] at hl hb
        exact hc.target i (Nat.lt_of_le_of_ne (Nat.le_of_lt_succ hi) hn) hl b hb
  · rw [hnum]
    by_cases hn : i = s.handles
    · subst hn
      rw [hnew] at ho
      obtain ⟨hlt, hdestroyed⟩ := hplace o ho
      refine ⟨hlt, .inl fun hzero => ?_⟩
      have hone := (haside.cell o hlt).destroyed
      rw [hdestroyed, if_pos hzero] at hone
      cases hone
    · have hlt : i < s.handles := Nat.lt_of_le_of_ne (Nat.le_of_lt_succ hi) hn
      by_cases hs : i = src
      · subst hs
        rw [hsrc] at ho
        exact haside.owner i hlive.1 hlive.2 o ho
      · rw [hold i hn hs] at hl ho
        exact haside.owner i hlt hl o ho

theorem test_run (hc : Counted none [] none s) (hlive : s.Live h) :
    s.test (s.handle h).target =
      .ok (match (s.handle h).target with | none => false | some b => decide (0 < s.num none none false b)) := by
  cases ht : (s.handle h).target with
  | none => rfl
  | some b =>
    have hb := hc.target h hlive.1 hlive.2 b ht
    have hfreed := hc.freed_eq_zero hb (.inl ⟨_, num_live none hlive ht (by simp)⟩)
    have hstrong := (hc.cell b hb).strong
    simp only [test, counters_ok hfreed, bind, Except.bind, hstrong]
    norm_cast

theorem promote_run (order : DestroyOrder) {src : Nat} {owner : Option Nat} (hc : Counted none [] none s)
    (hlive : s.Live src) (hplace : s.Place owner) (hroom : s.Room none false (s.handle src).target) :
    ∃ s', s.step order (.promote src owner) = .ok s' ∧ Counted none [] none s' ∧ Later s s' := by
  have hp := p_live hc hlive
  have htest := test_run hc hlive
  cases halive : s.test (s.handle src).target with
  | error e => rw [htest] at halive; cases halive
  | ok alive =>
    cases alive with
    | false =>
      obtain ⟨s₁, hinc, hc₁, hlater⟩ := new_run ⟨false, none, owner, true⟩ hc rfl hplace
        (fun b hb => nomatch hb) (fun b hb => nomatch hb) fun b hb => nomatch hb
      obtain rfl : s = s₁ := Except.ok.inj hinc
      refine ⟨_, ?_, hc₁, hlater⟩
      simp only [step, hp, halive, bind, Except.bind]
      rfl
    | true =>
      have hheld : ∀ b, (s.handle src).target = some b → s.num none none false b ≠ 0 := fun b hb => by
        rw [htest, hb] at halive
        exact Nat.pos_iff_ne_zero.mp (of_decide_eq_true (Except.ok.inj halive))
      obtain ⟨s₁, hinc, hc₁, hlater⟩ := new_run ⟨false, (s.handle src).target, owner, true⟩ hc rfl hplace
        (hc.target src hlive.1 hlive.2) (fun b hb => .inl (hheld b hb)) hroom
      refine ⟨_, ?_, hc₁, hlater⟩
      simp only [step, hp, halive, bind, Except.bind, if_true]
      rw [hinc]
      rfl

/-- **Every operation keeps the counters exact**, where it is safe. -/
theorem step_run (order : DestroyOrder) {op : Op} (hc : Counted none [] none s) (hp : s.Possible op) (hs : s.Safe op) :
    ∃ s', s.step order op = .ok s' ∧ Counted none [] none s' ∧ Later s s' := by
  cases op with
  | empty weak owner =>
    obtain ⟨s₁, hinc, hc₁, hlater⟩ := new_run ⟨weak, none, owner, true⟩ hc rfl hp
      (fun b hb => nomatch hb) (fun b hb => nomatch hb) fun b hb => nomatch hb
    obtain rfl : s = s₁ := Except.ok.inj hinc
    exact ⟨_, rfl, hc₁, hlater⟩
  | csNew owner => exact csNew_run order hc hp
  | copy weak src owner =>
    obtain ⟨hlive, hkind, hplace⟩ := hp
    have hheld : ∀ b, (s.handle src).target = some b →
        s.num none none false b ≠ 0 ∨ weak = true ∧ s.num none none true b ≠ 0 := fun b hb => by
      have hne := num_live none hlive hb (by simp)
      cases hw : (s.handle src).weak with
      | false => exact .inl (hw ▸ hne)
      | true =>
        refine .inr ⟨?_, hw ▸ hne⟩
        by_contra hstrong
        rw [hkind (by simpa using hstrong)] at hw
        cases hw
    obtain ⟨s₁, hinc, hc₁, hlater⟩ := new_run ⟨weak, (s.handle src).target, owner, true⟩ hc rfl hplace
      (hc.target src hlive.1 hlive.2) hheld hs
    refine ⟨_, ?_, hc₁, hlater⟩
    simp only [step, p_live hc hlive, bind, Except.bind]
    rw [hinc]
    rfl
  | move src owner => exact move_run order hc hp.1 hp.2
  | promote src owner => exact promote_run order hc hp.1 hp.2.2 hs
  | test h =>
    refine ⟨s, ?_, hc, Later.refl s⟩
    simp only [step, p_live hc hp.1, test_run hc hp.1, bind, Except.bind]
    rfl
  | assign dst src => exact assign_run order hc hp hs
  | reset h => exact reset_run order hc hp.1 hs
  | destroy h => exact destroy_handle_run order hc hp hs

theorem counted_empty : Counted none [] none {} := by
  constructor
  · exact fun b hb => absurd hb (Nat.not_lt_zero b)
  · exact fun b hb => absurd hb List.not_mem_nil
  · exact fun i hi => absurd hi (Nat.not_lt_zero i)
  · exact fun i hi => absurd hi (Nat.not_lt_zero i)

/-- The counters over a whole program. -/
theorem run_counted (order : DestroyOrder) : ∀ {ops : List Op} {s : Heap}, Counted none [] none s →
    AllSteps order (fun s op => s.Possible op ∧ s.Safe op) s ops →
    ∃ s', s.run order ops = .ok s' ∧ Counted none [] none s'
  | [], s, hc, _ => ⟨s, rfl, hc⟩
  | op :: ops, s, hc, hall => by
    obtain ⟨s₁, hstep, hc₁, -⟩ := step_run order hc hall.1.1 hall.1.2
    obtain ⟨s', hrun, hc'⟩ := run_counted order hc₁ (hall.2 s₁ hstep)
    refine ⟨s', ?_, hc'⟩
    rw [run, List.foldlM_cons, hstep]
    exact hrun

theorem allSteps_append {order : DestroyOrder} {P : Heap → Op → Prop} : ∀ {pre post : List Op} {s : Heap},
    AllSteps order P s (pre ++ post) →
      AllSteps order P s pre ∧ ∀ s', s.run order pre = .ok s' → AllSteps order P s' post
  | [], post, s, h => ⟨trivial, fun s' hs' => Except.ok.inj hs' ▸ h⟩
  | op :: pre, post, s, h => by
    have hrest := fun s' hs' => allSteps_append (h.2 s' hs')
    refine ⟨⟨h.1, fun s' hs' => (hrest s' hs').1⟩, fun s' hs' => ?_⟩
    rw [run, List.foldlM_cons] at hs'
    cases hstep : s.step order op with
    | error e =>
      rw [hstep] at hs'
      cases hs'
    | ok s₁ =>
      rw [hstep] at hs'
      exact (hrest s₁ hstep).2 s' hs'

/-- **Reference counting is exact** in every state of a program whose operations are all safe,
and what is destroyed or freed is so for good. -/
theorem counts_exact_of_safe (order : DestroyOrder) {ops : List Op}
    (hall : AllSteps order (fun s op => s.Possible op ∧ s.Safe op) {} ops) :
    ∀ pre post, ops = pre ++ post → ∃ s, run order {} pre = .ok s ∧ s.Exact ∧
      ∀ op rest, post = op :: rest → ∃ s', s.step order op = .ok s' ∧ Later s s' := by
  intro pre post hops
  subst hops
  obtain ⟨hpre, hpost⟩ := allSteps_append hall
  obtain ⟨s, hrun, hc⟩ := run_counted order counted_empty hpre
  refine ⟨s, hrun, hc.exact, fun op rest heq => ?_⟩
  subst heq
  obtain ⟨hp, hs⟩ := (hpost s hrun).1
  obtain ⟨s', hstep, -, hlater⟩ := step_run order hc hp hs
  exact ⟨s', hstep, hlater⟩

/-- An object with a part that points at another, which has a weak handle back; then the only
variable is reset. -/
def backReference : List Op := [.csNew none, .csNew (some 0), .copy true 0 (some 1), .reset 0]

theorem counts_exact_of_safe_backReference : ∃ s, run .backwards {} backReference = .ok s ∧ s.Exact := by
  have hsafe : AllSteps .backwards (fun s op => s.Possible op ∧ s.Safe op) {} backReference := by
    refine ⟨⟨fun o ho => (nomatch ho), trivial⟩, fun s₁ h₁ => ?_⟩
    obtain rfl := Except.ok.inj h₁
    refine ⟨⟨fun o ho => ?_, trivial⟩, fun s₂ h₂ => ?_⟩
    · cases ho
      decide
    obtain rfl := Except.ok.inj h₂
    refine ⟨⟨⟨by decide, fun hw => (nomatch hw), fun o ho => ?_⟩, fun b hb => ?_⟩, fun s₃ h₃ => ?_⟩
    · cases ho
      decide
    · cases hb
      decide
    obtain rfl := Except.ok.inj h₃
    exact ⟨⟨⟨by decide, rfl⟩, fun o ho => nomatch ho⟩, fun _ _ => trivial⟩
  obtain ⟨s, hrun, hexact, -⟩ := counts_exact_of_safe .backwards hsafe backReference [] (List.append_nil _).symm
  exact ⟨s, hrun, hexact⟩

/-- **The last handle assigned to itself** is released first, and the counter of the freed block is
counted up. -/
theorem counts_exact_fails :
    ¬ ∀ (order : DestroyOrder) (ops : List Op), AllSteps order Possible {} ops →
      ∃ s, run order {} ops = .ok s ∧ s.Exact := by
  intro h
  have hpossible : AllSteps .backwards Possible {} [.csNew none, .assign 0 0] := by
    refine ⟨fun o ho => (nomatch ho), fun s₁ h₁ => ?_⟩
    obtain rfl := Except.ok.inj h₁
    exact ⟨⟨by decide, by decide, fun hw => hw⟩, fun _ _ => trivial⟩
  obtain ⟨s, hrun, -⟩ := h .backwards _ hpossible
  have hfault : run .backwards {} [.csNew none, .assign 0 0] = .error .freed := rfl
  rw [hfault] at hrun
  cases hrun

-- the head of a list is replaced by what follows it, which is part of the head
example : (run .backwards {} [.csNew none, .csNew (some 0), .assign 0 1]).toOption.isNone = true := rfl

end Heap
end Cornerstone.Ptr
