import Mathlib.Data.List.Sort

/-! # Majorities of a list

More than half of the members of a list, counted with repetition: two majorities
meet, and the value at position `k` of a list in descending order is the largest
one that more than `k` members reach.
-/

variable {α : Type}

/-- More than half of the members of `l` satisfy `p`. -/
def Majority (l : List α) (p : α → Bool) : Prop := l.length / 2 < l.countP p

namespace Majority
variable {l : List α} {p q : α → Bool}

theorem mono (h : Majority l p) (hpq : ∀ a ∈ l, p a → q a) : Majority l q :=
  lt_of_lt_of_le h (List.countP_mono_left hpq)

/-- Counting twice counts what is common twice. -/
theorem countP_add_countP_le (l : List α) (p q : α → Bool) :
    l.countP p + l.countP q ≤ l.length + l.countP fun a => p a && q a := by
  induction l with
  | nil => simp
  | cons a l ih =>
    simp only [List.countP_cons, List.length_cons, Bool.and_eq_true]
    by_cases hp : p a <;> by_cases hq : q a <;> simp [hp, hq] <;> omega

/-- **Two majorities meet.** -/
theorem inter (hp : Majority l p) (hq : Majority l q) : ∃ a ∈ l, p a ∧ q a := by
  have hsum := countP_add_countP_le l p q
  have hpos : 0 < l.countP fun a => p a && q a := by
    unfold Majority at hp hq
    omega
  obtain ⟨a, ha, hpq⟩ := List.countP_pos_iff.mp hpos
  exact ⟨a, ha, by simpa using hpq⟩

/-- Some member is in a majority. -/
theorem exists_mem (h : Majority l p) : ∃ a ∈ l, p a := by
  obtain ⟨a, ha, hp, -⟩ := inter h h
  exact ⟨a, ha, hp⟩

/-- In a list in descending order the value at position `k` is at least `n`
exactly if more than `k` members are. -/
theorem le_getElem_iff {l : List Nat} (hl : l.Pairwise (· ≥ ·)) {k : Nat} (hk : k < l.length)
    (n : Nat) : n ≤ l[k] ↔ k < l.countP (n ≤ ·) := by
  induction l generalizing k with
  | nil => simp at hk
  | cons a l ih =>
    obtain ⟨ha, hl'⟩ := List.pairwise_cons.mp hl
    rw [List.countP_cons]
    cases k with
    | zero =>
      rw [List.getElem_cons_zero]
      constructor
      · intro h
        simp [h]
      · intro h
        by_contra hlt
        obtain ⟨b, hb, hnb⟩ : ∃ b ∈ l, n ≤ b := by
          have : 0 < l.countP (n ≤ ·) := by simpa [hlt] using h
          simpa using List.countP_pos_iff.mp this
        exact hlt (hnb.trans (ha b hb))
    | succ k =>
      have hk' : k < l.length := by simpa using hk
      have hmem : l[k] ≤ a := ha _ (List.getElem_mem hk')
      rw [List.getElem_cons_succ, ih hl' hk']
      by_cases hn : n ≤ a
      · simp [hn]
      · have hno : ¬ k < l.countP (n ≤ ·) := fun h => hn (((ih hl' hk').mpr h).trans hmem)
        simp only [hn]
        constructor
        · intro h
          exact absurd h hno
        · intro h
          exact absurd (show k < l.countP (n ≤ ·) by simp at h; omega) hno

/-- The same for a list put in descending order. -/
theorem le_getD_insertionSort_iff {l : List Nat} {k : Nat} (hk : k < l.length) (n : Nat) :
    n ≤ (l.insertionSort (· ≥ ·)).getD k 0 ↔ k < l.countP (n ≤ ·) := by
  have hperm := List.perm_insertionSort (· ≥ ·) l
  have hk' : k < (l.insertionSort (· ≥ ·)).length := by rwa [hperm.length_eq]
  rw [List.getD_eq_getElem?_getD, List.getElem?_eq_getElem hk', Option.getD_some,
    le_getElem_iff (List.pairwise_insertionSort (· ≥ ·) l) hk' n, hperm.countP_eq]

end Majority
