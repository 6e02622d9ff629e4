import Mathlib.Data.List.Infix
import Mathlib.Tactic.Common

/-! # Splicing a list into another

Two lists of keyed items are compared from the front, by their keys alone.
Where the second goes on differently, or beyond the end of the first, it replaces
the rest of the first; if it runs out first, the first list stays as it is.
This is how a replica of a log takes in the entries it is sent.
-/

namespace Splice

variable {α κ : Type} [DecidableEq κ] (key : α → κ)

/-- How many items two lists agree on from the front, as far as keys tell. -/
def overlap : List α → List α → Nat
  | a :: as, b :: bs => if key a = key b then overlap as bs + 1 else 0
  | _, _ => 0

/-- `old` after taking in `new`. -/
def splice (old new : List α) : List α :=
  if new.drop (overlap key old new) = [] then old
  else old.take (overlap key old new) ++ new.drop (overlap key old new)

variable {key}

@[simp] theorem overlap_nil_left (new : List α) : overlap key [] new = 0 := by
  cases new <;> rfl

@[simp] theorem overlap_nil_right (old : List α) : overlap key old [] = 0 := by
  cases old <;> rfl

theorem overlap_cons_of_eq {a b : α} (h : key a = key b) (as bs : List α) :
    overlap key (a :: as) (b :: bs) = overlap key as bs + 1 := by
  rw [overlap, if_pos h]

theorem overlap_cons_of_ne {a b : α} (h : key a ≠ key b) (as bs : List α) :
    overlap key (a :: as) (b :: bs) = 0 := by
  rw [overlap, if_neg h]

theorem overlap_le_left : ∀ old new : List α, overlap key old new ≤ old.length
  | [], new => by simp
  | a :: as, [] => by simp
  | a :: as, b :: bs => by
    have ih := overlap_le_left as bs
    rw [overlap]
    split
    · simpa using ih
    · simp

theorem overlap_le_right : ∀ old new : List α, overlap key old new ≤ new.length
  | [], new => by simp
  | a :: as, [] => by simp
  | a :: as, b :: bs => by
    have ih := overlap_le_right as bs
    rw [overlap]
    split
    · simpa using ih
    · simp

/-- Where the overlap ends inside both lists the keys differ. -/
theorem key_ne_of_overlap : ∀ {old new : List α} {a b : α},
    old[overlap key old new]? = some a → new[overlap key old new]? = some b → key a ≠ key b
  | [], new, a, b, ha, _ => by simp at ha
  | a' :: as, [], a, b, _, hb => by simp at hb
  | a' :: as, b' :: bs, a, b, ha, hb => by
    by_cases h : key a' = key b'
    · rw [overlap_cons_of_eq h] at ha hb
      exact key_ne_of_overlap ha hb
    · rw [overlap_cons_of_ne h] at ha hb
      simp only [List.getElem?_cons_zero, Option.some.injEq] at ha hb
      rwa [← ha, ← hb]

/-- Inside the overlap the keys agree. -/
theorem key_eq_of_lt_overlap : ∀ {old new : List α} {i : Nat}, i < overlap key old new →
    (old[i]?).map key = (new[i]?).map key
  | [], new, i, h => by simp at h
  | a :: as, [], i, h => by simp at h
  | a :: as, b :: bs, i, h => by
    by_cases hk : key a = key b
    · rw [overlap_cons_of_eq hk] at h
      cases i with
      | zero => simp [hk]
      | succ i => simpa using key_eq_of_lt_overlap (Nat.lt_of_succ_lt_succ h)
    · rw [overlap_cons_of_ne hk] at h
      omega

/-! ## What splicing makes -/

/-- The keys agree wherever both lists have an item. -/
def Agrees (key : α → κ) (old new : List α) : Prop :=
  ∀ (i : Nat) (a b : α), old[i]? = some a → new[i]? = some b → key a = key b

/-- The first place where the keys differ. -/
structure FirstConflict (key : α → κ) (old new : List α) (j : Nat) : Prop where
  differs : ∃ a b, old[j]? = some a ∧ new[j]? = some b ∧ key a ≠ key b
  before : ∀ i < j, ∀ a b, old[i]? = some a → new[i]? = some b → key a = key b

variable {old new : List α}

theorem agree_before_overlap {i : Nat} {a b : α} (h : i < overlap key old new) (ha : old[i]? = some a)
    (hb : new[i]? = some b) : key a = key b := by
  have heq := key_eq_of_lt_overlap h
  rw [ha, hb] at heq
  exact Option.some.inj heq

/-- Splicing only adds what lies beyond the end, or replaces everything from the first
conflict on. -/
theorem splice_cases (old new : List α) :
    Agrees key old new ∧ splice key old new = old ++ new.drop old.length ∨
      ∃ j, FirstConflict key old new j ∧ splice key old new = old.take j ++ new.drop j := by
  have hleft := @overlap_le_left _ _ _ key old new
  have hright := @overlap_le_right _ _ _ key old new
  by_cases hnew : overlap key old new = new.length
  · refine .inl ⟨fun i a b ha hb => agree_before_overlap ?_ ha hb, ?_⟩
    · rw [hnew]
      exact (List.getElem?_eq_some_iff.mp hb).1
    · rw [splice, if_pos (List.drop_eq_nil_of_le (Nat.le_of_eq hnew.symm)), List.drop_eq_nil_of_le (by omega),
        List.append_nil]
  have hsome : new.drop (overlap key old new) ≠ [] := by
    rw [Ne, List.drop_eq_nil_iff]
    omega
  by_cases hold : overlap key old new = old.length
  · refine .inl ⟨fun i a b ha hb => agree_before_overlap ?_ ha hb, ?_⟩
    · rw [hold]
      exact (List.getElem?_eq_some_iff.mp ha).1
    · rw [splice, if_neg hsome, hold, List.take_length]
  · refine .inr ⟨overlap key old new, ⟨?_, fun i hi a b ha hb => agree_before_overlap hi ha hb⟩, ?_⟩
    · have ha := List.getElem?_eq_getElem (l := old) (i := overlap key old new) (by omega)
      have hb := List.getElem?_eq_getElem (l := new) (i := overlap key old new) (by omega)
      exact ⟨_, _, ha, hb, key_ne_of_overlap ha hb⟩
    · rw [splice, if_neg hsome]

/-- Where both lists have items their keys agree after splicing. -/
theorem splice_keys (old new : List α) :
    ∀ (i : Nat) (b : α), new[i]? = some b → ((splice key old new)[i]?).map key = some (key b) := by
  intro i b hb
  have hi := (List.getElem?_eq_some_iff.mp hb).1
  have hleft := @overlap_le_left _ _ _ key old new
  by_cases hlt : i < overlap key old new
  · have hold : i < old.length := by omega
    have hkey := agree_before_overlap hlt (List.getElem?_eq_getElem hold) hb
    unfold splice
    split
    · rw [List.getElem?_eq_getElem hold, Option.map_some, hkey]
    · rw [List.getElem?_append_left (by rw [List.length_take]; omega), List.getElem?_take_of_lt hlt,
        List.getElem?_eq_getElem hold, Option.map_some, hkey]
  · have hsome : new.drop (overlap key old new) ≠ [] := by
      rw [Ne, List.drop_eq_nil_iff]
      omega
    have hlen : (old.take (overlap key old new)).length = overlap key old new := by
      rw [List.length_take]
      omega
    rw [splice, if_neg hsome, List.getElem?_append_right (by omega), hlen, List.getElem?_drop,
      Nat.add_sub_cancel' (by omega), hb, Option.map_some]

/-- A list agrees up to the length of another if its keys do. -/
theorem overlap_eq_length : ∀ {old new : List α},
    (∀ (i : Nat) (b : α), new[i]? = some b → (old[i]?).map key = some (key b)) → overlap key old new = new.length
  | old, [], _ => overlap_nil_right old
  | [], b :: bs, h => by simpa using h 0 b rfl
  | a :: as, b :: bs, h => by
    have hk : key a = key b := by simpa using h 0 b rfl
    have ih := @overlap_eq_length as bs fun i b' hb' => by simpa using h (i + 1) b' hb'
    rw [overlap_cons_of_eq hk, ih, List.length_cons]

/-- Taking in the same items again changes nothing. -/
theorem overlap_splice (old new : List α) : overlap key (splice key old new) new = new.length :=
  overlap_eq_length (splice_keys old new)

/-- What a list has already changes nothing. -/
theorem splice_of_isPrefix (h : new <+: old) : splice key old new = old := by
  have hall : overlap key old new = new.length := overlap_eq_length fun i b hb => by
    obtain ⟨rest, rfl⟩ := h
    rw [List.getElem?_append_left (List.getElem?_eq_some_iff.mp hb).1, hb, Option.map_some]
  rw [splice, hall, List.drop_length, if_pos rfl]

/-! ## Lists that match -/

/-- Items with the same key at one place have the same items before them. -/
def Matched (key : α → κ) (l f : List α) : Prop :=
  ∀ (i : Nat) (a b : α), l[i]? = some a → f[i]? = some b → key a = key b →
    l.take (i + 1) = f.take (i + 1)

variable {l f : List α} {m k j : Nat}

/-- Lists that match and agree up to `m` agree as far as the keys behind `m` do. -/
theorem Matched.take_overlap (h : Matched key l f) (hpre : l.take m = f.take m)
    (hj : j ≤ overlap key (f.drop m) ((l.drop m).take k)) : l.take (m + j) = f.take (m + j) := by
  cases j with
  | zero => exact hpre
  | succ i =>
    have hf : i < (f.drop m).length := Nat.lt_of_lt_of_le hj (overlap_le_left _ _)
    have hl : i < ((l.drop m).take k).length := Nat.lt_of_lt_of_le hj (overlap_le_right _ _)
    have hkey := key_eq_of_lt_overlap hj
    rw [List.getElem?_eq_getElem hf, List.getElem?_eq_getElem hl, Option.map_some, Option.map_some,
      Option.some.injEq, List.getElem_drop, List.getElem_take, List.getElem_drop] at hkey
    exact h (m + i) _ _ (List.getElem?_eq_getElem _) (List.getElem?_eq_getElem _) hkey.symm

/-- A piece of `l` spliced into `f` behind a common part changes nothing, since `f`
has it already, or leaves a beginning of `l`. -/
theorem Matched.splice (h : Matched key l f) (hpre : l.take m = f.take m) (hk : m + k ≤ l.length) :
    f.take m ++ splice key (f.drop m) ((l.drop m).take k) = f ∧ l.take (m + k) = f.take (m + k) ∨
      f.take m ++ splice key (f.drop m) ((l.drop m).take k) = l.take (m + k) := by
  have hlen : ((l.drop m).take k).length = k := by
    rw [List.length_take, List.length_drop]
    omega
  unfold Splice.splice
  split
  · rename_i hnil
    have hge := List.drop_eq_nil_iff.mp hnil
    refine .inl ⟨List.take_append_drop m f, h.take_overlap (k := k) hpre ?_⟩
    omega
  · refine .inr ?_
    have hov : overlap key (f.drop m) ((l.drop m).take k) ≤ ((l.drop m).take k).length :=
      overlap_le_right _ _
    generalize hj : overlap key (f.drop m) ((l.drop m).take k) = j at hov
    have htake := h.take_overlap hpre (j := j) (Nat.le_of_eq hj.symm)
    rw [← List.append_assoc, ← List.take_add, ← htake, List.drop_take, List.drop_drop, ← List.take_add]
    congr 1
    omega

/-- Whether it changes anything depends on whether the beginning of `l` is there. -/
theorem Matched.splice_cases (h : Matched key l f) (hpre : l.take m = f.take m) (hk : m + k ≤ l.length) :
    l.take (m + k) <+: f ∧ f.take m ++ Splice.splice key (f.drop m) ((l.drop m).take k) = f ∨
      ¬ l.take (m + k) <+: f ∧ f.take m ++ Splice.splice key (f.drop m) ((l.drop m).take k) = l.take (m + k) := by
  by_cases hp : l.take (m + k) <+: f
  · refine .inl ⟨hp, ?_⟩
    have hpart : (l.drop m).take k <+: f.drop m := by
      have hdrop := hp.drop m
      rwa [List.drop_take, Nat.add_sub_cancel_left] at hdrop
    rw [splice_of_isPrefix hpart, List.take_append_drop]
  · refine .inr ⟨hp, ?_⟩
    rcases h.splice hpre hk with ⟨-, htake⟩ | hnew
    · exact absurd (htake ▸ List.take_prefix _ _) hp
    · exact hnew

omit [DecidableEq κ] in
/-- What is left of a list still matches. -/
theorem matched_take (l : List α) (n : Nat) : Matched key l (l.take n) := by
  intro i a b _ hb _
  have hlt : i < (l.take n).length := (List.getElem?_eq_some_iff.mp hb).1
  rw [List.length_take] at hlt
  rw [List.take_take, Nat.min_eq_left (by omega)]

end Splice
