import Cornerstone.LittleEndian

/-! # A data file with an index of offsets

Segments of bytes laid out one behind the other in a data file, and an index file with
one 8-byte word for each, the offset at which it starts.  A segment ends where the next
one starts, the last one at the end of the data file.  Reading past the end of a file
fails.

`offsets` runs along the segments with the offset reached so far, so that facts about
the layout go by induction on the segments; the index file is `encode` of it.
-/

namespace OffsetFile
open LittleEndian

/-! ## Files -/

/-- Read `n` bytes at a position. -/
def readAt (f : List UInt8) (pos n : Nat) : Option (List UInt8) :=
  if pos + n ≤ f.length then some ((f.drop pos).take n) else none

/-- Write at a position: what stands there is overwritten, what follows stays, and a gap
before it is filled with zeros. -/
def overwrite (f : List UInt8) (pos : Nat) (bs : List UInt8) : List UInt8 :=
  f.take pos ++ (List.replicate (pos - f.length) 0 ++ (bs ++ f.drop (pos + bs.length)))

/-- Read the word at a position. -/
def readWord (f : List UInt8) (pos : Nat) : Option Nat := (readAt f pos 8).map leNat

theorem readAt_append (a b c : List UInt8) : readAt (a ++ (b ++ c)) a.length b.length = some b := by
  simp [readAt]

/-- Writing inside a file or at its end. -/
theorem overwrite_append (a b bs : List UInt8) :
    overwrite (a ++ b) a.length bs = a ++ (bs ++ b.drop bs.length) := by
  have hgap : a.length - (a ++ b).length = 0 := by
    rw [List.length_append]
    omega
  rw [overwrite, hgap, List.take_left, List.drop_append, List.drop_eq_nil_of_le (by omega)]
  simp

theorem overwrite_length {f : List UInt8} {pos : Nat} {bs : List UInt8} (h : pos + bs.length ≤ f.length) :
    (overwrite f pos bs).length = f.length := by
  simp only [overwrite, List.length_append, List.length_take, List.length_replicate, List.length_drop]
  omega

/-- One byte, and then the ones behind it. -/
theorem overwrite_cons {f : List UInt8} {pos : Nat} (h : pos < f.length) (x : UInt8) (bs : List UInt8) :
    overwrite (overwrite f pos [x]) (pos + 1) bs = overwrite f pos (x :: bs) := by
  obtain ⟨front, y, rest, rfl, rfl⟩ : ∃ front y rest, f = front ++ y :: rest ∧ front.length = pos :=
    ⟨f.take pos, f[pos], f.drop (pos + 1), by rw [← List.drop_eq_getElem_cons h, List.take_append_drop],
      List.length_take_of_le h.le⟩
  have hone : overwrite (front ++ y :: rest) front.length [x] = (front ++ [x]) ++ rest := by
    rw [overwrite_append]
    simp
  have hlen : front.length + 1 = (front ++ [x]).length := by rw [List.length_append, List.length_singleton]
  rw [hone, hlen, overwrite_append, overwrite_append]
  simp

/-! ## Offsets -/

/-- Where each segment starts, the first of them at `base`. -/
def offsets (base : Nat) : List (List UInt8) → List Nat
  | [] => []
  | seg :: segs => base :: offsets (base + seg.length) segs

variable {base : Nat} {segs : List (List UInt8)}

@[simp] theorem offsets_length (base : Nat) (segs : List (List UInt8)) :
    (offsets base segs).length = segs.length := by
  induction segs generalizing base with
  | nil => rfl
  | cons seg segs ih => simp [offsets, ih]

theorem offsets_append (base : Nat) (xs ys : List (List UInt8)) :
    offsets base (xs ++ ys) = offsets base xs ++ offsets (base + xs.flatten.length) ys := by
  induction xs generalizing base with
  | nil => simp [offsets]
  | cons x xs ih =>
    rw [List.cons_append, offsets, ih, offsets, List.flatten_cons, List.length_append, Nat.add_assoc,
      List.cons_append]

theorem offsets_shift (base k : Nat) (segs : List (List UInt8)) :
    offsets (base + k) segs = (offsets base segs).map (· + k) := by
  induction segs generalizing base with
  | nil => rfl
  | cons seg segs ih =>
    rw [offsets, offsets, List.map_cons, ← ih, Nat.add_right_comm]

theorem offsets_le {o : Nat} (h : o ∈ offsets base segs) : o ≤ base + segs.flatten.length := by
  induction segs generalizing base with
  | nil => cases h
  | cons seg segs ih =>
    rw [List.flatten_cons, List.length_append]
    rcases List.mem_cons.mp h with rfl | h
    · omega
    · have := ih h
      omega

theorem offsets_take (base n : Nat) (segs : List (List UInt8)) :
    (offsets base segs).take n = offsets base (segs.take n) := by
  induction segs generalizing base n with
  | nil => rw [List.take_nil, offsets, List.take_nil]
  | cons seg segs ih =>
    cases n with
    | zero => rfl
    | succ n => rw [offsets, List.take_succ_cons, ih, List.take_succ_cons, offsets]

theorem offsets_drop (n : Nat) (segs : List (List UInt8)) :
    (offsets base segs).drop n = offsets (base + (segs.take n).flatten.length) (segs.drop n) := by
  rcases Nat.le_total n segs.length with h | h
  · conv_lhs => rw [← List.take_append_drop n segs, offsets_append]
    exact List.drop_left' (by rw [offsets_length, List.length_take_of_le h])
  · rw [List.drop_eq_nil_of_le h, List.drop_eq_nil_of_le (by rwa [offsets_length])]
    rfl

/-- The offset of the segment behind `xs`. -/
theorem offsets_get (base : Nat) (xs : List (List UInt8)) (y : List UInt8) (ys : List (List UInt8)) :
    (offsets base (xs ++ y :: ys))[xs.length]? = some (base + xs.flatten.length) := by
  rw [offsets_append, List.getElem?_append_right (by simp), offsets_length, Nat.sub_self]
  rfl

/-! ## Bytes behind the last segment -/

/-- The segments with bytes behind the last of them. -/
def padLast (rest : List UInt8) : List (List UInt8) → List (List UInt8)
  | [] => []
  | [seg] => [seg ++ rest]
  | seg :: seg' :: segs => seg :: padLast rest (seg' :: segs)

@[simp] theorem padLast_nil (segs : List (List UInt8)) : padLast [] segs = segs := by
  fun_induction padLast [] segs with
  | case1 => rfl
  | case2 seg => rw [List.append_nil]
  | case3 seg seg' segs ih => rw [ih]

@[simp] theorem padLast_length (rest : List UInt8) (segs : List (List UInt8)) :
    (padLast rest segs).length = segs.length := by
  fun_induction padLast rest segs with
  | case1 => rfl
  | case2 seg => rfl
  | case3 seg seg' segs ih => exact congrArg (· + 1) ih

theorem offsets_padLast (base : Nat) (rest : List UInt8) (segs : List (List UInt8)) :
    offsets base (padLast rest segs) = offsets base segs := by
  fun_induction padLast rest segs generalizing base with
  | case1 => rfl
  | case2 seg => rfl
  | case3 seg seg' segs ih => exact congrArg (base :: ·) (ih _)

theorem padLast_flatten {rest : List UInt8} {segs : List (List UInt8)} (h : segs = [] → rest = []) :
    (padLast rest segs).flatten = segs.flatten ++ rest := by
  fun_induction padLast rest segs with
  | case1 => exact (h rfl).symm
  | case2 seg => simp
  | case3 seg seg' segs ih =>
    rw [List.flatten_cons, ih nofun, ← List.append_assoc]
    rfl

/-! ## The index file -/

/-- The words of an index file. -/
def encode (os : List Nat) : List UInt8 := os.flatMap (leBytes 8)

@[simp] theorem encode_nil : encode [] = [] := rfl

theorem encode_append (xs ys : List Nat) : encode (xs ++ ys) = encode xs ++ encode ys :=
  List.flatMap_append

@[simp] theorem encode_length (os : List Nat) : (encode os).length = 8 * os.length := by
  induction os with
  | nil => rfl
  | cons o os ih =>
    rw [encode, List.flatMap_cons, List.length_append, leBytes_length, ← encode, ih, List.length_cons]
    omega

theorem encode_singleton (o : Nat) : encode [o] = leBytes 8 o := List.append_nil _

theorem encode_drop (os : List Nat) (k : Nat) : (encode os).drop (8 * k) = encode (os.drop k) := by
  rcases Nat.le_total k os.length with h | h
  · have hlen : 8 * k = (encode (os.take k)).length := by
      rw [encode_length, List.length_take, Nat.min_eq_left h]
    conv_lhs => rw [← List.take_append_drop k os, encode_append, hlen]
    exact List.drop_left
  · rw [List.drop_eq_nil_of_le h, encode_nil]
    refine List.drop_eq_nil_of_le ?_
    rw [encode_length]
    omega

theorem encode_take (os : List Nat) (k : Nat) : (encode os).take (8 * k) = encode (os.take k) := by
  rcases Nat.le_total k os.length with h | h
  · have hlen : 8 * k = (encode (os.take k)).length := by
      rw [encode_length, List.length_take, Nat.min_eq_left h]
    conv_lhs => rw [← List.take_append_drop k os, encode_append, hlen]
    exact List.take_left
  · rw [List.take_of_length_le h]
    refine List.take_of_length_le ?_
    rw [encode_length]
    omega

/-- A word of the index file. -/
theorem readWord_encode {os : List Nat} {k o : Nat} (h : os[k]? = some o) (ho : o < 256 ^ 8) :
    readWord (encode os) (8 * k) = some o := by
  obtain ⟨hk, rfl⟩ := List.getElem?_eq_some_iff.mp h
  have hdrop : (encode os).drop (8 * k) = leBytes 8 os[k] ++ encode (os.drop (k + 1)) := by
    rw [encode_drop, List.drop_eq_getElem_cons hk]
    rfl
  rw [readWord, readAt, if_pos (by rw [encode_length]; omega), hdrop, Option.map_some,
    List.take_left' (leBytes_length _ _), leNat_leBytes, Nat.mod_eq_of_lt ho]

/-! ## Segments -/

/-- The bytes of a segment. -/
theorem readAt_segment (xs : List (List UInt8)) (y : List UInt8) (ys : List (List UInt8)) :
    readAt (xs ++ y :: ys).flatten xs.flatten.length y.length = some y := by
  rw [List.flatten_append, List.flatten_cons]
  exact readAt_append _ _ _

/-- Overwriting from the start of a segment on. -/
theorem overwrite_segments (xs ys : List (List UInt8)) (bs : List UInt8) :
    overwrite (xs ++ ys).flatten xs.flatten.length bs =
      xs.flatten ++ (bs ++ ys.flatten.drop bs.length) := by
  rw [List.flatten_append]
  exact overwrite_append _ _ _

end OffsetFile
