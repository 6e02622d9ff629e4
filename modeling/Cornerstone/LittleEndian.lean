import Mathlib.Tactic.Common
import Mathlib.Tactic.Ring
import Mathlib.Tactic.NormNum

/-! # Little-endian fields and readers

Fixed-width unsigned fields, least significant byte first, and readers over the
unread part of a byte string.  A reader returns what it decoded together with
what is left, or `none` when the bytes run out; an encoder followed by its
reader gives the value back and leaves exactly what was not its own
(`readLE_leBytes`), so readers compose without length prefixes.
-/

namespace LittleEndian

/-- The `k` low bytes of `n`, least significant first. -/
def leBytes : Nat → Nat → List UInt8
  | 0, _ => []
  | k + 1, n => UInt8.ofNat n :: leBytes k (n / 256)

/-- The number a little-endian byte string stands for. -/
def leNat : List UInt8 → Nat
  | [] => 0
  | b :: bs => b.toNat + 256 * leNat bs

/-- Read `k` bytes off the front. -/
def readBytes (k : Nat) (bs : List UInt8) : Option (List UInt8 × List UInt8) :=
  if bs.length < k then none else some (bs.take k, bs.drop k)

/-- Read a `k`-byte field. -/
def readLE (k : Nat) (bs : List UInt8) : Option (Nat × List UInt8) :=
  (readBytes k bs).map fun p => (leNat p.1, p.2)

@[simp] theorem leBytes_length (k n : Nat) : (leBytes k n).length = k := by
  induction k generalizing n with
  | zero => rfl
  | succ k ih => simp [leBytes, ih]

theorem leNat_leBytes (k n : Nat) : leNat (leBytes k n) = n % 256 ^ k := by
  induction k generalizing n with
  | zero => simp [leBytes, leNat, Nat.mod_one]
  | succ k ih =>
    have hb : (UInt8.ofNat n).toNat = n % 256 := UInt8.toNat_ofNat'
    rw [leBytes, leNat, ih, hb, Nat.pow_succ, Nat.mul_comm (256 ^ k) 256, Nat.mod_mul]

/-- A byte string is the field of the number it stands for. -/
theorem leBytes_leNat (bs : List UInt8) : leBytes bs.length (leNat bs) = bs := by
  induction bs with
  | nil => rfl
  | cons b bs ih =>
    have hb : b.toNat < 256 := b.toNat_lt
    have hlow : UInt8.ofNat (b.toNat + 256 * leNat bs) = b := by
      apply UInt8.toNat_inj.mp
      rw [UInt8.toNat_ofNat']
      omega
    have hhigh : (b.toNat + 256 * leNat bs) / 256 = leNat bs := by omega
    rw [List.length_cons, leNat, leBytes, hlow, hhigh, ih]

theorem leNat_lt (bs : List UInt8) : leNat bs < 256 ^ bs.length := by
  induction bs with
  | nil => simp [leNat]
  | cons b bs ih =>
    have hb : b.toNat < 256 := b.toNat_lt
    rw [leNat, List.length_cons, Nat.pow_succ]
    omega

/-- The bytes of a field, each shifted out on its own. -/
theorem leBytes_eq_map (k n : Nat) :
    leBytes k n = (List.range k).map fun i => UInt8.ofNat (n >>> (i * 8)) := by
  induction k generalizing n with
  | zero => rfl
  | succ k ih =>
    rw [leBytes, ih, List.range_succ_eq_map, List.map_cons, List.map_map]
    refine congrArg₂ List.cons (by simp) (List.map_congr_left fun i _ => ?_)
    have hbyte : n / 256 = n >>> 8 := (Nat.shiftRight_eq_div_pow n 8).symm
    rw [Function.comp_apply, hbyte, ← Nat.shiftRight_add, Nat.succ_mul, Nat.add_comm 8]

theorem readBytes_append (bs rest : List UInt8) :
    readBytes bs.length (bs ++ rest) = some (bs, rest) := by
  simp [readBytes]

theorem readLE_leBytes (k n : Nat) (h : n < 256 ^ k) (rest : List UInt8) :
    readLE k (leBytes k n ++ rest) = some (n, rest) := by
  have hb := readBytes_append (leBytes k n) rest
  rw [leBytes_length] at hb
  rw [readLE, hb, Option.map_some, leNat_leBytes, Nat.mod_eq_of_lt h]

/-- What a two's complement field of `w` bits reads back as. -/
theorem bmod_emod_toNat (i : Int) (m : Nat) (hm : 0 < m) :
    ((((i % (m : Int)).toNat : Nat) : Int)).bmod m = i.bmod m := by
  have h0 : 0 ≤ i % (m : Int) := Int.emod_nonneg _ (by omega)
  rw [Int.toNat_of_nonneg h0, Int.emod_bmod]

end LittleEndian
