import Cornerstone.Messages
import Cornerstone.OffsetFile

/-! # The memory of a buffer

A `buffer` is its own header: two `ushort` for the size and the cursor in front of the
data, or two `uint` when the size takes more than 15 bits.  Which of the two it is is told
by the top bit of the first four bytes, which in a small block is the top bit of the
cursor.  The words are those of a little-endian machine.

`Tape` is what a block stands for: the bytes its cursor has passed, and those from the
cursor on.  Each operation on the memory is one on the tape.
-/

namespace Cornerstone
open LittleEndian OffsetFile

/-- The memory of a buffer. -/
structure Block where
  mem : Bytes
deriving DecidableEq, Repr

namespace Block
variable (b : Block)

/-- The `i`-th word of the header, in words of a width. -/
def word (width i : Nat) : Nat := leNat ((b.mem.drop (width * i)).take width)

/-- `__is_big_block`. -/
def isBig : Bool := (b.word 4 0).testBit 31

/-- `__size_of_block`. -/
def size : Nat := if b.isBig then b.word 4 0 ^^^ 0x80000000 else b.word 2 0

/-- The size of a word of the header. -/
def width : Nat := if b.isBig then 4 else 2

/-- `__pos_of_block`. -/
def pos : Nat := b.word b.width 1

/-- `__set_block_pos`, which keeps as many bits as the header has. -/
def setBlockPos (n : Nat) : Block := ⟨overwrite b.mem b.width (leBytes b.width n)⟩

/-- `__mv_fw_block`. -/
def mvFw (d : Nat) : Block := b.setBlockPos (b.pos + d)

/-- `pos(size_t)`. -/
def setPos (p : Nat) : Block := b.setBlockPos (if p > b.size then b.size else p)

/-- Where `data()` points, in the memory of the block. -/
def dataAt : Nat := 2 * b.width + b.pos

/-- The memory from `data()` on. -/
def data : Bytes := b.mem.drop b.dataAt

/-- `size() - pos()`, on `size_t`. -/
def avail : Nat := ulongSub b.size b.pos

/-- `memcpy` to `data()`. -/
def store (bs : Bytes) : Block := ⟨overwrite b.mem b.dataAt bs⟩

/-- `alloc`.  What the memory held before is written over before it is read. -/
def alloc (size : Nat) : Option Block :=
  if size ≥ bufferLimit then none
  else if size ≥ 0x8000 then
    some ⟨leBytes 4 (size ||| 0x80000000) ++ (leBytes 4 0 ++ List.replicate size 0)⟩
  else some ⟨leBytes 2 size ++ (leBytes 2 0 ++ List.replicate size 0)⟩

/-- The `get` functions of a fixed size. -/
def take (k : Nat) : Option (Bytes × Block) :=
  if b.avail < k then none else some (b.data.take k, b.mvFw k)

/-- `get_ulong`. -/
def getULong : Option (Nat × Block) := (b.take 8).map fun p => (leNat p.1, p.2)

/-- `get_int`. -/
def getInt : Option (Int × Block) := (b.take 4).map fun p => (int32OfUlong (leNat p.1), p.2)

/-- `get_byte`. -/
def getByte : Option (UInt8 × Block) := (b.take 1).map fun p => (p.1.headD 0, p.2)

/-- `get_str`, which answers `nilptr` where there is no terminator or the string is
empty. -/
def getStr : Option (Bytes × Block) :=
  let str := (b.data.take b.avail).takeWhile (· ≠ 0)
  if b.pos + str.length ≥ b.size ∨ str.length = 0 then none else some (str, b.mvFw (str.length + 1))

/-- The `put` functions: the bytes must fit behind the cursor. -/
def put (bs : Bytes) : Option Block :=
  if b.avail < bs.length then none else some ((b.store bs).mvFw bs.length)

/-- `put(byte)`. -/
def putByte (x : UInt8) : Option Block := b.put [x]

/-- `put(int32)`. -/
def putInt (i : Int) : Option Block := b.put (Cornerstone.putInt i)

/-- `put(ulong)`. -/
def putULong (n : Nat) : Option Block := b.put (leBytes 8 n)

/-- `put(const std::string&)`. -/
def putStr (s : Bytes) : Option Block := b.put (s ++ [0])

/-- `put(const buffer&)`: what lies behind the cursor of the other. -/
def putBuffer (src : Block) : Option Block := b.put (src.data.take src.avail)

/-- `copy`. -/
def copy : Option Block := do
  let other ← alloc b.avail
  let other ← other.putBuffer b
  return other.setPos 0

end Block

/-- What a block stands for: the bytes before the cursor and those from it on. -/
@[ext] structure Tape where
  before : Bytes
  after : Bytes
  fits : before.length + after.length < bufferLimit

namespace Tape
variable (t : Tape)

/-- The size of the buffer. -/
def size : Nat := t.before.length + t.after.length

/-- The block in memory. -/
def layout : Block :=
  if t.size ≥ 0x8000 then
    ⟨leBytes 4 (t.size ||| 0x80000000) ++ (leBytes 4 t.before.length ++ (t.before ++ t.after))⟩
  else ⟨leBytes 2 t.size ++ (leBytes 2 t.before.length ++ (t.before ++ t.after))⟩

end Tape

/-- A buffer as the code makes them. -/
def Block.Sound (b : Block) : Prop := ∃ t : Tape, b = t.layout

/-! ## The header -/

theorem leNat_append (a b : Bytes) : leNat (a ++ b) = leNat a + 256 ^ a.length * leNat b := by
  induction a with
  | nil => simp [leNat]
  | cons x a ih =>
    rw [List.cons_append, leNat, leNat, ih, List.length_cons, Nat.pow_succ]
    ring

/-- The header in words, whatever its width. -/
theorem word_head {w x y : Nat} {rest : Bytes} (hx : x < 256 ^ w) :
    (Block.mk (leBytes w x ++ (leBytes w y ++ rest))).word w 0 = x := by
  have htake : (leBytes w x ++ (leBytes w y ++ rest)).take w = leBytes w x := by
    rw [List.take_append_of_le_length (by rw [leBytes_length]), List.take_of_length_le (by rw [leBytes_length])]
  rw [Block.word, Nat.mul_zero, List.drop_zero, htake, leNat_leBytes, Nat.mod_eq_of_lt hx]

theorem word_next {w x y : Nat} {rest : Bytes} (hy : y < 256 ^ w) :
    (Block.mk (leBytes w x ++ (leBytes w y ++ rest))).word w 1 = y := by
  have hdrop : (leBytes w x ++ (leBytes w y ++ rest)).drop w = leBytes w y ++ rest := by
    rw [List.drop_append_of_le_length (by rw [leBytes_length]), List.drop_of_length_le (by rw [leBytes_length]),
      List.nil_append]
  have htake : (leBytes w y ++ rest).take w = leBytes w y := by
    rw [List.take_append_of_le_length (by rw [leBytes_length]), List.take_of_length_le (by rw [leBytes_length])]
  rw [Block.word, Nat.mul_one, hdrop, htake, leNat_leBytes, Nat.mod_eq_of_lt hy]

/-- The mark of a big block is above the bits of its size. -/
theorem or_mark {n : Nat} (h : n < bufferLimit) : n ||| 0x80000000 = 0x80000000 + n := by
  have hor := Nat.two_pow_add_eq_or_of_lt (show n < 2 ^ 31 from h) 1
  rw [Nat.mul_one] at hor
  rw [Nat.or_comm]
  exact hor.symm

theorem testBit_mark {n : Nat} : (n ||| 0x80000000).testBit 31 = true := by
  rw [Nat.testBit_or, show (0x80000000 : Nat).testBit 31 = true from by decide, Bool.or_true]

theorem xor_mark {n : Nat} (h : n < bufferLimit) : (n ||| 0x80000000) ^^^ 0x80000000 = n := by
  refine Nat.eq_of_testBit_eq fun i => ?_
  rw [Nat.testBit_xor, Nat.testBit_or]
  rcases eq_or_ne i 31 with rfl | hi
  · have hlow : n.testBit 31 = false := Nat.testBit_lt_two_pow h
    rw [hlow, show (0x80000000 : Nat).testBit 31 = true from by decide]
    rfl
  · have hmark : (2 ^ 31 : Nat).testBit i = false := Nat.testBit_two_pow_of_ne (Ne.symm hi)
    rw [show (0x80000000 : Nat) = 2 ^ 31 from rfl, hmark, Bool.or_false, Bool.xor_false]

namespace Tape
variable (t : Tape)

/-- Whether the header takes two `uint`. -/
def big : Bool := t.size ≥ 0x8000

/-- The size of a word of the header. -/
def width : Nat := if t.big then 4 else 2

/-- The first word of the header. -/
def sizeWord : Nat := if t.big then t.size ||| 0x80000000 else t.size

theorem layout_eq :
    t.layout = ⟨leBytes t.width t.sizeWord ++ (leBytes t.width t.before.length ++ (t.before ++ t.after))⟩ := by
  unfold layout width sizeWord big
  by_cases h : t.size ≥ 0x8000 <;> simp [h]

theorem size_lt : t.size < bufferLimit := t.fits

theorem before_le : t.before.length ≤ t.size := Nat.le_add_right _ _

theorem sizeWord_lt : t.sizeWord < 256 ^ t.width := by
  have hsize : t.size < 2147483648 := t.fits
  unfold sizeWord width
  by_cases h : t.big = true
  · rw [if_pos h, if_pos h, or_mark t.size_lt]
    omega
  · have hsmall : t.size < 0x8000 := by simpa [big] using h
    rw [if_neg h, if_neg h]
    omega

theorem before_lt : t.before.length < 256 ^ t.width := by
  have hsize : t.size < 2147483648 := t.fits
  have hle := t.before_le
  unfold width
  by_cases h : t.big = true
  · rw [if_pos h]
    omega
  · have hsmall : t.size < 0x8000 := by simpa [big] using h
    rw [if_neg h]
    omega

@[simp] theorem layout_isBig : t.layout.isBig = t.big := by
  by_cases h : t.big = true
  · have hword : t.layout.word 4 0 = t.size ||| 0x80000000 := by
      have hlt := t.sizeWord_lt
      rw [layout_eq]
      unfold width sizeWord at *
      rw [if_pos h, if_pos h] at *
      exact word_head hlt
    rw [Block.isBig, hword, testBit_mark, h]
  · -- the top bit of a small block is that of a cursor below 0x8000
    have hsmall : t.size < 0x8000 := by simpa [big] using h
    have hle := t.before_le
    have hword : t.layout.word 4 0 = t.size + 65536 * t.before.length := by
      rw [layout_eq]
      unfold width sizeWord
      rw [if_neg h, if_neg h, Block.word, Nat.mul_zero, List.drop_zero, ← List.append_assoc,
        List.take_append_of_le_length (by simp), List.take_of_length_le (by simp), leNat_append,
        leNat_leBytes, leNat_leBytes, leBytes_length]
      omega
    rw [Block.isBig, hword, Bool.eq_false_iff.mpr h]
    exact Nat.testBit_lt_two_pow (by omega)

@[simp] theorem layout_width : t.layout.width = t.width := by
  rw [Block.width, layout_isBig, width]

@[simp] theorem layout_size : t.layout.size = t.size := by
  have hlt := t.sizeWord_lt
  rw [Block.size, layout_isBig, layout_eq]
  unfold width sizeWord at *
  by_cases h : t.big = true
  · rw [if_pos h, if_pos h, if_pos h] at *
    rw [word_head hlt, xor_mark t.size_lt]
  · rw [if_neg h, if_neg h, if_neg h] at *
    exact word_head hlt

@[simp] theorem layout_pos : t.layout.pos = t.before.length := by
  rw [Block.pos, layout_width, layout_eq]
  exact word_next t.before_lt

@[simp] theorem layout_avail : t.layout.avail = t.after.length := by
  have hsize : t.size < 2147483648 := t.fits
  rw [Block.avail, layout_size, layout_pos, ulongSub_of_le t.before_le (hsize.trans (by decide)), size,
    Nat.add_sub_cancel_left]

/-- The header is in front of the data. -/
theorem header_length : (leBytes t.width t.sizeWord ++ leBytes t.width t.before.length).length = 2 * t.width := by
  rw [List.length_append, leBytes_length, leBytes_length, Nat.two_mul]

theorem layout_dataAt : t.layout.dataAt =
    (leBytes t.width t.sizeWord ++ (leBytes t.width t.before.length ++ t.before)).length := by
  simp only [Block.dataAt, layout_width, layout_pos, List.length_append, leBytes_length]
  omega

@[simp] theorem layout_data : t.layout.data = t.after := by
  have hsplit : t.layout.mem =
      (leBytes t.width t.sizeWord ++ (leBytes t.width t.before.length ++ t.before)) ++ t.after := by
    rw [layout_eq]
    simp only [List.append_assoc]
  rw [Block.data, layout_dataAt, hsplit, List.drop_left]

/-! ## The operations -/

/-- The same bytes with the cursor elsewhere. -/
def Moved (t u : Tape) : Prop := u.before ++ u.after = t.before ++ t.after

/-- As many bytes with the cursor somewhere. -/
theorem layout_setBlockPos {u : Tape} (hsize : u.size = t.size) (hbytes : Moved t u) :
    t.layout.setBlockPos u.before.length = u.layout := by
  have hw : u.width = t.width := by rw [width, width, big, big, hsize]
  have hs : u.sizeWord = t.sizeWord := by rw [sizeWord, sizeWord, big, big, hsize]
  have hover := overwrite_append (leBytes t.width t.sizeWord)
    (leBytes t.width t.before.length ++ (t.before ++ t.after)) (leBytes t.width u.before.length)
  rw [leBytes_length, leBytes_length, List.drop_append_of_le_length (by rw [leBytes_length]),
    List.drop_of_length_le (by rw [leBytes_length]), List.nil_append] at hover
  rw [Block.setBlockPos, layout_width, layout_eq, hover, layout_eq, hw, hs, hbytes]

theorem Moved.size {t u : Tape} (h : Moved t u) : u.size = t.size := by
  have hlen := congrArg List.length h
  rw [List.length_append, List.length_append] at hlen
  exact hlen

/-- The tape once its cursor has passed some bytes. -/
structure Passes (t : Tape) (used : Bytes) (u : Tape) : Prop where
  before : u.before = t.before ++ used
  after : t.after = used ++ u.after

theorem Passes.moved {t u : Tape} {used : Bytes} (h : Passes t used u) : Moved t u := by
  rw [Moved, h.before, h.after, List.append_assoc]

theorem Passes.trans {t u v : Tape} {used used' : Bytes} (h : Passes t used u) (h' : Passes u used' v) :
    Passes t (used ++ used') v := by
  refine ⟨?_, ?_⟩
  · rw [h'.before, h.before, List.append_assoc]
  · rw [h.after, h'.after, List.append_assoc]

/-- Any bytes behind the cursor can be passed. -/
theorem exists_passes {t : Tape} {used rest : Bytes} (h : t.after = used ++ rest) :
    ∃ u, Passes t used u ∧ u.after = rest := by
  refine ⟨⟨t.before ++ used, rest, ?_⟩, ⟨rfl, h⟩, rfl⟩
  have hfits := t.fits
  rw [h, List.length_append] at hfits
  rw [List.length_append]
  omega

theorem layout_mvFw {u : Tape} {used : Bytes} (h : Passes t used u) :
    t.layout.mvFw used.length = u.layout := by
  have hlen : u.before.length = t.before.length + used.length := by rw [h.before, List.length_append]
  rw [Block.mvFw, layout_pos, ← hlen]
  exact t.layout_setBlockPos h.moved.size h.moved

/-- The tape with its cursor at the start. -/
def rewind : Tape := ⟨[], t.before ++ t.after, by
  have hfits := t.fits
  rw [List.length_append]
  simpa using hfits⟩

theorem layout_setPos {u : Tape} (h : Moved t u) : t.layout.setPos u.before.length = u.layout := by
  have hle : ¬ u.before.length > t.size := by
    rw [← h.size]
    exact Nat.not_lt.mpr u.before_le
  rw [Block.setPos, layout_size, if_neg hle]
  exact t.layout_setBlockPos h.size h

theorem layout_rewind : t.layout.setPos 0 = t.rewind.layout :=
  t.layout_setPos (u := t.rewind) (List.nil_append _)

theorem layout_take {u : Tape} {used : Bytes} (h : Passes t used u) :
    t.layout.take used.length = some (used, u.layout) := by
  have hle : ¬ t.layout.avail < used.length := by
    rw [layout_avail, h.after, List.length_append]
    omega
  rw [Block.take, if_neg hle, layout_data, t.layout_mvFw h, h.after, List.take_left]

/-- The tape once bytes are written at the cursor. -/
structure Written (t : Tape) (bs : Bytes) (u : Tape) : Prop where
  before : u.before = t.before ++ bs
  after : ∃ old, t.after = old ++ u.after ∧ old.length = bs.length

/-- Bytes stored at the cursor, which stays. -/
theorem layout_store {v : Tape} {bs old rest : Bytes} (hbefore : v.before = t.before)
    (hafter : v.after = bs ++ rest) (hold : t.after = old ++ rest) (hlen : old.length = bs.length) :
    t.layout.store bs = v.layout := by
  have hsize : v.size = t.size := by
    rw [size, size, hbefore, hafter, hold, List.length_append, List.length_append, hlen]
  have hw : v.width = t.width := by rw [width, width, big, big, hsize]
  have hs : v.sizeWord = t.sizeWord := by rw [sizeWord, sizeWord, big, big, hsize]
  have hsplit : t.layout.mem =
      (leBytes t.width t.sizeWord ++ (leBytes t.width t.before.length ++ t.before)) ++ t.after := by
    rw [layout_eq]
    simp only [List.append_assoc]
  rw [Block.store, layout_dataAt, hsplit, overwrite_append, layout_eq, hw, hs, hold, ← hlen, List.drop_left,
    hbefore, hafter]
  simp only [List.append_assoc]

theorem layout_put {u : Tape} {bs : Bytes} (h : Written t bs u) : t.layout.put bs = some u.layout := by
  obtain ⟨old, hold, hlen⟩ := h.after
  have hle : ¬ t.layout.avail < bs.length := by
    rw [layout_avail, hold, List.length_append]
    omega
  -- the bytes are there before the cursor moves
  let v : Tape := ⟨t.before, bs ++ u.after, by
    have hfits := t.fits
    rw [hold, List.length_append] at hfits
    rw [List.length_append]
    omega⟩
  have hpass : Passes v bs u := ⟨h.before, rfl⟩
  rw [Block.put, if_neg hle, t.layout_store (v := v) rfl rfl hold hlen, v.layout_mvFw hpass]

/-- A fresh buffer. -/
theorem layout_alloc {n : Nat} (h : n < bufferLimit) :
    ∃ t : Tape, Block.alloc n = some t.layout ∧ t.before = [] ∧ t.after = List.replicate n 0 := by
  refine ⟨⟨[], List.replicate n 0, by simpa using h⟩, ?_, rfl, rfl⟩
  have hn : ¬ n ≥ bufferLimit := Nat.not_le.mpr h
  rw [Block.alloc, if_neg hn]
  unfold layout Tape.size
  simp only [List.length_nil, List.length_replicate, Nat.zero_add, List.nil_append]
  split <;> rfl

end Tape
end Cornerstone
