import Cornerstone.WireBlocks

/-! # The calls of a buffer, statement by statement

The members of `buffer` as they run: the look at what is left comes before the first byte
is stored, the bytes are stored one after the other, and the cursor moves last.  A call
that throws leaves the memory as it is by then.  On a block as the code makes them each
call is the operation on the memory that has its name (`answer`).
-/

namespace Cornerstone
open LittleEndian OffsetFile Handlers Handler

/-- A call on one buffer. -/
abbrev BufferCall := Handler Block Empty Stop

/-- `alloc`, in memory that held something before. -/
def Block.allocIn (malloc : Nat → UInt8) (size : Nat) : Option Block :=
  if size ≥ bufferLimit then none
  else if size ≥ 0x8000 then
    some ⟨leBytes 4 (size ||| 0x80000000) ++ (leBytes 4 0 ++ (List.range size).map malloc)⟩
  else some ⟨leBytes 2 size ++ (leBytes 2 0 ++ (List.range size).map malloc)⟩

namespace BufferCall

/-- `*p = x`.  Outside the block this has no meaning. -/
def poke (p : Nat) (x : UInt8) : BufferCall Unit := do
  let b ← look
  if p < b.mem.length then change fun b => ⟨overwrite b.mem p [x]⟩ else halt .fault

/-- The loop of a `put` function, from `p` on. -/
def pokes : Nat → Bytes → BufferCall Unit
  | _, [] => pure ()
  | p, x :: bs => do
    poke p x
    pokes (p + 1) bs

/-- `memcpy` to `data()`.  Outside the blocks this has no meaning. -/
def memcpy (src : Bytes) (n : Nat) : BufferCall Unit := do
  let b ← look
  if src.length < n ∨ b.data.length < n then halt .fault else change fun b => b.store (src.take n)

/-- `pos(size_t)`. -/
def setPos (p : Nat) : BufferCall Unit := change fun b => b.setPos p

/-- The `put` functions that store one byte after the other. -/
def putBytes (bs : Bytes) : BufferCall Unit := do
  let b ← look
  if b.avail < bs.length then halt .throw
  else do
    pokes b.dataAt bs
    change fun b => b.mvFw bs.length

/-- `put(byte)`. -/
def putByte (x : UInt8) : BufferCall Unit := putBytes [x]

/-- `put(int32)`, whose shift keeps the sign. -/
def putInt (val : Int) : BufferCall Unit :=
  putBytes ((List.range 4).map fun i : Nat => UInt8.ofInt (val >>> (i * 8)))

/-- `put(ulong)`. -/
def putULong (val : Nat) : BufferCall Unit :=
  putBytes ((List.range 8).map fun i : Nat => UInt8.ofNat (val >>> (i * 8)))

/-- `put(const std::string&)`. -/
def putStr (str : Bytes) : BufferCall Unit := putBytes (str ++ [0])

/-- `put(const buffer&)`. -/
def putBuffer (src : Block) : BufferCall Unit := do
  let b ← look
  if b.avail < src.avail then halt .throw
  else do
    memcpy src.data src.avail
    change fun b => b.mvFw src.avail

/-- The `get` functions of a fixed size, which go over the bytes from the first on. -/
def getField {α : Type} (k : Nat) (val : α) (add : α → UInt8 → Nat → α) : BufferCall α := do
  let b ← look
  if b.avail < k then halt .throw
  else if b.data.length < k then halt .fault
  else do
    change fun b => b.mvFw k
    return (List.range k).foldl (fun val i => add val (b.data.getD i 0) i) val

/-- `get_int`, in 32 bits. -/
def getInt : BufferCall Int :=
  getField 4 0 fun val x i => Int.bmod (val + Int.bmod ((x.toNat : Int) <<< (i * 8)) uintSize) uintSize

/-- `get_ulong`, in 64 bits. -/
def getULong : BufferCall Nat :=
  getField 8 0 fun val x i => (val + x.toNat <<< (i * 8)) % ulongSize

/-- `get_byte`. -/
def getByte : BufferCall UInt8 := getField 1 0 fun _ x _ => x

/-- The loop of `get_str` over the bytes at `data()`: how far it goes. -/
def scan (s : Nat) : Nat → Bytes → Nat
  | _, [] => 0
  | p, x :: bs => if p < s ∧ x ≠ 0 then scan s (p + 1) bs + 1 else 0

/-- `get_str`, which answers `nilptr` with the cursor where it was. -/
def getStr : BufferCall (Option Bytes) := do
  let b ← look
  let i := scan b.size b.pos b.data
  if b.pos + i ≥ b.size ∨ i = 0 then return none
  else do
    change fun b => b.mvFw (i + 1)
    return some (b.data.take i)

/-- `get(ptr<buffer>&)` into another buffer, which is given back; `behind` is what memory
holds behind this one. -/
def getBuffer (dst : Block) (behind : Bytes) : BufferCall Block := do
  let b ← look
  match memcpy (b.data ++ behind) dst.avail dst with
  | ⟨.ok (), dst', _⟩ => do
    change fun b => b.mvFw dst.avail
    return dst'
  | ⟨.error e, _, _⟩ => halt e

/-- `get(ptr<buffer>&)` into the buffer itself. -/
def getItself (behind : Bytes) : BufferCall Unit := do
  let b ← look
  memcpy (b.data ++ behind) b.avail
  change fun b' => b'.mvFw b.avail

/-- `copy`: the other buffer, put together before anything is handed out. -/
def copy (malloc : Nat → UInt8) : BufferCall Block := do
  let b ← look
  match Block.allocIn malloc b.avail with
  | none => halt .throw
  | some other =>
    match (putBuffer b >>= fun _ => setPos 0) other with
    | ⟨.ok (), other', _⟩ => return other'
    | ⟨.error e, _, _⟩ => halt e

/-! ## The loops -/

/-- The bytes are all stored, where they stay inside the block. -/
theorem pokes_run : ∀ {bs : Bytes} {p : Nat} {b : Block}, p + bs.length ≤ b.mem.length →
    pokes p bs b = ⟨.ok (), ⟨overwrite b.mem p bs⟩, []⟩ := by
  intro bs
  induction bs with
  | nil =>
    intro p b h
    have hsame : overwrite b.mem p [] = b.mem := by
      rw [List.length_nil, Nat.add_zero] at h
      simp [overwrite, Nat.sub_eq_zero_of_le h]
    rw [hsame]
    rfl
  | cons x bs ih =>
    intro p b h
    rw [List.length_cons] at h
    have hin : p < b.mem.length := by omega
    have hone : poke p x b = ⟨.ok (), ⟨overwrite b.mem p [x]⟩, []⟩ := by simp [poke, hin]
    rw [pokes, bind_silent hone, ih, overwrite_cons hin]
    rw [overwrite_length]
    · omega
    · rw [List.length_singleton]
      omega


/-- `(byte)(val >> (i * 8))` of an `int32` is the byte of its two's complement. -/
theorem ofInt_shiftRight {i : Nat} (val : Int) (h : i < 4) :
    UInt8.ofInt (val >>> (i * 8)) = UInt8.ofNat ((val % (uintSize : Int)).toNat >>> (i * 8)) := by
  have hnat : (((val % (uintSize : Int)).toNat : Nat) : Int) = val % uintSize :=
    Int.toNat_of_nonneg (Int.emod_nonneg _ (by norm_num [uintSize]))
  apply UInt8.toNat_inj.mp
  rw [UInt8.ofInt, UInt8.toNat_ofNat', UInt8.toNat_ofNat', Nat.shiftRight_eq_div_pow, Int.shiftRight_eq_div_pow]
  simp only [uintSize] at *
  obtain rfl | rfl | rfl | rfl : i = 0 ∨ i = 1 ∨ i = 2 ∨ i = 3 := by omega
  all_goals omega

theorem leNat_take_succ {bs : Bytes} {k : Nat} (h : k < bs.length) :
    leNat (bs.take (k + 1)) = leNat (bs.take k) + (bs.getD k 0).toNat <<< (k * 8) := by
  have hget : bs.getD k 0 = bs[k] := by
    rw [List.getD_eq_getElem?_getD, List.getElem?_eq_getElem h, Option.getD_some]
  have hpow : 256 ^ k = 2 ^ (k * 8) := by rw [Nat.mul_comm, Nat.pow_mul]
  rw [List.take_succ_eq_append_getElem h, leNat_append, List.length_take_of_le h.le, hget, Nat.shiftLeft_eq, hpow]
  simp [leNat, Nat.mul_comm]

/-- The loops of the `get` functions: `val` stands for what the bytes so far add up to. -/
theorem foldl_field {α : Type} {bs : Bytes} {val : Nat → α} {add : α → UInt8 → Nat → α}
    (hadd : ∀ n x i, add (val n) x i = val (n + x.toNat <<< (i * 8))) :
    ∀ k ≤ bs.length, (List.range k).foldl (fun v i => add v (bs.getD i 0) i) (val 0) = val (leNat (bs.take k)) := by
  intro k
  induction k with
  | zero =>
    intro _
    rfl
  | succ k ih =>
    intro hk
    rw [List.range_succ, List.foldl_append, ih (Nat.le_of_succ_le hk), List.foldl_cons, List.foldl_nil, hadd,
      leNat_take_succ hk]

/-! ## Calls and the operations on the memory -/

/-- What an operation on the memory is as a call: where it has no result, the call throws
and the block is as it was. -/
def answer {α : Type} (b : Block) : Option (α × Block) → Outcome Block Empty Stop α
  | none => ⟨.error .throw, b, []⟩
  | some (a, b') => ⟨.ok a, b', []⟩

/-- A call begins with a look at its buffer. -/
theorem look_bind_run {α : Type} (f : Block → BufferCall α) (b : Block) : (look >>= f) b = f b b := rfl

/-- A block ends where its data does. -/
theorem dataAt_add (t : Tape) : t.layout.dataAt + t.after.length = t.layout.mem.length := by
  rw [Tape.layout_dataAt, Tape.layout_eq]
  simp only [List.length_append]
  omega

section
variable {t : Tape}

theorem putBytes_run (bs : Bytes) :
    putBytes bs t.layout = answer t.layout ((t.layout.put bs).map fun b => ((), b)) := by
  rw [putBytes, look_bind_run, Block.put]
  by_cases h : t.layout.avail < bs.length
  · rw [if_pos h, if_pos h]
    rfl
  · have hin : t.layout.dataAt + bs.length ≤ t.layout.mem.length := by
      rw [Tape.layout_avail] at h
      have hend := dataAt_add t
      omega
    rw [if_neg h, if_neg h, bind_silent (pokes_run hin)]
    rfl

theorem putByte_run (x : UInt8) :
    putByte x t.layout = answer t.layout ((t.layout.putByte x).map fun b => ((), b)) :=
  putBytes_run [x]

theorem putInt_run (val : Int) :
    putInt val t.layout = answer t.layout ((t.layout.putInt val).map fun b => ((), b)) := by
  have hbytes : (List.range 4).map (fun i : Nat => UInt8.ofInt (val >>> (i * 8))) = Cornerstone.putInt val := by
    rw [Cornerstone.putInt, leBytes_eq_map]
    exact List.map_congr_left fun i hi => ofInt_shiftRight val (List.mem_range.mp hi)
  rw [putInt, hbytes, putBytes_run, Block.putInt]

theorem putULong_run (val : Nat) :
    putULong val t.layout = answer t.layout ((t.layout.putULong val).map fun b => ((), b)) := by
  rw [putULong, ← leBytes_eq_map, putBytes_run, Block.putULong]

theorem putStr_run (str : Bytes) :
    putStr str t.layout = answer t.layout ((t.layout.putStr str).map fun b => ((), b)) :=
  putBytes_run (str ++ [0])

/-- `memcpy` of no more than lies behind the one cursor and fits behind the other. -/
theorem memcpy_run {src : Bytes} {n : Nat} (hsrc : n ≤ src.length) (h : n ≤ t.after.length) :
    memcpy src n t.layout = ⟨.ok (), t.layout.store (src.take n), []⟩ := by
  have hin : ¬ (src.length < n ∨ t.layout.data.length < n) := by
    rw [Tape.layout_data]
    omega
  rw [memcpy, look_bind_run, if_neg hin]
  rfl

theorem putBuffer_run {src : Block} (hsrc : src.Sound) :
    putBuffer src t.layout = answer t.layout ((t.layout.putBuffer src).map fun b => ((), b)) := by
  obtain ⟨s, rfl⟩ := hsrc
  have hlen : (s.layout.data.take s.layout.avail).length = s.layout.avail := by
    rw [Tape.layout_data, Tape.layout_avail, List.take_length]
  rw [putBuffer, look_bind_run, Block.putBuffer, Block.put, hlen]
  by_cases h : t.layout.avail < s.layout.avail
  · rw [if_pos h, if_pos h]
    rfl
  · have hcopy : memcpy s.layout.data s.layout.avail t.layout =
        ⟨.ok (), t.layout.store (s.layout.data.take s.layout.avail), []⟩ := by
      simp only [Tape.layout_data, Tape.layout_avail] at h ⊢
      exact memcpy_run le_rfl (Nat.not_lt.mp h)
    rw [if_neg h, if_neg h, bind_silent hcopy]
    rfl

/-- The loop of a `get` function gives what the bytes it takes stand for. -/
theorem getField_run {α : Type} (k : Nat) (val : Nat → α) {add : α → UInt8 → Nat → α}
    (hadd : ∀ n x i, add (val n) x i = val (n + x.toNat <<< (i * 8))) :
    getField k (val 0) add t.layout = answer t.layout ((t.layout.take k).map fun p => (val (leNat p.1), p.2)) := by
  rw [getField, look_bind_run, Block.take]
  by_cases h : t.layout.avail < k
  · rw [if_pos h, if_pos h]
    rfl
  · have hin : k ≤ t.layout.data.length := by
      simp only [Tape.layout_data, Tape.layout_avail] at *
      omega
    rw [if_neg h, if_neg h, if_neg (Nat.not_lt.mpr hin), foldl_field hadd k hin]
    rfl

theorem getInt_run : getInt t.layout = answer t.layout t.layout.getInt := by
  refine getField_run 4 (fun n => int32OfUlong n) fun n x i => ?_
  have hshift : (x.toNat : Int) <<< (i * 8) = ((x.toNat <<< (i * 8) : Nat) : Int) := by
    rw [Int.shiftLeft_eq, Nat.shiftLeft_eq]
    push_cast
    rfl
  rw [int32OfUlong, int32OfUlong, Int.bmod_add_bmod, Int.add_bmod_bmod, hshift, Nat.cast_add]

theorem getULong_run : getULong t.layout = answer t.layout t.layout.getULong := by
  have hadd : ∀ (n : Nat) (x : UInt8) (i : Nat),
      (n % ulongSize + x.toNat <<< (i * 8)) % ulongSize = (n + x.toNat <<< (i * 8)) % ulongSize :=
    fun n x i => Nat.mod_add_mod _ _ _
  refine (getField_run 8 (fun n => n % ulongSize) hadd).trans (congrArg (answer t.layout) (Option.map_congr fun p hp => ?_))
  have hlen : p.1.length ≤ 8 := by
    rw [Block.take] at hp
    split at hp
    · cases hp
    · cases hp
      exact List.length_take_le _ _
  have hlt : leNat p.1 < ulongSize := by
    rw [ulongSize_eq]
    exact (leNat_lt p.1).trans_le (Nat.pow_le_pow_right (by decide) hlen)
  rw [Nat.mod_eq_of_lt hlt]

theorem getByte_run : getByte t.layout = answer t.layout t.layout.getByte := by
  rw [getByte, getField, look_bind_run, Block.getByte, Block.take]
  by_cases h : t.layout.avail < 1
  · rw [if_pos h, if_pos h]
    rfl
  · rw [Tape.layout_avail] at h
    obtain ⟨x, rest, hafter⟩ := List.exists_cons_of_length_pos (Nat.not_lt.mp h)
    have hin : ¬ t.layout.data.length < 1 := by rwa [Tape.layout_data]
    rw [Tape.layout_avail, if_neg h, if_neg h, if_neg hin, Tape.layout_data, hafter]
    rfl

/-- The loop of `get_str` stops behind the string, or at the end of the buffer. -/
theorem scan_eq {s : Nat} : ∀ {bs : Bytes} {p : Nat}, p + bs.length = s →
    scan s p bs = (bs.takeWhile (· ≠ 0)).length := by
  intro bs
  induction bs with
  | nil =>
    intro p _
    rfl
  | cons x bs ih =>
    intro p h
    rw [List.length_cons] at h
    by_cases hx : x = 0
    · simp [scan, hx]
    · have hp : p < s ∧ x ≠ 0 := ⟨by omega, hx⟩
      rw [scan, if_pos hp, ih (by omega), List.takeWhile_cons_of_pos (by simpa using hx), List.length_cons]

/-- Where `get_str` answers `nilptr`, nothing has moved. -/
theorem getStr_run : getStr t.layout =
    ⟨.ok (t.layout.getStr.map Prod.fst), (t.layout.getStr.map Prod.snd).getD t.layout, []⟩ := by
  have hscan : scan t.layout.size t.layout.pos t.layout.data =
      ((t.layout.data.take t.layout.avail).takeWhile (· ≠ 0)).length := by
    simp only [Tape.layout_size, Tape.layout_pos, Tape.layout_data, Tape.layout_avail, List.take_length]
    exact scan_eq rfl
  have hstr : t.layout.data.take ((t.layout.data.take t.layout.avail).takeWhile (· ≠ 0)).length =
      (t.layout.data.take t.layout.avail).takeWhile (· ≠ 0) := by
    rw [Tape.layout_data, Tape.layout_avail, List.take_length]
    exact (List.prefix_iff_eq_take.mp (List.takeWhile_prefix _)).symm
  rw [getStr, look_bind_run, hscan, Block.getStr]
  split
  · rfl
  · rw [hstr]
    rfl

end

/-! ## Two buffers -/

section
variable {t : Tape}

/-- A fresh buffer, whatever its memory held. -/
theorem allocIn_run {n : Nat} (malloc : Nat → UInt8) (h : n < bufferLimit) :
    ∃ a : Tape, Block.allocIn malloc n = some a.layout ∧ a.before = [] ∧ a.after.length = n := by
  have hlen : ((List.range n).map malloc).length = n := by rw [List.length_map, List.length_range]
  refine ⟨⟨[], (List.range n).map malloc, ?_⟩, ?_, rfl, hlen⟩
  · rwa [List.length_nil, Nat.zero_add, hlen]
  · rw [Block.allocIn, if_neg (Nat.not_le.mpr h)]
    unfold Tape.layout Tape.size
    simp only [List.length_nil, hlen, Nat.zero_add, List.nil_append]
    split <;> rfl

/-- `alloc` of zeroed memory. -/
theorem alloc_eq (n : Nat) : Block.alloc n = Block.allocIn (fun _ => 0) n := by
  rw [Block.alloc, Block.allocIn, List.map_const', List.length_range]

/-- `get` into another buffer takes as many bytes as that has room for. -/
theorem getBuffer_passes {d u : Tape} {used : Bytes} (h : t.Passes used u) (hlen : used.length = d.after.length)
    (behind : Bytes) :
    getBuffer d.layout behind t.layout = ⟨.ok (d.layout.store used), u.layout, []⟩ := by
  have hsrc : t.layout.data ++ behind = used ++ (u.after ++ behind) := by
    rw [Tape.layout_data, h.after, List.append_assoc]
  have hcopy : memcpy (t.layout.data ++ behind) d.layout.avail d.layout =
      ⟨.ok (), d.layout.store used, []⟩ := by
    rw [Tape.layout_avail, ← hlen, hsrc, memcpy_run (by rw [List.length_append]; omega) hlen.le, List.take_left]
  have hmove : t.layout.mvFw d.layout.avail = u.layout := by
    rw [Tape.layout_avail, ← hlen, t.layout_mvFw h]
  rw [getBuffer, look_bind_run, hcopy, ← hmove]
  rfl

/-- The bytes behind the cursor as a whole are passed. -/
theorem exists_passes_all (t : Tape) : ∃ u : Tape, t.Passes t.after u ∧ u.size = t.size := by
  obtain ⟨u, hpass, -⟩ := Tape.exists_passes (List.append_nil t.after).symm
  exact ⟨u, hpass, hpass.moved.size⟩

theorem getItself_run (behind : Bytes) :
    ∃ u : Tape, getItself behind t.layout = ⟨.ok (), u.layout, []⟩ ∧ u.size = t.size := by
  obtain ⟨u, hpass, hsize⟩ := exists_passes_all t
  refine ⟨u, ?_, hsize⟩
  have hsame : t.layout.store t.after = t.layout :=
    t.layout_store rfl (List.append_nil _).symm (List.append_nil _).symm rfl
  have hcopy : memcpy (t.layout.data ++ behind) t.layout.avail t.layout = ⟨.ok (), t.layout, []⟩ := by
    rw [Tape.layout_avail, Tape.layout_data, memcpy_run (by rw [List.length_append]; omega) le_rfl, List.take_left,
      hsame]
  have hmove : t.layout.mvFw t.layout.avail = u.layout := by rw [Tape.layout_avail, t.layout_mvFw hpass]
  rw [getItself, look_bind_run, bind_silent hcopy, ← hmove]
  rfl

/-- Bytes that fit are written at the cursor. -/
theorem exists_written {bs : Bytes} (h : bs.length ≤ t.after.length) :
    ∃ u : Tape, t.Written bs u ∧ u.after = t.after.drop bs.length := by
  refine ⟨⟨t.before ++ bs, t.after.drop bs.length, ?_⟩, ⟨rfl, t.after.take bs.length, ?_, ?_⟩, rfl⟩
  · have hfits := t.fits
    rw [List.length_append, List.length_drop]
    omega
  · exact (List.take_append_drop _ _).symm
  · exact List.length_take_of_le h

/-- A copy is a buffer of its own, with its cursor at the start. -/
theorem copy_run (malloc : Nat → UInt8) :
    ∃ c : Tape, copy malloc t.layout = ⟨.ok c.layout, t.layout, []⟩ ∧ c.before = [] ∧ c.after = t.after := by
  have hlt : t.after.length < bufferLimit := by
    have hfits := t.fits
    omega
  obtain ⟨a, halloc, hbefore, hroom⟩ := allocIn_run malloc hlt
  obtain ⟨u, hwritten, hafter⟩ := exists_written hroom.symm.le
  have hput : putBuffer t.layout a.layout = ⟨.ok (), u.layout, []⟩ := by
    rw [putBuffer_run ⟨t, rfl⟩, Block.putBuffer, Tape.layout_data, Tape.layout_avail, List.take_length,
      a.layout_put hwritten]
    rfl
  have hback : u.rewind.after = t.after := by
    show u.before ++ u.after = t.after
    rw [hwritten.before, hbefore, hafter, ← hroom, List.drop_length, List.nil_append, List.append_nil]
  refine ⟨u.rewind, ?_, rfl, hback⟩
  rw [copy, look_bind_run, Tape.layout_avail, halloc]
  simp only [bind_silent hput, setPos, change_run, u.layout_rewind]
  rfl

end

end BufferCall
end Cornerstone
