import Cornerstone.BufferCalls

/-! # Values in a buffer

What is put into a buffer as bytes, integers, strings and the unread parts of other buffers
is taken out of it by calls of the same kinds in the same order.  There are no marks
between the values: what keeps them apart is that each call moves the cursor by as many
bytes as the one that put the value did, in a small block as in a big one.
-/

namespace Cornerstone
open LittleEndian Handlers Handler

/-- A value, with which of the `put` functions takes it. -/
inductive TypedValue
  | byte (x : UInt8)
  | int (val : Int)
  | ulong (val : Nat)
  | str (s : Bytes)
  | buffer (src : Block)

/-- Which of the `get` functions is called. -/
inductive TypedGet
  | byte
  | int
  | ulong
  | str
  | buffer (dst : Block)

namespace TypedValue

/-- The call that puts a value. -/
def put : TypedValue → BufferCall Unit
  | byte x => BufferCall.putByte x
  | int val => BufferCall.putInt val
  | ulong val => BufferCall.putULong val
  | str s => BufferCall.putStr s
  | buffer src => BufferCall.putBuffer src

/-- The bytes a value takes. -/
def encoding : TypedValue → Bytes
  | byte x => [x]
  | int val => putInt val
  | ulong val => leBytes 8 val
  | str s => s ++ [0]
  | buffer src => src.data.take src.avail

/-- A value of its type; strings are not empty and have no NUL in them. -/
def Okay : TypedValue → Prop
  | byte _ => True
  | int val => Int.bmod val uintSize = val
  | ulong val => val < ulongSize
  | str s => s ≠ [] ∧ 0 ∉ s
  | buffer src => src.Sound

/-- The same value; of a buffer this means what is unread of it. -/
def Same : TypedValue → TypedValue → Prop
  | buffer src, buffer dst => dst.data.take dst.avail = src.data.take src.avail
  | v, w => w = v

end TypedValue

namespace TypedGet

/-- The call that takes a value out; `none` is `nilptr`.  No memory behind the buffer may be
read. -/
def get : TypedGet → BufferCall (Option TypedValue)
  | byte => do return some (.byte (← BufferCall.getByte))
  | int => do return some (.int (← BufferCall.getInt))
  | ulong => do return some (.ulong (← BufferCall.getULong))
  | str => do return (← BufferCall.getStr).map .str
  | buffer dst => do return some (.buffer (← BufferCall.getBuffer dst []))

/-- The call that goes with a value: a buffer has to have as much room as the value takes. -/
inductive Matches : TypedGet → TypedValue → Prop
  | byte (x : UInt8) : Matches byte (.byte x)
  | int (val : Int) : Matches int (.int val)
  | ulong (val : Nat) : Matches ulong (.ulong val)
  | str (s : Bytes) : Matches str (.str s)
  | buffer {dst src : Block} (hdst : dst.Sound) (hroom : dst.avail = src.avail) :
    Matches (buffer dst) (.buffer src)

end TypedGet

/-- Values put one after the other. -/
def putAll (vs : List TypedValue) : BufferCall Unit := forEach TypedValue.put vs

/-- Values taken out one after the other. -/
def getAll : List TypedGet → BufferCall (List (Option TypedValue))
  | [] => pure []
  | g :: gs => do
    let v ← g.get
    let vs ← getAll gs
    return v :: vs

/-- Values put at the cursor, and then taken out from where it was. -/
def putAndGet (p : Nat) (vs : List TypedValue) (gs : List TypedGet) :
    BufferCall (List (Option TypedValue)) := do
  putAll vs
  BufferCall.setPos p
  getAll gs

/-- The bytes some values take. -/
def encodings (vs : List TypedValue) : Bytes := vs.flatMap TypedValue.encoding

/-- The buffer `b` with some bytes written from its cursor on and the cursor moved; all
other bytes are as they were. -/
structure Block.Overwritten (b : Block) (bs : Bytes) (moved : Nat) (b' : Block) : Prop where
  size : b'.size = b.size
  pos : b'.pos = b.pos + moved
  contents : b'.contents = b.contents.take b.pos ++ (bs ++ b.contents.drop (b.pos + bs.length))

/-- **The round trip of some values**: after each of them is put, and after each is taken
out again, the cursor has moved by the bytes they take. -/
structure Block.TypedRoundTrip (b : Block) (vs : List TypedValue) (gs : List TypedGet) : Prop where
  puts : ∀ k, ∃ b', putAll (vs.take k) b = ⟨.ok (), b', []⟩ ∧
    b.Overwritten (encodings (vs.take k)) (encodings (vs.take k)).length b'
  gets : ∀ k, ∃ rs b', putAndGet b.pos vs (gs.take k) b = ⟨.ok rs, b', []⟩ ∧
    List.Forall₂ (fun v r => ∃ w, r = some w ∧ v.Same w) (vs.take k) rs ∧
      b.Overwritten (encodings vs) (encodings (vs.take k)).length b'

/-! ## One value -/

section
variable {t : Tape} {v : TypedValue} {rest : Bytes}

/-- Each `put` puts the bytes of its value. -/
theorem TypedValue.put_run (h : v.Okay) :
    v.put t.layout = BufferCall.answer t.layout ((t.layout.put v.encoding).map fun b => ((), b)) := by
  cases v with
  | byte x => exact BufferCall.putByte_run x
  | int val => exact BufferCall.putInt_run val
  | ulong val => exact BufferCall.putULong_run val
  | str s => exact BufferCall.putStr_run s
  | buffer src => exact BufferCall.putBuffer_run h

/-- **Each `get` takes out what the `put` of its kind put**, and passes just that. -/
theorem TypedGet.get_run {g : TypedGet} (hv : v.Okay) (hg : g.Matches v) (ht : t.after = v.encoding ++ rest) :
    ∃ w, ∃ u : Tape, g.get t.layout = ⟨.ok (some w), u.layout, []⟩ ∧ v.Same w ∧ t.Passes v.encoding u ∧
      u.after = rest := by
  cases hg with
  | byte x =>
    obtain ⟨u, hrun, hpass, hafter⟩ := (getByte_reads ht).passes ht
    refine ⟨.byte x, u, ?_, rfl, hpass, hafter⟩
    rw [get, bind_silent (BufferCall.getByte_run.trans (by rw [hrun]; rfl))]
    rfl
  | int val =>
    obtain ⟨u, hrun, hpass, hafter⟩ := (reads_int hv ht).passes ht
    refine ⟨.int val, u, ?_, rfl, hpass, hafter⟩
    rw [get, bind_silent (BufferCall.getInt_run.trans (by rw [hrun]; rfl))]
    rfl
  | ulong val =>
    obtain ⟨u, hrun, hpass, hafter⟩ := (reads_uLong hv ht).passes ht
    refine ⟨.ulong val, u, ?_, rfl, hpass, hafter⟩
    rw [get, bind_silent (BufferCall.getULong_run.trans (by rw [hrun]; rfl))]
    rfl
  | str s =>
    have hstr : Cornerstone.getStr t.after = some (s, rest) := by
      rw [ht, TypedValue.encoding, List.append_assoc]
      exact getStr_append hv.1 hv.2 rest
    obtain ⟨u, hrun, hpass, hafter⟩ := (tracks_getStr t s rest hstr).passes ht
    refine ⟨.str s, u, ?_, rfl, hpass, hafter⟩
    rw [get, bind_silent (BufferCall.getStr_run.trans (by rw [hrun]))]
    rfl
  | @buffer dst src hdst hroom =>
    obtain ⟨d, rfl⟩ := hdst
    obtain ⟨u, hpass, hafter⟩ := Tape.exists_passes ht
    have hlen : (TypedValue.buffer src).encoding.length = d.after.length := by
      obtain ⟨s, rfl⟩ := hv
      rw [Tape.layout_avail, Tape.layout_avail] at hroom
      rw [TypedValue.encoding, Tape.layout_data, Tape.layout_avail, List.take_length, hroom]
    -- the other buffer is filled from its cursor to its end
    let e : Tape := ⟨d.before, (TypedValue.buffer src).encoding, by rw [hlen]; exact d.fits⟩
    have hstore : d.layout.store (TypedValue.buffer src).encoding = e.layout :=
      d.layout_store rfl (List.append_nil _).symm (List.append_nil _).symm hlen.symm
    have hsame : (TypedValue.buffer src).Same (.buffer e.layout) := by
      show e.layout.data.take e.layout.avail = src.data.take src.avail
      rw [Tape.layout_data, Tape.layout_avail, List.take_length]
      rfl
    refine ⟨.buffer e.layout, u, ?_, hsame, hpass, hafter⟩
    rw [get, bind_silent (BufferCall.getBuffer_passes hpass hlen []), hstore]
    rfl

/-! ## All values -/

/-- Values that fit are written one behind the other. -/
theorem putAll_run {vs : List TypedValue} (hokay : ∀ v ∈ vs, v.Okay) :
    ∀ {t : Tape}, (encodings vs).length ≤ t.after.length →
      ∃ u, putAll vs t.layout = ⟨.ok (), Tape.layout u, []⟩ ∧ u.before = t.before ++ encodings vs ∧
        u.after = t.after.drop (encodings vs).length := by
  induction vs with
  | nil =>
    intro t _
    exact ⟨t, rfl, (List.append_nil _).symm, rfl⟩
  | cons v vs ih =>
    intro t hfits
    have hcons : encodings (v :: vs) = v.encoding ++ encodings vs := List.flatMap_cons
    rw [hcons, List.length_append] at hfits ⊢
    obtain ⟨w, hwritten, hafter⟩ := BufferCall.exists_written (show v.encoding.length ≤ t.after.length by omega)
    have hput : v.put t.layout = ⟨.ok (), w.layout, []⟩ := by
      rw [TypedValue.put_run (hokay v List.mem_cons_self), t.layout_put hwritten]
      rfl
    have hrest : (encodings vs).length ≤ w.after.length := by
      rw [hafter, List.length_drop]
      omega
    obtain ⟨u, hrun, hbefore, hend⟩ := ih (fun v' hv' => hokay v' (List.mem_cons_of_mem _ hv')) hrest
    refine ⟨u, ?_, ?_, ?_⟩
    · rw [putAll, forEach_cons, bind_silent hput]
      exact hrun
    · rw [hbefore, hwritten.before, List.append_assoc]
    · rw [hend, hafter, List.drop_drop]

/-- Values that lie behind the cursor are taken out one after the other. -/
theorem getAll_run {vs : List TypedValue} {gs : List TypedGet} (hall : List.Forall₂ TypedGet.Matches gs vs) :
    ∀ {t : Tape}, (∀ v ∈ vs, v.Okay) → t.after = encodings vs ++ rest →
      ∃ rs u, getAll gs t.layout = ⟨.ok rs, Tape.layout u, []⟩ ∧
        List.Forall₂ (fun v r => ∃ w, r = some w ∧ v.Same w) vs rs ∧ t.Passes (encodings vs) u := by
  induction hall with
  | nil =>
    intro t _ _
    exact ⟨[], t, rfl, .nil, (List.append_nil _).symm, rfl⟩
  | @cons g v gs vs hg _ ih =>
    intro t hokay ht
    have hcons : encodings (v :: vs) = v.encoding ++ encodings vs := List.flatMap_cons
    rw [hcons, List.append_assoc] at ht
    obtain ⟨w, m, hget, hsame, hpass, hm⟩ := TypedGet.get_run (hokay v List.mem_cons_self) hg ht
    obtain ⟨rs, u, hrun, hsames, hpass'⟩ := ih (fun v' hv' => hokay v' (List.mem_cons_of_mem _ hv')) hm
    refine ⟨some w :: rs, u, ?_, .cons ⟨w, rfl, hsame⟩ hsames, ?_⟩
    · rw [getAll, bind_silent hget, bind_silent hrun]
      rfl
    · rw [hcons]
      exact hpass.trans hpass'

end

/-- What is written to a tape is written to its block. -/
theorem Block.Overwritten.of_tape {t u : Tape} {bs : Bytes} {n : Nat} (hlen : bs.length ≤ t.after.length)
    (hpos : u.before.length = t.before.length + n)
    (hbytes : u.before ++ u.after = t.before ++ (bs ++ t.after.drop bs.length)) :
    t.layout.Overwritten bs n u.layout := by
  refine ⟨?_, ?_, ?_⟩
  · have hsum := congrArg List.length hbytes
    simp only [List.length_append, List.length_drop] at hsum
    rw [Tape.layout_size, Tape.layout_size, Tape.size, Tape.size]
    omega
  · rw [Tape.layout_pos, Tape.layout_pos, hpos]
  · rw [Tape.layout_contents, Tape.layout_contents, Tape.layout_pos, hbytes, List.take_left, List.drop_append,
      List.drop_eq_nil_of_le (Nat.le_add_right _ _), Nat.add_sub_cancel_left, List.nil_append]

/-- **Typed buffer round trip**: values that fit behind the cursor of a buffer, small or
big, are put and taken out again with nothing else changed. -/
theorem typed_round_trip {b : Block} {vs : List TypedValue} {gs : List TypedGet} (hb : b.Sound)
    (hokay : ∀ v ∈ vs, v.Okay) (hgs : List.Forall₂ TypedGet.Matches gs vs)
    (hfits : (encodings vs).length ≤ b.avail) : b.TypedRoundTrip vs gs := by
  obtain ⟨t, rfl⟩ := hb
  rw [Tape.layout_avail] at hfits
  have hsplit : ∀ k, encodings vs = encodings (vs.take k) ++ encodings (vs.drop k) := fun k => by
    rw [encodings, encodings, encodings, ← List.flatMap_append, List.take_append_drop]
  have hless : ∀ k, (encodings (vs.take k)).length ≤ (encodings vs).length := fun k => by
    rw [hsplit k, List.length_append]
    exact Nat.le_add_right _ _
  refine ⟨fun k => ?_, fun k => ?_⟩
  · obtain ⟨u, hrun, hbefore, hafter⟩ := putAll_run (fun v hv => hokay v (List.mem_of_mem_take hv))
      ((hless k).trans hfits)
    refine ⟨u.layout, hrun, .of_tape ((hless k).trans hfits) ?_ ?_⟩
    · rw [hbefore, List.length_append]
    · rw [hbefore, hafter, List.append_assoc]
  · obtain ⟨m, hput, hmbefore, hmafter⟩ := putAll_run hokay hfits
    -- the cursor back where it was, in front of the values
    let s : Tape := ⟨t.before, encodings vs ++ t.after.drop (encodings vs).length, by
      rw [List.length_append, List.length_drop, Nat.add_sub_cancel' hfits]
      exact t.fits⟩
    have hmoved : m.Moved s := by
      show t.before ++ (encodings vs ++ t.after.drop (encodings vs).length) = m.before ++ m.after
      rw [hmbefore, hmafter, List.append_assoc]
    have hset : BufferCall.setPos t.layout.pos m.layout = ⟨.ok (), s.layout, []⟩ := by
      rw [BufferCall.setPos, change_run, Tape.layout_pos, ← m.layout_setPos hmoved]
    have hs : s.after = encodings (vs.take k) ++ (encodings (vs.drop k) ++ t.after.drop (encodings vs).length) := by
      show encodings vs ++ _ = _
      rw [hsplit k, List.append_assoc]
    obtain ⟨rs, u, hget, hsame, hpass⟩ := getAll_run (List.forall₂_take k hgs)
      (fun v hv => hokay v (List.mem_of_mem_take hv)) hs
    refine ⟨rs, u.layout, ?_, hsame, .of_tape hfits ?_ hpass.moved⟩
    · rw [putAndGet, bind_silent hput, bind_silent hset, hget]
    · rw [hpass.before, List.length_append]

/-- A value of each kind. -/
def smallValues : List TypedValue :=
  [.byte 200, .int (-2), .ulong (2 ^ 63 + 1), .str [104, 105], .buffer fiveBytes.layout]

theorem smallValues_okay : ∀ v ∈ smallValues, v.Okay := by
  intro v hv
  simp only [smallValues, List.mem_cons, List.not_mem_nil, or_false] at hv
  rcases hv with rfl | rfl | rfl | rfl | rfl
  · trivial
  · show Int.bmod (-2) uintSize = -2
    decide
  · show 2 ^ 63 + 1 < ulongSize
    norm_num [ulongSize]
  · exact ⟨by decide, by decide⟩
  · exact ⟨fiveBytes, rfl⟩

/-- The calls that take them out. -/
def smallGets : List TypedGet := [.byte, .int, .ulong, .str, .buffer (Tape.zeros 3 (by decide)).layout]

theorem smallGets_match : List.Forall₂ TypedGet.Matches smallGets smallValues :=
  .cons (.byte _) (.cons (.int _) (.cons (.ulong _) (.cons (.str _)
    (.cons (.buffer ⟨_, rfl⟩ (by rw [Tape.layout_avail, Tape.layout_avail]; rfl)) .nil))))

theorem typed_round_trip_small :
    (Tape.zeros 32 (by decide)).layout.TypedRoundTrip smallValues smallGets ∧
      (Tape.zeros 0x8000 (by decide)).layout.TypedRoundTrip smallValues smallGets := by
  refine ⟨typed_round_trip ⟨_, rfl⟩ smallValues_okay smallGets_match ?_,
    typed_round_trip ⟨_, rfl⟩ smallValues_okay smallGets_match ?_⟩
  all_goals
    rw [Tape.layout_avail, Tape.zeros, List.length_replicate]
    decide +kernel

end Cornerstone
