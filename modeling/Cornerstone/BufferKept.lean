import Cornerstone.BufferCalls
import Cornerstone.StepRun

/-! # The header of a buffer over whole runs

A program with any number of buffers, which go by their numbers, and any calls on them in
any order.  The cursor of a small block lies in the half of a word whose top bit says that
a block is big, so a buffer is what it was allocated as only as long as no call takes its
cursor too far.  Every call looks at what is left, but `get(ptr<buffer>&)`: it moves the
cursor by what the other buffer has room for.
-/

namespace Cornerstone
open LittleEndian StepRun Handlers Handler

/-- A buffer, with the size it was allocated with. -/
structure AllocatedBuffer where
  block : Block
  allocated : Nat
deriving DecidableEq

/-- The buffers of a program. -/
abbrev Buffers := List AllocatedBuffer

/-- A call of `buffer`, with its arguments. -/
inductive BufferOp
  | alloc (malloc : Nat → UInt8) (size : Nat)
  | setPos (i p : Nat)
  | putByte (i : Nat) (x : UInt8)
  | putInt (i : Nat) (val : Int)
  | putULong (i val : Nat)
  | putStr (i : Nat) (str : Bytes)
  | putBuffer (i src : Nat)
  | getInt (i : Nat)
  | getULong (i : Nat)
  | getByte (i : Nat)
  | getStr (i : Nat)
  | getBuffer (i dst : Nat) (behind : Bytes)
  | copy (malloc : Nat → UInt8) (i : Nat)

/-- A call, run on the buffers of a program. -/
abbrev BufferAction := Handler Buffers Empty Stop

/-- The `i`-th buffer, which there has to be. -/
def theBuffer (i : Nat) : BufferAction AllocatedBuffer := fun buffers =>
  match buffers[i]? with
  | some b => ⟨.ok b, buffers, []⟩
  | none => ⟨.error .fault, buffers, []⟩

/-- A call on the `i`-th buffer. -/
def onBuffer {α : Type} (i : Nat) (x : BufferCall α) : BufferAction α := fun buffers =>
  match buffers[i]? with
  | some b => ⟨(x b.block).res, buffers.set i ⟨(x b.block).state, b.allocated⟩, []⟩
  | none => ⟨.error .fault, buffers, []⟩

/-- What a call does to the buffers; what the `get` functions answer is of no matter here. -/
def BufferOp.call : BufferOp → BufferAction Unit
  | .alloc malloc size =>
    match Block.allocIn malloc size with
    | some block => change fun buffers => buffers ++ [⟨block, size⟩]
    | none => halt .throw
  | .setPos i p => onBuffer i (BufferCall.setPos p)
  | .putByte i x => onBuffer i (BufferCall.putByte x)
  | .putInt i val => onBuffer i (BufferCall.putInt val)
  | .putULong i val => onBuffer i (BufferCall.putULong val)
  | .putStr i str => onBuffer i (BufferCall.putStr str)
  | .putBuffer i src => do
    let s ← theBuffer src
    onBuffer i (BufferCall.putBuffer s.block)
  | .getInt i => do
    let _ ← onBuffer i BufferCall.getInt
  | .getULong i => do
    let _ ← onBuffer i BufferCall.getULong
  | .getByte i => do
    let _ ← onBuffer i BufferCall.getByte
  | .getStr i => do
    let _ ← onBuffer i BufferCall.getStr
  | .getBuffer i dst behind =>
    if dst = i then onBuffer i (BufferCall.getItself behind)
    else do
      let d ← theBuffer dst
      let block ← onBuffer i (BufferCall.getBuffer d.block behind)
      change fun buffers => buffers.set dst ⟨block, d.allocated⟩
  | .copy malloc i => do
    let b ← theBuffer i
    let block ← onBuffer i (BufferCall.copy malloc)
    change fun buffers => buffers ++ [⟨block, b.block.avail⟩]

/-- The buffers after a call. -/
def nextBuffers (buffers : Buffers) (op : BufferOp) : Buffers := (op.call buffers).state

/-- A buffer as it was allocated. -/
structure AllocatedBuffer.Kept (b : AllocatedBuffer) : Prop where
  size : b.block.size = b.allocated
  pos : b.block.pos ≤ b.block.size
  isBig : b.block.isBig = decide (b.allocated ≥ 0x8000)

/-- A call that throws leaves the buffers as they were, and none takes the place of
another. -/
structure Orderly (buffers : Buffers) (op : BufferOp) : Prop where
  undone : (op.call buffers).res = .error .throw → nextBuffers buffers op = buffers
  same : ∀ (i : Nat) (b : AllocatedBuffer), buffers[i]? = some b →
    ∃ b', (nextBuffers buffers op)[i]? = some b' ∧ b'.allocated = b.allocated

/-- `get(ptr<buffer>&)` is only called where the other buffer has room for no more than is
left of this one. -/
def BufferOp.Safe (buffers : Buffers) : BufferOp → Prop
  | .getBuffer i dst _ => ∀ b ∈ buffers[i]?, ∀ d ∈ buffers[dst]?, d.block.avail ≤ b.block.avail
  | _ => True

instance (buffers : Buffers) : (op : BufferOp) → Decidable (op.Safe buffers)
  | .getBuffer i dst _ =>
    inferInstanceAs (Decidable (∀ b ∈ buffers[i]?, ∀ d ∈ buffers[dst]?, d.block.avail ≤ b.block.avail))
  | .alloc .. | .setPos .. | .putByte .. | .putInt .. | .putULong .. | .putStr .. | .putBuffer ..
  | .getInt .. | .getULong .. | .getByte .. | .getStr .. | .copy .. => .isTrue trivial

/-! ## One call -/

/-- A call that throws and leaves the block, or ends in a block of the same size. -/
def Regular {α : Type} (x : BufferCall α) (t : Tape) : Prop :=
  x t.layout = ⟨.error .throw, t.layout, []⟩ ∨
    ∃ a, ∃ u : Tape, x t.layout = ⟨.ok a, u.layout, []⟩ ∧ u.size = t.size

namespace Regular
open BufferCall
variable {t : Tape}

theorem of_answer {α : Type} {x : BufferCall α} {o : Option (α × Block)} (hx : x t.layout = answer t.layout o)
    (ho : ∀ a b, o = some (a, b) → ∃ u : Tape, b = u.layout ∧ u.size = t.size) : Regular x t := by
  rcases o with - | ⟨a, b⟩
  · exact .inl hx
  · obtain ⟨u, rfl, hsize⟩ := ho a b rfl
    exact .inr ⟨a, u, hx, hsize⟩

theorem of_put {x : BufferCall Unit} {bs : Bytes}
    (hx : x t.layout = answer t.layout ((t.layout.put bs).map fun b => ((), b))) : Regular x t := by
  apply of_answer hx
  intro a b hb
  obtain ⟨b', hput, heq⟩ := Option.map_eq_some_iff.mp hb
  cases heq
  by_cases h : t.layout.avail < bs.length
  · rw [Block.put, if_pos h] at hput
    cases hput
  · obtain ⟨u, hwritten, -⟩ := exists_written (Nat.not_lt.mp (Tape.layout_avail t ▸ h))
    rw [t.layout_put hwritten] at hput
    cases hput
    obtain ⟨old, hold, hlen⟩ := hwritten.after
    refine ⟨u, rfl, ?_⟩
    rw [Tape.size, Tape.size, hwritten.before, hold, List.length_append, List.length_append, hlen]
    omega

theorem of_take {α : Type} {x : BufferCall α} {k : Nat} {f : Bytes → α}
    (hx : x t.layout = answer t.layout ((t.layout.take k).map fun p => (f p.1, p.2))) : Regular x t := by
  apply of_answer hx
  intro a b hb
  obtain ⟨⟨used, b'⟩, htake, heq⟩ := Option.map_eq_some_iff.mp hb
  cases heq
  by_cases h : t.layout.avail < k
  · rw [Block.take, if_pos h] at htake
    cases htake
  · have hread : readBytes k t.after = some (t.after.take k, t.after.drop k) := by
      rw [readBytes, if_neg (Tape.layout_avail t ▸ h)]
    obtain ⟨u, hrun, hpass, -⟩ := take_reads hread
    rw [hrun] at htake
    cases htake
    exact ⟨u, rfl, hpass.moved.size⟩

theorem getStr (t : Tape) : Regular BufferCall.getStr t := by
  rcases hread : Cornerstone.getStr t.after with - | ⟨str, rest⟩
  · exact .inr ⟨none, t, by rw [getStr_run, getStr_none hread]; rfl, rfl⟩
  · obtain ⟨used, u, hrun, hpass, -⟩ := tracks_getStr t _ _ hread
    exact .inr ⟨some str, u, by rw [getStr_run, hrun]; rfl, hpass.moved.size⟩

theorem setPos (t : Tape) (p : Nat) : Regular (BufferCall.setPos p) t := by
  -- the cursor ends at `p`, or at the end of the buffer
  let q := min p t.size
  have hq : q ≤ (t.before ++ t.after).length := by
    rw [List.length_append]
    exact Nat.min_le_right _ _
  let u : Tape := ⟨(t.before ++ t.after).take q, (t.before ++ t.after).drop q, by
    rw [← List.length_append, List.take_append_drop, List.length_append]
    exact t.fits⟩
  have hmoved : t.Moved u := List.take_append_drop _ _
  have hlen : u.before.length = q := List.length_take_of_le hq
  have hset : t.layout.setPos p = u.layout := by
    rw [← t.layout_setPos hmoved, hlen, Block.setPos, Block.setPos, Tape.layout_size]
    congr 1
    grind
  exact .inr ⟨(), u, by rw [BufferCall.setPos, change_run, hset], hmoved.size⟩

theorem getItself (t : Tape) (behind : Bytes) : Regular (BufferCall.getItself behind) t := by
  obtain ⟨u, hrun, hsize⟩ := getItself_run (t := t) behind
  exact .inr ⟨(), u, hrun, hsize⟩

end Regular

/-! ## Calls on the buffers of a program -/

/-- A buffer as the code makes them, of the size it was allocated with. -/
def AllocatedBuffer.Sound (b : AllocatedBuffer) : Prop := ∃ t : Tape, b.block = t.layout ∧ t.size = b.allocated

theorem AllocatedBuffer.Sound.kept {b : AllocatedBuffer} (h : b.Sound) : b.Kept := by
  obtain ⟨t, hblock, hsize⟩ := h
  refine ⟨?_, ?_, ?_⟩
  · rw [hblock, Tape.layout_size, hsize]
  · rw [hblock, Tape.layout_pos, Tape.layout_size]
    exact t.before_le
  · rw [hblock, Tape.layout_isBig, Tape.big, hsize]

/-- All buffers of a program are sound. -/
def AllSound (buffers : Buffers) : Prop := ∀ b ∈ buffers, b.Sound

/-- No buffer takes the place of another. -/
def SameBuffers (buffers buffers' : Buffers) : Prop :=
  ∀ (i : Nat) (b : AllocatedBuffer), buffers[i]? = some b →
    ∃ b', buffers'[i]? = some b' ∧ b'.allocated = b.allocated

/-- What comes of a call on sound buffers. -/
structure Upright {α : Type} (buffers : Buffers) (o : Outcome Buffers Empty Stop α) : Prop where
  sound : AllSound o.state
  undone : o.res = .error .throw → o.state = buffers
  same : SameBuffers buffers o.state

section
variable {buffers : Buffers}

theorem SameBuffers.set {i : Nat} {b c : AllocatedBuffer} (hb : buffers[i]? = some b) (h : c.allocated = b.allocated) :
    SameBuffers buffers (buffers.set i c) := by
  intro j b' hb'
  obtain ⟨hj, -⟩ := List.getElem?_eq_some_iff.mp hb'
  by_cases hij : i = j
  · subst hij
    obtain rfl : b = b' := Option.some.inj (hb.symm.trans hb')
    exact ⟨c, List.getElem?_set_self hj, h⟩
  · exact ⟨b', by rw [List.getElem?_set_ne hij, hb'], rfl⟩

theorem SameBuffers.append (more : Buffers) : SameBuffers buffers (buffers ++ more) := by
  intro i b hb
  obtain ⟨hi, -⟩ := List.getElem?_eq_some_iff.mp hb
  exact ⟨b, by rw [List.getElem?_append_left hi, hb], rfl⟩

theorem SameBuffers.trans {middle last : Buffers} (h : SameBuffers buffers middle)
    (h' : SameBuffers middle last) : SameBuffers buffers last := by
  intro i b hb
  obtain ⟨c, hc, heq⟩ := h i b hb
  obtain ⟨d, hd, heq'⟩ := h' i c hc
  exact ⟨d, hd, heq'.trans heq⟩

theorem AllSound.set {i : Nat} {c : AllocatedBuffer} (h : AllSound buffers) (hc : c.Sound) :
    AllSound (buffers.set i c) := by
  intro b hb
  rcases List.mem_or_eq_of_mem_set hb with hb | rfl
  · exact h b hb
  · exact hc

theorem AllSound.append {c : AllocatedBuffer} (h : AllSound buffers) (hc : c.Sound) : AllSound (buffers ++ [c]) := by
  intro b hb
  rcases List.mem_append.mp hb with hb | hb
  · exact h b hb
  · rwa [List.mem_singleton.mp hb]

theorem Upright.unchanged {α : Type} (h : AllSound buffers) (res : Except Stop α) :
    Upright buffers ⟨res, buffers, []⟩ :=
  ⟨h, fun _ => rfl, fun _ b hb => ⟨b, hb, rfl⟩⟩

theorem Upright.ok {α : Type} {after : Buffers} (h : AllSound after) (hsame : SameBuffers buffers after) (a : α) :
    Upright buffers (⟨.ok a, after, []⟩ : Outcome Buffers Empty Stop α) :=
  ⟨h, nofun, hsame⟩

/-- A regular call on one of the buffers. -/
theorem onBuffer_upright {α : Type} {i : Nat} {x : BufferCall α} (h : AllSound buffers)
    (hx : ∀ t, Regular x t) : Upright buffers (onBuffer i x buffers) := by
  rw [onBuffer]
  split
  · rename_i b hb
    obtain ⟨t, hblock, hsize⟩ := h b (List.mem_of_getElem? hb)
    rcases hx t with hrun | ⟨a, u, hrun, husize⟩
    · have hsame : buffers.set i ⟨t.layout, b.allocated⟩ = buffers := by
        obtain ⟨hi, rfl⟩ := List.getElem?_eq_some_iff.mp hb
        rw [← hblock]
        exact List.set_getElem_self hi
      rw [hblock, hrun, hsame]
      exact .unchanged h _
    · rw [hblock, hrun]
      have hu : AllocatedBuffer.Sound ⟨u.layout, b.allocated⟩ := ⟨u, rfl, husize.trans hsize⟩
      exact .ok (h.set hu) (.set hb rfl) a
  · exact .unchanged h _

theorem Upright.ignoring {α : Type} {x : BufferAction α} (h : Upright buffers (x buffers)) :
    Upright buffers ((do let _ ← x) buffers) := by
  rw [bind_run]
  generalize x buffers = o at h ⊢
  obtain ⟨res, state, out⟩ := o
  cases res with
  | ok a => exact ⟨h.sound, nofun, h.same⟩
  | error e => exact ⟨h.sound, fun he => h.undone (by cases he; rfl), h.same⟩

/-- A call that begins with a look at one of the buffers. -/
theorem theBuffer_bind {α : Type} {i : Nat} {f : AllocatedBuffer → BufferAction α} (h : AllSound buffers)
    (hf : ∀ b, buffers[i]? = some b → Upright buffers (f b buffers)) :
    Upright buffers ((theBuffer i >>= f) buffers) := by
  rw [bind_run, theBuffer]
  split
  · rename_i b hb
    exact hf b hb
  · exact .unchanged h _

/-- A new buffer. -/
theorem Upright.created {c : AllocatedBuffer} (h : AllSound buffers) (hc : c.Sound) :
    Upright buffers (⟨.ok (), buffers ++ [c], []⟩ : Outcome Buffers Empty Stop Unit) :=
  .ok (h.append hc) (.append _) ()

/-- `get` into another buffer that has room for no more than is left. -/
theorem getBuffer_upright {i dst : Nat} {b d : AllocatedBuffer} (h : AllSound buffers) (hb : buffers[i]? = some b)
    (hd : buffers[dst]? = some d) (hne : dst ≠ i) (hroom : d.block.avail ≤ b.block.avail) (behind : Bytes) :
    Upright buffers ((onBuffer i (BufferCall.getBuffer d.block behind) >>= fun block =>
      change fun buffers => buffers.set dst ⟨block, d.allocated⟩) buffers) := by
  obtain ⟨t, hblock, hsize⟩ := h b (List.mem_of_getElem? hb)
  obtain ⟨s, hdblock, hdsize⟩ := h d (List.mem_of_getElem? hd)
  rw [hblock, hdblock, Tape.layout_avail, Tape.layout_avail] at hroom
  obtain ⟨used, rest, hafter, hlen⟩ : ∃ used rest, t.after = used ++ rest ∧ used.length = s.after.length :=
    ⟨t.after.take s.after.length, t.after.drop s.after.length, (List.take_append_drop _ _).symm,
      List.length_take_of_le hroom⟩
  obtain ⟨u, hpass, -⟩ := Tape.exists_passes hafter
  -- what is taken fills the other buffer from its cursor on
  let v : Tape := ⟨s.before, used, by rw [hlen]; exact s.fits⟩
  have hstore : s.layout.store used = v.layout :=
    s.layout_store rfl (List.append_nil _).symm (List.append_nil _).symm hlen.symm
  have hrun : onBuffer i (BufferCall.getBuffer d.block behind) buffers =
      ⟨.ok v.layout, buffers.set i ⟨u.layout, b.allocated⟩, []⟩ := by
    rw [onBuffer, hb]
    simp only [hblock, hdblock, BufferCall.getBuffer_passes hpass hlen, hstore]
  have hu : AllocatedBuffer.Sound ⟨u.layout, b.allocated⟩ := ⟨u, rfl, hpass.moved.size.trans hsize⟩
  have hv : AllocatedBuffer.Sound ⟨v.layout, d.allocated⟩ := by
    refine ⟨v, rfl, ?_⟩
    rw [← hdsize, Tape.size, Tape.size, hlen]
  have hget : (buffers.set i ⟨u.layout, b.allocated⟩)[dst]? = some d := by
    rw [List.getElem?_set_ne (Ne.symm hne), hd]
  have hfirst : SameBuffers buffers (buffers.set i ⟨u.layout, b.allocated⟩) := .set hb rfl
  rw [bind_silent hrun, change_run]
  exact .ok ((h.set hu).set hv) (hfirst.trans (.set hget rfl)) ()

theorem copy_upright {i : Nat} {b : AllocatedBuffer} (h : AllSound buffers) (hb : buffers[i]? = some b)
    (malloc : Nat → UInt8) :
    Upright buffers ((onBuffer i (BufferCall.copy malloc) >>= fun block =>
      change fun buffers => buffers ++ [⟨block, b.block.avail⟩]) buffers) := by
  obtain ⟨t, hblock, hsize⟩ := h b (List.mem_of_getElem? hb)
  obtain ⟨c, hcopy, hbefore, hafter⟩ := BufferCall.copy_run (t := t) malloc
  have hsame : buffers.set i ⟨t.layout, b.allocated⟩ = buffers := by
    obtain ⟨hi, rfl⟩ := List.getElem?_eq_some_iff.mp hb
    rw [← hblock]
    exact List.set_getElem_self hi
  have hrun : onBuffer i (BufferCall.copy malloc) buffers = ⟨.ok c.layout, buffers, []⟩ := by
    rw [onBuffer, hb]
    simp only [hblock, hcopy, hsame]
  have hc : AllocatedBuffer.Sound ⟨c.layout, b.block.avail⟩ := by
    refine ⟨c, rfl, ?_⟩
    rw [Tape.size, hbefore, hafter, List.length_nil, Nat.zero_add, hblock, Tape.layout_avail]
  rw [bind_silent hrun, change_run]
  exact .created h hc

/-- **What one call does to sound buffers.** -/
theorem call_upright {op : BufferOp} (h : AllSound buffers) (hsafe : op.Safe buffers) :
    Upright buffers (op.call buffers) := by
  cases op with
  | alloc malloc size =>
    rw [BufferOp.call]
    by_cases hsize : size < bufferLimit
    · obtain ⟨a, halloc, hbefore, hafter⟩ := BufferCall.allocIn_run malloc hsize
      have ha : AllocatedBuffer.Sound ⟨a.layout, size⟩ :=
        ⟨a, rfl, by rw [Tape.size, hbefore, hafter, List.length_nil, Nat.zero_add]⟩
      rw [halloc]
      exact .created h ha
    · rw [Block.allocIn, if_pos (Nat.not_lt.mp hsize)]
      exact .unchanged h _
  | setPos i p => exact onBuffer_upright h fun t => .setPos t p
  | putByte i x => exact onBuffer_upright h fun t => .of_put (BufferCall.putByte_run x)
  | putInt i val => exact onBuffer_upright h fun t => .of_put (BufferCall.putInt_run val)
  | putULong i val => exact onBuffer_upright h fun t => .of_put (BufferCall.putULong_run val)
  | putStr i str => exact onBuffer_upright h fun t => .of_put (BufferCall.putStr_run str)
  | putBuffer i src =>
    refine theBuffer_bind h fun s hs => onBuffer_upright h fun t => ?_
    obtain ⟨u, hblock, -⟩ := h s (List.mem_of_getElem? hs)
    exact .of_put (BufferCall.putBuffer_run ⟨u, hblock⟩)
  | getInt i =>
    refine (onBuffer_upright h fun t => ?_).ignoring
    exact .of_take (k := 4) (f := fun bs => int32OfUlong (leNat bs)) BufferCall.getInt_run
  | getULong i =>
    refine (onBuffer_upright h fun t => ?_).ignoring
    exact .of_take (k := 8) (f := leNat) BufferCall.getULong_run
  | getByte i =>
    refine (onBuffer_upright h fun t => ?_).ignoring
    exact .of_take (k := 1) (f := fun bs => bs.headD 0) BufferCall.getByte_run
  | getStr i => exact (onBuffer_upright h .getStr).ignoring
  | getBuffer i dst behind =>
    rw [BufferOp.call]
    split
    · exact onBuffer_upright h fun t => .getItself t behind
    · rename_i hne
      refine theBuffer_bind h fun d hd => ?_
      rcases hb : buffers[i]? with - | b
      · rw [bind_run, onBuffer, hb]
        exact .unchanged h _
      · exact getBuffer_upright h hb hd hne (hsafe b hb d hd) behind
  | copy malloc i => exact theBuffer_bind h fun b hb => copy_upright h hb malloc

end

/-- **A buffer stays what it was allocated as**, and a call that throws changes nothing, in
every run of a program that never takes more out of a buffer than is left of it. -/
theorem representation_kept {ops : List BufferOp}
    (hsafe : Along nextBuffers (fun buffers op => op.Safe buffers) [] ops) :
    Throughout nextBuffers (fun buffers => ∀ b ∈ buffers, b.Kept) [] ops ∧ Along nextBuffers Orderly [] ops := by
  have hstep : ∀ buffers op, AllSound buffers → op.Safe buffers → AllSound (nextBuffers buffers op) :=
    fun _ _ h hs => (call_upright h hs).sound
  have hnone : AllSound [] := by simp [AllSound]
  refine ⟨(hsafe.throughout hstep hnone).mono fun buffers h b hb => (h b hb).kept, ?_⟩
  refine hsafe.strengthen hstep (fun buffers op h hs => ?_) hnone
  exact ⟨(call_upright h hs).undone, (call_upright h hs).same⟩

/-- Two buffers, a value put into the first and taken out of it into the second. -/
def smallOps : List BufferOp :=
  [.alloc (fun _ => 7) 8, .alloc (fun _ => 9) 4, .putInt 0 (-2), .setPos 0 0, .getBuffer 0 1 [], .putInt 1 5]

theorem representation_kept_small :
    Throughout nextBuffers (fun buffers => ∀ b ∈ buffers, b.Kept) [] smallOps ∧
      Along nextBuffers Orderly [] smallOps :=
  representation_kept (by decide)

/-- A buffer of sixteen bytes is filled from one of eight, with what lies behind it. -/
def overrun : List BufferOp :=
  [.alloc (fun _ => 0) 8, .alloc (fun _ => 0) 16, .getBuffer 0 1 (List.replicate 8 0)]

/-- **A buffer may be emptied beyond its end.** -/
theorem representation_kept_fails :
    ¬ ∀ ops : List BufferOp, Throughout nextBuffers (fun buffers => ∀ b ∈ buffers, b.Kept) [] ops ∧
      Along nextBuffers Orderly [] ops := by
  intro h
  obtain ⟨hall, -⟩ := h overrun
  have hkept := hall overrun [] (List.append_nil _).symm
  have hpos : ∃ b ∈ run nextBuffers [] overrun, ¬ b.block.pos ≤ b.block.size := by decide
  obtain ⟨b, hb, hout⟩ := hpos
  exact hout (hkept b hb).pos

end Cornerstone
