import Cornerstone.FsLogStore
import Cornerstone.Handler

/-! # The streams of a store

`fs_log_store` reads and writes its files through two `fstream`s that stay open.  A stream
has a fail bit: a read that comes to the end of the file sets it, and a seek in front of
the file; from then on seeks do nothing, and reads and writes throw.

The operations are taken over from the source once more, with what they leave behind when
they throw.  Where a stream stands is no part of the state: each operation seeks before it
reads or writes.
-/

namespace Cornerstone
open LittleEndian OffsetFile Handlers Handler

/-- Why an operation of a store has no answer: an exception, or an access outside of a
vector, which is undefined. -/
inductive StoreStop
  | throw
  | outOfBounds
deriving DecidableEq, Repr

/-- The streams that are read. -/
inductive StoreStream
  | idx
  | data
deriving DecidableEq, Repr

/-- A store with the fail bits of its streams. -/
structure OpenStore where
  store : FsLogStore
  failed : StoreStream → Bool := fun _ => false

/-- An operation of an open store. -/
abbrev StoreAction := Handler OpenStore Empty StoreStop

namespace OpenStore

/-- The file behind a stream. -/
def bytes (o : OpenStore) : StoreStream → Bytes
  | .idx => o.store.files.idx
  | .data => o.store.files.data

/-- Set the fail bit of a stream. -/
def fail (o : OpenStore) (f : StoreStream) : OpenStore := { o with failed := Function.update o.failed f true }

theorem fail_failed (o : OpenStore) (f : StoreStream) : (o.fail f).failed f = true := by
  rw [fail]
  exact Function.update_self f true o.failed

/-! ## Streams and buffers -/

/-- `seekg`; a position in front of the file is `none`.  It answers where the stream stands
then, if its fail bit is clear. -/
def seekg (f : StoreStream) (pos : Option Nat) : StoreAction Nat := do
  let o ← look
  match pos with
  | some pos => pure pos
  | none => do
    change fun o' => if o.failed f then o' else o'.fail f
    pure 0

/-- `>>` into a buffer of this size, from a position. -/
def readFrom (f : StoreStream) (pos size : Nat) : StoreAction Bytes := do
  let o ← look
  if o.failed f then halt .throw
  else
    match readAt (o.bytes f) pos size with
    | some bs => pure bs
    | none => do
      change fun o => o.fail f
      halt .throw

/-- `>>` into a buffer of a word, and `get_ulong`. -/
def readWordFrom (f : StoreStream) (pos : Nat) : StoreAction Nat := do
  let bs ← readFrom f pos 8
  pure (leNat bs)

/-- `buffer::alloc`; a negative size is a large one. -/
def alloc (size : Int) : StoreAction Nat :=
  if size < 0 ∨ bufferLimit ≤ size then halt .throw else pure size.toNat

/-- `(int)(stop - start)`. -/
def intDistance (start stop : Nat) : Int := int32OfUlong (ulongSub stop start)

/-- `log_entry::deserialize`. -/
def parse (bs : Bytes) : StoreAction LogEntry :=
  match LogEntry.deserialize bs with
  | none => halt .throw
  | some e => pure e

/-- The check of both streams in front of a read. -/
def checkStreams : StoreAction Unit := do
  let o ← look
  if o.failed .data ∨ o.failed .idx then halt .throw else pure ()

/-! ## Reading -/

/-- `entry_at`; `none` is a null pointer. -/
def entryAt (index : Nat) : StoreAction (Option LogEntry) := do
  let o ← look
  let s := o.store
  match s.buf.at? index with
  | some e => pure (some e)
  | none =>
    if index < s.startIdx then halt .throw
    else do
      checkStreams
      if s.nextSlot ≤ index then pure none
      else do
        let pos ← seekg .idx (some (8 * (index - s.startIdx)))
        let dPos ← readWordFrom .idx pos
        let endDPos ← readWordFrom .idx (pos + 8)
        let dPos ← seekg .data (some dPos)
        let size ← alloc (intDistance dPos endDPos)
        let bs ← readFrom .data dPos size
        let e ← parse bs
        pure (some e)

/-- `term_at`. -/
def termAt (index : Nat) : StoreAction Nat := do
  let o ← look
  let s := o.store
  if s.buf.startIdx ≤ index ∧ index < s.buf.lastIdx then pure (s.buf.getTerm index)
  else if index < s.startIdx then halt .throw
  else do
    checkStreams
    let pos ← seekg .idx (wordPos (index - s.startIdx))
    let dPos ← readWordFrom .idx pos
    let dPos ← seekg .data (some dPos)
    readWordFrom .data dPos

/-- `pack`; `none` is a null pointer. -/
def pack (index : Nat) (cnt : Int) : StoreAction (Option Bytes) := do
  let o ← look
  let s := o.store
  if index < s.startIdx then halt .throw
  else do
    checkStreams
    let offset := index - s.startIdx
    if s.entriesInStore ≤ offset then pure none
    else do
      let endOffset := min ((offset + ulongOfInt cnt) % ulongSize) s.entriesInStore
      let pos ← seekg .idx (wordPos offset)
      let size ← alloc (8 * intDistance offset endOffset)
      let idxBuf ← readFrom .idx pos size
      let endOfData ← (if endOffset = s.entriesInStore then pure s.files.data.length
        else readWordFrom .idx (pos + size) : StoreAction Nat)
      match readWord idxBuf 0 with
      | none => halt .throw
      | some startOfData => do
        let dPos ← seekg .data (some startOfData)
        let size ← alloc (intDistance startOfData endOfData)
        let dataBuf ← readFrom .data dPos size
        let _ ← alloc (8 + idxBuf.length + dataBuf.length)
        pure (some (putInt idxBuf.length ++ (putInt dataBuf.length ++ (idxBuf ++ dataBuf))))

/-- `log_store_buffer::fill`.  It answers `start_idx_` and the vector, with null pointers
for what is not in memory.  `buf_` is read, and an `int` negated, without a check. -/
def fill (b : LogStoreBuffer) (start stop : Nat) : StoreAction (Nat × List (Option LogEntry)) :=
  if stop < b.startIdx then pure (b.startIdx, [])
  else
    let offset := intDistance b.startIdx start
    if offset > 0 then
      let count := (intDistance start stop).toNat
      if 0 < count ∧ b.buf.length < offset.toNat + count then halt .outOfBounds
      else pure (b.startIdx, ((b.buf.drop offset.toNat).take count).map some)
    else
      let count := (intDistance b.startIdx stop).toNat
      if offset = -0x80000000 ∨ b.buf.length < count then halt .outOfBounds
      else pure (b.startIdx, List.replicate (-offset).toNat none ++ (b.buf.take count).map some)

/-- The loop of `log_entries` over the entries that are not in memory: `count` of them are
still to be read, the next goes to `results[i]` and ends where the word at `pos` says. -/
def readEntries : (count i pos dataStart : Nat) → List (Option LogEntry) → StoreAction (List (Option LogEntry))
  | 0, _, _, _, results => pure results
  | count + 1, i, pos, dataStart, results => do
    let dataEnd ← readWordFrom .idx pos
    let dataStart ← seekg .data (some dataStart)
    let size ← alloc (intDistance dataStart dataEnd)
    let bs ← readFrom .data dataStart size
    let e ← parse bs
    if results.length ≤ i then halt .outOfBounds
    else readEntries count (i + 1) (pos + 8) dataEnd (results.set i (some e))

/-- `log_entries`; `none` is a null pointer, of the vector as of an entry. -/
def logEntries (start stop : Nat) : StoreAction (Option (List (Option LogEntry))) := do
  let o ← look
  let s := o.store
  if start < s.startIdx then halt .throw
  else if start ≥ stop ∨ start ≥ s.nextSlot then pure none
  else do
    let lstart := start - s.startIdx
    let lend := min (stop - s.startIdx) s.entriesInStore
    let goodEnd := lend + s.startIdx
    if lstart ≥ lend then pure none
    else do
      let (bufferFirstIdx, results) ← fill s.buf start goodEnd
      if start < bufferFirstIdx then do
        checkStreams
        let lend := bufferFirstIdx - s.startIdx
        let pos ← seekg .idx (some (8 * lstart))
        let dataStart ← readWordFrom .idx pos
        let results ← readEntries (intDistance lstart lend).toNat 0 (pos + 8) dataStart results
        pure (some results)
      else pure (some results)

/-! ## Writing -/

/-- `append`.  The offset is written before the encoding is allocated; a data stream that
has failed says it stands at -1. -/
def append (e : LogEntry) : StoreAction Nat := do
  let o ← look
  let s := o.store
  if o.failed .idx then halt .throw
  else do
    let dataPos := if o.failed .data then ulongSize - 1 else s.files.data.length
    change fun o => { o with store.files.idx := s.files.idx ++ leBytes 8 dataPos }
    match e.encode? with
    | none => halt .throw
    | some bytes =>
      if o.failed .data then halt .throw
      else do
        change fun o => { o with
          store.files.data := s.files.data ++ bytes
          store.buf := s.buf.append e
          store.entriesInStore := s.entriesInStore + 1 }
        pure ((s.startIdx + s.entriesInStore) % ulongSize)

/-! ## Good streams -/

/-- No fail bit is set. -/
def Good (o : OpenStore) : Prop := ∀ f, o.failed f = false

variable {o : OpenStore} {f : StoreStream} {pos size : Nat}

theorem readFrom_run {bs : Bytes} (hf : o.failed f = false) (h : readAt (o.bytes f) pos size = some bs) :
    readFrom f pos size o = ⟨.ok bs, o, []⟩ := by
  rw [readFrom, bind_silent (look_run _), hf, if_neg Bool.false_ne_true, h]
  rfl

/-- A read that comes to the end of the file sets the fail bit. -/
theorem readFrom_short (hf : o.failed f = false) (h : readAt (o.bytes f) pos size = none) :
    readFrom f pos size o = ⟨.error .throw, o.fail f, []⟩ := by
  rw [readFrom, bind_silent (look_run _), hf, if_neg Bool.false_ne_true, h]
  rfl

theorem readWordFrom_run {w : Nat} (hf : o.failed f = false) (h : readWord (o.bytes f) pos = some w) :
    readWordFrom f pos o = ⟨.ok w, o, []⟩ := by
  obtain ⟨bs, hbs, rfl⟩ := Option.map_eq_some_iff.mp h
  rw [readWordFrom, bind_silent (readFrom_run hf hbs), pure_run]

theorem readWordFrom_short (hf : o.failed f = false) (h : readWord (o.bytes f) pos = none) :
    readWordFrom f pos o = ⟨.error .throw, o.fail f, []⟩ := by
  have hbs : readAt (o.bytes f) pos 8 = none := Option.map_eq_none_iff.mp h
  rw [readWordFrom, bind_run, readFrom_short hf hbs, Outcome.andThen_error]

theorem seekg_run (f : StoreStream) (pos : Nat) : seekg f (some pos) o = ⟨.ok pos, o, []⟩ := rfl

theorem alloc_run {n : Nat} (h : n < bufferLimit) : alloc n o = ⟨.ok n, o, []⟩ := by
  have hok : ¬ ((n : Int) < 0 ∨ (bufferLimit : Int) ≤ n) := by omega
  rw [alloc, if_neg hok, Int.toNat_natCast, pure_run]

theorem parse_run {bs : Bytes} {e : LogEntry} (h : LogEntry.deserialize bs = some e) :
    parse bs o = ⟨.ok e, o, []⟩ := by
  rw [parse, h]
  rfl

theorem checkStreams_run (hg : o.Good) : checkStreams o = ⟨.ok (), o, []⟩ := by
  rw [checkStreams, bind_silent (look_run _), hg, hg]
  rfl

theorem intDistance_lt (start stop : Nat) : intDistance start stop < bufferLimit := by
  have h := Int.bmod_lt (x := (ulongSub stop start : Int)) (m := uintSize) (by decide)
  rw [intDistance, int32OfUlong]
  simp only [uintSize, bufferLimit] at *
  omega

/-- What `readSized` reads is read by a stream into a buffer of that size. -/
theorem readSized_run {α : Type} {start stop : Nat} {bs : Bytes} (hf : o.failed f = false)
    (h : readSized (o.bytes f) start stop = some bs) (g : Bytes → StoreAction α) :
    (do
      let size ← alloc (intDistance start stop)
      let bs ← readFrom f start size
      g bs : StoreAction α) o = g bs o := by
  rw [readSized, ← intDistance] at h
  split at h
  · cases h
  · rename_i hneg
    have hlt := intDistance_lt start stop
    obtain ⟨n, hn⟩ := Int.eq_ofNat_of_zero_le (not_lt.mp hneg)
    rw [hn] at h hlt ⊢
    rw [Int.toNat_natCast] at h
    rw [bind_silent (alloc_run (Int.ofNat_lt.mp hlt)), bind_silent (readFrom_run hf h)]

/-! ## The operations on good streams -/

/-- **`entry_at`** on good streams answers as on the files. -/
theorem entryAt_run {index : Nat} {e : LogEntry} (hg : o.Good) (h : o.store.entryAt index = some e) :
    entryAt index o = ⟨.ok (some e), o, []⟩ := by
  rw [FsLogStore.entryAt] at h
  rw [entryAt, bind_silent (look_run _)]
  cases hat : o.store.buf.at? index with
  | some e' =>
    rw [hat] at h
    cases h
    rfl
  | none =>
    rw [hat] at h
    dsimp only at h ⊢
    split at h
    · cases h
    · rename_i hin
      obtain ⟨hlo, hhi⟩ := not_or.mp hin
      simp only [Option.bind_eq_bind, Option.bind_eq_some_iff] at h
      obtain ⟨dPos, hd, endDPos, hend, bs, hbs, hparse⟩ := h
      rw [if_neg hlo, bind_silent (checkStreams_run hg), if_neg hhi, bind_silent (seekg_run _ _),
        bind_silent (readWordFrom_run (hg .idx) hd), bind_silent (readWordFrom_run (hg .idx) hend),
        bind_silent (seekg_run _ _), readSized_run (hg .data) hbs, bind_silent (parse_run hparse), pure_run]

/-- **`term_at`** likewise. -/
theorem termAt_run {index term : Nat} (hg : o.Good) (h : o.store.termAt index = some term) :
    termAt index o = ⟨.ok term, o, []⟩ := by
  rw [FsLogStore.termAt] at h
  rw [termAt, bind_silent (look_run _)]
  split at h
  · rename_i hin
    cases h
    rw [if_pos hin, pure_run]
  · rename_i hout
    rw [if_neg hout]
    split at h
    · cases h
    · rename_i hlo
      simp only [Option.bind_eq_bind, Option.bind_eq_some_iff] at h
      obtain ⟨pos, hpos, dPos, hd, hterm⟩ := h
      rw [if_neg hlo, bind_silent (checkStreams_run hg), hpos, bind_silent (seekg_run _ _),
        bind_silent (readWordFrom_run (hg .idx) hd), bind_silent (seekg_run _ _), readWordFrom_run (hg .data) hterm]

theorem readAt_zero {f bs : Bytes} (h : readAt f pos 0 = some bs) : bs = [] := by
  rw [readAt] at h
  split at h
  · cases h
    exact List.take_zero
  · cases h

/-- A number of words that is not negative as an `int`, as the size of a buffer. -/
theorem alloc_words {a b size : Nat} (hab : a ≤ b) (hb : b < ulongSize) (hsize : wordPos (b - a) = some size)
    (hlt : size < bufferLimit) : alloc (8 * intDistance a b) o = ⟨.ok size, o, []⟩ := by
  have hdist : intDistance a b = int32OfUlong (b - a) := by rw [intDistance, ulongSub_of_le hab hb]
  rw [wordPos] at hsize
  split at hsize
  · cases hsize
  · rename_i hneg
    obtain ⟨n, hn⟩ := Int.eq_ofNat_of_zero_le (not_lt.mp hneg)
    rw [hn, Int.toNat_natCast] at hsize
    cases hsize
    rw [hdist, hn]
    exact alloc_run hlt

/-- **`pack`** likewise. -/
theorem pack_run {index : Nat} {cnt : Int} {bs : Bytes} (hg : o.Good) (h : o.store.pack index cnt = some bs) :
    pack index cnt o = ⟨.ok (some bs), o, []⟩ := by
  rw [FsLogStore.pack] at h
  split at h
  · cases h
  · rename_i hin
    obtain ⟨hlo, hhi⟩ := not_or.mp hin
    have hstopLt : min ((index - o.store.startIdx + ulongOfInt cnt) % ulongSize) o.store.entriesInStore < ulongSize :=
      lt_of_le_of_lt (min_le_left _ _) (Nat.mod_lt _ (by decide))
    generalize hoffset : index - o.store.startIdx = offset at h hhi hstopLt
    generalize hstop : min ((offset + ulongOfInt cnt) % ulongSize) o.store.entriesInStore = stop at h hstopLt
    simp only [Option.bind_eq_bind, Option.bind_eq_some_iff] at h
    obtain ⟨pos, hpos, size, hsize, idxBuf, hidx, h⟩ := h
    obtain ⟨endOfData, hend, h⟩ : ∃ d, (if stop = o.store.entriesInStore then pure o.store.files.data.length
        else readWordFrom .idx (pos + size) : StoreAction Nat) o = ⟨.ok d, o, []⟩ ∧
          ((readWord idxBuf 0).bind fun startOfData => (readSized o.store.files.data startOfData d).bind fun dataBuf =>
            if 8 + idxBuf.length + dataBuf.length < bufferLimit then
              some (putInt idxBuf.length ++ (putInt dataBuf.length ++ (idxBuf ++ dataBuf))) else none) = some bs := by
      by_cases hall : stop = o.store.entriesInStore
      · rw [if_pos hall, Option.bind_some] at h
        rw [if_pos hall]
        refine ⟨o.store.files.data.length, pure_run _ _, ?_⟩
        exact h
      · rw [if_neg hall] at h ⊢
        obtain ⟨d, hd, h⟩ := Option.bind_eq_some_iff.mp h
        exact ⟨d, readWordFrom_run (hg .idx) hd, h⟩
    simp only [Option.bind_eq_some_iff] at h
    obtain ⟨startOfData, hstart, dataBuf, hdata, h⟩ := h
    split at h
    · rename_i hroom
      cases h
      obtain ⟨hblock, hlt⟩ : readAt o.store.files.idx pos size = some idxBuf ∧ size < bufferLimit := by
        rw [readBlock, Nat.add_sub_cancel_left] at hidx
        split at hidx
        · cases hidx
        · exact ⟨hidx, by omega⟩
      have hge : offset ≤ stop := by
        by_contra hback
        have hzero : stop - offset = 0 := by omega
        rw [hzero] at hsize
        cases hsize
        cases readAt_zero hblock
        cases hstart
      have hlast : alloc (8 + idxBuf.length + dataBuf.length) o = ⟨.ok (8 + idxBuf.length + dataBuf.length), o, []⟩ := by
        exact_mod_cast alloc_run hroom
      rw [pack, bind_silent (look_run _)]
      dsimp only
      rw [if_neg hlo, bind_silent (checkStreams_run hg), hoffset, if_neg hhi, hstop, hpos,
        bind_silent (seekg_run _ _), bind_silent (alloc_words hge hstopLt hsize hlt),
        bind_silent (readFrom_run (hg .idx) hblock), bind_silent hend, hstart]
      dsimp only
      rw [bind_silent (seekg_run _ _), readSized_run (hg .data) hdata, bind_silent hlast, pure_run]
    · cases h

/-- **`append`** likewise. -/
theorem append_run {e : LogEntry} {s : FsLogStore} (hg : o.Good) (h : o.store.append e = some s) :
    append e o = ⟨.ok ((o.store.startIdx + o.store.entriesInStore) % ulongSize), { o with store := s }, []⟩ := by
  simp only [FsLogStore.append, Option.bind_eq_bind, Option.bind_eq_some_iff] at h
  obtain ⟨bytes, hbytes, hs⟩ := h
  cases hs
  rw [append, bind_silent (look_run _)]
  dsimp only
  rw [hg .idx, hg .data, hbytes, if_neg Bool.false_ne_true]
  rfl

/-- Behind a read that failed nothing can be appended. -/
theorem append_failed (e : LogEntry) (h : o.failed .idx = true) : append e o = ⟨.error .throw, o, []⟩ := by
  rw [append, bind_silent (look_run _), h]
  rfl

end OpenStore
end Cornerstone
