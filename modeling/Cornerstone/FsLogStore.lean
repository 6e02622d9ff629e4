import Cornerstone.LogStore
import Cornerstone.OffsetFile

/-! # The file-based log store

`fs_log_store` keeps its entries in a data file, one behind the other, with the offset of
each in an index file and the index of the first in a third file; the last entries are
also kept in memory, in a `log_store_buffer`.  The files are the bytes they hold, file
operations succeed, and `none` is a thrown exception: a range check, a buffer too large
for `buffer::alloc`, a read past the end of a file.  What a store does after an exception
is left open, but for what reads of it throw.

`fstream`s have no state here between two operations: each seeks before it reads or
writes.
-/

namespace Cornerstone
open LittleEndian OffsetFile

/-! ## The entries in memory -/

/-- `log_store_buffer`. -/
structure LogStoreBuffer where
  startIdx : Nat
  maxSize : Nat
  buf : List LogEntry := []
deriving DecidableEq, Repr

namespace LogStoreBuffer
variable (b : LogStoreBuffer)

/-- `last_idx`, one past the last entry. -/
def lastIdx : Nat := b.startIdx + b.buf.length

/-- `operator[]`. -/
def at? (idx : Nat) : Option LogEntry :=
  if idx < b.startIdx then none else b.buf[idx - b.startIdx]?

/-- `get_term`. -/
def getTerm (idx : Nat) : Nat := ((b.at? idx).map LogEntry.term).getD 0

/-- `trim`: drop everything from `start` on, unless that is below the buffer. -/
def trim (start : Nat) : LogStoreBuffer :=
  if start < b.startIdx then b else { b with buf := b.buf.take (start - b.startIdx) }

/-- `append`: over `max_size_` the first entry goes. -/
def append (e : LogEntry) : LogStoreBuffer :=
  let buf := b.buf ++ [e]
  if b.maxSize < buf.length then { b with buf := buf.tail, startIdx := b.startIdx + 1 }
  else { b with buf := buf }

/-- `append` of one entry after the other. -/
def appendAll (es : List LogEntry) : LogStoreBuffer := es.foldl append b

/-- `reset`. -/
def reset (startIdx : Nat) : LogStoreBuffer := { b with buf := [], startIdx := startIdx }

end LogStoreBuffer

/-! ## Bytes -/

/-- `log_entry::serialize`, which allocates the buffer it answers. -/
def LogEntry.encode? (e : LogEntry) : Option Bytes :=
  if 8 + 1 + e.buf.length < bufferLimit then some e.serialize else none

/-- Read the bytes of a file from `start` to `stop` into a new buffer. -/
def readBlock (f : Bytes) (start stop : Nat) : Option Bytes :=
  if stop < start ∨ bufferLimit ≤ stop - start then none else readAt f start (stop - start)

/-- Read the bytes of a file from `start` to `stop` into a buffer whose size is cast to an
`int` first. -/
def readSized (f : Bytes) (start stop : Nat) : Option Bytes :=
  if int32OfUlong (ulongSub stop start) < 0 then none
  else readAt f start (int32OfUlong (ulongSub stop start)).toNat

/-- `static_cast<int>(offset) * sz_ulong` as the position of a word. -/
def wordPos (offset : Nat) : Option Nat :=
  if int32OfUlong offset < 0 then none else some (8 * (int32OfUlong offset).toNat)

/-- The loop of `fill_buffer`: each entry ends where the next starts, the last one at the
end of the data file. -/
def fillEntries (data : Bytes) : Nat → List Nat → Option (List LogEntry)
  | start, [] => do
    let bs ← readBlock data start data.length
    let e ← LogEntry.deserialize bs
    return [e]
  | start, stop :: rest => do
    let bs ← readBlock data start stop
    let e ← LogEntry.deserialize bs
    let es ← fillEntries data stop rest
    return e :: es

/-! ## The store -/

/-- The files of a store. -/
structure LogFiles where
  idx : Bytes := []
  data : Bytes := []
  startIdx : Bytes := []
deriving DecidableEq, Repr

/-- What `write_at` and `apply_pack` do to the files: write behind the given positions, and
truncate both files if the index file goes on behind what was written. -/
def LogFiles.patch (f : LogFiles) (idxPos dataPos : Nat) (idxBytes dataBytes : Bytes) : LogFiles :=
  let idx := overwrite f.idx idxPos idxBytes
  let data := overwrite f.data dataPos dataBytes
  if idxPos + idxBytes.length < idx.length then
    { f with idx := idx.take (idxPos + idxBytes.length), data := data.take (dataPos + dataBytes.length) }
  else { f with idx := idx, data := data }

/-- `fs_log_store`. -/
structure FsLogStore where
  files : LogFiles
  entriesInStore : Nat
  startIdx : Nat
  bufSize : Nat
  buf : LogStoreBuffer
deriving DecidableEq, Repr

namespace FsLogStore
variable (s : FsLogStore)

/-- `next_slot`. -/
def nextSlot : Nat := (s.startIdx + s.entriesInStore) % ulongSize

/-- `last_entry`; `none` is the dummy entry. -/
def lastEntry : Option LogEntry := s.buf.buf.getLast?

/-- Where the entries in memory start once the buffer is filled anew. -/
def windowStart : Nat :=
  if s.entriesInStore > s.bufSize then (s.entriesInStore + s.startIdx - s.bufSize) % ulongSize
  else s.startIdx

/-- `fill_buffer`. -/
def fillBuffer : Option FsLogStore :=
  if s.files.idx.length = 0 then some s
  else do
    let idxBuf ← readBlock s.files.idx (8 * ulongSub s.buf.startIdx s.startIdx) s.files.idx.length
    let offs ← LogStore.readOffsets ((idxBuf.length + 7) / 8) idxBuf
    match offs with
    | [] => none
    | start :: stops => do
      let es ← fillEntries s.files.data start stops
      return { s with buf := s.buf.appendAll es }

/-- Empty the buffer and fill it anew. -/
def refill : Option FsLogStore := { s with buf := s.buf.reset s.windowStart }.fillBuffer

/-- The constructor, on the files of a folder. -/
def openOn (files : LogFiles) (bufSize : Int) : Option FsLogStore := do
  let size := if bufSize < 0 then 0x7fffffff else bufSize.toNat
  if files.startIdx.length > 0 then do
    let start ← readWord files.startIdx 0
    let s : FsLogStore := ⟨files, files.idx.length / 8, start, size, ⟨start, size, []⟩⟩
    s.refill
  else do
    let files := { files with startIdx := leBytes 8 1 }
    let s : FsLogStore := ⟨files, 0, 1, size, ⟨1, size, []⟩⟩
    s.refill

/-- `append`; it answers the index of the entry, `next_slot - 1` afterwards. -/
def append (e : LogEntry) : Option FsLogStore := do
  let bytes ← e.encode?
  return { s with
    files := { s.files with
      idx := s.files.idx ++ leBytes 8 s.files.data.length
      data := s.files.data ++ bytes }
    buf := s.buf.append e
    entriesInStore := s.entriesInStore + 1 }

/-- The data position of the entry at an offset, or the end of the data file. -/
def dataPos (offset : Nat) : Option Nat :=
  if offset < s.entriesInStore then readWord s.files.idx (8 * offset) else some s.files.data.length

/-- `write_at`. -/
def writeAt (index : Nat) (e : LogEntry) : Option FsLogStore := do
  if index < s.startIdx ∨ index > s.nextSlot then none
  else do
    let offset := index - s.startIdx
    let pos ← s.dataPos offset
    let bytes ← e.encode?
    return { s with
      files := LogFiles.patch s.files (8 * offset) pos (leBytes 8 pos) bytes
      buf := (if offset < s.entriesInStore then s.buf.trim index else s.buf).append e
      entriesInStore := offset + 1 }

/-- `entry_at`; `none` is an exception, or the null pointer above the store. -/
def entryAt (index : Nat) : Option LogEntry :=
  match s.buf.at? index with
  | some e => some e
  | none =>
    if index < s.startIdx ∨ s.nextSlot ≤ index then none
    else do
      let pos := 8 * (index - s.startIdx)
      let dPos ← readWord s.files.idx pos
      let endDPos ← readWord s.files.idx (pos + 8)
      let bs ← readSized s.files.data dPos endDPos
      LogEntry.deserialize bs

/-- `term_at`. -/
def termAt (index : Nat) : Option Nat :=
  if s.buf.startIdx ≤ index ∧ index < s.buf.lastIdx then some (s.buf.getTerm index)
  else if index < s.startIdx then none
  else do
    let pos ← wordPos (index - s.startIdx)
    let dPos ← readWord s.files.idx pos
    readWord s.files.data dPos

/-- `pack`; `none` is an exception, or the null pointer above the store. -/
def pack (index : Nat) (cnt : Int) : Option Bytes :=
  let offset := index - s.startIdx
  if index < s.startIdx ∨ s.entriesInStore ≤ offset then none
  else do
    let endOffset := min ((offset + ulongOfInt cnt) % ulongSize) s.entriesInStore
    let pos ← wordPos offset
    let size ← wordPos (endOffset - offset)
    let idxBuf ← readBlock s.files.idx pos (pos + size)
    let endOfData ← if endOffset = s.entriesInStore then some s.files.data.length
      else readWord s.files.idx (pos + size)
    let startOfData ← readWord idxBuf 0
    let dataBuf ← readSized s.files.data startOfData endOfData
    if 8 + idxBuf.length + dataBuf.length < bufferLimit then
      some (putInt idxBuf.length ++ (putInt dataBuf.length ++ (idxBuf ++ dataBuf)))
    else none

/-- `apply_pack`.  The lengths in front of the pack are taken as they are; a pack that is
shorter than they say would be read beyond its end. -/
def applyPack (index : Nat) (pack : Bytes) : Option FsLogStore := do
  let (idxLen, bs) ← getInt pack
  let (dataLen, bs) ← getInt bs
  let localIdx := ulongSub index s.startIdx
  let (idxPos, dataPos) ←
    if localIdx = s.entriesInStore then some (s.files.idx.length, s.files.data.length)
    else (readWord s.files.idx (8 * localIdx % ulongSize)).map fun pos =>
      (8 * localIdx % ulongSize, pos)
  let (idxBytes, bs) ← readBytes idxLen.toNat bs
  let (dataBytes, _) ← readBytes dataLen.toNat bs
  refill { s with
    files := LogFiles.patch s.files idxPos dataPos idxBytes dataBytes
    entriesInStore := localIdx + idxLen.toNat / 8 }

/-- `compact`. -/
def compact (lastLogIndex : Nat) : Option FsLogStore :=
  let next := (lastLogIndex + 1) % ulongSize
  let startIdx := overwrite s.files.startIdx 0 (leBytes 8 next)
  if lastLogIndex < s.startIdx then none
  else if lastLogIndex ≥ ulongSub s.nextSlot 1 then
    -- all entries go
    some { s with
      files := ⟨[], [], startIdx⟩
      startIdx := next
      entriesInStore := 0
      buf := s.buf.reset next }
  else do
    let idxPos := 8 * (lastLogIndex - s.startIdx + 1)
    let dataPos ← readWord s.files.idx idxPos
    let idxLen := s.files.idx.length - idxPos
    let offs ← LogStore.readOffsets (idxLen / 8) (s.files.idx.drop idxPos)
    if s.files.data.length < dataPos then none
    else
      refill { s with
        files := {
          idx := (overwrite s.files.idx 0 (encode (offs.map (ulongSub · dataPos)))).take idxLen
          data := s.files.data.drop dataPos
          startIdx := startIdx }
        startIdx := next
        entriesInStore := s.entriesInStore - (lastLogIndex - s.startIdx + 1) }

end FsLogStore
end Cornerstone
