import Cornerstone.Messages

/-! # The log store a server works on

The behaviour `log_store` promises to `raft_server`: a run of entries at
consecutive indexes from `start_index` on.  `fs_log_store` is one implementation
of it.  Throwing operations answer `none`.
-/

namespace Cornerstone
open LittleEndian

/-- The entries from `startIdx` on. -/
structure LogStore where
  startIdx : Nat := 1
  entries : List LogEntry := []
deriving DecidableEq, Repr

namespace LogStore
variable (l : LogStore)

/-- `next_slot`. -/
def nextSlot : Nat := l.startIdx + l.entries.length

/-- `entry_at`, with no answer outside the stored range: below it the code
throws, above it returns a null pointer. -/
def entryAt? (idx : Nat) : Option LogEntry :=
  if idx < l.startIdx then none else l.entries[idx - l.startIdx]?

/-- `term_at`. -/
def termAt? (idx : Nat) : Option Nat := (l.entryAt? idx).map LogEntry.term

/-- `last_entry()->get_term()`; the dummy entry of an empty store has term 0. -/
def lastTerm : Nat := (l.entries.getLast?.map LogEntry.term).getD 0

/-- `append`. -/
def append (e : LogEntry) : LogStore := { l with entries := l.entries ++ [e] }

/-- `write_at` at an index of the store: everything behind it is dropped. -/
def writeAt (idx : Nat) (e : LogEntry) : LogStore :=
  { l with entries := l.entries.take (idx - l.startIdx) ++ [e] }

/-- `log_entries(start, end)` for `start_index() <= start`. -/
def logEntries (first last : Nat) : List LogEntry :=
  (l.entries.drop (first - l.startIdx)).take (last - first)

/-- `compact`: drop everything up to `last`. -/
def compact (last : Nat) : LogStore :=
  { startIdx := last + 1, entries := l.entries.drop (last + 1 - l.startIdx) }

/-- Where each entry starts in a data file that begins with the first of them at
`base`. -/
def offsets (base : Nat) : List LogEntry → List Nat
  | [] => []
  | e :: es => base :: offsets (base + e.serialize.length) es

/-- `pack`: the offsets of the packed entries in the data file, then the entries
themselves, each part behind its length.  Past the end the code answers a nil
buffer, which throws as soon as a message with it is encoded. -/
def pack (idx : Nat) (cnt : Int) : Option Bytes :=
  if idx < l.startIdx ∨ l.nextSlot ≤ idx then none
  else
    let off := idx - l.startIdx
    let last := min ((off + ulongOfInt cnt) % ulongSize) l.entries.length
    let packed := (l.entries.take last).drop off
    let base := ((l.entries.take off).map (·.serialize.length)).sum
    let index := (offsets base packed).flatMap (leBytes 8)
    let data := packed.flatMap LogEntry.serialize
    some (putInt index.length ++ (putInt data.length ++ (index ++ data)))

/-- The offsets in the index part of a pack. -/
def readOffsets : Nat → Bytes → Option (List Nat)
  | 0, _ => some []
  | n + 1, bs => do
    let (o, bs) ← readLE 8 bs
    let os ← readOffsets n bs
    return o :: os

/-- Cut the data part of a pack at its offsets. -/
def cutEntries : List Nat → Bytes → Option (List LogEntry)
  | [], _ => some []
  | [_], data => do
    let e ← LogEntry.deserialize data
    return [e]
  | o :: o' :: os, data => do
    let e ← LogEntry.deserialize (data.take (o' - o))
    let es ← cutEntries (o' :: os) (data.drop (o' - o))
    return e :: es

/-- The entries of a pack. -/
def unpack (bs : Bytes) : Option (List LogEntry) := do
  let (idxLen, bs) ← getInt bs
  let (dataLen, bs) ← getInt bs
  let (index, bs) ← readBytes idxLen.toNat bs
  let (data, _) ← readBytes dataLen.toNat bs
  let offs ← readOffsets (idxLen.toNat / 8) index
  cutEntries offs data

/-- `apply_pack`: from `idx` on the store holds the entries of the pack. -/
def applyPack (idx : Nat) (bs : Bytes) : Option LogStore := do
  let es ← unpack bs
  if idx < l.startIdx ∨ l.nextSlot < idx then none
  else some { l with entries := l.entries.take (idx - l.startIdx) ++ es }

/-- Whether an entry of type `conf` stands at an index above `commitIdx`: the
condition the constructor of `raft_server` looks for. -/
def pendingConf (commitIdx : Nat) : Bool :=
  (l.entries.drop (commitIdx + 1 - l.startIdx)).any LogEntry.isConf

variable {l}

@[simp] theorem append_startIdx (e : LogEntry) : (l.append e).startIdx = l.startIdx := rfl

@[simp] theorem append_entries (e : LogEntry) : (l.append e).entries = l.entries ++ [e] := rfl

@[simp] theorem writeAt_startIdx (idx : Nat) (e : LogEntry) :
    (l.writeAt idx e).startIdx = l.startIdx := rfl

theorem append_nextSlot (e : LogEntry) : (l.append e).nextSlot = l.nextSlot + 1 := by
  simp only [nextSlot, append_startIdx, append_entries, List.length_append, List.length_singleton]
  omega

theorem writeAt_nextSlot {idx : Nat} (e : LogEntry) (h : l.startIdx ≤ idx) (h' : idx ≤ l.nextSlot) :
    (l.writeAt idx e).nextSlot = idx + 1 := by
  simp only [nextSlot, writeAt, List.length_append, List.length_take, List.length_singleton] at h' ⊢
  omega

theorem entryAt?_of_mem {idx : Nat} (h : l.startIdx ≤ idx) :
    l.entryAt? idx = l.entries[idx - l.startIdx]? := by
  rw [entryAt?, if_neg (by omega)]

theorem entryAt?_isSome {idx : Nat} (h : l.startIdx ≤ idx) (h' : idx < l.nextSlot) :
    ∃ e, l.entryAt? idx = some e := by
  rw [entryAt?_of_mem h, nextSlot] at *
  exact ⟨_, List.getElem?_eq_getElem (by omega)⟩

/-- Compacting a log does not take back its end. -/
theorem le_nextSlot_compact {n : Nat} (hge : l.startIdx ≤ n) : l.nextSlot ≤ (l.compact n).nextSlot := by
  have hlen : (l.compact n).entries.length = l.entries.length - (n + 1 - l.startIdx) :=
    List.length_drop
  have hstart : (l.compact n).startIdx = n + 1 := rfl
  rw [nextSlot, nextSlot]
  omega

theorem applyPack_startIdx {idx : Nat} {bs : Bytes} {l' : LogStore}
    (h : l.applyPack idx bs = some l') : l.startIdx = l'.startIdx := by
  rw [applyPack] at h
  obtain ⟨es, -, h⟩ := Option.bind_eq_some_iff.mp h
  split at h
  · cases h
  · cases h
    rfl

end LogStore
end Cornerstone
