import Cornerstone.FsLogStoreRefines

/-! # Writing over the last entry

`write_at` cuts the files behind the entry it writes only where the index file goes on
behind it.  Over the last entry it does not: a shorter encoding leaves the end of the old
one in the data file, and the entry is read back with it.
-/

namespace Cornerstone
open LittleEndian OffsetFile

/-- The files hold these entries and nothing else: one offset for each, from 0 on, and
the encoding of each from its offset to the next. -/
structure OnDisk (f : LogFiles) (es : List LogEntry) : Prop where
  idx : f.idx = encode (offsets 0 (es.map LogEntry.serialize))
  data : f.data = (es.map LogEntry.serialize).flatten

/-- The files hold the log, and a store opened on them answers as the log does. -/
structure Preserved (f : LogFiles) (l : LogStore) : Prop where
  onDisk : OnDisk f l.entries
  reopened : ∀ bufSize, l.Fits 0 (.reopen bufSize) →
    ∃ s, FsLogStore.openOn f bufSize = some s ∧ ReadsAs s l

/-- The operations that leave no bytes of an entry behind. -/
def Covering (l : LogStore) (size : Nat) (op : StoreOp) : Prop := Covers l op ∧ l.Fits size op

instance (l : LogStore) (size : Nat) (op : StoreOp) : Decidable (Covering l size op) :=
  inferInstanceAs (Decidable (_ ∧ _))

variable {s : FsLogStore} {l : LogStore} {size : Nat}

theorem HoldsLog.run {ops : List StoreOp} (h : HoldsLog s l size) (hops : EveryStep Covering l size ops) :
    ∃ s' size', s.run ops = some s' ∧ HoldsLog s' (l.run ops) size' := by
  induction ops generalizing s l size with
  | nil => exact ⟨s, size, rfl, h⟩
  | cons op ops ih =>
    obtain ⟨s₁, hstep, h₁, -⟩ := h.perform hops.1.2 hops.1.1
    obtain ⟨s', size', hrun, h'⟩ := ih h₁ hops.2
    refine ⟨s', size', ?_, h'⟩
    rw [FsLogStore.run, hstep, Option.bind_some]
    exact hrun

theorem HoldsLog.preserved (h : HoldsLog s l size) : Preserved s.files l := by
  refine ⟨⟨h.laid.image.idx, h.laid.image.data⟩, fun bufSize hf => ?_⟩
  obtain ⟨s', hrun, hlaid, hwin, hidx, -⟩ := h.laid.reopen (h.fits hf)
  exact ⟨s', hrun, hwin.readsAs hlaid (hidx.trans h.startIdx)⟩

/-- **A reopening loses nothing**, after every run in which an entry that is written over
the last one is at least as long. -/
theorem image_preserved {bufSize : Int} (ops : List StoreOp) (hpos : 1 ≤ bufferSize bufSize)
    (hops : EveryStep Covering {} (bufferSize bufSize) ops) :
    ∃ s, (FsLogStore.openOn {} bufSize).bind (·.run ops) = some s ∧
      Preserved s.files (({} : LogStore).run ops) := by
  obtain ⟨s₀, hopen, hlaid, -, hidx, hsize⟩ := Laid.fresh hpos
  have hstart : HoldsLog s₀ {} (bufferSize bufSize) := ⟨hsize, hidx, hlaid⟩
  obtain ⟨s, size, hrun, h⟩ := hstart.run hops
  refine ⟨s, ?_, h.preserved⟩
  rw [hopen, Option.bind_some, hrun]

/-- A longer entry over the last one, a shorter one over an earlier one, and a compaction. -/
theorem image_preserved_written :
    ∃ s, (FsLogStore.openOn {} 1).bind (·.run [.append ⟨1, [5], .appLog⟩, .append ⟨1, [6], .appLog⟩,
        .writeAt 2 ⟨2, [7, 7], .appLog⟩, .append ⟨2, [8], .appLog⟩, .writeAt 2 ⟨3, [], .appLog⟩,
        .compact 1]) = some s ∧ Preserved s.files ⟨2, [⟨3, [], .appLog⟩]⟩ :=
  image_preserved [.append ⟨1, [5], .appLog⟩, .append ⟨1, [6], .appLog⟩,
    .writeAt 2 ⟨2, [7, 7], .appLog⟩, .append ⟨2, [8], .appLog⟩, .writeAt 2 ⟨3, [], .appLog⟩, .compact 1]
    (by decide) (by decide)

/-- A shorter entry over the last one is read back with the end of the old one. -/
theorem image_preserved_fails :
    EveryStep LogStore.Fits {} 1 [.append ⟨1, [5, 6], .appLog⟩, .writeAt 1 ⟨2, [], .appLog⟩] ∧
      ∃ s, (FsLogStore.openOn {} 1).bind
          (·.run [.append ⟨1, [5, 6], .appLog⟩, .writeAt 1 ⟨2, [], .appLog⟩]) = some s ∧
        ¬ Preserved s.files ⟨1, [⟨2, [], .appLog⟩]⟩ ∧
        (FsLogStore.openOn s.files 1).bind (·.entryAt 1) = some ⟨2, [5, 6], .appLog⟩ := by
  refine ⟨by decide, ⟨⟨leBytes 8 0, leBytes 8 2 ++ [1, 5, 6], leBytes 8 1⟩, 1, 1, 1,
    ⟨1, 1, [⟨2, [], .appLog⟩]⟩⟩, by decide, fun h => ?_, by decide⟩
  exact absurd h.onDisk.data (by decide)

end Cornerstone
