import Cornerstone.StoreStreams

/-! # Compaction on the files

`compact` once more, this time with the files of the folder, the streams that are open on
them, and the operations that may fail on the way.  It writes backups of the three files,
works on the files, and if that is left by `break` it removes them and writes them anew
from the backups.

A stream is open on a file or on none, has a fail bit and one position for reading and
writing.  What is written goes to the file at once.  The operations of the restore
section, like those that write the backups, fail only for want of a file.
-/

namespace Cornerstone
open LittleEndian OffsetFile Handlers Handler

/-- The files of a folder, and the streams that are named after them. -/
inductive LogFile
  | idx
  | data
  | startIdx
  | idxBak
  | dataBak
  | startIdxBak
deriving DecidableEq, Repr

/-- An `fstream`. -/
structure FileStream where
  file : Option LogFile := none
  failed : Bool := false
  pos : Nat := 0
deriving DecidableEq, Repr

/-- A store with its folder. -/
structure FolderStore where
  disk : LogFile → Option Bytes
  stream : LogFile → FileStream
  entriesInStore : Nat
  startIdx : Nat
  bufSize : Nat
  buf : LogStoreBuffer

/-- The operations of `compact` that may fail behind the backups. -/
inductive FailPoint
  | removeIdx
  | removeData
  | createIdx
  | createData
  | reopenIdx
  | reopenData
  | truncateData
  | truncateIdx
deriving DecidableEq, Repr

/-- An operation on the files. -/
abbrev FileAction := Handler FolderStore Empty StoreStop

namespace FolderStore
variable (o : FolderStore)

/-- What the stream reads. -/
def content (f : LogFile) : Bytes := ((o.stream f).file.bind o.disk).getD []

def setStream (f : LogFile) (s : FileStream) : FolderStore := { o with stream := Function.update o.stream f s }

def setFile (p : LogFile) (c : Option Bytes) : FolderStore := { o with disk := Function.update o.disk p c }

/-- Set the fail bit of a stream. -/
def fail (f : LogFile) : FolderStore := o.setStream f { o.stream f with failed := true }

/-! ## Streams -/

/-- `open` to create or empty a file. -/
def openOut (f p : LogFile) (fails : Bool) : FolderStore :=
  if (o.stream f).file.isSome ∨ fails then o.fail f else (o.setFile p (some [])).setStream f ⟨some p, false, 0⟩

/-- `open` to read and write a file that exists, from its start. -/
def openIn (f p : LogFile) : FolderStore :=
  if (o.stream f).file.isSome ∨ o.disk p = none then o.fail f else o.setStream f ⟨some p, false, 0⟩

/-- `open` to read and write a file that exists, from its end. -/
def openAte (f p : LogFile) (fails : Bool) : FolderStore :=
  if (o.stream f).file.isSome ∨ fails ∨ o.disk p = none then o.fail f
  else o.setStream f ⟨some p, false, ((o.disk p).getD []).length⟩

/-- `close`. -/
def close (f : LogFile) : FolderStore :=
  if (o.stream f).file.isSome then o.setStream f { o.stream f with file := none } else o.fail f

/-- `seekg` and `seekp`. -/
def seek (f : LogFile) (pos : Nat) : FolderStore :=
  if (o.stream f).failed then o
  else if (o.stream f).file.isSome then o.setStream f { o.stream f with pos := pos } else o.fail f

/-- `<<` of the buffer of another stream: all that is behind where that stands.  Nothing to
copy is a failure. -/
def copy (src dst : LogFile) : FolderStore :=
  let bytes := (o.content src).drop (o.stream src).pos
  if (o.stream dst).failed then o
  else
    match (o.stream dst).file with
    | none => o.fail dst
    | some p =>
      if bytes = [] then o.fail dst
      else
        let read := o.setStream src { o.stream src with pos := (o.content src).length }
        let written := read.setFile p (some (overwrite (o.content dst) (o.stream dst).pos bytes))
        written.setStream dst { o.stream dst with pos := (o.stream dst).pos + bytes.length }

/-- `tellp`. -/
def tell (f : LogFile) : Nat := if (o.stream f).failed then ulongSize - 1 else (o.stream f).pos

/-- The store, without its streams and backups. -/
def toStore : FsLogStore :=
  ⟨⟨(o.disk .idx).getD [], (o.disk .data).getD [], (o.disk .startIdx).getD []⟩, o.entriesInStore, o.startIdx, o.bufSize,
    o.buf⟩

/-- `>>` of a word. -/
def readStream (f : LogFile) : FileAction Nat := do
  let o ← look
  if (o.stream f).failed then halt .throw
  else
    match readWord (o.content f) (o.stream f).pos with
    | none => do
      change fun o => o.fail f
      halt .throw
    | some w => do
      change fun o => o.setStream f { o.stream f with pos := (o.stream f).pos + 8 }
      pure w

/-- `<<` of a word. -/
def writeStream (f : LogFile) (w : Nat) : FileAction Unit := do
  let o ← look
  if (o.stream f).failed then halt .throw
  else
    match (o.stream f).file with
    | none => do
      change fun o => o.fail f
      halt .throw
    | some p =>
      change fun o => (o.setFile p (some (overwrite (o.content f) (o.stream f).pos (leBytes 8 w)))).setStream f
        { o.stream f with pos := (o.stream f).pos + 8 }

/-- `remove`, and whether it returned 0. -/
def remove (p : LogFile) (fails : Bool) : FileAction Bool := do
  let o ← look
  if fails ∨ o.disk p = none then pure false
  else do
    change fun o => o.setFile p none
    pure true

/-- `truncate`, and whether it returned 0. -/
def truncate (p : LogFile) (size : Nat) (fails : Bool) : FileAction Bool := do
  let o ← look
  match o.disk p with
  | none => pure false
  | some bs =>
    if fails then pure false
    else do
      change fun o => o.setFile p (some (bs.take size))
      pure true

/-! ## The parts of `compact` -/

/-- Open the stream of a backup. -/
def openBackup (f : LogFile) : FileAction Unit := do
  change fun o => o.openIn f f
  let o ← look
  if (o.stream f).failed then do
    change fun o => o.openOut f f false
    change fun o => o.close f
    change fun o => o.openIn f f

/-- Write the backups; `false` if they cannot be written. -/
def backUp : FileAction Bool := do
  let _ ← remove .idxBak false
  let _ ← remove .dataBak false
  let _ ← remove .startIdxBak false
  openBackup .idxBak
  openBackup .dataBak
  openBackup .startIdxBak
  let o ← look
  if (o.stream .idxBak).failed ∨ (o.stream .dataBak).failed ∨ (o.stream .startIdxBak).failed then pure false
  else do
    change fun o => ((o.seek .idx 0).seek .data 0).seek .startIdx 0
    change fun o => ((o.copy .idx .idxBak).copy .data .dataBak).copy .startIdx .startIdxBak
    pure true

/-- Close the backups. -/
def closeBackups (o : FolderStore) : FolderStore := ((o.close .idxBak).close .dataBak).close .startIdxBak

/-- Write the new start index to its file. -/
def saveStartIdx (startIdx : Nat) : FileAction Unit := do
  change fun o => o.seek .startIdx 0
  writeStream .startIdx startIdx

/-- Create a file anew and open it. -/
def recreate (f : LogFile) (createFails reopenFails : Bool) (o : FolderStore) : FolderStore :=
  ((o.openOut f f createFails).close f).openAte f f reopenFails

/-- All entries go; `false` is a `break`. -/
def clearFiles (fails : FailPoint → Bool) (lastLogIndex : Nat) : FileAction Bool := do
  change fun o => (o.close .idx).close .data
  let removed ← remove .idx (fails .removeIdx)
  if removed = false then pure false
  else do
    let removed ← remove .data (fails .removeData)
    if removed = false then pure false
    else do
      change (recreate .idx (fails .createIdx) (fails .reopenIdx))
      change (recreate .data (fails .createData) (fails .reopenData))
      let o ← look
      if (o.stream .idx).failed ∨ (o.stream .data).failed then pure false
      else do
        let startIdx := (lastLogIndex + 1) % ulongSize
        saveStartIdx startIdx
        change fun o => { o with startIdx := startIdx, entriesInStore := 0, buf := o.buf.reset startIdx }
        change closeBackups
        pure true

/-- The loop over the offsets behind those that go. -/
def shiftOffsets (dataPos : Nat) : Nat → FileAction Unit
  | 0 => pure ()
  | n + 1 => do
    let pos ← readStream .idxBak
    writeStream .idx (ulongSub pos dataPos)
    shiftOffsets dataPos n

/-- The part of a compaction that works on the index file, and the end of it. -/
def cutIdxFile (fails : FailPoint → Bool) (lastLogIndex dataPos idxPos idxLen : Nat) : FileAction Bool := do
  change fun o => (o.seek .idxBak idxPos).seek .idx 0
  shiftOffsets dataPos (idxLen / 8)
  change fun o => o.close .idx
  let cut ← truncate .idx idxLen (fails .truncateIdx)
  if cut = false then pure false
  else do
    change fun o => o.openAte .idx .idx (fails .reopenIdx)
    let o ← look
    if (o.stream .idx).failed then pure false
    else do
      change closeBackups
      saveStartIdx ((lastLogIndex + 1) % ulongSize)
      change fun o => { o with
        entriesInStore := o.entriesInStore - (lastLogIndex - o.startIdx + 1)
        startIdx := (lastLogIndex + 1) % ulongSize }
      let o ← look
      match o.toStore.refill with
      | none => halt .throw
      | some s => do
        change fun o => { o with buf := s.buf }
        pure true

/-- The entries up to an index go; `false` is a `break`. -/
def cutFiles (fails : FailPoint → Bool) (lastLogIndex : Nat) : FileAction Bool := do
  let o ← look
  let idxPos := 8 * (lastLogIndex - o.startIdx + 1)
  change fun o => o.seek .idx idxPos
  let dataPos ← readStream .idx
  change fun o => (o.seek .idx (o.content .idx).length).seek .data (o.content .data).length
  let o ← look
  let idxLen := ulongSub (o.tell .idx) idxPos
  let dataLen := ulongSub (o.tell .data) dataPos
  change fun o => ((o.seek .dataBak dataPos).seek .data 0).copy .dataBak .data
  change fun o => o.close .data
  let cut ← truncate .data dataLen (fails .truncateData)
  if cut = false then pure false
  else do
    change fun o => o.openAte .data .data (fails .reopenData)
    let o ← look
    if (o.stream .data).failed then pure false
    else cutIdxFile fails lastLogIndex dataPos idxPos idxLen

/-- The `do` block: `true` if it returns, `false` if it is left by `break`. -/
def compactFiles (fails : FailPoint → Bool) (lastLogIndex : Nat) : FileAction Bool := do
  let o ← look
  if lastLogIndex ≥ ulongSub ((o.startIdx + o.entriesInStore) % ulongSize) 1 then clearFiles fails lastLogIndex
  else cutFiles fails lastLogIndex

/-- Close a stream that has not failed. -/
def closeGood (f : LogFile) (o : FolderStore) : FolderStore := if (o.stream f).failed then o else o.close f

/-- The restore section.  The data stream is opened on the backup where the other two
streams are opened on their files. -/
def restore : FileAction Bool := do
  change (closeGood .idx)
  change (closeGood .data)
  change (closeGood .startIdx)
  let _ ← remove .idx false
  let _ ← remove .data false
  let _ ← remove .startIdx false
  change fun o => ((o.seek .idxBak 0).seek .dataBak 0).seek .startIdxBak 0
  change fun o => ((o.openOut .data .dataBak false).close .data).openAte .data .data false
  change (recreate .idx false false)
  change (recreate .startIdx false false)
  let o ← look
  if (o.stream .idx).failed ∨ (o.stream .data).failed ∨ (o.stream .startIdx).failed then halt .throw
  else do
    change fun o => ((o.copy .dataBak .data).copy .idxBak .idx).copy .startIdxBak .startIdx
    change closeBackups
    pure false

/-- The streams at the start of their files. -/
def rewound (o : FolderStore) : FolderStore := ((o.seek .idx 0).seek .data 0).seek .startIdx 0

/-- `compact`. -/
def compact (fails : FailPoint → Bool) (lastLogIndex : Nat) : FileAction Bool := do
  let o ← look
  if lastLogIndex < o.startIdx then halt .throw
  else do
    change rewound
    let good ← backUp
    if good = false then pure false
    else do
      let done ← compactFiles fails lastLogIndex
      if done = true then pure true else restore

/-! ## What an operation leaves alone -/

variable {o} {f g p q : LogFile} {b b' : Bool}

@[simp] theorem setStream_self (o : FolderStore) (f : LogFile) (s : FileStream) : (o.setStream f s).stream f = s := by
  rw [setStream]
  exact Function.update_self f s o.stream

@[simp] theorem setStream_other (o : FolderStore) (s : FileStream) (h : g ≠ f) :
    (o.setStream f s).stream g = o.stream g := by
  rw [setStream]
  exact Function.update_of_ne h s o.stream

@[simp] theorem setStream_disk (o : FolderStore) (f : LogFile) (s : FileStream) : (o.setStream f s).disk = o.disk := rfl

@[simp] theorem setFile_self (o : FolderStore) (p : LogFile) (c : Option Bytes) : (o.setFile p c).disk p = c := by
  rw [setFile]
  exact Function.update_self p c o.disk

@[simp] theorem setFile_other (o : FolderStore) (c : Option Bytes) (h : q ≠ p) : (o.setFile p c).disk q = o.disk q := by
  rw [setFile]
  exact Function.update_of_ne h c o.disk

@[simp] theorem setFile_stream (o : FolderStore) (p : LogFile) (c : Option Bytes) : (o.setFile p c).stream = o.stream := rfl

@[simp] theorem fail_other (o : FolderStore) (h : g ≠ f) : (o.fail f).stream g = o.stream g := setStream_other o _ h

@[simp] theorem fail_disk (o : FolderStore) (f : LogFile) : (o.fail f).disk = o.disk := rfl

@[simp] theorem openOut_other (o : FolderStore) (p : LogFile) (b : Bool) (h : g ≠ f) :
    (o.openOut f p b).stream g = o.stream g := by
  rw [openOut]
  split <;> simp [h]

@[simp] theorem openOut_disk (o : FolderStore) (f : LogFile) (b : Bool) (h : q ≠ p) :
    (o.openOut f p b).disk q = o.disk q := by
  rw [openOut]
  split <;> simp [h]

@[simp] theorem openAte_other (o : FolderStore) (p : LogFile) (b : Bool) (h : g ≠ f) :
    (o.openAte f p b).stream g = o.stream g := by
  rw [openAte]
  split <;> simp [h]

@[simp] theorem openAte_disk (o : FolderStore) (f p : LogFile) (b : Bool) : (o.openAte f p b).disk = o.disk := by
  rw [openAte]
  split <;> rfl

@[simp] theorem close_other (o : FolderStore) (h : g ≠ f) : (o.close f).stream g = o.stream g := by
  rw [close]
  split <;> simp [h]

@[simp] theorem close_disk (o : FolderStore) (f : LogFile) : (o.close f).disk = o.disk := by
  rw [close]
  split <;> rfl

@[simp] theorem seek_other (o : FolderStore) (n : Nat) (h : g ≠ f) : (o.seek f n).stream g = o.stream g := by
  rw [seek]
  split_ifs <;> simp [h]

@[simp] theorem seek_disk (o : FolderStore) (f : LogFile) (n : Nat) : (o.seek f n).disk = o.disk := by
  rw [seek]
  split_ifs <;> rfl

@[simp] theorem closeGood_other (o : FolderStore) (h : g ≠ f) : (closeGood f o).stream g = o.stream g := by
  rw [closeGood]
  split <;> simp [h]

@[simp] theorem closeGood_disk (o : FolderStore) (f : LogFile) : (closeGood f o).disk = o.disk := by
  rw [closeGood]
  split <;> simp

@[simp] theorem recreate_other (o : FolderStore) (b b' : Bool) (h : g ≠ f) :
    (recreate f b b' o).stream g = o.stream g := by
  simp [recreate, h]

@[simp] theorem recreate_disk (o : FolderStore) (b b' : Bool) (h : q ≠ f) : (recreate f b b' o).disk q = o.disk q := by
  simp [recreate, h]

/-- A closed stream is closed. -/
@[simp] theorem close_file (o : FolderStore) (f : LogFile) : ((o.close f).stream f).file = none := by
  rw [close]
  split
  · simp
  · rename_i h
    simpa [fail] using h

/-- A file that is not there is not opened. -/
theorem openAte_missing (o : FolderStore) (b : Bool) (h : o.disk p = none) :
    ((o.openAte f p b).stream f).failed = true := by
  rw [openAte, if_pos (.inr (.inr h)), fail, setStream_self]

/-- A file is gone when it has been removed. -/
theorem remove_run (o : FolderStore) (p : LogFile) : ∃ b, remove p false o = ⟨.ok b, o.setFile p none, []⟩ := by
  rw [remove, bind_silent (look_run _)]
  by_cases h : o.disk p = none
  · have hsame : o.setFile p none = o := by
      rw [setFile, ← h, Function.update_eq_self]
    exact ⟨false, by rw [if_pos (.inr h), hsame, pure_run]⟩
  · exact ⟨true, by rw [if_neg (by simpa using h)]; rfl⟩

/-- What is kept in memory. -/
def counts (o : FolderStore) : Nat × Nat × Nat × LogStoreBuffer := (o.entriesInStore, o.startIdx, o.bufSize, o.buf)

@[simp] theorem setStream_counts (o : FolderStore) (f : LogFile) (s : FileStream) : (o.setStream f s).counts = o.counts := rfl

@[simp] theorem setFile_counts (o : FolderStore) (p : LogFile) (c : Option Bytes) : (o.setFile p c).counts = o.counts := rfl

@[simp] theorem fail_counts (o : FolderStore) (f : LogFile) : (o.fail f).counts = o.counts := rfl

@[simp] theorem seek_counts (o : FolderStore) (f : LogFile) (n : Nat) : (o.seek f n).counts = o.counts := by
  rw [seek]
  split_ifs <;> simp

@[simp] theorem copy_counts (o : FolderStore) (f g : LogFile) : (o.copy f g).counts = o.counts := by
  rw [copy]
  dsimp only
  split
  · rfl
  · cases (o.stream g).file with
    | none => rfl
    | some p =>
      dsimp only
      split <;> rfl

theorem after_change {α : Type} (g : FolderStore → FolderStore) (x : Unit → FileAction α) (o : FolderStore) :
    (change g >>= x) o = x () (g o) := rfl

/-! ## The backups -/

theorem setStream_setStream (o : FolderStore) (f : LogFile) (s s' : FileStream) :
    (o.setStream f s).setStream f s' = o.setStream f s' := by
  simp only [setStream, Function.update_idem]

/-- A backup that has been created. -/
def withBackup (f : LogFile) (o : FolderStore) : FolderStore := (o.setFile f (some [])).setStream f ⟨some f, false, 0⟩

/-- Opening a backup that is not there creates it. -/
theorem openBackup_run (hclosed : (o.stream f).file = none) (hmissing : o.disk f = none) :
    openBackup f o = ⟨.ok (), withBackup f o, []⟩ := by
  have hfirst : o.openIn f f = o.fail f := if_pos (.inr hmissing)
  have hfailed : ((o.fail f).stream f).failed = true := by rw [fail, setStream_self]
  have hfile : ((o.fail f).stream f).file = none := by
    rw [fail, setStream_self]
    exact hclosed
  have hcreate : (o.fail f).openOut f f false = withBackup f o := by
    rw [openOut, if_neg (by simp [hfile]), fail]
    exact setStream_setStream (o.setFile f (some [])) f _ _
  have hclose : (withBackup f o).close f = (o.setFile f (some [])).setStream f ⟨none, false, 0⟩ := by
    rw [close, withBackup, setStream_self, if_pos (by rfl), setStream_setStream]
  have hopen : ((o.setFile f (some [])).setStream f ⟨none, false, 0⟩).openIn f f = withBackup f o := by
    rw [openIn, setStream_self, setStream_disk, setFile_self, if_neg (by simp), setStream_setStream, withBackup]
  rw [openBackup, after_change, hfirst, bind_silent (look_run _), if_pos hfailed, after_change, hcreate, after_change,
    hclose, change_run, hopen]

/-- The backups, empty and open. -/
def withBackups (o : FolderStore) : FolderStore :=
  withBackup .startIdxBak (withBackup .dataBak (withBackup .idxBak
    (((o.setFile .idxBak none).setFile .dataBak none).setFile .startIdxBak none)))

/-- The backups, written. -/
def backedUp (o : FolderStore) : FolderStore :=
  (((rewound (withBackups o)).copy .idx .idxBak).copy .data .dataBak).copy .startIdx .startIdxBak

/-- **The backups are written**, whatever was in them. -/
theorem backUp_run (hidx : (o.stream .idxBak).file = none) (hdata : (o.stream .dataBak).file = none)
    (hstart : (o.stream .startIdxBak).file = none) : backUp o = ⟨.ok true, backedUp o, []⟩ := by
  obtain ⟨b₁, hb₁⟩ := remove_run o .idxBak
  obtain ⟨b₂, hb₂⟩ := remove_run (o.setFile .idxBak none) .dataBak
  obtain ⟨b₃, hb₃⟩ := remove_run ((o.setFile .idxBak none).setFile .dataBak none) .startIdxBak
  set t := ((o.setFile .idxBak none).setFile .dataBak none).setFile .startIdxBak none with ht
  have h₁ : openBackup .idxBak t = ⟨.ok (), withBackup .idxBak t, []⟩ :=
    openBackup_run (by simpa [ht] using hidx) (by simp [ht])
  have h₂ : openBackup .dataBak (withBackup .idxBak t) = ⟨.ok (), withBackup .dataBak (withBackup .idxBak t), []⟩ :=
    openBackup_run (by simpa [ht, withBackup] using hdata) (by simp [ht, withBackup])
  have h₃ : openBackup .startIdxBak (withBackup .dataBak (withBackup .idxBak t)) = ⟨.ok (), withBackups o, []⟩ :=
    openBackup_run (by simpa [ht, withBackup] using hstart) (by simp [ht, withBackup])
  have hgood : ¬ (((withBackups o).stream .idxBak).failed ∨ ((withBackups o).stream .dataBak).failed ∨
      ((withBackups o).stream .startIdxBak).failed) := by
    simp [withBackups, withBackup]
  rw [backUp, bind_silent hb₁, bind_silent hb₂, bind_silent hb₃, bind_silent h₁, bind_silent h₂, bind_silent h₃,
    bind_silent (look_run _), if_neg hgood, after_change, after_change, pure_run]
  rfl

/-! ## The restore section -/

/-- The stream is closed, or `restore` closes it. -/
def Closable (o : FolderStore) (f : LogFile) : Prop := (o.stream f).file = none ∨ (o.stream f).failed = false

theorem closeGood_file (h : o.Closable f) : ((closeGood f o).stream f).file = none := by
  rw [closeGood]
  split
  · rename_i hfailed
    exact h.resolve_right (by simp [hfailed])
  · exact close_file o f

/-- **`restore` throws**: the data file has been removed, and what is created is not the
data file but the backup of it. -/
theorem restore_throws (h : o.Closable .data) : ∃ t, restore o = ⟨.error .throw, t, []⟩ ∧
    t.disk .data = none ∧ t.disk .dataBak = some [] := by
  set o₁ := closeGood .startIdx (closeGood .data (closeGood .idx o)) with ho₁
  have hclosed : (o₁.stream .data).file = none := by
    have hc : (closeGood .idx o).Closable .data := by simpa [Closable] using h
    simpa [ho₁] using closeGood_file hc
  obtain ⟨b₁, hb₁⟩ := remove_run o₁ .idx
  obtain ⟨b₂, hb₂⟩ := remove_run (o₁.setFile .idx none) .data
  obtain ⟨b₃, hb₃⟩ := remove_run ((o₁.setFile .idx none).setFile .data none) .startIdx
  set o₂ := ((o₁.setFile .idx none).setFile .data none).setFile .startIdx none with ho₂
  set o₃ := ((o₂.seek .idxBak 0).seek .dataBak 0).seek .startIdxBak 0 with ho₃
  set o₄ := ((o₃.openOut .data .dataBak false).close .data).openAte .data .data false with ho₄
  have hfile : (o₃.stream .data).file = none := by simpa [ho₃, ho₂] using hclosed
  have hdata : o₄.disk .data = none := by simp [ho₄, ho₃, ho₂]
  have hbak : o₄.disk .dataBak = some [] := by
    rw [ho₄, openAte_disk, close_disk, openOut, if_neg (by simp [hfile]), setStream_disk, setFile_self]
  have hfailed : (o₄.stream .data).failed = true := by
    refine openAte_missing _ false ?_
    simp [ho₃, ho₂]
  set o₅ := recreate .startIdx false false (recreate .idx false false o₄) with ho₅
  have hend : (o₅.stream .idx).failed ∨ (o₅.stream .data).failed ∨ (o₅.stream .startIdx).failed := by
    simp [ho₅, hfailed]
  refine ⟨o₅, ?_, by simp [ho₅, hdata], by simp [ho₅, hbak]⟩
  rw [restore, after_change, after_change, after_change, ← ho₁, bind_silent hb₁, bind_silent hb₂, bind_silent hb₃,
    after_change, after_change, after_change, after_change, ← ho₃, ← ho₄, ← ho₅, bind_silent (look_run _), if_pos hend,
    halt_run]

/-! ## The ways to a `break` -/

theorem Closable.of_closed (h : (o.stream f).file = none) : o.Closable f := .inl h

/-- A stream that was closed and opened again is open only if it has not failed. -/
theorem openAte_closable (h : (o.stream f).file = none) : (o.openAte f p b).Closable f := by
  rw [openAte]
  split
  · left
    simpa [fail] using h
  · right
    simp

theorem recreate_closable (f : LogFile) (b b' : Bool) (o : FolderStore) : (recreate f b b' o).Closable f :=
  openAte_closable (close_file _ f)

theorem Closable.congr {t : FolderStore} (h : o.Closable f) (hsame : t.stream f = o.stream f) : t.Closable f := by
  rw [Closable, hsame]
  exact h

/-- `remove` leaves the streams alone. -/
theorem remove_stream (o : FolderStore) (p : LogFile) (b : Bool) : (remove p b o).state.stream = o.stream := by
  rw [remove, bind_silent (look_run _)]
  split <;> rfl

theorem truncate_stream (o : FolderStore) (p : LogFile) (n : Nat) (b : Bool) :
    (truncate p n b o).state.stream = o.stream := by
  rw [truncate, bind_silent (look_run _)]
  cases o.disk p with
  | none => rfl
  | some bs =>
    dsimp only
    split <;> rfl

theorem readStream_other (o : FolderStore) (h : g ≠ f) : (readStream f o).state.stream g = o.stream g := by
  rw [readStream, bind_silent (look_run _)]
  split
  · rfl
  · cases readWord (o.content f) (o.stream f).pos with
    | none => exact fail_other o h
    | some w => exact setStream_other o _ h

theorem writeStream_other (o : FolderStore) (w : Nat) (h : g ≠ f) : (writeStream f w o).state.stream g = o.stream g := by
  rw [writeStream, bind_silent (look_run _)]
  split
  · rfl
  · cases (o.stream f).file with
    | none => exact fail_other o h
    | some p => exact setStream_other _ _ h

theorem clearFiles_closable (fails : FailPoint → Bool) (last : Nat) :
    Returns o (clearFiles fails last) fun done t => done = false → t.Closable .data := by
  have hclosed : (((o.close .idx).close .data).stream .data).file = none := close_file _ .data
  refine .change_bind (.bind fun removed _ => ?_)
  have hidx := remove_stream ((o.close .idx).close .data) .idx (fails .removeIdx)
  refine .ite (fun _ => .pure fun _ => .of_closed (by rw [hidx]; exact hclosed)) fun _ => .bind fun removed _ => ?_
  have hdata := remove_stream (remove .idx (fails .removeIdx) ((o.close .idx).close .data)).state .data (fails .removeData)
  refine .ite (fun _ => .pure fun _ => .of_closed (by rw [hdata, hidx]; exact hclosed)) fun _ =>
    .change_bind (.change_bind (.look_bind (.ite (fun _ => .pure fun _ => recreate_closable _ _ _ _) fun _ => ?_)))
  exact .bind fun _ _ => .change_bind (.change_bind (.pure fun hbreak => absurd hbreak (by decide)))

/-- The loop works on the index file and its backup. -/
theorem shiftOffsets_other (dataPos : Nat) (hidx : g ≠ .idx) (hbak : g ≠ .idxBak) (n : Nat) :
    Returns o (shiftOffsets dataPos n) fun _ t => t.stream g = o.stream g := by
  induction n generalizing o with
  | zero => exact .pure rfl
  | succ n ih =>
    refine .bind fun pos _ => .bind fun _ _ => ih.mono fun _ t ht => ?_
    rw [ht, writeStream_other _ _ hidx, readStream_other _ hbak]

theorem cutIdxFile_closable {dataPos idxPos idxLen : Nat} (fails : FailPoint → Bool) (last : Nat)
    (h : o.Closable .data) :
    Returns o (cutIdxFile fails last dataPos idxPos idxLen) fun done t => done = false → t.Closable .data := by
  refine .change_bind (.bind fun _ hloop => .change_bind (.bind fun cut _ => ?_))
  have hstream := shiftOffsets_other (g := .data) dataPos (by decide) (by decide) _ _ hloop
  refine .ite (fun _ => .pure fun _ => h.congr ?_) fun _ => .change_bind (.look_bind (.ite (fun _ =>
    .pure fun _ => h.congr ?_) fun _ => .change_bind (.bind fun _ _ => .change_bind (.look_bind ?_))))
  · rw [truncate_stream, close_other _ (by decide), hstream]
    simp
  · rw [openAte_other _ _ _ (by decide), truncate_stream, close_other _ (by decide), hstream]
    simp
  · split
    · exact .halt _
    · exact .change_bind (.pure fun hbreak => absurd hbreak (by decide))

theorem cutFiles_closable (fails : FailPoint → Bool) (last : Nat) :
    Returns o (cutFiles fails last) fun done t => done = false → t.Closable .data := by
  refine .look_bind (.change_bind (.bind fun dataPos _ => .change_bind (.look_bind (.change_bind (.change_bind
    (.bind fun cut _ => ?_))))))
  refine .ite (fun _ => .pure fun _ => .of_closed ?_) fun _ => .change_bind (.look_bind ?_)
  · rw [truncate_stream]
    exact close_file _ .data
  -- the data stream is open again, or closed with its fail bit set
  · refine .ite (fun _ => .pure fun _ => openAte_closable ?_) fun _ => cutIdxFile_closable fails last (openAte_closable ?_)
    · rw [truncate_stream]
      exact close_file _ .data
    · rw [truncate_stream]
      exact close_file _ .data

/-- However the `do` block is left by `break`, `restore` closes the data stream. -/
theorem compactFiles_closable (fails : FailPoint → Bool) (last : Nat) :
    Returns o (compactFiles fails last) fun done t => done = false → t.Closable .data :=
  .look_bind (.ite (fun _ => clearFiles_closable fails last) fun _ => cutFiles_closable fails last)

/-! ## A compaction that fails -/

/-- The backups are written, and behind them an operation fails such that the `do` block is
left by `break`. -/
structure LeftByBreak (fails : FailPoint → Bool) (last : Nat) (o : FolderStore) : Prop where
  backedUp : (backUp o.rewound).res = .ok true
  breaks : (compactFiles fails last (backUp o.rewound).state).res = .ok false

/-- `compact` returns `false`, and the store is as it was, in memory and in its files. -/
structure AsBefore (o : FolderStore) (r : Outcome FolderStore Empty StoreStop Bool) : Prop where
  res : r.res = .ok false
  startIdx : r.state.startIdx = o.startIdx
  entriesInStore : r.state.entriesInStore = o.entriesInStore
  disk : ∀ f ∈ [LogFile.idx, .data, .startIdx], r.state.disk f = o.disk f

/-- Behind the backups and a `break` the restore section is run. -/
theorem run_break {up body rest : FileAction Bool} (hup : (up o).res = .ok true)
    (hbody : (body (up o).state).res = .ok false) {t : FolderStore} {e : StoreStop}
    (hrest : rest (body (up o).state).state = ⟨.error e, t, []⟩) :
    ((up >>= fun good => if good = false then pure false
      else body >>= fun done => if done = true then pure true else rest : FileAction Bool) o).res = .error e ∧
    ((up >>= fun good => if good = false then pure false
      else body >>= fun done => if done = true then pure true else rest : FileAction Bool) o).state = t := by
  rw [bind_run, Outcome.andThen, hup]
  dsimp only
  rw [if_neg (by decide), bind_run, Outcome.andThen, hbody]
  dsimp only
  rw [if_neg (by decide), hrest]
  exact ⟨rfl, rfl⟩

/-- However the `do` block is left by `break`, `compact` throws, with the data file gone
and its backup empty. -/
theorem compact_throws {fails : FailPoint → Bool} {last : Nat} (hge : o.startIdx ≤ last) (h : LeftByBreak fails last o) :
    (compact fails last o).res = .error .throw ∧ (compact fails last o).state.disk .data = none ∧
      (compact fails last o).state.disk .dataBak = some [] := by
  obtain ⟨t, hrun, hdata, hbak⟩ := restore_throws (compactFiles_closable fails last false h.breaks rfl)
  obtain ⟨hres, hstate⟩ := @run_break o.rewound backUp (compactFiles fails last) restore h.backedUp h.breaks t .throw hrun
  have hcompact : ∀ r, (backUp >>= fun good => if good = false then pure false
      else compactFiles fails last >>= fun done => if done = true then pure true else restore : FileAction Bool)
        o.rewound = r → compact fails last o = r := by
    intro r hr
    rw [compact, bind_silent (look_run _), if_neg (not_lt.mpr hge), after_change]
    exact hr
  rw [hcompact _ rfl]
  refine ⟨hres, ?_, ?_⟩
  · rw [hstate]
    exact hdata
  · rw [hstate]
    exact hbak

/-- **A compaction that fails never leaves the store as it was**, in whatever state it is
called and at whatever point it fails: it throws, and the log is lost. -/
theorem failed_compact_never_restores {fails : FailPoint → Bool} {last : Nat} (hge : o.startIdx ≤ last)
    (h : LeftByBreak fails last o) : ¬ AsBefore o (compact fails last o) ∧
      (compact fails last o).res = .error .throw ∧ (compact fails last o).state.disk .data = none ∧
      (compact fails last o).state.disk .dataBak = some [] := by
  have hthrows := compact_throws hge h
  refine ⟨fun hsame => ?_, hthrows⟩
  cases hthrows.1.symm.trans hsame.res

/-- The files of two entries. -/
def twoEntriesOnDisk : LogFile → Option Bytes
  | .idx => some (leBytes 8 0 ++ leBytes 8 9)
  | .data => some (LogEntry.serialize ⟨1, [], .conf⟩ ++ LogEntry.serialize ⟨1, [5], .appLog⟩)
  | .startIdx => some (leBytes 8 1)
  | _ => none

/-- A store with two entries, the last of them in memory. -/
def twoEntries : FolderStore where
  disk := twoEntriesOnDisk
  stream := fun f => if twoEntriesOnDisk f = none then {} else ⟨some f, false, 0⟩
  entriesInStore := 2
  startIdx := 1
  bufSize := 1
  buf := ⟨2, 1, [⟨1, [5], .appLog⟩]⟩

theorem backedUp_counts (o : FolderStore) : (backedUp o).counts = o.counts := by
  simp [backedUp, rewound, withBackups, withBackup]

/-- Without its index file removed a store is not cleared. -/
theorem clearFiles_keeps {fails : FailPoint → Bool} (h : fails .removeIdx = true) (last : Nat) :
    (clearFiles fails last o).res = .ok false := by
  have hremove : ∀ t : FolderStore, remove .idx true t = ⟨.ok false, t, []⟩ := fun t => rfl
  rw [clearFiles, after_change, h, bind_silent (hremove _), if_pos rfl, pure_run]

/-- Both entries are to go, and the index file cannot be removed. -/
theorem twoEntries_break {fails : FailPoint → Bool} (h : fails .removeIdx = true) : LeftByBreak fails 2 twoEntries := by
  have hup : backUp twoEntries.rewound = ⟨.ok true, backedUp twoEntries.rewound, []⟩ := backUp_run rfl rfl rfl
  have hcounts : (backedUp twoEntries.rewound).counts = twoEntries.counts := by
    rw [backedUp_counts]
    simp [rewound]
  have hstart : (backedUp twoEntries.rewound).startIdx = 1 := congrArg (·.2.1) hcounts
  have hcount : (backedUp twoEntries.rewound).entriesInStore = 2 := congrArg (·.1) hcounts
  refine ⟨by rw [hup], ?_⟩
  rw [hup, compactFiles, bind_silent (look_run _), hstart, hcount, if_pos (by decide)]
  exact clearFiles_keeps h 2

/-- Every operation behind the backups fails. -/
theorem failed_compact_never_restores_all :
    ¬ AsBefore twoEntries (compact (fun _ => true) 2 twoEntries) ∧
      (compact (fun _ => true) 2 twoEntries).res = .error .throw ∧
      (compact (fun _ => true) 2 twoEntries).state.disk .data = none ∧
      (compact (fun _ => true) 2 twoEntries).state.disk .dataBak = some [] :=
  failed_compact_never_restores (by decide) (twoEntries_break rfl)

/-- Only the removal of the index file fails. -/
theorem failed_compact_fails :
    twoEntries.startIdx ≤ 2 ∧ LeftByBreak (fun p => decide (p = .removeIdx)) 2 twoEntries ∧
      ¬ AsBefore twoEntries (compact (fun p => decide (p = .removeIdx)) 2 twoEntries) := by
  refine ⟨by decide, twoEntries_break rfl, fun hsame => ?_⟩
  have hthrows := compact_throws (by decide) (@twoEntries_break (fun p => decide (p = .removeIdx)) rfl)
  cases hthrows.1.symm.trans hsame.res

end FolderStore
end Cornerstone
