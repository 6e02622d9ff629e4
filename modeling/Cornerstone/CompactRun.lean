import Cornerstone.CompactFiles
import Cornerstone.LogSlices

/-! # A compaction without failures

Where no operation fails, `compact` on the files comes to what `compact` of the store
says, file for file: the two models of it are of one program.
-/

namespace Cornerstone
open LittleEndian OffsetFile Handlers Handler

namespace FolderStore

/-- The stream is good and open on its own file, which holds these bytes. -/
structure OpenAt (o : FolderStore) (f : LogFile) (bs : Bytes) : Prop where
  file : (o.stream f).file = some f
  good : (o.stream f).failed = false
  disk : o.disk f = some bs

/-- The folder and its streams are those of a store. -/
structure HasStore (o : FolderStore) (s : FsLogStore) : Prop where
  idx : OpenAt o .idx s.files.idx
  data : OpenAt o .data s.files.data
  startIdx : OpenAt o .startIdx s.files.startIdx
  idxBak : (o.stream .idxBak).file = none
  dataBak : (o.stream .dataBak).file = none
  startIdxBak : (o.stream .startIdxBak).file = none
  counts : o.counts = (s.entriesInStore, s.startIdx, s.bufSize, s.buf)

variable {o t : FolderStore} {f g src dst : LogFile} {bs cs : Bytes} {n : Nat}

namespace OpenAt

theorem content (h : OpenAt o f bs) : o.content f = bs := by
  rw [FolderStore.content, h.file, Option.bind_some, h.disk, Option.getD_some]

theorem congr (h : OpenAt o f bs) (hs : t.stream f = o.stream f) (hd : t.disk f = o.disk f) : OpenAt t f bs :=
  ⟨hs ▸ h.file, hs ▸ h.good, hd ▸ h.disk⟩

/-! ## One operation -/

theorem seek_eq (h : OpenAt o f bs) (n : Nat) : o.seek f n = o.setStream f ⟨some f, false, n⟩ := by
  rw [FolderStore.seek, h.good, if_neg (by decide), h.file, if_pos (by rfl)]
  dsimp only
  rw [h.file, h.good]

theorem seek (h : OpenAt o f bs) (g : LogFile) (n : Nat) : OpenAt (o.seek g n) f bs := by
  by_cases hg : f = g
  · subst hg
    rw [h.seek_eq]
    exact ⟨by simp, by simp, h.disk⟩
  · exact h.congr (seek_other o n hg) (by rw [seek_disk])

theorem seek_pos (h : OpenAt o f bs) (n : Nat) : ((o.seek f n).stream f).pos = n := by
  rw [h.seek_eq, setStream_self]

/-- The copy of what is behind the position of a stream. -/
theorem copy_eq (hs : OpenAt o src bs) (hd : OpenAt o dst cs) (hne : bs.drop (o.stream src).pos ≠ []) :
    o.copy src dst = ((o.setStream src ⟨some src, false, bs.length⟩).setFile dst
      (some (overwrite cs (o.stream dst).pos (bs.drop (o.stream src).pos)))).setStream dst
        ⟨some dst, false, (o.stream dst).pos + (bs.drop (o.stream src).pos).length⟩ := by
  rw [copy]
  dsimp only
  rw [hd.good, if_neg (by decide), hd.file]
  dsimp only
  rw [hs.content, hd.content, if_neg hne, hs.file, hs.good]

theorem copy_dst (hs : OpenAt o src bs) (hd : OpenAt o dst cs) (hne : bs.drop (o.stream src).pos ≠ []) :
    OpenAt (o.copy src dst) dst (overwrite cs (o.stream dst).pos (bs.drop (o.stream src).pos)) := by
  rw [hs.copy_eq hd hne]
  exact ⟨by simp, by simp, by simp⟩

theorem copy_src (hs : OpenAt o src bs) (hd : (o.stream dst).file = some dst) (hsd : src ≠ dst) :
    OpenAt (o.copy src dst) src bs := by
  rw [copy]
  dsimp only
  split
  · exact hs
  · rw [hd]
    dsimp only
    split
    · exact hs.congr (fail_other o hsd) (by rw [fail_disk])
    · exact ⟨by simpa [hsd] using hs.file, by simpa [hsd] using hs.good, by simpa [hsd] using hs.disk⟩

end OpenAt

/-- A copy leaves the streams and files alone that it is not about. -/
theorem copy_beside (hd : (o.stream dst).file = some dst) (hsrc : g ≠ src) (hdst : g ≠ dst) :
    (o.copy src dst).stream g = o.stream g ∧ (o.copy src dst).disk g = o.disk g := by
  rw [copy]
  dsimp only
  split
  · exact ⟨rfl, rfl⟩
  · rw [hd]
    dsimp only
    split
    · exact ⟨fail_other o hdst, by rw [fail_disk]⟩
    · simp [hsrc, hdst]

theorem OpenAt.copy_beside (h : OpenAt o g bs) (hd : (o.stream dst).file = some dst) (hsrc : g ≠ src) (hdst : g ≠ dst) :
    OpenAt (o.copy src dst) g bs :=
  h.congr (FolderStore.copy_beside hd hsrc hdst).1 (FolderStore.copy_beside hd hsrc hdst).2

theorem readStream_run {w : Nat} (h : OpenAt o f bs) (hw : readWord bs (o.stream f).pos = some w) :
    readStream f o = ⟨.ok w, o.setStream f ⟨some f, false, (o.stream f).pos + 8⟩, []⟩ := by
  rw [readStream, bind_silent (look_run _), h.good, if_neg (by decide), h.content, hw]
  dsimp only
  rw [after_change, pure_run, h.file, h.good]

theorem writeStream_run (h : OpenAt o f bs) (w : Nat) :
    writeStream f w o = ⟨.ok (), (o.setFile f (some (overwrite bs (o.stream f).pos (leBytes 8 w)))).setStream f
      ⟨some f, false, (o.stream f).pos + 8⟩, []⟩ := by
  rw [writeStream, bind_silent (look_run _), h.good, if_neg (by decide), h.file]
  dsimp only
  rw [change_run, h.content, h.file, h.good]

end FolderStore
end Cornerstone
