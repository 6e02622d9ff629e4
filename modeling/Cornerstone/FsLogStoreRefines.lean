import Cornerstone.StoredLog

/-! # The file-based log store is a log store

Under appends, compactions and reopenings, in any order and with any buffer size, an
`fs_log_store` answers as the abstract `LogStore` does, as long as the encodings fit the
buffers of the code and the indexes fit its integers.
-/

namespace Cornerstone
open OffsetFile

/-- What the store answers is what the log answers. -/
structure ReadsAs (s : FsLogStore) (l : LogStore) : Prop where
  nextSlot : s.nextSlot = l.nextSlot
  startIndex : s.startIdx = l.startIdx
  lastEntry : s.lastEntry = l.entries.getLast?
  entryAt : ∀ idx, l.startIdx ≤ idx → idx < l.nextSlot → s.entryAt idx = l.entryAt? idx
  termAt : ∀ idx, l.startIdx ≤ idx → idx < l.nextSlot → s.termAt idx = l.termAt? idx

/-- A store laid out with the entries of a log, the last of them in memory, answers as the
log. -/
theorem Window.readsAs {s : FsLogStore} {l : LogStore} {segs : List Bytes} (hwin : Window s l.entries)
    (hlaid : Laid s segs l.entries) (hstart : s.startIdx = l.startIdx) : ReadsAs s l := by
  have hat : ∀ idx, l.startIdx ≤ idx → idx < l.nextSlot → ∃ k e, idx = s.startIdx + k ∧
      l.entries[k]? = some e ∧ l.entryAt? idx = some e := by
    intro idx hge hlt
    rw [LogStore.nextSlot] at hlt
    have hk : idx - l.startIdx < l.entries.length := by omega
    refine ⟨idx - l.startIdx, l.entries[idx - l.startIdx], by rw [hstart]; omega,
      List.getElem?_eq_getElem hk, ?_⟩
    rw [LogStore.entryAt?_of_mem hge, List.getElem?_eq_getElem hk]
  refine ⟨?_, hstart, hwin.lastEntry_run, fun idx hge hlt => ?_, fun idx hge hlt => ?_⟩
  · rw [hlaid.nextSlot_eq, hstart, LogStore.nextSlot]
  · obtain ⟨k, e, rfl, he, hl⟩ := hat idx hge hlt
    rw [hl]
    exact hlaid.image.entryAt_run hlaid.decodes hwin he
  · obtain ⟨k, e, rfl, he, hl⟩ := hat idx hge hlt
    have hk := (List.getElem?_eq_some_iff.mp he).1
    have hcount := hlaid.count
    rw [hlaid.decodes.length] at hcount
    rw [LogStore.termAt?, hl]
    exact hlaid.image.termAt_run hlaid.decodes hwin he (by omega)

/-- The store holds the log in its files, and the end of it in memory. -/
structure Represents (s : FsLogStore) (l : LogStore) (size : Nat) : Prop extends HoldsLog s l size where
  window : Window s l.entries

variable {s : FsLogStore} {l : LogStore} {size : Nat}

/-! ## The simulation -/

/-- The operations of a store in which no entry is written over. -/
def Unwritten (l : LogStore) (size : Nat) (op : StoreOp) : Prop :=
  (∀ index e, op ≠ .writeAt index e) ∧ l.Fits size op

/-- One operation keeps the store a representation of the log. -/
theorem Represents.perform {op : StoreOp} (h : Represents s l size) (hop : Unwritten l size op) :
    ∃ s', s.perform op = some s' ∧ Represents s' (l.perform op) (op.sizeAfter size) := by
  have hcover : Covers l op := by
    cases op with
    | writeAt index e => exact absurd rfl (hop.1 index e)
    | append | compact | reopen => trivial
  obtain ⟨s', hrun, hholds, hwin⟩ := h.toHoldsLog.perform hop.2 hcover
  exact ⟨s', hrun, hholds, hwin hop.1 h.window⟩

theorem Represents.run {ops : List StoreOp} (h : Represents s l size) (hops : EveryStep Unwritten l size ops) :
    ∃ s' size', s.run ops = some s' ∧ Represents s' (l.run ops) size' := by
  induction ops generalizing s l size with
  | nil => exact ⟨s, size, rfl, h⟩
  | cons op ops ih =>
    obtain ⟨s₁, hstep, h₁⟩ := h.perform hops.1
    obtain ⟨s', size', hrun, h'⟩ := ih h₁ hops.2
    refine ⟨s', size', ?_, h'⟩
    rw [FsLogStore.run, hstep, Option.bind_some]
    exact hrun

/-- **The file-based store refines the abstract log**: for every buffer size, after every
run of appends, compactions and reopenings that the code's buffers and integers can hold,
it answers as the log does. -/
theorem fs_log_store_refines {bufSize : Int} (ops : List StoreOp) (hpos : 1 ≤ bufferSize bufSize)
    (hops : EveryStep Unwritten {} (bufferSize bufSize) ops) :
    ∃ s, (FsLogStore.openOn {} bufSize).bind (·.run ops) = some s ∧
      ReadsAs s (({} : LogStore).run ops) := by
  obtain ⟨s₀, hopen, hlaid, hwin, hidx, hsize⟩ := Laid.fresh hpos
  have hstart : Represents s₀ {} (bufferSize bufSize) := ⟨⟨hsize, hidx, hlaid⟩, hwin⟩
  obtain ⟨s, size, hrun, h⟩ := hstart.run hops
  refine ⟨s, ?_, h.window.readsAs h.laid h.startIdx⟩
  rw [hopen, Option.bind_some, hrun]

/-- Three entries, the first of them compacted, in a store that keeps one entry in memory
and is reopened with two. -/
theorem fs_log_store_refines_reopened :
    ∃ s, (FsLogStore.openOn {} 1).bind (·.run [.append ⟨1, [5], .appLog⟩, .append ⟨1, [], .conf⟩,
        .append ⟨2, [6, 7], .appLog⟩, .compact 1, .reopen 2, .append ⟨3, [8], .appLog⟩]) = some s ∧
      ReadsAs s ⟨2, [⟨1, [], .conf⟩, ⟨2, [6, 7], .appLog⟩, ⟨3, [8], .appLog⟩]⟩ :=
  fs_log_store_refines [.append ⟨1, [5], .appLog⟩, .append ⟨1, [], .conf⟩,
    .append ⟨2, [6, 7], .appLog⟩, .compact 1, .reopen 2, .append ⟨3, [8], .appLog⟩] (by decide)
    ⟨⟨nofun, by decide⟩, ⟨nofun, by decide⟩, ⟨nofun, by decide⟩, ⟨nofun, by decide⟩,
      ⟨nofun, by decide⟩, ⟨nofun, by decide⟩, trivial⟩

/-- An entry whose encoding is too large for a buffer cannot be appended. -/
theorem run_append_large (e : LogEntry) (ops : List StoreOp) (h : bufferLimit ≤ 8 + 1 + e.buf.length) :
    s.run (.append e :: ops) = none := by
  rw [FsLogStore.run, FsLogStore.perform, FsLogStore.append, LogEntry.encode?, if_neg (Nat.not_lt.mpr h)]
  rfl

/-- A payload can be as large as a buffer; its encoding would be nine bytes longer. -/
theorem fs_log_store_refuses_large :
    ∃ e : LogEntry, e.buf.length < bufferLimit ∧
      ¬ ∃ s, (FsLogStore.openOn {} 1).bind (·.run [.append e]) = some s ∧
        ReadsAs s (({} : LogStore).run [.append e]) := by
  obtain ⟨payload, hlen⟩ : ∃ payload : Bytes, payload.length = bufferLimit - 1 :=
    ⟨List.replicate (bufferLimit - 1) 0, List.length_replicate⟩
  have hpos : 0 < bufferLimit := by decide
  refine ⟨⟨1, payload, .appLog⟩, by rw [hlen]; omega, ?_⟩
  rintro ⟨s, hrun, -⟩
  obtain ⟨s₀, -, hs₀⟩ := Option.bind_eq_some_iff.mp hrun
  rw [run_append_large ⟨1, payload, .appLog⟩ [] (by rw [hlen]; omega)] at hs₀
  cases hs₀

end Cornerstone
