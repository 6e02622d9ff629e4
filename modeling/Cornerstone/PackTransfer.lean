import Cornerstone.FsLogStoreRefines
import Cornerstone.PackImage

/-! # Packs from store to store

The offsets in a pack are those of the data file it was taken from.  `apply_pack` writes
them into the index file as they are, so they are right only where the entries stand at
the same offsets of the two data files; and it cuts the data file only where the index
file goes on behind the pack.
-/

namespace Cornerstone
open LittleEndian OffsetFile

/-! ## Histories -/

/-- The store has come about by operations on a new folder; they make this log. -/
def History (s : FsLogStore) (l : LogStore) : Prop :=
  ∃ (bufSize : Int) (ops : List StoreOp), 1 ≤ bufferSize bufSize ∧
    EveryStep LogStore.Fits {} (bufferSize bufSize) ops ∧
    (FsLogStore.openOn {} bufSize).bind (·.run ops) = some s ∧ ({} : LogStore).run ops = l

/-- The files of the store hold as many entries as the log has. -/
structure Shaped (s : FsLogStore) (l : LogStore) (size : Nat) : Prop where
  bufSize : s.bufSize = size
  startIdx : s.startIdx = l.startIdx
  laid : ∃ segs es, Laid s segs es ∧ es.length = l.entries.length

namespace Shaped
variable {s : FsLogStore} {l : LogStore} {size : Nat}

theorem fits {op : StoreOp} (h : Shaped s l size) (hf : l.Fits size op) : s.Fits op := by
  obtain ⟨segs, es, hlaid, hlen⟩ := h.laid
  rw [FsLogStore.Fits, h.startIdx, hlaid.image.entries, hlaid.decodes.length, hlen, h.bufSize]
  exact hf

theorem perform {op : StoreOp} (h : Shaped s l size) (hf : l.Fits size op) :
    ∃ s', s.perform op = some s' ∧ Shaped s' (l.perform op) (op.sizeAfter size) := by
  have hstart := h.startIdx
  have hs := h.fits hf
  obtain ⟨segs, es, hlaid, hlen⟩ := h.laid
  cases op with
  | append e =>
    obtain ⟨hrun, hlaid'⟩ := hlaid.append hs
    exact ⟨_, hrun, h.bufSize, hstart, _, _, hlaid', by simp [LogStore.perform, hlen]⟩
  | writeAt index e =>
    obtain ⟨k, rfl⟩ : ∃ k, index = s.startIdx + k := Nat.exists_eq_add_of_le hs.1.1
    obtain ⟨hrun, hlaid'⟩ := hlaid.writeAt hs
    refine ⟨_, hrun, h.bufSize, hstart, _, _, hlaid', ?_⟩
    rw [LogStore.perform, LogStore.writeAt, hstart, Nat.add_sub_cancel_left]
    simp [hlen]
  | compact last =>
    obtain ⟨k, rfl⟩ : ∃ k, last = s.startIdx + k := Nat.exists_eq_add_of_le hs.1
    obtain ⟨s', hrun, hlaid', -, hidx, hsize⟩ := hlaid.compact hs
    refine ⟨s', hrun, hsize.trans h.bufSize, hidx, _, _, hlaid', ?_⟩
    rw [LogStore.perform, LogStore.compact, hstart, Nat.add_assoc, Nat.add_sub_cancel_left]
    simp [hlen]
  | reopen bufSize =>
    obtain ⟨s', hrun, hlaid', -, hidx, hsize⟩ := hlaid.reopen hs
    exact ⟨s', hrun, hsize, hidx.trans hstart, _, _, hlaid', hlen⟩

theorem run {ops : List StoreOp} (h : Shaped s l size) (hops : EveryStep LogStore.Fits l size ops) :
    ∃ s' size', s.run ops = some s' ∧ Shaped s' (l.run ops) size' := by
  induction ops generalizing s l size with
  | nil => exact ⟨s, size, rfl, h⟩
  | cons op ops ih =>
    obtain ⟨s₁, hstep, h₁⟩ := h.perform hops.1
    obtain ⟨s', size', hrun, h'⟩ := ih h₁ hops.2
    refine ⟨s', size', ?_, h'⟩
    rw [FsLogStore.run, hstep, Option.bind_some]
    exact hrun

end Shaped

theorem History.shaped {s : FsLogStore} {l : LogStore} (h : History s l) : ∃ size, Shaped s l size := by
  obtain ⟨bufSize, ops, hpos, hfits, hrun, rfl⟩ := h
  obtain ⟨s₀, hopen, hlaid, -, hidx, hsize⟩ := Laid.fresh hpos
  have hstart : Shaped s₀ {} (bufferSize bufSize) := ⟨hsize, hidx, [], [], hlaid, rfl⟩
  obtain ⟨s', size, hrun', h'⟩ := hstart.run hfits
  rw [hopen, Option.bind_some, hrun'] at hrun
  cases hrun
  exact ⟨size, h'⟩

/-! ## The transfer -/

/-- The log with the entries of another one from an index on, at most `n` of them. -/
def LogStore.transfer (l source : LogStore) (index n : Nat) : LogStore :=
  { l with entries := l.entries.take (index - l.startIdx) ++ source.logEntries index (index + n) }

/-- The store answers as the log, and so does every store opened on its files. -/
structure Holding (s : FsLogStore) (l : LogStore) : Prop where
  now : ReadsAs s l
  reopened : ∀ bufSize, l.Fits 0 (.reopen bufSize) →
    ∃ s', FsLogStore.openOn s.files bufSize = some s' ∧ ReadsAs s' l

/-- How many entries a pack has. -/
def packCount (source : LogStore) (index n : Nat) : Nat := min n (source.nextSlot - index)

/-- The entries stand at the same offsets of the two data files, both files hold what the
pack and the part below it are to be, and the target ends where the pack ends, unless it
is cut there. -/
structure Transferable (S T : FsLogStore) (source target : LogStore) (index n : Nat) : Prop where
  aligned : S.dataPos (index - S.startIdx) = T.dataPos (index - T.startIdx)
  packed : ∀ idx, index ≤ idx → idx < index + n → idx < source.nextSlot →
    S.storedAt idx = source.entryAt? idx
  below : ∀ idx, target.startIdx ≤ idx → idx < index → T.storedAt idx = target.entryAt? idx
  covered : index + packCount source index n < T.nextSlot ∨
    ∀ stop ∈ S.dataPos (index - S.startIdx + packCount source index n), T.files.data.length ≤ stop

/-- The pack fits the buffers and the integers of the code. -/
structure Transports (S T : FsLogStore) (source target : LogStore) (index n : Nat) : Prop where
  asked : n < bufferLimit
  pack : ∀ start ∈ S.dataPos (index - S.startIdx),
    ∀ stop ∈ S.dataPos (index - S.startIdx + packCount source index n),
      8 + 8 * packCount source index n + (stop - start) < bufferLimit
  next : index + packCount source index n < ulongSize
  count : index - target.startIdx + packCount source index n ≤ bufferLimit
  fit : 8 * min (index - target.startIdx + packCount source index n) T.bufSize < bufferLimit

/-- What the files hold over a range is what the log has there. -/
theorem Laid.agrees {s : FsLogStore} {l : LogStore} {segs : List Bytes} {es : List LogEntry} {k : Nat}
    (hlaid : Laid s segs es) (hlen : es.length = l.entries.length) (hstart : s.startIdx = l.startIdx)
    (h : k < es.length → s.storedAt (l.startIdx + k) = l.entryAt? (l.startIdx + k)) :
    es[k]? = l.entries[k]? := by
  rcases Nat.lt_or_ge k es.length with hlt | hge
  · have hstored := hlaid.image.storedAt_run hlaid.decodes (List.getElem?_eq_getElem hlt)
    rw [hstart, h hlt, LogStore.entryAt?_of_mem (Nat.le_add_right _ _), Nat.add_sub_cancel_left] at hstored
    rw [hstored, List.getElem?_eq_getElem hlt]
  · rw [List.getElem?_eq_none hge, List.getElem?_eq_none (hlen ▸ hge)]

/-- **A pack is transferred** from one store to another, where the data files agree. -/
theorem pack_transfers {S T : FsLogStore} {source target : LogStore} {index n : Nat}
    (hS : History S source) (hT : History T target)
    (hin : source.startIdx ≤ index ∧ index < source.nextSlot)
    (hat : target.startIdx ≤ index ∧ index ≤ target.nextSlot) (hn : 1 ≤ n)
    (hok : Transferable S T source target index n) (hfit : Transports S T source target index n) :
    ∃ pack T', S.pack index n = some pack ∧ T.applyPack index pack = some T' ∧
      Holding T' (target.transfer source index n) := by
  obtain ⟨sizeS, hS⟩ := hS.shaped
  obtain ⟨sizeT, hT⟩ := hT.shaped
  obtain ⟨Ss, Se, hSlaid, hSlen⟩ := hS.laid
  obtain ⟨Ts, Te, hTlaid, hTlen⟩ := hT.laid
  have hSdec := hSlaid.decodes.length
  have hTdec := hTlaid.decodes.length
  have hSstart := hS.startIdx
  have hTstart := hT.startIdx
  obtain ⟨k, rfl⟩ : ∃ k, index = source.startIdx + k := Nat.exists_eq_add_of_le hin.1
  obtain ⟨j, hj⟩ : ∃ j, source.startIdx + k = target.startIdx + j := Nat.exists_eq_add_of_le hat.1
  have hk : k < Ss.length := by
    have := hin.2
    rw [LogStore.nextSlot] at this
    omega
  have hjle : j ≤ Ts.length := by
    have := hat.2
    rw [LogStore.nextSlot] at this
    omega
  have hSsub : source.startIdx + k - S.startIdx = k := by omega
  have hTsub : source.startIdx + k - T.startIdx = j := by omega
  have htsub : source.startIdx + k - target.startIdx = j := by omega
  set w := (Ss.take k).flatten.length with hw
  set segs' := (Ss.drop k).take n with hsegs'
  have hlen' : segs'.length = min n (Ss.length - k) := by rw [hsegs', List.length_take, List.length_drop]
  have hm : packCount source (source.startIdx + k) n = segs'.length := by
    rw [packCount, LogStore.nextSlot, hlen']
    omega
  -- where the pack starts and ends in the two data files
  have hSpos : S.dataPos k = some w := hSlaid.image.dataPos_run hk.le
  have hSstop : S.dataPos (k + segs'.length) = some (w + segs'.flatten.length) := by
    have htake : Ss.take (k + segs'.length) = Ss.take k ++ segs' := by
      rw [List.take_add, hlen', hsegs', ← List.length_drop, ← List.take_eq_take_min]
    rw [hSlaid.image.dataPos_run (by omega), htake, List.flatten_append, List.length_append]
  have hTpos : T.dataPos j = some w := by
    have haligned := hok.aligned
    rw [hSsub, hTsub, hSpos] at haligned
    exact haligned.symm
  have hTw : (Ts.take j).flatten.length = w := by
    rw [hTlaid.image.dataPos_run hjle] at hTpos
    exact Option.some.inj hTpos
  have hleft : T.leftBehind j w segs' = [] := by
    have hcovered := hok.covered
    rw [hSsub, hm, hSstop, hTlaid.image.nextSlot_eq] at hcovered
    rw [FsLogStore.leftBehind, hTlaid.image.entries]
    split
    · rfl
    · rename_i hcut
      rcases hcovered with hcovered | hcovered
      · omega
      · exact List.drop_eq_nil_of_le (hcovered _ rfl)
  have hbytes := hfit.pack
  rw [hSsub, hm, hSpos, hSstop] at hbytes
  have hsize := hbytes w rfl _ rfl
  rw [Nat.add_sub_cancel_left] at hsize
  have hstale : Image.stale Ts j segs' = [] := by rw [← hTlaid.image.leftBehind_eq, hTw, hleft]
  have hroom : Laid.Room T j segs' := by
    have hnext := hfit.next
    have hcount := hfit.count
    have hfill := hfit.fit
    rw [htsub, hm] at hcount hfill
    exact ⟨hsize, by omega, hcount, hfill⟩
  obtain ⟨pack, T', hpack, -, hrun, hlaid', hwin', hstart', -⟩ :=
    hSlaid.transfer hTlaid hk hjle hn hfit.asked hTw hstale hroom
  -- what the files of the target hold then
  obtain ⟨es', hes⟩ : ∃ es', es' = Te.take j ++ (Se.drop k).take n := ⟨_, rfl⟩
  rw [← hes] at hlaid' hwin'
  have hes' : es' = (target.transfer source (source.startIdx + k) n).entries := by
    rw [hes, LogStore.transfer, LogStore.logEntries, htsub, Nat.add_sub_cancel_left, Nat.add_sub_cancel_left]
    congr 1
    · refine List.ext_getElem? fun i => ?_
      rw [List.getElem?_take, List.getElem?_take]
      split
      · exact hTlaid.agrees hTlen hTstart fun _ => hok.below _ (Nat.le_add_right _ _) (by omega)
      · rfl
    · refine List.ext_getElem? fun i => ?_
      rw [List.getElem?_take, List.getElem?_take]
      split
      · rw [List.getElem?_drop, List.getElem?_drop]
        exact hSlaid.agrees hSlen hSstart fun hlt => hok.packed _ (by omega) (by omega)
          (by rw [LogStore.nextSlot]; omega)
      · rfl
  subst hes'
  have hidx : T'.startIdx = (target.transfer source (source.startIdx + k) n).startIdx := hstart'.trans hTstart
  refine ⟨pack, T', hSstart ▸ hpack, ?_, hwin'.readsAs hlaid' hidx, fun bufSize hf => ?_⟩
  · rw [hj, ← hTstart]
    exact hrun
  · have hf' : T'.Fits (.reopen bufSize) := by
      rw [LogStore.Fits, ← hlaid'.decodes.length, ← hlaid'.image.entries] at hf
      exact hf
    obtain ⟨T'', hopen, hlaid'', hwin'', hidx'', -⟩ := hlaid'.reopen hf'
    exact ⟨T'', hopen, hwin''.readsAs hlaid'' (hidx''.trans hidx)⟩

/-! ## Two stores -/

/-- A store of two entries, the second of which is in memory. -/
def storeOf (e e' : LogEntry) : FsLogStore :=
  ⟨⟨leBytes 8 0 ++ leBytes 8 e.serialize.length, e.serialize ++ e'.serialize, leBytes 8 1⟩, 2, 1, 1, ⟨2, 1, [e']⟩⟩

/-- A store of one entry. -/
def storeOne (e : LogEntry) : FsLogStore :=
  ⟨⟨leBytes 8 0, e.serialize, leBytes 8 1⟩, 1, 1, 1, ⟨1, 1, [e]⟩⟩

/-- Where the entries below are of the same length, the pack arrives. -/
theorem pack_transfers_aligned :
    ∃ pack T', (storeOf ⟨1, [5], .appLog⟩ ⟨1, [7], .appLog⟩).pack 2 1 = some pack ∧
      (storeOne ⟨2, [6], .appLog⟩).applyPack 2 pack = some T' ∧
      Holding T' ⟨1, [⟨2, [6], .appLog⟩, ⟨1, [7], .appLog⟩]⟩ := by
  refine @pack_transfers (storeOf ⟨1, [5], .appLog⟩ ⟨1, [7], .appLog⟩) (storeOne ⟨2, [6], .appLog⟩)
    ⟨1, [⟨1, [5], .appLog⟩, ⟨1, [7], .appLog⟩]⟩ ⟨1, [⟨2, [6], .appLog⟩]⟩ 2 1
    ⟨1, [.append ⟨1, [5], .appLog⟩, .append ⟨1, [7], .appLog⟩], by decide, by decide, by decide, rfl⟩
    ⟨1, [.append ⟨2, [6], .appLog⟩], by decide, by decide, by decide, rfl⟩
    (by decide) (by decide) le_rfl ?_ ?_
  · refine ⟨by decide, fun idx hge hlt _ => ?_, fun idx hge hlt => ?_, by decide⟩
    · obtain rfl : idx = 2 := by omega
      decide
    · obtain rfl : idx = 1 := by
        change 1 ≤ idx at hge
        omega
      decide
  · exact ⟨by decide, by decide, by decide, by decide, by decide⟩

/-- Where they are not, the offset of the pack points into another entry: entry 1 of the
target is cut short. -/
theorem pack_transfers_fails :
    History (storeOf ⟨1, [], .appLog⟩ ⟨1, [7], .appLog⟩) ⟨1, [⟨1, [], .appLog⟩, ⟨1, [7], .appLog⟩]⟩ ∧
      History (storeOne ⟨1, [5], .appLog⟩) ⟨1, [⟨1, [5], .appLog⟩]⟩ ∧
      Transports (storeOf ⟨1, [], .appLog⟩ ⟨1, [7], .appLog⟩) (storeOne ⟨1, [5], .appLog⟩)
        ⟨1, [⟨1, [], .appLog⟩, ⟨1, [7], .appLog⟩]⟩ ⟨1, [⟨1, [5], .appLog⟩]⟩ 2 1 ∧
      ¬ ∃ pack T', (storeOf ⟨1, [], .appLog⟩ ⟨1, [7], .appLog⟩).pack 2 1 = some pack ∧
        (storeOne ⟨1, [5], .appLog⟩).applyPack 2 pack = some T' ∧
        Holding T' ⟨1, [⟨1, [5], .appLog⟩, ⟨1, [7], .appLog⟩]⟩ := by
  refine ⟨⟨1, [.append ⟨1, [], .appLog⟩, .append ⟨1, [7], .appLog⟩], by decide, by decide, by decide, rfl⟩,
    ⟨1, [.append ⟨1, [5], .appLog⟩], by decide, by decide, by decide, rfl⟩,
    ⟨by decide, by decide, by decide, by decide, by decide⟩, ?_⟩
  rintro ⟨pack, T', hpack, hrun, hholds⟩
  obtain rfl : packOf 9 [LogEntry.serialize ⟨1, [7], .appLog⟩] = pack :=
    Option.some.inj ((by decide : _ = some _).symm.trans hpack)
  have hshort : ((storeOne ⟨1, [5], .appLog⟩).applyPack 2
      (packOf 9 [LogEntry.serialize ⟨1, [7], .appLog⟩])).bind (·.entryAt 1) = some ⟨1, [], .appLog⟩ := by
    decide
  have hentry := hholds.now.entryAt 1 (by decide) (by decide)
  rw [hrun, Option.bind_some, hentry] at hshort
  exact absurd hshort (by decide)

end Cornerstone
