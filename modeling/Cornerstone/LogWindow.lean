import Cornerstone.LogImage

/-! # Reading a store

Where the files are laid out and the entries in memory are the last ones of the store,
an entry is read the same from memory and from the files.
-/

namespace Cornerstone
open LittleEndian OffsetFile

/-! ## The window under the operations -/

/-- The entries in memory are those from an offset on: at least the last one, unless
nothing is kept in memory. -/
structure KeepsFrom (s : FsLogStore) (es : List LogEntry) (w : Nat) : Prop where
  le : w ≤ es.length
  bound : es.length - w ≤ s.bufSize
  lt : es ≠ [] → 1 ≤ s.bufSize → w < es.length
  buf : s.buf = ⟨s.startIdx + w, s.bufSize, es.drop w⟩

/-- Appending may push the first entry out of memory. -/
theorem KeepsFrom.append {s t : FsLogStore} {es : List LogEntry} {w : Nat} (h : KeepsFrom s es w) (e : LogEntry)
    (hstart : t.startIdx = s.startIdx) (hsize : t.bufSize = s.bufSize) (hbuf : t.buf = s.buf.append e) :
    ∃ w', KeepsFrom t (es ++ [e]) w' := by
  have hle := h.le
  have hbound := h.bound
  have hdrop : (es ++ [e]).drop w = es.drop w ++ [e] := List.drop_append_of_le_length h.le
  have hlen : (es.drop w ++ [e]).length = es.length - w + 1 := by simp
  have hlen' : (es ++ [e]).length = es.length + 1 := by simp
  by_cases hfull : s.bufSize < es.length - w + 1
  · refine ⟨w + 1, by omega, by omega, fun _ _ => by omega, ?_⟩
    have htail : (es ++ [e]).drop (w + 1) = (es.drop w ++ [e]).tail := by
      rw [← hdrop, List.tail_drop]
    rw [hbuf, h.buf, LogStoreBuffer.append, hstart, hsize, htail]
    simp only [hlen, if_pos hfull, Nat.add_assoc]
  · refine ⟨w, by omega, by omega, fun _ _ => by omega, ?_⟩
    rw [hbuf, h.buf, LogStoreBuffer.append, hstart, hsize, hdrop]
    simp only [hlen, if_neg hfull]

namespace Window
variable {s t : FsLogStore} {segs : List Bytes} {es : List LogEntry} {e : LogEntry}

/-- The window as a buffer that leaves the first `w` entries out. -/
theorem of_drop {w : Nat} (hpos : 1 ≤ s.bufSize) (hlt : es ≠ [] → w < es.length) (hle : w ≤ es.length)
    (hbound : es.length - w ≤ s.bufSize)
    (hbuf : s.buf = ⟨s.startIdx + w, s.bufSize, es.drop w⟩) : Window s es := by
  refine ⟨by rw [hbuf], hpos, by rw [hbuf]; exact Nat.le_add_right _ _, fun hne => ?_, ?_, ?_, ?_⟩
  · rw [hbuf]
    exact Nat.add_lt_add_left (hlt hne) _
  · rw [hbuf]
    simp only [List.length_drop]
    omega
  · rw [hbuf]
    simp only [Nat.add_sub_cancel_left]
  · rw [hbuf]
    simp only [List.length_drop]
    exact hbound

theorem exists_keeps (h : Window s es) : ∃ w, KeepsFrom s es w := by
  have hge := h.ge
  have hlast := h.last
  have hbound := h.bound
  refine ⟨s.buf.startIdx - s.startIdx, by omega, by omega, fun hne _ => ?_, ?_⟩
  · have := h.lt hne
    omega
  · have hstart : s.startIdx + (s.buf.startIdx - s.startIdx) = s.buf.startIdx := by omega
    rw [hstart, ← h.buf, ← h.maxSize]

/-- Appending keeps the window, and may push its first entry out. -/
theorem append (h : Window s es) (e : LogEntry) (hstart : t.startIdx = s.startIdx)
    (hsize : t.bufSize = s.bufSize) (hbuf : t.buf = s.buf.append e) : Window t (es ++ [e]) := by
  obtain ⟨w, hw⟩ := h.exists_keeps
  obtain ⟨w', hw'⟩ := hw.append e hstart hsize hbuf
  have hpos : 1 ≤ t.bufSize := hsize ▸ h.pos
  exact of_drop hpos (fun hne => hw'.lt hne hpos) hw'.le hw'.bound hw'.buf

/-- Trimming to an index of the window keeps the entries below it, and may leave the
window empty. -/
theorem trim_append (h : Window s es) (e : LogEntry) {k : Nat} (hk : k < es.length)
    (hin : s.buf.startIdx ≤ s.startIdx + k) (hstart : t.startIdx = s.startIdx) (hsize : t.bufSize = s.bufSize)
    (hbuf : t.buf = (s.buf.trim (s.startIdx + k)).append e) : Window t (es.take k ++ [e]) := by
  obtain ⟨w, hle, hbound, -, hs⟩ := h.exists_keeps
  have hpos := h.pos
  have hwk : w ≤ k := by
    rw [hs] at hin
    exact Nat.le_of_add_le_add_left hin
  have htrim : s.buf.trim (s.startIdx + k) = ⟨s.startIdx + w, s.bufSize, (es.take k).drop w⟩ := by
    rw [LogStoreBuffer.trim, if_neg (Nat.not_lt.mpr hin), hs]
    simp only [Nat.add_sub_add_left, List.drop_take]
  have hlen : (es.take k).length = k := List.length_take_of_le hk.le
  have hdrop : (es.take k ++ [e]).drop w = (es.take k).drop w ++ [e] :=
    List.drop_append_of_le_length (by omega)
  have hcount : ((es.take k).drop w ++ [e]).length = k - w + 1 := by simp [hlen]
  have hall : (es.take k ++ [e]).length = k + 1 := by simp [hlen]
  have hroom : ¬ s.bufSize < k - w + 1 := by omega
  refine of_drop (w := w) (hsize ▸ hpos) (fun _ => by omega) (by omega) (by omega) ?_
  rw [hbuf, htrim, LogStoreBuffer.append, hstart, hsize, hdrop]
  simp only [hcount, if_neg hroom]

/-- Nothing is left in memory of a store compacted as a whole. -/
theorem emptied_nil (hmax : s.buf.maxSize = s.bufSize) (hpos : 1 ≤ s.bufSize) (last : Nat) :
    Window (Image.emptied s last) [] := by
  have hbuf : (Image.emptied s last).buf = ⟨last + 1, s.bufSize, []⟩ := by
    rw [← hmax]
    rfl
  exact of_drop (w := 0) hpos (fun hne => absurd rfl hne) le_rfl (Nat.zero_le _) hbuf

end Window

/-! ## Reading -/

/-- The position of a word of the index file, at an offset that fits an `int`. -/
theorem wordPos_eq {k : Nat} (h : k < bufferLimit) : wordPos k = some (8 * k) := by
  have hnonneg : ¬ (k : Int) < 0 := by omega
  rw [wordPos, int32OfUlong_of_lt h, if_neg hnonneg, Int.toNat_natCast]

/-- Casting the size to an `int` does no harm to a size that fits a buffer. -/
theorem readSized_eq {f : Bytes} {start n : Nat} (hn : n < bufferLimit) (hlt : start + n < ulongSize) :
    readSized f start (start + n) = readAt f start n := by
  have hsize : int32OfUlong (ulongSub (start + n) start) = n := by
    rw [ulongSub_of_le (Nat.le_add_right _ _) hlt, Nat.add_sub_cancel_left, int32OfUlong_of_lt hn]
  have hnonneg : ¬ (n : Int) < 0 := by omega
  rw [readSized, hsize, if_neg hnonneg, Int.toNat_natCast]

/-- The entry at an index, as the files have it: it ends where the next one starts, the
last one at the end of the data file. -/
def FsLogStore.storedAt (s : FsLogStore) (index : Nat) : Option LogEntry := do
  let start ← readWord s.files.idx (8 * (index - s.startIdx))
  let stop ← if index + 1 = s.nextSlot then some s.files.data.length
    else readWord s.files.idx (8 * (index - s.startIdx) + 8)
  let bs ← readBlock s.files.data start stop
  LogEntry.deserialize bs

namespace Image
variable {s : FsLogStore} {segs : List Bytes} {es : List LogEntry} {k : Nat} {e : LogEntry}

/-- What stands at an offset of the store. -/
structure Holds (segs : List Bytes) (k : Nat) (seg : Bytes) : Prop where
  lt : k < segs.length
  split : segs = segs.take k ++ seg :: segs.drop (k + 1)
  stop : (segs.take (k + 1)).flatten.length = (segs.take k).flatten.length + seg.length

theorem exists_seg (hd : Decodes segs es) (he : es[k]? = some e) :
    ∃ seg, Holds segs k seg ∧ LogEntry.deserialize seg = some e := by
  obtain ⟨hk, rfl⟩ := List.getElem?_eq_some_iff.mp he
  have hlt : k < segs.length := hd.length ▸ hk
  refine ⟨segs[k], ⟨hlt, ?_, ?_⟩, ?_⟩
  · rw [← List.drop_eq_getElem_cons hlt, List.take_append_drop]
  · rw [List.take_succ_eq_append_getElem hlt, List.flatten_append, List.flatten_singleton,
      List.length_append]
  · have hget := congrArg (·[k]?) hd
    simpa [List.getElem?_eq_getElem hlt, List.getElem?_eq_getElem hk] using hget

variable {seg : Bytes}

theorem Holds.small (hseg : Holds segs k seg) (h : Image s segs) : seg.length < bufferLimit :=
  h.small seg (hseg.split ▸ List.mem_append_right _ List.mem_cons_self)

theorem Holds.word (hseg : Holds segs k seg) (h : Image s segs) :
    readWord s.files.idx (8 * k) = some (segs.take k).flatten.length := by
  have hword := h.readWord_offset hseg.split
  rwa [List.length_take_of_le hseg.lt.le] at hword

theorem Holds.bytes (hseg : Holds segs k seg) (h : Image s segs) :
    readAt s.files.data (segs.take k).flatten.length seg.length = some seg := by
  rw [h.data]
  conv_lhs => rw [hseg.split]
  have hlen : (segs.take k ++ seg :: segs.drop (k + 1)).take k = segs.take k :=
    List.take_left' (List.length_take_of_le hseg.lt.le)
  rw [hlen]
  exact readAt_segment _ _ _

/-- The offset behind a segment. -/
theorem Holds.next_word (hseg : Holds segs k seg) (h : Image s segs) (hlast : k + 1 < segs.length) :
    readWord s.files.idx (8 * k + 8) = some ((segs.take k).flatten.length + seg.length) := by
  have hsplit : segs = segs.take (k + 1) ++ segs[k + 1] :: segs.drop (k + 2) := by
    rw [← List.drop_eq_getElem_cons hlast, List.take_append_drop]
  have hword := h.readWord_offset hsplit
  rw [List.length_take_of_le (by omega), Nat.mul_add_one, hseg.stop] at hword
  exact hword

/-- **The files give back the entry** of every index. -/
theorem storedAt_run (h : Image s segs) (hd : Decodes segs es) (he : es[k]? = some e) :
    s.storedAt (s.startIdx + k) = some e := by
  obtain ⟨seg, hseg, hdec⟩ := exists_seg hd he
  have hblock : readBlock s.files.data (segs.take k).flatten.length
      ((segs.take k).flatten.length + seg.length) = some seg := by
    have hsmall := hseg.small h
    rw [readBlock, if_neg (by omega), Nat.add_sub_cancel_left, hseg.bytes h]
  have hlt := hseg.lt
  rw [FsLogStore.storedAt, Nat.add_sub_cancel_left, hseg.word h, h.nextSlot_eq]
  by_cases hlast : s.startIdx + k + 1 = s.startIdx + segs.length
  · have hall : segs.take (k + 1) = segs := List.take_of_length_le (by omega)
    have hstop : s.files.data.length = (segs.take k).flatten.length + seg.length := by
      rw [h.data, ← hseg.stop, hall]
    simp only [Option.bind_eq_bind, Option.bind_some, if_pos hlast, hstop, hblock, hdec]
  · have hstop := hseg.next_word h (by omega)
    simp only [Option.bind_eq_bind, Option.bind_some, if_neg hlast, hstop, hblock, hdec]

end Image

/-- An entry in memory is the entry of its index. -/
theorem Window.at?_run {s : FsLogStore} {es : List LogEntry} (hw : Window s es) {k : Nat}
    (hin : s.buf.startIdx ≤ s.startIdx + k) : s.buf.at? (s.startIdx + k) = es[k]? := by
  have hge := hw.ge
  rw [LogStoreBuffer.at?, if_neg (Nat.not_lt.mpr hin), hw.buf, List.getElem?_drop]
  congr 1
  omega

theorem Window.at?_none {s : FsLogStore} {es : List LogEntry} (hw : Window s es) {idx : Nat}
    (hout : idx < s.buf.startIdx ∨ s.startIdx + es.length ≤ idx) : s.buf.at? idx = none := by
  have hlast := hw.last
  rw [LogStoreBuffer.at?]
  split
  · rfl
  · exact List.getElem?_eq_none (by omega)

namespace Image
variable {s : FsLogStore} {segs : List Bytes} {es : List LogEntry} {k : Nat} {e : LogEntry}

/-- An entry that is not the last one is read from the files. -/
theorem entryAt_files (h : Image s segs) (hd : Decodes segs es) (he : es[k]? = some e)
    (hout : s.buf.at? (s.startIdx + k) = none) (hlast : k + 1 < es.length) :
    s.entryAt (s.startIdx + k) = some e := by
  have hlen := hd.length
  obtain ⟨seg, hseg, hdec⟩ := exists_seg hd he
  have hsmall := hseg.small h
  have hsize := h.size
  have hword := hseg.word h
  have hnext := hseg.next_word h (by omega)
  have hle : (segs.take k).flatten.length + seg.length ≤ segs.flatten.length := by
    rw [← hseg.stop]
    conv_rhs => rw [← List.take_append_drop (k + 1) segs, List.flatten_append, List.length_append]
    exact Nat.le_add_right _ _
  have hblock : readSized s.files.data (segs.take k).flatten.length
      ((segs.take k).flatten.length + seg.length) = some seg := by
    rw [readSized_eq hsmall (by omega)]
    exact hseg.bytes h
  have hrange : ¬ (s.startIdx + k < s.startIdx ∨ s.nextSlot ≤ s.startIdx + k) := by
    rw [h.nextSlot_eq]
    omega
  rw [FsLogStore.entryAt, hout]
  dsimp only
  rw [if_neg hrange, Nat.add_sub_cancel_left, hword, Option.bind_eq_bind, Option.bind_some, hnext,
    Option.bind_eq_bind, Option.bind_some, hblock, Option.bind_some, hdec]

/-- **`entry_at`** answers the entry, from memory or from the files. -/
theorem entryAt_run (h : Image s segs) (hd : Decodes segs es) (hw : Window s es) (he : es[k]? = some e) :
    s.entryAt (s.startIdx + k) = some e := by
  have hk : k < es.length := (List.getElem?_eq_some_iff.mp he).1
  rcases Nat.lt_or_ge (s.startIdx + k) s.buf.startIdx with hout | hin
  · -- not the last entry, which is in memory
    have hlast := hw.lt (List.ne_nil_of_length_pos (by omega))
    exact h.entryAt_files hd he (hw.at?_none (.inl hout)) (by omega)
  · rw [FsLogStore.entryAt, hw.at?_run hin, he]

/-- The term of an entry is the first word of its segment. -/
theorem readWord_term {seg : Bytes} (hdec : LogEntry.deserialize seg = some e) (xs ys : List Bytes) :
    readWord (xs ++ seg :: ys).flatten xs.flatten.length = some e.term := by
  obtain ⟨hlen, hterm⟩ : 8 ≤ seg.length ∧ leNat (seg.take 8) = e.term := by
    rw [LogEntry.deserialize] at hdec
    by_cases hshort : seg.length < 8
    · have hnone : readLE 8 seg = none := by rw [readLE, readBytes, if_pos hshort, Option.map_none]
      rw [hnone] at hdec
      cases hdec
    · have hread : readLE 8 seg = some (leNat (seg.take 8), seg.drop 8) := by
        rw [readLE, readBytes, if_neg hshort, Option.map_some]
      rw [hread] at hdec
      simp only [Option.bind_eq_bind, Option.bind_some] at hdec
      refine ⟨Nat.not_lt.mp hshort, ?_⟩
      split at hdec
      · cases hdec
      · cases hdec
        rfl
  have hread : readAt (xs ++ seg :: ys).flatten xs.flatten.length 8 = some (seg.take 8) := by
    have hsplit : (xs ++ seg :: ys).flatten = xs.flatten ++ (seg.take 8 ++ (seg.drop 8 ++ ys.flatten)) := by
      rw [List.flatten_append, List.flatten_cons, ← List.append_assoc (seg.take 8), List.take_append_drop]
    have hat := readAt_append xs.flatten (seg.take 8) (seg.drop 8 ++ ys.flatten)
    rw [List.length_take_of_le hlen] at hat
    rw [hsplit, hat]
  rw [readWord, hread, Option.map_some, hterm]

/-- A term that is not in memory is read from the files, where its offset as an `int` says. -/
theorem termAt_files {idx : Nat} (h : Image s segs) (hd : Decodes segs es) (he : es[k]? = some e)
    (hge : s.startIdx ≤ idx) (hout : ¬ (s.buf.startIdx ≤ idx ∧ idx < s.buf.lastIdx))
    (hpos : wordPos (idx - s.startIdx) = some (8 * k)) : s.termAt idx = some e.term := by
  obtain ⟨seg, hseg, hdec⟩ := exists_seg hd he
  have hterm : readWord s.files.data (segs.take k).flatten.length = some e.term := by
    rw [h.data]
    conv_lhs => rw [hseg.split]
    rw [List.take_left' (List.length_take_of_le hseg.lt.le)]
    exact readWord_term hdec _ _
  rw [FsLogStore.termAt, if_neg hout, if_neg (Nat.not_lt.mpr hge), hpos, Option.bind_eq_bind,
    Option.bind_some, hseg.word h, Option.bind_some, hterm]

/-- **`term_at`** answers the term of the entry, as long as the offset fits an `int`. -/
theorem termAt_run (h : Image s segs) (hd : Decodes segs es) (hw : Window s es) (he : es[k]? = some e)
    (hfit : k < bufferLimit) : s.termAt (s.startIdx + k) = some e.term := by
  have hk : k < es.length := (List.getElem?_eq_some_iff.mp he).1
  have hlast : s.buf.lastIdx = s.startIdx + es.length := hw.last
  by_cases hin : s.buf.startIdx ≤ s.startIdx + k
  · rw [FsLogStore.termAt, if_pos ⟨hin, by omega⟩, LogStoreBuffer.getTerm, hw.at?_run hin, he]
    rfl
  · have hpos : wordPos (s.startIdx + k - s.startIdx) = some (8 * k) := by
      rw [Nat.add_sub_cancel_left, wordPos_eq hfit]
    exact h.termAt_files hd he (Nat.le_add_right _ _) (fun hc => hin hc.1) hpos

end Image

/-- **`last_entry`** answers the last entry, or the dummy entry. -/
theorem Window.lastEntry_run {s : FsLogStore} {es : List LogEntry} (hw : Window s es) :
    s.lastEntry = es.getLast? := by
  obtain ⟨w, -, -, hlt, hbuf⟩ := hw.exists_keeps
  rw [FsLogStore.lastEntry, hbuf]
  simp only [List.getLast?_drop]
  split
  · have hnil : es = [] := by
      by_contra hne
      have := hlt hne hw.pos
      omega
    rw [hnil]
    rfl
  · rfl

end Cornerstone
