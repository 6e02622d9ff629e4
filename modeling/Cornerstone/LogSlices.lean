import Cornerstone.FsLogStoreRefines
import Cornerstone.StoreStreams

/-! # Slices of a store

`log_entries` takes what it can from memory, with room in front for the rest, and then
reads the rest from the files into that room.  The room is only there if the slice
reaches the entries in memory.
-/

namespace Cornerstone
open LittleEndian OffsetFile Handlers Handler OpenStore

/-! ## Stores that can be read -/

/-- The files of a store hold these entries, and its memory the end of them.  `buf_size_`
is an `int`. -/
structure Readable (s : FsLogStore) (segs : List Bytes) (es : List LogEntry) (w : Nat) : Prop where
  image : Image s segs
  decodes : Decodes segs es
  count : segs.length ≤ bufferLimit
  sizeInt : s.bufSize < bufferLimit
  keeps : KeepsFrom s es w

variable {o : OpenStore} {s : FsLogStore} {segs : List Bytes} {es : List LogEntry} {w k m n : Nat}

theorem intDistance_eq {a b : Nat} (h : b < a + bufferLimit) (h' : a ≤ b + bufferLimit) :
    intDistance a b = (b : Int) - a := by
  rw [intDistance, int32OfUlong, ulongSub, Int.bmod]
  simp only [bufferLimit, ulongSize, uintSize] at *
  split_ifs <;> omega

namespace Readable

theorem length (h : Readable s segs es w) : es.length ≤ bufferLimit := h.decodes.length ▸ h.count

theorem nextSlot_eq (h : Readable s segs es w) : s.nextSlot = s.startIdx + es.length := by
  rw [h.image.nextSlot_eq, h.decodes.length]

theorem entries_eq (h : Readable s segs es w) : s.entriesInStore = es.length := by
  rw [h.image.entries, h.decodes.length]

theorem first_eq (h : Readable s segs es w) : s.buf.startIdx = s.startIdx + w := by rw [h.keeps.buf]

/-! ## The part in memory -/

/-- A range in memory is filled from there. -/
theorem fill_inside (h : Readable s segs es w) (hin : w ≤ k) (hlt : k < m) (hle : m ≤ es.length) :
    fill s.buf (s.startIdx + k) (s.startIdx + m) o =
      ⟨.ok (s.startIdx + w, ((es.drop k).take (m - k)).map some), o, []⟩ := by
  have hlen := h.length
  have hbound := h.keeps.bound
  have hsize := h.sizeInt
  have hoffset : intDistance (s.startIdx + w) (s.startIdx + k) = ((k - w : Nat) : Int) := by
    rw [intDistance_eq] <;> omega
  rw [fill, h.keeps.buf, if_neg (by simp only; omega)]
  dsimp only
  rw [hoffset]
  by_cases hpos : ((k - w : Nat) : Int) > 0
  · have hcount : intDistance (s.startIdx + k) (s.startIdx + m) = ((m - k : Nat) : Int) := by
      rw [intDistance_eq] <;> omega
    have hroom : ¬ (0 < m - k ∧ (es.drop w).length < k - w + (m - k)) := by
      rw [List.length_drop]
      omega
    have hdrop : (es.drop w).drop (k - w) = es.drop k := by
      rw [List.drop_drop, Nat.add_sub_cancel' hin]
    rw [if_pos hpos, hcount, Int.toNat_natCast, Int.toNat_natCast, if_neg hroom, hdrop, pure_run]
  · have hkw : k = w := by omega
    have hcount : intDistance (s.startIdx + w) (s.startIdx + m) = ((m - k : Nat) : Int) := by
      rw [intDistance_eq] <;> omega
    have hroom : ¬ (((k - w : Nat) : Int) = -0x80000000 ∨ (es.drop w).length < m - k) := by
      rw [List.length_drop]
      omega
    rw [if_neg hpos, hcount, Int.toNat_natCast, if_neg hroom, hkw]
    simp

/-- A range that reaches the memory gets room for what is in front of it. -/
theorem fill_across (h : Readable s segs es w) (hlt : k < w) (hroom : w - k < bufferLimit) (hge : w ≤ m)
    (hle : m ≤ es.length) : fill s.buf (s.startIdx + k) (s.startIdx + m) o =
      ⟨.ok (s.startIdx + w, List.replicate (w - k) none ++ ((es.drop w).take (m - w)).map some), o, []⟩ := by
  have hbound := h.keeps.bound
  have hsize := h.sizeInt
  have hoffset : intDistance (s.startIdx + w) (s.startIdx + k) = -((w - k : Nat) : Int) := by
    rw [intDistance_eq] <;> omega
  have hcount : intDistance (s.startIdx + w) (s.startIdx + m) = ((m - w : Nat) : Int) := by
    rw [intDistance_eq] <;> omega
  have hneg : ¬ (-((w - k : Nat) : Int)) > 0 := by omega
  have hin : ¬ (-((w - k : Nat) : Int) = -0x80000000 ∨ (es.drop w).length < m - w) := by
    rw [List.length_drop]
    simp only [bufferLimit] at hroom
    omega
  rw [fill, h.keeps.buf, if_neg (by simp only; omega)]
  dsimp only
  rw [hoffset, hcount, if_neg hneg, Int.toNat_natCast, if_neg hin, neg_neg, Int.toNat_natCast, pure_run]

/-- A range that ends below the memory gets no room. -/
theorem fill_below (h : Readable s segs es w) (start : Nat) (hlt : m < w) :
    fill s.buf start (s.startIdx + m) o = ⟨.ok (s.startIdx + w, []), o, []⟩ := by
  rw [fill, h.keeps.buf, if_pos (by simp only; omega), pure_run]

/-! ## The part in the files -/

/-- What one round of the loop reads: where the entry ends, its bytes, and the entry. -/
theorem exists_entry (h : Readable o.store segs es w) (hg : o.Good) (hlt : k + 1 < es.length) :
    ∃ e stop, es[k]? = some e ∧ readWord o.store.files.idx (8 * (k + 1)) = some stop ∧
      stop = (segs.take (k + 1)).flatten.length ∧
      ∀ {α : Type} (g : LogEntry → StoreAction α), (do
        let size ← alloc (intDistance (segs.take k).flatten.length stop)
        let bs ← readFrom .data (segs.take k).flatten.length size
        let e ← parse bs
        g e : StoreAction α) o = g e o := by
  have hk : k < es.length := by omega
  obtain ⟨seg, hseg, hdec⟩ := Image.exists_seg h.decodes (List.getElem?_eq_getElem hk)
  have hsmall := hseg.small h.image
  have hsize := h.image.size
  have hle : (segs.take k).flatten.length + seg.length ≤ segs.flatten.length := by
    rw [← hseg.stop]
    conv_rhs => rw [← List.take_append_drop (k + 1) segs, List.flatten_append, List.length_append]
    exact Nat.le_add_right _ _
  have hblock : readSized o.store.files.data (segs.take k).flatten.length
      ((segs.take k).flatten.length + seg.length) = some seg := by
    rw [readSized_eq hsmall (by omega)]
    exact hseg.bytes h.image
  refine ⟨es[k], _, List.getElem?_eq_getElem hk, ?_, rfl, fun {α} g => ?_⟩
  · rw [hseg.stop, Nat.mul_add_one]
    exact hseg.next_word h.image (by rw [h.decodes.length]; exact hlt)
  · rw [hseg.stop, readSized_run (hg .data) hblock, bind_silent (parse_run hdec)]

/-- **The loop fills the room**, as long as there is an entry behind each it reads. -/
theorem readEntries_run (h : Readable o.store segs es w) (hg : o.Good) (rest : List (Option LogEntry)) :
    ∀ {n k : Nat} (done : List (Option LogEntry)), k + n < es.length →
      OpenStore.readEntries n done.length (8 * (k + 1)) (segs.take k).flatten.length
        (done ++ (List.replicate n none ++ rest)) o =
          ⟨.ok (done ++ (((es.drop k).take n).map some ++ rest)), o, []⟩
  | 0, k, done, _ => by simp [OpenStore.readEntries]
  | n + 1, k, done, hlt => by
    obtain ⟨e, stop, he, hword, hstop, hread⟩ := h.exists_entry (k := k) hg (by omega)
    have hset : (done ++ (List.replicate (n + 1) none ++ rest)).set done.length (some e) =
        (done ++ [some e]) ++ (List.replicate n none ++ rest) := by
      simp [List.replicate_succ]
    have htake : (es.drop k).take (n + 1) = e :: (es.drop (k + 1)).take n := by
      obtain ⟨hk, rfl⟩ := List.getElem?_eq_some_iff.mp he
      rw [List.drop_eq_getElem_cons hk, List.take_succ_cons]
    have hin : ¬ (done ++ (List.replicate (n + 1) none ++ rest)).length ≤ done.length := by simp
    have hrest := h.readEntries_run hg rest (k := k + 1) (n := n) (done ++ [some e]) (by omega)
    rw [List.length_append, List.length_singleton] at hrest
    rw [OpenStore.readEntries, bind_silent (readWordFrom_run (hg .idx) hword), bind_silent (seekg_run _ _), hread,
      if_neg hin, hset, hstop, ← Nat.mul_add_one, hrest, htake]
    simp

/-- Without room the first entry goes outside of the vector. -/
theorem readEntries_noRoom (h : Readable o.store segs es w) (hg : o.Good) (hlt : k + 1 < es.length) :
    OpenStore.readEntries (n + 1) 0 (8 * (k + 1)) (segs.take k).flatten.length [] o = ⟨.error .outOfBounds, o, []⟩ := by
  obtain ⟨e, stop, -, hword, -, hread⟩ := h.exists_entry (k := k) hg hlt
  rw [OpenStore.readEntries, bind_silent (readWordFrom_run (hg .idx) hword), bind_silent (seekg_run _ _), hread,
    if_pos (by exact le_rfl), halt_run]

/-! ## The slice -/

/-- A slice is read in memory. -/
theorem logEntries_inside (h : Readable o.store segs es w) (hin : w ≤ k) (hk : k < es.length) (hlt : k < n) :
    logEntries (o.store.startIdx + k) (o.store.startIdx + n) o =
      ⟨.ok (some (((es.drop k).take (min n es.length - k)).map some)), o, []⟩ := by
  have hfill := h.fill_inside (o := o) hin (lt_min hlt hk) (min_le_right _ _)
  rw [logEntries, bind_silent (look_run _)]
  dsimp only
  rw [h.nextSlot_eq, h.entries_eq, if_neg (by omega), if_neg (by omega), Nat.add_sub_cancel_left,
    Nat.add_sub_cancel_left, if_neg (by omega), Nat.add_comm (min n es.length), bind_silent hfill]
  dsimp only
  rw [if_neg (by omega), pure_run]

/-- What is not in memory is read from the files, up to the entries in memory. -/
theorem logEntries_files {results : List (Option LogEntry)} (h : Readable o.store segs es w) (hg : o.Good)
    (hout : k < w) (hk : k < es.length) (hlt : k < n)
    (hfill : fill o.store.buf (o.store.startIdx + k) (o.store.startIdx + min n es.length) o =
      ⟨.ok (o.store.startIdx + w, results), o, []⟩) :
    logEntries (o.store.startIdx + k) (o.store.startIdx + n) o = (do
      let results ← OpenStore.readEntries (intDistance k w).toNat 0 (8 * (k + 1)) (segs.take k).flatten.length results
      pure (some results) : StoreAction _) o := by
  obtain ⟨seg, hseg, -⟩ := Image.exists_seg h.decodes (List.getElem?_eq_getElem hk)
  have hword : readWord (o.bytes .idx) (8 * k) = some (segs.take k).flatten.length := hseg.word h.image
  rw [logEntries, bind_silent (look_run _)]
  dsimp only
  rw [h.nextSlot_eq, h.entries_eq, if_neg (by omega), if_neg (by omega), Nat.add_sub_cancel_left,
    Nat.add_sub_cancel_left, if_neg (by omega), Nat.add_comm (min n es.length), bind_silent hfill]
  dsimp only
  rw [if_pos (by omega), Nat.add_sub_cancel_left, bind_silent (checkStreams_run hg), bind_silent (seekg_run _ _),
    bind_silent (readWordFrom_run (hg .idx) hword), Nat.mul_add_one]

/-- A slice that reaches the entries in memory is read from both. -/
theorem logEntries_across (h : Readable o.store segs es w) (hg : o.Good) (hout : k < w) (hw : w < es.length)
    (hn : w ≤ n) : logEntries (o.store.startIdx + k) (o.store.startIdx + n) o =
      ⟨.ok (some (((es.drop k).take (min n es.length - k)).map some)), o, []⟩ := by
  have hlen := h.length
  have hm : w ≤ min n es.length := le_min hn hw.le
  have hfill := h.fill_across (o := o) hout (by omega) hm (min_le_right _ _)
  have hread := h.readEntries_run hg (((es.drop w).take (min n es.length - w)).map some) (n := w - k) (k := k) [] (by omega)
  have hcount : intDistance k w = ((w - k : Nat) : Int) := by
    rw [intDistance_eq] <;> omega
  have hparts : (es.drop k).take (min n es.length - k) =
      (es.drop k).take (w - k) ++ (es.drop w).take (min n es.length - w) := by
    have hsplit : min n es.length - k = (w - k) + (min n es.length - w) := by omega
    rw [hsplit, List.take_add, List.drop_drop, Nat.add_sub_cancel' hout.le]
  rw [List.nil_append, List.nil_append, List.length_nil] at hread
  rw [h.logEntries_files hg hout (by omega) (by omega) hfill, hcount, Int.toNat_natCast, bind_silent hread, pure_run,
    hparts, List.map_append]

/-- **A slice that ends below the entries in memory** is written outside of the vector. -/
theorem logEntries_below (h : Readable o.store segs es w) (hg : o.Good) (hroom : w - k < bufferLimit) (hlt : k < n)
    (hn : n < w) : logEntries (o.store.startIdx + k) (o.store.startIdx + n) o = ⟨.error .outOfBounds, o, []⟩ := by
  have hle := h.keeps.le
  have hfill := h.fill_below (o := o) (o.store.startIdx + k) (m := min n es.length) (by omega)
  obtain ⟨d, hd⟩ : ∃ d, w - k = d + 1 := ⟨w - k - 1, by omega⟩
  have hcount : intDistance k w = ((d + 1 : Nat) : Int) := by
    rw [intDistance_eq] <;> omega
  rw [h.logEntries_files hg (by omega) (by omega) hlt hfill, hcount, Int.toNat_natCast, bind_run,
    h.readEntries_noRoom hg (by omega), Outcome.andThen_error]

end Readable

/-! ## Runs -/

/-- An append or a compaction that the code's buffers and integers can hold. -/
def Grows (l : LogStore) (size : Nat) (op : StoreOp) : Prop :=
  (∀ index e, op ≠ .writeAt index e) ∧ (∀ bufSize, op ≠ .reopen bufSize) ∧ l.Fits size op

instance (l : LogStore) (size : Nat) : (op : StoreOp) → Decidable (Grows l size op)
  | .append e => decidable_of_iff (l.Fits size (.append e)) ⟨fun h => ⟨nofun, nofun, h⟩, fun h => h.2.2⟩
  | .compact last => decidable_of_iff (l.Fits size (.compact last)) ⟨fun h => ⟨nofun, nofun, h⟩, fun h => h.2.2⟩
  | .writeAt _ _ => .isFalse fun h => h.1 _ _ rfl
  | .reopen _ => .isFalse fun h => h.2.1 _ rfl

/-- A store that holds a log and can be read. -/
structure Built (s : FsLogStore) (l : LogStore) (size : Nat) : Prop where
  startIdx : s.startIdx = l.startIdx
  bufSize : s.bufSize = size
  readable : ∃ segs w, Readable s segs l.entries w

/-- Nothing can be taken into a memory of no entries; `fill_buffer` tries to. -/
theorem refill_zero (h : Image s segs) (hne : segs ≠ []) (hzero : s.bufSize = 0) : s.refill = none := by
  have hnext := h.next
  have hstart := h.windowStart_eq
  have hpos := List.length_pos_iff.mpr hne
  have hfirst : 8 * ulongSub (s.buf.reset s.windowStart).startIdx s.startIdx = s.files.idx.length := by
    show 8 * ulongSub s.windowStart s.startIdx = _
    rw [hstart, ulongSub_of_le (by omega) (by omega), h.idx_length]
    omega
  have hblock : readBlock s.files.idx s.files.idx.length s.files.idx.length = some [] := by
    rw [readBlock, Nat.sub_self, if_neg (by simp [bufferLimit]), readAt, if_pos (by omega), List.take_zero]
  have hidx : ¬ s.files.idx.length = 0 := by
    rw [h.idx_length]
    omega
  rw [FsLogStore.refill, FsLogStore.fillBuffer, if_neg hidx]
  simp only [hfirst, hblock, Option.bind_eq_bind, Option.bind_some]
  rfl

namespace Built
variable {l : LogStore} {size : Nat} {s' : FsLogStore}

/-- An append keeps the store readable, whatever is kept in memory. -/
theorem append {e : LogEntry} (h : Built s l size) (hf : l.Fits size (.append e)) (hrun : s.append e = some s') :
    Built s' (l.append e) size := by
  obtain ⟨segs, w, hr⟩ := h.readable
  obtain ⟨he, hnext, hcount⟩ := hf
  have hlen := hr.decodes.length
  have hsize := segments_size hr.image.small hr.count
  have hroom : e.serialize.length < bufferLimit := e.serialize_length ▸ he.size
  have hstart := h.startIdx
  obtain ⟨happ, himg⟩ := hr.image.append_run he (by omega) (by omega)
  cases happ.symm.trans hrun
  obtain ⟨w', hw'⟩ := hr.keeps.append (t := Image.appended s e) e rfl rfl rfl
  refine ⟨h.startIdx, h.bufSize, segs ++ [e.serialize], w', himg, ?_, ?_, hr.sizeInt, hw'⟩
  · exact hr.decodes.append (Decodes.cons_iff.mpr ⟨LogEntry.deserialize_serialize he, rfl⟩)
  · rw [List.length_append, List.length_singleton]
    omega

/-- A compaction does so too; it throws if only some entries go and none is kept in memory. -/
theorem compact {last : Nat} (h : Built s l size) (hf : l.Fits size (.compact last)) (hrun : s.compact last = some s') :
    Built s' (l.compact last) size := by
  obtain ⟨segs, w, hr⟩ := h.readable
  obtain ⟨hge, hlast, hfit⟩ := hf
  have hlen := hr.decodes.length
  have hstart := h.startIdx
  have hsize := h.bufSize
  have hcount := hr.count
  obtain ⟨k, rfl⟩ : ∃ k, last = s.startIdx + k := Nat.exists_eq_add_of_le (hstart ▸ hge)
  have hentries : (l.compact (s.startIdx + k)).entries = l.entries.drop (k + 1) := by
    rw [LogStore.compact, hstart, Nat.add_assoc, Nat.add_sub_cancel_left]
  have hdec := hr.decodes.drop (k + 1)
  have hcount' : (segs.drop (k + 1)).length ≤ bufferLimit := by
    rw [List.length_drop]
    omega
  have hmax : s.buf.maxSize = s.bufSize := by rw [hr.keeps.buf]
  rcases Nat.lt_or_ge (k + 1) segs.length with hpart | hall
  · obtain ⟨hrefill, himg⟩ := hr.image.compact_refill (Nat.succ_pos k) hpart
    rcases Nat.eq_zero_or_pos s.bufSize with hzero | hpos
    · have hne : segs.drop (k + 1) ≠ [] := List.ne_nil_of_length_pos (by rw [List.length_drop]; omega)
      have hnone := hrefill.trans (refill_zero himg hne hzero)
      cases hnone.symm.trans hrun
    · obtain ⟨t, ht, hopen⟩ := hr.image.compact_run hr.decodes (Nat.succ_pos k) hpart hpos hmax (by omega)
      cases ht.symm.trans hrun
      obtain ⟨w', hw'⟩ := hopen.window.exists_keeps
      refine ⟨hopen.startIdx, hopen.bufSize.trans hsize, segs.drop (k + 1), w', hopen.image, ?_, hcount', ?_, ?_⟩
      · rw [hentries]
        exact hdec
      · rw [hopen.bufSize]
        exact hr.sizeInt
      · rw [hentries]
        exact hw'
  · obtain ⟨hempty, himg⟩ := hr.image.compact_all (Nat.le_add_right s.startIdx k) (by omega) hlast
    cases hempty.symm.trans hrun
    have hnil : segs.drop (k + 1) = [] := List.drop_eq_nil_of_le hall
    have hes : l.entries.drop (k + 1) = [] := List.drop_eq_nil_of_le (hlen ▸ hall)
    have hbuf : (Image.emptied s (s.startIdx + k)).buf = ⟨s.startIdx + k + 1, s.bufSize, []⟩ := by
      rw [← hmax]
      rfl
    rw [hnil, hes] at hdec
    refine ⟨rfl, hsize, [], 0, himg, ?_, Nat.zero_le _, hr.sizeInt, ?_⟩
    · rw [hentries, hes]
      exact hdec
    · rw [hentries, hes]
      exact ⟨le_rfl, Nat.zero_le _, fun hne => absurd rfl hne, hbuf⟩

theorem perform {op : StoreOp} (h : Built s l size) (hop : Grows l size op) (hrun : s.perform op = some s') :
    Built s' (l.perform op) size := by
  obtain ⟨hwrite, hreopen, hf⟩ := hop
  cases op with
  | append e => exact h.append hf hrun
  | compact last => exact h.compact hf hrun
  | writeAt index e => exact absurd rfl (hwrite _ _)
  | reopen bufSize => exact absurd rfl (hreopen _)

theorem run {ops : List StoreOp} (h : Built s l size) (hops : EveryStep Grows l size ops) (hrun : s.run ops = some s') :
    Built s' (l.run ops) size := by
  induction ops generalizing s l with
  | nil =>
    cases hrun
    exact h
  | cons op ops ih =>
    obtain ⟨hop, hrest⟩ := hops
    obtain ⟨s₁, hstep, hrun⟩ := Option.bind_eq_some_iff.mp hrun
    have hsize : op.sizeAfter size = size := by
      cases op with
      | reopen bufSize => exact absurd rfl (hop.2.1 _)
      | append | writeAt | compact => rfl
    rw [hsize] at hrest
    exact ih (h.perform hop hstep) hrest hrun

/-- A store in a new folder. -/
theorem fresh {bufSize : Int} (hint : bufferSize bufSize < bufferLimit) :
    ∃ s, FsLogStore.openOn {} bufSize = some s ∧ Built s {} (bufferSize bufSize) := by
  refine ⟨⟨⟨[], [], leBytes 8 1⟩, 0, 1, bufferSize bufSize, ⟨1, bufferSize bufSize, []⟩⟩, rfl, rfl, rfl, [], 0, ?_⟩
  refine ⟨?_, rfl, Nat.zero_le _, hint, le_rfl, Nat.zero_le _, fun hne => absurd rfl hne, rfl⟩
  exact ⟨rfl, rfl, rfl, rfl, le_rfl, by simp, (by decide : 1 + 0 < ulongSize), (by decide : 0 < ulongSize)⟩

end Built

/-! ## Exactly the slice -/

/-- The answer to a request for the entries of `[start, stop)` of a log. -/
def Sliced (l : LogStore) (start stop : Nat) (r : Except StoreStop (Option (List (Option LogEntry)))) : Prop :=
  if start ≥ stop ∨ start ≥ l.nextSlot then r = .ok none
  else ∃ v, r = .ok (some v) ∧ v.length = min stop l.nextSlot - start ∧
    ∀ k < v.length, ∃ e, l.entryAt? (start + k) = some e ∧ v[k]? = some (some e)

/-- A slice of the entries is one of the log. -/
theorem sliced_take {l : LogStore} {k n : Nat} (hk : k < l.entries.length) (hlt : k < n) :
    Sliced l (l.startIdx + k) (l.startIdx + n)
      (.ok (some (((l.entries.drop k).take (min n l.entries.length - k)).map some))) := by
  have hrange : ¬ (l.startIdx + k ≥ l.startIdx + n ∨ l.startIdx + k ≥ l.nextSlot) := by
    rw [LogStore.nextSlot]
    omega
  have hlen : (((l.entries.drop k).take (min n l.entries.length - k)).map some).length =
      min n l.entries.length - k := by
    rw [List.length_map, List.length_take, List.length_drop]
    omega
  rw [Sliced, if_neg hrange]
  refine ⟨_, rfl, ?_, fun i hi => ?_⟩
  · rw [hlen, LogStore.nextSlot]
    omega
  · rw [hlen] at hi
    have hin : k + i < l.entries.length := by omega
    refine ⟨l.entries[k + i], ?_, ?_⟩
    · rw [Nat.add_assoc, LogStore.entryAt?_of_mem (Nat.le_add_right _ _), Nat.add_sub_cancel_left,
        List.getElem?_eq_getElem hin]
    · rw [List.getElem?_map, List.getElem?_take_of_lt hi, List.getElem?_drop, List.getElem?_eq_getElem hin,
        Option.map_some]

variable {l : LogStore} {size : Nat}

/-- What `log_entries` answers is the slice, if it is not to end below the memory. -/
theorem Built.sliced_iff (h : Built o.store l size) (hg : o.Good) (hpos : 1 ≤ size) {start stop : Nat}
    (hge : o.store.startIdx ≤ start) : Sliced l start stop (logEntries start stop o).res ↔
      (start < stop → start < o.store.nextSlot → o.store.buf.startIdx ≤ stop) := by
  obtain ⟨segs, w, hr⟩ := h.readable
  have hstart := h.startIdx
  have hlen := hr.length
  obtain ⟨k, rfl⟩ : ∃ k, start = o.store.startIdx + k := Nat.exists_eq_add_of_le hge
  rw [hr.nextSlot_eq, hr.first_eq]
  by_cases hnone : o.store.startIdx + k ≥ stop ∨ o.store.startIdx + k ≥ o.store.startIdx + l.entries.length
  · have hrun : logEntries (o.store.startIdx + k) stop o = ⟨.ok none, o, []⟩ := by
      rw [logEntries, bind_silent (look_run _)]
      dsimp only
      rw [hr.nextSlot_eq, if_neg (by omega), if_pos hnone, pure_run]
    have hnone' : o.store.startIdx + k ≥ stop ∨ o.store.startIdx + k ≥ l.nextSlot := by
      rw [LogStore.nextSlot, ← hstart]
      exact hnone
    rw [hrun, Sliced, if_pos hnone']
    exact ⟨fun _ _ _ => by omega, fun _ => rfl⟩
  · obtain ⟨n, rfl⟩ : ∃ n, stop = o.store.startIdx + n := ⟨stop - o.store.startIdx, by omega⟩
    have hk : k < l.entries.length := by omega
    have hlt : k < n := by omega
    have hw := hr.keeps.lt (List.ne_nil_of_length_pos (by omega)) (h.bufSize ▸ hpos)
    have hslice := sliced_take hk hlt
    rw [← hstart] at hslice
    rcases Nat.lt_or_ge k w with hout | hin
    · rcases Nat.lt_or_ge n w with hbelow | hreach
      · rw [hr.logEntries_below hg (by omega) hlt hbelow]
        constructor
        · intro hsliced
          rw [Sliced, if_neg (by rw [LogStore.nextSlot]; omega)] at hsliced
          obtain ⟨v, hv, -⟩ := hsliced
          cases hv
        · intro hle
          have := hle (by omega) (by omega)
          omega
      · rw [hr.logEntries_across hg hout hw hreach]
        exact ⟨fun _ _ _ => by omega, fun _ => hslice⟩
    · rw [hr.logEntries_inside hin hk hlt]
      exact ⟨fun _ _ _ => by omega, fun _ => hslice⟩

/-- The streams of a store whose operations have succeeded are good. -/
theorem good_mk (s : FsLogStore) : Good ⟨s, fun _ => false⟩ := fun _ => rfl

theorem Grows.unwritten {op : StoreOp} (h : Grows l size op) : Unwritten l size op := ⟨h.1, h.2.2⟩

theorem EveryStep.mono {P Q : LogStore → Nat → StoreOp → Prop} (hPQ : ∀ l size op, P l size op → Q l size op)
    {ops : List StoreOp} (h : EveryStep P l size ops) : EveryStep Q l size ops := by
  induction ops generalizing l size with
  | nil => trivial
  | cons op ops ih => exact ⟨hPQ _ _ _ h.1, ih h.2⟩

theorem bufferSize_lt {bufSize : Int} (hint : bufSize < bufferLimit) : bufferSize bufSize < bufferLimit := by
  rw [bufferSize]
  simp only [bufferLimit] at hint ⊢
  split <;> omega

/-- **`log_entries` returns exactly the requested slice** of every store built by appends
and compactions, if and only if it does not have to end below the entries in memory. -/
theorem log_entries_slice_iff {bufSize : Int} (ops : List StoreOp) (hpos : 1 ≤ bufferSize bufSize)
    (hint : bufSize < bufferLimit) (hops : EveryStep Grows {} (bufferSize bufSize) ops) :
    ∃ s, (FsLogStore.openOn {} bufSize).bind (·.run ops) = some s ∧ ∀ start stop, s.startIdx ≤ start →
      (Sliced (({} : LogStore).run ops) start stop (logEntries start stop ⟨s, fun _ => false⟩).res ↔
        (start < stop → start < s.nextSlot → s.buf.startIdx ≤ stop)) := by
  obtain ⟨s, hrun, -⟩ := fs_log_store_refines ops hpos (hops.mono fun _ _ _ => Grows.unwritten)
  obtain ⟨s₀, hopen, hbuilt⟩ := Built.fresh (bufferSize_lt hint)
  refine ⟨s, hrun, fun start stop hge => ?_⟩
  rw [hopen, Option.bind_some] at hrun
  exact (hbuilt.run hops hrun).sliced_iff (o := ⟨s, fun _ => false⟩) (good_mk s) hpos hge

/-- Two of three entries in memory. -/
theorem log_entries_slice_iff_three :
    let ops : List StoreOp := [.append ⟨1, [5], .appLog⟩, .append ⟨1, [], .conf⟩, .append ⟨2, [6, 7], .appLog⟩,
      .append ⟨2, [8], .appLog⟩, .compact 1]
    ∃ s, (FsLogStore.openOn {} 2).bind (·.run ops) = some s ∧ ∀ start stop, s.startIdx ≤ start →
      (Sliced (({} : LogStore).run ops) start stop (logEntries start stop ⟨s, fun _ => false⟩).res ↔
        (start < stop → start < s.nextSlot → s.buf.startIdx ≤ stop)) :=
  @log_entries_slice_iff 2 _ (by decide) (by decide) (by decide)

/-- With the last of three entries in memory, the first one by itself goes outside of the
vector. -/
theorem log_entries_slice_fails :
    let ops : List StoreOp := [.append ⟨1, [5], .appLog⟩, .append ⟨1, [], .conf⟩, .append ⟨2, [6, 7], .appLog⟩]
    ∃ s, (FsLogStore.openOn {} 1).bind (·.run ops) = some s ∧ s.startIdx ≤ 1 ∧
      ¬ Sliced (({} : LogStore).run ops) 1 2 (logEntries 1 2 ⟨s, fun _ => false⟩).res := by
  refine ⟨_, rfl, by decide, fun hsliced => ?_⟩
  have hout : ∀ r, Sliced (({} : LogStore).run [.append ⟨1, [5], .appLog⟩, .append ⟨1, [], .conf⟩,
      .append ⟨2, [6, 7], .appLog⟩]) 1 2 r → r ≠ .error .outOfBounds := by
    rintro r hr rfl
    obtain ⟨v, hv, -⟩ := hr
    cases hv
  exact hout _ hsliced rfl

end Cornerstone
