import Cornerstone.FsLogStore

/-! # What the files of a store hold

A store whose files are laid out holds segments of bytes, one for each entry, with the
offset of each in the index file.  In a store nothing has gone wrong with, the segments
are the encodings of the entries; a segment with bytes behind the encoding decodes too,
to an entry with those bytes at the end of its payload.
-/

namespace Cornerstone
open LittleEndian OffsetFile

/-! ## Entries and their encodings -/

/-- An entry that the store can write: the field values are those of their C++ types, and
`buffer::alloc` does not refuse the encoding. -/
structure LogEntry.Storable (e : LogEntry) : Prop where
  term : e.term < ulongSize
  valType : LogValType.ofByte e.valType.toByte = e.valType
  size : 8 + 1 + e.buf.length < bufferLimit

instance (e : LogEntry) : Decidable e.Storable :=
  decidable_of_iff (e.term < ulongSize ∧ LogValType.ofByte e.valType.toByte = e.valType ∧
    8 + 1 + e.buf.length < bufferLimit) ⟨fun h => ⟨h.1, h.2.1, h.2.2⟩, fun h => ⟨h.1, h.2, h.3⟩⟩

namespace LogEntry
variable {e : LogEntry}

theorem serialize_length (e : LogEntry) : e.serialize.length = 8 + 1 + e.buf.length := by
  rw [serialize, List.length_append, leBytes_length, List.length_cons]
  omega

theorem encode?_eq (h : e.Storable) : e.encode? = some e.serialize := if_pos h.size

/-- Bytes behind the encoding of an entry end up in its payload. -/
theorem deserialize_append (h : e.Storable) (stale : Bytes) :
    deserialize (e.serialize ++ stale) = some { e with buf := e.buf ++ stale } := by
  have ht : e.term < 256 ^ 8 := lt_of_lt_of_eq h.term ulongSize_eq
  have hs : e.serialize ++ stale = leBytes 8 e.term ++ e.valType.toByte :: (e.buf ++ stale) := by
    rw [serialize, List.append_assoc, List.cons_append]
  rw [hs, deserialize, readLE_leBytes 8 _ ht]
  simp only [Option.bind_eq_bind, Option.bind_some, h.valType]

theorem deserialize_serialize (h : e.Storable) : deserialize e.serialize = some e := by
  have hd := deserialize_append h []
  rwa [List.append_nil, List.append_nil] at hd

end LogEntry

/-- What segments decode to. -/
def Decodes (segs : List Bytes) (es : List LogEntry) : Prop :=
  segs.map LogEntry.deserialize = es.map some

namespace Decodes
variable {segs : List Bytes} {es : List LogEntry}

theorem length (h : Decodes segs es) : segs.length = es.length := by
  simpa using congrArg List.length h

theorem drop (h : Decodes segs es) (k : Nat) : Decodes (segs.drop k) (es.drop k) := by
  unfold Decodes at *
  rw [List.map_drop, h, List.map_drop]

theorem take (h : Decodes segs es) (k : Nat) : Decodes (segs.take k) (es.take k) := by
  unfold Decodes at *
  rw [List.map_take, h, List.map_take]

theorem unique {es' : List LogEntry} (h : Decodes segs es) (h' : Decodes segs es') : es = es' :=
  (List.map_inj_right fun _ _ => Option.some.inj).mp (h.symm.trans h')

theorem append {segs' : List Bytes} {es' : List LogEntry} (h : Decodes segs es) (h' : Decodes segs' es') :
    Decodes (segs ++ segs') (es ++ es') := by
  unfold Decodes at *
  rw [List.map_append, h, h', List.map_append]

theorem cons_iff {seg : Bytes} {e : LogEntry} :
    Decodes (seg :: segs) (e :: es) ↔ LogEntry.deserialize seg = some e ∧ Decodes segs es := by
  simp [Decodes]

theorem exists_cons {seg : Bytes} (h : Decodes (seg :: segs) es) :
    ∃ e es', es = e :: es' ∧ LogEntry.deserialize seg = some e ∧ Decodes segs es' := by
  cases es with
  | nil => exact absurd h.length (by simp)
  | cons e es' => exact ⟨e, es', rfl, cons_iff.mp h⟩

theorem exists_of_mem {seg : Bytes} (h : Decodes segs es) (hseg : seg ∈ segs) :
    ∃ e, e ∈ es ∧ LogEntry.deserialize seg = some e := by
  have hmem := List.mem_map_of_mem (f := LogEntry.deserialize) hseg
  rw [h] at hmem
  obtain ⟨e, he, hd⟩ := List.mem_map.mp hmem
  exact ⟨e, he, hd.symm⟩

theorem serialize (h : ∀ e ∈ es, e.Storable) : Decodes (es.map LogEntry.serialize) es := by
  unfold Decodes
  rw [List.map_map]
  exact List.map_congr_left fun e he => LogEntry.deserialize_serialize (h e he)

end Decodes

/-! ## Reading the files -/

/-- The words of an index file are read back. -/
theorem readOffsets_encode (os : List Nat) (h : ∀ o ∈ os, o < ulongSize) :
    LogStore.readOffsets os.length (encode os) = some os := by
  induction os with
  | nil => rfl
  | cons o os ih =>
    have ho : o < 256 ^ 8 := lt_of_lt_of_eq (h o List.mem_cons_self) ulongSize_eq
    have hs : encode (o :: os) = leBytes 8 o ++ encode os := rfl
    rw [hs, List.length_cons, LogStore.readOffsets, readLE_leBytes 8 o ho]
    simp [ih fun o' ho' => h o' (List.mem_cons_of_mem _ ho')]

theorem readOffsets_all (os : List Nat) (h : ∀ o ∈ os, o < ulongSize) :
    LogStore.readOffsets (((encode os).length + 7) / 8) (encode os) = some os := by
  rw [encode_length, show (8 * os.length + 7) / 8 = os.length from by omega]
  exact readOffsets_encode os h

/-- A segment that fits a buffer is read as a whole. -/
theorem readBlock_segment {xs ys : List Bytes} {y : Bytes} (hy : y.length < bufferLimit) :
    readBlock (xs ++ y :: ys).flatten xs.flatten.length (xs.flatten.length + y.length) = some y := by
  rw [readBlock, if_neg (by omega), Nat.add_sub_cancel_left]
  exact readAt_segment xs y ys

/-- The loop of `fill_buffer` decodes the segments it is given. -/
theorem fillEntries_segments {ys : List Bytes} {es : List LogEntry} {y : Bytes} {e : LogEntry}
    {xs : List Bytes} (h : Decodes (y :: ys) (e :: es))
    (hsmall : ∀ seg ∈ y :: ys, seg.length < bufferLimit) :
    fillEntries (xs ++ y :: ys).flatten xs.flatten.length
      (offsets (xs.flatten.length + y.length) ys) = some (e :: es) := by
  induction ys generalizing y e xs es with
  | nil =>
    obtain ⟨hd, hnil⟩ := Decodes.cons_iff.mp h
    obtain rfl : es = [] := List.length_eq_zero_iff.mp hnil.length.symm
    have hlen : (xs ++ [y]).flatten.length = xs.flatten.length + y.length := by simp
    have hread := @readBlock_segment xs [] y (hsmall y List.mem_cons_self)
    rw [offsets, fillEntries, hlen, hread]
    simp [hd]
  | cons y' ys ih =>
    obtain ⟨hd, hrest⟩ := Decodes.cons_iff.mp h
    obtain ⟨e', es', rfl, -⟩ := hrest.exists_cons
    have hread := @readBlock_segment xs (y' :: ys) y (hsmall y List.mem_cons_self)
    have hnext := @ih es' y' e' (xs ++ [y]) hrest fun seg hseg => hsmall seg (List.mem_cons_of_mem _ hseg)
    have hxs : (xs ++ [y]).flatten.length = xs.flatten.length + y.length := by simp
    have hsegs : (xs ++ [y]) ++ y' :: ys = xs ++ y :: y' :: ys := by simp
    rw [hxs, hsegs] at hnext
    rw [offsets, fillEntries, hread]
    simp only [Option.bind_eq_bind, Option.bind_some, hd, hnext]
    rfl

/-! ## The image of a store -/

/-- The files of a store hold these segments, and its counts agree with them.  The last
two fields bound the counters of the code: an index and an offset is a `ulong`. -/
structure Image (s : FsLogStore) (segs : List Bytes) : Prop where
  idx : s.files.idx = encode (offsets 0 segs)
  data : s.files.data = segs.flatten
  start : s.files.startIdx = leBytes 8 s.startIdx
  entries : s.entriesInStore = segs.length
  pos : 1 ≤ s.startIdx
  small : ∀ seg ∈ segs, seg.length < bufferLimit
  next : s.startIdx + segs.length < ulongSize
  size : segs.flatten.length < ulongSize

/-- The entries in memory are the last ones of the store, at most `buf_size_` of them and
at least the last one. -/
structure Window (s : FsLogStore) (es : List LogEntry) : Prop where
  maxSize : s.buf.maxSize = s.bufSize
  pos : 1 ≤ s.bufSize
  ge : s.startIdx ≤ s.buf.startIdx
  lt : es ≠ [] → s.buf.startIdx < s.startIdx + es.length
  last : s.buf.startIdx + s.buf.buf.length = s.startIdx + es.length
  buf : s.buf.buf = es.drop (s.buf.startIdx - s.startIdx)
  bound : s.buf.buf.length ≤ s.bufSize

namespace LogStoreBuffer

theorem appendAll_of_le {es : List LogEntry} {b : LogStoreBuffer} (h : b.buf.length + es.length ≤ b.maxSize) :
    b.appendAll es = { b with buf := b.buf ++ es } := by
  induction es generalizing b with
  | nil => simp [appendAll]
  | cons e es ih =>
    rw [List.length_cons] at h
    have happ : b.append e = { b with buf := b.buf ++ [e] } := by
      rw [append]
      exact if_neg (by rw [List.length_append, List.length_singleton]; omega)
    have hrest := ih (b := { b with buf := b.buf ++ [e] }) (by
      simp only [List.length_append, List.length_singleton]
      omega)
    rw [appendAll, List.foldl_cons, happ, ← appendAll, hrest, List.append_assoc, List.singleton_append]

end LogStoreBuffer

namespace Image
variable {s : FsLogStore} {segs : List Bytes} {es : List LogEntry}

theorem offset_lt (h : Image s segs) {o : Nat} (ho : o ∈ offsets 0 segs) : o < ulongSize := by
  have hle := offsets_le ho
  have hsize := h.size
  omega

theorem idx_length (h : Image s segs) : s.files.idx.length = 8 * segs.length := by
  rw [h.idx, encode_length, offsets_length]

theorem nextSlot_eq (h : Image s segs) : s.nextSlot = s.startIdx + segs.length := by
  rw [FsLogStore.nextSlot, h.entries, Nat.mod_eq_of_lt h.next]

theorem windowStart_eq (h : Image s segs) :
    s.windowStart = s.startIdx + (segs.length - s.bufSize) := by
  have hnext := h.next
  rw [FsLogStore.windowStart, h.entries]
  split
  · rw [Nat.mod_eq_of_lt] <;> omega
  · omega

/-- The offset of an entry, as the index file has it. -/
theorem readWord_offset (h : Image s segs) {xs ys : List Bytes} {y : Bytes} (hs : segs = xs ++ y :: ys) :
    readWord s.files.idx (8 * xs.length) = some xs.flatten.length := by
  have hget := offsets_get 0 xs y ys
  rw [← hs, Nat.zero_add] at hget
  rw [h.idx]
  refine readWord_encode hget (lt_of_lt_of_eq (h.offset_lt ?_) ulongSize_eq)
  exact List.mem_of_getElem? hget

/-- **`fill_buffer`** takes the entries from the start of the buffer on into memory. -/
theorem fillBuffer_run (h : Image s segs) {k : Nat} (hstart : s.buf.startIdx = s.startIdx + k)
    (hk : segs ≠ [] → k < segs.length) (hfit : 8 * (segs.length - k) < bufferLimit)
    (hd : Decodes (segs.drop k) es) :
    s.fillBuffer = some { s with buf := s.buf.appendAll es } := by
  by_cases hne : segs = []
  · subst hne
    have hes : es = [] := List.length_eq_zero_iff.mp (by rw [← hd.length]; simp)
    rw [FsLogStore.fillBuffer, if_pos (by rw [h.idx_length]; rfl), hes]
    rfl
  · have hlt := hk hne
    obtain ⟨y, ys, hdrop⟩ : ∃ y ys, segs.drop k = y :: ys := ⟨_, _, List.drop_eq_getElem_cons hlt⟩
    obtain ⟨e, es', rfl, -⟩ := (hdrop ▸ hd).exists_cons
    have hsplit : segs = segs.take k ++ y :: ys := by
      rw [← hdrop, List.take_append_drop]
    have hpos : 8 * ulongSub s.buf.startIdx s.startIdx = 8 * k := by
      have hnext := h.next
      rw [hstart, ulongSub_of_le (by omega) (by omega), Nat.add_sub_cancel_left]
    have hoffs : (offsets 0 segs).drop k = offsets (segs.take k).flatten.length (y :: ys) := by
      conv_lhs => rw [hsplit, offsets_append, Nat.zero_add]
      exact List.drop_left' (by rw [offsets_length, List.length_take]; omega)
    have hblock : readBlock s.files.idx (8 * k) s.files.idx.length =
        some (encode (offsets (segs.take k).flatten.length (y :: ys))) := by
      rw [h.idx_length, readBlock, if_neg (by omega), readAt, if_pos (by rw [h.idx_length]; omega),
        h.idx, encode_drop, hoffs]
      refine congrArg some (List.take_of_length_le ?_)
      rw [encode_length, offsets_length, ← hdrop, List.length_drop]
      omega
    have hwords := readOffsets_all (offsets (segs.take k).flatten.length (y :: ys)) fun o ho =>
      h.offset_lt (List.mem_of_mem_drop (hoffs ▸ ho))
    have hentries := @fillEntries_segments ys es' y e (segs.take k) (hdrop ▸ hd) fun seg hseg =>
      h.small seg (hsplit ▸ List.mem_append_right _ hseg)
    rw [← hsplit] at hentries
    rw [FsLogStore.fillBuffer, if_neg (by rw [h.idx_length]; omega), hpos]
    simp only [offsets] at hblock hwords
    simp only [hblock, hwords, Option.bind_eq_bind, Option.bind_some, h.data, hentries]
    rfl

/-- **Emptying the buffer and filling it anew** makes it the window of the last entries. -/
theorem refill_run (h : Image s segs) (hd : Decodes segs es)
    (hfit : 8 * min segs.length s.bufSize < bufferLimit) (hpos : 1 ≤ s.bufSize)
    (hmax : s.buf.maxSize = s.bufSize) :
    ∃ s', s.refill = some s' ∧ s' = { s with buf := s'.buf } ∧ Window s' es := by
  set k := segs.length - s.bufSize with hk
  set t : FsLogStore := { s with buf := s.buf.reset s.windowStart } with ht
  have himg : Image t segs := ⟨h.idx, h.data, h.start, h.entries, h.pos, h.small, h.next, h.size⟩
  have hstart : t.buf.startIdx = t.startIdx + k := h.windowStart_eq
  have hrun := himg.fillBuffer_run hstart (fun hne => ?_) (by omega) (hd.drop k)
  · have hlen : (es.drop k).length = es.length - k := List.length_drop
    have hes := hd.length
    have happ : t.buf.appendAll (es.drop k) = { t.buf with buf := [] ++ es.drop k } :=
      LogStoreBuffer.appendAll_of_le (b := t.buf) (by
        change 0 + (es.drop k).length ≤ s.buf.maxSize
        omega)
    refine ⟨_, hrun, rfl, ?_⟩
    rw [happ]
    have hst : t.buf.startIdx = s.startIdx + k := hstart
    refine ⟨hmax, hpos, ?_, fun hne => ?_, ?_, ?_, ?_⟩
    · change s.startIdx ≤ t.buf.startIdx
      omega
    · change t.buf.startIdx < s.startIdx + es.length
      have := List.length_pos_iff.mpr hne
      omega
    · change t.buf.startIdx + (es.drop k).length = s.startIdx + es.length
      omega
    · change es.drop k = es.drop (t.buf.startIdx - s.startIdx)
      rw [hst, Nat.add_sub_cancel_left]
    · change (es.drop k).length ≤ s.bufSize
      omega
  · have := List.length_pos_iff.mpr hne
    omega

end Image

/-! ## Opening -/

/-- The buffer size a constructor argument stands for. -/
def bufferSize (bufSize : Int) : Nat := if bufSize < 0 then 0x7fffffff else bufSize.toNat

/-- A store that has just been opened, or emptied, in memory. -/
structure Opened (s : FsLogStore) (start size : Nat) (segs : List Bytes) (es : List LogEntry) : Prop where
  image : Image s segs
  window : Window s es
  startIdx : s.startIdx = start
  bufSize : s.bufSize = size

/-- **A folder without a store** is opened as an empty one. -/
theorem openOn_fresh {bufSize : Int} (hpos : 1 ≤ bufferSize bufSize) :
    ∃ s, FsLogStore.openOn {} bufSize = some s ∧ Opened s 1 (bufferSize bufSize) [] [] := by
  refine ⟨⟨⟨[], [], leBytes 8 1⟩, 0, 1, bufferSize bufSize, ⟨1, bufferSize bufSize, []⟩⟩, rfl, ?_, ?_, rfl, rfl⟩
  · exact ⟨rfl, rfl, rfl, rfl, le_rfl, by simp, (by decide : 1 + 0 < ulongSize), (by decide : 0 < ulongSize)⟩
  · exact ⟨rfl, hpos, le_rfl, fun h => absurd rfl h, rfl, rfl, Nat.zero_le _⟩

/-- **Reopening** a store finds the same segments. -/
theorem openOn_run {s : FsLogStore} {segs : List Bytes} {es : List LogEntry} (h : Image s segs)
    (hd : Decodes segs es) {bufSize : Int} (hpos : 1 ≤ bufferSize bufSize)
    (hfit : 8 * min segs.length (bufferSize bufSize) < bufferLimit) :
    ∃ s', FsLogStore.openOn s.files bufSize = some s' ∧
      Opened s' s.startIdx (bufferSize bufSize) segs es := by
  have hnext := h.next
  have hstart : readWord s.files.startIdx 0 = some s.startIdx := by
    have hword : s.files.startIdx = encode [s.startIdx] := by rw [h.start, encode_singleton]
    rw [hword]
    exact readWord_encode (k := 0) rfl (lt_of_lt_of_eq (by omega) ulongSize_eq)
  have hlen : 0 < s.files.startIdx.length := by
    rw [h.start, leBytes_length]
    decide
  have hcount : s.files.idx.length / 8 = segs.length := by
    rw [h.idx_length]
    omega
  set t : FsLogStore := ⟨s.files, segs.length, s.startIdx, bufferSize bufSize,
    ⟨s.startIdx, bufferSize bufSize, []⟩⟩ with ht
  have himg : Image t segs := ⟨h.idx, h.data, h.start, rfl, h.pos, h.small, h.next, h.size⟩
  obtain ⟨s', hrun, hs', hwin⟩ := himg.refill_run hd hfit hpos rfl
  refine ⟨s', ?_, ?_⟩
  · rw [FsLogStore.openOn, if_pos hlen, hstart, hcount]
    exact hrun
  · rw [hs'] at hwin ⊢
    exact ⟨⟨h.idx, h.data, h.start, rfl, h.pos, h.small, h.next, h.size⟩, hwin, rfl, rfl⟩

namespace Image
variable {s : FsLogStore} {segs : List Bytes} {es : List LogEntry} {e : LogEntry}

/-! ## Appending -/

/-- The store with an entry appended. -/
def appended (s : FsLogStore) (e : LogEntry) : FsLogStore :=
  { s with
    files := { s.files with
      idx := s.files.idx ++ leBytes 8 s.files.data.length
      data := s.files.data ++ e.serialize }
    buf := s.buf.append e
    entriesInStore := s.entriesInStore + 1 }

theorem append_run (h : Image s segs) (he : e.Storable)
    (hnext : s.startIdx + segs.length + 1 < ulongSize)
    (hsize : segs.flatten.length + e.serialize.length < ulongSize) :
    s.append e = some (appended s e) ∧ Image (appended s e) (segs ++ [e.serialize]) := by
  refine ⟨by rw [FsLogStore.append, LogEntry.encode?_eq he]; rfl, ⟨?_, ?_, h.start, ?_, h.pos, ?_, ?_, ?_⟩⟩
  · change s.files.idx ++ leBytes 8 s.files.data.length = _
    rw [offsets_append, encode_append, ← h.idx, h.data, Nat.zero_add]
    exact congrArg _ (encode_singleton _).symm
  · change s.files.data ++ e.serialize = _
    rw [h.data, List.flatten_append, List.flatten_singleton]
  · change s.entriesInStore + 1 = _
    rw [h.entries, List.length_append, List.length_singleton]
  · intro seg hseg
    rcases List.mem_append.mp hseg with hseg | hseg
    · exact h.small seg hseg
    · rw [List.mem_singleton.mp hseg, LogEntry.serialize_length]
      exact he.size
  · rw [List.length_append, List.length_singleton]
    exact hnext
  · rw [List.flatten_append, List.flatten_singleton, List.length_append]
    exact hsize

/-! ## Writing over entries -/

/-- The bytes that stay behind segments written from the `k`th on: none if the files are
truncated there, else what the new segments do not cover. -/
def stale (segs : List Bytes) (k : Nat) (segs' : List Bytes) : Bytes :=
  if k + segs'.length < segs.length then [] else (segs.drop k).flatten.drop segs'.flatten.length

/-- The segments with others written from the `k`th on. -/
def spliced (segs : List Bytes) (k : Nat) (segs' : List Bytes) : List Bytes :=
  segs.take k ++ padLast (stale segs k segs') segs'

theorem spliced_length {k : Nat} (hk : k ≤ segs.length) (segs' : List Bytes) :
    (spliced segs k segs').length = k + segs'.length := by
  rw [spliced, List.length_append, padLast_length, List.length_take_of_le hk]

/-- What a patch of the files that starts at a segment makes of them. -/
theorem patch_run (h : Image s segs) {k : Nat} (hk : k ≤ segs.length) (segs' : List Bytes) :
    LogFiles.patch s.files (8 * k) (segs.take k).flatten.length
        (encode (offsets (segs.take k).flatten.length segs')) segs'.flatten =
      { idx := encode (offsets 0 (spliced segs k segs'))
        data := (spliced segs k segs').flatten
        startIdx := s.files.startIdx } := by
  have hlen : (segs.take k).length = k := List.length_take_of_le hk
  set w := (segs.take k).flatten.length with hw
  have hdata : overwrite s.files.data w segs'.flatten =
      (segs.take k).flatten ++ (segs'.flatten ++ (segs.drop k).flatten.drop segs'.flatten.length) := by
    have hover := overwrite_segments (segs.take k) (segs.drop k) segs'.flatten
    rw [List.take_append_drop] at hover
    rw [h.data, hover]
  have hkeep : encode (offsets 0 (segs.take k)) ++ encode (offsets w segs') =
      encode (offsets 0 (spliced segs k segs')) := by
    rw [spliced, offsets_append, offsets_padLast, Nat.zero_add, encode_append]
  have hkept : (encode (offsets 0 (segs.take k)) ++ encode (offsets w segs')).length =
      8 * k + (encode (offsets w segs')).length := by
    rw [List.length_append, encode_length, offsets_length, hlen]
  obtain ⟨rest, hrest, hidx⟩ : ∃ rest : Bytes, rest.length = 8 * (segs.length - k - segs'.length) ∧
      overwrite s.files.idx (8 * k) (encode (offsets w segs')) =
        (encode (offsets 0 (segs.take k)) ++ encode (offsets w segs')) ++ rest := by
    have hsplit : s.files.idx = encode (offsets 0 (segs.take k)) ++ encode (offsets w (segs.drop k)) := by
      rw [h.idx, ← encode_append]
      conv_lhs => rw [← List.take_append_drop k segs, offsets_append, Nat.zero_add]
    have hpos : 8 * k = (encode (offsets 0 (segs.take k))).length := by
      rw [encode_length, offsets_length, hlen]
    refine ⟨(encode (offsets w (segs.drop k))).drop (encode (offsets w segs')).length, ?_, ?_⟩
    · simp only [List.length_drop, encode_length, offsets_length]
      omega
    · rw [hsplit, hpos, overwrite_append, List.append_assoc]
  rw [LogFiles.patch, hidx, hdata, List.length_append, hkept, hrest]
  by_cases hcut : k + segs'.length < segs.length
  · -- the files go on behind the new segments, and are truncated there
    have hstale : spliced segs k segs' = segs.take k ++ segs' := by
      rw [spliced, stale, if_pos hcut, padLast_nil]
    rw [if_pos (by omega), List.take_left' hkept, hkeep, hstale, ← List.append_assoc,
      List.take_left' (by rw [List.length_append]), List.flatten_append]
  · have hnil : rest = [] := List.length_eq_zero_iff.mp (by omega)
    have hstale : stale segs k segs' = (segs.drop k).flatten.drop segs'.flatten.length := if_neg hcut
    have hflat : (spliced segs k segs').flatten =
        (segs.take k).flatten ++ (segs'.flatten ++ stale segs k segs') := by
      rw [spliced, List.flatten_append, padLast_flatten fun hempty => ?_]
      rw [hempty, List.length_nil] at hcut
      rw [hstale, List.drop_eq_nil_of_le (by omega : segs.length ≤ k)]
      exact List.drop_nil
    rw [if_neg (by omega), hnil, List.append_nil, hkeep, hflat, hstale]

/-- The store with an entry written at an offset, where the files are laid out. -/
def rewritten (s : FsLogStore) (segs : List Bytes) (k : Nat) (e : LogEntry) : FsLogStore :=
  { s with
    files := {
      idx := encode (offsets 0 (spliced segs k [e.serialize]))
      data := (spliced segs k [e.serialize]).flatten
      startIdx := s.files.startIdx }
    buf := (if k < s.entriesInStore then s.buf.trim (s.startIdx + k) else s.buf).append e
    entriesInStore := k + 1 }

/-- Where the entry at an offset starts, or the next one would. -/
theorem dataPos_run (h : Image s segs) {k : Nat} (hk : k ≤ segs.length) :
    s.dataPos k = some (segs.take k).flatten.length := by
  rw [FsLogStore.dataPos, h.entries]
  rcases Nat.lt_or_ge k segs.length with hlt | hge
  · have hlen : (segs.take k).length = k := List.length_take_of_le hk
    have hsplit : segs = segs.take k ++ segs[k] :: segs.drop (k + 1) := by
      rw [← List.drop_eq_getElem_cons hlt, List.take_append_drop]
    have hword := h.readWord_offset hsplit
    rw [hlen] at hword
    rw [if_pos hlt, hword]
  · rw [if_neg (by omega), h.data, List.take_of_length_le hge]

theorem stale_length (segs : List Bytes) (k : Nat) (segs' : List Bytes) :
    (stale segs k segs').length ≤ (segs.drop k).flatten.length - segs'.flatten.length := by
  unfold stale
  split
  · exact Nat.zero_le _
  · exact (List.length_drop).le

/-- A segment with stale bytes is no longer than the longer of the two encodings. -/
theorem stale_small (h : Image s segs) {k : Nat} {bytes : Bytes} (hb : bytes.length < bufferLimit) :
    (bytes ++ stale segs k [bytes]).length < bufferLimit := by
  have hle := stale_length segs k [bytes]
  rw [List.flatten_singleton] at hle
  rw [List.length_append]
  rcases Nat.lt_or_ge (k + 1) segs.length with hlt | hge
  · rw [stale, List.length_singleton, if_pos hlt, List.length_nil]
    omega
  · rcases Nat.lt_or_ge k segs.length with hk | hk
    · have hone : segs.drop k = [segs[k]] := by
        rw [List.drop_eq_getElem_cons hk, List.drop_eq_nil_of_le (by omega)]
      have hseg := h.small segs[k] (List.getElem_mem hk)
      rw [hone, List.flatten_singleton] at hle
      omega
    · rw [List.drop_eq_nil_of_le hk, List.flatten_nil, List.length_nil] at hle
      omega

theorem spliced_size {k : Nat} {segs' : List Bytes}
    (hsize : (segs.take k).flatten.length + max segs'.flatten.length (segs.drop k).flatten.length < ulongSize) :
    (spliced segs k segs').flatten.length < ulongSize := by
  have hle := stale_length segs k segs'
  by_cases hne : segs' = []
  · subst hne
    rw [spliced, padLast, List.append_nil]
    omega
  · rw [spliced, List.flatten_append, padLast_flatten fun hnil => absurd hnil hne, List.length_append,
      List.length_append]
    omega

/-- **`write_at`** keeps the segments below the index and makes the new encoding the last
one, with the stale bytes behind it. -/
theorem writeAt_run (h : Image s segs) (he : e.Storable) {k : Nat} (hk : k ≤ segs.length)
    (hnext : s.startIdx + k + 1 < ulongSize)
    (hsize : (segs.take k).flatten.length + max e.serialize.length (segs.drop k).flatten.length < ulongSize) :
    s.writeAt (s.startIdx + k) e = some (rewritten s segs k e) ∧
      Image (rewritten s segs k e) (spliced segs k [e.serialize]) := by
  have hlen : (segs.take k).length = k := List.length_take_of_le hk
  have hsub : s.startIdx + k - s.startIdx = k := Nat.add_sub_cancel_left _ _
  have hin : ¬ (s.startIdx + k < s.startIdx ∨ s.startIdx + k > s.nextSlot) := by
    rw [h.nextSlot_eq]
    omega
  have hpatch := h.patch_run hk [e.serialize]
  rw [offsets, offsets, encode_singleton, List.flatten_singleton] at hpatch
  refine ⟨?_, rfl, rfl, h.start, ?_, h.pos, ?_, ?_, ?_⟩
  · simp only [FsLogStore.writeAt, if_neg hin, hsub, h.dataPos_run hk, LogEntry.encode?_eq he,
      hpatch, Option.bind_eq_bind, Option.bind_some]
    rfl
  · rw [spliced_length hk]
    rfl
  · intro seg hseg
    rcases List.mem_append.mp hseg with hseg | hseg
    · exact h.small seg (List.mem_of_mem_take hseg)
    · rw [List.mem_singleton.mp hseg]
      exact h.stale_small (e.serialize_length ▸ he.size)
  · change s.startIdx + _ < ulongSize
    rw [spliced_length hk]
    exact hnext
  · exact spliced_size (by rwa [List.flatten_singleton])

/-! ## Compaction -/

/-- The store after everything has been compacted. -/
def emptied (s : FsLogStore) (last : Nat) : FsLogStore :=
  { s with
    files := ⟨[], [], leBytes 8 (last + 1)⟩
    startIdx := last + 1
    entriesInStore := 0
    buf := s.buf.reset (last + 1) }

/-- The file of the start index is written anew. -/
theorem overwrite_start (h : Image s segs) (next : Nat) :
    overwrite s.files.startIdx 0 (leBytes 8 next) = leBytes 8 next := by
  have hover := overwrite_append [] (leBytes 8 s.startIdx) (leBytes 8 next)
  rw [h.start]
  simpa [List.drop_eq_nil_of_le] using hover

theorem last_eq (h : Image s segs) : ulongSub s.nextSlot 1 = s.startIdx + segs.length - 1 := by
  have hpos := h.pos
  have hnext := h.next
  rw [h.nextSlot_eq, ulongSub_of_le (by omega) hnext]

/-- **`compact`** of the whole store. -/
theorem compact_all (h : Image s segs) {last : Nat} (hge : s.startIdx ≤ last)
    (hall : s.startIdx + segs.length ≤ last + 1) (hlast : last + 1 < ulongSize) :
    s.compact last = some (emptied s last) ∧ Image (emptied s last) [] := by
  refine ⟨?_, rfl, rfl, rfl, rfl, Nat.succ_pos _, by simp, hlast, by simp [ulongSize]⟩
  have hcmp : last ≥ ulongSub s.nextSlot 1 := by
    rw [h.last_eq]
    omega
  rw [FsLogStore.compact, if_neg (Nat.not_lt.mpr hge), if_pos hcmp, Nat.mod_eq_of_lt hlast,
    h.overwrite_start]
  rfl

/-- The store behind its first segments, before its buffer is filled anew. -/
def remainder (s : FsLogStore) (segs : List Bytes) (k : Nat) : FsLogStore :=
  { s with
    files := ⟨encode (offsets 0 (segs.drop k)), (segs.drop k).flatten, leBytes 8 (s.startIdx + k)⟩
    startIdx := s.startIdx + k
    entriesInStore := segs.length - k }

/-- **`compact`** of a part of the store drops the segments of the entries it covers. -/
theorem compact_refill (h : Image s segs) {k : Nat} (hk : 1 ≤ k) (hpart : k < segs.length) :
    s.compact (s.startIdx + k - 1) = (remainder s segs k).refill ∧ Image (remainder s segs k) (segs.drop k) := by
  have hnext := h.next
  have hlen : (segs.take k).length = k := List.length_take_of_le hpart.le
  set d := (segs.take k).flatten.length with hdpos
  have hsplit : segs = segs.take k ++ segs[k] :: segs.drop (k + 1) := by
    rw [← List.drop_eq_getElem_cons hpart, List.take_append_drop]
  have hword : readWord s.files.idx (8 * k) = some d := by
    have hw := h.readWord_offset hsplit
    rwa [hlen] at hw
  have hoffs : (offsets 0 segs).drop k = offsets d (segs.drop k) := by
    conv_lhs => rw [← List.take_append_drop k segs, offsets_append, Nat.zero_add]
    exact List.drop_left' (by rw [offsets_length, hlen])
  have hwords : LogStore.readOffsets ((8 * segs.length - 8 * k) / 8) (s.files.idx.drop (8 * k)) =
      some (offsets d (segs.drop k)) := by
    have hread := readOffsets_encode (offsets d (segs.drop k)) fun o ho =>
      h.offset_lt (List.mem_of_mem_drop (hoffs ▸ ho))
    rw [offsets_length, List.length_drop] at hread
    rw [h.idx, encode_drop, hoffs, show (8 * segs.length - 8 * k) / 8 = segs.length - k from by omega, hread]
  -- the offsets lose what stood in front of them
  have hshift : (offsets d (segs.drop k)).map (ulongSub · d) = offsets 0 (segs.drop k) := by
    have hbase := offsets_shift 0 d (segs.drop k)
    rw [Nat.zero_add] at hbase
    rw [hbase, List.map_map]
    refine (List.map_congr_left fun o ho => ?_).trans (List.map_id _)
    have hlt : o + d < ulongSize := by
      refine h.offset_lt (List.mem_of_mem_drop (i := k) ?_)
      rw [hoffs, hbase]
      exact List.mem_map_of_mem ho
    simp only [Function.comp_apply, id_eq]
    rw [ulongSub_of_le (Nat.le_add_left _ _) hlt, Nat.add_sub_cancel]
  have hidx : (overwrite s.files.idx 0 (encode (offsets 0 (segs.drop k)))).take
      (8 * segs.length - 8 * k) = encode (offsets 0 (segs.drop k)) := by
    have hover := overwrite_append [] s.files.idx (encode (offsets 0 (segs.drop k)))
    rw [List.nil_append, List.length_nil, List.nil_append] at hover
    rw [hover]
    refine List.take_left' ?_
    rw [encode_length, offsets_length, List.length_drop]
    omega
  have hdata : s.files.data.drop d = (segs.drop k).flatten := by
    rw [h.data]
    conv_lhs => rw [← List.take_append_drop k segs, List.flatten_append]
    exact List.drop_left
  have hd_le : d ≤ s.files.data.length := by
    rw [h.data]
    conv_rhs => rw [← List.take_append_drop k segs, List.flatten_append, List.length_append]
    exact Nat.le_add_right _ _
  constructor
  · have hsub : s.startIdx + k - 1 - s.startIdx + 1 = k := by omega
    have hmod : (s.startIdx + k - 1 + 1) % ulongSize = s.startIdx + k := by
      rw [Nat.mod_eq_of_lt] <;> omega
    have hcmp : ¬ s.startIdx + k - 1 ≥ ulongSub s.nextSlot 1 := by
      rw [h.last_eq]
      omega
    rw [FsLogStore.compact, if_neg (by omega), if_neg hcmp]
    simp only [hsub, hword, h.idx_length, hwords, hmod, h.overwrite_start, Option.bind_eq_bind,
      Option.bind_some, hshift, hidx, hdata, if_neg (Nat.not_lt.mpr hd_le), h.entries]
    rfl
  · refine ⟨rfl, rfl, rfl, (List.length_drop).symm, Nat.le_add_right_of_le h.pos,
      fun seg hseg => h.small seg (List.mem_of_mem_drop hseg), ?_, ?_⟩
    · change s.startIdx + k + _ < ulongSize
      rw [List.length_drop]
      omega
    · rw [← hdata, List.length_drop, h.data]
      have hsize := h.size
      omega

/-- The buffer of what remains is filled with its last entries. -/
theorem compact_run (h : Image s segs) (hd : Decodes segs es) {k : Nat} (hk : 1 ≤ k)
    (hpart : k < segs.length) (hpos : 1 ≤ s.bufSize) (hmax : s.buf.maxSize = s.bufSize)
    (hfit : 8 * min (segs.length - k) s.bufSize < bufferLimit) :
    ∃ s', s.compact (s.startIdx + k - 1) = some s' ∧
      Opened s' (s.startIdx + k) s.bufSize (segs.drop k) (es.drop k) := by
  obtain ⟨hrefill, himg⟩ := h.compact_refill hk hpart
  obtain ⟨s', hrun, hs', hwin⟩ := himg.refill_run (hd.drop k) (by rw [List.length_drop]; exact hfit) hpos hmax
  refine ⟨s', hrefill.trans hrun, ?_⟩
  rw [hs'] at hwin ⊢
  exact ⟨⟨rfl, rfl, rfl, himg.entries, himg.pos, himg.small, himg.next, himg.size⟩, hwin, rfl, rfl⟩

end Image
end Cornerstone
