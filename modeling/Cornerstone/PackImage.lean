import Cornerstone.StoredLog

/-! # Packs

`pack` copies segments and their offsets out of the files of a store, `apply_pack` writes
both into the files of another one, the offsets as they are.
-/

namespace Cornerstone
open LittleEndian OffsetFile

/-! ## The bytes of a pack -/

/-- The pack of segments that start at a position of a data file. -/
def packOf (pos : Nat) (segs : List Bytes) : Bytes :=
  putInt (encode (offsets pos segs)).length ++ (putInt segs.flatten.length ++
    (encode (offsets pos segs) ++ segs.flatten))

/-- A length that fits a buffer fits an `int32`. -/
theorem bmod_of_lt {n : Nat} (h : n < bufferLimit) : Int.bmod (n : Int) uintSize = n := int32OfUlong_of_lt h

namespace LogEntry

/-- Bytes behind a segment end up in the payload. -/
theorem deserialize_behind {seg : Bytes} {e : LogEntry} (h : deserialize seg = some e) (rest : Bytes) :
    deserialize (seg ++ rest) = some { e with buf := e.buf ++ rest } := by
  by_cases hshort : seg.length < 8
  · have hnone : readLE 8 seg = none := by rw [readLE, readBytes, if_pos hshort, Option.map_none]
    rw [deserialize, hnone] at h
    cases h
  · have hread : ∀ bs, readLE 8 (seg ++ bs) = some (leNat (seg.take 8), seg.drop 8 ++ bs) := fun bs => by
      have hle : 8 ≤ seg.length := Nat.not_lt.mp hshort
      rw [readLE, readBytes, if_neg (by rw [List.length_append]; omega), Option.map_some,
        List.take_append_of_le_length hle, List.drop_append_of_le_length hle]
    have hseg := hread []
    rw [List.append_nil, List.append_nil] at hseg
    rw [deserialize, hseg] at h
    rw [deserialize, hread rest]
    simp only [Option.bind_eq_bind, Option.bind_some] at h ⊢
    cases hdrop : seg.drop 8 with
    | nil =>
      rw [hdrop] at h
      cases h
    | cons t data =>
      rw [hdrop] at h
      cases h
      rfl

end LogEntry

namespace Decodes
variable {segs : List Bytes} {es : List LogEntry}

theorem exists_of_all (h : ∀ seg ∈ segs, ∃ e, LogEntry.deserialize seg = some e) : ∃ es, Decodes segs es := by
  induction segs with
  | nil => exact ⟨[], rfl⟩
  | cons seg segs ih =>
    obtain ⟨e, he⟩ := h seg List.mem_cons_self
    obtain ⟨es, hes⟩ := ih fun seg' hseg' => h seg' (List.mem_cons_of_mem _ hseg')
    exact ⟨e :: es, cons_iff.mpr ⟨he, hes⟩⟩

/-- Bytes behind the last segment do not keep it from being decoded. -/
theorem padLast (h : Decodes segs es) (rest : Bytes) : ∃ es', Decodes (padLast rest segs) es' := by
  fun_induction OffsetFile.padLast rest segs generalizing es with
  | case1 => exact ⟨[], rfl⟩
  | case2 seg =>
    refine exists_of_all fun seg' hseg' => ?_
    obtain ⟨e, es', -, hd, -⟩ := h.exists_cons
    rw [List.mem_singleton.mp hseg']
    exact ⟨_, LogEntry.deserialize_behind hd rest⟩
  | case3 seg seg' segs ih =>
    obtain ⟨e, es', -, hd, hrest⟩ := h.exists_cons
    obtain ⟨es'', hes''⟩ := ih hrest
    exact ⟨e :: es'', cons_iff.mpr ⟨hd, hes''⟩⟩

end Decodes

/-! ## Packing -/

/-- **`pack`** copies the segments from an offset on, as many as asked for or as there
are. -/
theorem Laid.pack {s : FsLogStore} {segs : List Bytes} {es : List LogEntry} {k n : Nat}
    (h : Laid s segs es) (hk : k < segs.length) (hpos : 1 ≤ n) (hn : n < bufferLimit)
    (hfit : 8 + 8 * ((segs.drop k).take n).length + ((segs.drop k).take n).flatten.length < bufferLimit) :
    s.pack (s.startIdx + k) n = some (packOf (segs.take k).flatten.length ((segs.drop k).take n)) := by
  set w := (segs.take k).flatten.length with hw
  set segs' := (segs.drop k).take n with hsegs'
  have hlen : segs'.length = min n (segs.length - k) := by rw [hsegs', List.length_take, List.length_drop]
  have hcount := h.count
  have hlimit : 2 * bufferLimit < ulongSize := by decide
  have hsplit : segs.flatten = (segs.take k).flatten ++ (segs'.flatten ++ ((segs.drop k).drop n).flatten) := by
    rw [← List.flatten_append, List.take_append_drop, ← List.flatten_append, List.take_append_drop]
  have hsize := h.image.size
  have htotal : w + segs'.flatten.length ≤ segs.flatten.length := by
    rw [hsplit, List.length_append, List.length_append]
    omega
  -- the range of entries
  have hcnt : ulongOfInt n = n := ulongOfInt_natCast (by omega)
  have hend : min ((k + n) % ulongSize) segs.length = k + segs'.length := by
    rw [Nat.mod_eq_of_lt (by omega), hlen]
    omega
  have hrange : ¬ (s.startIdx + k < s.startIdx ∨ segs.length ≤ k) := by omega
  -- the words of the index file
  have hwords : readBlock s.files.idx (8 * k) (8 * k + 8 * segs'.length) = some (encode (offsets w segs')) := by
    have hoffs : ((encode (offsets 0 segs)).drop (8 * k)).take (8 * segs'.length) = encode (offsets w segs') := by
      have htake : (segs.drop k).take segs'.length = segs' := by
        rw [hlen, hsegs', ← List.length_drop, ← List.take_eq_take_min]
      rw [encode_drop, encode_take, offsets_drop, Nat.zero_add, offsets_take, htake]
    rw [readBlock, if_neg (by omega), Nat.add_sub_cancel_left, readAt,
      if_pos (by rw [h.image.idx_length]; omega), h.image.idx, hoffs]
  have hfirst : readWord (encode (offsets w segs')) 0 = some w := by
    obtain ⟨seg, rest, hcons⟩ := List.exists_cons_of_length_pos (by omega : 0 < segs'.length)
    refine readWord_encode (k := 0) ?_ (by rw [← ulongSize_eq]; omega)
    rw [hcons, offsets]
    rfl
  have hstop : (if k + segs'.length = segs.length then some s.files.data.length
      else readWord s.files.idx (8 * k + 8 * segs'.length)) = some (w + segs'.flatten.length) := by
    split
    · rename_i hall
      have hrest : (segs.drop k).drop n = [] := List.drop_eq_nil_of_le (by rw [List.length_drop]; omega)
      rw [h.image.data, hsplit, hrest, List.flatten_nil, List.append_nil, List.length_append]
    · rename_i hpart
      have hlt : k + segs'.length < segs.length := by omega
      have hsplit' : segs = segs.take (k + segs'.length) ++ segs[k + segs'.length] ::
          segs.drop (k + segs'.length + 1) := by
        rw [← List.drop_eq_getElem_cons hlt, List.take_append_drop]
      have hword := h.image.readWord_offset hsplit'
      have hn' : segs'.length = n := by omega
      rw [List.length_take_of_le hlt.le, Nat.mul_add, List.take_add, hn', ← hsegs', List.flatten_append,
        List.length_append] at hword
      rw [hn']
      exact hword
  have hbytes : readSized s.files.data w (w + segs'.flatten.length) = some segs'.flatten := by
    rw [readSized_eq (by omega) (by omega), h.image.data, hsplit]
    exact readAt_append _ _ _
  have hidxLen : (encode (offsets w segs')).length = 8 * segs'.length := by rw [encode_length, offsets_length]
  have hk' : k < bufferLimit := by omega
  have hm : segs'.length < bufferLimit := by omega
  rw [FsLogStore.pack, Nat.add_sub_cancel_left, h.image.entries, if_neg hrange]
  dsimp only
  rw [hcnt, hend, Nat.add_sub_cancel_left, wordPos_eq hk', Option.bind_eq_bind, Option.bind_some,
    wordPos_eq hm, Option.bind_eq_bind, Option.bind_some, hwords, Option.bind_some]
  split at hstop
  · rename_i hall
    rw [if_pos hall, Option.some.inj hstop, Option.bind_some, hfirst, Option.bind_some, hbytes,
      Option.bind_some, hidxLen, if_pos hfit, packOf, hidxLen]
  · rename_i hpart
    rw [if_neg hpart, hstop, Option.bind_some, hfirst, Option.bind_some, hbytes, Option.bind_some, hidxLen,
      if_pos hfit, packOf, hidxLen]

/-! ## Applying a pack -/

/-- The bytes of the data file that stay behind segments written from a position on. -/
def FsLogStore.leftBehind (s : FsLogStore) (k pos : Nat) (segs : List Bytes) : Bytes :=
  if k + segs.length < s.entriesInStore then [] else s.files.data.drop (pos + segs.flatten.length)

/-- The segments of a pack that starts at a position are entries, and fit: the lengths in
front of the pack, what is written and what is read back. -/
structure PackFits (s : FsLogStore) (k pos : Nat) (segs : List Bytes) : Prop where
  decodes : ∀ seg ∈ segs, ∃ e, LogEntry.deserialize seg = some e
  idx : 8 * segs.length < bufferLimit
  data : segs.flatten.length < bufferLimit
  small : ∀ seg ∈ padLast (s.leftBehind k pos segs) segs, seg.length < bufferLimit
  next : s.startIdx + (k + segs.length) < ulongSize
  count : k + segs.length ≤ bufferLimit
  fit : 8 * min (k + segs.length) s.bufSize < bufferLimit

namespace Image
variable {s : FsLogStore} {segs segs' : List Bytes} {k : Nat}

theorem leftBehind_eq (h : Image s segs) (k : Nat) (segs' : List Bytes) :
    s.leftBehind k (segs.take k).flatten.length segs' = stale segs k segs' := by
  have hdrop : segs.flatten.drop ((segs.take k).flatten.length + segs'.flatten.length) =
      (segs.drop k).flatten.drop segs'.flatten.length := by
    rw [← List.drop_drop]
    conv_lhs => rw [← List.take_append_drop k segs, List.flatten_append, List.take_append_drop]
    rw [List.drop_left]
  rw [FsLogStore.leftBehind, stale, h.entries, h.data, hdrop]

/-- The store with segments written from an offset on, before the buffer is filled anew. -/
def transferred (s : FsLogStore) (segs : List Bytes) (k : Nat) (segs' : List Bytes) : FsLogStore :=
  { s with
    files := {
      idx := encode (offsets 0 (spliced segs k segs'))
      data := (spliced segs k segs').flatten
      startIdx := s.files.startIdx }
    entriesInStore := k + segs'.length }

/-- What `apply_pack` does to the files, for a pack that starts where it is written. -/
theorem applyPack_eq (h : Image s segs) (hk : k ≤ segs.length) (hidx : 8 * segs'.length < bufferLimit)
    (hdata : segs'.flatten.length < bufferLimit) (hwords : 8 * segs.length < ulongSize) :
    s.applyPack (s.startIdx + k) (packOf (segs.take k).flatten.length segs') =
      (transferred s segs k segs').refill := by
  set w := (segs.take k).flatten.length with hw
  have hnext := h.next
  have hsub : ulongSub (s.startIdx + k) s.startIdx = k := by
    rw [ulongSub_of_le (Nat.le_add_right _ _) (by omega), Nat.add_sub_cancel_left]
  have hidxLen : (encode (offsets w segs')).length = 8 * segs'.length := by
    rw [encode_length, offsets_length]
  have hidxInt := bmod_of_lt (hidxLen ▸ hidx : (encode (offsets w segs')).length < bufferLimit)
  have hdataInt := bmod_of_lt hdata
  have hidxRead := readBytes_append (encode (offsets w segs')) segs'.flatten
  have hdataRead := readBytes_append segs'.flatten []
  rw [List.append_nil] at hdataRead
  have hpatch := h.patch_run hk segs'
  rw [FsLogStore.applyPack, packOf, getInt_putInt hidxInt]
  simp only [Option.bind_eq_bind, Option.bind_some, getInt_putInt hdataInt, hsub, Int.toNat_natCast,
    hidxRead, hdataRead]
  rw [hidxLen, Nat.mul_div_cancel_left _ (by omega : 0 < 8)]
  split
  · rename_i hend
    have hall : w = s.files.data.length := by
      rw [hw, h.data, List.take_of_length_le (by rw [← h.entries, ← hend])]
    rw [h.idx_length, ← h.entries, ← hend, ← hall, hpatch]
    rfl
  · rename_i hlast
    rw [h.entries] at hlast
    have hlt : k < segs.length := by omega
    have hsplit : segs = segs.take k ++ segs[k] :: segs.drop (k + 1) := by
      rw [← List.drop_eq_getElem_cons hlt, List.take_append_drop]
    have hword := h.readWord_offset hsplit
    rw [List.length_take_of_le hk] at hword
    rw [Nat.mod_eq_of_lt (by omega), hword, Option.map_some, Option.bind_some, hpatch]
    rfl

end Image

/-- **`apply_pack`**, of a pack that starts where it is written: from the offset on the
segments are those of the pack, with what stays behind the last. -/
theorem Laid.applyPack {s : FsLogStore} {segs segs' : List Bytes} {es : List LogEntry} {k pos : Nat}
    (h : Laid s segs es) (hk : k ≤ segs.length) (hpos : s.dataPos k = some pos) (hf : PackFits s k pos segs') :
    ∃ s' es', s.applyPack (s.startIdx + k) (packOf pos segs') = some s' ∧
      Laid s' (Image.spliced segs k segs') es' ∧ Window s' es' ∧
      s'.startIdx = s.startIdx ∧ s'.bufSize = s.bufSize := by
  obtain rfl : (segs.take k).flatten.length = pos := by
    rw [h.image.dataPos_run hk] at hpos
    exact Option.some.inj hpos
  have hsmall := hf.small
  rw [h.image.leftBehind_eq] at hsmall
  have hlen := Image.spliced_length hk segs'
  have hcount : (Image.spliced segs k segs').length ≤ bufferLimit := hlen ▸ hf.count
  have hall : ∀ seg ∈ Image.spliced segs k segs', seg.length < bufferLimit := fun seg hseg => by
    rcases List.mem_append.mp hseg with hseg | hseg
    · exact h.image.small seg (List.mem_of_mem_take hseg)
    · exact hsmall seg hseg
  have hwords : 8 * segs.length < ulongSize := by
    have hc := h.count
    have hroom : 8 * bufferLimit < ulongSize := by decide
    omega
  have hsize := segments_size hall hcount
  have himg : Image (Image.transferred s segs k segs') (Image.spliced segs k segs') :=
    ⟨rfl, rfl, h.image.start, hlen.symm, h.image.pos, hall, hlen ▸ hf.next, by omega⟩
  obtain ⟨new, hnew⟩ := Decodes.exists_of_all hf.decodes
  obtain ⟨new', hnew'⟩ := hnew.padLast (Image.stale segs k segs')
  have hdec : Decodes (Image.spliced segs k segs') (es.take k ++ new') := (h.decodes.take k).append hnew'
  obtain ⟨s', hrun, hs', hwin⟩ := himg.refill_run hdec (by rw [hlen]; exact hf.fit) h.pos h.maxSize
  refine ⟨s', es.take k ++ new', ?_, ?_, hwin, ?_, ?_⟩
  · rw [h.image.applyPack_eq hk hf.idx hf.data hwords]
    exact hrun
  · rw [hs'] at hwin ⊢
    exact ⟨⟨himg.idx, himg.data, himg.start, himg.entries, himg.pos, himg.small, himg.next, himg.size⟩,
      hdec, hcount, hwin.maxSize, hwin.pos⟩
  · rw [hs']
    rfl
  · rw [hs']
    rfl

/-! ## From store to store -/

/-- The segments of a source from an offset on, as many as asked for, fit where they go: in
a pack, in the integers of the target and in what it reads back. -/
structure Laid.Room (T : FsLogStore) (j : Nat) (segs : List Bytes) : Prop where
  pack : 8 + 8 * segs.length + segs.flatten.length < bufferLimit
  next : T.startIdx + (j + segs.length) < ulongSize
  count : j + segs.length ≤ bufferLimit
  fit : 8 * min (j + segs.length) T.bufSize < bufferLimit

/-- **A pack taken from one store and applied to another**, where the offsets agree and
nothing of the target stays behind it. -/
theorem Laid.transfer {S T : FsLogStore} {Ss Ts : List Bytes} {Se Te : List LogEntry} {k j n : Nat}
    (hS : Laid S Ss Se) (hT : Laid T Ts Te) (hk : k < Ss.length) (hj : j ≤ Ts.length) (hn : 1 ≤ n)
    (hlim : n < bufferLimit) (halign : (Ts.take j).flatten.length = (Ss.take k).flatten.length)
    (hstale : Image.stale Ts j ((Ss.drop k).take n) = []) (hroom : Laid.Room T j ((Ss.drop k).take n)) :
    ∃ pack T', S.pack (S.startIdx + k) n = some pack ∧
      pack = packOf (Ss.take k).flatten.length ((Ss.drop k).take n) ∧
      T.applyPack (T.startIdx + j) pack = some T' ∧
      Laid T' (Ts.take j ++ (Ss.drop k).take n) (Te.take j ++ (Se.drop k).take n) ∧
      Window T' (Te.take j ++ (Se.drop k).take n) ∧ T'.startIdx = T.startIdx ∧ T'.bufSize = T.bufSize := by
  have hpack := hS.pack hk hn hlim hroom.pack
  have hpos : T.dataPos j = some (Ss.take k).flatten.length := by
    rw [hT.image.dataPos_run hj, halign]
  have hleft : T.leftBehind j (Ss.take k).flatten.length ((Ss.drop k).take n) = [] := by
    rw [← halign, hT.image.leftBehind_eq, hstale]
  have hfits : PackFits T j (Ss.take k).flatten.length ((Ss.drop k).take n) := by
    have hsize := hroom.pack
    refine ⟨fun seg hseg => ?_, by omega, by omega, ?_, hroom.next, hroom.count, hroom.fit⟩
    · obtain ⟨e, -, he⟩ := hS.decodes.exists_of_mem (List.mem_of_mem_drop (List.mem_of_mem_take hseg))
      exact ⟨e, he⟩
    · rw [hleft, padLast_nil]
      exact fun seg hseg => hS.image.small seg (List.mem_of_mem_drop (List.mem_of_mem_take hseg))
  obtain ⟨T', es, hrun, hlaid, hwin, hstart, hbuf⟩ := hT.applyPack hj hpos hfits
  have hdec := hlaid.decodes
  rw [Image.spliced, hstale, padLast_nil] at hlaid hdec
  obtain rfl := hdec.unique ((hT.decodes.take j).append ((hS.decodes.drop k).take n))
  exact ⟨_, T', hpack, rfl, hrun, hlaid, hwin, hstart, hbuf⟩

end Cornerstone
