import Cornerstone.PackImage

/-! # Packs of a log

The pack a log makes up of its entries is the one a store that holds the log takes out of
its files; unpacked, it is the entries.
-/

namespace Cornerstone
open LittleEndian OffsetFile

namespace LogStore
variable {l : LogStore} {es : List LogEntry}

theorem offsets_eq (base : Nat) (es : List LogEntry) :
    offsets base es = OffsetFile.offsets base (es.map LogEntry.serialize) := by
  induction es generalizing base with
  | nil => rfl
  | cons e es ih => rw [offsets, ih, List.map_cons, OffsetFile.offsets]

/-- The entries from an index on, at most `n` of them, packed. -/
theorem pack_run {k n : Nat} (hk : k < l.entries.length) (hlen : l.entries.length ≤ bufferLimit)
    (hn : n < bufferLimit) :
    l.pack (l.startIdx + k) n =
      some (packOf ((l.entries.map LogEntry.serialize).take k).flatten.length
        (((l.entries.map LogEntry.serialize).drop k).take n)) := by
  have hlimit : 2 * bufferLimit < ulongSize := by decide
  have hcnt : ulongOfInt n = n := ulongOfInt_natCast (by omega)
  have hin : ¬ (l.startIdx + k < l.startIdx ∨ l.nextSlot ≤ l.startIdx + k) := by
    rw [nextSlot]
    omega
  have hbase : ((l.entries.take k).map (·.serialize.length)).sum =
      ((l.entries.map LogEntry.serialize).take k).flatten.length := by
    rw [List.length_flatten, ← List.map_take, List.map_map]
    rfl
  have hpacked : (l.entries.take (min (k + n) l.entries.length)).drop k = (l.entries.drop k).take n := by
    rw [← List.take_eq_take_min, List.drop_take, Nat.add_sub_cancel_left]
  have hdata : ((l.entries.drop k).take n).flatMap LogEntry.serialize =
      (((l.entries.map LogEntry.serialize).drop k).take n).flatten := by
    rw [List.flatMap_def, List.map_take, List.map_drop]
  rw [pack, if_neg hin]
  dsimp only
  rw [Nat.add_sub_cancel_left, hcnt, Nat.mod_eq_of_lt (by omega), hpacked, hbase, offsets_eq, hdata,
    List.map_take, List.map_drop]
  rfl

/-- The data part, cut at the offsets of the index part. -/
theorem cutEntries_run {segs : List Bytes} (h : Decodes segs es) (pos : Nat) :
    cutEntries (OffsetFile.offsets pos segs) segs.flatten = some es := by
  induction segs generalizing es pos with
  | nil =>
    cases es with
    | nil => rfl
    | cons e es => exact absurd h.length (by simp)
  | cons seg segs ih =>
    obtain ⟨e, es', rfl, hd, hrest⟩ := h.exists_cons
    cases segs with
    | nil =>
      have hnil : es' = [] := List.eq_nil_of_length_eq_zero hrest.length.symm
      rw [OffsetFile.offsets, OffsetFile.offsets, cutEntries, List.flatten_singleton, hd, hnil]
      rfl
    | cons seg' segs =>
      have hcut := ih hrest (pos + seg.length)
      rw [OffsetFile.offsets] at hcut
      rw [OffsetFile.offsets, OffsetFile.offsets, cutEntries, Nat.add_sub_cancel_left, List.flatten_cons,
        List.take_left, List.drop_left, hd, hcut]
      rfl

/-- **Unpacking** gives the entries that were packed. -/
theorem unpack_packOf {segs : List Bytes} {pos : Nat} (h : Decodes segs es)
    (hidx : 8 * segs.length < bufferLimit) (hdata : segs.flatten.length < bufferLimit)
    (hpos : pos + segs.flatten.length < ulongSize) : unpack (packOf pos segs) = some es := by
  have hidxLen : (encode (OffsetFile.offsets pos segs)).length = 8 * segs.length := by
    rw [encode_length, offsets_length]
  have hidxInt := bmod_of_lt (hidxLen ▸ hidx : (encode (OffsetFile.offsets pos segs)).length < bufferLimit)
  have hoffs := readOffsets_encode (OffsetFile.offsets pos segs) fun o ho => by
    have := offsets_le ho
    omega
  have hdataRead := readBytes_append segs.flatten []
  rw [List.append_nil] at hdataRead
  rw [offsets_length] at hoffs
  rw [unpack, packOf, getInt_putInt hidxInt]
  simp only [Option.bind_eq_bind, Option.bind_some, getInt_putInt (bmod_of_lt hdata), Int.toNat_natCast,
    readBytes_append, hdataRead]
  rw [hidxLen, Nat.mul_div_cancel_left _ (by omega : 0 < 8), hoffs, Option.bind_some]
  exact cutEntries_run h pos

theorem applyPack_run {segs : List Bytes} {pos idx : Nat} (h : Decodes segs es)
    (hidx : 8 * segs.length < bufferLimit) (hdata : segs.flatten.length < bufferLimit)
    (hpos : pos + segs.flatten.length < ulongSize) (hat : l.startIdx ≤ idx ∧ idx ≤ l.nextSlot) :
    l.applyPack idx (packOf pos segs) =
      some { l with entries := l.entries.take (idx - l.startIdx) ++ es } := by
  rw [applyPack, unpack_packOf h hidx hdata hpos]
  simp only [Option.bind_eq_bind, Option.bind_some]
  rw [if_neg (by omega)]

end LogStore

/-- **A store that holds the log** makes up the same packs as the log. -/
theorem HoldsLog.pack_eq {s : FsLogStore} {l : LogStore} {size k n : Nat} (h : HoldsLog s l size)
    (hk : k < l.entries.length) (hpos : 1 ≤ n) (hn : n < bufferLimit)
    (hfit : 8 + 8 * (((l.entries.map LogEntry.serialize).drop k).take n).length +
      (((l.entries.map LogEntry.serialize).drop k).take n).flatten.length < bufferLimit) :
    s.pack (l.startIdx + k) n = l.pack (l.startIdx + k) n := by
  have hcount := h.laid.count
  rw [List.length_map] at hcount
  rw [LogStore.pack_run hk hcount hn, ← h.startIdx]
  exact h.laid.pack (by rwa [List.length_map]) hpos hn hfit

end Cornerstone
