import Cornerstone.LogWindow

/-! # A store and the log it is to hold

The log a store is to hold is the abstract one: `append` adds an entry, `write_at` makes
one the last, `compact` drops those up to an index.  Its files hold a segment for each
entry that starts with the encoding of the entry; behind an entry written over the last
one there may be bytes of the old one.
-/

namespace Cornerstone
open OffsetFile

/-! ## Operations -/

/-- The operations of a store on its own.  A reopening is a close followed by the
construction of a store on the same folder. -/
inductive StoreOp
  | append (e : LogEntry)
  | writeAt (index : Nat) (e : LogEntry)
  | compact (lastLogIndex : Nat)
  | reopen (bufSize : Int)
deriving DecidableEq, Repr

/-- What an operation does to the store. -/
def FsLogStore.perform (s : FsLogStore) : StoreOp → Option FsLogStore
  | .append e => s.append e
  | .writeAt index e => s.writeAt index e
  | .compact last => s.compact last
  | .reopen bufSize => FsLogStore.openOn s.files bufSize

/-- What it does to the log. -/
def LogStore.perform (l : LogStore) : StoreOp → LogStore
  | .append e => l.append e
  | .writeAt index e => l.writeAt index e
  | .compact last => l.compact last
  | .reopen _ => l

/-- The buffer size after an operation. -/
def StoreOp.sizeAfter (size : Nat) : StoreOp → Nat
  | .reopen bufSize => bufferSize bufSize
  | _ => size

def FsLogStore.run (s : FsLogStore) : List StoreOp → Option FsLogStore
  | [] => some s
  | op :: ops => (s.perform op).bind (·.run ops)

def LogStore.run (l : LogStore) : List StoreOp → LogStore
  | [] => l
  | op :: ops => (l.perform op).run ops

/-- The operation is called in its range, and what it works on fits the buffers and the
integers of the code: the encoding of an entry, the words of the index file the entries in
memory are filled from, an offset as an `int`, an index as a `ulong`. -/
def StoreOp.Fits (start count size : Nat) : StoreOp → Prop
  | .append e => e.Storable ∧ start + count + 1 < ulongSize ∧ count < bufferLimit
  | .writeAt index e => (start ≤ index ∧ index ≤ start + count) ∧ e.Storable ∧
      index + 1 < ulongSize ∧ index - start < bufferLimit
  | .compact last => start ≤ last ∧ last + 1 < ulongSize ∧
      8 * min (start + count - (last + 1)) size < bufferLimit
  | .reopen bufSize => 1 ≤ bufferSize bufSize ∧ 8 * min count (bufferSize bufSize) < bufferLimit

instance (start count size : Nat) : (op : StoreOp) → Decidable (op.Fits start count size)
  | .append _ => inferInstanceAs (Decidable (_ ∧ _ ∧ _))
  | .writeAt _ _ => inferInstanceAs (Decidable ((_ ∧ _) ∧ _ ∧ _ ∧ _))
  | .compact _ => inferInstanceAs (Decidable (_ ∧ _ ∧ _))
  | .reopen _ => inferInstanceAs (Decidable (_ ∧ _))

/-- The operation fits a store that holds the log. -/
abbrev LogStore.Fits (l : LogStore) (size : Nat) (op : StoreOp) : Prop :=
  op.Fits l.startIdx l.entries.length size

/-- The operation fits the store as it is. -/
abbrev FsLogStore.Fits (s : FsLogStore) (op : StoreOp) : Prop :=
  op.Fits s.startIdx s.entriesInStore s.bufSize

/-- A condition on the log, the size of the buffer and the operation, at every step of a
run. -/
def EveryStep (P : LogStore → Nat → StoreOp → Prop) (l : LogStore) (size : Nat) : List StoreOp → Prop
  | [] => True
  | op :: ops => P l size op ∧ EveryStep P (l.perform op) (op.sizeAfter size) ops

instance decidableEveryStep (P : LogStore → Nat → StoreOp → Prop) [∀ l size op, Decidable (P l size op)] :
    (l : LogStore) → (size : Nat) → (ops : List StoreOp) → Decidable (EveryStep P l size ops)
  | _, _, [] => .isTrue trivial
  | l, size, op :: ops =>
    haveI := decidableEveryStep P (l.perform op) (op.sizeAfter size) ops
    inferInstanceAs (Decidable (_ ∧ _))

/-! ## Stores laid out -/

/-- The files of the store hold segments that decode to these entries. -/
structure Laid (s : FsLogStore) (segs : List Bytes) (es : List LogEntry) : Prop where
  image : Image s segs
  decodes : Decodes segs es
  count : segs.length ≤ bufferLimit
  maxSize : s.buf.maxSize = s.bufSize
  pos : 1 ≤ s.bufSize

theorem flatten_length_le {segs : List Bytes} {n : Nat} (h : ∀ seg ∈ segs, seg.length ≤ n) :
    segs.flatten.length ≤ segs.length * n := by
  induction segs with
  | nil => simp
  | cons seg segs ih =>
    have hseg := h seg List.mem_cons_self
    have hrest := ih fun seg' hseg' => h seg' (List.mem_cons_of_mem _ hseg')
    rw [List.flatten_cons, List.length_append, List.length_cons, Nat.add_mul, Nat.one_mul]
    omega

/-- Few enough segments make a data file whose offsets fit a `ulong`, with room for another. -/
theorem segments_size {segs : List Bytes} (hsmall : ∀ seg ∈ segs, seg.length < bufferLimit)
    (hcount : segs.length ≤ bufferLimit) : segs.flatten.length + bufferLimit < ulongSize := by
  have hle : segs.flatten.length ≤ segs.length * bufferLimit :=
    flatten_length_le fun seg hseg => (hsmall seg hseg).le
  have hmul : segs.length * bufferLimit ≤ bufferLimit * bufferLimit := Nat.mul_le_mul_right _ hcount
  have hpow : bufferLimit * bufferLimit + bufferLimit < ulongSize := by decide
  omega

namespace Laid
variable {s : FsLogStore} {segs : List Bytes} {es : List LogEntry} {e : LogEntry} {k : Nat}

theorem nextSlot_eq (h : Laid s segs es) : s.nextSlot = s.startIdx + es.length := by
  rw [h.image.nextSlot_eq, h.decodes.length]

/-- **`append`** adds the encoding of the entry. -/
theorem append (h : Laid s segs es) (hf : s.Fits (.append e)) :
    s.append e = some (Image.appended s e) ∧
      Laid (Image.appended s e) (segs ++ [e.serialize]) (es ++ [e]) := by
  obtain ⟨he, hnext, hcount⟩ := hf
  rw [h.image.entries] at hnext hcount
  have hsize := segments_size h.image.small h.count
  have hroom : e.serialize.length < bufferLimit := e.serialize_length ▸ he.size
  obtain ⟨hrun, himg⟩ := h.image.append_run he hnext (by omega)
  refine ⟨hrun, himg, h.decodes.append (Decodes.cons_iff.mpr ⟨LogEntry.deserialize_serialize he, rfl⟩), ?_, ?_, h.pos⟩
  · rw [List.length_append, List.length_singleton]
    exact hcount
  · have hmax := h.maxSize
    unfold Image.appended LogStoreBuffer.append
    dsimp only
    split <;> exact hmax

/-- **`write_at`** makes the entry the last one; what it does not cover stays behind it. -/
theorem writeAt (h : Laid s segs es) (hf : s.Fits (.writeAt (s.startIdx + k) e)) :
    s.writeAt (s.startIdx + k) e = some (Image.rewritten s segs k e) ∧
      Laid (Image.rewritten s segs k e) (Image.spliced segs k [e.serialize])
        (es.take k ++ [{ e with buf := e.buf ++ Image.stale segs k [e.serialize] }]) := by
  obtain ⟨⟨-, hle⟩, he, hnext, hcount⟩ := hf
  rw [Nat.add_sub_cancel_left] at hcount
  have hk : k ≤ segs.length := by
    rw [h.image.entries] at hle
    exact Nat.le_of_add_le_add_left hle
  have hsize := segments_size h.image.small h.count
  have hroom : e.serialize.length < bufferLimit := e.serialize_length ▸ he.size
  have hparts : segs.flatten.length = (segs.take k).flatten.length + (segs.drop k).flatten.length := by
    conv_lhs => rw [← List.take_append_drop k segs, List.flatten_append, List.length_append]
  obtain ⟨hrun, himg⟩ := h.image.writeAt_run he hk hnext (by omega)
  have hlast : Decodes [e.serialize ++ Image.stale segs k [e.serialize]]
      [{ e with buf := e.buf ++ Image.stale segs k [e.serialize] }] :=
    Decodes.cons_iff.mpr ⟨LogEntry.deserialize_append he _, rfl⟩
  refine ⟨hrun, himg, (h.decodes.take k).append hlast, ?_, ?_, h.pos⟩
  · rw [Image.spliced_length hk]
    exact hcount
  · have hmax := h.maxSize
    unfold Image.rewritten LogStoreBuffer.append LogStoreBuffer.trim
    dsimp only
    split_ifs <;> exact hmax

/-- **`compact`** drops the segments it covers, and fills the buffer anew. -/
theorem compact (h : Laid s segs es) (hf : s.Fits (.compact (s.startIdx + k))) :
    ∃ s', s.compact (s.startIdx + k) = some s' ∧ Laid s' (segs.drop (k + 1)) (es.drop (k + 1)) ∧
      Window s' (es.drop (k + 1)) ∧ s'.startIdx = s.startIdx + k + 1 ∧ s'.bufSize = s.bufSize := by
  obtain ⟨-, hlast, hfit⟩ := hf
  have hlen := h.decodes.length
  have hcount : (segs.drop (k + 1)).length ≤ bufferLimit := by
    rw [List.length_drop]
    exact (Nat.sub_le _ _).trans h.count
  have hdec := h.decodes.drop (k + 1)
  rcases Nat.lt_or_ge (k + 1) segs.length with hpart | hall
  · have hfit' : 8 * min (segs.length - (k + 1)) s.bufSize < bufferLimit := by
      rw [h.image.entries] at hfit
      omega
    obtain ⟨s', hrun, hopen⟩ := h.image.compact_run h.decodes (Nat.succ_pos k) hpart h.pos h.maxSize hfit'
    exact ⟨s', hrun, ⟨hopen.image, hdec, hcount, hopen.window.maxSize, hopen.window.pos⟩, hopen.window,
      hopen.startIdx, hopen.bufSize⟩
  · obtain ⟨hrun, himg⟩ := h.image.compact_all (Nat.le_add_right _ k) (by omega) hlast
    have hnil : segs.drop (k + 1) = [] := List.drop_eq_nil_of_le hall
    have hes : es.drop (k + 1) = [] := List.drop_eq_nil_of_le (hlen ▸ hall)
    rw [hnil] at hcount
    rw [hnil, hes] at hdec ⊢
    exact ⟨_, hrun, ⟨himg, hdec, hcount, h.maxSize, h.pos⟩, Window.emptied_nil h.maxSize h.pos _, rfl, rfl⟩

/-- **A reopening** keeps the files, and fills a new buffer from them. -/
theorem reopen {bufSize : Int} (h : Laid s segs es) (hf : s.Fits (.reopen bufSize)) :
    ∃ s', FsLogStore.openOn s.files bufSize = some s' ∧ Laid s' segs es ∧ Window s' es ∧
      s'.startIdx = s.startIdx ∧ s'.bufSize = bufferSize bufSize := by
  obtain ⟨hpos, hfit⟩ := hf
  obtain ⟨s', hrun, hopen⟩ := openOn_run h.image h.decodes hpos (h.image.entries ▸ hfit)
  exact ⟨s', hrun, ⟨hopen.image, h.decodes, h.count, hopen.window.maxSize, hopen.window.pos⟩, hopen.window,
    hopen.startIdx, hopen.bufSize⟩

/-- A store in a new folder. -/
theorem fresh {bufSize : Int} (hpos : 1 ≤ bufferSize bufSize) :
    ∃ s, FsLogStore.openOn {} bufSize = some s ∧ Laid s [] [] ∧ Window s [] ∧ s.startIdx = 1 ∧
      s.bufSize = bufferSize bufSize := by
  obtain ⟨s, hrun, hopen⟩ := openOn_fresh hpos
  exact ⟨s, hrun, ⟨hopen.image, rfl, Nat.zero_le _, hopen.window.maxSize, hopen.window.pos⟩, hopen.window,
    hopen.startIdx, hopen.bufSize⟩

end Laid

/-! ## Stores that hold a log -/

/-- The files hold the encodings of the entries of the log, and nothing else. -/
structure HoldsLog (s : FsLogStore) (l : LogStore) (size : Nat) : Prop where
  bufSize : s.bufSize = size
  startIdx : s.startIdx = l.startIdx
  laid : Laid s (l.entries.map LogEntry.serialize) l.entries

/-- An entry that is written over the last one is at least as long. -/
def Covers (l : LogStore) : StoreOp → Prop
  | .writeAt index e => index + 1 = l.nextSlot → ∀ old ∈ l.entries.getLast?, old.buf.length ≤ e.buf.length
  | _ => True

instance (l : LogStore) : (op : StoreOp) → Decidable (Covers l op)
  | .writeAt _ _ => inferInstanceAs (Decidable (_ → ∀ old ∈ l.entries.getLast?, _))
  | .append _ | .compact _ | .reopen _ => .isTrue trivial

/-- Nothing is left behind an entry that covers what it is written over. -/
theorem stale_nil {es : List LogEntry} {k : Nat} {e : LogEntry} (hk : k ≤ es.length)
    (hcover : k + 1 = es.length → ∀ old ∈ es.getLast?, old.buf.length ≤ e.buf.length) :
    Image.stale (es.map LogEntry.serialize) k [e.serialize] = [] := by
  rw [Image.stale, List.length_map, List.length_singleton, List.flatten_singleton]
  split
  · rfl
  · rename_i hlast
    rcases Nat.lt_or_ge k es.length with hlt | hge
    · have hone : (es.map LogEntry.serialize).drop k = [es[k].serialize] := by
        rw [← List.map_drop, List.drop_eq_getElem_cons hlt, List.drop_eq_nil_of_le (by omega)]
        rfl
      have hold := hcover (by omega) es[k] (by
        rw [Option.mem_def, List.getLast?_eq_getElem?, ← List.getElem?_eq_getElem hlt]
        congr 1
        omega)
      rw [hone, List.flatten_singleton]
      refine List.drop_eq_nil_of_le ?_
      rw [LogEntry.serialize_length, LogEntry.serialize_length]
      omega
    · have hnil : (es.map LogEntry.serialize).drop k = [] :=
        List.drop_eq_nil_of_le (by rw [List.length_map]; exact hge)
      rw [hnil]
      exact List.drop_nil

namespace HoldsLog
variable {s : FsLogStore} {l : LogStore} {size : Nat}

theorem nextSlot_eq (h : HoldsLog s l size) : s.nextSlot = l.nextSlot := by
  rw [h.laid.nextSlot_eq, h.startIdx, LogStore.nextSlot]

theorem fits {op : StoreOp} (h : HoldsLog s l size) (hf : l.Fits size op) : s.Fits op := by
  rw [FsLogStore.Fits, h.startIdx, h.laid.image.entries, List.length_map, h.bufSize]
  exact hf

/-- **One operation** keeps the files a copy of the log, if no entry written over the last
one is shorter.  Where nothing is written over, it keeps the window too. -/
theorem perform {op : StoreOp} (h : HoldsLog s l size) (hf : l.Fits size op) (hcover : Covers l op) :
    ∃ s', s.perform op = some s' ∧ HoldsLog s' (l.perform op) (op.sizeAfter size) ∧
      ((∀ index e, op ≠ .writeAt index e) → Window s l.entries → Window s' (l.perform op).entries) := by
  have hstart := h.startIdx
  have hs := h.fits hf
  cases op with
  | append e =>
    obtain ⟨hrun, hlaid⟩ := h.laid.append hs
    refine ⟨_, hrun, ⟨h.bufSize, hstart, ?_⟩, fun _ hwin => hwin.append e rfl rfl rfl⟩
    rw [LogStore.perform, LogStore.append_entries, List.map_append]
    exact hlaid
  | writeAt index e =>
    obtain ⟨k, rfl⟩ : ∃ k, index = s.startIdx + k := Nat.exists_eq_add_of_le hs.1.1
    have hle := hf.1.2
    obtain ⟨hrun, hlaid⟩ := h.laid.writeAt hs
    have hstale := @stale_nil l.entries k e (by omega) fun hlast =>
      hcover (by rw [LogStore.nextSlot]; omega)
    have hentries : (l.writeAt (s.startIdx + k) e).entries = l.entries.take k ++ [e] := by
      rw [LogStore.writeAt, hstart, Nat.add_sub_cancel_left]
    refine ⟨_, hrun, ⟨h.bufSize, hstart, ?_⟩, fun hnot => absurd rfl (hnot _ _)⟩
    rw [Image.spliced, hstale, padLast_nil, List.append_nil] at hlaid
    rw [LogStore.perform, hentries, List.map_append, List.map_take]
    exact hlaid
  | compact last =>
    obtain ⟨k, rfl⟩ : ∃ k, last = s.startIdx + k := Nat.exists_eq_add_of_le hs.1
    obtain ⟨s', hrun, hlaid, hwin, hidx, hsize⟩ := h.laid.compact hs
    have hentries : (l.compact (s.startIdx + k)).entries = l.entries.drop (k + 1) := by
      rw [LogStore.compact, hstart, Nat.add_assoc, Nat.add_sub_cancel_left]
    refine ⟨s', hrun, ⟨hsize.trans h.bufSize, hidx, ?_⟩, fun _ _ => ?_⟩
    · rw [LogStore.perform, hentries, List.map_drop]
      exact hlaid
    · rw [LogStore.perform, hentries]
      exact hwin
  | reopen bufSize =>
    obtain ⟨s', hrun, hlaid, hwin, hidx, hsize⟩ := h.laid.reopen hs
    exact ⟨s', hrun, ⟨hsize, hidx.trans hstart, hlaid⟩, fun _ _ => hwin⟩

end HoldsLog
end Cornerstone
