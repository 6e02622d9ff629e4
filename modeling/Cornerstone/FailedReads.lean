import Cornerstone.LogSlices

/-! # Reads that fail

What a read of the store leaves behind.  A range check, a null pointer or a buffer that
cannot be allocated leave nothing.  A read that comes to the end of a file leaves the fail
bit of its stream, and with it a store that can no longer be appended to.
-/

namespace Cornerstone
open OffsetFile Handlers Handler OpenStore

/-- The calls that read. -/
inductive ReadCall
  | entryAt (index : Nat)
  | termAt (index : Nat)
  | logEntries (start stop : Nat)
  | pack (index : Nat) (cnt : Int)
deriving DecidableEq, Repr

/-- The call, without its answer. -/
def ReadCall.perform : ReadCall → StoreAction Unit
  | .entryAt index => do
    let _ ← OpenStore.entryAt index
    pure ()
  | .termAt index => do
    let _ ← OpenStore.termAt index
    pure ()
  | .logEntries start stop => do
    let _ ← OpenStore.logEntries start stop
    pure ()
  | .pack index cnt => do
    let _ ← OpenStore.pack index cnt
    pure ()

/-- Whether the call returns or throws, every later operation behaves as if it had not been
made. -/
structure LeavesUsable (o : OpenStore) (x : StoreAction Unit) : Prop where
  defined : (x o).res ≠ .error .outOfBounds
  later : ∀ {α : Type} (y : StoreAction α), y (x o).state = y o

/-- The calls that do not come to the end of a file.  `entry_at` needs an entry behind the
one it reads from the files; `term_at` casts the offset to an `int`, and does not ask for
its upper bound; the loop of `log_entries` needs room, and an entry behind those it
reads. -/
def ReadCall.Harmless (s : FsLogStore) : ReadCall → Prop
  | .entryAt index => s.startIdx ≤ index → index < s.buf.startIdx → index + 1 < s.nextSlot
  | .termAt index => s.startIdx ≤ index → ¬ (s.buf.startIdx ≤ index ∧ index < s.buf.lastIdx) →
      0 ≤ int32OfUlong (index - s.startIdx) ∧ int32OfUlong (index - s.startIdx) < s.entriesInStore
  | .logEntries start stop => s.startIdx ≤ start → start < stop → start < s.nextSlot → start < s.buf.startIdx →
      s.buf.startIdx ≤ stop ∧ s.buf.startIdx < s.nextSlot
  | .pack _ _ => True

variable {o : OpenStore} {segs : List Bytes} {es : List LogEntry} {w k n : Nat} {α β : Type}

/-! ## Leaving nothing -/

/-- The operation leaves nothing behind, and does nothing that is undefined. -/
structure Leaves (o : OpenStore) (x : StoreAction α) : Prop where
  state : (x o).state = o
  defined : (x o).res ≠ .error .outOfBounds

namespace Leaves

theorem of_run {x : StoreAction α} {a : α} (h : x o = ⟨.ok a, o, []⟩) : Leaves o x := by
  refine ⟨by rw [h], ?_⟩
  rw [h]
  simp

theorem ret (a : α) : Leaves o (pure a : StoreAction α) := of_run rfl

theorem throw : Leaves o (halt .throw : StoreAction α) := ⟨rfl, by simp⟩

theorem bind {x : StoreAction α} {f : α → StoreAction β} (hx : Leaves o x)
    (hf : ∀ a, (x o).res = .ok a → Leaves o (f a)) : Leaves o (x >>= f) := by
  rcases bind_cases x f o with ⟨e, he, hrun⟩ | ⟨a, ha, hrun⟩
  · rw [hx.state] at hrun
    refine ⟨by rw [hrun], fun hout => hx.defined ?_⟩
    rw [hrun] at hout
    cases hout
    exact he
  · have hrest := hf a ha
    rw [hx.state] at hrun
    exact ⟨by rw [hrun]; exact hrest.state, by rw [hrun]; exact hrest.defined⟩

theorem look_bind {f : OpenStore → StoreAction α} (hf : Leaves o (f o)) : Leaves o (look >>= f) :=
  ⟨hf.state, hf.defined⟩

theorem ite {c : Prop} [Decidable c] {x y : StoreAction α} (hx : c → Leaves o x) (hy : ¬ c → Leaves o y) :
    Leaves o (if c then x else y) := by
  split
  · exact hx ‹_›
  · exact hy ‹_›

theorem alloc (size : Int) : Leaves o (alloc size) := ite (fun _ => throw) fun _ => ret _

theorem leavesUsable {x : StoreAction α} (h : Leaves o x) : LeavesUsable o (x >>= fun _ => pure ()) := by
  have hx : Leaves o (x >>= fun _ => (pure () : StoreAction Unit)) := h.bind fun _ _ => ret _
  exact ⟨hx.defined, fun y => by rw [hx.state]⟩

end Leaves

/-- What a read does that comes to the end of the index file. -/
def Breaks (o : OpenStore) (x : StoreAction α) : Prop := x o = ⟨.error .throw, o.fail .idx, []⟩

/-- Behind it nothing can be appended. -/
theorem Breaks.append {x : StoreAction α} (h : Breaks o x) (e : LogEntry) :
    (append e (x o).state).res = .error .throw := by
  rw [h, append_failed e (fail_failed o .idx)]

theorem alloc_ok {size : Int} {m : Nat} (h : (alloc size o).res = .ok m) : size = m ∧ m < bufferLimit := by
  rw [alloc] at h
  split at h
  · cases h
  · rename_i hin
    cases h
    omega

/-! ## `entry_at` -/

theorem at?_below (h : Readable o.store segs es w) (hk : k < w) : o.store.buf.at? (o.store.startIdx + k) = none := by
  rw [LogStoreBuffer.at?, h.keeps.buf, if_pos (by simp only; omega)]

/-- The word behind the last one is not there. -/
theorem readWord_end (h : Readable o.store segs es w) (hk : es.length ≤ k) :
    readWord o.store.files.idx (8 * k) = none := by
  have hlen := h.decodes.length
  rw [readWord, readAt, if_neg (by rw [h.image.idx_length]; omega), Option.map_none]

theorem leaves_entryAt (h : Readable o.store segs es w) (hg : o.Good) {index : Nat}
    (hc : ReadCall.Harmless o.store (.entryAt index)) : Leaves o (OpenStore.entryAt index) := by
  cases hat : o.store.buf.at? index with
  | some e =>
    refine .of_run (a := some e) ?_
    rw [OpenStore.entryAt, bind_silent (look_run _), hat]
    rfl
  | none =>
    by_cases hlo : index < o.store.startIdx
    · rw [OpenStore.entryAt]
      refine .look_bind ?_
      dsimp only
      rw [hat]
      exact .ite (fun _ => .throw) fun hge => absurd hlo hge
    by_cases hhi : o.store.nextSlot ≤ index
    · refine .of_run (a := none) ?_
      rw [OpenStore.entryAt, bind_silent (look_run _), hat]
      dsimp only
      rw [if_neg hlo, bind_silent (checkStreams_run hg), if_pos hhi, pure_run]
    obtain ⟨k, rfl⟩ : ∃ k, index = o.store.startIdx + k := Nat.exists_eq_add_of_le (not_lt.mp hlo)
    rw [h.nextSlot_eq] at hhi
    have hk : k < es.length := by omega
    have hout : k < w := by
      by_contra hin
      rw [LogStoreBuffer.at?, h.keeps.buf, if_neg (by simp only; omega), List.getElem?_drop] at hat
      simp only at hat
      rw [List.getElem?_eq_none_iff] at hat
      omega
    have hlast := hc (Nat.le_add_right _ _) (by rw [h.first_eq]; omega)
    rw [h.nextSlot_eq] at hlast
    exact .of_run (OpenStore.entryAt_run hg (h.image.entryAt_files h.decodes (List.getElem?_eq_getElem hk) hat (by omega)))

theorem breaks_entryAt (h : Readable o.store segs es w) (hg : o.Good) {index : Nat}
    (hc : ¬ ReadCall.Harmless o.store (.entryAt index)) : Breaks o (OpenStore.entryAt index) := by
  rw [ReadCall.Harmless, h.nextSlot_eq, h.first_eq] at hc
  push Not at hc
  obtain ⟨hge, hlt, hend⟩ := hc
  have hle := h.keeps.le
  obtain ⟨k, rfl⟩ : ∃ k, index = o.store.startIdx + k := Nat.exists_eq_add_of_le hge
  have hk : k < es.length := by omega
  obtain ⟨seg, hseg, -⟩ := Image.exists_seg h.decodes (List.getElem?_eq_getElem hk)
  have hword : readWord (o.bytes .idx) (8 * k) = some (segs.take k).flatten.length := hseg.word h.image
  have hnext : readWord (o.bytes .idx) (8 * k + 8) = none := readWord_end h (k := k + 1) (by omega)
  rw [Breaks, OpenStore.entryAt, bind_silent (look_run _), at?_below h (by omega)]
  dsimp only
  rw [if_neg (by omega), bind_silent (checkStreams_run hg), h.nextSlot_eq, if_neg (by omega),
    Nat.add_sub_cancel_left, bind_silent (seekg_run _ _), bind_silent (readWordFrom_run (hg .idx) hword), bind_run,
    readWordFrom_short (hg .idx) hnext, Outcome.andThen_error]

/-! ## `term_at` -/

theorem leaves_termAt (h : Readable o.store segs es w) (hg : o.Good) {index : Nat}
    (hc : ReadCall.Harmless o.store (.termAt index)) : Leaves o (OpenStore.termAt index) := by
  by_cases hin : o.store.buf.startIdx ≤ index ∧ index < o.store.buf.lastIdx
  · rw [OpenStore.termAt]
    exact .look_bind (.ite (fun _ => .ret _) fun hout => absurd hin hout)
  by_cases hlo : index < o.store.startIdx
  · rw [OpenStore.termAt]
    exact .look_bind (.ite (fun hin' => absurd hin' hin) fun _ => .ite (fun _ => .throw) fun hge => absurd hlo hge)
  obtain ⟨hneg, hlt⟩ := hc (not_lt.mp hlo) hin
  obtain ⟨k, hk⟩ := Int.eq_ofNat_of_zero_le hneg
  rw [hk, h.entries_eq] at hlt
  have hpos : wordPos (index - o.store.startIdx) = some (8 * k) := by
    rw [wordPos, hk, if_neg (by omega), Int.toNat_natCast]
  have hlen : k < es.length := by omega
  exact .of_run (termAt_run hg
    (h.image.termAt_files h.decodes (List.getElem?_eq_getElem hlen) (not_lt.mp hlo) hin hpos))

theorem breaks_termAt (h : Readable o.store segs es w) (hg : o.Good) {index : Nat}
    (hc : ¬ ReadCall.Harmless o.store (.termAt index)) : Breaks o (OpenStore.termAt index) := by
  rw [ReadCall.Harmless] at hc
  push Not at hc
  obtain ⟨hge, hout, hrange⟩ := hc
  rw [h.entries_eq] at hrange
  rw [Breaks, OpenStore.termAt, bind_silent (look_run _), if_neg fun hin => absurd (hout hin.1) (not_le.mpr hin.2),
    if_neg (not_lt.mpr hge), bind_silent (checkStreams_run hg), wordPos]
  by_cases hneg : int32OfUlong (index - o.store.startIdx) < 0
  · -- the seek fails
    have hseek : seekg .idx none o = ⟨.ok 0, o.fail .idx, []⟩ := by
      rw [seekg, bind_silent (look_run _), hg .idx]
      rfl
    have hread : readWordFrom .idx 0 (o.fail .idx) = ⟨.error .throw, o.fail .idx, []⟩ := by
      rw [readWordFrom, bind_run, readFrom, bind_silent (look_run _), fail_failed, if_pos rfl, halt_run,
        Outcome.andThen_error]
    rw [if_pos hneg, bind_silent hseek, bind_run, hread, Outcome.andThen_error]
  · obtain ⟨k, hk⟩ := Int.eq_ofNat_of_zero_le (not_lt.mp hneg)
    have hshort : readWord (o.bytes .idx) (8 * k) = none := by
      have := hrange (not_lt.mp hneg)
      exact readWord_end h (by omega)
    rw [if_neg hneg, hk, Int.toNat_natCast, bind_silent (seekg_run _ _), bind_run, readWordFrom_short (hg .idx) hshort,
      Outcome.andThen_error]

/-! ## `log_entries` -/

theorem leaves_logEntries (h : Readable o.store segs es w) (hg : o.Good) {start stop : Nat}
    (hc : ReadCall.Harmless o.store (.logEntries start stop)) : Leaves o (OpenStore.logEntries start stop) := by
  by_cases hlo : start < o.store.startIdx
  · rw [OpenStore.logEntries]
    exact .look_bind (.ite (fun _ => .throw) fun hge => absurd hlo hge)
  by_cases hnone : start ≥ stop ∨ start ≥ o.store.nextSlot
  · rw [OpenStore.logEntries]
    exact .look_bind (.ite (fun _ => .throw) fun _ => .ite (fun _ => .ret _) fun hsome => absurd hnone hsome)
  obtain ⟨k, rfl⟩ : ∃ k, start = o.store.startIdx + k := Nat.exists_eq_add_of_le (not_lt.mp hlo)
  obtain ⟨n, rfl⟩ : ∃ n, stop = o.store.startIdx + n := ⟨stop - o.store.startIdx, by omega⟩
  obtain ⟨hlt, hnext⟩ := not_or.mp hnone
  have hreach := hc (Nat.le_add_right _ _) (not_le.mp hlt) (not_le.mp hnext)
  rw [h.nextSlot_eq] at hnext hreach
  rw [h.first_eq] at hreach
  rcases Nat.lt_or_ge k w with hout | hin
  · obtain ⟨hn, hw⟩ := hreach (by omega)
    exact .of_run (h.logEntries_across hg hout (by omega) (by omega))
  · exact .of_run (h.logEntries_inside hin (by omega) (by omega))

/-- With nothing in memory the loop asks for the end of the last entry, which is not in the
index file. -/
theorem readEntries_short (h : Readable o.store segs es w) (hg : o.Good) (rest : List (Option LogEntry)) :
    ∀ {n k : Nat} (done : List (Option LogEntry)), k + (n + 1) = es.length →
      OpenStore.readEntries (n + 1) done.length (8 * (k + 1)) (segs.take k).flatten.length
        (done ++ (List.replicate (n + 1) none ++ rest)) o = ⟨.error .throw, o.fail .idx, []⟩
  | 0, k, done, hend => by
    have hshort : readWord (o.bytes .idx) (8 * (k + 1)) = none := readWord_end h (by omega)
    rw [OpenStore.readEntries, bind_run, readWordFrom_short (hg .idx) hshort, Outcome.andThen_error]
  | n + 1, k, done, hend => by
    obtain ⟨e, stop, -, hword, hstop, hread⟩ := h.exists_entry (k := k) hg (by omega)
    have hset : (done ++ (List.replicate (n + 1 + 1) none ++ rest)).set done.length (some e) =
        (done ++ [some e]) ++ (List.replicate (n + 1) none ++ rest) := by
      simp [List.replicate_succ]
    have hin : ¬ (done ++ (List.replicate (n + 1 + 1) none ++ rest)).length ≤ done.length := by simp
    have hrest := readEntries_short h hg rest (k := k + 1) (n := n) (done ++ [some e]) (by omega)
    rw [List.length_append, List.length_singleton] at hrest
    rw [OpenStore.readEntries, bind_silent (readWordFrom_run (hg .idx) hword), bind_silent (seekg_run _ _), hread,
      if_neg hin, hset, hstop, ← Nat.mul_add_one, hrest]

theorem breaks_logEntries (h : Readable o.store segs es w) (hg : o.Good) (hroom : es.length < bufferLimit)
    {start stop : Nat} (hc : ¬ ReadCall.Harmless o.store (.logEntries start stop)) :
    (OpenStore.logEntries start stop o).res = .error .outOfBounds ∨ Breaks o (OpenStore.logEntries start stop) := by
  rw [ReadCall.Harmless, h.nextSlot_eq, h.first_eq] at hc
  push Not at hc
  obtain ⟨hge, hlt, hnext, hout, hend⟩ := hc
  have hle := h.keeps.le
  obtain ⟨k, rfl⟩ : ∃ k, start = o.store.startIdx + k := Nat.exists_eq_add_of_le hge
  obtain ⟨n, rfl⟩ : ∃ n, stop = o.store.startIdx + n := ⟨stop - o.store.startIdx, by omega⟩
  rcases Nat.lt_or_ge n w with hbelow | hreach
  · left
    rw [h.logEntries_below hg (by omega) (by omega) hbelow]
  · right
    have hall : w = es.length := by
      have := hend (by omega)
      omega
    have hmin : w ≤ min n es.length := by omega
    have hfill := h.fill_across (o := o) (by omega : k < w) (by omega) hmin (min_le_right _ _)
    have hcount : intDistance k w = ((w - k - 1 + 1 : Nat) : Int) := by
      rw [intDistance_eq] <;> omega
    have hshort := readEntries_short h hg (((es.drop w).take (min n es.length - w)).map some) (n := w - k - 1) (k := k) []
      (by omega)
    rw [List.nil_append, List.length_nil] at hshort
    have hsize : w - k = w - k - 1 + 1 := by omega
    rw [hsize] at hfill
    rw [Breaks, h.logEntries_files hg (by omega) (by omega) (by omega) hfill, hcount, Int.toNat_natCast, bind_run, hshort,
      Outcome.andThen_error]

/-! ## `pack` -/

/-- The first word of what was read is the word there. -/
theorem readWord_readAt {f bs : Bytes} {pos size : Nat} (h : readAt f pos size = some bs) (hsize : 8 ≤ size) :
    readWord bs 0 = readWord f pos := by
  rw [readAt] at h
  split at h
  · rename_i hin
    cases h
    have hlen : ((f.drop pos).take size).length = size := by
      rw [List.length_take, List.length_drop]
      omega
    rw [readWord, readWord, readAt, readAt, if_pos (by omega), if_pos (by omega), List.drop_zero, List.take_take,
      Nat.min_eq_left hsize]
  · cases h

/-- A distance as an `int` that is not negative is no longer than it was. -/
theorem intDistance_le {a b m : Nat} (hab : a ≤ b) (hb : b < ulongSize) (h : intDistance a b = m) : a + m ≤ b := by
  rw [intDistance, int32OfUlong, ulongSub_of_le hab hb, Int.bmod] at h
  simp only [uintSize] at h
  split_ifs at h <;> omega

theorem flatten_take_le {segs : List Bytes} (k : Nat) : (segs.take k).flatten.length ≤ segs.flatten.length := by
  conv_rhs => rw [← List.take_append_drop k segs, List.flatten_append, List.length_append]
  exact Nat.le_add_right _ _

/-- **`pack` leaves nothing**, whatever index and count it is given. -/
theorem leaves_pack (h : Readable o.store segs es w) (hg : o.Good) (hroom : es.length < bufferLimit) (index : Nat)
    (cnt : Int) : Leaves o (OpenStore.pack index cnt) := by
  rw [OpenStore.pack]
  refine .look_bind (.ite (fun _ => .throw) fun hlo => .bind (.of_run (checkStreams_run hg)) fun _ _ =>
    .ite (fun _ => .ret _) fun hhi => ?_)
  rw [h.entries_eq] at hhi ⊢
  obtain ⟨k, rfl⟩ : ∃ k, index = o.store.startIdx + k := Nat.exists_eq_add_of_le (not_lt.mp hlo)
  rw [Nat.add_sub_cancel_left] at hhi ⊢
  have hlen := h.decodes.length
  have hk : k < es.length := not_le.mp hhi
  set stop := min ((k + ulongOfInt cnt) % ulongSize) es.length with hstop
  have hle : stop ≤ es.length := min_le_right _ _
  rw [wordPos_eq (by omega : k < bufferLimit)]
  refine .bind (.of_run (seekg_run .idx (8 * k))) fun pos hpos => .bind (.alloc _) fun size hsize => ?_
  cases hpos
  obtain ⟨hsize, -⟩ := alloc_ok hsize
  have hdist : intDistance k stop = (stop : Int) - k := intDistance_eq (by omega) (by omega)
  rw [hdist] at hsize
  have hidx : readAt (o.bytes .idx) (8 * k) size = some ((o.store.files.idx.drop (8 * k)).take size) := by
    rw [readAt, if_pos]
    · rfl
    · change 8 * k + size ≤ o.store.files.idx.length
      rw [h.image.idx_length]
      omega
  obtain ⟨seg, hseg, -⟩ := Image.exists_seg h.decodes (List.getElem?_eq_getElem hk)
  have hbytes := h.image.size
  -- where the data ends, in front of the entry behind or with the file
  obtain ⟨endOfData, hend, hge, hfile⟩ : ∃ d, (if stop = es.length then pure o.store.files.data.length
      else readWordFrom .idx (8 * k + size) : StoreAction Nat) o = ⟨.ok d, o, []⟩ ∧
        (k < stop → (segs.take k).flatten.length ≤ d) ∧ d ≤ segs.flatten.length := by
    by_cases hall : stop = es.length
    · refine ⟨segs.flatten.length, ?_, fun _ => flatten_take_le k, le_rfl⟩
      rw [if_pos hall, h.image.data, pure_run]
    · obtain ⟨seg', hseg', -⟩ := Image.exists_seg h.decodes (List.getElem?_eq_getElem (by omega : stop < es.length))
      have hpos : 8 * k + size = 8 * stop := by omega
      refine ⟨(segs.take stop).flatten.length, ?_, fun hlt => ?_, flatten_take_le stop⟩
      · rw [if_neg hall, hpos]
        exact readWordFrom_run (hg .idx) (hseg'.word h.image)
      · have hmin : (segs.take stop).take k = segs.take k := by rw [List.take_take, Nat.min_eq_left hlt.le]
        rw [← hmin]
        exact flatten_take_le k
  refine .bind (.of_run (readFrom_run (hg .idx) hidx)) fun idxBuf hbuf => .bind (.of_run hend) fun d hd => ?_
  rw [readFrom_run (hg .idx) hidx] at hbuf
  rw [hend] at hd
  cases hbuf
  cases hd
  cases hword : readWord ((o.store.files.idx.drop (8 * k)).take size) 0 with
  | none => exact .throw
  | some startOfData =>
    have hsome : 8 ≤ size := by
      by_contra hshort
      have hzero : size = 0 := by omega
      rw [hzero, List.take_zero] at hword
      cases hword
    have hstart : startOfData = (segs.take k).flatten.length := by
      rw [readWord_readAt hidx hsome] at hword
      cases hword.symm.trans (hseg.word h.image)
      rfl
    refine .bind (.of_run (seekg_run .data startOfData)) fun dPos hdPos => .bind (.alloc _) fun m hm => ?_
    cases hdPos
    have hdata := intDistance_le (hstart ▸ hge (by omega)) (by omega) (alloc_ok hm).1
    have hread : readAt (o.bytes .data) startOfData m = some ((o.store.files.data.drop startOfData).take m) := by
      rw [readAt, if_pos]
      · rfl
      · change startOfData + m ≤ o.store.files.data.length
        rw [h.image.data]
        omega
    exact .bind (.of_run (readFrom_run (hg .data) hread)) fun _ _ => .bind (.alloc _) fun _ _ => .ret _

/-! ## Every call -/

theorem ReadCall.leaves (h : Readable o.store segs es w) (hg : o.Good) (hroom : es.length < bufferLimit) {c : ReadCall}
    (hc : c.Harmless o.store) : LeavesUsable o c.perform := by
  cases c with
  | entryAt index => exact (leaves_entryAt h hg hc).leavesUsable
  | termAt index => exact (leaves_termAt h hg hc).leavesUsable
  | logEntries start stop => exact (leaves_logEntries h hg hc).leavesUsable
  | pack index cnt => exact (leaves_pack h hg hroom index cnt).leavesUsable

theorem Breaks.dropAnswer {x : StoreAction α} (h : Breaks o x) : Breaks o (x >>= fun _ => pure ()) := by
  rw [Breaks, bind_run, h, Outcome.andThen_error]

theorem ReadCall.breaks (h : Readable o.store segs es w) (hg : o.Good) (hroom : es.length < bufferLimit) {c : ReadCall}
    (hc : ¬ c.Harmless o.store) : (c.perform o).res = .error .outOfBounds ∨ Breaks o c.perform := by
  cases c with
  | entryAt index => exact .inr (breaks_entryAt h hg hc).dropAnswer
  | termAt index => exact .inr (breaks_termAt h hg hc).dropAnswer
  | logEntries start stop =>
    refine (breaks_logEntries h hg hroom hc).imp (fun hout => ?_) Breaks.dropAnswer
    rw [ReadCall.perform, bind_run, Outcome.andThen, hout]
  | pack index cnt => exact absurd trivial hc

/-- A store whose streams are good takes an entry without a payload. -/
theorem append_empty (hg : o.Good) : (append ⟨0, [], .appLog⟩ o).res ≠ .error .throw := by
  obtain ⟨s, hs⟩ : ∃ s, o.store.append ⟨0, [], .appLog⟩ = some s := ⟨_, rfl⟩
  rw [append_run hg hs]
  simp

/-- **What a call leaves behind**: nothing, if it is harmless; else it is undefined, or
nothing can be appended any more. -/
theorem ReadCall.leavesUsable_iff (h : Readable o.store segs es w) (hg : o.Good) (hroom : es.length < bufferLimit)
    (c : ReadCall) : (LeavesUsable o c.perform ↔ c.Harmless o.store) ∧
      (¬ c.Harmless o.store → (c.perform o).res = .error .outOfBounds ∨
        ∀ e, (append e (c.perform o).state).res = .error .throw) := by
  have hnot : ¬ c.Harmless o.store → (c.perform o).res = .error .outOfBounds ∨
      ∀ e, (append e (c.perform o).state).res = .error .throw := fun hc =>
    (c.breaks h hg hroom hc).imp_right Breaks.append
  refine ⟨⟨fun hleaves => ?_, c.leaves h hg hroom⟩, hnot⟩
  by_contra hc
  rcases hnot hc with hout | hfails
  · exact hleaves.defined hout
  · have hsame := hleaves.later (append ⟨0, [], .appLog⟩)
    exact append_empty hg (hsame ▸ hfails _)

/-- **Reads that leave the store usable**: for every buffer size and every store built by
appends and compactions, these are the harmless ones. -/
theorem reads_leave_usable_iff {bufSize : Int} {s : FsLogStore} (ops : List StoreOp) (hint : bufSize < bufferLimit)
    (hops : EveryStep Grows {} (bufferSize bufSize) ops)
    (hrun : (FsLogStore.openOn {} bufSize).bind (·.run ops) = some s) (hroom : s.entriesInStore < bufferLimit)
    (c : ReadCall) : (LeavesUsable ⟨s, fun _ => false⟩ c.perform ↔ c.Harmless s) ∧
      (¬ c.Harmless s → (c.perform ⟨s, fun _ => false⟩).res = .error .outOfBounds ∨
        ∀ e, (append e (c.perform ⟨s, fun _ => false⟩).state).res = .error .throw) := by
  obtain ⟨s₀, hopen, hbuilt⟩ := Built.fresh (bufferSize_lt hint)
  rw [hopen, Option.bind_some] at hrun
  obtain ⟨segs, w, hr⟩ := (hbuilt.run hops hrun).readable
  exact c.leavesUsable_iff (o := ⟨s, fun _ => false⟩) hr (good_mk s) (hr.entries_eq ▸ hroom)

/-- Three entries, the last of them in memory. -/
theorem reads_leave_usable_iff_three :
    let ops : List StoreOp := [.append ⟨1, [5], .appLog⟩, .append ⟨1, [], .conf⟩, .append ⟨2, [6, 7], .appLog⟩]
    ∃ s, (FsLogStore.openOn {} 1).bind (·.run ops) = some s ∧
      ∀ c : ReadCall, (LeavesUsable ⟨s, fun _ => false⟩ c.perform ↔ c.Harmless s) ∧
        (¬ c.Harmless s → (c.perform ⟨s, fun _ => false⟩).res = .error .outOfBounds ∨
          ∀ e, (append e (c.perform ⟨s, fun _ => false⟩).state).res = .error .throw) :=
  ⟨_, rfl, fun c => @reads_leave_usable_iff 1 _
    [.append ⟨1, [5], .appLog⟩, .append ⟨1, [], .conf⟩, .append ⟨2, [6, 7], .appLog⟩] (by decide) (by decide) rfl
    (by decide) c⟩

/-- The term at `next_slot` is asked for: it throws, and so does the next append. -/
theorem reads_leave_usable_fails :
    ∃ s, (FsLogStore.openOn {} 1).bind (·.run [.append ⟨1, [5], .appLog⟩]) = some s ∧ s.nextSlot = 2 ∧
      ¬ LeavesUsable ⟨s, fun _ => false⟩ (ReadCall.termAt 2).perform := by
  refine ⟨_, rfl, by decide, fun hleaves => ?_⟩
  have hsame := congrArg Outcome.res (hleaves.later (append ⟨1, [], .appLog⟩))
  have hthrows : ∀ n : Nat, (Except.error StoreStop.throw : Except StoreStop Nat) ≠ .ok n := fun n => by simp
  exact hthrows 2 hsame

end Cornerstone
