import Cornerstone.WireBlocks

/-! # What a session makes of any bytes

The log data of a request comes from whoever connects.  The fields of an entry's header
are read with a look at how many bytes are left; the payload is copied without one.  So
the loop is sound as long as no entry it comes to announces a payload larger than what
follows it.
-/

namespace Cornerstone
open LittleEndian

/-- The log data of a session once it has arrived, and the parsing loop over it. -/
def parseLogData (bytes : Bytes) : Except Stop (List BlockLogEntry × Block) := do
  let logData ← orThrow (Block.alloc bytes.length)
  let logData ← logData.fill bytes
  let data := logData.setPos 0
  readEntriesBlock data.size data

/-- The loop of the client's `send` makes these bytes of the entries. -/
def EncodesAs (es : List BlockLogEntry) (bytes : Bytes) : Prop :=
  ∃ bufs own, sendEntries es 0 = some (bufs, (bytes.length : Int), own) ∧ bufs.flatMap Block.contents = bytes

/-- The loop throws, or its entries are the whole of the bytes. -/
def ParsesSafely (bytes : Bytes) : Prop :=
  parseLogData bytes = .error .throw ∨ ∃ es b, parseLogData bytes = .ok (es, b) ∧ EncodesAs es bytes

/-- The header of an entry with a payload of this size. -/
def entryHeader (term : Nat) (valType : UInt8) (size : Int) : Bytes :=
  leBytes 8 term ++ (valType :: putInt size)

/-- Behind some whole entries comes a header that announces more bytes than follow. -/
def Overruns (bytes : Bytes) : Prop :=
  ∃ (es : List LogEntry) (term : Nat) (valType : UInt8) (size : Nat) (rest : Bytes),
    (∀ e ∈ es, e.Fits) ∧ term < ulongSize ∧ 2 * size < uintSize ∧ rest.length < size ∧
      bytes = es.flatMap LogEntry.frame ++ (entryHeader term valType size ++ rest)

/-! ## One round -/

theorem exists_front {bs : Bytes} {n : Nat} (h : n ≤ bs.length) :
    ∃ front rest, bs = front ++ rest ∧ front.length = n :=
  ⟨bs.take n, bs.drop n, (List.take_append_drop n bs).symm, List.length_take_of_le h⟩

/-- Four bytes are an `int32`. -/
theorem exists_putInt {bs : Bytes} (h : bs.length = 4) :
    ∃ i, Int.bmod i uintSize = i ∧ bs = putInt i := by
  have hlt := leNat_lt bs
  have hle := leBytes_leNat bs
  rw [h] at hlt hle
  refine ⟨int32OfUlong (leNat bs), by rw [int32OfUlong, Int.bmod_bmod], ?_⟩
  rw [putInt, int32OfUlong, Int.bmod_emod, ← Int.natCast_mod, Int.toNat_natCast,
    Nat.mod_eq_of_lt (by rwa [uintSize_eq]), hle]

/-- Thirteen bytes are the header of some entry. -/
theorem exists_entryHeader {bs : Bytes} (h : 13 ≤ bs.length) :
    ∃ term valType size rest, term < ulongSize ∧ Int.bmod size uintSize = size ∧
      bs = entryHeader term valType size ++ rest := by
  obtain ⟨front, bs', rfl, hfront⟩ := exists_front (show 8 ≤ bs.length by omega)
  rw [List.length_append, hfront] at h
  obtain ⟨valType, bs'', rfl⟩ : ∃ x l, bs' = x :: l := List.exists_cons_of_length_pos (by omega)
  rw [List.length_cons] at h
  obtain ⟨field, rest, rfl, hfield⟩ := exists_front (show 4 ≤ bs''.length by omega)
  obtain ⟨size, hsize, rfl⟩ := exists_putInt hfield
  have hterm : leBytes 8 (leNat front) = front := by
    rw [← hfront, leBytes_leNat]
  have hlt : leNat front < ulongSize := by
    rw [ulongSize_eq, ← hfront]
    exact leNat_lt front
  refine ⟨leNat front, valType, size, rest, hlt, hsize, ?_⟩
  simp only [entryHeader, hterm, List.append_assoc, List.cons_append]

section
variable {t : Tape} {rest : Bytes}

/-- Where the bytes run out a field is not read. -/
theorem take_none {k : Nat} (h : t.after.length < k) : t.layout.take k = none := by
  rw [Block.take, Tape.layout_avail, if_pos h]

/-- Fewer than thirteen bytes are no header. -/
theorem readEntryBlock_short (h : t.after.length < 13) : readEntryBlock t.layout = .error .throw := by
  rcases Nat.lt_or_ge t.after.length 8 with hlt | hge
  · have hnone : t.layout.getULong = none := by rw [Block.getULong, take_none hlt, Option.map_none]
    simp only [readEntryBlock, hnone, orThrow, bind, Except.bind]
  obtain ⟨front, r, hfront, hlen⟩ := exists_front hge
  have hread : readLE 8 t.after = some (leNat front, r) := by
    rw [hfront, readLE, ← hlen, readBytes_append, Option.map_some]
  obtain ⟨-, u, hterm, -, hu⟩ := tracks_getULong t _ _ hread
  rw [hfront, List.length_append, hlen] at h
  rcases r with - | ⟨x, r⟩
  · have hnone : u.layout.getByte = none := by
      rw [Block.getByte, take_none (by rw [hu]; exact Nat.one_pos), Option.map_none]
    simp only [readEntryBlock, hterm, hnone, orThrow, bind, Except.bind]
  · obtain ⟨-, v, htype, -, hv⟩ := getByte_reads hu
    have hnone : v.layout.getInt = none := by
      rw [List.length_cons] at h
      rw [Block.getInt, take_none (by rw [hv]; omega), Option.map_none]
    simp only [readEntryBlock, hterm, htype, hnone, orThrow, bind, Except.bind]

/-- A negative size is far above what `alloc` allows. -/
theorem alloc_negative {size : Int} (hsize : Int.bmod size uintSize = size) (h : size < 0) :
    Block.alloc (ulongOfInt size) = none := by
  have hge : -2147483648 ≤ size := by
    rw [← hsize]
    exact Int.le_bmod (by norm_num [uintSize])
  have hlarge : bufferLimit ≤ ulongOfInt size := by
    simp only [ulongOfInt, ulongSize, bufferLimit]
    omega
  rw [Block.alloc, if_pos hlarge]

/-- What one round makes of a header and the bytes behind it. -/
theorem readEntryBlock_header {term : Nat} {valType : UInt8} {size : Int} (hterm : term < ulongSize)
    (hsize : Int.bmod size uintSize = size) (ht : t.after = entryHeader term valType size ++ rest) :
    (size < 0 → readEntryBlock t.layout = .error .throw) ∧
      (0 ≤ size → (rest.length : Int) < size → readEntryBlock t.layout = .error .fault) := by
  simp only [entryHeader, List.append_assoc, List.cons_append] at ht
  obtain ⟨-, u₁, hread₁, -, h₁⟩ := reads_uLong hterm ht
  obtain ⟨-, u₂, hread₂, -, h₂⟩ := getByte_reads h₁
  obtain ⟨-, u₃, hread₃, -, h₃⟩ := reads_int hsize h₂
  constructor
  · intro hneg
    simp only [readEntryBlock, hread₁, hread₂, hread₃, alloc_negative hsize hneg, orThrow, bind, Except.bind]
  · intro hpos hover
    obtain ⟨n, rfl⟩ := Int.eq_ofNat_of_zero_le hpos
    have hlt : n < bufferLimit := by
      have hle : Int.bmod (n : Int) uintSize ≤ 2147483647 := by
        have := Int.bmod_lt (x := (n : Int)) (m := uintSize) (by norm_num [uintSize])
        norm_num [uintSize] at this ⊢
        omega
      rw [hsize] at hle
      simp only [bufferLimit]
      omega
    have hulong : ulongOfInt (n : Int) = n := ulongOfInt_natCast (hlt.trans (by decide))
    obtain ⟨dst, hdst, -⟩ := Block.alloc_filling hlt
    obtain ⟨-, havail, -⟩ := Block.alloc_room hlt hdst
    have hget : u₃.layout.getBuffer dst = .error .fault := by
      rw [Block.getBuffer, Tape.layout_data, h₃, havail, if_pos (by omega)]
    simp only [readEntryBlock, hread₁, hread₂, hread₃, hulong, hdst, hget, orThrow, bind, Except.bind]

/-! ## The loop -/

theorem LogEntry.ReadAs.sound {e : LogEntry} {e' : BlockLogEntry} (h : e.ReadAs e') : e'.buff.Sound := by
  obtain ⟨t, ht, -⟩ := h.buff
  exact ⟨t, ht⟩

theorem LogEntry.ReadAs.bytes_eq {e : LogEntry} {e' : BlockLogEntry} (h : e.ReadAs e') : e'.bytes = e := by
  have hbuf : e'.buff.contents = e.buf := by
    obtain ⟨t, ht, hbefore, hafter⟩ := h.buff
    rw [ht, t.layout_contents, hbefore, hafter, List.nil_append]
  rw [BlockLogEntry.bytes, h.term, h.valType, hbuf]

/-- A header with as many bytes behind it as it announces is that of an entry. -/
theorem exists_frame {bs : Bytes} {term : Nat} {valType : UInt8} {n : Nat} (hterm : term < ulongSize)
    (hsize : 2 * n < uintSize) (hbs : bs = entryHeader term valType n ++ rest) (h : n ≤ rest.length) :
    ∃ (e : LogEntry) (rest' : Bytes), e.Fits ∧ bs = e.frame ++ rest' := by
  obtain ⟨buf, rest', rfl, rfl⟩ := exists_front h
  refine ⟨⟨term, buf, LogValType.ofByte valType⟩, rest', ⟨hterm, ?_, hsize⟩, ?_⟩
  · exact congrArg LogValType.ofByte (LogValType.toByte_ofByte valType)
  · simp only [hbs, entryHeader, LogEntry.frame, LogValType.toByte_ofByte, List.append_assoc, List.cons_append]

theorem Overruns.cons {e : LogEntry} (he : e.Fits) (h : Overruns rest) : Overruns (e.frame ++ rest) := by
  obtain ⟨es, term, valType, size, rest', hes, hterm, hsize, hover, rfl⟩ := h
  refine ⟨e :: es, term, valType, size, rest', ?_, hterm, hsize, hover, ?_⟩
  · intro e' he'
    rcases List.mem_cons.mp he' with rfl | he'
    · exact he
    · exact hes e' he'
  · rw [List.flatMap_cons, List.append_assoc]

/-- **What the loop makes of any bytes**: entries that these are the encoding of, an
exception, or a copy from behind the block, and that only where a header announces more
than follows. -/
theorem readEntriesBlock_cases : ∀ {fuel : Nat} {t : Tape}, t.after.length ≤ fuel →
    (∃ es b, readEntriesBlock fuel t.layout = .ok (es, b) ∧ (∀ e ∈ es, e.buff.Sound) ∧
      (es.flatMap fun e => e.bytes.frame) = t.after) ∨
    readEntriesBlock fuel t.layout = .error .throw ∨
    readEntriesBlock fuel t.layout = .error .fault ∧ Overruns t.after := by
  intro fuel
  induction fuel with
  | zero =>
    intro t hfuel
    have hnil : t.after = [] := List.length_eq_zero_iff.mp (Nat.le_zero.mp hfuel)
    have hend : ¬ t.layout.size > t.layout.pos := fun hmore => more_iff.mp hmore hnil
    refine .inl ⟨[], t.layout, ?_, by simp, by rw [hnil, List.flatMap_nil]⟩
    rw [readEntriesBlock, if_neg hend]
  | succ fuel ih =>
    intro t hfuel
    by_cases hnil : t.after = []
    · have hend : ¬ t.layout.size > t.layout.pos := fun hmore => more_iff.mp hmore hnil
      refine .inl ⟨[], t.layout, ?_, by simp, by rw [hnil, List.flatMap_nil]⟩
      rw [readEntriesBlock, if_neg hend]
    have hstop : ∀ s, readEntryBlock t.layout = .error s → readEntriesBlock (fuel + 1) t.layout = .error s := by
      intro s hs
      rw [readEntriesBlock, if_pos (more_iff.mpr hnil)]
      simp only [hs, bind, Except.bind]
    rcases Nat.lt_or_ge t.after.length 13 with hshort | hlong
    · exact .inr (.inl (hstop _ (readEntryBlock_short hshort)))
    obtain ⟨term, valType, size, rest, hterm, hsize, ht⟩ := exists_entryHeader hlong
    obtain ⟨hneg, hover⟩ := readEntryBlock_header hterm hsize ht
    rcases lt_or_ge size 0 with hlt | hge
    · exact .inr (.inl (hstop _ (hneg hlt)))
    obtain ⟨n, rfl⟩ := Int.eq_ofNat_of_zero_le hge
    have hn : 2 * n < uintSize := by
      have hlt := Int.bmod_lt (x := (n : Int)) (m := uintSize) (by norm_num [uintSize])
      rw [hsize] at hlt
      norm_num [uintSize] at hlt ⊢
      omega
    rcases Nat.lt_or_ge rest.length n with hshort | hfull
    · refine .inr (.inr ⟨hstop _ (hover hge (by omega)), [], term, valType, n, rest, by simp, hterm, hn, hshort, ?_⟩)
      rw [ht, List.flatMap_nil, List.nil_append]
    -- a whole entry, and then the rest by induction
    obtain ⟨e, rest', hfits, hframe⟩ := exists_frame hterm hn ht hfull
    obtain ⟨e', u, hread, hsame, hu⟩ := readEntryBlock_run hfits hframe
    have hless : u.after.length ≤ fuel := by
      rw [hframe, List.length_append, LogEntry.frame_length] at hfuel
      rw [hu]
      omega
    have hgo : readEntriesBlock (fuel + 1) t.layout =
        (readEntriesBlock fuel u.layout).map fun p => (e' :: p.1, p.2) := by
      rw [readEntriesBlock, if_pos (more_iff.mpr hnil)]
      simp only [hread, bind, Except.bind]
      cases readEntriesBlock fuel u.layout <;> rfl
    rcases ih hless with ⟨es, b, hrun, hsound, hbytes⟩ | hrun | ⟨hrun, hover⟩
    · refine .inl ⟨e' :: es, b, by rw [hgo, hrun, Except.map], ?_, ?_⟩
      · intro x hx
        rcases List.mem_cons.mp hx with rfl | hx
        · exact hsame.sound
        · exact hsound x hx
      · rw [List.flatMap_cons, hbytes, hsame.bytes_eq, hu, hframe]
    · exact .inr (.inl (by rw [hgo, hrun, Except.map]))
    · refine .inr (.inr ⟨by rw [hgo, hrun, Except.map], ?_⟩)
      rw [hframe]
      exact .cons hfits (hu ▸ hover)

/-- Behind whole entries the loop comes to the header that announces too much. -/
theorem readEntriesBlock_fault {es : List LogEntry} {term : Nat} {valType : UInt8} {size : Nat}
    (hes : ∀ e ∈ es, e.Fits) (hterm : term < ulongSize) (hsize : 2 * size < uintSize) (hover : rest.length < size) :
    ∀ {fuel : Nat} {t : Tape}, t.after = es.flatMap LogEntry.frame ++ (entryHeader term valType size ++ rest) →
      t.after.length ≤ fuel → readEntriesBlock fuel t.layout = .error .fault := by
  have hheader : 0 < (entryHeader term valType size ++ rest).length := by
    simp only [entryHeader, List.length_append, List.length_cons]
    omega
  induction es with
  | nil =>
    intro fuel t ht hfuel
    rw [List.flatMap_nil, List.nil_append] at ht
    rw [← ht] at hheader
    obtain ⟨fuel, rfl⟩ := Nat.exists_eq_succ_of_ne_zero (Nat.ne_of_gt (hheader.trans_le hfuel))
    have hfault := (readEntryBlock_header hterm (bmod_natCast hsize) ht).2 (by omega) (by omega)
    rw [readEntriesBlock, if_pos (more_iff.mpr (List.length_pos_iff.mp hheader))]
    simp only [hfault, bind, Except.bind]
  | cons e es ih =>
    intro fuel t ht hfuel
    rw [List.flatMap_cons, List.append_assoc] at ht
    have hlen : t.after.length = 13 + e.buf.length +
        (es.flatMap LogEntry.frame ++ (entryHeader term valType size ++ rest)).length := by
      rw [ht, List.length_append, LogEntry.frame_length]
    obtain ⟨fuel, rfl⟩ := Nat.exists_eq_succ_of_ne_zero (show fuel ≠ 0 by omega)
    obtain ⟨e', u, hread, -, hu⟩ := readEntryBlock_run (hes e List.mem_cons_self) ht
    have hless : u.after.length ≤ fuel := by
      rw [hu]
      omega
    have hrest := ih (fun x hx => hes x (List.mem_cons_of_mem _ hx)) hu hless
    rw [readEntriesBlock, if_pos (more_iff.mpr (List.length_pos_iff.mp (by omega)))]
    simp only [hread, hrest, bind, Except.bind]

/-- The client makes of sound entries what they are read from. -/
theorem encodesAs_of_frames {es : List BlockLogEntry} {bytes : Bytes} (hsound : ∀ e ∈ es, e.buff.Sound)
    (hbytes : (es.flatMap fun e => e.bytes.frame) = bytes) (h : bytes.length < bufferLimit) : EncodesAs es bytes := by
  have hlen : logDataSize es = bytes.length := by rw [← frames_length hsound, hbytes]
  obtain ⟨bufs, own, hrun, hall⟩ := sendEntries_run (n := 0) hsound (by rwa [Nat.zero_add, hlen])
  rw [Nat.zero_add, hlen] at hrun
  refine ⟨bufs, own, hrun, ?_⟩
  rw [← hbytes]
  clear hrun hlen hbytes hsound
  induction hall with
  | nil => rfl
  | @cons e b es bufs hb _ ih =>
    have hcontents : b.contents = e.bytes.frame := by
      obtain ⟨t, ht, hbefore, hafter⟩ := hb
      rw [ht, t.layout_contents, hbefore, hafter, List.nil_append]
    rw [List.flatMap_cons, List.flatMap_cons, hcontents, ih]

end

/-- The loop over received bytes goes over a buffer that holds them. -/
theorem parseLogData_run {bytes : Bytes} (h : bytes.length < bufferLimit) :
    ∃ t : Tape, t.after = bytes ∧ parseLogData bytes = readEntriesBlock t.after.length t.layout := by
  obtain ⟨b, b', halloc, hfill, hholds⟩ := Block.fill_fresh h
  obtain ⟨t, ht, -, hafter⟩ := hholds.rewound
  have hsize : (b'.setPos 0).size = t.after.length := by rw [hholds.rewound.size, hafter]
  refine ⟨t, hafter, ?_⟩
  simp only [parseLogData, halloc, hfill, hsize, orThrow, bind, Except.bind]
  rw [ht]

/-- A header that announces too much has the loop copy from behind the block. -/
theorem Overruns.not_safe {bytes : Bytes} (hover : Overruns bytes) (h : bytes.length < bufferLimit) :
    ¬ ParsesSafely bytes := by
  obtain ⟨t, hafter, hrun⟩ := parseLogData_run h
  obtain ⟨es, term, valType, size, rest, hes, hterm, hsize, hshort, hform⟩ := hover
  have hfault := readEntriesBlock_fault hes hterm hsize hshort (hafter.trans hform) le_rfl
  rw [ParsesSafely, hrun, hfault]
  rintro (hthrow | ⟨es', b, hok, -⟩)
  · cases hthrow
  · cases hok

theorem maxLogDataSize_lt {bytes : Bytes} (h : (bytes.length : Int) ≤ maxLogDataSize) :
    bytes.length < bufferLimit := by
  simp only [maxLogDataSize, bufferLimit] at *
  omega

/-- **Log data is parsed safely exactly if no header that the loop comes to announces more
bytes than follow it.** -/
theorem parses_safely_iff {bytes : Bytes} (h : (bytes.length : Int) ≤ maxLogDataSize) :
    ParsesSafely bytes ↔ ¬ Overruns bytes := by
  have hlt := maxLogDataSize_lt h
  constructor
  · intro hsafe hover
    exact hover.not_safe hlt hsafe
  · intro hnone
    obtain ⟨t, hafter, hrun⟩ := parseLogData_run hlt
    rw [ParsesSafely, hrun]
    rcases readEntriesBlock_cases (t := t) le_rfl with ⟨es, b, hok, hsound, hbytes⟩ | hthrow | ⟨-, hover⟩
    · exact .inr ⟨es, b, hok, encodesAs_of_frames hsound (hbytes.trans hafter) hlt⟩
    · exact .inl hthrow
    · exact absurd (hafter ▸ hover) hnone

/-- Two bytes behind a header that announces them. -/
def wholeEntry : Bytes := entryHeader 1 1 2 ++ [7, 8]

theorem parses_safely_iff_whole : ParsesSafely wholeEntry ↔ ¬ Overruns wholeEntry :=
  parses_safely_iff (by decide)

/-- Two bytes behind a header that announces three. -/
def cutEntry : Bytes := entryHeader 1 1 3 ++ [7, 8]

/-- **Memory behind the log data reaches an entry.** -/
theorem parses_safely_fails :
    ¬ ∀ bytes : Bytes, (bytes.length : Int) ≤ maxLogDataSize → ParsesSafely bytes := by
  intro h
  have hover : Overruns cutEntry :=
    ⟨[], 1, 1, 3, [7, 8], by simp, by norm_num [ulongSize], by norm_num [uintSize], by decide, rfl⟩
  exact hover.not_safe (by decide) (h cutEntry (by decide))

end Cornerstone
