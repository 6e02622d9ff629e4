import Cornerstone.BufferBlock

/-! # Serialized forms in the memory of a buffer

`serialize` and `deserialize` as they work on buffers: a form is put together from the
buffers of its parts, and read by moving the cursor.  None of the nested forms carries its
length, so each reader has to stop where its writer did.  The readers here follow those on
byte strings (`Tracks`), from which the round trips are taken.
-/

namespace Cornerstone
open LittleEndian

/-- `snapshot_sync_req`, with the buffer of its data. -/
structure BlockSyncReq where
  snapshot : Snapshot
  offset : Nat
  data : Block
  done : Bool

/-- `log_entry`, with its buffer, which is not nil. -/
structure BlockLogEntry where
  term : Nat
  buff : Block
  valType : LogValType

/-! ## Writing -/

/-- `srv_config::serialize`. -/
def SrvConfig.serializeBlock (c : SrvConfig) : Option Block := do
  let buf ← Block.alloc (4 + c.endpoint.length + 1)
  let buf ← buf.putInt c.id
  let buf ← buf.putStr c.endpoint
  return buf.setPos 0

/-- The loop that puts the buffers of the servers behind each other. -/
def putBuffers : List Block → Block → Option Block
  | [], result => some result
  | buff :: buffs, result => do
    let result ← result.putBuffer buff
    putBuffers buffs result

/-- `cluster_config::serialize`. -/
def ClusterConfig.serializeBlock (c : ClusterConfig) : Option Block := do
  let srvBuffs ← c.servers.mapM SrvConfig.serializeBlock
  let result ← Block.alloc (2 * 8 + 4 + (srvBuffs.map Block.size).sum)
  let result ← result.putULong c.logIdx
  let result ← result.putULong c.prevLogIdx
  let result ← result.putInt c.servers.length
  let result ← putBuffers srvBuffs result
  return result.setPos 0

/-- `snapshot::serialize`. -/
def Snapshot.serializeBlock (s : Snapshot) : Option Block := do
  let confBuf ← s.lastConfig.serializeBlock
  let buf ← Block.alloc (confBuf.size + 8 * 3)
  let buf ← buf.putULong s.lastLogIdx
  let buf ← buf.putULong s.lastLogTerm
  let buf ← buf.putULong s.size
  let buf ← buf.putBuffer confBuf
  return buf.setPos 0

/-- `snapshot_sync_req::serialize`. -/
def BlockSyncReq.serialize (r : BlockSyncReq) : Option Block := do
  let snpBuf ← r.snapshot.serializeBlock
  let buf ← Block.alloc (snpBuf.size + 8 + 1 + r.data.avail)
  let buf ← buf.putBuffer snpBuf
  let buf ← buf.putULong r.offset
  let buf ← buf.putByte (if r.done then 1 else 0)
  let buf ← buf.putBuffer r.data
  return buf.setPos 0

/-- `log_entry::serialize`, which takes the cursor of the entry's own buffer back. -/
def BlockLogEntry.serialize (e : BlockLogEntry) : Option (Block × BlockLogEntry) := do
  let e := { e with buff := e.buff.setPos 0 }
  let buf ← Block.alloc (8 + 1 + e.buff.size)
  let buf ← buf.putULong e.term
  let buf ← buf.putByte e.valType.toByte
  let buf ← buf.putBuffer e.buff
  return (buf.setPos 0, e)

/-! ## Reading -/

/-- `srv_config::deserialize`; where `get_str` answers `nilptr` there is no server. -/
def SrvConfig.deserializeBlock (b : Block) : Option (SrvConfig × Block) := do
  let (id, b) ← b.getInt
  let (endpoint, b) ← b.getStr
  return (⟨id, endpoint⟩, b)

/-- The `while (cnt-- > 0)` loop of `cluster_config::deserialize`. -/
def readServersBlock : Nat → Block → Option (List SrvConfig × Block)
  | 0, b => some ([], b)
  | cnt + 1, b => do
    let (srv, b) ← SrvConfig.deserializeBlock b
    let (srvs, b) ← readServersBlock cnt b
    return (srv :: srvs, b)

/-- `cluster_config::deserialize`. -/
def ClusterConfig.deserializeBlock (b : Block) : Option (ClusterConfig × Block) := do
  let (logIdx, b) ← b.getULong
  let (prevLogIdx, b) ← b.getULong
  let (cnt, b) ← b.getInt
  let (servers, b) ← readServersBlock cnt.toNat b
  return (⟨logIdx, prevLogIdx, servers⟩, b)

/-- `snapshot::deserialize`. -/
def Snapshot.deserializeBlock (b : Block) : Option (Snapshot × Block) := do
  let (lastLogIdx, b) ← b.getULong
  let (lastLogTerm, b) ← b.getULong
  let (size, b) ← b.getULong
  let (conf, b) ← ClusterConfig.deserializeBlock b
  return (⟨lastLogIdx, lastLogTerm, size, conf⟩, b)

/-- The buffer `snapshot_sync_req::deserialize` makes of whatever remains. -/
def Block.remaining (b : Block) : Option Block :=
  if b.pos < b.size then do
    let data ← Block.alloc b.avail
    return data.store (b.data.take b.avail)
  else
    Block.alloc 0

/-- `snapshot_sync_req::deserialize`. -/
def BlockSyncReq.deserialize (b : Block) : Option (BlockSyncReq × Block) := do
  let (snp, b) ← Snapshot.deserializeBlock b
  let (offset, b) ← b.getULong
  let (done, b) ← b.getByte
  let data ← b.remaining
  return (⟨snp, offset, data, done = 1⟩, b)

/-- `log_entry::deserialize`. -/
def BlockLogEntry.deserialize (b : Block) : Option (BlockLogEntry × Block) := do
  let (term, b) ← b.getULong
  let (t, b) ← b.getByte
  let data ← b.copy
  return (⟨term, data, LogValType.ofByte t⟩, b)

/-- `log_entry::term_in_buffer`. -/
def termInBuffer (b : Block) : Option (Nat × Block) := do
  let (term, b) ← b.getULong
  return (term, b.setPos 0)

/-! ## What a block holds -/

/-- A buffer with its cursor at the start of some bytes. -/
def Block.Holds (b : Block) (bs : Bytes) : Prop := ∃ t : Tape, b = t.layout ∧ t.before = [] ∧ t.after = bs

/-- A buffer with some bytes put into it, and room for as many more. -/
def Block.Filling (b : Block) (bs : Bytes) (room : Nat) : Prop :=
  ∃ t : Tape, b = t.layout ∧ t.before = bs ∧ t.after.length = room

namespace Block
variable {b : Block} {bs : Bytes} {room : Nat}

theorem Holds.size (h : b.Holds bs) : b.size = bs.length := by
  obtain ⟨t, rfl, hbefore, hafter⟩ := h
  rw [Tape.layout_size, Tape.size, hbefore, hafter, List.length_nil, Nat.zero_add]

theorem Holds.rewound (h : b.Holds bs) : (b.setPos 0).Holds bs := by
  obtain ⟨t, rfl, hbefore, hafter⟩ := h
  refine ⟨t.rewind, t.layout_rewind, rfl, ?_⟩
  show t.before ++ t.after = bs
  rw [hbefore, hafter, List.nil_append]

/-- What `put(const buffer&)` takes of a buffer. -/
theorem Holds.data (h : b.Holds bs) : b.data.take b.avail = bs := by
  obtain ⟨t, rfl, hbefore, hafter⟩ := h
  rw [Tape.layout_data, Tape.layout_avail, hafter, List.take_length]

/-- The bytes of a buffer with its cursor at the start. -/
theorem Holds.bytes (h : b.Holds bs) : b.data.take b.size = bs := by
  rw [h.size]
  obtain ⟨t, rfl, hbefore, hafter⟩ := h
  rw [Tape.layout_data, hafter, List.take_length]

theorem alloc_filling {n : Nat} (h : n < bufferLimit) : ∃ b, alloc n = some b ∧ b.Filling [] n := by
  obtain ⟨t, hrun, hbefore, hafter⟩ := Tape.layout_alloc h
  exact ⟨_, hrun, t, rfl, hbefore, by rw [hafter, List.length_replicate]⟩

theorem alloc_room {n : Nat} (h : n < bufferLimit) (hb : alloc n = some b) :
    b.size = n ∧ b.avail = n ∧ b.data.length = n := by
  obtain ⟨t, hrun, hbefore, hafter⟩ := Tape.layout_alloc h
  obtain rfl : b = t.layout := Option.some.inj (hb.symm.trans hrun)
  have hlen : t.after.length = n := by rw [hafter, List.length_replicate]
  refine ⟨?_, ?_, ?_⟩
  · rw [Tape.layout_size, Tape.size, hbefore, hlen, List.length_nil, Nat.zero_add]
  · rw [Tape.layout_avail, hlen]
  · rw [Tape.layout_data, hlen]

/-- A fresh buffer filled from its start, with the cursor still there. -/
theorem alloc_store (h : bs.length < bufferLimit) : ∃ b, alloc bs.length = some b ∧ (b.store bs).Holds bs := by
  obtain ⟨t, hrun, hbefore, hafter⟩ := Tape.layout_alloc h
  let u : Tape := ⟨[], bs, by simpa using h⟩
  have hstore : t.layout.store bs = u.layout :=
    t.layout_store hbefore.symm (List.append_nil bs).symm (hafter.trans (List.append_nil _).symm)
      List.length_replicate
  exact ⟨t.layout, hrun, u, hstore, rfl, rfl⟩

/-- Putting bytes into a buffer with room for them. -/
theorem Filling.put {done : Bytes} (h : b.Filling done (bs.length + room)) :
    ∃ b', b.put bs = some b' ∧ b'.Filling (done ++ bs) room := by
  obtain ⟨t, rfl, hbefore, hlen⟩ := h
  have hfits := t.fits
  let u : Tape := ⟨t.before ++ bs, t.after.drop bs.length, by
    rw [List.length_append, List.length_drop]
    omega⟩
  have hwritten : Tape.Written t bs u :=
    ⟨rfl, t.after.take bs.length, (List.take_append_drop _ _).symm, by rw [List.length_take]; omega⟩
  refine ⟨_, t.layout_put hwritten, u, rfl, by rw [← hbefore], ?_⟩
  show (t.after.drop bs.length).length = room
  rw [List.length_drop]
  omega

/-- A full buffer with its cursor taken back. -/
theorem Filling.finish (h : b.Filling bs 0) : (b.setPos 0).Holds bs := by
  obtain ⟨t, rfl, hbefore, hlen⟩ := h
  have hnil : t.after = [] := List.length_eq_zero_iff.mp hlen
  refine ⟨t.rewind, t.layout_rewind, rfl, ?_⟩
  show t.before ++ t.after = bs
  rw [hbefore, hnil, List.append_nil]

end Block

/-! ## Writers -/

/-- The rest of a writer: in a buffer with room for just these bytes it puts them, takes
the cursor back, and goes on with the buffer. -/
def Closes {β : Type} (K : Block → Option β) (bs : Bytes) (out : Block → β) : Prop :=
  ∀ (done : Bytes) (b : Block), b.Filling done bs.length → ∃ b', K b = some (out b') ∧ b'.Holds (done ++ bs)

section
variable {α β : Type} {K : Block → Option β} {rest : Bytes} {out : Block → β}

theorem closes_end (out : Block → β) : Closes (fun b => some (out (b.setPos 0))) [] out := by
  intro done b hfill
  refine ⟨b.setPos 0, rfl, ?_⟩
  rw [List.append_nil]
  exact hfill.finish

theorem Closes.put (h : Closes K rest out) (bs : Bytes) :
    Closes (fun b => (b.put bs).bind K) (bs ++ rest) out := by
  intro done b hfill
  rw [List.length_append] at hfill
  obtain ⟨b₁, hb₁, hfill⟩ := hfill.put
  obtain ⟨b', hb', hholds⟩ := h _ b₁ hfill
  refine ⟨b', ?_, ?_⟩
  · show (b.put bs).bind K = _
    rw [hb₁, Option.bind_some, hb']
  · rwa [← List.append_assoc]

theorem Closes.putBuffer {src : Block} {bs : Bytes} (h : Closes K rest out)
    (hsrc : src.data.take src.avail = bs) : Closes (fun b => (b.putBuffer src).bind K) (bs ++ rest) out := by
  subst hsrc
  exact h.put _

/-- The forms of some things, each in a buffer of its own. -/
abbrev HoldEach (form : α → Bytes) (xs : List α) (buffs : List Block) : Prop :=
  List.Forall₂ (fun x b => Block.Holds b (form x)) xs buffs

variable {form : α → Bytes} {xs : List α} {buffs : List Block}

theorem sum_sizes (h : HoldEach form xs buffs) : (buffs.map Block.size).sum = (xs.flatMap form).length := by
  induction h with
  | nil => rfl
  | cons hb _ ih => rw [List.map_cons, List.sum_cons, hb.size, ih, List.flatMap_cons, List.length_append]

/-- The loop puts the forms behind each other. -/
theorem Closes.putBuffers (h : Closes K rest out) (hall : HoldEach form xs buffs) :
    Closes (fun b => (Cornerstone.putBuffers buffs b).bind K) (xs.flatMap form ++ rest) out := by
  induction hall with
  | nil => exact h
  | @cons x buff xs buffs hb _ ih =>
    intro done b hfill
    rw [List.flatMap_cons, List.append_assoc] at hfill ⊢
    obtain ⟨b', hb', hholds⟩ := ih.putBuffer hb.data done b hfill
    refine ⟨b', ?_, hholds⟩
    rw [← hb']
    exact Option.bind_assoc _ _ _

/-- A whole writer: the buffer it allocates is as long as the form. -/
theorem Closes.alloc {n : Nat} {bs bs' : Bytes} (h : Closes K bs out) (hform : bs = bs') (hn : bs'.length = n)
    (hfits : bs'.length < bufferLimit) : ∃ b, (Block.alloc n).bind K = some (out b) ∧ b.Holds bs' := by
  subst hform
  obtain ⟨b, hb, hfill⟩ := Block.alloc_filling (hn ▸ hfits)
  obtain ⟨b', hb', hholds⟩ := h [] b (hn ▸ hfill)
  refine ⟨b', ?_, hholds⟩
  rw [hb, Option.bind_some, hb']

end

theorem srvConfig_writes {c : SrvConfig} (h : c.serialize.length < bufferLimit) :
    ∃ b, c.serializeBlock = some b ∧ b.Holds c.serialize := by
  have hclose := ((closes_end id).put (c.endpoint ++ [0])).put (putInt c.id)
  refine hclose.alloc ?_ ?_ h
  · simp [SrvConfig.serialize]
  · simp only [SrvConfig.serialize, putInt, List.length_append, leBytes_length, List.length_singleton]

/-- The buffers of some servers, one for each. -/
theorem servers_write : ∀ {srvs : List SrvConfig}, (srvs.flatMap SrvConfig.serialize).length < bufferLimit →
    ∃ buffs, srvs.mapM SrvConfig.serializeBlock = some buffs ∧ HoldEach SrvConfig.serialize srvs buffs
  | [], _ => ⟨[], rfl, .nil⟩
  | srv :: srvs, h => by
    rw [List.flatMap_cons, List.length_append] at h
    obtain ⟨b, hb, hholds⟩ := srvConfig_writes (show srv.serialize.length < bufferLimit by omega)
    obtain ⟨buffs, hbuffs, hall⟩ := @servers_write srvs (by omega)
    exact ⟨b :: buffs, by simp [List.mapM_cons, hb, hbuffs], .cons hholds hall⟩

theorem clusterConfig_writes {c : ClusterConfig} (h : c.serialize.length < bufferLimit) :
    ∃ b, c.serializeBlock = some b ∧ b.Holds c.serialize := by
  have hlen : c.serialize.length = 2 * 8 + 4 + (c.servers.flatMap SrvConfig.serialize).length := by
    simp only [ClusterConfig.serialize, putInt, List.length_append, leBytes_length]
    omega
  obtain ⟨buffs, hbuffs, hall⟩ := @servers_write c.servers (by omega)
  have hclose := ((((closes_end id).putBuffers hall).put (putInt c.servers.length)).put
    (leBytes 8 c.prevLogIdx)).put (leBytes 8 c.logIdx)
  rw [ClusterConfig.serializeBlock, hbuffs]
  refine hclose.alloc ?_ ?_ h
  · simp [ClusterConfig.serialize]
  · rw [hlen, sum_sizes hall]

theorem snapshot_writes {s : Snapshot} (h : s.serialize.length < bufferLimit) :
    ∃ b, s.serializeBlock = some b ∧ b.Holds s.serialize := by
  have hlen : s.serialize.length = s.lastConfig.serialize.length + 8 * 3 := by
    simp only [Snapshot.serialize, List.length_append, leBytes_length]
    omega
  have hconfLt : s.lastConfig.serialize.length < bufferLimit := by omega
  obtain ⟨conf, hconf, hholds⟩ := clusterConfig_writes hconfLt
  have hclose := ((((closes_end id).putBuffer hholds.data).put (leBytes 8 s.size)).put
    (leBytes 8 s.lastLogTerm)).put (leBytes 8 s.lastLogIdx)
  rw [Snapshot.serializeBlock, hconf]
  refine hclose.alloc ?_ ?_ h
  · simp [Snapshot.serialize]
  · rw [hlen, hholds.size]

/-- The request as the bytes it stands for. -/
def BlockSyncReq.bytes (r : BlockSyncReq) : SnapshotSyncReq :=
  ⟨r.snapshot, r.offset, r.data.data.take r.data.avail, r.done⟩

theorem syncReq_writes {r : BlockSyncReq} (hdata : r.data.Sound) (h : r.bytes.serialize.length < bufferLimit) :
    ∃ b, r.serialize = some b ∧ b.Holds r.bytes.serialize := by
  obtain ⟨t, ht⟩ := hdata
  have havail : (r.data.data.take r.data.avail).length = r.data.avail := by
    rw [ht, Tape.layout_data, Tape.layout_avail, List.take_length]
  have hlen : r.bytes.serialize.length = r.snapshot.serialize.length + 8 + 1 + r.data.avail := by
    simp only [BlockSyncReq.bytes, SnapshotSyncReq.serialize, List.length_append, leBytes_length,
      List.length_cons, havail]
    omega
  have hsnpLt : r.snapshot.serialize.length < bufferLimit := by omega
  obtain ⟨snp, hsnp, hholds⟩ := snapshot_writes hsnpLt
  have hdata : r.data.data.take r.data.avail = r.bytes.data := rfl
  have hclose := ((((closes_end id).putBuffer hdata).put [if r.done then (1 : UInt8) else 0]).put
    (leBytes 8 r.offset)).putBuffer hholds.data
  rw [BlockSyncReq.serialize, hsnp]
  refine hclose.alloc ?_ ?_ h
  · simp only [SnapshotSyncReq.serialize, BlockSyncReq.bytes, List.singleton_append, List.append_nil]
    rfl
  · rw [hlen, hholds.size]

/-- Writing an entry, whose own buffer is then at its start. -/
theorem logEntry_writes {e : BlockLogEntry} {t : Tape} (ht : e.buff = t.layout)
    (h : 8 + 1 + t.size < bufferLimit) :
    ∃ b, e.serialize = some (b, { e with buff := t.rewind.layout }) ∧
      b.Holds (LogEntry.serialize ⟨e.term, t.before ++ t.after, e.valType⟩) := by
  have hown : t.rewind.layout.Holds (t.before ++ t.after) := ⟨t.rewind, rfl, rfl, rfl⟩
  have hlen : (LogEntry.serialize ⟨e.term, t.before ++ t.after, e.valType⟩).length = 8 + 1 + t.size := by
    simp only [LogEntry.serialize, List.length_append, leBytes_length, List.length_cons, Tape.size]
    omega
  have hback : e.buff.setPos 0 = t.rewind.layout := by rw [ht, t.layout_rewind]
  have hclose := (((closes_end fun b => (b, { e with buff := t.rewind.layout })).putBuffer hown.data).put
    [e.valType.toByte]).put (leBytes 8 e.term)
  rw [BlockLogEntry.serialize, hback]
  refine hclose.alloc ?_ ?_ (hlen ▸ h)
  · simp [LogEntry.serialize]
  · rw [hlen, hown.size, Tape.size, List.length_append]

/-- A buffer with fewer than nine bytes to spare makes an entry that no buffer takes. -/
theorem logEntry_refused {e : BlockLogEntry} {t : Tape} (ht : e.buff = t.layout)
    (h : bufferLimit ≤ 8 + 1 + t.size) : e.serialize = none := by
  have hown : t.rewind.layout.Holds (t.before ++ t.after) := ⟨t.rewind, rfl, rfl, rfl⟩
  have hsize : t.size = (t.before ++ t.after).length := by rw [Tape.size, List.length_append]
  have hnone : Block.alloc (8 + 1 + (t.before ++ t.after).length) = none := by
    rw [Block.alloc, if_pos (hsize ▸ h)]
  simp only [BlockLogEntry.serialize, ht, t.layout_rewind, hown.size, hnone, Option.bind_eq_bind, Option.bind_none]

/-! ## Readers -/

/-- Running on a tape, a reader gives a value and moves the cursor to what is left. -/
def Reads {α : Type} (D : Block → Option (α × Block)) (t : Tape) (a : α) (rest : Bytes) : Prop :=
  ∃ used u, D t.layout = some (a, u.layout) ∧ t.Passes used u ∧ u.after = rest

/-- A reader of a buffer does what a reader of byte strings does behind the cursor. -/
def Tracks {α : Type} (D : Block → Option (α × Block)) (d : Bytes → Option (α × Bytes)) : Prop :=
  ∀ (t : Tape) (a : α) (rest : Bytes), d t.after = some (a, rest) → Reads D t a rest

/-- One reader after the other. -/
theorem Reads.bind {α β : Type} {D : Block → Option (α × Block)} {K : α × Block → Option (β × Block)} {t : Tape}
    {a : α} {c : β} {bs rest : Bytes} (h : Reads D t a bs)
    (h' : ∀ u : Tape, u.after = bs → Reads (fun b => K (a, b)) u c rest) :
    Reads (fun b => (D b).bind K) t c rest := by
  obtain ⟨used, u, hrun, hpass, hafter⟩ := h
  obtain ⟨used', v, hrun', hpass', hafter'⟩ := h' u hafter
  refine ⟨used ++ used', v, ?_, hpass.trans hpass', hafter'⟩
  show (D t.layout).bind K = _
  rw [hrun, Option.bind_some]
  exact hrun'

theorem Reads.pure {α : Type} {t : Tape} {a : α} {rest : Bytes} (h : t.after = rest) :
    Reads (fun b => some (a, b)) t a rest :=
  ⟨[], t, rfl, ⟨(List.append_nil _).symm, rfl⟩, h⟩

/-- A reader of known bytes passes just these. -/
theorem Reads.passes {α : Type} {D : Block → Option (α × Block)} {t : Tape} {a : α} {bs rest : Bytes}
    (h : Reads D t a rest) (hbs : t.after = bs ++ rest) :
    ∃ u, D t.layout = some (a, Tape.layout u) ∧ t.Passes bs u ∧ u.after = rest := by
  obtain ⟨used, u, hrun, hpass, hafter⟩ := h
  have hused : used = bs := by
    have hsame := hpass.after.symm.trans hbs
    rw [hafter] at hsame
    exact List.append_cancel_right hsame
  exact ⟨u, hrun, hused ▸ hpass, hafter⟩

theorem Tracks.bind {α β : Type} {D : Block → Option (α × Block)} {d : Bytes → Option (α × Bytes)}
    {D' : α → Block → Option (β × Block)} {d' : α → Bytes → Option (β × Bytes)} (h : Tracks D d)
    (h' : ∀ a, Tracks (D' a) (d' a)) :
    Tracks (fun b => (D b).bind fun p => D' p.1 p.2) (fun bs => (d bs).bind fun p => d' p.1 p.2) := by
  intro t c rest hrun
  obtain ⟨⟨a, bs⟩, ha, hrest⟩ := Option.bind_eq_some_iff.mp hrun
  refine (h t a bs ha).bind fun u hu => h' a u c rest ?_
  rw [hu]
  exact hrest

theorem Tracks.pure {α : Type} (a : α) : Tracks (fun b => some (a, b)) (fun bs => some (a, bs)) := by
  intro t c rest hrun
  obtain ⟨rfl, hafter⟩ := Prod.mk.inj (Option.some.inj hrun)
  exact Reads.pure hafter

/-- Some bytes are read by moving the cursor behind them. -/
theorem take_reads {t : Tape} {k : Nat} {bs rest : Bytes} (h : readBytes k t.after = some (bs, rest)) :
    ∃ u, t.layout.take k = some (bs, u.layout) ∧ t.Passes bs u ∧ u.after = rest := by
  unfold readBytes at h
  split at h
  · cases h
  · cases h
    obtain ⟨u, hpass, hafter⟩ := Tape.exists_passes (t := t) (List.take_append_drop k t.after).symm
    have hrun := t.layout_take hpass
    rw [List.length_take, Nat.min_eq_left (by omega)] at hrun
    exact ⟨u, hrun, hpass, hafter⟩

theorem tracks_getULong : Tracks Block.getULong (readLE 8) := by
  intro t n rest h
  obtain ⟨⟨bs, rest'⟩, hbs, heq⟩ := Option.map_eq_some_iff.mp h
  cases heq
  obtain ⟨u, hrun, hpass, hafter⟩ := take_reads hbs
  exact ⟨bs, u, by rw [Block.getULong, hrun]; rfl, hpass, hafter⟩

theorem tracks_getInt : Tracks Block.getInt getInt := by
  intro t n rest h
  obtain ⟨⟨m, rest'⟩, hm, heq⟩ := Option.map_eq_some_iff.mp h
  obtain ⟨rfl, rfl⟩ := Prod.mk.inj heq
  obtain ⟨⟨bs, rest''⟩, hbs, heq⟩ := Option.map_eq_some_iff.mp hm
  obtain ⟨rfl, rfl⟩ := Prod.mk.inj heq
  obtain ⟨u, hrun, hpass, hafter⟩ := take_reads hbs
  exact ⟨bs, u, by rw [Block.getInt, hrun, Option.map_some], hpass, hafter⟩

theorem getByte_reads {t : Tape} {x : UInt8} {rest : Bytes} (h : t.after = x :: rest) :
    Reads Block.getByte t x rest := by
  have hread : readBytes 1 t.after = some ([x], rest) := by
    rw [h]
    simp [readBytes]
  obtain ⟨u, hrun, hpass, hafter⟩ := take_reads hread
  exact ⟨[x], u, by rw [Block.getByte, hrun, Option.map_some, List.headD_cons], hpass, hafter⟩

/-- The terminator of a string is passed with it. -/
theorem tracks_getStr : Tracks Block.getStr getStr := by
  intro t str rest h
  simp only [getStr] at h
  split at h
  · cases h
  · rename_i hin
    obtain ⟨rfl, rfl⟩ := Prod.mk.inj (Option.some.inj h)
    rw [not_or] at hin
    set str := t.after.takeWhile (· ≠ 0) with hstr
    have hle : str.length ≤ t.after.length := (List.takeWhile_sublist _).length_le
    have hlen : (t.after.take (str.length + 1)).length = str.length + 1 := by
      rw [List.length_take]
      omega
    obtain ⟨u, hpass, hafter⟩ := Tape.exists_passes (t := t) (List.take_append_drop (str.length + 1) t.after).symm
    have hmv := t.layout_mvFw hpass
    rw [hlen] at hmv
    refine ⟨_, u, ?_, hpass, hafter⟩
    have hgo : ¬ (t.before.length + str.length ≥ t.size ∨ str.length = 0) := by
      have hne : str.length ≠ 0 := fun h0 => hin.2 (List.length_eq_zero_iff.mp h0)
      have hsize : t.size = t.before.length + t.after.length := rfl
      omega
    simp only [Block.getStr, Tape.layout_data, Tape.layout_avail, List.take_length, Tape.layout_pos,
      Tape.layout_size, ← hstr, if_neg hgo, hmv]

/-- Where there is no string, the buffer answers `nilptr`. -/
theorem getStr_none {t : Tape} (h : getStr t.after = none) : t.layout.getStr = none := by
  simp only [getStr] at h
  split at h
  · rename_i hout
    have hsize : t.size = t.before.length + t.after.length := rfl
    have hstop : t.before.length + (t.after.takeWhile (· ≠ 0)).length ≥ t.size ∨
        (t.after.takeWhile (· ≠ 0)).length = 0 := by
      rcases hout with hlen | hnil
      · exact .inl (by omega)
      · exact .inr (List.length_eq_zero_iff.mpr hnil)
    simp only [Block.getStr, Tape.layout_data, Tape.layout_avail, List.take_length, Tape.layout_pos, Tape.layout_size,
      if_pos hstop]
  · cases h

theorem tracks_srvConfig : Tracks SrvConfig.deserializeBlock SrvConfig.deserialize := by
  have hendpoint := fun id => tracks_getStr.bind fun endpoint => Tracks.pure (SrvConfig.mk id endpoint)
  exact tracks_getInt.bind hendpoint

theorem tracks_readServers : ∀ cnt, Tracks (readServersBlock cnt) (ClusterConfig.readServers cnt)
  | 0 => Tracks.pure []
  | cnt + 1 => by
    have hmore := fun srv => (tracks_readServers cnt).bind fun srvs => Tracks.pure (srv :: srvs)
    exact tracks_srvConfig.bind hmore

theorem tracks_clusterConfig : Tracks ClusterConfig.deserializeBlock ClusterConfig.deserialize := by
  have hservers := fun logIdx prevLogIdx (cnt : Int) =>
    (tracks_readServers cnt.toNat).bind fun servers => Tracks.pure (ClusterConfig.mk logIdx prevLogIdx servers)
  have hcnt := fun logIdx prevLogIdx => tracks_getInt.bind (hservers logIdx prevLogIdx)
  exact tracks_getULong.bind fun logIdx => tracks_getULong.bind (hcnt logIdx)

theorem tracks_snapshot : Tracks Snapshot.deserializeBlock Snapshot.deserialize := by
  have hconf := fun lastLogIdx lastLogTerm size =>
    tracks_clusterConfig.bind fun conf => Tracks.pure (Snapshot.mk lastLogIdx lastLogTerm size conf)
  have hsize := fun lastLogIdx lastLogTerm => tracks_getULong.bind (hconf lastLogIdx lastLogTerm)
  exact tracks_getULong.bind fun lastLogIdx => tracks_getULong.bind (hsize lastLogIdx)

/-- `copy` takes what lies behind the cursor. -/
theorem copy_holds (t : Tape) : ∃ b, t.layout.copy = some b ∧ b.Holds t.after := by
  have hlt : t.after.length < bufferLimit := by
    have hfits := t.fits
    omega
  have hsrc : t.layout.data.take t.layout.avail = t.after := by
    rw [Tape.layout_data, Tape.layout_avail, List.take_length]
  have hclose := (closes_end id).putBuffer hsrc
  rw [Block.copy, Tape.layout_avail]
  exact hclose.alloc (List.append_nil _) rfl hlt

theorem remaining_holds (t : Tape) : ∃ b, t.layout.remaining = some b ∧ b.Holds t.after := by
  have hlt : t.after.length < bufferLimit := by
    have hfits := t.fits
    omega
  rw [Block.remaining, Tape.layout_pos, Tape.layout_size, Tape.layout_avail, Tape.layout_data, List.take_length]
  split
  · obtain ⟨b, hb, hholds⟩ := Block.alloc_store hlt
    refine ⟨b.store t.after, ?_, hholds⟩
    rw [hb, Option.bind_eq_bind, Option.bind_some]
    rfl
  · rename_i hfull
    have hnil : t.after = [] := by
      refine List.length_eq_zero_iff.mp ?_
      have hsize : t.size = t.before.length + t.after.length := rfl
      omega
    obtain ⟨u, hu, hbefore, hafter⟩ := Tape.layout_alloc (show 0 < bufferLimit by decide)
    exact ⟨u.layout, hu, u, rfl, hbefore, hafter.trans hnil.symm⟩

/-- A snapshot block is read as its bytes say. -/
theorem syncReq_reads {t : Tape} {q : SnapshotSyncReq} (h : SnapshotSyncReq.deserialize t.after = some q) :
    ∃ r b, BlockSyncReq.deserialize t.layout = some (r, b) ∧ r.snapshot = q.snapshot ∧ r.offset = q.offset ∧
      r.done = q.done ∧ r.data.Holds q.data := by
  obtain ⟨⟨snp, bs₁⟩, h₁, h⟩ := Option.bind_eq_some_iff.mp h
  obtain ⟨⟨offset, bs₂⟩, h₂, h⟩ := Option.bind_eq_some_iff.mp h
  cases bs₂ with
  | nil => cases h
  | cons d data =>
    cases h
    obtain ⟨used₁, u₁, hrun₁, -, hafter₁⟩ := tracks_snapshot t _ _ h₁
    obtain ⟨used₂, u₂, hrun₂, -, hafter₂⟩ := tracks_getULong u₁ _ _ (hafter₁ ▸ h₂)
    obtain ⟨used₃, u₃, hrun₃, -, hafter₃⟩ := getByte_reads hafter₂
    obtain ⟨b, hb, hholds⟩ := remaining_holds u₃
    refine ⟨⟨snp, offset, b, d = 1⟩, u₃.layout, ?_, rfl, rfl, rfl, hafter₃ ▸ hholds⟩
    simp only [BlockSyncReq.deserialize, hrun₁, hrun₂, hrun₃, hb, Option.bind_eq_bind, Option.bind_some]
    rfl

/-- A log entry is read as its bytes say. -/
theorem logEntry_reads {t : Tape} {e : LogEntry} (h : LogEntry.deserialize t.after = some e) :
    ∃ e' b, BlockLogEntry.deserialize t.layout = some (e', b) ∧ e'.term = e.term ∧ e'.valType = e.valType ∧
      e'.buff.Holds e.buf := by
  obtain ⟨⟨term, bs₁⟩, h₁, h⟩ := Option.bind_eq_some_iff.mp h
  cases bs₁ with
  | nil => cases h
  | cons x data =>
    cases h
    obtain ⟨used₁, u₁, hrun₁, -, hafter₁⟩ := tracks_getULong t _ _ h₁
    obtain ⟨used₂, u₂, hrun₂, -, hafter₂⟩ := getByte_reads hafter₁
    obtain ⟨b, hb, hholds⟩ := copy_holds u₂
    refine ⟨⟨term, b, LogValType.ofByte x⟩, u₂.layout, ?_, rfl, rfl, hafter₂ ▸ hholds⟩
    simp only [BlockLogEntry.deserialize, hrun₁, hrun₂, hb, Option.bind_eq_bind, Option.bind_some]
    rfl

/-! ## Round trips -/

/-- A reader that finds what a buffer holds moves the cursor behind it, whatever follows. -/
def ConsumesExactly {α : Type} (D : Block → Option (α × Block)) (x : α) (b : Block) : Prop :=
  ∀ bs, b.Holds bs → ∀ (t : Tape) (rest : Bytes), t.after = bs ++ rest →
    ∃ u, D t.layout = some (x, u.layout) ∧ t.Passes bs u

/-- All bytes of a buffer, wherever its cursor is. -/
def Block.contents (b : Block) : Bytes := (b.setPos 0).data

theorem Tape.layout_contents (t : Tape) : t.layout.contents = t.before ++ t.after := by
  rw [Block.contents, t.layout_rewind, Tape.layout_data]
  rfl

/-- A request whose fields have the ranges of their types and whose encoding fits a buffer. -/
structure BlockSyncReq.Okay (r : BlockSyncReq) : Prop where
  data : r.data.Sound
  offset_lt : r.offset < ulongSize
  lastLogIdx_lt : r.snapshot.lastLogIdx < ulongSize
  lastLogTerm_lt : r.snapshot.lastLogTerm < ulongSize
  size_lt : r.snapshot.size < ulongSize
  logIdx_lt : r.snapshot.lastConfig.logIdx < ulongSize
  prevLogIdx_lt : r.snapshot.lastConfig.prevLogIdx < ulongSize
  servers : ∀ srv ∈ r.snapshot.lastConfig.servers, srv.Valid
  fits : r.bytes.serialize.length < bufferLimit

/-- **The nested round trip**: all fields, the servers in order, and as data what lies
behind the cursor of the data buffer; each part is read by moving the cursor behind it. -/
structure BlockSyncReq.RoundTrip (r : BlockSyncReq) : Prop where
  whole : ∃ b r' b', r.serialize = some b ∧ BlockSyncReq.deserialize b = some (r', b') ∧
    r'.snapshot = r.snapshot ∧ r'.offset = r.offset ∧ r'.done = r.done ∧
      r'.data.Holds (r.data.data.take r.data.avail)
  snapshot : ∃ b, r.snapshot.serializeBlock = some b ∧
    ConsumesExactly Snapshot.deserializeBlock r.snapshot b
  config : ∃ b, r.snapshot.lastConfig.serializeBlock = some b ∧
    ConsumesExactly ClusterConfig.deserializeBlock r.snapshot.lastConfig b
  servers : ∀ srv ∈ r.snapshot.lastConfig.servers, ∃ b, srv.serializeBlock = some b ∧
    ConsumesExactly SrvConfig.deserializeBlock srv b

/-- An entry whose fields have the ranges of their types. -/
structure BlockLogEntry.Okay (e : BlockLogEntry) : Prop where
  buff : e.buff.Sound
  term_lt : e.term < ulongSize
  valType : LogValType.ofByte e.valType.toByte = e.valType

/-- The round trip of an entry, whose term can be read off the first eight bytes. -/
structure BlockLogEntry.RoundTrip (e : BlockLogEntry) : Prop where
  whole : ∃ b own e' b', e.serialize = some (b, own) ∧ BlockLogEntry.deserialize b = some (e', b') ∧
    e'.term = e.term ∧ e'.valType = e.valType ∧ e'.buff.Holds e.buff.contents
  term : ∀ b own, e.serialize = some (b, own) → termInBuffer b = some (e.term, b) ∧
    ∀ t : Tape, t.before = [] → t.after = b.data.take 8 →
      ∃ u : Tape, t.layout.getULong = some (e.term, u.layout)

/-- A reader that tracks one on byte strings consumes exactly what that one does. -/
theorem Tracks.consumes {α : Type} {D : Block → Option (α × Block)} {d : Bytes → Option (α × Bytes)} {x : α}
    {b : Block} {bs : Bytes} (h : Tracks D d) (hb : b.Holds bs) (hd : ∀ rest, d (bs ++ rest) = some (x, rest)) :
    ConsumesExactly D x b := by
  intro bs' hb' t rest hafter
  obtain rfl : bs' = bs := by rw [← hb'.data, hb.data]
  have hread : Reads D t x rest := h t x rest (by rw [hafter]; exact hd rest)
  obtain ⟨u, hrun, hpass, -⟩ := hread.passes hafter
  exact ⟨u, hrun, hpass⟩

/-- Forms take a byte each at least. -/
theorem length_le_flatMap {α : Type} {form : α → Bytes} (hform : ∀ x, 0 < (form x).length) :
    ∀ xs : List α, xs.length ≤ (xs.flatMap form).length
  | [] => Nat.le_refl _
  | x :: xs => by
    have ih := length_le_flatMap hform xs
    have hx := hform x
    rw [List.flatMap_cons, List.length_append, List.length_cons]
    omega

theorem SrvConfig.serialize_pos (c : SrvConfig) : 0 < c.serialize.length := by
  simp only [SrvConfig.serialize, putInt, List.length_append, leBytes_length]
  omega

/-- The encoding of a part is no longer than that of the whole. -/
theorem BlockSyncReq.part_lengths (r : BlockSyncReq) :
    r.snapshot.serialize.length ≤ r.bytes.serialize.length ∧
      r.snapshot.lastConfig.serialize.length ≤ r.bytes.serialize.length ∧
      (r.snapshot.lastConfig.servers.flatMap SrvConfig.serialize).length ≤ r.bytes.serialize.length := by
  simp only [BlockSyncReq.bytes, SnapshotSyncReq.serialize, Snapshot.serialize, ClusterConfig.serialize,
    List.length_append]
  omega

theorem BlockSyncReq.Okay.valid {r : BlockSyncReq} (h : r.Okay) : r.snapshot.Valid := by
  have hlen := length_le_flatMap SrvConfig.serialize_pos r.snapshot.lastConfig.servers
  have hparts := r.part_lengths
  have hfits : r.bytes.serialize.length < 2147483648 := h.fits
  refine ⟨h.lastLogIdx_lt, h.lastLogTerm_lt, h.size_lt, h.logIdx_lt, h.prevLogIdx_lt, ?_, h.servers⟩
  show 2 * r.snapshot.lastConfig.servers.length < 4294967296
  omega

theorem BlockSyncReq.Okay.roundTrip {r : BlockSyncReq} (h : r.Okay) : r.RoundTrip := by
  obtain ⟨hsnp, hconf, hsrvs⟩ := r.part_lengths
  have hvalid := h.valid
  refine ⟨?_, ?_, ?_, fun srv hsrv => ?_⟩
  · obtain ⟨b, hb, t, rfl, hbefore, hafter⟩ := syncReq_writes h.data h.fits
    have hbytes := SnapshotSyncReq.deserialize_serialize (r := r.bytes) hvalid h.offset_lt
    rw [← hafter] at hbytes
    obtain ⟨r', b', hread, hsnp', hoff, hdone, hdata⟩ := syncReq_reads hbytes
    exact ⟨t.layout, r', b', hb, hread, hsnp', hoff, hdone, hdata⟩
  · obtain ⟨b, hb, hholds⟩ := snapshot_writes (hsnp.trans_lt h.fits)
    exact ⟨b, hb, tracks_snapshot.consumes hholds (Snapshot.deserialize_serialize hvalid)⟩
  · obtain ⟨b, hb, hholds⟩ := clusterConfig_writes (hconf.trans_lt h.fits)
    exact ⟨b, hb, tracks_clusterConfig.consumes hholds (ClusterConfig.deserialize_serialize hvalid.lastConfig)⟩
  · have hle : srv.serialize.length ≤ (r.snapshot.lastConfig.servers.flatMap SrvConfig.serialize).length :=
      (List.sublist_flatten_of_mem (List.mem_map_of_mem hsrv)).length_le
    obtain ⟨b, hb, hholds⟩ := srvConfig_writes ((hle.trans hsrvs).trans_lt h.fits)
    exact ⟨b, hb, tracks_srvConfig.consumes hholds (SrvConfig.deserialize_serialize (h.servers srv hsrv))⟩

theorem BlockLogEntry.Okay.roundTrip {e : BlockLogEntry} (h : e.Okay) (hfits : 8 + 1 + e.buff.size < bufferLimit) :
    e.RoundTrip := by
  obtain ⟨t, ht⟩ := h.buff
  rw [ht, Tape.layout_size] at hfits
  obtain ⟨b, hb, u, rfl, hbefore, hafter⟩ := logEntry_writes ht hfits
  have hlt : e.term < 256 ^ 8 := lt_of_lt_of_eq h.term_lt ulongSize_eq
  have hterm := readLE_leBytes 8 e.term hlt (e.valType.toByte :: (t.before ++ t.after))
  have hsplit : u.after = leBytes 8 e.term ++ e.valType.toByte :: (t.before ++ t.after) := hafter
  refine ⟨?_, fun b' own hb' => ?_⟩
  · have hread : LogEntry.deserialize u.after = some ⟨e.term, t.before ++ t.after, e.valType⟩ := by
      rw [hsplit, LogEntry.deserialize, hterm, Option.bind_eq_bind, Option.bind_some]
      simp only [h.valType]
    obtain ⟨e', b', hrun, hterm', hval, hholds⟩ := logEntry_reads hread
    refine ⟨u.layout, _, e', b', hb, hrun, hterm', hval, ?_⟩
    rw [ht, t.layout_contents]
    exact hholds
  · rw [hb] at hb'
    cases hb'
    refine ⟨?_, fun v hv hv' => ?_⟩
    · rw [← hsplit] at hterm
      obtain ⟨used, v, hrun, hpass, -⟩ := tracks_getULong u _ _ hterm
      have hback : v.rewind = u := by
        refine Tape.ext hbefore.symm ?_
        show v.before ++ v.after = u.after
        rw [show v.before ++ v.after = u.before ++ u.after from hpass.moved, hbefore, List.nil_append]
      simp only [termInBuffer, hrun, v.layout_rewind, hback, Option.bind_eq_bind, Option.bind_some]
      rfl
    · have height : v.after = leBytes 8 e.term ++ [] := by
        rw [hv', Tape.layout_data, hsplit, List.take_append_of_le_length (by rw [leBytes_length]),
          List.take_of_length_le (by rw [leBytes_length]), List.append_nil]
      have hread := readLE_leBytes 8 e.term hlt []
      rw [← height] at hread
      obtain ⟨used, w, hrun, -, -⟩ := tracks_getULong v _ _ hread
      exact ⟨w, hrun⟩

/-- **Serialization round trip**: every snapshot_sync_req whose encoding fits a buffer, and
every log_entry whose encoding does.  A larger entry is refused by `alloc`. -/
theorem serialization_round_trip :
    (∀ r : BlockSyncReq, r.Okay → r.RoundTrip) ∧
      ∀ e : BlockLogEntry, e.Okay →
        (8 + 1 + e.buff.size < bufferLimit → e.RoundTrip) ∧
          (bufferLimit ≤ 8 + 1 + e.buff.size → e.serialize = none) := by
  refine ⟨fun r h => h.roundTrip, fun e h => ⟨h.roundTrip, fun hlarge => ?_⟩⟩
  obtain ⟨t, ht⟩ := h.buff
  rw [ht, Tape.layout_size] at hlarge
  exact logEntry_refused ht hlarge

/-- A buffer of five bytes whose cursor has passed two. -/
def fiveBytes : Tape := ⟨[1, 2], [3, 4, 5], by decide⟩

/-- A snapshot block over a configuration of two servers. -/
def smallSyncReq : BlockSyncReq :=
  ⟨⟨7, 2, 5, ⟨3, 1, [⟨1, [49]⟩, ⟨2, [50, 51]⟩]⟩⟩, 2, fiveBytes.layout, true⟩

theorem serialization_round_trip_small :
    smallSyncReq.RoundTrip ∧ BlockLogEntry.RoundTrip ⟨4, fiveBytes.layout, .appLog⟩ := by
  have hsmall : ∀ n < 256, n < ulongSize := fun n hn => hn.trans (by norm_num [ulongSize])
  refine ⟨serialization_round_trip.1 _ ⟨⟨fiveBytes, rfl⟩, hsmall _ ?_, hsmall _ ?_, hsmall _ ?_, hsmall _ ?_,
    hsmall _ ?_, hsmall _ ?_, fun srv hsrv => ?_, ?_⟩,
    (serialization_round_trip.2 _ ⟨⟨fiveBytes, rfl⟩, hsmall _ ?_, rfl⟩).1 ?_⟩
  case refine_7 =>
    simp only [smallSyncReq, List.mem_cons, List.not_mem_nil, or_false] at hsrv
    rcases hsrv with rfl | rfl <;> exact ⟨by decide, by decide, by decide⟩
  all_goals decide +kernel

/-- A buffer of zeros with its cursor at the start. -/
def Tape.zeros (n : Nat) (h : n < bufferLimit) : Tape :=
  ⟨[], List.replicate n 0, by rwa [List.length_nil, List.length_replicate, Nat.zero_add]⟩

theorem Tape.zeros_size {n : Nat} (h : n < bufferLimit) : (zeros n h).size = n := by
  rw [size, zeros, List.length_nil, List.length_replicate, Nat.zero_add]

/-- An entry of zeros. -/
def entryOfZeros (n : Nat) (h : n < bufferLimit) : BlockLogEntry := ⟨0, (Tape.zeros n h).layout, .appLog⟩

theorem entryOfZeros_okay {n : Nat} (h : n < bufferLimit) : (entryOfZeros n h).Okay :=
  ⟨⟨Tape.zeros n h, rfl⟩, Nat.two_pow_pos 64, rfl⟩

theorem entryOfZeros_refused {n : Nat} (h : n < bufferLimit) (hlarge : bufferLimit ≤ 8 + 1 + n) :
    (entryOfZeros n h).serialize = none := by
  apply logEntry_refused (t := Tape.zeros n h) rfl
  rwa [Tape.zeros_size]

/-- **An entry with the largest of buffers leaves no room for its term and type**, and
cannot be serialized. -/
theorem serialization_round_trip_fails :
    ¬ ((∀ r : BlockSyncReq, r.Okay → r.RoundTrip) ∧ ∀ e : BlockLogEntry, e.Okay → e.RoundTrip) := by
  rintro ⟨-, h⟩
  have hlt : bufferLimit - 1 < bufferLimit := by decide
  have hnone := entryOfZeros_refused hlt (by decide)
  obtain ⟨b, own, -, -, hb, -⟩ := (h _ (entryOfZeros_okay hlt)).whole
  rw [hnone] at hb
  cases hb

end Cornerstone
