import Cornerstone.BlockForms
import Cornerstone.RpcFrame
import Mathlib.Data.List.Forall2

/-! # Requests and responses in the memory of buffers

What `asio_rpc_client::send` puts into its buffers, and how an `rpc_session` takes the
bytes apart again.  The two are written apart from each other: the fields of a header have
no mark but their place, and the log data is read until the cursor is at its end.  What
both do on the memory is here what `RpcFrame` says of the bytes.
-/

namespace Cornerstone
open LittleEndian

/-- `req_msg`, with the buffers of its entries. -/
structure BlockReqMsg where
  term : Nat
  type : MsgType
  src : Int
  dst : Int
  lastLogTerm : Nat
  lastLogIdx : Nat
  commitIdx : Nat
  logEntries : List BlockLogEntry := []

/-! ## Sending -/

/-- One round of the loop of `send`, which takes the cursor of the entry's own buffer
back. -/
def BlockLogEntry.send (e : BlockLogEntry) : Option (Block × BlockLogEntry) := do
  let entryBuf ← Block.alloc (8 + 1 + 4 + e.buff.size)
  let entryBuf ← entryBuf.putULong e.term
  let entryBuf ← entryBuf.putByte e.valType.toByte
  let entryBuf ← entryBuf.putInt (int32OfUlong e.buff.size)
  let e := { e with buff := e.buff.setPos 0 }
  let entryBuf ← entryBuf.putBuffer e.buff
  return (entryBuf.setPos 0, e)

/-- The loop of `send` over the entries: their buffers, and `log_data_size` from some
value on. -/
def sendEntries : List BlockLogEntry → Int → Option (List Block × Int × List BlockLogEntry)
  | [], logDataSize => some ([], logDataSize, [])
  | e :: es, logDataSize => do
    let (entryBuf, e) ← e.send
    let (logEntryBufs, logDataSize, es) ←
      sendEntries es (Int.bmod (logDataSize + int32OfUlong entryBuf.size) uintSize)
    return (entryBuf :: logEntryBufs, logDataSize, e :: es)

/-- `asio_rpc_client::send` on an open socket: the bytes written, and the request as it
leaves it. -/
def BlockReqMsg.send (r : BlockReqMsg) : Option (Bytes × BlockReqMsg) := do
  let (logEntryBufs, logDataSize, logEntries) ← sendEntries r.logEntries 0
  let reqBuf ← Block.alloc (ulongOfInt (rpcReqHeaderSize + logDataSize))
  let reqBuf ← reqBuf.putByte r.type.toByte
  let reqBuf ← reqBuf.putInt r.src
  let reqBuf ← reqBuf.putInt r.dst
  let reqBuf ← reqBuf.putULong r.term
  let reqBuf ← reqBuf.putULong r.lastLogTerm
  let reqBuf ← reqBuf.putULong r.lastLogIdx
  let reqBuf ← reqBuf.putULong r.commitIdx
  let reqBuf ← reqBuf.putInt logDataSize
  let reqBuf ← putBuffers logEntryBufs reqBuf
  let reqBuf := reqBuf.setPos 0
  return (reqBuf.data.take reqBuf.size, { r with logEntries := logEntries })

/-- The response `read_complete` writes. -/
def RespMsg.send (r : RespMsg) : Option Bytes := do
  let respBuf ← Block.alloc rpcRespHeaderSize
  let respBuf ← respBuf.putByte r.type.toByte
  let respBuf ← respBuf.putInt r.src
  let respBuf ← respBuf.putInt r.dst
  let respBuf ← respBuf.putULong r.term
  let respBuf ← respBuf.putULong r.nextIdx
  let respBuf ← respBuf.putByte (if r.accepted then 1 else 0)
  let respBuf := respBuf.setPos 0
  return respBuf.data.take rpcRespHeaderSize

/-! ## Reading -/

namespace Block
variable (b : Block)

/-- `async_read` into what `data()` points at; behind the block lies other memory. -/
def fill (bytes : Bytes) : Except Stop Block :=
  if b.data.length < bytes.length then .error .fault else .ok (b.store bytes)

/-- `(msg_type)get_byte()`.  A byte that is no `msg_type` has no meaning here. -/
def getMsgType : Option (MsgType × Block) := do
  let (t, b) ← b.getByte
  let type ← MsgType.ofByte? t
  return (type, b)

/-- `get(ptr<buffer>&)`: as much as the other takes, whatever is left of this one. -/
def getBuffer (dst : Block) : Except Stop (Block × Block) :=
  if b.data.length < dst.avail then .error .fault
  else .ok (dst.store (b.data.take dst.avail), b.mvFw dst.avail)

end Block

/-- One round of the parsing loop of `read_complete`. -/
def readEntryBlock (b : Block) : Except Stop (BlockLogEntry × Block) := do
  let (term, b) ← orThrow b.getULong
  let (valType, b) ← orThrow b.getByte
  let (valSize, b) ← orThrow b.getInt
  let buf ← orThrow (Block.alloc (ulongOfInt valSize))
  let (buf, b) ← b.getBuffer buf
  return (⟨term, buf, LogValType.ofByte valType⟩, b)

/-- The parsing loop of `read_complete`, for as many rounds at most. -/
def readEntriesBlock : Nat → Block → Except Stop (List BlockLogEntry × Block)
  | 0, b => if b.size > b.pos then .error .hang else .ok ([], b)
  | fuel + 1, b =>
    if b.size > b.pos then do
      let (e, b) ← readEntryBlock b
      let (es, b) ← readEntriesBlock fuel b
      return (e :: es, b)
    else .ok ([], b)

/-- The header, as `read_complete` reads it. -/
def readHeaderBlock (b : Block) : Option ((BlockReqMsg × Int) × Block) := do
  let (type, b) ← b.getMsgType
  let (src, b) ← b.getInt
  let (dst, b) ← b.getInt
  let (term, b) ← b.getULong
  let (lastTerm, b) ← b.getULong
  let (lastIdx, b) ← b.getULong
  let (commitIdx, b) ← b.getULong
  let (size, b) ← b.getInt
  return ((⟨term, type, src, dst, lastTerm, lastIdx, commitIdx, []⟩, size), b)

/-- `response_read`, once the response is in a fresh buffer. -/
def readRespBlock (b : Block) : Option (RespMsg × Block) := do
  let (type, b) ← b.getMsgType
  let (src, b) ← b.getInt
  let (dst, b) ← b.getInt
  let (term, b) ← b.getULong
  let (nextIdx, b) ← b.getULong
  let (accepted, b) ← b.getByte
  return (⟨term, type, src, dst, nextIdx, accepted = 1⟩, b)

/-- `sent` and `response_read`, with the bytes that arrive. -/
def receiveResp (bytes : Bytes) : Except Stop RespMsg := do
  let respBuf ← orThrow (Block.alloc rpcRespHeaderSize)
  let respBuf ← respBuf.fill (bytes.take respBuf.size)
  let (resp, _) ← orThrow (readRespBlock respBuf)
  return resp

/-- The buffers of an `rpc_session`. -/
structure SessionBlocks where
  header : Block
  logData : Option Block := none

namespace SessionBlocks

/-- The constructor of `rpc_session`. -/
def fresh : Option SessionBlocks := do
  let header ← Block.alloc rpcReqHeaderSize
  return { header := header }

/-- The request `read_complete` makes of the buffers, before it calls the handler. -/
def readRequest (s : SessionBlocks) : Except Stop (BlockReqMsg × SessionBlocks) := do
  let ((req, size), header) ← orThrow (readHeaderBlock (s.header.setPos 0))
  match s.logData with
  | none => return (req, { s with header := header })
  | some data =>
    if size > 0 then do
      let data := data.setPos 0
      let (es, data) ← readEntriesBlock data.size data
      return ({ req with logEntries := es }, ⟨header, some data⟩)
    else
      return (req, { s with header := header })

/-- A session from `start` to the call of the handler, with the bytes that arrive; without
a request where it stops before. -/
def parse (s : SessionBlocks) (bytes : Bytes) : Except Stop (Option (BlockReqMsg × SessionBlocks)) := do
  let header ← s.header.fill (bytes.take rpcReqHeaderSize)
  let (dataSize, header) ← orThrow (header.setPos (rpcReqHeaderSize - 4)).getInt
  if dataSize < 0 ∨ dataSize > maxLogDataSize then
    return none
  else if dataSize = 0 then do
    -- the log data is still what the request before has left
    let p ← readRequest { s with header := header }
    return some p
  else do
    let logData ← orThrow (Block.alloc (ulongOfInt dataSize))
    let logData ← logData.fill ((bytes.drop rpcReqHeaderSize).take dataSize.toNat)
    let p ← readRequest ⟨header, some logData⟩
    return some p

end SessionBlocks

/-! ## What is sent -/

/-- The entry without its buffer's cursor. -/
def BlockLogEntry.bytes (e : BlockLogEntry) : LogEntry := ⟨e.term, e.buff.contents, e.valType⟩

/-- The request without the cursors of its entries' buffers. -/
def BlockReqMsg.bytes (r : BlockReqMsg) : ReqMsg :=
  ⟨r.term, r.type, r.src, r.dst, r.lastLogTerm, r.lastLogIdx, r.commitIdx, r.logEntries.map BlockLogEntry.bytes⟩

/-- How many bytes of log data the entries take. -/
def logDataSize (es : List BlockLogEntry) : Nat := (es.map fun e => 8 + 1 + 4 + e.buff.size).sum

theorem Block.Sound.contents_length {b : Block} (h : b.Sound) : b.contents.length = b.size := by
  obtain ⟨t, rfl⟩ := h
  rw [t.layout_contents, Tape.layout_size, List.length_append]
  rfl

theorem Block.Sound.size_lt {b : Block} (h : b.Sound) : b.size < bufferLimit := by
  obtain ⟨t, rfl⟩ := h
  rw [Tape.layout_size]
  exact t.size_lt

theorem Block.Sound.rewound {b : Block} (h : b.Sound) : (b.setPos 0).Holds b.contents := by
  obtain ⟨t, rfl⟩ := h
  exact ⟨t.rewind, t.layout_rewind, rfl, t.layout_contents.symm⟩

theorem BlockLogEntry.frame_length {e : BlockLogEntry} (h : e.buff.Sound) :
    e.bytes.frame.length = 8 + 1 + 4 + e.buff.size := by
  rw [LogEntry.frame_length]
  exact congrArg (13 + ·) h.contents_length

theorem frames_length : ∀ {es : List BlockLogEntry}, (∀ e ∈ es, e.buff.Sound) →
    (es.flatMap fun e => e.bytes.frame).length = logDataSize es
  | [], _ => rfl
  | e :: es, h => by
    have ih := frames_length fun e' he' => h e' (List.mem_cons_of_mem _ he')
    rw [List.flatMap_cons, List.length_append, ih, BlockLogEntry.frame_length (h e List.mem_cons_self)]
    rfl

/-- An entry whose encoding fits a buffer is sent. -/
theorem BlockLogEntry.send_writes {e : BlockLogEntry} (hbuf : e.buff.Sound)
    (h : 8 + 1 + 4 + e.buff.size < bufferLimit) :
    ∃ b own, e.send = some (b, own) ∧ b.Holds e.bytes.frame := by
  have hsize := hbuf.contents_length
  have hint : int32OfUlong e.buff.size = e.buff.contents.length := by
    rw [int32OfUlong_of_lt hbuf.size_lt, hsize]
  have hlen := BlockLogEntry.frame_length hbuf
  have hclose := ((((closes_end fun b => (b, { e with buff := e.buff.setPos 0 })).putBuffer
    hbuf.rewound.data).put (putInt (int32OfUlong e.buff.size))).put [e.valType.toByte]).put (leBytes 8 e.term)
  have hform : leBytes 8 e.term ++ ([e.valType.toByte] ++ (putInt (int32OfUlong e.buff.size) ++
      (e.buff.contents ++ []))) = e.bytes.frame := by
    rw [hint]
    simp only [LogEntry.frame, BlockLogEntry.bytes, List.singleton_append, List.append_nil]
  obtain ⟨b, hb, hholds⟩ := hclose.alloc hform hlen (hlen ▸ h)
  exact ⟨b, _, hb, hholds⟩

/-- **The loop of `send`**: each entry in a buffer of its own, and the sum of their sizes. -/
theorem sendEntries_run : ∀ {es : List BlockLogEntry} {n : Nat}, (∀ e ∈ es, e.buff.Sound) →
    n + logDataSize es < bufferLimit →
    ∃ bufs own, sendEntries es n = some (bufs, ((n + logDataSize es : Nat) : Int), own) ∧
      HoldEach (fun e => e.bytes.frame) es bufs
  | [], n, _, _ => ⟨[], [], rfl, .nil⟩
  | e :: es, n, hsound, h => by
    have hcons : logDataSize (e :: es) = 8 + 1 + 4 + e.buff.size + logDataSize es := rfl
    have hbuf := hsound e List.mem_cons_self
    rw [hcons, ← Nat.add_assoc] at h
    obtain ⟨b, own, hb, hholds⟩ := BlockLogEntry.send_writes hbuf (by omega)
    obtain ⟨bufs, owns, hbufs, hall⟩ := sendEntries_run (fun e' he' => hsound e' (List.mem_cons_of_mem _ he')) h
    have hsize : b.size = 8 + 1 + 4 + e.buff.size := by rw [hholds.size, BlockLogEntry.frame_length hbuf]
    have hint : Int.bmod ((n : Int) + int32OfUlong b.size) uintSize = ((n + (8 + 1 + 4 + e.buff.size) : Nat) : Int) := by
      rw [int32OfUlong_of_lt (by rw [hsize]; exact (by omega : 8 + 1 + 4 + e.buff.size < bufferLimit)), hsize,
        ← Nat.cast_add]
      exact int32OfUlong_of_lt (by omega : n + (8 + 1 + 4 + e.buff.size) < bufferLimit)
    refine ⟨b :: bufs, own :: owns, ?_, .cons hholds hall⟩
    rw [hcons, ← Nat.add_assoc]
    simp only [sendEntries, hb, Option.bind_eq_bind, Option.bind_some, hint, hbufs]
    rfl

/-- A request whose fields have the ranges of their types. -/
structure BlockReqMsg.Okay (r : BlockReqMsg) : Prop where
  src : Int.bmod r.src uintSize = r.src
  dst : Int.bmod r.dst uintSize = r.dst
  term_lt : r.term < ulongSize
  lastLogTerm_lt : r.lastLogTerm < ulongSize
  lastLogIdx_lt : r.lastLogIdx < ulongSize
  commitIdx_lt : r.commitIdx < ulongSize
  entries : ∀ e ∈ r.logEntries, e.Okay

theorem BlockReqMsg.logData_eq (r : BlockReqMsg) : r.bytes.logData = r.logEntries.flatMap fun e => e.bytes.frame := by
  rw [ReqMsg.logData, BlockReqMsg.bytes, List.flatMap_map]

section
variable {r : BlockReqMsg}

theorem BlockReqMsg.Okay.logData_length (h : r.Okay) : r.bytes.logData.length = logDataSize r.logEntries := by
  rw [r.logData_eq]
  exact frames_length fun e he => (h.entries e he).buff

theorem BlockReqMsg.Okay.fits (h : r.Okay) (hdata : (logDataSize r.logEntries : Int) ≤ maxLogDataSize) :
    r.bytes.Fits := by
  refine ⟨h.src, h.dst, h.term_lt, h.lastLogTerm_lt, h.lastLogIdx_lt, h.commitIdx_lt, fun e he => ?_, ?_⟩
  · obtain ⟨e, hmem, rfl⟩ := List.mem_map.mp he
    have hokay := h.entries e hmem
    have hlt : e.buff.size < 2147483648 := hokay.buff.size_lt
    refine ⟨hokay.term_lt, hokay.valType, ?_⟩
    show 2 * e.buff.contents.length < 4294967296
    rw [hokay.buff.contents_length]
    omega
  · rw [h.logData_length]
    exact hdata

/-- **What `send` writes is the frame.** -/
theorem BlockReqMsg.send_writes (h : r.Okay) (hdata : (logDataSize r.logEntries : Int) ≤ maxLogDataSize) :
    ∃ own, r.send = some (r.bytes.frame, own) := by
  have hmax : logDataSize r.logEntries ≤ 16777216 := by
    simp only [maxLogDataSize] at hdata
    omega
  have hlen : r.bytes.frame.length = rpcReqHeaderSize + logDataSize r.logEntries := by
    rw [ReqMsg.frame, List.length_append, ReqMsg.header_length, h.logData_length]
  have hlt : rpcReqHeaderSize + logDataSize r.logEntries < bufferLimit := by
    simp only [rpcReqHeaderSize, bufferLimit]
    omega
  obtain ⟨bufs, own, hbufs, hall⟩ := @sendEntries_run r.logEntries 0 (fun e he => (h.entries e he).buff) (by omega)
  rw [Nat.zero_add, Nat.cast_zero] at hbufs
  have hsize : ulongOfInt ((rpcReqHeaderSize : Int) + (logDataSize r.logEntries : Int)) =
      rpcReqHeaderSize + logDataSize r.logEntries := by
    rw [← Nat.cast_add]
    exact ulongOfInt_natCast (hlt.trans (by decide))
  have hclose := (((((((((closes_end fun b => (b.data.take b.size, { r with logEntries := own })).putBuffers
    hall).put (putInt (logDataSize r.logEntries))).put (leBytes 8 r.commitIdx)).put
    (leBytes 8 r.lastLogIdx)).put (leBytes 8 r.lastLogTerm)).put (leBytes 8 r.term)).put
    (putInt r.dst)).put (putInt r.src)).put [r.type.toByte]
  have hform : [r.type.toByte] ++ (putInt r.src ++ (putInt r.dst ++ (leBytes 8 r.term ++ (leBytes 8 r.lastLogTerm ++
      (leBytes 8 r.lastLogIdx ++ (leBytes 8 r.commitIdx ++ (putInt (logDataSize r.logEntries) ++
        ((r.logEntries.flatMap fun e => e.bytes.frame) ++ [])))))))) = r.bytes.frame := by
    rw [ReqMsg.frame, ReqMsg.header, h.logData_length, r.logData_eq]
    simp only [List.append_nil, List.append_assoc, List.cons_append, List.nil_append]
    rfl
  obtain ⟨b, hb, hholds⟩ := hclose.alloc hform hlen (hlen ▸ hlt)
  rw [hholds.bytes, ← hsize] at hb
  refine ⟨{ r with logEntries := own }, ?_⟩
  rw [BlockReqMsg.send, hbufs]
  exact hb

end

/-- What is written for a response is its frame. -/
theorem RespMsg.send_writes (r : RespMsg) : r.send = some r.frame := by
  have hclose := ((((((closes_end fun b => b.data.take rpcRespHeaderSize).put [if r.accepted then (1 : UInt8) else 0]).put
    (leBytes 8 r.nextIdx)).put (leBytes 8 r.term)).put (putInt r.dst)).put (putInt r.src)).put [r.type.toByte]
  have hform : [r.type.toByte] ++ (putInt r.src ++ (putInt r.dst ++ (leBytes 8 r.term ++ (leBytes 8 r.nextIdx ++
      ([if r.accepted then (1 : UInt8) else 0] ++ []))))) = r.frame := rfl
  have hlt : r.frame.length < bufferLimit := by
    rw [r.frame_length]
    decide
  obtain ⟨b, hb, hholds⟩ := hclose.alloc hform r.frame_length hlt
  have hsize : b.size = rpcRespHeaderSize := by rw [hholds.size, r.frame_length]
  rw [← hsize, hholds.bytes, hsize] at hb
  exact hb

/-! ## What is read -/

section
variable {t : Tape} {rest : Bytes}

theorem reads_uLong {n : Nat} (hn : n < ulongSize) (h : t.after = leBytes 8 n ++ rest) :
    Reads Block.getULong t n rest := by
  apply tracks_getULong
  rw [h]
  exact readLE_leBytes 8 n (lt_of_lt_of_eq hn ulongSize_eq) rest

theorem reads_int {i : Int} (hi : Int.bmod i uintSize = i) (h : t.after = putInt i ++ rest) :
    Reads Block.getInt t i rest := by
  apply tracks_getInt
  rw [h]
  exact getInt_putInt hi rest

theorem reads_msgType {type : MsgType} (h : t.after = type.toByte :: rest) :
    Reads Block.getMsgType t type rest := by
  refine (getByte_reads h).bind fun u hu => ?_
  simp only [MsgType.ofByte?_toByte, Option.bind_eq_bind, Option.bind_some]
  exact Reads.pure hu

/-- **The header is read as it was put.** -/
theorem reads_header {r : ReqMsg} (h : r.Fits) (ht : t.after = r.header ++ rest) :
    Reads readHeaderBlock t
      (⟨r.term, r.type, r.src, r.dst, r.lastLogTerm, r.lastLogIdx, r.commitIdx, []⟩, (r.logData.length : Int)) rest := by
  simp only [ReqMsg.header, List.append_assoc, List.cons_append] at ht
  refine (reads_msgType ht).bind fun u hsrc => ?_
  refine (reads_int h.src hsrc).bind fun u hdst => ?_
  refine (reads_int h.dst hdst).bind fun u hterm => ?_
  refine (reads_uLong h.term hterm).bind fun u hlastTerm => ?_
  refine (reads_uLong h.lastLogTerm hlastTerm).bind fun u hlastIdx => ?_
  refine (reads_uLong h.lastLogIdx hlastIdx).bind fun u hcommit => ?_
  refine (reads_uLong h.commitIdx hcommit).bind fun u hsize => ?_
  refine (reads_int h.size hsize).bind fun u hrest => ?_
  exact Reads.pure hrest

/-- A response is read as it was put. -/
theorem reads_resp {r : RespMsg} (hsrc : Int.bmod r.src uintSize = r.src) (hdst : Int.bmod r.dst uintSize = r.dst)
    (hterm : r.term < ulongSize) (hnextIdx : r.nextIdx < ulongSize) (ht : t.after = r.frame) :
    Reads readRespBlock t r [] := by
  refine (reads_msgType ht).bind fun u hu => ?_
  refine (reads_int hsrc hu).bind fun u hu => ?_
  refine (reads_int hdst hu).bind fun u hu => ?_
  refine (reads_uLong hterm hu).bind fun u hu => ?_
  refine (reads_uLong hnextIdx hu).bind fun u hu => ?_
  refine (getByte_reads hu).bind fun u hu => ?_
  have haccepted : decide ((if r.accepted then (1 : UInt8) else 0) = 1) = r.accepted := by
    cases r.accepted <;> rfl
  simp only [haccepted]
  exact Reads.pure hu

/-- An entry once it is read: the same, in a buffer of its own. -/
structure LogEntry.ReadAs (e : LogEntry) (e' : BlockLogEntry) : Prop where
  term : e'.term = e.term
  valType : e'.valType = e.valType
  buff : e'.buff.Holds e.buf

/-- The bytes behind the cursor are copied into a fresh buffer. -/
theorem getBuffer_run {bs : Bytes} {dst : Block} (ht : t.after = bs ++ rest) (hdst : dst.avail = bs.length) :
    ∃ u : Tape, t.layout.getBuffer dst = .ok (dst.store bs, u.layout) ∧ u.after = rest := by
  obtain ⟨u, hpass, hafter⟩ := Tape.exists_passes ht
  have henough : ¬ (bs ++ rest).length < bs.length := by
    rw [List.length_append]
    omega
  refine ⟨u, ?_, hafter⟩
  rw [Block.getBuffer, Tape.layout_data, hdst, ht, if_neg henough, List.take_left, t.layout_mvFw hpass]

/-- **One round of the loop** takes one entry off the log data. -/
theorem readEntryBlock_run {e : LogEntry} (h : e.Fits) (ht : t.after = e.frame ++ rest) :
    ∃ e' u, readEntryBlock t.layout = .ok (e', Tape.layout u) ∧ e.ReadAs e' ∧ u.after = rest := by
  simp only [LogEntry.frame, List.append_assoc, List.cons_append] at ht
  obtain ⟨-, u₁, hterm, -, h₁⟩ := reads_uLong h.term ht
  obtain ⟨-, u₂, htype, -, h₂⟩ := getByte_reads h₁
  obtain ⟨-, u₃, hsize, -, h₃⟩ := reads_int (bmod_natCast h.buf) h₂
  have hlt : e.buf.length < bufferLimit := by
    have hbuf := h.buf
    simp only [uintSize, bufferLimit] at *
    omega
  have hulong : ulongOfInt (e.buf.length : Int) = e.buf.length := ulongOfInt_natCast (hlt.trans (by decide))
  obtain ⟨dst, hdst, hholds⟩ := Block.alloc_store hlt
  obtain ⟨-, havail, -⟩ := Block.alloc_room hlt hdst
  obtain ⟨u₄, hget, h₄⟩ := getBuffer_run h₃ havail
  refine ⟨⟨e.term, dst.store e.buf, e.valType⟩, u₄, ?_, ⟨rfl, rfl, hholds⟩, h₄⟩
  simp only [readEntryBlock, hterm, htype, hsize, hulong, hdst, hget, orThrow, bind, Except.bind, h.valType]
  rfl

/-- The loop goes on as long as the cursor is not at the end. -/
theorem more_iff : t.layout.size > t.layout.pos ↔ t.after ≠ [] := by
  rw [Tape.layout_size, Tape.layout_pos, Tape.size, ← List.length_pos_iff]
  omega

/-- **The loop of `read_complete`** gives the entries the log data was put together from. -/
theorem readEntriesBlock_run {es : List LogEntry} (h : ∀ e ∈ es, e.Fits) :
    ∀ {fuel : Nat} {t : Tape}, es.length ≤ fuel → t.after = es.flatMap LogEntry.frame →
      ∃ es' b, readEntriesBlock fuel t.layout = .ok (es', b) ∧ List.Forall₂ LogEntry.ReadAs es es' := by
  induction es with
  | nil =>
    intro fuel t _ ht
    have hend : ¬ t.layout.size > t.layout.pos := fun hmore => more_iff.mp hmore ht
    refine ⟨[], t.layout, ?_, .nil⟩
    cases fuel <;> rw [readEntriesBlock, if_neg hend]
  | cons e es ih =>
    intro fuel t hfuel ht
    obtain ⟨fuel, rfl⟩ := Nat.exists_eq_succ_of_ne_zero (Nat.ne_of_gt ((Nat.succ_pos _).trans_le hfuel))
    rw [List.flatMap_cons] at ht
    have hmore : t.layout.size > t.layout.pos := by
      rw [more_iff, ht]
      intro hnil
      have hlen := congrArg List.length hnil
      rw [List.length_append, LogEntry.frame_length, List.length_nil] at hlen
      omega
    obtain ⟨e', u, hread, hsame, hu⟩ := readEntryBlock_run (h e List.mem_cons_self) ht
    obtain ⟨es', b, hreads, hall⟩ := ih (fun e' he => h e' (List.mem_cons_of_mem _ he))
      (Nat.le_of_succ_le_succ hfuel) hu
    refine ⟨e' :: es', b, ?_, .cons hsame hall⟩
    rw [readEntriesBlock, if_pos hmore]
    simp only [hread, hreads, bind, Except.bind]
    rfl

end

/-! ## The round trips -/

theorem Block.fill_fresh {bs : Bytes} (h : bs.length < bufferLimit) :
    ∃ b b', Block.alloc bs.length = some b ∧ b.fill bs = .ok b' ∧ b'.Holds bs := by
  obtain ⟨b, hb, hholds⟩ := Block.alloc_store h
  obtain ⟨-, -, hdata⟩ := Block.alloc_room h hb
  refine ⟨b, b.store bs, hb, ?_, hholds⟩
  rw [Block.fill, if_neg (by omega)]

theorem ReqMsg.entries_length_le (r : ReqMsg) : r.logEntries.length ≤ r.logData.length := by
  have hframe : ∀ e : LogEntry, 0 < e.frame.length := fun e => by
    rw [LogEntry.frame_length]
    omega
  exact length_le_flatMap hframe r.logEntries

/-- The size of the log data is read first, and then the header from its start. -/
theorem headerSize_run {r : ReqMsg} (h : r.Fits) {b : Block} (hb : b.Holds r.header) :
    ∃ b', (b.setPos (rpcReqHeaderSize - 4)).getInt = some ((r.logData.length : Int), b') ∧
      (b'.setPos 0).Holds r.header := by
  obtain ⟨t, rfl, hbefore, hafter⟩ := hb
  obtain ⟨front, hfront, hlen⟩ := r.header_split
  rw [hfront] at hafter
  obtain ⟨u, hpass, hu⟩ := Tape.exists_passes hafter
  have hubefore : u.before = front := by rw [hpass.before, hbefore, List.nil_append]
  have hset := t.layout_setPos hpass.moved
  rw [hubefore, hlen] at hset
  have hint : u.after = putInt r.logData.length ++ [] := by rw [hu, List.append_nil]
  obtain ⟨used, v, hrun, hpass', -⟩ := reads_int h.size hint
  refine ⟨v.layout, by rw [hset, hrun], v.rewind, v.layout_rewind, rfl, ?_⟩
  show v.before ++ v.after = r.header
  rw [show v.before ++ v.after = u.before ++ u.after from hpass'.moved, hubefore, hu, hfront]

namespace SessionBlocks
variable {r : ReqMsg} {header : Block}

/-- The header alone, where there is no log data. -/
theorem readRequest_header (h : r.Fits) (hheader : (header.setPos 0).Holds r.header) :
    ∃ s', readRequest ⟨header, none⟩ =
      .ok (⟨r.term, r.type, r.src, r.dst, r.lastLogTerm, r.lastLogIdx, r.commitIdx, []⟩, s') := by
  obtain ⟨t, ht, -, hafter⟩ := hheader
  have hhead : t.after = r.header ++ [] := by rw [hafter, List.append_nil]
  obtain ⟨used, u, hrun, -, -⟩ := reads_header h hhead
  refine ⟨⟨u.layout, none⟩, ?_⟩
  simp only [readRequest, ht, hrun, orThrow, bind, Except.bind]
  rfl

/-- The header and the entries. -/
theorem readRequest_data (h : r.Fits) (hheader : (header.setPos 0).Holds r.header) {data : Block}
    (hdata : data.Holds r.logData) (hpos : 0 < r.logData.length) :
    ∃ es s', readRequest ⟨header, some data⟩ =
      .ok (⟨r.term, r.type, r.src, r.dst, r.lastLogTerm, r.lastLogIdx, r.commitIdx, es⟩, s') ∧
        List.Forall₂ LogEntry.ReadAs r.logEntries es := by
  obtain ⟨t, ht, -, hafter⟩ := hheader
  have hhead : t.after = r.header ++ [] := by rw [hafter, List.append_nil]
  obtain ⟨used, u, hrun, -, -⟩ := reads_header h hhead
  obtain ⟨v, hv, -, hlog⟩ := hdata.rewound
  have hrounds : r.logEntries.length ≤ v.layout.size := by
    rw [← hv, hdata.rewound.size]
    exact r.entries_length_le
  obtain ⟨es, b, hreads, hall⟩ := readEntriesBlock_run h.entries hrounds hlog
  refine ⟨es, ⟨u.layout, some b⟩, ?_, hall⟩
  have hmore : ((r.logData.length : Nat) : Int) > 0 := by omega
  simp only [readRequest, ht, hrun, hv, hreads, orThrow, bind, Except.bind, if_pos hmore]
  rfl

/-- **A fresh session makes of a frame the request it is the frame of.** -/
theorem parse_frame (h : r.Fits) :
    ∃ s es s', fresh = some s ∧ s.parse r.frame =
      .ok (some (⟨r.term, r.type, r.src, r.dst, r.lastLogTerm, r.lastLogIdx, r.commitIdx, es⟩, s')) ∧
        List.Forall₂ LogEntry.ReadAs r.logEntries es := by
  have hhead : r.header.length < bufferLimit := by
    rw [r.header_length]
    decide
  obtain ⟨b, b', hb, hfill, hholds⟩ := Block.fill_fresh hhead
  obtain ⟨b'', hint, hback⟩ := headerSize_run h hholds
  rw [r.header_length] at hb
  have hfresh : fresh = some ⟨b, none⟩ := by
    rw [fresh, hb]
    rfl
  have htake : r.frame.take rpcReqHeaderSize = r.header := by
    rw [← r.header_length]
    exact List.take_left
  have hdrop : (r.frame.drop rpcReqHeaderSize).take r.logData.length = r.logData := by
    rw [← r.header_length, ReqMsg.frame, List.drop_left, List.take_length]
  have hsize : ¬ (((r.logData.length : Nat) : Int) < 0 ∨ ((r.logData.length : Nat) : Int) > maxLogDataSize) := by
    have hdata := h.logData
    omega
  rcases Nat.eq_zero_or_pos r.logData.length with hzero | hpos
  · have hnone : r.logEntries = [] := List.length_eq_zero_iff.mp (Nat.le_zero.mp (hzero ▸ r.entries_length_le))
    obtain ⟨s', hreq⟩ := readRequest_header h hback
    refine ⟨⟨b, none⟩, [], s', hfresh, ?_, hnone ▸ .nil⟩
    rw [hzero] at hint
    simp only [parse, htake, hfill, hint, hreq, orThrow, bind, Except.bind]
    rfl
  · have hlt : r.logData.length < bufferLimit := by
      have hdata := h.logData
      simp only [maxLogDataSize, bufferLimit] at *
      omega
    have hulong : ulongOfInt (r.logData.length : Int) = r.logData.length :=
      ulongOfInt_natCast (hlt.trans (by decide))
    have hsome : ¬ ((r.logData.length : Nat) : Int) = 0 := by omega
    obtain ⟨d, d', hd, hfilld, hdata⟩ := Block.fill_fresh hlt
    obtain ⟨es, s', hreq, hall⟩ := readRequest_data h hback hdata hpos
    refine ⟨⟨b, none⟩, es, s', hfresh, ?_, hall⟩
    simp only [parse, htake, hfill, hint, if_neg hsize, if_neg hsome, hulong, hd, Int.toNat_natCast, hdrop, hfilld,
      hreq, orThrow, bind, Except.bind]
    rfl

end SessionBlocks

/-- **The round trip of a request**: what `send` writes is as long as its header says, and
a fresh session makes of it a request with the same fields and the same entries, with
the whole bytes of their buffers. -/
def BlockReqMsg.RoundTrip (r : BlockReqMsg) : Prop :=
  ∃ frame own s es s', r.send = some (frame, own) ∧ frame.length = rpcReqHeaderSize + logDataSize r.logEntries ∧
    SessionBlocks.fresh = some s ∧ s.parse frame = .ok (some ({ r with logEntries := es }, s')) ∧
      List.Forall₂ (fun e e' => e.bytes.ReadAs e') r.logEntries es

/-- A response whose fields have the ranges of their types. -/
structure RespMsg.Okay (r : RespMsg) : Prop where
  src : Int.bmod r.src uintSize = r.src
  dst : Int.bmod r.dst uintSize = r.dst
  term_lt : r.term < ulongSize
  nextIdx_lt : r.nextIdx < ulongSize

/-- The round trip of a response. -/
def RespMsg.RoundTrip (r : RespMsg) : Prop :=
  ∃ frame, r.send = some frame ∧ frame.length = rpcRespHeaderSize ∧ receiveResp frame = .ok r

theorem BlockReqMsg.Okay.roundTrip {r : BlockReqMsg} (h : r.Okay)
    (hdata : (logDataSize r.logEntries : Int) ≤ maxLogDataSize) : r.RoundTrip := by
  obtain ⟨own, hsend⟩ := BlockReqMsg.send_writes h hdata
  obtain ⟨s, es, s', hfresh, hparse, hall⟩ := SessionBlocks.parse_frame (h.fits hdata)
  refine ⟨_, own, s, es, s', hsend, ?_, hfresh, hparse, List.forall₂_map_left_iff.mp hall⟩
  rw [ReqMsg.frame, List.length_append, ReqMsg.header_length, h.logData_length]

theorem RespMsg.Okay.roundTrip {r : RespMsg} (h : r.Okay) : r.RoundTrip := by
  have hlt : r.frame.length < bufferLimit := by
    rw [r.frame_length]
    decide
  obtain ⟨b, b', hb, hfill, hholds⟩ := Block.fill_fresh hlt
  obtain ⟨hsize, -, -⟩ := Block.alloc_room hlt hb
  rw [r.frame_length] at hb hsize
  obtain ⟨t, rfl, -, hafter⟩ := hholds
  obtain ⟨used, u, hrun, -, -⟩ := reads_resp h.src h.dst h.term_lt h.nextIdx_lt hafter
  have htake : r.frame.take rpcRespHeaderSize = r.frame := List.take_of_length_le (Nat.le_of_eq r.frame_length)
  refine ⟨r.frame, r.send_writes, r.frame_length, ?_⟩
  simp only [receiveResp, hb, hsize, htake, hfill, hrun, orThrow, bind, Except.bind]
  rfl

/-- **Wire format round trip**: every request with no more log data than a session reads,
and every response. -/
theorem wire_round_trip :
    (∀ r : BlockReqMsg, r.Okay → (logDataSize r.logEntries : Int) ≤ maxLogDataSize → r.RoundTrip) ∧
      ∀ r : RespMsg, r.Okay → r.RoundTrip :=
  ⟨fun _ h hdata => h.roundTrip hdata, fun _ h => h.roundTrip⟩

/-- A buffer of one byte, which its cursor has passed. -/
def onePassed : Tape := ⟨[9], [], by decide⟩

/-- A request with two entries, whose buffers have their cursors inside and at the end. -/
def smallReqMsg : BlockReqMsg :=
  ⟨3, .appendEntriesRequest, 1, -2, 2, 8, 7,
    [⟨2, fiveBytes.layout, .appLog⟩, ⟨3, onePassed.layout, .conf⟩]⟩

theorem wire_round_trip_small :
    smallReqMsg.RoundTrip ∧ RespMsg.RoundTrip ⟨3, .appendEntriesResponse, -2, 1, 10, true⟩ := by
  have hsmall : ∀ n < 256, n < ulongSize := fun n hn => hn.trans (by norm_num [ulongSize])
  refine ⟨wire_round_trip.1 _ ⟨by decide, by decide, hsmall _ ?_, hsmall _ ?_, hsmall _ ?_, hsmall _ ?_, ?_⟩ ?_,
    wire_round_trip.2 _ ⟨by decide, by decide, hsmall _ ?_, hsmall _ ?_⟩⟩
  case refine_5 =>
    intro e he
    simp only [smallReqMsg, List.mem_cons, List.not_mem_nil, or_false] at he
    rcases he with rfl | rfl
    · exact ⟨⟨fiveBytes, rfl⟩, hsmall _ (by decide), rfl⟩
    · exact ⟨⟨onePassed, rfl⟩, hsmall _ (by decide), rfl⟩
  all_goals decide +kernel

end Cornerstone
