import Cornerstone.Server

/-! # Requests and responses on the wire

The frames `asio_rpc_client` and `rpc_session` exchange.  A request is a header of
fixed size, whose last field tells how many bytes of log data follow, and the log
data: the entries one after the other, each behind its own small header.  A
response is a header only.

A reader stops where the code does: `throw` where `buffer` finds too few bytes for
a field, `fault` where the code copies without looking.
-/

namespace Cornerstone
open LittleEndian

/-- `RPC_REQ_HEADER_SIZE`. -/
def rpcReqHeaderSize : Nat := 3 * 4 + 8 * 4 + 1

/-- `RPC_RESP_HEADER_SIZE`. -/
def rpcRespHeaderSize : Nat := 4 * 2 + 8 * 2 + 2

/-- The largest size of log data a session reads. -/
def maxLogDataSize : Int := 0x1000000

namespace MsgType

def toByte : MsgType → UInt8
  | requestVoteRequest => 1
  | requestVoteResponse => 2
  | appendEntriesRequest => 3
  | appendEntriesResponse => 4
  | clientRequest => 5
  | addServerRequest => 6
  | addServerResponse => 7
  | removeServerRequest => 8
  | removeServerResponse => 9
  | syncLogRequest => 10
  | syncLogResponse => 11
  | joinClusterRequest => 12
  | joinClusterResponse => 13
  | leaveClusterRequest => 14
  | leaveClusterResponse => 15
  | installSnapshotRequest => 16
  | installSnapshotResponse => 17

/-- The enumerator a byte stands for. -/
def ofByte? (b : UInt8) : Option MsgType :=
  [requestVoteRequest, requestVoteResponse, appendEntriesRequest, appendEntriesResponse,
    clientRequest, addServerRequest, addServerResponse, removeServerRequest, removeServerResponse,
    syncLogRequest, syncLogResponse, joinClusterRequest, joinClusterResponse, leaveClusterRequest,
    leaveClusterResponse, installSnapshotRequest, installSnapshotResponse].find? (·.toByte = b)

theorem ofByte?_toByte (t : MsgType) : ofByte? t.toByte = some t := by
  cases t <;> rfl

end MsgType

/-- `get_byte`. -/
def getByte : Bytes → Option (UInt8 × Bytes)
  | [] => none
  | b :: bs => some (b, bs)

/-- What a `buffer` with too few bytes does. -/
def orThrow {α : Type} : Option α → Except Stop α
  | some a => .ok a
  | none => .error .throw

/-! ## Log data -/

/-- One entry, as `asio_rpc_client::send` puts it. -/
def LogEntry.frame (e : LogEntry) : Bytes :=
  leBytes 8 e.term ++ (e.valType.toByte :: (putInt e.buf.length ++ e.buf))

/-- The log data of a request. -/
def ReqMsg.logData (r : ReqMsg) : Bytes := r.logEntries.flatMap LogEntry.frame

/-- One round of the parsing loop of `read_complete`.  `buffer::get(ptr<buffer>&)`
copies as much as the target takes, whatever is left of the source. -/
def readEntry (bs : Bytes) : Except Stop (LogEntry × Bytes) := do
  let (term, bs) ← orThrow (readLE 8 bs)
  let (t, bs) ← orThrow (getByte bs)
  let (size, bs) ← orThrow (getInt bs)
  -- a negative size is far above what `buffer::alloc` allows
  if size < 0 then .error .throw
  else if bs.length < size.toNat then .error .fault
  else .ok (⟨term, bs.take size.toNat, LogValType.ofByte t⟩, bs.drop size.toNat)

/-- The parsing loop of `read_complete`.  Each round takes a byte at least, so as
many rounds as there are bytes are enough. -/
def readEntries : Nat → Bytes → Except Stop (List LogEntry)
  | _, [] => .ok []
  | 0, _ :: _ => .error .hang
  | fuel + 1, bs => do
    let (e, bs) ← readEntry bs
    let es ← readEntries fuel bs
    return e :: es

/-! ## Requests -/

/-- The header of a request. -/
def ReqMsg.header (r : ReqMsg) : Bytes :=
  r.type.toByte :: (putInt r.src ++ (putInt r.dst ++ (leBytes 8 r.term ++
    (leBytes 8 r.lastLogTerm ++ (leBytes 8 r.lastLogIdx ++ (leBytes 8 r.commitIdx ++
      putInt r.logData.length))))))

/-- The frame `asio_rpc_client::send` writes. -/
def ReqMsg.frame (r : ReqMsg) : Bytes := r.header ++ r.logData

/-- The fields of a header, the entries still to come, and the size of the log
data.  The code casts the type without a check; a byte that is no `msg_type` has
no meaning here. -/
def readReqHeader (bs : Bytes) : Option (ReqMsg × Int × Bytes) := do
  let (t, bs) ← getByte bs
  let type ← MsgType.ofByte? t
  let (src, bs) ← getInt bs
  let (dst, bs) ← getInt bs
  let (term, bs) ← readLE 8 bs
  let (lastTerm, bs) ← readLE 8 bs
  let (lastIdx, bs) ← readLE 8 bs
  let (commitIdx, bs) ← readLE 8 bs
  let (size, bs) ← getInt bs
  return (⟨term, type, src, dst, lastTerm, lastIdx, commitIdx, []⟩, size, bs)

/-! ## Responses -/

/-- The frame `read_complete` writes for a response. -/
def RespMsg.frame (r : RespMsg) : Bytes :=
  r.type.toByte :: (putInt r.src ++ (putInt r.dst ++ (leBytes 8 r.term ++
    (leBytes 8 r.nextIdx ++ [if r.accepted then 1 else 0]))))

/-- What `asio_rpc_client::response_read` makes of a response frame. -/
def readResp (bs : Bytes) : Option RespMsg := do
  let (t, bs) ← getByte bs
  let type ← MsgType.ofByte? t
  let (src, bs) ← getInt bs
  let (dst, bs) ← getInt bs
  let (term, bs) ← readLE 8 bs
  let (nextIdx, bs) ← readLE 8 bs
  let (accepted, _) ← getByte bs
  return ⟨term, type, src, dst, nextIdx, accepted = 1⟩

/-! ## Round trips -/

/-- An entry whose fields fit their places on the wire. -/
structure LogEntry.Fits (e : LogEntry) : Prop where
  term : e.term < ulongSize
  valType : LogValType.ofByte e.valType.toByte = e.valType
  buf : 2 * e.buf.length < uintSize

/-- A request whose fields fit their places on the wire, with no more log data than
a session reads. -/
structure ReqMsg.Fits (r : ReqMsg) : Prop where
  src : Int.bmod r.src uintSize = r.src
  dst : Int.bmod r.dst uintSize = r.dst
  term : r.term < ulongSize
  lastLogTerm : r.lastLogTerm < ulongSize
  lastLogIdx : r.lastLogIdx < ulongSize
  commitIdx : r.commitIdx < ulongSize
  entries : ∀ e ∈ r.logEntries, e.Fits
  logData : (r.logData.length : Int) ≤ maxLogDataSize

theorem bmod_natCast {n : Nat} (h : 2 * n < uintSize) : Int.bmod (n : Int) uintSize = n := by
  rw [Int.bmod_eq_of_le] <;> omega

theorem LogEntry.frame_length (e : LogEntry) : e.frame.length = 13 + e.buf.length := by
  simp only [frame, putInt, List.length_append, leBytes_length, List.length_cons]
  omega

/-- The reads of one round, one after the other. -/
theorem readEntry_of_reads {bs bs₁ bs₂ buf rest : Bytes} {term : Nat} {t : UInt8} {v : LogValType}
    (hterm : readLE 8 bs = some (term, bs₁)) (ht : getByte bs₁ = some (t, bs₂))
    (hsize : getInt bs₂ = some ((buf.length : Int), buf ++ rest)) (hv : LogValType.ofByte t = v) :
    readEntry bs = .ok (⟨term, buf, v⟩, rest) := by
  have hpos : ¬ (buf.length : Int) < 0 := by omega
  have hfit : ¬ (buf ++ rest).length < buf.length := by
    rw [List.length_append]
    omega
  simp only [readEntry, orThrow, bind, Except.bind, hterm, ht, hsize, Int.toNat_natCast, if_neg hpos,
    if_neg hfit, List.take_left, List.drop_left, hv]

/-- **Entry round trip**: one round of the loop reads one entry off the front. -/
theorem readEntry_frame {e : LogEntry} (h : e.Fits) (rest : Bytes) :
    readEntry (e.frame ++ rest) = .ok (e, rest) := by
  have ht : e.term < 256 ^ 8 := lt_of_lt_of_eq h.term ulongSize_eq
  have hs : e.frame ++ rest = leBytes 8 e.term ++
      (e.valType.toByte :: (putInt e.buf.length ++ (e.buf ++ rest))) := by
    simp only [LogEntry.frame, List.append_assoc, List.cons_append]
  have hterm := readLE_leBytes 8 _ ht (e.valType.toByte :: (putInt e.buf.length ++ (e.buf ++ rest)))
  have hbuf := getInt_putInt (bmod_natCast h.buf) (e.buf ++ rest)
  rw [hs]
  exact readEntry_of_reads hterm rfl hbuf h.valType

/-- **Log data round trip**: the loop gives back the entries of the request. -/
theorem readEntries_flatMap {es : List LogEntry} (h : ∀ e ∈ es, e.Fits) :
    ∀ fuel, es.length ≤ fuel → readEntries fuel (es.flatMap LogEntry.frame) = .ok es := by
  induction es with
  | nil => intro fuel _; cases fuel <;> rfl
  | cons e es ih =>
    intro fuel hfuel
    obtain ⟨fuel, rfl⟩ : ∃ k, fuel = k + 1 := ⟨fuel - 1, by simp only [List.length_cons] at hfuel; omega⟩
    have hread := readEntry_frame (h e List.mem_cons_self) (es.flatMap LogEntry.frame)
    have hrest := ih (fun e' he => h e' (List.mem_cons_of_mem _ he)) fuel
      (Nat.le_of_succ_le_succ hfuel)
    cases hbs : e.frame ++ es.flatMap LogEntry.frame with
    | nil =>
      have := congrArg List.length hbs
      rw [List.length_append, LogEntry.frame_length] at this
      simp only [List.length_nil] at this
      omega
    | cons b bs =>
      rw [hbs] at hread
      rw [List.flatMap_cons, hbs]
      simp only [readEntries, hread, bind, Except.bind, hrest]
      rfl

theorem ReqMsg.header_length (r : ReqMsg) : r.header.length = rpcReqHeaderSize := by
  simp only [header, putInt, List.length_append, leBytes_length, List.length_cons, rpcReqHeaderSize]

theorem RespMsg.frame_length (r : RespMsg) : r.frame.length = rpcRespHeaderSize := by
  simp only [frame, putInt, List.length_append, leBytes_length, List.length_cons,
    List.length_nil, rpcRespHeaderSize]

theorem ReqMsg.Fits.size {r : ReqMsg} (h : r.Fits) :
    Int.bmod (r.logData.length : Int) uintSize = r.logData.length := by
  have := h.logData
  refine bmod_natCast ?_
  simp only [maxLogDataSize, uintSize] at *
  omega

/-- **Header round trip.** -/
theorem readReqHeader_header {r : ReqMsg} (h : r.Fits) (rest : Bytes) :
    readReqHeader (r.header ++ rest) =
      some ({ r with logEntries := [] }, (r.logData.length : Int), rest) := by
  have fits : ∀ {n}, n < ulongSize → n < 256 ^ 8 := fun hn => lt_of_lt_of_eq hn ulongSize_eq
  have hs : r.header ++ rest = r.type.toByte :: (putInt r.src ++ (putInt r.dst ++
      (leBytes 8 r.term ++ (leBytes 8 r.lastLogTerm ++ (leBytes 8 r.lastLogIdx ++
        (leBytes 8 r.commitIdx ++ (putInt r.logData.length ++ rest))))))) := by
    simp only [ReqMsg.header, List.append_assoc, List.cons_append]
  rw [hs]
  simp [readReqHeader, getByte, MsgType.ofByte?_toByte, getInt_putInt h.src, getInt_putInt h.dst,
    readLE_leBytes 8 _ (fits h.term), readLE_leBytes 8 _ (fits h.lastLogTerm),
    readLE_leBytes 8 _ (fits h.lastLogIdx), readLE_leBytes 8 _ (fits h.commitIdx),
    getInt_putInt h.size]

/-- The size of the log data is at the end of a header. -/
theorem ReqMsg.header_split (r : ReqMsg) : ∃ front : Bytes, r.header = front ++ putInt r.logData.length ∧
    front.length = rpcReqHeaderSize - 4 := by
  refine ⟨r.type.toByte :: (putInt r.src ++ (putInt r.dst ++ (leBytes 8 r.term ++
    (leBytes 8 r.lastLogTerm ++ (leBytes 8 r.lastLogIdx ++ leBytes 8 r.commitIdx))))), ?_, ?_⟩
  · simp only [ReqMsg.header, List.append_assoc, List.cons_append]
  · simp only [putInt, List.length_append, leBytes_length, List.length_cons, rpcReqHeaderSize]

theorem getInt_header {r : ReqMsg} (h : r.Fits) (rest : Bytes) :
    getInt ((r.header ++ rest).drop (rpcReqHeaderSize - 4)) = some ((r.logData.length : Int), rest) := by
  obtain ⟨front, hfront, hlen⟩ := r.header_split
  rw [hfront, List.append_assoc, List.drop_append_of_le_length (by omega), ← hlen, List.drop_length,
    List.nil_append, getInt_putInt h.size]

end Cornerstone
