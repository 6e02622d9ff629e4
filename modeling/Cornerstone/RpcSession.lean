import Cornerstone.RpcFrame

/-! # One connection of the RPC service

`rpc_session` as the callbacks it consists of, each run to its end, and the
connection around it: the asynchronous operations under way, the bytes in flight
both ways, and a client that writes a frame and waits for the response before it
writes the next.

The message handler is whatever `process_req` is.  An operation under way
completes when its bytes are there.  Once the socket is closed operations fail,
but for reads of no bytes, about which nothing is assumed.
-/

namespace Cornerstone
open LittleEndian Handlers Handler

/-- What becomes of a call of `process_req`. -/
inductive Answer
  | throws
  | returns (resp : Option RespMsg)
deriving DecidableEq, Repr

/-- The response, if there is one. -/
def Answer.responses : Answer → List RespMsg
  | .returns (some resp) => [resp]
  | _ => []

/-- A `msg_handler` with a state of its own. -/
abbrev MsgHandler (σ : Type) := σ → ReqMsg → σ × Answer

/-- A `buffer` with its cursor. -/
structure Buffer where
  bytes : Bytes
  pos : Nat := 0
deriving DecidableEq, Repr

/-- `buffer::alloc`. -/
def Buffer.alloc (size : Nat) : Buffer := { bytes := List.replicate size 0 }

variable {σ : Type}

/-- The state of an `rpc_session`, with that of the handler it calls. -/
structure Session (σ : Type) where
  handler : σ
  header : Buffer := Buffer.alloc rpcReqHeaderSize
  logData : Option Buffer := none
  isOpen : Bool := true

/-- What a session does that is seen from outside: it starts asynchronous
operations, the first at an address inside `header_`, and calls the handler. -/
inductive IoEffect
  | readHeader (at' : Nat)
  | readLogData (size : Nat)
  | write (bytes : Bytes)
  | call (req : ReqMsg) (answer : Answer)
deriving DecidableEq, Repr

/-- A callback of a session. -/
abbrev Callback (σ : Type) := Handler (Session σ) IoEffect Stop

namespace Session

/-- `start`. -/
def start : Callback σ Unit := do
  let s ← look
  emit (.readHeader s.header.pos)

/-- `stop`. -/
def stop : Callback σ Unit := change fun s => { s with isOpen := false }

/-- The entries `read_complete` finds, where the header says how many bytes they
take. -/
def logEntries (size : Int) : Callback σ (List LogEntry) := do
  let s ← look
  match s.logData with
  | none => pure []
  | some data =>
    if size > 0 then
      match readEntries data.bytes.length data.bytes with
      | .ok es => pure es
      | .error e => halt e
    else
      pure []

/-- The handler is called. -/
def processReq (h : MsgHandler σ) (req : ReqMsg) : Callback σ (Option RespMsg) := do
  let s ← look
  emit (.call req (h s.handler req).2)
  change fun s => { s with handler := (h s.handler req).1 }
  match (h s.handler req).2 with
  | .throws => halt .throw
  | .returns resp => pure resp

/-- What `read_complete` does with the response.  The test is the one of the code:
a response stops the session, and without one the code goes on to encode it. -/
def respond (resp : Option RespMsg) : Callback σ Unit :=
  if resp.isSome then
    stop
  else
    match resp with
    | none => halt .fault
    | some resp => emit (.write resp.frame)

/-- The `try` block of `read_complete`. -/
def readCompleteBlock (h : MsgHandler σ) : Callback σ Unit := do
  change fun s => { s with header := { s.header with pos := 0 } }
  let s ← look
  match readReqHeader s.header.bytes with
  | none => halt .throw
  | some (req, size, _) => do
    change fun s => { s with header := { s.header with pos := rpcReqHeaderSize } }
    let entries ← logEntries size
    let resp ← processReq h { req with logEntries := entries }
    respond resp

/-- `read_complete`. -/
def readComplete (h : MsgHandler σ) : Callback σ Unit :=
  (readCompleteBlock h).rescue Stop.caught stop

/-- Put what was read into the buffer at an address in it; beyond its end lies
other memory. -/
def fillHeader (at' : Nat) (bytes : Bytes) : Callback σ Unit := do
  let s ← look
  if at' + bytes.length > s.header.bytes.length then
    halt .fault
  else
    change fun s => { s with header := { s.header with
      bytes := s.header.bytes.take at' ++ bytes ++ s.header.bytes.drop (at' + bytes.length) } }

/-- The callback of `start`, once the header is read. -/
def headerRead (h : MsgHandler σ) (at' : Nat) (bytes : Bytes) : Callback σ Unit := do
  fillHeader at' bytes
  let s ← look
  match getInt (s.header.bytes.drop (rpcReqHeaderSize - 4)) with
  | none => halt .throw
  | some (dataSize, _) => do
    change fun s => { s with header := { s.header with pos := rpcReqHeaderSize } }
    if dataSize < 0 ∨ dataSize > maxLogDataSize then
      stop
    else do
      if dataSize = 0 then readComplete h else pure ()
      change fun s => { s with logData := some (Buffer.alloc dataSize.toNat) }
      emit (.readLogData dataSize.toNat)

/-- `read_log_data`, once the log data is read. -/
def readLogData (h : MsgHandler σ) (bytes : Bytes) : Callback σ Unit := do
  change fun s => { s with logData := some { bytes := bytes } }
  readComplete h

end Session

/-! ## The connection -/

/-- An asynchronous operation of the session under way. -/
inductive Operation
  | header (at' : Nat)
  | logData (size : Nat)
  | write (bytes : Bytes)
deriving DecidableEq, Repr

/-- A connection: the session, its operations under way, the bytes in flight, the
client with the requests it has still to write, and what was called, returned and
received so far. -/
structure Connection (σ : Type) where
  session : Session σ
  operations : List Operation := []
  toServer : Bytes := []
  toClient : Bytes := []
  queue : List ReqMsg
  waiting : Bool := false
  sent : List ReqMsg := []
  calls : List ReqMsg := []
  returned : List RespMsg := []
  received : List RespMsg := []
  crashed : Bool := false

namespace Connection

/-- Take note of an effect of the session. -/
def note (c : Connection σ) : IoEffect → Connection σ
  | .readHeader at' => { c with operations := c.operations ++ [.header at'] }
  | .readLogData size => { c with operations := c.operations ++ [.logData size] }
  | .write bytes => { c with operations := c.operations ++ [.write bytes] }
  | .call req answer => { c with
      calls := c.calls ++ [req]
      returned := c.returned ++ answer.responses }

/-- Run a callback of the session.  An exception that leaves it is taken by the
thread of the service; anything else that stops it ends the process. -/
def callback (x : Callback σ Unit) (c : Connection σ) : Connection σ :=
  let o := x c.session
  let c := o.out.foldl note { c with session := o.state }
  match o.res with
  | .error .throw => c
  | .error _ => { c with crashed := true }
  | .ok _ => c

/-- The connection of a client with some requests to a fresh session. -/
def start (handler : σ) (queue : List ReqMsg) : Connection σ :=
  callback Session.start { session := { handler := handler }, queue := queue }

/-- What can happen next: the client writes a frame, it reads a response, or one of
the operations completes. -/
inductive Move
  | send
  | receive
  | complete (k : Nat)
deriving DecidableEq, Repr

/-- An operation on a closed socket fails, and its callback stops the session.
`emptyReads` says whether a read of no bytes succeeds all the same. -/
def fails (emptyReads : Bool) : Operation → Bool
  | .logData size => size ≠ 0 || !emptyReads
  | _ => true

/-- An operation completes, if it can. -/
def finish (emptyReads : Bool) (h : MsgHandler σ) (c : Connection σ) (op : Operation) :
    Option (Connection σ) :=
  if c.session.isOpen = false ∧ fails emptyReads op then
    some (c.callback Session.stop)
  else
    match op with
    | .header at' =>
      if c.toServer.length < rpcReqHeaderSize then none
      else some ({ c with toServer := c.toServer.drop rpcReqHeaderSize }.callback
        (Session.headerRead h at' (c.toServer.take rpcReqHeaderSize)))
    | .logData size =>
      if c.toServer.length < size then none
      else some ({ c with toServer := c.toServer.drop size }.callback
        (Session.readLogData h (c.toServer.take size)))
    | .write bytes => some ({ c with toClient := c.toClient ++ bytes }.callback Session.start)

/-- One move, where it is possible. -/
def step (emptyReads : Bool) (h : MsgHandler σ) (c : Connection σ) : Move → Option (Connection σ)
  | .send =>
    match c.waiting, c.queue with
    | false, r :: queue => some { c with
        queue := queue, waiting := true, sent := c.sent ++ [r], toServer := c.toServer ++ r.frame }
    | _, _ => none
  | .receive =>
    if c.waiting = true ∧ rpcRespHeaderSize ≤ c.toClient.length then
      match readResp (c.toClient.take rpcRespHeaderSize) with
      | none => none
      | some resp => some { c with
          waiting := false
          received := c.received ++ [resp]
          toClient := c.toClient.drop rpcRespHeaderSize }
    else
      none
  | .complete k =>
    match c.crashed, c.operations[k]? with
    | false, some op => finish emptyReads h { c with operations := c.operations.eraseIdx k } op
    | _, _ => none

/-- Some moves, one after the other. -/
def run (emptyReads : Bool) (h : MsgHandler σ) : List Move → Connection σ → Option (Connection σ)
  | [], c => some c
  | m :: ms, c => (c.step emptyReads h m).bind (run emptyReads h ms)

/-- Nothing more can happen. -/
def Quiet (emptyReads : Bool) (h : MsgHandler σ) (c : Connection σ) : Prop :=
  ∀ m, c.step emptyReads h m = none

/-- **Each frame is served exactly once**: whatever the order of events, the
process does not crash, and when all is quiet the handler was called once for each
frame written, in order, and the client has received exactly the responses
returned. -/
def ServesOnce (emptyReads : Bool) (h : MsgHandler σ) (c : Connection σ) : Prop :=
  ∀ ms c', run emptyReads h ms c = some c' → c'.crashed = false ∧
    (c'.Quiet emptyReads h → c'.calls = c'.sent ∧ c'.received = c'.returned)

end Connection
end Cornerstone
