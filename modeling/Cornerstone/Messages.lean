import Cornerstone.LittleEndian

/-! # Log entries, configurations, snapshots and messages

The data the servers exchange and store.  A `buffer` is the bytes it holds; the
serialized forms are the ones of `log_entry`, `srv_config`, `cluster_config`,
`snapshot` and `snapshot_sync_req`, and a `deserialize` works on the bytes from
the cursor on and returns what is left.  `none` is a thrown exception.

`ulong` values are natural numbers.  Where the code lets one wrap around it is
written out (`ulongSub`, `ulongOfInt`, `int32OfUlong`).
-/

namespace Cornerstone
open LittleEndian

/-- The contents of a `buffer`. -/
abbrev Bytes := List UInt8

/-- One more than the largest `ulong`. -/
def ulongSize : Nat := 2 ^ 64

/-- One more than the largest `uint`. -/
def uintSize : Nat := 2 ^ 32

/-- What `buffer::alloc` refuses. -/
def bufferLimit : Nat := 0x80000000

/-- `a - b` on `ulong`. -/
def ulongSub (a b : Nat) : Nat := (a + (ulongSize - b % ulongSize)) % ulongSize

/-- An `int32` used where an `ulong` is expected. -/
def ulongOfInt (i : Int) : Nat := (i % (ulongSize : Int)).toNat

/-- `(int32)x` for an `ulong`. -/
def int32OfUlong (n : Nat) : Int := Int.bmod (n : Int) uintSize

theorem int32OfUlong_of_lt {n : Nat} (h : n < uintSize / 2) : int32OfUlong n = n := by
  rw [int32OfUlong, Int.bmod_eq_of_le] <;> simp only [uintSize] at * <;> omega

theorem ulongOfInt_natCast {n : Nat} (h : n < ulongSize) : ulongOfInt (n : Int) = n := by
  rw [ulongOfInt, ← Int.natCast_mod, Int.toNat_natCast, Nat.mod_eq_of_lt h]

theorem ulongSub_of_le {a b : Nat} (hb : b ≤ a) (ha : a < ulongSize) : ulongSub a b = a - b := by
  have hb' : b % ulongSize = b := Nat.mod_eq_of_lt (by omega)
  rw [ulongSub, hb', show a + (ulongSize - b) = (a - b) + ulongSize from by omega,
    Nat.add_mod_right, Nat.mod_eq_of_lt (by omega)]

/-- `put(int32)`. -/
def putInt (i : Int) : Bytes := leBytes 4 (i % (uintSize : Int)).toNat

/-- `get_int`. -/
def getInt (bs : Bytes) : Option (Int × Bytes) :=
  (readLE 4 bs).map fun p => (int32OfUlong p.1, p.2)

/-- `get_str`, which answers `nilptr` (`none` here) and leaves the cursor where
it was when no terminator follows or the string is empty. -/
def getStr (bs : Bytes) : Option (Bytes × Bytes) :=
  let s := bs.takeWhile (· ≠ 0)
  if s.length = bs.length ∨ s = [] then none else some (s, bs.drop (s.length + 1))

/-- `log_val_type`.  The decoders cast a byte without a check, so a value
outside the enumerators is possible: `other`. -/
inductive LogValType
  | appLog
  | conf
  | clusterServer
  | logPack
  | snpSyncReq
  | other (code : UInt8)
deriving DecidableEq, Repr

namespace LogValType

def toByte : LogValType → UInt8
  | appLog => 1
  | conf => 2
  | clusterServer => 3
  | logPack => 4
  | snpSyncReq => 5
  | other code => code

def ofByte (b : UInt8) : LogValType :=
  if b = 1 then appLog else if b = 2 then conf else if b = 3 then clusterServer
  else if b = 4 then logPack else if b = 5 then snpSyncReq else other b

theorem toByte_ofByte (b : UInt8) : (ofByte b).toByte = b := by
  unfold ofByte
  split_ifs <;> simp_all [toByte]

end LogValType

/-- `log_entry`, with a non-nil buffer. -/
structure LogEntry where
  term : Nat
  buf : Bytes
  valType : LogValType
deriving DecidableEq, Repr

namespace LogEntry

/-- `log_entry::serialize`. -/
def serialize (e : LogEntry) : Bytes :=
  leBytes 8 e.term ++ e.valType.toByte :: e.buf

/-- `log_entry::deserialize`: the payload is whatever remains. -/
def deserialize (bs : Bytes) : Option LogEntry := do
  let (term, bs) ← readLE 8 bs
  match bs with
  | [] => none
  | t :: data => some ⟨term, data, LogValType.ofByte t⟩

/-- Whether the entry carries a configuration. -/
def isConf (e : LogEntry) : Bool := e.valType = .conf

end LogEntry

/-- `srv_config`. -/
structure SrvConfig where
  id : Int
  endpoint : Bytes
deriving DecidableEq, Repr

namespace SrvConfig

/-- `srv_config::serialize`. -/
def serialize (c : SrvConfig) : Bytes := putInt c.id ++ c.endpoint ++ [0]

/-- `srv_config::deserialize`.  A missing or empty endpoint makes `cs_new`
swallow the exception of the `std::string` constructor and answer a null
pointer, which the first use of the server dereferences; it counts as `none`. -/
def deserialize (bs : Bytes) : Option (SrvConfig × Bytes) := do
  let (id, bs) ← getInt bs
  let (endpoint, bs) ← getStr bs
  return (⟨id, endpoint⟩, bs)

end SrvConfig

/-- `cluster_config`. -/
structure ClusterConfig where
  logIdx : Nat := 0
  prevLogIdx : Nat := 0
  servers : List SrvConfig := []
deriving DecidableEq, Repr

namespace ClusterConfig

/-- `set_log_idx` keeps the old index as the previous one. -/
def setLogIdx (c : ClusterConfig) (idx : Nat) : ClusterConfig :=
  { c with prevLogIdx := c.logIdx, logIdx := idx }

/-- `get_server`: the first server with this id. -/
def getServer (c : ClusterConfig) (id : Int) : Option SrvConfig :=
  c.servers.find? (·.id = id)

/-- `cluster_config::serialize`. -/
def serialize (c : ClusterConfig) : Bytes :=
  leBytes 8 c.logIdx ++ (leBytes 8 c.prevLogIdx ++
    (putInt c.servers.length ++ c.servers.flatMap SrvConfig.serialize))

/-- The `while (cnt-- > 0)` loop of `cluster_config::deserialize`. -/
def readServers : Nat → Bytes → Option (List SrvConfig × Bytes)
  | 0, bs => some ([], bs)
  | cnt + 1, bs => do
    let (srv, bs) ← SrvConfig.deserialize bs
    let (srvs, bs) ← readServers cnt bs
    return (srv :: srvs, bs)

/-- `cluster_config::deserialize`. -/
def deserialize (bs : Bytes) : Option (ClusterConfig × Bytes) := do
  let (logIdx, bs) ← readLE 8 bs
  let (prevLogIdx, bs) ← readLE 8 bs
  let (cnt, bs) ← getInt bs
  let (servers, bs) ← readServers cnt.toNat bs
  return (⟨logIdx, prevLogIdx, servers⟩, bs)

end ClusterConfig

/-- `snapshot`. -/
structure Snapshot where
  lastLogIdx : Nat
  lastLogTerm : Nat
  size : Nat
  lastConfig : ClusterConfig
deriving DecidableEq, Repr

namespace Snapshot

/-- `snapshot::serialize`. -/
def serialize (s : Snapshot) : Bytes :=
  leBytes 8 s.lastLogIdx ++ (leBytes 8 s.lastLogTerm ++
    (leBytes 8 s.size ++ s.lastConfig.serialize))

/-- `snapshot::deserialize`. -/
def deserialize (bs : Bytes) : Option (Snapshot × Bytes) := do
  let (lastLogIdx, bs) ← readLE 8 bs
  let (lastLogTerm, bs) ← readLE 8 bs
  let (size, bs) ← readLE 8 bs
  let (conf, bs) ← ClusterConfig.deserialize bs
  return (⟨lastLogIdx, lastLogTerm, size, conf⟩, bs)

end Snapshot

/-- `snapshot_sync_ctx`: the snapshot being copied to a peer, and how far. -/
structure SnapshotSyncCtx where
  snapshot : Snapshot
  offset : Nat := 0
deriving DecidableEq, Repr

/-- `snapshot_sync_req`. -/
@[ext] structure SnapshotSyncReq where
  snapshot : Snapshot
  offset : Nat
  data : Bytes
  done : Bool
deriving DecidableEq, Repr

namespace SnapshotSyncReq

/-- `snapshot_sync_req::serialize`. -/
def serialize (r : SnapshotSyncReq) : Bytes :=
  r.snapshot.serialize ++ (leBytes 8 r.offset ++ (if r.done then 1 else 0) :: r.data)

/-- `snapshot_sync_req::deserialize`: the data is whatever remains. -/
def deserialize (bs : Bytes) : Option SnapshotSyncReq := do
  let (snp, bs) ← Snapshot.deserialize bs
  let (offset, bs) ← readLE 8 bs
  match bs with
  | [] => none
  | d :: data => some ⟨snp, offset, data, d = 1⟩

end SnapshotSyncReq

/-- `srv_state`, the part of the server that `save_state` persists. -/
structure SrvState where
  term : Nat := 0
  commitIdx : Nat := 0
  votedFor : Int := -1
deriving DecidableEq, Repr

namespace SrvState

/-- `set_commit_idx` only ever moves forward. -/
def setCommitIdx (s : SrvState) (idx : Nat) : SrvState :=
  if idx > s.commitIdx then { s with commitIdx := idx } else s

@[simp] theorem setCommitIdx_zero (s : SrvState) : s.setCommitIdx 0 = s :=
  if_neg (Nat.not_lt_zero _)

@[simp] theorem setCommitIdx_term (s : SrvState) (idx : Nat) :
    (s.setCommitIdx idx).term = s.term := by
  unfold setCommitIdx
  split <;> rfl

@[simp] theorem setCommitIdx_votedFor (s : SrvState) (idx : Nat) :
    (s.setCommitIdx idx).votedFor = s.votedFor := by
  unfold setCommitIdx
  split <;> rfl

@[simp] theorem setCommitIdx_commitIdx (s : SrvState) (idx : Nat) :
    (s.setCommitIdx idx).commitIdx = max s.commitIdx idx := by
  unfold setCommitIdx
  split
  · rename_i h
    exact (max_eq_right (le_of_lt h)).symm
  · rename_i h
    exact (max_eq_left (Nat.not_lt.mp h)).symm

/-- `inc_term`, on `ulong`. -/
def incTerm (s : SrvState) : SrvState := { s with term := (s.term + 1) % ulongSize }

end SrvState

/-- `srv_role`. -/
inductive SrvRole
  | follower
  | candidate
  | leader
deriving DecidableEq, Repr

/-- `msg_type`. -/
inductive MsgType
  | requestVoteRequest
  | requestVoteResponse
  | appendEntriesRequest
  | appendEntriesResponse
  | clientRequest
  | addServerRequest
  | addServerResponse
  | removeServerRequest
  | removeServerResponse
  | syncLogRequest
  | syncLogResponse
  | joinClusterRequest
  | joinClusterResponse
  | leaveClusterRequest
  | leaveClusterResponse
  | installSnapshotRequest
  | installSnapshotResponse
deriving DecidableEq, Repr

/-- `req_msg`. -/
structure ReqMsg where
  term : Nat
  type : MsgType
  src : Int
  dst : Int
  lastLogTerm : Nat
  lastLogIdx : Nat
  commitIdx : Nat
  logEntries : List LogEntry := []
deriving DecidableEq, Repr

/-- `resp_msg`. -/
structure RespMsg where
  term : Nat
  type : MsgType
  src : Int
  dst : Int
  nextIdx : Nat := 0
  accepted : Bool := false
deriving DecidableEq, Repr

/-- `resp_msg::accept`. -/
def RespMsg.accept (r : RespMsg) (nextIdx : Nat) : RespMsg :=
  { r with nextIdx := nextIdx, accepted := true }

/-- `raft_params`, as far as the handlers read them. -/
structure RaftParams where
  electionTimeoutLowerBound : Int := 150
  heartBeatInterval : Int := 75
  rpcFailureBackoff : Int := 25
  logSyncBatchSize : Int := 1000
  logSyncStopGap : Int := 10
  snapshotDistance : Int := 0
  snapshotBlockSize : Int := 0
  maxAppendSize : Int := 100
deriving DecidableEq, Repr

/-- `max_hb_interval`; the division truncates. -/
def RaftParams.maxHbInterval (p : RaftParams) : Int :=
  max p.heartBeatInterval (p.electionTimeoutLowerBound - p.heartBeatInterval.tdiv 2)

/-! ## Round trips -/

theorem uintSize_eq : uintSize = 256 ^ 4 := by norm_num [uintSize]

theorem ulongSize_eq : ulongSize = 256 ^ 8 := by norm_num [ulongSize]

theorem getInt_putInt {i : Int} (h : Int.bmod i uintSize = i) (rest : Bytes) :
    getInt (putInt i ++ rest) = some (i, rest) := by
  have hpos : (0 : Int) < uintSize := by norm_num [uintSize]
  have hlt : (i % (uintSize : Int)).toNat < 256 ^ 4 := by
    have := Int.emod_lt_of_pos i hpos
    rw [← uintSize_eq]
    omega
  rw [getInt, putInt, readLE_leBytes 4 _ hlt, Option.map_some, int32OfUlong,
    bmod_emod_toNat i uintSize (by omega), h]

theorem getStr_append {s : Bytes} (hne : s ≠ []) (hnul : (0 : UInt8) ∉ s) (rest : Bytes) :
    getStr (s ++ 0 :: rest) = some (s, rest) := by
  have htake : (s ++ 0 :: rest).takeWhile (· ≠ 0) = s := by
    rw [List.takeWhile_append_of_pos]
    · simp
    · intro b hb
      simpa using fun h : b = 0 => hnul (h ▸ hb)
  simp only [getStr, htake]
  rw [if_neg (by simp [hne])]
  simp

/-- A server entry a decoder gives back: an `int32` id and an endpoint that is a
non-empty C string. -/
structure SrvConfig.Valid (c : SrvConfig) : Prop where
  id_int32 : Int.bmod c.id uintSize = c.id
  endpoint_ne : c.endpoint ≠ []
  endpoint_nul : (0 : UInt8) ∉ c.endpoint

theorem SrvConfig.deserialize_serialize {c : SrvConfig} (h : c.Valid) (rest : Bytes) :
    SrvConfig.deserialize (c.serialize ++ rest) = some (c, rest) := by
  have hs : c.serialize ++ rest = putInt c.id ++ (c.endpoint ++ 0 :: rest) := by
    simp [SrvConfig.serialize]
  rw [hs, SrvConfig.deserialize, getInt_putInt h.id_int32]
  simp [getStr_append h.endpoint_ne h.endpoint_nul]

/-- A configuration whose fields fit the wire format. -/
structure ClusterConfig.Valid (c : ClusterConfig) : Prop where
  logIdx_lt : c.logIdx < ulongSize
  prevLogIdx_lt : c.prevLogIdx < ulongSize
  servers_lt : 2 * c.servers.length < uintSize
  servers : ∀ s ∈ c.servers, s.Valid

theorem ClusterConfig.readServers_flatMap {srvs : List SrvConfig} (h : ∀ s ∈ srvs, s.Valid)
    (rest : Bytes) :
    readServers srvs.length (srvs.flatMap SrvConfig.serialize ++ rest) = some (srvs, rest) := by
  induction srvs with
  | nil => rfl
  | cons s srvs ih =>
    have hs := SrvConfig.deserialize_serialize (h s List.mem_cons_self)
      (srvs.flatMap SrvConfig.serialize ++ rest)
    have ih' := ih fun t ht => h t (List.mem_cons_of_mem _ ht)
    simp [readServers, hs, ih']

/-- The four reads of `deserialize`, one after the other. -/
theorem ClusterConfig.deserialize_of_reads {bs bs₁ bs₂ bs₃ bs₄ : Bytes} {l p : Nat} {cnt : Int}
    {srvs : List SrvConfig} (hl : readLE 8 bs = some (l, bs₁)) (hp : readLE 8 bs₁ = some (p, bs₂))
    (hc : getInt bs₂ = some (cnt, bs₃)) (hs : readServers cnt.toNat bs₃ = some (srvs, bs₄)) :
    ClusterConfig.deserialize bs = some (⟨l, p, srvs⟩, bs₄) := by
  simp [ClusterConfig.deserialize, hl, hp, hc, hs]

/-- **Configuration round trip**: a configuration entry decodes to the
configuration it was made from. -/
theorem ClusterConfig.deserialize_serialize {c : ClusterConfig} (h : c.Valid) (rest : Bytes) :
    ClusterConfig.deserialize (c.serialize ++ rest) = some (c, rest) := by
  have hcnt : Int.bmod (c.servers.length : Int) uintSize = c.servers.length := by
    have := h.servers_lt
    rw [Int.bmod_eq_of_le] <;> omega
  have hl : c.logIdx < 256 ^ 8 := lt_of_lt_of_eq h.logIdx_lt ulongSize_eq
  have hp : c.prevLogIdx < 256 ^ 8 := lt_of_lt_of_eq h.prevLogIdx_lt ulongSize_eq
  have hsrvs := readServers_flatMap h.servers rest
  rw [← Int.toNat_natCast c.servers.length] at hsrvs
  have hs : c.serialize ++ rest = leBytes 8 c.logIdx ++ (leBytes 8 c.prevLogIdx ++
      (putInt c.servers.length ++ (c.servers.flatMap SrvConfig.serialize ++ rest))) := by
    simp only [ClusterConfig.serialize, List.append_assoc]
  rw [hs]
  exact deserialize_of_reads (readLE_leBytes 8 _ hl _) (readLE_leBytes 8 _ hp _)
    (getInt_putInt hcnt _) hsrvs

/-- A snapshot whose fields fit the wire format. -/
structure Snapshot.Valid (s : Snapshot) : Prop where
  lastLogIdx_lt : s.lastLogIdx < ulongSize
  lastLogTerm_lt : s.lastLogTerm < ulongSize
  size_lt : s.size < ulongSize
  lastConfig : s.lastConfig.Valid

theorem Snapshot.deserialize_serialize {s : Snapshot} (h : s.Valid) (rest : Bytes) :
    Snapshot.deserialize (s.serialize ++ rest) = some (s, rest) := by
  have hi : s.lastLogIdx < 256 ^ 8 := lt_of_lt_of_eq h.lastLogIdx_lt ulongSize_eq
  have ht : s.lastLogTerm < 256 ^ 8 := lt_of_lt_of_eq h.lastLogTerm_lt ulongSize_eq
  have hz : s.size < 256 ^ 8 := lt_of_lt_of_eq h.size_lt ulongSize_eq
  have hs : s.serialize ++ rest = leBytes 8 s.lastLogIdx ++ (leBytes 8 s.lastLogTerm ++
      (leBytes 8 s.size ++ (s.lastConfig.serialize ++ rest))) := by
    simp only [Snapshot.serialize, List.append_assoc]
  rw [hs, Snapshot.deserialize, readLE_leBytes 8 _ hi, Option.bind_eq_bind, Option.bind_some]
  dsimp only
  rw [readLE_leBytes 8 _ ht, Option.bind_eq_bind, Option.bind_some]
  dsimp only
  rw [readLE_leBytes 8 _ hz, Option.bind_some]
  dsimp only
  rw [ClusterConfig.deserialize_serialize h.lastConfig]
  rfl

/-- **Snapshot block round trip.** -/
theorem SnapshotSyncReq.deserialize_serialize {r : SnapshotSyncReq} (h : r.snapshot.Valid)
    (ho : r.offset < ulongSize) : SnapshotSyncReq.deserialize r.serialize = some r := by
  have ho' : r.offset < 256 ^ 8 := lt_of_lt_of_eq ho ulongSize_eq
  rw [SnapshotSyncReq.serialize, SnapshotSyncReq.deserialize, Snapshot.deserialize_serialize h,
    Option.bind_eq_bind, Option.bind_some]
  dsimp only
  rw [readLE_leBytes 8 _ ho', Option.bind_eq_bind, Option.bind_some]
  obtain ⟨snp, offset, data, done⟩ := r
  cases done <;> rfl

end Cornerstone
