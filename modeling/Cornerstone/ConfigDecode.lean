import Cornerstone.WireSound
import Mathlib.Data.List.TakeWhile

/-! # What `cluster_config::deserialize` makes of any bytes

A server is read as an id and a C string.  Where `get_str` finds no string it answers
`nilptr` and leaves the cursor behind the id; the `std::string` made of that throws inside
`cs_new`, which catches everything and gives an empty handle.  The handle goes into the
list, and the next server is read from where the string should have been.  A negative
count goes through the loop as zero does.
-/

namespace Cornerstone
open LittleEndian

/-! ## Decoding with handles -/

/-- `cluster_config`, with the handles of its servers; `none` is an empty one. -/
structure HandleConfig where
  logIdx : Nat := 0
  prevLogIdx : Nat := 0
  servers : List (Option SrvConfig) := []
deriving DecidableEq

/-- `srv_config::deserialize`. -/
def SrvConfig.deserializeHandle (b : Block) : Option (Option SrvConfig × Block) := do
  let (id, b) ← b.getInt
  match b.getStr with
  | some (endpoint, b) => return (some ⟨id, endpoint⟩, b)
  | none => return (none, b)

/-- The `while (cnt-- > 0)` loop of `cluster_config::deserialize`. -/
def readHandles : Nat → Block → Option (List (Option SrvConfig) × Block)
  | 0, b => some ([], b)
  | cnt + 1, b => do
    let (srv, b) ← SrvConfig.deserializeHandle b
    let (srvs, b) ← readHandles cnt b
    return (srv :: srvs, b)

namespace HandleConfig

/-- `cluster_config::deserialize`; without a result it throws. -/
def deserialize (b : Block) : Option (HandleConfig × Block) := do
  let (logIdx, b) ← b.getULong
  let (prevLogIdx, b) ← b.getULong
  let (cnt, b) ← b.getInt
  let (servers, b) ← readHandles cnt.toNat b
  return (⟨logIdx, prevLogIdx, servers⟩, b)

/-- The buffers of the servers; an empty handle has nothing to call `serialize` on. -/
def serializeServers : List (Option SrvConfig) → Except Stop (List Block)
  | [] => .ok []
  | none :: _ => .error .fault
  | some srv :: srvs => do
    let buf ← orThrow srv.serializeBlock
    let srvBuffs ← serializeServers srvs
    return buf :: srvBuffs

/-- `cluster_config::serialize`. -/
def serialize (c : HandleConfig) : Except Stop Block := do
  let srvBuffs ← serializeServers c.servers
  let result ← orThrow (Block.alloc (2 * 8 + 4 + (srvBuffs.map Block.size).sum))
  let result ← orThrow (result.putULong c.logIdx)
  let result ← orThrow (result.putULong c.prevLogIdx)
  let result ← orThrow (result.putInt c.servers.length)
  let result ← orThrow (putBuffers srvBuffs result)
  return result.setPos 0

end HandleConfig

/-- The bytes between the cursors of two states of a buffer. -/
def Block.consumed (b b' : Block) : Bytes := b.data.take (b'.pos - b.pos)

/-- Decoding throws, or gives a configuration of valid servers that is encoded as just the
bytes it was made of. -/
def DecodesFaithfully (b : Block) : Prop :=
  ∀ c b', HandleConfig.deserialize b = some (c, b') →
    (∀ s ∈ c.servers, ∃ srv : SrvConfig, s = some srv ∧ srv.Valid) ∧
      ∃ out, c.serialize = .ok out ∧ out.Holds (b.consumed b')

/-! ## Without empty handles -/

/-- The servers of handles that are not empty. -/
def servers? (srvs : List (Option SrvConfig)) : Option (List SrvConfig) := srvs.mapM id

theorem deserializeBlock_eq (b : Block) : SrvConfig.deserializeBlock b =
    (SrvConfig.deserializeHandle b).bind fun r => r.1.map fun srv => (srv, r.2) := by
  rw [SrvConfig.deserializeBlock, SrvConfig.deserializeHandle]
  rcases b.getInt with - | ⟨id, b'⟩
  · rfl
  · rcases hstr : b'.getStr with - | ⟨endpoint, b''⟩ <;> simp [hstr]

theorem readServersBlock_eq (cnt : Nat) (b : Block) : readServersBlock cnt b =
    (readHandles cnt b).bind fun r => (servers? r.1).map fun srvs => (srvs, r.2) := by
  induction cnt generalizing b with
  | zero => rfl
  | succ cnt ih =>
    rw [readServersBlock, readHandles, deserializeBlock_eq]
    rcases SrvConfig.deserializeHandle b with - | ⟨- | srv, b'⟩
    · rfl
    · -- an empty handle is no server, whatever comes behind it
      cases h : readHandles cnt b' <;> simp [h, servers?]
    · simp only [Option.bind_eq_bind, Option.bind_some, Option.map_some, ih]
      rcases readHandles cnt b' with - | ⟨srvs, b''⟩
      · rfl
      · cases h : servers? srvs <;> simp_all [servers?]

/-- **`ClusterConfig.deserializeBlock` is the decoder where no handle is empty.** -/
theorem clusterConfig_deserializeBlock_eq (b : Block) : ClusterConfig.deserializeBlock b =
    (HandleConfig.deserialize b).bind fun r =>
      (servers? r.1.servers).map fun srvs => (⟨r.1.logIdx, r.1.prevLogIdx, srvs⟩, r.2) := by
  rw [ClusterConfig.deserializeBlock, HandleConfig.deserialize]
  rcases b.getULong with - | ⟨logIdx, b₁⟩
  · rfl
  rcases h₂ : b₁.getULong with - | ⟨prevLogIdx, b₂⟩
  · simp [h₂]
  rcases h₃ : b₂.getInt with - | ⟨cnt, b₃⟩
  · simp [h₂, h₃]
  simp only [Option.bind_eq_bind, Option.bind_some, h₂, h₃, readServersBlock_eq]
  rcases readHandles cnt.toNat b₃ with - | ⟨srvs, b₄⟩
  · rfl
  · cases h : servers? srvs <;> simp [h]

/-! ## What the bytes are -/

/-- A string with its terminator, not empty, and what is behind it. -/
def HasString (bs : Bytes) : Prop := ∃ s rest, s ≠ [] ∧ (0 : UInt8) ∉ s ∧ bs = s ++ 0 :: rest

/-- Bytes that end where one of so many servers is to begin; a server is a whole one, or
four bytes with no string behind them. -/
inductive RunsOut : Nat → Bytes → Prop
  | short {cnt : Nat} {bs : Bytes} (h : bs.length < 4) : RunsOut (cnt + 1) bs
  | server {cnt : Nat} {rest : Bytes} {srv : SrvConfig} (hsrv : srv.Valid) (h : RunsOut cnt rest) :
    RunsOut (cnt + 1) (srv.serialize ++ rest)
  | idOnly {cnt : Nat} {id rest : Bytes} (hid : id.length = 4) (hnone : ¬ HasString rest) (h : RunsOut cnt rest) :
    RunsOut (cnt + 1) (id ++ rest)

/-- Bytes that begin with so many servers. -/
def BeginsWith (cnt : Int) (bs : Bytes) : Prop :=
  ∃ (srvs : List SrvConfig) (rest : Bytes), (∀ srv ∈ srvs, srv.Valid) ∧ (srvs.length : Int) = cnt ∧
    bs = srvs.flatMap SrvConfig.serialize ++ rest

/-- The bytes end before the servers do, or begin with as many servers as is said in front
of them. -/
def WellCounted (bs : Bytes) : Prop :=
  bs.length < 20 ∨ ∃ header cnt rest, header.length = 16 ∧ Int.bmod cnt uintSize = cnt ∧
    bs = header ++ (putInt cnt ++ rest) ∧ (RunsOut cnt.toNat rest ∨ BeginsWith cnt rest)

/-! ## One server -/

/-- What `get_str` finds is a string with its terminator. -/
theorem getStr_some {bs s rest : Bytes} (h : getStr bs = some (s, rest)) :
    s ≠ [] ∧ (0 : UInt8) ∉ s ∧ bs = s ++ 0 :: rest := by
  simp only [getStr] at h
  split at h
  · cases h
  · rename_i hin
    obtain ⟨rfl, rfl⟩ := Prod.mk.inj (Option.some.inj h)
    rw [not_or] at hin
    have hsplit : bs.takeWhile (· ≠ 0) ++ bs.dropWhile (· ≠ 0) = bs := List.takeWhile_append_dropWhile
    rcases hdrop : bs.dropWhile (· ≠ 0) with - | ⟨x, tail⟩
    · rw [hdrop, List.append_nil] at hsplit
      exact absurd (congrArg List.length hsplit) hin.1
    · have hx : x = 0 := by
        have hhead := List.head?_dropWhile_not (fun y : UInt8 => decide (y ≠ 0)) bs
        rw [hdrop] at hhead
        simpa using hhead
      rw [hdrop, hx] at hsplit
      refine ⟨hin.2, fun hmem => ?_, ?_⟩
      · simpa using List.mem_takeWhile_imp hmem
      · have htail : bs.drop ((bs.takeWhile (· ≠ 0)).length + 1) = tail := by
          have hsame := congrArg (List.drop ((bs.takeWhile (· ≠ 0)).length + 1)) hsplit
          rw [← hsame, ← List.drop_drop, List.drop_left]
          rfl
        rw [htail, hsplit]

theorem getStr_eq_none {bs : Bytes} (h : ¬ HasString bs) : getStr bs = none := by
  rcases hread : getStr bs with - | ⟨s, rest⟩
  · rfl
  · exact absurd ⟨s, rest, getStr_some hread⟩ h

/-- Four bytes and more begin with a server, or with an id and no string behind it. -/
theorem exists_record {bs : Bytes} (h : 4 ≤ bs.length) :
    (∃ (srv : SrvConfig) (rest : Bytes), srv.Valid ∧ bs = srv.serialize ++ rest) ∨
      ∃ id rest : Bytes, id.length = 4 ∧ ¬ HasString rest ∧ bs = id ++ rest := by
  obtain ⟨field, rest, rfl, hfield⟩ := exists_front h
  by_cases hstr : HasString rest
  · obtain ⟨s, rest', hne, hnul, rfl⟩ := hstr
    obtain ⟨id, hid, rfl⟩ := exists_putInt hfield
    refine .inl ⟨⟨id, s⟩, rest', ⟨hid, hne, hnul⟩, ?_⟩
    simp only [SrvConfig.serialize, List.append_assoc, List.singleton_append]
  · exact .inr ⟨field, rest, hfield, hstr, rfl⟩

section
variable {t : Tape} {rest : Bytes}

theorem deserializeHandle_short (h : t.after.length < 4) : SrvConfig.deserializeHandle t.layout = none := by
  have hnone : t.layout.getInt = none := by rw [Block.getInt, take_none h, Option.map_none]
  simp only [SrvConfig.deserializeHandle, hnone, Option.bind_eq_bind, Option.bind_none]

theorem deserializeHandle_server {srv : SrvConfig} (hsrv : srv.Valid) (ht : t.after = srv.serialize ++ rest) :
    ∃ u, SrvConfig.deserializeHandle t.layout = some (some srv, Tape.layout u) ∧ t.Passes srv.serialize u ∧
      u.after = rest := by
  have hsplit : t.after = putInt srv.id ++ (srv.endpoint ++ 0 :: rest) := by
    rw [ht]
    simp only [SrvConfig.serialize, List.append_assoc, List.singleton_append]
  obtain ⟨m, hid, hpass, hm⟩ := (reads_int hsrv.id_int32 hsplit).passes hsplit
  have hstr : getStr m.after = some (srv.endpoint, rest) := by
    rw [hm]
    exact getStr_append hsrv.endpoint_ne hsrv.endpoint_nul rest
  have hm' : m.after = (srv.endpoint ++ [0]) ++ rest := by
    rw [hm, List.append_assoc, List.singleton_append]
  obtain ⟨u, hendpoint, hpass', hafter⟩ := (tracks_getStr m _ _ hstr).passes hm'
  refine ⟨u, ?_, ?_, hafter⟩
  · simp only [SrvConfig.deserializeHandle, hid, hendpoint, Option.bind_eq_bind, Option.bind_some]
    rfl
  · rw [SrvConfig.serialize, List.append_assoc]
    exact hpass.trans hpass'

/-- The cursor stays behind the id. -/
theorem deserializeHandle_idOnly {id : Bytes} (hid : id.length = 4) (hnone : ¬ HasString rest)
    (ht : t.after = id ++ rest) :
    ∃ u, SrvConfig.deserializeHandle t.layout = some (none, Tape.layout u) ∧ u.after = rest := by
  obtain ⟨n, hn, rfl⟩ := exists_putInt hid
  obtain ⟨u, hint, -, hafter⟩ := (reads_int hn ht).passes ht
  have hstr : u.layout.getStr = none := by
    apply getStr_none
    rw [hafter, getStr_eq_none hnone]
  refine ⟨u, ?_, hafter⟩
  simp only [SrvConfig.deserializeHandle, hint, hstr, Option.bind_eq_bind, Option.bind_some]
  rfl

/-! ## The loop -/

/-- One round and then the others. -/
theorem readHandles_succ {cnt : Nat} {srv : Option SrvConfig} {u : Tape}
    (h : SrvConfig.deserializeHandle t.layout = some (srv, u.layout)) :
    readHandles (cnt + 1) t.layout = (readHandles cnt u.layout).map fun r => (srv :: r.1, r.2) := by
  simp only [readHandles, h, Option.bind_eq_bind, Option.bind_some]
  cases readHandles cnt u.layout <;> rfl

/-- Where the bytes run out the loop throws. -/
theorem readHandles_none {cnt : Nat} {bs : Bytes} (h : RunsOut cnt bs) :
    ∀ {t : Tape}, t.after = bs → readHandles cnt t.layout = none := by
  induction h with
  | short hlen =>
    intro t ht
    rw [← ht] at hlen
    simp only [readHandles, deserializeHandle_short hlen, Option.bind_eq_bind, Option.bind_none]
  | server hsrv _ ih =>
    intro t ht
    obtain ⟨u, hrun, -, hafter⟩ := deserializeHandle_server hsrv ht
    rw [readHandles_succ hrun, ih hafter, Option.map_none]
  | idOnly hid hnone _ ih =>
    intro t ht
    obtain ⟨u, hrun, hafter⟩ := deserializeHandle_idOnly hid hnone ht
    rw [readHandles_succ hrun, ih hafter, Option.map_none]

/-- Servers one behind the other are read as they are. -/
theorem readHandles_servers {srvs : List SrvConfig} (h : ∀ srv ∈ srvs, srv.Valid) :
    ∀ {t : Tape}, t.after = srvs.flatMap SrvConfig.serialize ++ rest →
      ∃ u, readHandles srvs.length t.layout = some (srvs.map some, Tape.layout u) ∧
        t.Passes (srvs.flatMap SrvConfig.serialize) u := by
  induction srvs with
  | nil =>
    intro t _
    exact ⟨t, rfl, (List.append_nil _).symm, rfl⟩
  | cons srv srvs ih =>
    intro t ht
    rw [List.flatMap_cons, List.append_assoc] at ht
    obtain ⟨m, hrun, hpass, hm⟩ := deserializeHandle_server (h srv List.mem_cons_self) ht
    obtain ⟨u, hruns, hpass'⟩ := ih (fun s hs => h s (List.mem_cons_of_mem _ hs)) hm
    refine ⟨u, ?_, ?_⟩
    · rw [List.length_cons, readHandles_succ hrun, hruns]
      rfl
    · rw [List.flatMap_cons]
      exact hpass.trans hpass'

/-- **What the loop makes of any bytes**: they run out, or are so many servers, or leave an
empty handle. -/
theorem readHandles_cases (cnt : Nat) : ∀ t : Tape,
    RunsOut cnt t.after ∨ BeginsWith cnt t.after ∨
      ∃ srvs u, readHandles cnt t.layout = some (srvs, Tape.layout u) ∧ none ∈ srvs := by
  induction cnt with
  | zero =>
    intro t
    exact .inr (.inl ⟨[], t.after, by simp, rfl, rfl⟩)
  | succ cnt ih =>
    intro t
    rcases Nat.lt_or_ge t.after.length 4 with hshort | hlong
    · exact .inl (.short hshort)
    rcases exists_record hlong with ⟨srv, rest, hsrv, ht⟩ | ⟨id, rest, hid, hnone, ht⟩
    · obtain ⟨u, hrun, -, hu⟩ := deserializeHandle_server hsrv ht
      rcases ih u with hout | ⟨srvs, tail, hall, hlen, hsrvs⟩ | ⟨srvs, v, hruns, hmem⟩
      · exact .inl (ht ▸ .server hsrv (hu ▸ hout))
      · refine .inr (.inl ⟨srv :: srvs, tail, ?_, ?_, ?_⟩)
        · intro s hs
          rcases List.mem_cons.mp hs with rfl | hs
          · exact hsrv
          · exact hall s hs
        · rw [List.length_cons]
          omega
        · rw [ht, ← hu, hsrvs, List.flatMap_cons, List.append_assoc]
      · exact .inr (.inr ⟨some srv :: srvs, v, by rw [readHandles_succ hrun, hruns]; rfl,
          List.mem_cons_of_mem _ hmem⟩)
    · obtain ⟨u, hrun, hu⟩ := deserializeHandle_idOnly hid hnone ht
      have hempty : ∀ srvs v, readHandles cnt u.layout = some (srvs, Tape.layout v) →
          ∃ srvs u, readHandles (cnt + 1) t.layout = some (srvs, Tape.layout u) ∧ none ∈ srvs := fun srvs v hruns =>
        ⟨none :: srvs, v, by rw [readHandles_succ hrun, hruns]; rfl, List.mem_cons_self⟩
      rcases ih u with hout | ⟨srvs, tail, hall, hlen, hsrvs⟩ | ⟨srvs, v, hruns, -⟩
      · exact .inl (ht ▸ .idOnly hid hnone (hu ▸ hout))
      · obtain ⟨v, hruns, -⟩ := readHandles_servers hall hsrvs
        obtain rfl : srvs.length = cnt := by omega
        exact .inr (.inr (hempty _ v hruns))
      · exact .inr (.inr (hempty srvs v hruns))

/-! ## The whole configuration -/

/-- Eight bytes are an `ulong`. -/
theorem exists_uLong {bs : Bytes} (h : bs.length = 8) : ∃ n < ulongSize, bs = leBytes 8 n := by
  refine ⟨leNat bs, ?_, ?_⟩
  · rw [ulongSize_eq, ← h]
    exact leNat_lt bs
  · rw [← h, leBytes_leNat]

/-- With fewer than twenty bytes there is no count. -/
theorem deserialize_short (h : t.after.length < 20) : HandleConfig.deserialize t.layout = none := by
  rcases Nat.lt_or_ge t.after.length 8 with hlt | hge
  · have hnone : t.layout.getULong = none := by rw [Block.getULong, take_none hlt, Option.map_none]
    simp only [HandleConfig.deserialize, hnone, Option.bind_eq_bind, Option.bind_none]
  obtain ⟨front, bs, hfront, hlen⟩ := exists_front hge
  obtain ⟨logIdx, hlogIdx, rfl⟩ := exists_uLong hlen
  obtain ⟨u, hread, -, hu⟩ := (reads_uLong hlogIdx hfront).passes hfront
  rw [hfront, List.length_append, hlen] at h
  rcases Nat.lt_or_ge u.after.length 8 with hlt | hge
  · have hnone : u.layout.getULong = none := by rw [Block.getULong, take_none hlt, Option.map_none]
    simp only [HandleConfig.deserialize, hread, hnone, Option.bind_eq_bind, Option.bind_some, Option.bind_none]
  obtain ⟨front', bs', hfront', hlen'⟩ := exists_front hge
  obtain ⟨prevLogIdx, hprevLogIdx, rfl⟩ := exists_uLong hlen'
  obtain ⟨v, hread', -, hv⟩ := (reads_uLong hprevLogIdx hfront').passes hfront'
  have hnone : v.layout.getInt = none := by
    rw [← hu, hfront', List.length_append, hlen'] at h
    rw [Block.getInt, take_none (by rw [hv]; omega), Option.map_none]
  simp only [HandleConfig.deserialize, hread, hread', hnone, Option.bind_eq_bind, Option.bind_some, Option.bind_none]

/-- Behind the indexes and the count comes the loop. -/
theorem deserialize_header {logIdx prevLogIdx : Nat} {cnt : Int} (hlogIdx : logIdx < ulongSize)
    (hprevLogIdx : prevLogIdx < ulongSize) (hcnt : Int.bmod cnt uintSize = cnt)
    (ht : t.after = leBytes 8 logIdx ++ (leBytes 8 prevLogIdx ++ (putInt cnt ++ rest))) :
    ∃ u : Tape, t.Passes (leBytes 8 logIdx ++ (leBytes 8 prevLogIdx ++ putInt cnt)) u ∧ u.after = rest ∧
      HandleConfig.deserialize t.layout =
        (readHandles cnt.toNat u.layout).map fun r => (⟨logIdx, prevLogIdx, r.1⟩, r.2) := by
  obtain ⟨u₁, h₁, hpass₁, hu₁⟩ := (reads_uLong hlogIdx ht).passes ht
  obtain ⟨u₂, h₂, hpass₂, hu₂⟩ := (reads_uLong hprevLogIdx hu₁).passes hu₁
  obtain ⟨u₃, h₃, hpass₃, hu₃⟩ := (reads_int hcnt hu₂).passes hu₂
  refine ⟨u₃, hpass₁.trans (hpass₂.trans hpass₃), hu₃, ?_⟩
  simp only [HandleConfig.deserialize, h₁, h₂, h₃, Option.bind_eq_bind, Option.bind_some]
  cases readHandles cnt.toNat u₃.layout <;> rfl

theorem consumed_eq {used : Bytes} {u : Tape} (h : t.Passes used u) : t.layout.consumed u.layout = used := by
  rw [Block.consumed, Tape.layout_data, Tape.layout_pos, Tape.layout_pos, h.before, h.after, List.length_append,
    Nat.add_sub_cancel_left, List.take_left]

end

theorem orThrow_bind {α β : Type} (o : Option α) (f : α → Option β) :
    orThrow (o.bind f) = orThrow o >>= fun a => orThrow (f a) := by
  cases o <;> rfl

theorem serializeServers_some (srvs : List SrvConfig) :
    HandleConfig.serializeServers (srvs.map some) = orThrow (srvs.mapM SrvConfig.serializeBlock) := by
  induction srvs with
  | nil => rfl
  | cons srv srvs ih =>
    rw [List.map_cons, HandleConfig.serializeServers, ih, List.mapM_cons, Option.bind_eq_bind, orThrow_bind]
    cases srv.serializeBlock with
    | none => rfl
    | some buf => cases srvs.mapM SrvConfig.serializeBlock <;> rfl

/-- Where no handle is empty, the configuration is encoded as one without handles. -/
theorem serialize_some (logIdx prevLogIdx : Nat) (srvs : List SrvConfig) :
    HandleConfig.serialize ⟨logIdx, prevLogIdx, srvs.map some⟩ =
      orThrow (ClusterConfig.serializeBlock ⟨logIdx, prevLogIdx, srvs⟩) := by
  rw [HandleConfig.serialize, serializeServers_some, List.length_map]
  simp only [ClusterConfig.serializeBlock, Option.bind_eq_bind, orThrow_bind]
  rfl

section
variable {t : Tape} {logIdx prevLogIdx : Nat} {cnt : Int} {srvs : List SrvConfig} {rest : Bytes}

/-- As many servers as the count says are decoded, and encoded as what they are. -/
theorem deserialize_servers (hlogIdx : logIdx < ulongSize) (hprevLogIdx : prevLogIdx < ulongSize)
    (hcnt : Int.bmod cnt uintSize = cnt) (hsrvs : ∀ srv ∈ srvs, srv.Valid) (hlen : srvs.length = cnt.toNat)
    (ht : t.after = leBytes 8 logIdx ++ (leBytes 8 prevLogIdx ++ (putInt cnt ++
      (srvs.flatMap SrvConfig.serialize ++ rest)))) :
    ∃ v out, HandleConfig.deserialize t.layout = some (⟨logIdx, prevLogIdx, srvs.map some⟩, Tape.layout v) ∧
      t.layout.consumed v.layout =
        leBytes 8 logIdx ++ (leBytes 8 prevLogIdx ++ (putInt cnt ++ srvs.flatMap SrvConfig.serialize)) ∧
      HandleConfig.serialize ⟨logIdx, prevLogIdx, srvs.map some⟩ = .ok out ∧
      out.Holds (ClusterConfig.serialize ⟨logIdx, prevLogIdx, srvs⟩) := by
  obtain ⟨u, hpass, hu, hrun⟩ := deserialize_header hlogIdx hprevLogIdx hcnt ht
  obtain ⟨v, hruns, hpass'⟩ := readHandles_servers hsrvs hu
  rw [← hlen, hruns, Option.map_some] at hrun
  -- the encoding is as long as the bytes read, which are in a buffer
  have hfits : (ClusterConfig.serialize ⟨logIdx, prevLogIdx, srvs⟩).length < bufferLimit := by
    have hbound := t.fits
    rw [ht] at hbound
    simp only [ClusterConfig.serialize, putInt, List.length_append, leBytes_length] at hbound ⊢
    omega
  obtain ⟨out, hout, hholds⟩ := clusterConfig_writes hfits
  refine ⟨v, out, hrun, ?_, ?_, hholds⟩
  · rw [consumed_eq (hpass.trans hpass')]
    simp only [List.append_assoc]
  · rw [serialize_some, hout]
    rfl

theorem putInt_injective {i j : Int} (hi : Int.bmod i uintSize = i) (hj : Int.bmod j uintSize = j)
    (h : putInt i = putInt j) : i = j := by
  have hread := getInt_putInt hi []
  rw [h, getInt_putInt hj []] at hread
  exact (Prod.mk.inj (Option.some.inj hread)).1.symm

/-- A negative count is read as none, and written as zero. -/
theorem negative_unfaithful (hlogIdx : logIdx < ulongSize) (hprevLogIdx : prevLogIdx < ulongSize)
    (hcnt : Int.bmod cnt uintSize = cnt) (hneg : cnt < 0)
    (ht : t.after = leBytes 8 logIdx ++ (leBytes 8 prevLogIdx ++ (putInt cnt ++ rest))) :
    ¬ DecodesFaithfully t.layout := by
  intro hfaith
  have hnone : ∀ srv ∈ ([] : List SrvConfig), srv.Valid := by simp
  obtain ⟨v, out, hrun, hconsumed, hout, hholds⟩ := deserialize_servers hlogIdx hprevLogIdx hcnt hnone
    (Int.toNat_of_nonpos hneg.le).symm ht
  obtain ⟨-, out', hout', hholds'⟩ := hfaith _ _ hrun
  obtain rfl : out = out' := Except.ok.inj (hout.symm.trans hout')
  have hsame := hholds.data.symm.trans hholds'.data
  rw [hconsumed, ClusterConfig.serialize] at hsame
  have hcounts : putInt 0 ++ [] = putInt cnt ++ [] :=
    List.append_cancel_left (List.append_cancel_left hsame)
  rw [List.append_nil, List.append_nil] at hcounts
  have hzero := putInt_injective (by decide) hcnt hcounts
  omega

end

/-- Twenty bytes are the indexes and the count. -/
theorem exists_configHeader {bs : Bytes} (h : 20 ≤ bs.length) :
    ∃ header cnt rest, header.length = 16 ∧ Int.bmod cnt uintSize = cnt ∧ bs = header ++ (putInt cnt ++ rest) := by
  obtain ⟨header, bs', rfl, hheader⟩ := exists_front (show 16 ≤ bs.length by omega)
  rw [List.length_append, hheader] at h
  obtain ⟨field, rest, rfl, hfield⟩ := exists_front (show 4 ≤ bs'.length by omega)
  obtain ⟨cnt, hcnt, rfl⟩ := exists_putInt hfield
  exact ⟨header, cnt, rest, hheader, hcnt, rfl⟩

theorem exists_indexes {header : Bytes} (h : header.length = 16) :
    ∃ logIdx < ulongSize, ∃ prevLogIdx < ulongSize, header = leBytes 8 logIdx ++ leBytes 8 prevLogIdx := by
  obtain ⟨front, back, rfl, hfront⟩ := exists_front (show 8 ≤ header.length by omega)
  rw [List.length_append, hfront] at h
  obtain ⟨logIdx, hlogIdx, rfl⟩ := exists_uLong hfront
  obtain ⟨prevLogIdx, hprevLogIdx, rfl⟩ := exists_uLong (show back.length = 8 by omega)
  exact ⟨logIdx, hlogIdx, prevLogIdx, hprevLogIdx, rfl⟩

/-- **Decoding is faithful exactly if the bytes run out or begin with as many servers as is
said in front of them.** -/
theorem decodes_faithfully_iff {b : Block} (hb : b.Sound) :
    DecodesFaithfully b ↔ WellCounted (b.data.take b.avail) := by
  obtain ⟨t, rfl⟩ := hb
  rw [Tape.layout_data, Tape.layout_avail, List.take_length]
  constructor
  · intro hfaith
    rcases Nat.lt_or_ge t.after.length 20 with hshort | hlong
    · exact .inl hshort
    obtain ⟨header, cnt, rest, hheader, hcnt, ht⟩ := exists_configHeader hlong
    refine .inr ⟨header, cnt, rest, hheader, hcnt, ht, ?_⟩
    obtain ⟨logIdx, hlogIdx, prevLogIdx, hprevLogIdx, rfl⟩ := exists_indexes hheader
    rw [List.append_assoc] at ht
    obtain ⟨u, -, hu, hrun⟩ := deserialize_header hlogIdx hprevLogIdx hcnt ht
    rcases readHandles_cases cnt.toNat u with hout | hservers | ⟨srvs, v, hruns, hmem⟩
    · exact .inl (hu ▸ hout)
    · rcases lt_or_ge cnt 0 with hneg | hpos
      · exact absurd hfaith (negative_unfaithful hlogIdx hprevLogIdx hcnt hneg ht)
      · rw [Int.toNat_of_nonneg hpos, hu] at hservers
        exact .inr hservers
    · rw [hruns, Option.map_some] at hrun
      obtain ⟨srv, hsrv, -⟩ := (hfaith _ _ hrun).1 none hmem
      cases hsrv
  · intro hcounted c b' hrun
    rcases hcounted with hshort | ⟨header, cnt, rest, hheader, hcnt, ht, hservers⟩
    · rw [deserialize_short hshort] at hrun
      cases hrun
    obtain ⟨logIdx, hlogIdx, prevLogIdx, hprevLogIdx, rfl⟩ := exists_indexes hheader
    rw [List.append_assoc] at ht
    rcases hservers with hout | ⟨srvs, tail, hsrvs, hlen, rfl⟩
    · obtain ⟨u, -, hu, hread⟩ := deserialize_header hlogIdx hprevLogIdx hcnt ht
      rw [hread, readHandles_none hout hu] at hrun
      cases hrun
    · obtain ⟨v, out, hread, hconsumed, hout, hholds⟩ := deserialize_servers hlogIdx hprevLogIdx hcnt hsrvs
        (by omega) ht
      obtain ⟨rfl, rfl⟩ := Prod.mk.inj (Option.some.inj (hread.symm.trans hrun))
      refine ⟨fun s hs => ?_, out, hout, ?_⟩
      · obtain ⟨srv, hmem, rfl⟩ := List.mem_map.mp hs
        exact ⟨srv, rfl, hsrvs srv hmem⟩
      · rw [hconsumed, ← hlen]
        exact hholds

/-- A configuration of one server, whose bytes are those of `1` and `"a"`. -/
def oneServer : Tape := ⟨[], leBytes 8 5 ++ (leBytes 8 2 ++ (putInt 1 ++ (putInt 1 ++ [97, 0]))), by decide⟩

theorem decodes_faithfully_iff_one :
    DecodesFaithfully oneServer.layout ↔ WellCounted (oneServer.layout.data.take oneServer.layout.avail) :=
  decodes_faithfully_iff ⟨oneServer, rfl⟩

/-- Servers said to be fewer than none. -/
def negativeCount : Tape := ⟨[], leBytes 8 5 ++ (leBytes 8 2 ++ (putInt (-1) ++ [])), by decide⟩

/-- A server without an endpoint. -/
def emptyEndpoint : Tape := ⟨[], leBytes 8 5 ++ (leBytes 8 2 ++ (putInt 1 ++ (putInt 1 ++ [0]))), by decide⟩

/-- **A negative count is lost, and an empty endpoint makes an empty handle.** -/
theorem decodes_faithfully_fails :
    ¬ (∀ b : Block, b.Sound → DecodesFaithfully b) ∧ ¬ DecodesFaithfully negativeCount.layout ∧
      ¬ DecodesFaithfully emptyEndpoint.layout := by
  have hnegative : ¬ DecodesFaithfully negativeCount.layout :=
    negative_unfaithful (by norm_num [ulongSize]) (by norm_num [ulongSize]) (by decide) (by decide) rfl
  refine ⟨fun h => hnegative (h _ ⟨negativeCount, rfl⟩), hnegative, fun hfaith => ?_⟩
  have hbytes : emptyEndpoint.after = leBytes 8 5 ++ (leBytes 8 2 ++ (putInt 1 ++ (putInt 1 ++ [0]))) := rfl
  obtain ⟨u, -, hu, hrun⟩ := deserialize_header (by norm_num [ulongSize]) (by norm_num [ulongSize]) (by decide) hbytes
  have hnone : ¬ HasString [0] := by
    rintro ⟨s, rest, hne, -, heq⟩
    rcases s with - | ⟨x, s⟩
    · exact hne rfl
    · simp at heq
  obtain ⟨v, hread, -⟩ := deserializeHandle_idOnly (by decide) hnone hu
  have hone : readHandles (1 : Int).toNat u.layout = some ([none], v.layout) := by
    show readHandles (0 + 1) u.layout = _
    rw [readHandles_succ hread]
    rfl
  rw [hone, Option.map_some] at hrun
  obtain ⟨srv, hsrv, -⟩ := (hfaith _ _ hrun).1 none List.mem_cons_self
  cases hsrv

end Cornerstone
