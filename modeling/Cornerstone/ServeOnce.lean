import Cornerstone.RpcSession

/-! # What one connection serves

The callbacks of a session on the bytes of a frame, and from them what becomes of
a connection on which a client writes frame after frame.  A session that gets a
response from its handler stops without writing it, so only a client that writes
nothing, or one whose first request makes the handler throw, sees its frames
served as they should be.
-/

namespace Cornerstone
open LittleEndian Handlers Handler

variable {σ : Type} {h : MsgHandler σ} {s : Session σ} {r : ReqMsg}

/-- Whether the session goes on after a call: with no response it runs into a null
pointer. -/
def Answer.outcome : Answer → Except Stop Unit
  | .returns none => .error .fault
  | _ => .ok ()

namespace Session

/-- The session after a request is handled. -/
def served (h : MsgHandler σ) (r : ReqMsg) (s : Session σ) : Session σ :=
  { s with
    handler := (h s.handler r).1
    header := ⟨r.header, rpcReqHeaderSize⟩
    isOpen := s.isOpen && decide ((h s.handler r).2 = .returns none) }

/-- The log data the session holds gives the entries of the request. -/
def HoldsData (s : Session σ) (r : ReqMsg) : Prop :=
  r.logEntries = [] ∨ ∃ pos, s.logData = some ⟨r.logData, pos⟩

theorem logData_eq_nil : r.logData = [] ↔ r.logEntries = [] := by
  refine ⟨fun hnil => ?_, fun hnil => by rw [ReqMsg.logData, hnil]; rfl⟩
  cases hes : r.logEntries with
  | nil => rfl
  | cons e es =>
    rw [ReqMsg.logData, hes, List.flatMap_cons] at hnil
    have := congrArg List.length hnil
    rw [List.length_append, LogEntry.frame_length, List.length_nil] at this
    omega

theorem length_le_logData (es : List LogEntry) :
    es.length ≤ (es.flatMap LogEntry.frame).length := by
  induction es with
  | nil => simp
  | cons e es ih =>
    rw [List.flatMap_cons, List.length_append, LogEntry.frame_length, List.length_cons]
    omega

theorem logEntries_run (hr : r.Fits) (hdata : s.HoldsData r) :
    logEntries (r.logData.length : Int) s = ⟨.ok r.logEntries, s, []⟩ := by
  have hread := readEntries_flatMap hr.entries r.logData.length (length_le_logData _)
  by_cases hnil : r.logEntries = []
  · have hzero : ¬ ((r.logData.length : Int) > 0) := by
      rw [logData_eq_nil.mpr hnil]
      decide
    cases hd : s.logData with
    | none => simp [logEntries, hd, hnil]
    | some data =>
      simp only [logEntries, bind_run, look_run, Outcome.andThen_ok, hd, if_neg hzero, pure_run, hnil,
        List.nil_append]
  · obtain ⟨pos, hd⟩ := hdata.resolve_left hnil
    have hpos : (r.logData.length : Int) > 0 := by
      have := List.length_pos_iff.mpr (mt logData_eq_nil.mp hnil)
      omega
    rw [← ReqMsg.logData] at hread
    simp only [logEntries, bind_run, look_run, Outcome.andThen_ok, hd, if_pos hpos, hread, pure_run,
      List.nil_append]

/-- **`read_complete`** calls the handler once with the request of the frame, and
closes the session unless it runs into the null pointer. -/
theorem readComplete_run (hr : r.Fits) (hheader : s.header.bytes = r.header)
    (hdata : s.HoldsData r) :
    readComplete h s =
      ⟨(h s.handler r).2.outcome, s.served h r, [.call r (h s.handler r).2]⟩ := by
  have hread := readReqHeader_header hr []
  rw [List.append_nil] at hread
  have hentries : ∀ t : Session σ, t.logData = s.logData →
      logEntries (r.logData.length : Int) t = ⟨.ok r.logEntries, t, []⟩ := by
    intro t ht
    refine logEntries_run hr ?_
    rw [HoldsData, ht]
    exact hdata
  have hblock : readCompleteBlock h s =
      ((do
        let resp ← processReq h r
        respond resp) : Callback σ Unit)
        { s with header := ⟨r.header, rpcReqHeaderSize⟩ } := by
    simp only [readCompleteBlock, bind_run, change_run, look_run, Outcome.andThen_ok, List.nil_append,
      hheader, hread]
    rw [hentries]
    · rfl
    · rfl
  rw [readComplete, rescue, hblock]
  cases ha : (h s.handler r).2 with
  | throws =>
    simp [processReq, ha, stop, served, Answer.outcome, Stop.caught]
  | returns resp =>
    cases resp with
    | none => simp [processReq, ha, respond, served, Answer.outcome, Stop.caught]
    | some resp => simp [processReq, ha, respond, stop, served, Answer.outcome]

/-- `read_log_data` with the log data of the request whose header was read. -/
theorem readLogData_run {bytes : Bytes} {a : σ} (hr : r.Fits) (hheader : s.header.bytes = r.header)
    (hdata : r.logEntries = [] ∨ bytes = r.logData) (ha : s.handler = a) :
    readLogData h bytes s =
      ⟨(h a r).2.outcome, served h r { s with logData := some ⟨bytes, 0⟩ },
        [.call r (h a r).2]⟩ := by
  have hholds : HoldsData { s with logData := some ⟨bytes, 0⟩ } r :=
    hdata.imp id fun hb => ⟨0, by rw [hb]⟩
  subst ha
  simp only [readLogData, bind_run, change_run, Outcome.andThen_ok, List.nil_append]
  exact readComplete_run hr hheader hholds

/-- The session once it has read a header. -/
def withHeader (s : Session σ) (r : ReqMsg) : Session σ :=
  { s with header := ⟨r.header, rpcReqHeaderSize⟩ }

theorem fillHeader_run (hlen : s.header.bytes.length = rpcReqHeaderSize) :
    fillHeader 0 r.header s =
      ⟨.ok (), { s with header := { s.header with bytes := r.header } }, []⟩ := by
  have hin : ¬ (0 + r.header.length > s.header.bytes.length) := by
    rw [hlen, ReqMsg.header_length]
    omega
  have hdrop : s.header.bytes.drop (0 + r.header.length) = [] := by
    rw [List.drop_eq_nil_iff, hlen, ReqMsg.header_length]
    omega
  simp only [fillHeader, bind_run, look_run, Outcome.andThen_ok, ite_run, if_neg hin, change_run, hdrop,
    List.take_zero, List.nil_append, List.append_nil]

/-- The callback of `start` on the header of a request: without log data the
request is handled at once, and in any case the log data is read next. -/
theorem headerRead_eq (hr : r.Fits) (hlen : s.header.bytes.length = rpcReqHeaderSize) :
    headerRead h 0 r.header s =
      ((do
        if r.logEntries = [] then readComplete h else pure ()
        change fun s => { s with logData := some (Buffer.alloc r.logData.length) }
        emit (.readLogData r.logData.length)) : Callback σ Unit) (s.withHeader r) := by
  have hsize := getInt_header hr []
  rw [List.append_nil] at hsize
  have hok : ¬ ((r.logData.length : Int) < 0 ∨ (r.logData.length : Int) > maxLogDataSize) := by
    have := hr.logData
    omega
  have hzero : (r.logData.length : Int) = 0 ↔ r.logEntries = [] := by
    rw [← logData_eq_nil, ← List.length_eq_zero_iff]
    omega
  simp only [headerRead, bind_run, fillHeader_run hlen, look_run, Outcome.andThen_ok, change_run,
    List.nil_append, hsize, ite_run, if_neg hok, hzero, Int.toNat_natCast]
  rfl

/-- A header with log data to come. -/
theorem headerRead_data (hr : r.Fits) (hlen : s.header.bytes.length = rpcReqHeaderSize)
    (hdata : r.logEntries ≠ []) :
    headerRead h 0 r.header s =
      ⟨.ok (), { s.withHeader r with logData := some (Buffer.alloc r.logData.length) },
        [.readLogData r.logData.length]⟩ := by
  rw [headerRead_eq hr hlen]
  simp [hdata]

/-- A header with no log data: the request is handled, and then a read of no bytes
is started all the same. -/
theorem headerRead_empty (hr : r.Fits) (hlen : s.header.bytes.length = rpcReqHeaderSize)
    (hdata : r.logEntries = []) (hans : (h s.handler r).2 ≠ .returns none) :
    headerRead h 0 r.header s =
      ⟨.ok (), { s.served h r with logData := some (Buffer.alloc 0) },
        [.call r (h s.handler r).2, .readLogData 0]⟩ := by
  have hrun := readComplete_run (h := h) (s := s.withHeader r) hr rfl (.inl hdata)
  have hout : (h (s.withHeader r).handler r).2.outcome = .ok () := by
    revert hans
    change (h s.handler r).2 ≠ .returns none → (h s.handler r).2.outcome = .ok ()
    rcases (h s.handler r).2 with _ | (_ | resp)
    · exact fun _ => rfl
    · exact fun hne => absurd rfl hne
    · exact fun _ => rfl
  have hnil : r.logData.length = 0 := by rw [logData_eq_nil.mpr hdata]; rfl
  rw [hout] at hrun
  rw [headerRead_eq hr hlen]
  simp only [if_pos hdata, bind_run, hrun, Outcome.andThen_ok, change_run, emit_run, hnil,
    List.nil_append, List.singleton_append]
  rfl

theorem headerRead_fault (hr : r.Fits) (hlen : s.header.bytes.length = rpcReqHeaderSize)
    (hdata : r.logEntries = []) (hans : (h s.handler r).2 = .returns none) :
    (headerRead h 0 r.header s).res = .error .fault := by
  have hrun := readComplete_run (h := h) (s := s.withHeader r) hr rfl (.inl hdata)
  have hout : (h (s.withHeader r).handler r).2.outcome = .error .fault := by
    change (h s.handler r).2.outcome = .error .fault
    rw [hans]
    rfl
  rw [hout] at hrun
  rw [headerRead_eq hr hlen]
  simp only [if_pos hdata, bind_run, hrun, Outcome.andThen_error]

end Session

namespace Connection
variable {e : Bool} {c : Connection σ} {x : Callback σ Unit} {t : Session σ} {out : List IoEffect}
  {a : σ} {rest : List ReqMsg}

theorem callback_ok (hx : x c.session = ⟨.ok (), t, out⟩) :
    c.callback x = out.foldl note { c with session := t } := by
  simp only [callback, hx]

theorem callback_fault (hx : (x c.session).res = .error .fault) : (c.callback x).crashed = true := by
  simp only [callback, hx]

/-- What holds at the start and survives every move holds of every run. -/
theorem run_invariant {I : Connection σ → Prop}
    (hstep : ∀ c m c', I c → c.step e h m = some c' → I c') :
    ∀ ms c c', I c → run e h ms c = some c' → I c'
  | [], c, c', hI, hrun => Option.some.inj hrun ▸ hI
  | m :: ms, c, c', hI, hrun => by
    obtain ⟨c₁, hc₁, hrest⟩ := Option.bind_eq_some_iff.mp hrun
    exact run_invariant hstep ms c₁ c' (hstep c m c₁ hI hc₁) hrest

/-- A client that waits while nothing is under way waits for ever. -/
theorem quiet_of_idle (hops : c.operations = []) (hwait : c.waiting = true)
    (hnone : c.toClient = []) : c.Quiet e h := by
  rintro (_ | _ | k)
  · simp only [step, hwait]
  · have hfew : ¬ (c.waiting = true ∧ rpcRespHeaderSize ≤ c.toClient.length) := by
      rw [hnone]
      exact fun hc => absurd hc.2 (by decide)
    simp only [step, if_neg hfew]
  · simp only [step, hops, List.getElem?_nil]
    cases c.crashed <;> rfl

/-- The client has written its first frame. -/
def wrote (a : σ) (r : ReqMsg) (rest : List ReqMsg) : Connection σ :=
  { session := { handler := a }, operations := [.header 0], toServer := r.frame
    queue := rest, waiting := true, sent := [r] }

/-- The session has read a header and waits for the log data. -/
def gotHeader (a : σ) (r : ReqMsg) (rest : List ReqMsg) : Connection σ :=
  { wrote a r rest with
    session := { Session.withHeader { handler := a } r with
      logData := some (Buffer.alloc r.logData.length) }
    operations := [.logData r.logData.length]
    toServer := r.logData }

/-- The session has handled a request without log data, and reads no bytes. -/
def servedEmpty (h : MsgHandler σ) (a : σ) (r : ReqMsg) (rest : List ReqMsg) : Connection σ :=
  { wrote a r rest with
    session := { Session.served h r { handler := a } with logData := some (Buffer.alloc 0) }
    operations := [.logData 0]
    toServer := []
    calls := [r]
    returned := (h a r).2.responses }

/-- The session has handled a request with log data. -/
def servedData (h : MsgHandler σ) (a : σ) (r : ReqMsg) (rest : List ReqMsg) : Connection σ :=
  { wrote a r rest with
    session := Session.served h r { handler := a, logData := some ⟨r.logData, 0⟩ }
    operations := []
    toServer := []
    calls := [r]
    returned := (h a r).2.responses }

theorem start_send : (start a (r :: rest)).step e h .send = some (wrote a r rest) := rfl

theorem fresh_length : ({ handler := a } : Session σ).header.bytes.length = rpcReqHeaderSize :=
  List.length_replicate

theorem frame_take (r : ReqMsg) : r.frame.take rpcReqHeaderSize = r.header := by
  rw [ReqMsg.frame, ← ReqMsg.header_length r, List.take_left]

theorem frame_drop (r : ReqMsg) : r.frame.drop rpcReqHeaderSize = r.logData := by
  rw [ReqMsg.frame, ← ReqMsg.header_length r, List.drop_left]

theorem wrote_complete :
    (wrote a r rest).step e h (.complete 0) = some
      ({ wrote a r rest with operations := [], toServer := r.logData }.callback
        (Session.headerRead h 0 r.header)) := by
  have henough : ¬ r.frame.length < rpcReqHeaderSize := by
    rw [ReqMsg.frame, List.length_append, ReqMsg.header_length]
    omega
  simp only [step, wrote, finish, List.getElem?_cons_zero, List.eraseIdx_cons_zero, if_neg henough,
    frame_take, frame_drop, Bool.true_eq_false, false_and, if_false]

theorem wrote_data (hr : r.Fits) (hdata : r.logEntries ≠ []) :
    (wrote a r rest).step e h (.complete 0) = some (gotHeader a r rest) := by
  rw [wrote_complete]
  exact congrArg some (callback_ok (Session.headerRead_data hr fresh_length hdata))

theorem wrote_empty (hr : r.Fits) (hdata : r.logEntries = []) (hans : (h a r).2 ≠ .returns none) :
    (wrote a r rest).step e h (.complete 0) = some (servedEmpty h a r rest) := by
  have hnil : r.logData = [] := Session.logData_eq_nil.mpr hdata
  rw [wrote_complete, hnil]
  exact congrArg some (callback_ok (Session.headerRead_empty hr fresh_length hdata hans))

theorem wrote_fault (hr : r.Fits) (hdata : r.logEntries = []) (hans : (h a r).2 = .returns none) :
    ∃ c, (wrote a r rest).step e h (.complete 0) = some c ∧ c.crashed = true :=
  ⟨_, wrote_complete, callback_fault (Session.headerRead_fault hr fresh_length hdata hans)⟩

/-- A call that ends well leaves the session closed. -/
theorem outcome_ok {ans : Answer} (hans : ans ≠ .returns none) : ans.outcome = .ok () := by
  rcases ans with _ | (_ | resp)
  · rfl
  · exact absurd rfl hans
  · rfl

theorem gotHeader_complete :
    (gotHeader a r rest).step e h (.complete 0) = some
      ({ gotHeader a r rest with operations := [], toServer := [] }.callback
        (Session.readLogData h r.logData)) := by
  simp only [step, gotHeader, wrote, finish, Session.withHeader, List.getElem?_cons_zero,
    List.eraseIdx_cons_zero, Bool.true_eq_false, false_and, if_false, lt_irrefl, List.take_length,
    List.drop_length]

theorem gotHeader_data (hr : r.Fits) (hans : (h a r).2 ≠ .returns none) :
    (gotHeader a r rest).step e h (.complete 0) = some (servedData h a r rest) := by
  have hrun := Session.readLogData_run (h := h) (s := (gotHeader a r rest).session) (a := a) hr rfl
    (.inr rfl) rfl
  rw [outcome_ok hans] at hrun
  have hcall := callback_ok (c := { gotHeader a r rest with operations := [], toServer := [] }) hrun
  rw [gotHeader_complete, hcall]
  rfl

theorem gotHeader_fault (hr : r.Fits) (hans : (h a r).2 = .returns none) :
    ∃ c, (gotHeader a r rest).step e h (.complete 0) = some c ∧ c.crashed = true := by
  have hrun := Session.readLogData_run (h := h) (s := (gotHeader a r rest).session) (a := a) hr rfl
    (.inr rfl) rfl
  rw [hans] at hrun
  exact ⟨_, gotHeader_complete, callback_fault (congrArg Outcome.res hrun)⟩

/-- After a call without a null pointer the session is closed. -/
theorem served_closed {s : Session σ} (hans : (h s.handler r).2 ≠ .returns none) :
    (s.served h r).isOpen = false := by
  simp only [Session.served, hans, decide_false, Bool.and_false]

/-- The read of no bytes fails on the closed socket. -/
theorem servedEmpty_fails (hans : (h a r).2 ≠ .returns none) :
    (servedEmpty h a r rest).step false h (.complete 0) =
      some { servedEmpty h a r rest with operations := [] } := by
  have hclosed := served_closed (s := { handler := a }) hans
  have hsame : Session.stop (servedEmpty h a r rest).session =
      ⟨.ok (), (servedEmpty h a r rest).session, []⟩ := by
    simp only [Session.stop, change_run, servedEmpty, ← hclosed]
  have hfin : ∀ c : Connection σ, c.session = (servedEmpty h a r rest).session →
      finish false h c (.logData 0) = some c := by
    intro c hc
    have hfail : c.session.isOpen = false ∧ fails false (.logData 0) = true := by
      rw [hc]
      exact ⟨hclosed, rfl⟩
    rw [finish, if_pos hfail]
    refine congrArg some ?_
    rw [← hc] at hsame
    exact callback_ok hsame
  exact hfin _ rfl

/-- Where it succeeds, the request is handled once more. -/
theorem servedEmpty_again (hr : r.Fits) (hdata : r.logEntries = []) :
    ∃ c, (servedEmpty h a r rest).step true h (.complete 0) = some c ∧
      (c.crashed = true ∨ c.Quiet true h ∧ c.calls = [r, r] ∧ c.sent = [r]) := by
  have hrun : Session.readLogData h [] (servedEmpty h a r rest).session = _ :=
    Session.readLogData_run (a := (h a r).1) hr rfl (.inl hdata) rfl
  have hstep : (servedEmpty h a r rest).step true h (.complete 0) = some
      ({ servedEmpty h a r rest with operations := [] }.callback (Session.readLogData h [])) := by
    simp only [step, finish, fails, servedEmpty, wrote, List.getElem?_cons_zero,
      List.eraseIdx_cons_zero]
    simp
  refine ⟨_, hstep, ?_⟩
  by_cases hnone : (h (h a r).1 r).2 = .returns none
  · left
    refine callback_fault ?_
    rw [hrun]
    change (h (h a r).1 r).2.outcome = _
    rw [hnone]
    rfl
  · right
    have hok : (h (h a r).1 r).2.outcome = .ok () := outcome_ok hnone
    have hcall := callback_ok (c := { servedEmpty h a r rest with operations := [] })
      (hrun.trans (by rw [hok]))
    rw [hcall]
    exact ⟨quiet_of_idle rfl rfl rfl, rfl, rfl⟩

/-- A connection that never serves a frame wrongly: the response a call returned
is not written, so there must be none. -/
theorem no_response {ans : Answer} (hans : ans ≠ .returns none) (hnil : ans.responses = []) :
    ans = .throws := by
  rcases ans with _ | (_ | resp)
  · rfl
  · exact absurd rfl hans
  · cases hnil

theorem run_two {m m' : Move} {c₁ c₂ : Connection σ} (h₁ : c.step e h m = some c₁)
    (h₂ : c₁.step e h m' = some c₂) : run e h [m, m'] c = some c₂ := by
  simp only [run, h₁, h₂, Option.bind_some]

theorem run_three {m m' m'' : Move} {c₁ c₂ c₃ : Connection σ} (h₁ : c.step e h m = some c₁)
    (h₂ : c₁.step e h m' = some c₂) (h₃ : c₂.step e h m'' = some c₃) :
    run e h [m, m', m''] c = some c₃ := by
  simp only [run, h₁, h₂, h₃, Option.bind_some]

/-- A first frame with log data that is served right made the handler throw. -/
theorem throws_of_data (hr : r.Fits) (hdata : r.logEntries ≠ [])
    (hserves : (start a (r :: rest)).ServesOnce e h) : (h a r).2 = .throws := by
  by_cases hans : (h a r).2 = .returns none
  · obtain ⟨c, hc, hcrash⟩ : ∃ c, (gotHeader a r rest).step e h (.complete 0) = some c ∧ c.crashed = true :=
      gotHeader_fault hr hans
    have hfine := (hserves _ c (run_three start_send (wrote_data hr hdata) hc)).1
    rw [hcrash] at hfine
    cases hfine
  · have hquiet : (servedData h a r rest).Quiet e h := quiet_of_idle rfl rfl rfl
    have hlast : (gotHeader a r rest).step e h (.complete 0) = some (servedData h a r rest) :=
      gotHeader_data hr hans
    have hend := (hserves _ _ (run_three start_send (wrote_data hr hdata) hlast)).2 hquiet
    exact no_response hans hend.2.symm

/-- A first frame without log data that is served right made the handler throw, and
the read of no bytes failed. -/
theorem throws_of_empty (hr : r.Fits) (hdata : r.logEntries = [])
    (hserves : (start a (r :: rest)).ServesOnce e h) : (h a r).2 = .throws ∧ e = false := by
  by_cases hans : (h a r).2 = .returns none
  · obtain ⟨c, hc, hcrash⟩ : ∃ c, (wrote a r rest).step e h (.complete 0) = some c ∧ c.crashed = true :=
      wrote_fault hr hdata hans
    have hfine := (hserves _ c (run_two start_send hc)).1
    rw [hcrash] at hfine
    cases hfine
  · have hserved : (wrote a r rest).step e h (.complete 0) = some (servedEmpty h a r rest) :=
      wrote_empty hr hdata hans
    cases e with
    | false =>
      have hquiet : ({ servedEmpty h a r rest with operations := [] } : Connection σ).Quiet false h :=
        quiet_of_idle rfl rfl rfl
      have hrun := run_three start_send hserved (servedEmpty_fails hans)
      exact ⟨no_response hans ((hserves _ _ hrun).2 hquiet).2.symm, rfl⟩
    | true =>
      obtain ⟨c, hc, hcases⟩ : ∃ c, (servedEmpty h a r rest).step true h (.complete 0) = some c ∧
          (c.crashed = true ∨ c.Quiet true h ∧ c.calls = [r, r] ∧ c.sent = [r]) :=
        servedEmpty_again hr hdata
      have hend := hserves _ c (run_three start_send hserved hc)
      rcases hcases with hcrash | ⟨hquiet, hcalls, hsent⟩
      · rw [hcrash] at hend
        cases hend.1
      · have htwice := (hend.2 hquiet).1
        rw [hcalls, hsent] at htwice
        cases htwice

/-- While the client waits and one operation is under way, only that can complete. -/
theorem step_single {op : Operation} {m : Move} {c' : Connection σ} (hops : c.operations = [op])
    (hwait : c.waiting = true) (hnone : c.toClient = []) (hstep : c.step e h m = some c') :
    m = .complete 0 := by
  rcases m with _ | _ | k
  · simp only [step, hwait] at hstep
    cases hstep
  · have hfew : ¬ (c.waiting = true ∧ rpcRespHeaderSize ≤ c.toClient.length) := by
      rw [hnone]
      exact fun hc => absurd hc.2 (by decide)
    rw [step, if_neg hfew] at hstep
    cases hstep
  · cases k with
    | zero => rfl
    | succ k =>
      simp only [step, hops, List.getElem?_cons_succ, List.getElem?_nil] at hstep
      cases hc : c.crashed <;> rw [hc] at hstep <;> cases hstep

/-- The connection before the first frame. -/
theorem start_step {queue : List ReqMsg} {m : Move} {c' : Connection σ}
    (hstep : (start a queue).step e h m = some c') :
    ∃ r rest, queue = r :: rest ∧ c' = wrote a r rest := by
  rcases m with _ | _ | k
  · cases queue with
    | nil => cases hstep
    | cons r rest => exact ⟨r, rest, rfl, (Option.some.inj (start_send.symm.trans hstep)).symm⟩
  · have hfew : (start a queue).step e h .receive = none := rfl
    rw [hfew] at hstep
    cases hstep
  · have hnone : (start a queue).step e h (.complete k) = none := by
      cases k with
      | zero => rfl
      | succ k => rfl
    rw [hnone] at hstep
    cases hstep

/-- A first request that makes the handler throw is served as it should be, if it
has log data or the read of no bytes fails. -/
theorem servesOnce_of_throws (hr : r.Fits) (hans : (h a r).2 = .throws)
    (hone : r.logEntries ≠ [] ∨ e = false) : (start a (r :: rest)).ServesOnce e h := by
  have hret : (h a r).2 ≠ .returns none := by rw [hans]; exact fun hc => by cases hc
  have hnil : (h a r).2.responses = [] := by rw [hans]; rfl
  -- the connection goes through these states and no others
  have hstates : ∀ c m c', (c = start a (r :: rest) ∨ c = wrote a r rest ∨
        (c = gotHeader a r rest ∧ r.logEntries ≠ []) ∨ c = servedData h a r rest ∨
        (c = servedEmpty h a r rest ∧ e = false) ∨
        c = { servedEmpty h a r rest with operations := [] }) → c.step e h m = some c' →
      c' = start a (r :: rest) ∨ c' = wrote a r rest ∨
        (c' = gotHeader a r rest ∧ r.logEntries ≠ []) ∨ c' = servedData h a r rest ∨
        (c' = servedEmpty h a r rest ∧ e = false) ∨
        c' = { servedEmpty h a r rest with operations := [] } := by
    rintro c m c' (rfl | rfl | ⟨rfl, hdata⟩ | rfl | ⟨rfl, rfl⟩ | rfl) hstep
    · obtain ⟨r', rest', heq, rfl⟩ := start_step hstep
      cases heq
      exact .inr (.inl rfl)
    · obtain rfl := step_single rfl rfl rfl hstep
      by_cases hdata : r.logEntries = []
      · rw [wrote_empty hr hdata hret] at hstep
        exact .inr (.inr (.inr (.inr (.inl
          ⟨(Option.some.inj hstep).symm, hone.resolve_left fun hne => hne hdata⟩))))
      · rw [wrote_data hr hdata] at hstep
        exact .inr (.inr (.inl ⟨(Option.some.inj hstep).symm, hdata⟩))
    · obtain rfl := step_single rfl rfl rfl hstep
      rw [gotHeader_data hr hret] at hstep
      exact .inr (.inr (.inr (.inl (Option.some.inj hstep).symm)))
    · rw [quiet_of_idle rfl rfl rfl m] at hstep
      cases hstep
    · obtain rfl := step_single rfl rfl rfl hstep
      rw [servedEmpty_fails hret] at hstep
      exact .inr (.inr (.inr (.inr (.inr (Option.some.inj hstep).symm))))
    · rw [quiet_of_idle rfl rfl rfl m] at hstep
      cases hstep
  intro ms c hrun
  rcases run_invariant hstates ms _ c (.inl rfl) hrun with
    rfl | rfl | ⟨rfl, hdata⟩ | rfl | ⟨rfl, rfl⟩ | rfl
  · exact ⟨rfl, fun _ => ⟨rfl, rfl⟩⟩
  · refine ⟨rfl, fun hquiet => ?_⟩
    have hgo := hquiet (.complete 0)
    rw [wrote_complete] at hgo
    cases hgo
  · refine ⟨rfl, fun hquiet => ?_⟩
    have hgo := hquiet (.complete 0)
    rw [gotHeader_complete] at hgo
    cases hgo
  · exact ⟨rfl, fun _ => ⟨rfl, hnil.symm⟩⟩
  · refine ⟨rfl, fun hquiet => ?_⟩
    have hgo := hquiet (.complete 0)
    rw [servedEmpty_fails hret] at hgo
    cases hgo
  · exact ⟨rfl, fun _ => ⟨rfl, hnil.symm⟩⟩

/-- With nothing to write nothing happens. -/
theorem servesOnce_nil : (start a []).ServesOnce e h := by
  intro ms c hrun
  have hstates : ∀ c m c', c = start a [] → c.step e h m = some c' → c' = start a [] := by
    rintro c m c' rfl hstep
    obtain ⟨r, rest, heq, -⟩ := start_step hstep
    cases heq
  obtain rfl := run_invariant hstates ms _ c rfl hrun
  exact ⟨rfl, fun _ => ⟨rfl, rfl⟩⟩

end Connection

open Connection

/-- **When frames are served exactly once**: if the client writes none, or if the
first one makes the handler throw, and then has log data or the read of no bytes
that follows fails. -/
theorem serves_once_iff (e : Bool) (h : MsgHandler σ) (a : σ) (queue : List ReqMsg)
    (hq : ∀ r ∈ queue, r.Fits) :
    (start a queue).ServesOnce e h ↔
      queue = [] ∨ ∃ r rest, queue = r :: rest ∧ (h a r).2 = .throws ∧
        (r.logEntries ≠ [] ∨ e = false) := by
  constructor
  · intro hserves
    cases queue with
    | nil => exact .inl rfl
    | cons r rest =>
      have hr := hq r List.mem_cons_self
      refine .inr ⟨r, rest, rfl, ?_⟩
      by_cases hdata : r.logEntries = []
      · obtain ⟨hans, hfail⟩ := throws_of_empty hr hdata hserves
        exact ⟨hans, .inr hfail⟩
      · exact ⟨throws_of_data hr hdata hserves, .inl hdata⟩
  · rintro (rfl | ⟨r, rest, rfl, hans, hone⟩)
    · exact servesOnce_nil
    · exact servesOnce_of_throws (hq r List.mem_cons_self) hans hone

/-- A handler that accepts whatever it is asked. -/
def acceptAll : MsgHandler Unit := fun a r =>
  (a, .returns (some ⟨r.term, .appendEntriesResponse, r.dst, r.src, r.lastLogIdx + 1, true⟩))

/-- A client request with one entry. -/
def oneEntryReq : ReqMsg :=
  ⟨0, .clientRequest, 0, 0, 0, 0, 0, [⟨0, [7], .appLog⟩]⟩

theorem oneEntryReq_fits : oneEntryReq.Fits :=
  ⟨by decide, by decide, by decide, by decide, by decide, by decide,
    by
      intro e he
      obtain rfl := List.mem_singleton.mp he
      exact ⟨by decide, by decide, by decide⟩,
    by decide⟩

/-- On a single frame that the handler answers the client waits for ever. -/
theorem serves_once_fails : ¬ (start () [oneEntryReq]).ServesOnce false acceptAll := by
  intro hserves
  have hthrows := throws_of_data oneEntryReq_fits (by decide) hserves
  cases hthrows

theorem serves_once_iff_one :
    ¬ (start () [oneEntryReq, oneEntryReq]).ServesOnce true acceptAll := by
  have hfits : ∀ r ∈ [oneEntryReq, oneEntryReq], r.Fits := by
    intro r hr
    obtain rfl : r = oneEntryReq := by simpa using hr
    exact oneEntryReq_fits
  rw [serves_once_iff true acceptAll () _ hfits]
  rintro (hnil | ⟨r, rest, heq, hans, -⟩)
  · cases hnil
  · cases heq
    cases hans

end Cornerstone
