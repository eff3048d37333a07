import XrCoin.Data.Runs
import XrCoin.Levin.Socket

/-!
One end of a levin connection over whole runs: the threads that send, the socket that hands over
pieces of the stream, the timers, and the connection that is closed, shut down and released.

The steps are atomic as the locks of the source make them. A request is sent and its handler added
under `m_call_lock`, `m_send_lock` and `m_invoke_response_handlers_lock`, and what a shutdown in the
middle of this does is in the fates of the step; the handlers are released in a step of their own.
Between the rounds of the loop of `handle_recv` there may be steps of other threads.
-/

namespace XrCoin.Levin

open Data

variable {κ ω : Type} (app : Application ω) (conf : Config)

/-! ### Steps -/

inductive Action (κ : Type)
  | lock (fates : List Fate)
  | invokeAsync (command : UInt32) (inBuff : Bytes) (cb : κ) (fates : List Fate)
  | notify (command : UInt32) (inBuff : Bytes) (fates : List Fate)
  | turn (fates : List Fate)
  | expire (i : ℕ)
  | timeout (i : ℕ)
  | close
  | shutdown
  | release

inductive EndStep (κ : Type)
  | act (a : Action κ)
  | recv (chunk : Bytes)

/-- The connection, whether its socket still asks for more, and whether `handle_recv` is running. -/
structure End (κ ω : Type) where
  conn : Connection κ (World κ ω)
  reading : Bool
  busy : Bool

def End.update (e : End κ ω) (f : Side κ (World κ ω) → Side κ (World κ ω)) : End κ ω :=
  { e with conn := { e.conn with side := f e.conn.side } }

/-- The size goes through an `int`. -/
def Sendable (inBuff : Bytes) : Prop := inBuff.length < 2 ^ 31

instance (inBuff : Bytes) : Decidable (Sendable inBuff) :=
  inferInstanceAs (Decidable (inBuff.length < 2 ^ 31))

def meet (fates : List Fate) (s : Side κ (World κ ω)) : Side κ (World κ ω) :=
  s.update fun w => { w with fates }

def lock (s : Side κ (World κ ω)) : Side κ (World κ ω) :=
  let (locked, s) := startOuterCall (endpoint app) s
  if locked then s.update fun w => { w with locked := w.locked + 1 } else s

def invokeAsync (command : UInt32) (inBuff : Bytes) (cb : κ) (s : Side κ (World κ ω)) :
    Side κ (World κ ω) :=
  if s.world.locked = 0 then s
  else
    (asyncInvoke (endpoint app) command inBuff cb s).2.update fun w =>
      { w with locked := w.locked - 1, invoked := w.invoked ++ [⟨command, inBuff, cb⟩] }

def notifyPeer (command : UInt32) (inBuff : Bytes) (s : Side κ (World κ ω)) : Side κ (World κ ω) :=
  if s.world.locked = 0 then s
  else
    (notify (endpoint app) command inBuff s).2.update fun w =>
      { w with locked := w.locked - 1, notices := w.notices ++ [(command, inBuff)] }

def expire (i : ℕ) (s : Side κ (World κ ω)) : Side κ (World κ ω) :=
  match s.invokeResponseHandlers[i]? with
  | none => s
  | some h =>
      if h.timerPending then
        { s with
          invokeResponseHandlers := s.invokeResponseHandlers.set i { h with timerPending := false }
          world := { s.world with due := s.world.due ++ [h.cb] } }
      else s

def timeout (i : ℕ) (s : Side κ (World κ ω)) : Side κ (World κ ω) :=
  match s.world.due[i]? with
  | none => s
  | some cb => timedOut (endpoint app) cb (s.update fun w => { w with due := w.due.eraseIdx i })

/-- The second half of `shutdown`, for the thread that has set the flag. -/
def release (s : Side κ (World κ ω)) : Side κ (World κ ω) :=
  if s.world.wasShutdown ∧ s.protocolReleased = false then releaseProtocol (endpoint app) s else s

/-- The socket hands over a piece, and `handle_recv` begins. -/
def End.recv (chunk : Bytes) (e : End κ ω) : End κ ω :=
  if e.reading ∧ e.busy = false then
    if e.conn.side.closeCalled ≠ 0 then { e with reading := false }
    else if !conf.hasCommandsHandler then { e with reading := false }
    else if e.conn.cacheInBuffer.length + chunk.length > conf.maxPacketSize.toNat then
      { e with reading := false }
    else
      { e with conn := { e.conn with cacheInBuffer := e.conn.cacheInBuffer ++ chunk }, busy := true }
  else e

/-- One round of the loop of `handle_recv`. When it answers `true`, the socket asks for more. -/
def End.turn (e : End κ ω) : End κ ω :=
  if e.busy then
    match e.conn.receiver.move (endpoint app) conf e.conn.cacheInBuffer with
    | .wait => { e with busy := false }
    | .stop r => { conn := r.attach e.conn.cacheInBuffer, reading := false, busy := false }
    | .go r rest => { e with conn := r.attach rest }
  else e

def End.act (e : End κ ω) : Action κ → End κ ω
  | .lock fates => e.update fun s => lock app (meet fates s)
  | .invokeAsync command inBuff cb fates =>
      if Sendable inBuff then e.update fun s => invokeAsync app command inBuff cb (meet fates s)
      else e
  | .notify command inBuff fates =>
      if Sendable inBuff then e.update fun s => notifyPeer app command inBuff (meet fates s) else e
  | .turn fates => (e.update (meet fates)).turn app conf
  | .expire i => e.update (expire i)
  | .timeout i => e.update (timeout app i)
  | .close => e.update fun s => { s with closeCalled := s.closeCalled + 1 }
  | .shutdown => e.update Side.flagged
  | .release => e.update (release app)

def endStep (e : End κ ω) : EndStep κ → End κ ω
  | .act a => e.act app conf a
  | .recv chunk => e.recv conf chunk

def World.initial (ctx : ω) : World κ ω :=
  { ctx, wasShutdown := false, fates := [], locked := 0, sent := [], due := [], invoked := [],
    notices := [], served := [], notified := [], called := [] }

def Side.initial (ctx : ω) : Side κ (World κ ω) :=
  { deletionInitiated := false, protocolReleased := false, invokeBufReady := false,
    invokeResultCode := LEVIN_ERROR_CONNECTION, localInvBuff := [], waitCount := 0,
    closeCalled := 0, invokeResponseHandlers := [], world := World.initial ctx }

def End.initial (head : BucketHead2) (ctx : ω) : End κ ω :=
  { conn := .fresh head (.initial ctx), reading := true, busy := false }

section Turns

variable {app conf} {e : End κ ω} {r : Receiver κ (World κ ω)} {rest : Bytes}

theorem End.turn_idle (hbusy : e.busy = false) : e.turn app conf = e := by
  rw [End.turn, hbusy, if_neg Bool.false_ne_true]

theorem End.turn_wait (hbusy : e.busy = true)
    (h : e.conn.receiver.move (endpoint app) conf e.conn.cacheInBuffer = .wait) :
    e.turn app conf = { e with busy := false } := by
  rw [End.turn, if_pos hbusy, h]

theorem End.turn_stop (hbusy : e.busy = true)
    (h : e.conn.receiver.move (endpoint app) conf e.conn.cacheInBuffer = .stop r) :
    e.turn app conf =
      { conn := r.attach e.conn.cacheInBuffer, reading := false, busy := false } := by
  rw [End.turn, if_pos hbusy, h]

theorem End.turn_go (hbusy : e.busy = true)
    (h : e.conn.receiver.move (endpoint app) conf e.conn.cacheInBuffer = .go r rest) :
    e.turn app conf = { e with conn := r.attach rest } := by
  rw [End.turn, if_pos hbusy, h]

theorem End.recv_refused (hreading : e.reading = true) (hbusy : e.busy = false) {chunk : Bytes}
    (h : Refused conf chunk e.conn) : e.recv conf chunk = { e with reading := false } := by
  rw [End.recv, if_pos ⟨hreading, hbusy⟩]
  split_ifs with hclosed hhandler hsize
  · rfl
  · rfl
  · rfl
  · refine absurd h ?_
    simp only [Refused, not_or, not_lt]
    exact ⟨hclosed, by simpa using hhandler, by omega⟩

theorem End.recv_taken (hreading : e.reading = true) (hbusy : e.busy = false) {chunk : Bytes}
    (h : ¬Refused conf chunk e.conn) :
    e.recv conf chunk =
      { e with conn := e.conn.receiver.attach (e.conn.cacheInBuffer ++ chunk), busy := true } := by
  simp only [Refused, not_or, not_lt, Bool.not_eq_false] at h
  obtain ⟨hclosed, hhandler, hsize⟩ := h
  rw [End.recv, if_pos ⟨hreading, hbusy⟩, if_neg hclosed, hhandler, if_neg (by decide),
    if_neg (by omega)]
  rfl

variable (app) in
theorem turns_handleRecv (hreading : e.reading = true) (hbusy : e.busy = false) (chunk : Bytes) :
    ∃ n last, (End.turn app conf)^[n] (e.recv conf chunk) = last ∧ last.busy = false ∧
      ended (last.reading, last.conn) = ended (handleRecv (endpoint app) conf chunk e.conn) := by
  by_cases hrefused : Refused conf chunk e.conn
  · rw [handleRecv_refused hrefused, End.recv_refused hreading hbusy hrefused]
    exact ⟨0, _, rfl, hbusy, rfl⟩
  rw [ended_handleRecv hrefused, End.recv_taken hreading hbusy hrefused]
  generalize hfirst : ({ e with
    conn := e.conn.receiver.attach (e.conn.cacheInBuffer ++ chunk), busy := true } : End κ ω) =
      first
  -- what the rounds so far have made of the piece
  apply Consumer.drain_induction (c := Receiver.consumer (endpoint app) conf)
    (P := fun r buffer => ∃ n, (End.turn app conf)^[n] first = ⟨r.attach buffer, true, true⟩)
    (Q := fun d => ∃ n last, (End.turn app conf)^[n] first = last ∧ last.busy = false ∧
      ended (last.reading, last.conn) = d)
  · rintro r r' buffer rest hmove ⟨n, hn⟩
    have hround : End.turn app conf ⟨r.attach buffer, true, true⟩ = ⟨r'.attach rest, true, true⟩ :=
      End.turn_go rfl hmove
    exact ⟨n + 1, by rw [Function.iterate_succ_apply', hn, hround]⟩
  · rintro r buffer hmove ⟨n, hn⟩
    have hround : End.turn app conf ⟨r.attach buffer, true, true⟩ = ⟨r.attach buffer, true, false⟩ :=
      End.turn_wait rfl hmove
    exact ⟨n + 1, _, by rw [Function.iterate_succ_apply', hn, hround], rfl, rfl⟩
  · rintro r r' buffer hmove ⟨n, hn⟩
    have hround : End.turn app conf ⟨r.attach buffer, true, true⟩ =
        ⟨r'.attach buffer, false, false⟩ := End.turn_stop rfl hmove
    exact ⟨n + 1, _, by rw [Function.iterate_succ_apply', hn, hround], rfl, rfl⟩
  · exact ⟨0, by rw [Function.iterate_zero_apply, ← hfirst, hreading]⟩

end Turns

/-! ### What each call does -/

section Calls

variable {app conf} {s : Side κ (World κ ω)}

def AnvokeHandler.fresh (cb : κ) (command : UInt32) (started : Bool) : AnvokeHandler κ :=
  { cb, command, timerPending := started, timerStarted := started, cancelTimerCalled := false,
    timerCancelled := false }

def requestBytes (command : UInt32) (inBuff : Bytes) (haveToReturnData : UInt8) : Bytes :=
  (requestHead command inBuff haveToReturnData).toBytes ++ inBuff

variable (app) in
theorem addInvokeResponseHandler_cases (cb : κ) (command : UInt32) (s : Side κ (World κ ω)) :
    ∃ fates shut waitCount started,
      addInvokeResponseHandler (endpoint app) cb command s =
        (started, { s with
          waitCount
          invokeResponseHandlers := s.invokeResponseHandlers ++ [.fresh cb command started]
          world := { s.world with fates, wasShutdown := shut } }) ∧
      (started = true → shut = s.world.wasShutdown) ∧
      (s.world.wasShutdown = true → shut = true) := by
  have hadd : (endpoint app).addRef s = addRef s := rfl
  rcases addRef_cases s with ⟨fates, -, h⟩ | h | ⟨fates, hopen, h | h⟩
  · refine ⟨fates, s.world.wasShutdown, s.waitCount + 1, true, ?_, fun _ => rfl, id⟩
    simp [addInvokeResponseHandler, startOuterCall, hadd, h, Side.sending, Side.update,
      AnvokeHandler.fresh]
  · refine ⟨s.world.fates, s.world.wasShutdown, s.waitCount, false, ?_, fun _ => rfl, id⟩
    simp [addInvokeResponseHandler, startOuterCall, hadd, h, AnvokeHandler.fresh]
  · refine ⟨fates, s.world.wasShutdown, s.waitCount, false, ?_, fun _ => rfl, id⟩
    simp [addInvokeResponseHandler, startOuterCall, hadd, h, Side.sending, Side.update,
      AnvokeHandler.fresh]
  · refine ⟨fates, true, s.waitCount, false, ?_, fun hbad => ?_, fun _ => rfl⟩
    · simp [addInvokeResponseHandler, startOuterCall, hadd, h, Side.sending, Side.update,
        Side.flagged, AnvokeHandler.fresh]
    · cases hbad

variable (app) in
/-- A request is on its way and its handler waits, or its handler cannot wait, or it was not sent
whole. In the last two cases its callback is told so. -/
theorem asyncInvoke_cases (command : UInt32) (inBuff : Bytes) (cb : κ)
    (halive : s.deletionInitiated = false) :
    (∃ fates waitCount, s.world.wasShutdown = false ∧
      (asyncInvoke (endpoint app) command inBuff cb s).2 =
        { s.sending fates (requestBytes command inBuff 1) with
          invokeBufReady := false
          waitCount
          invokeResponseHandlers := s.invokeResponseHandlers ++ [.fresh cb command true] }) ∨
    (∃ fates shut waitCount, s.world.wasShutdown = false ∧
      (asyncInvoke (endpoint app) command inBuff cb s).2 =
        { s with
          invokeBufReady := false
          waitCount
          invokeResponseHandlers := s.invokeResponseHandlers ++ [.fresh cb command false]
          world := { s.world with
            fates, wasShutdown := shut
            sent := s.world.sent ++ requestBytes command inBuff 1
            called := s.world.called ++ [⟨cb, LEVIN_ERROR_CONNECTION_DESTROYED, []⟩] } }) ∨
    ∃ s' waitCount, SendFailure app (requestBytes command inBuff 1)
        { s with invokeBufReady := false } s' ∧
      (asyncInvoke (endpoint app) command inBuff cb s).2 =
        { s' with
          waitCount
          world := { s'.world with
            called := s'.world.called ++ [⟨cb, LEVIN_ERROR_CONNECTION, []⟩] } } := by
  have hsent : Sent app (requestBytes command inBuff 1) { s with invokeBufReady := false }
      (sendRequest (endpoint app) (requestHead command inBuff 1) inBuff
        { s with invokeBufReady := false }) := sent_sendRequest _ _ _
  have hmore : ¬s.deletionInitiated = true := by simp [halive]
  rw [asyncInvoke, if_neg hmore]
  generalize sendRequest (endpoint app) (requestHead command inBuff 1) inBuff
    { s with invokeBufReady := false } = result at hsent
  obtain ⟨ok, s₁⟩ := result
  rcases hsent with ⟨hok, hopen, fates, -, hs⟩ | ⟨hok, hfail⟩
  · obtain rfl : ok = true := hok
    replace hs : s₁ = Side.sending { s with invokeBufReady := false } fates
      (requestBytes command inBuff 1) := hs
    obtain ⟨fates', shut, waitCount, started, hadd, hstarted, -⟩ :=
      addInvokeResponseHandler_cases app cb command s₁
    simp only [Bool.not_true, Bool.false_eq_true, if_false, hadd]
    cases started with
    | true =>
        refine .inl ⟨fates', waitCount - 1, hopen, ?_⟩
        rw [hstarted rfl, hs]
        rfl
    | false =>
        refine .inr (.inl ⟨fates', shut, waitCount - 1, hopen, ?_⟩)
        rw [hs]
        rfl
  · obtain rfl : ok = false := hok
    refine .inr (.inr ⟨s₁, s₁.waitCount - 1, hfail, ?_⟩)
    simp [finishOuterCall, endpoint, offline, Side.update]

variable (app) in
theorem notify_cases (command : UInt32) (inBuff : Bytes) (halive : s.deletionInitiated = false) :
    (∃ fates waitCount, s.world.wasShutdown = false ∧
      (notify (endpoint app) command inBuff s).2 =
        { s.sending fates (requestBytes command inBuff 0) with waitCount }) ∨
    ∃ s' waitCount, SendFailure app (requestBytes command inBuff 0) s s' ∧
      (notify (endpoint app) command inBuff s).2 = { s' with waitCount } := by
  have hsent : Sent app (requestBytes command inBuff 0) s
      (sendRequest (endpoint app) (requestHead command inBuff 0) inBuff s) := sent_sendRequest _ _ _
  have hmore : ¬s.deletionInitiated = true := by simp [halive]
  rw [notify, if_neg hmore]
  generalize sendRequest (endpoint app) (requestHead command inBuff 0) inBuff s = result at hsent
  obtain ⟨ok, s₁⟩ := result
  rcases hsent with ⟨hok, hopen, fates, -, hs⟩ | ⟨hok, hfail⟩
  · replace hs : s₁ = s.sending fates (requestBytes command inBuff 0) := hs
    exact .inl ⟨fates, _, hopen, by rw [hs]; rfl⟩
  · exact .inr ⟨s₁, _, hfail, rfl⟩

@[simp] theorem AnvokeHandler.cancelTimer_again (h : AnvokeHandler κ) :
    h.cancelTimer.2.cancelTimer.1 = h.cancelTimer.1 := by
  by_cases hcalled : h.cancelTimerCalled = true <;> simp [cancelTimer, hcalled]

@[simp] theorem AnvokeHandler.cancelTimer_cb (h : AnvokeHandler κ) :
    h.cancelTimer.2.cb = h.cb := by
  rw [cancelTimer]
  split_ifs <;> rfl

theorem handleResponse_nil (hhandlers : s.invokeResponseHandlers = []) (head : BucketHead2)
    (buff : Bytes) : handleResponse (endpoint app) head buff s = syncResponse head buff s := by
  rw [handleResponse, hhandlers]

theorem handleResponse_cons {handler : AnvokeHandler κ} {others : List (AnvokeHandler κ)}
    (hhandlers : s.invokeResponseHandlers = handler :: others) (head : BucketHead2)
    (buff : Bytes) :
    handleResponse (endpoint app) head buff s =
      (true, if handler.cancelTimer.1 then
          { s with
            waitCount := s.waitCount - 1
            invokeResponseHandlers := others
            world := { s.world with
              called := s.world.called ++ [⟨handler.cb, head.returnCode, buff⟩] } }
        else { s with invokeResponseHandlers := handler.cancelTimer.2 :: others }) := by
  rw [handleResponse, hhandlers]
  cases hcancel : handler.cancelTimer.1 <;>
    simp [hcancel, AnvokeHandler.handle, finishOuterCall, endpoint, offline, Side.update]

/-- The commands handler is called, and its answer is sent, or fails to be. -/
theorem handleRequest_invoke {head : BucketHead2} (hreturn : head.haveToReturnData ≠ 0)
    (buff : Bytes) :
    handleRequest (endpoint app) head buff s =
      let ((returnCode, returnBuff), w) := serve app head.command buff s.world
      let response := responseHead head returnCode returnBuff.length
      ((doSend app (response.toBytes ++ returnBuff) { s with world := w }).1, response,
        (doSend app (response.toBytes ++ returnBuff) { s with world := w }).2) := by
  rw [handleRequest, if_pos hreturn]
  rfl

theorem handleRequest_notify {head : BucketHead2} (hreturn : head.haveToReturnData = 0)
    (buff : Bytes) :
    handleRequest (endpoint app) head buff s =
      (true, head, s.update fun w =>
        { w with ctx := app.notify head.command buff w.ctx,
                 notified := w.notified ++ [(head.command, buff)] }) := by
  rw [handleRequest, if_neg (not_not.mpr hreturn)]
  rfl

end Calls

/-! ### Each callback is called once -/

section Callbacks

variable {app conf} {s s' : Side κ (World κ ω)} {extra : List κ}

/-- A handler whose cancellation was asked for and that is still there had expired before. -/
def AnvokeHandler.Sound (h : AnvokeHandler κ) : Prop :=
  h.cancelTimerCalled = true → h.timerCancelled = false ∧ h.timerPending = false

theorem AnvokeHandler.Sound.cancelTimer_fst {h : AnvokeHandler κ} (hsound : h.Sound) :
    h.cancelTimer.1 = h.timerPending := by
  rw [cancelTimer]
  split_ifs with hcalled
  · obtain ⟨hcancelled, hpending⟩ := hsound hcalled
    rw [hcancelled, hpending]
  · rfl

theorem AnvokeHandler.sound_fresh (cb : κ) (command : UInt32) (started : Bool) :
    (AnvokeHandler.fresh cb command started).Sound := by
  intro hcalled
  cases hcalled

def pendingCbs (handlers : List (AnvokeHandler κ)) : List κ :=
  (handlers.filter (·.timerPending)).map (·.cb)

def awaited (s : Side κ (World κ ω)) : List κ :=
  pendingCbs s.invokeResponseHandlers ++ s.world.due

/-- Each callback of a call that was made, and each of the `extra` ones, is called or awaited, as
often as it was handed over. -/
structure Ledger (extra : List κ) (s : Side κ (World κ ω)) : Prop where
  alive : s.deletionInitiated = false
  sound : ∀ h ∈ s.invokeResponseHandlers, h.Sound
  released : s.protocolReleased = true →
    s.world.wasShutdown = true ∧ s.invokeResponseHandlers = []
  balance : (s.world.invoked.map (·.cb) ++ extra).Perm (s.world.called.map (·.cb) ++ awaited s)

namespace Ledger

/-- A step that leaves the callbacks and the timers alone. -/
theorem congr (h : Ledger extra s) (halive : s'.deletionInitiated = s.deletionInitiated)
    (hhandlers : s'.invokeResponseHandlers = s.invokeResponseHandlers)
    (hreleased : s'.protocolReleased = s.protocolReleased)
    (hshut : s.world.wasShutdown = true → s'.world.wasShutdown = true)
    (hcalled : s'.world.called = s.world.called) (hdue : s'.world.due = s.world.due)
    (hinvoked : s'.world.invoked = s.world.invoked) : Ledger extra s' where
  alive := halive.trans h.alive
  sound := by rw [hhandlers]; exact h.sound
  released hr := by
    obtain ⟨hs, hnil⟩ := h.released (hreleased ▸ hr)
    exact ⟨hshut hs, hhandlers.trans hnil⟩
  balance := by rw [awaited, hhandlers, hcalled, hdue, hinvoked]; exact h.balance

/-- A callback is told at once that there will be no response. -/
theorem tell (h : Ledger extra s) (c : Called κ) :
    Ledger (extra ++ [c.cb]) (s.update fun w => { w with called := w.called ++ [c] }) where
  alive := h.alive
  sound := h.sound
  released := h.released
  balance := by
    simp only [awaited, Side.update, List.map_append, List.map_cons, List.map_nil,
      List.append_assoc]
    rw [← List.append_assoc]
    refine (h.balance.append_right _).trans ?_
    rw [List.append_assoc]
    exact List.perm_append_comm.append_left _

/-- A handler more, on a connection that is not released. -/
theorem add (h : Ledger extra s) (hopen : s.world.wasShutdown = false) (cb : κ) (command : UInt32)
    (started : Bool) :
    Ledger (extra ++ if started then [cb] else [])
      { s with invokeResponseHandlers :=
          s.invokeResponseHandlers ++ [.fresh cb command started] } where
  alive := h.alive
  sound handler hmem := by
    rcases List.mem_append.mp hmem with hmem | hmem
    · exact h.sound handler hmem
    · rw [List.mem_singleton.mp hmem]
      exact AnvokeHandler.sound_fresh cb command started
  released hr := by
    have hshut := (h.released hr).1
    exact absurd (hopen.symm.trans hshut) Bool.false_ne_true
  balance := by
    have hbalance := h.balance.append_right (if started then [cb] else [])
    simp only [awaited, pendingCbs, List.filter_append] at hbalance ⊢
    rw [← List.append_assoc]
    refine hbalance.trans ?_
    simp only [List.append_assoc, List.map_append]
    refine (List.Perm.append_left _ ?_).append_left _
    cases started
    · simp [AnvokeHandler.fresh]
    · exact List.perm_append_comm

theorem foldl_cancel (handlers : List (AnvokeHandler κ)) (hsound : ∀ h ∈ handlers, h.Sound)
    (s : Side κ (World κ ω)) :
    ∃ waitCount, handlers.foldl (fun s h => h.cancel (endpoint app) s) s =
      { s with
        waitCount
        world := { s.world with
          called := s.world.called ++ (pendingCbs handlers).map fun cb =>
            ⟨cb, LEVIN_ERROR_CONNECTION_DESTROYED, []⟩ } } := by
  induction handlers generalizing s with
  | nil => exact ⟨s.waitCount, by simp [pendingCbs]⟩
  | cons handler handlers ih =>
      obtain ⟨waitCount, hrest⟩ :=
        ih (fun h hh => hsound h (List.mem_cons_of_mem _ hh)) (handler.cancel (endpoint app) s)
      refine ⟨waitCount, ?_⟩
      rw [List.foldl_cons, hrest, AnvokeHandler.cancel,
        (hsound handler List.mem_cons_self).cancelTimer_fst]
      cases hpending : handler.timerPending <;>
        simp [pendingCbs, hpending, finishOuterCall, endpoint, offline, Side.update]

variable (app) in
/-- All timers that are pending are cancelled, and their callbacks are told. -/
theorem releaseProtocol_eq (hsound : ∀ h ∈ s.invokeResponseHandlers, h.Sound) :
    ∃ waitCount, releaseProtocol (endpoint app) s =
      { s with
        waitCount, invokeResponseHandlers := [], protocolReleased := true
        world := { s.world with
          called := s.world.called ++ (pendingCbs s.invokeResponseHandlers).map fun cb =>
            ⟨cb, LEVIN_ERROR_CONNECTION_DESTROYED, []⟩ } } := by
  rw [releaseProtocol]
  exact foldl_cancel _ hsound _

variable (app) in
theorem releaseProtocol (h : Ledger extra s) (hshut : s.world.wasShutdown = true) :
    Ledger extra (releaseProtocol (endpoint app) s) := by
  obtain ⟨waitCount, hrelease⟩ := releaseProtocol_eq app h.sound
  rw [hrelease]
  refine ⟨h.alive, by simp, fun _ => ⟨hshut, rfl⟩, ?_⟩
  have hbalance := h.balance
  simp only [awaited, List.map_append, List.map_map, Function.comp_def, List.append_assoc]
    at hbalance ⊢
  simpa [pendingCbs, Function.comp_def] using hbalance

theorem release (h : Ledger extra s) : Ledger extra (release app s) := by
  rw [Levin.release]
  split_ifs with hrelease
  · exact h.releaseProtocol app hrelease.1
  · exact h

theorem flagged (h : Ledger extra s) : Ledger extra s.flagged :=
  h.congr rfl rfl rfl (fun _ => rfl) rfl rfl rfl

theorem sending (h : Ledger extra s) (fates : List Fate) (bytes : Bytes) :
    Ledger extra (s.sending fates bytes) := h.congr rfl rfl rfl id rfl rfl rfl

theorem shutdown (h : Ledger extra s) : Ledger extra (shutdown app s) := by
  rw [Levin.shutdown]
  split_ifs with hshut
  · exact h
  · exact h.flagged.releaseProtocol app rfl

theorem sendFailure {bytes : Bytes} (h : Ledger extra s) (hfail : SendFailure app bytes s s') :
    Ledger extra s' := by
  cases hfail with
  | refused => exact h
  | thrown fates part => exact h.sending fates part
  | cut fates part => exact (h.sending fates part).flagged
  | full fates part => exact (h.sending fates part).shutdown

theorem sent {bytes : Bytes} {result : Bool × Side κ (World κ ω)} (h : Ledger extra s)
    (hsent : Sent app bytes s result) : Ledger extra result.2 := by
  rcases hsent with ⟨-, -, fates, -, hs⟩ | ⟨-, hfail⟩
  · rw [hs]
    exact h.sending fates bytes
  · exact h.sendFailure hfail

/-- A call that is made brings its callback into the ledger. -/
theorem asyncInvoke (h : Ledger extra s) (command : UInt32) (inBuff : Bytes) (cb : κ) :
    Ledger (extra ++ [cb]) (asyncInvoke (endpoint app) command inBuff cb s).2 := by
  have hready : Ledger extra { s with invokeBufReady := false } := h.congr rfl rfl rfl id rfl rfl rfl
  rcases asyncInvoke_cases app command inBuff cb h.alive with
    ⟨fates, waitCount, hopen, hs⟩ | ⟨fates, shut, waitCount, hopen, hs⟩ | ⟨s', waitCount, hfail, hs⟩
  · rw [hs]
    exact ((h.sending fates _).add hopen cb command true).congr rfl rfl rfl id rfl rfl rfl
  · rw [hs]
    have hadded := (h.add hopen cb command false).tell ⟨cb, LEVIN_ERROR_CONNECTION_DESTROYED, []⟩
    rw [if_neg Bool.false_ne_true, List.append_nil] at hadded
    refine hadded.congr rfl rfl rfl (fun hshut => ?_) rfl rfl rfl
    exact absurd (hopen.symm.trans hshut) Bool.false_ne_true
  · rw [hs]
    have htold := (hready.sendFailure hfail).tell ⟨cb, LEVIN_ERROR_CONNECTION, []⟩
    exact htold.congr rfl rfl rfl id rfl rfl rfl

theorem notify (h : Ledger extra s) (command : UInt32) (inBuff : Bytes) :
    Ledger extra (notify (endpoint app) command inBuff s).2 := by
  rcases notify_cases app command inBuff h.alive with
    ⟨fates, waitCount, -, hs⟩ | ⟨s', waitCount, hfail, hs⟩
  · rw [hs]
    exact (h.sending fates _).congr rfl rfl rfl id rfl rfl rfl
  · rw [hs]
    exact (h.sendFailure hfail).congr rfl rfl rfl id rfl rfl rfl

/-- The first handler was waiting, and is out of the list when its callback is called. -/
theorem answer (h : Ledger extra s) {handler : AnvokeHandler κ} {others : List (AnvokeHandler κ)}
    (hhandlers : s.invokeResponseHandlers = handler :: others)
    (hpending : handler.timerPending = true) (code : Int32) (buff : Bytes) (waitCount : UInt32) :
    Ledger extra { s with
      waitCount, invokeResponseHandlers := others
      world := { s.world with called := s.world.called ++ [⟨handler.cb, code, buff⟩] } } where
  alive := h.alive
  sound g hg := h.sound g (by rw [hhandlers]; exact List.mem_cons_of_mem _ hg)
  released hr := by
    have hnil := (h.released hr).2
    rw [hhandlers] at hnil
    cases hnil
  balance := by
    have hbalance := h.balance
    rw [awaited, hhandlers, pendingCbs, List.filter_cons_of_pos (by simpa using hpending)]
      at hbalance
    simpa [awaited, pendingCbs] using hbalance

/-- The first handler had expired, and stays where it is. -/
theorem drop (h : Ledger extra s) {handler : AnvokeHandler κ} {others : List (AnvokeHandler κ)}
    (hhandlers : s.invokeResponseHandlers = handler :: others)
    (hpending : handler.timerPending = false) :
    Ledger extra { s with invokeResponseHandlers := handler.cancelTimer.2 :: others } := by
  have hsound : handler.Sound := h.sound handler (by rw [hhandlers]; exact List.mem_cons_self)
  have hstays : handler.cancelTimer.2.Sound ∧ handler.cancelTimer.2.timerPending = false := by
    rw [AnvokeHandler.cancelTimer]
    split_ifs
    · exact ⟨hsound, hpending⟩
    · exact ⟨fun _ => ⟨hpending, rfl⟩, rfl⟩
  refine ⟨h.alive, ?_, ?_, ?_⟩
  · intro g hg
    rcases List.mem_cons.mp hg with rfl | hg
    · exact hstays.1
    · exact h.sound g (by rw [hhandlers]; exact List.mem_cons_of_mem _ hg)
  · intro hr
    have hnil := (h.released hr).2
    rw [hhandlers] at hnil
    cases hnil
  · have hbalance := h.balance
    simp only [awaited, hhandlers, pendingCbs, List.filter_cons, hpending] at hbalance
    simpa [awaited, pendingCbs, List.filter_cons, hstays.2] using hbalance

theorem handleResponse (h : Ledger extra s) (head : BucketHead2) (buff : Bytes) :
    Ledger extra (handleResponse (endpoint app) head buff s).2 := by
  cases hhandlers : s.invokeResponseHandlers with
  | nil =>
      rw [handleResponse_nil hhandlers, syncResponse]
      split_ifs
      · exact h
      · exact h.congr rfl rfl rfl id rfl rfl rfl
  | cons handler others =>
      have hsound : handler.Sound := h.sound handler (by rw [hhandlers]; exact List.mem_cons_self)
      rw [handleResponse_cons hhandlers, hsound.cancelTimer_fst]
      cases hpending : handler.timerPending with
      | true =>
          rw [if_pos rfl]
          exact h.answer hhandlers hpending _ _ _
      | false =>
          rw [if_neg Bool.false_ne_true]
          exact h.drop hhandlers hpending

theorem handleRequest (h : Ledger extra s) (head : BucketHead2) (buff : Bytes) :
    Ledger extra (handleRequest (endpoint app) head buff s).2.2 := by
  by_cases hreturn : head.haveToReturnData = 0
  · rw [handleRequest_notify hreturn]
    exact h.congr rfl rfl rfl id rfl rfl rfl
  · rw [handleRequest_invoke hreturn]
    have hserved : Ledger extra { s with world := (serve app head.command buff s.world).2 } :=
      h.congr rfl rfl rfl id rfl rfl rfl
    exact hserved.sent (sent_doSend _ _)

theorem handlePacket (h : Ledger extra s) (ver : UInt32) (head : BucketHead2) (buff : Bytes) :
    Ledger extra (handlePacket (endpoint app) ver head buff s).2.2 := by
  rw [Levin.handlePacket]
  split_ifs
  · exact h.handleResponse head buff
  · exact h.handleRequest head buff

theorem pendingCbs_set {handlers : List (AnvokeHandler κ)} {i : ℕ} {handler : AnvokeHandler κ}
    (hget : handlers[i]? = some handler) (hpending : handler.timerPending = true) :
    (pendingCbs handlers).Perm
      (handler.cb :: pendingCbs (handlers.set i { handler with timerPending := false })) := by
  induction handlers generalizing i with
  | nil => cases hget
  | cons first handlers ih =>
      cases i with
      | zero =>
          obtain rfl := Option.some.inj hget
          simp [pendingCbs, hpending]
      | succ i =>
          have hrest := ih hget
          cases hfirst : first.timerPending with
          | false => simpa [pendingCbs, hfirst] using hrest
          | true =>
              simp only [pendingCbs, List.set_cons_succ, List.filter_cons, hfirst] at hrest ⊢
              exact (hrest.cons first.cb).trans (List.Perm.swap _ _ _)

theorem expire (h : Ledger extra s) (i : ℕ) : Ledger extra (expire i s) := by
  rw [Levin.expire]
  cases hget : s.invokeResponseHandlers[i]? with
  | none => exact h
  | some handler =>
      dsimp only
      split_ifs with hpending
      · have hmem : handler ∈ s.invokeResponseHandlers := List.mem_of_getElem? hget
        refine ⟨h.alive, ?_, ?_, ?_⟩
        · intro g hg
          rcases List.mem_or_eq_of_mem_set hg with hg | rfl
          · exact h.sound g hg
          · exact fun hcalled => ⟨(h.sound handler hmem hcalled).1, rfl⟩
        · intro hr
          rw [(h.released hr).2] at hmem
          cases hmem
        · refine h.balance.trans (List.Perm.append_left _ ?_)
          rw [awaited, awaited]
          refine ((pendingCbs_set hget hpending).append_right _).trans ?_
          rw [List.cons_append, ← List.append_assoc]
          exact (List.perm_append_singleton _ _).symm
      · exact h

theorem timeout (h : Ledger extra s) (i : ℕ) : Ledger extra (timeout app i s) := by
  rw [Levin.timeout]
  cases hget : s.world.due[i]? with
  | none => exact h
  | some cb =>
      refine ⟨h.alive, h.sound, h.released, h.balance.trans ?_⟩
      have hdue : s.world.due.Perm (cb :: s.world.due.eraseIdx i) := by
        obtain ⟨hi, rfl⟩ := List.getElem?_eq_some_iff.mp hget
        exact (List.getElem_cons_eraseIdx_perm hi).symm
      simp only [awaited, timedOut, finishOuterCall, endpoint, offline, Side.update,
        List.map_append, List.map_cons, List.map_nil, List.append_assoc]
      refine List.Perm.append_left _ ?_
      exact (hdue.append_left _).trans List.perm_middle

variable (app) in
theorem lock (h : Ledger extra s) : Ledger extra (lock app s) := by
  have hadd : (endpoint app).addRef s = addRef s := rfl
  rw [Levin.lock, startOuterCall, hadd]
  rcases addRef_cases s with ⟨fates, -, heq⟩ | heq | ⟨fates, -, heq | heq⟩
  · rw [heq]
    exact h.congr rfl rfl rfl id rfl rfl rfl
  · rw [heq]
    exact h
  · rw [heq]
    exact h.sending fates []
  · rw [heq]
    exact (h.sending fates []).flagged

theorem initial (ctx : ω) : Ledger [] (Side.initial ctx : Side κ (World κ ω)) where
  alive := rfl
  sound := by simp [Side.initial]
  released hr := by cases hr
  balance := by simp [Side.initial, World.initial, awaited, pendingCbs]

/-- The call is written down. -/
theorem invokeAsync (h : Ledger [] s) (command : UInt32) (inBuff : Bytes) (cb : κ) :
    Ledger [] (invokeAsync app command inBuff cb s) := by
  rw [Levin.invokeAsync]
  split_ifs
  · exact h
  · have hmade : Ledger [cb] (Levin.asyncInvoke (endpoint app) command inBuff cb s).2 :=
      h.asyncInvoke command inBuff cb
    refine ⟨hmade.alive, hmade.sound, hmade.released, ?_⟩
    have hbalance := hmade.balance
    simpa [awaited, Side.update] using hbalance

theorem notifyPeer (h : Ledger [] s) (command : UInt32) (inBuff : Bytes) :
    Ledger [] (notifyPeer app command inBuff s) := by
  rw [Levin.notifyPeer]
  split_ifs
  · exact h
  · exact (h.notify command inBuff).congr rfl rfl rfl id rfl rfl rfl

theorem turn {e : End κ ω} (h : Ledger [] e.conn.side) :
    Ledger [] (e.turn app conf).conn.side := by
  by_cases hbusy : e.busy = true
  · have hmoved : ∀ r, (∃ rest, e.conn.receiver.move (endpoint app) conf e.conn.cacheInBuffer =
          .go r rest) ∨
        e.conn.receiver.move (endpoint app) conf e.conn.cacheInBuffer = .stop r →
        Ledger [] r.side := by
      intro r hr
      obtain hside | ⟨buff, hside⟩ := Receiver.move_side hr
      · rw [hside]
        exact h
      · rw [hside]
        exact h.handlePacket _ _ _
    cases hmove : e.conn.receiver.move (endpoint app) conf e.conn.cacheInBuffer with
    | wait =>
        rw [End.turn_wait hbusy hmove]
        exact h
    | stop r =>
        rw [End.turn_stop hbusy hmove]
        exact hmoved r (.inr hmove)
    | go r rest =>
        rw [End.turn_go hbusy hmove]
        exact hmoved r (.inl ⟨rest, hmove⟩)
  · rw [End.turn_idle (Bool.eq_false_iff.mpr hbusy)]
    exact h

theorem recv {e : End κ ω} (h : Ledger [] e.conn.side) (chunk : Bytes) :
    Ledger [] (e.recv conf chunk).conn.side := by
  rw [End.recv]
  split_ifs <;> exact h

theorem meet (h : Ledger extra s) (fates : List Fate) : Ledger extra (meet fates s) :=
  h.congr rfl rfl rfl id rfl rfl rfl

/-- Whatever happens at one end, and whatever the peer sends, the ledger is balanced. -/
theorem step (e : End κ ω) (op : EndStep κ) (h : Ledger [] e.conn.side) :
    Ledger [] (endStep app conf e op).conn.side := by
  cases op with
  | recv chunk => exact h.recv chunk
  | act a =>
      cases a with
      | lock fates => exact (h.meet fates).lock app
      | invokeAsync command inBuff cb fates =>
          rw [endStep, End.act]
          split_ifs
          · exact (h.meet fates).invokeAsync command inBuff cb
          · exact h
      | notify command inBuff fates =>
          rw [endStep, End.act]
          split_ifs
          · exact (h.meet fates).notifyPeer command inBuff
          · exact h
      | turn fates => exact Ledger.turn (e := e.update (Levin.meet fates)) (h.meet fates)
      | expire i => exact h.expire i
      | timeout i => exact h.timeout i
      | close => exact h.congr rfl rfl rfl id rfl rfl rfl
      | shutdown => exact h.flagged
      | release => exact h.release

end Ledger

end Callbacks

def sideAfter (head : BucketHead2) (ctx : ω) (steps : List (EndStep κ)) : Side κ (World κ ω) :=
  (run (endStep app conf) (End.initial head ctx) steps).conn.side

/-- In every run of one end, whatever its peer sends and its own sends meet, the callbacks of the
calls that were made are those that were called, those of handlers whose timer runs, and those of
timers that have expired, each as often as it was handed over. After the release no timer runs. -/
theorem run_callbacks_once (head : BucketHead2) (ctx : ω) (steps : List (EndStep κ)) :
    ((sideAfter app conf head ctx steps).world.invoked.map (·.cb)).Perm
        ((sideAfter app conf head ctx steps).world.called.map (·.cb) ++
          (pendingCbs (sideAfter app conf head ctx steps).invokeResponseHandlers ++
            (sideAfter app conf head ctx steps).world.due)) ∧
      ((sideAfter app conf head ctx steps).protocolReleased = true →
        pendingCbs (sideAfter app conf head ctx steps).invokeResponseHandlers = []) := by
  have hledger : Ledger [] (sideAfter app conf head ctx steps) := by
    exact run_invariant (endStep app conf) (P := fun e => Ledger [] e.conn.side)
      (Ledger.initial ctx) Ledger.step steps
  have hbalance := hledger.balance
  rw [List.append_nil] at hbalance
  refine ⟨hbalance, fun hreleased => ?_⟩
  rw [(hledger.released hreleased).2]
  rfl

end XrCoin.Levin
