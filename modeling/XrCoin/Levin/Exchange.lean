import XrCoin.Levin.Endpoint

/-!
Two ends of a levin connection, and the bytes that are on their way between them.

Any end may send, expire, close or shut down at any time, and the socket of any end may hand over
any piece of what the other end has sent. In every state the requests that an end has served are
the first that the other has sent, and the answer that a callback gets is the one to its own
request.
-/

namespace XrCoin.Levin

open Data

variable {κ ω : Type}

/-! ### What is sent -/

inductive Message
  | request (command : UInt32) (inBuff : Bytes)
  | notice (command : UInt32) (inBuff : Bytes)
  | response (served : Served)

namespace Message

def head : Message → BucketHead2
  | request command inBuff => requestHead command inBuff 1
  | notice command inBuff => requestHead command inBuff 0
  | response v => responseHead (requestHead v.command v.buff 1) v.returnCode v.returnBuff.length

def body : Message → Bytes
  | request _ inBuff => inBuff
  | notice _ inBuff => inBuff
  | response v => v.returnBuff

def bytes (m : Message) : Bytes := m.head.toBytes ++ m.body

/-- The size of the body is written without loss. -/
def Fits (m : Message) : Prop := m.body.length < 2 ^ 64

def packet (m : Message) (h : m.Fits) : Packet where
  head := m.head
  body := m.body
  size_body := by
    have hcb : m.head.cb = UInt64.ofNat m.body.length := by cases m <;> rfl
    rw [hcb]
    exact (UInt64.toNat_ofNat_of_lt' h).symm

theorem bytes_packet (m : Message) (h : m.Fits) : (m.packet h).bytes = m.bytes := rfl

def request? : Message → Option (UInt32 × Bytes)
  | request command inBuff => some (command, inBuff)
  | _ => none

def notice? : Message → Option (UInt32 × Bytes)
  | notice command inBuff => some (command, inBuff)
  | _ => none

def response? : Message → Option Served
  | response v => some v
  | _ => none

end Message

def stream (ms : List Message) : Bytes := (ms.map Message.bytes).flatten

def requestsOf (ms : List Message) : List (UInt32 × Bytes) := ms.filterMap Message.request?

def noticesOf (ms : List Message) : List (UInt32 × Bytes) := ms.filterMap Message.notice?

def responsesOf (ms : List Message) : List Served := ms.filterMap Message.response?

@[simp] theorem stream_append (ms ns : List Message) :
    stream (ms ++ ns) = stream ms ++ stream ns := by
  simp [stream]

@[simp] theorem requestsOf_append (ms ns : List Message) :
    requestsOf (ms ++ ns) = requestsOf ms ++ requestsOf ns := List.filterMap_append

@[simp] theorem noticesOf_append (ms ns : List Message) :
    noticesOf (ms ++ ns) = noticesOf ms ++ noticesOf ns := List.filterMap_append

@[simp] theorem responsesOf_append (ms ns : List Message) :
    responsesOf (ms ++ ns) = responsesOf ms ++ responsesOf ns := List.filterMap_append

@[simp] theorem requestsOf_request (command : UInt32) (inBuff : Bytes) :
    requestsOf [.request command inBuff] = [(command, inBuff)] := rfl

@[simp] theorem requestsOf_notice (command : UInt32) (inBuff : Bytes) :
    requestsOf [.notice command inBuff] = [] := rfl

@[simp] theorem requestsOf_response (v : Served) : requestsOf [.response v] = [] := rfl

@[simp] theorem noticesOf_request (command : UInt32) (inBuff : Bytes) :
    noticesOf [.request command inBuff] = [] := rfl

@[simp] theorem noticesOf_notice (command : UInt32) (inBuff : Bytes) :
    noticesOf [.notice command inBuff] = [(command, inBuff)] := rfl

@[simp] theorem noticesOf_response (v : Served) : noticesOf [.response v] = [] := rfl

@[simp] theorem responsesOf_request (command : UInt32) (inBuff : Bytes) :
    responsesOf [.request command inBuff] = [] := rfl

@[simp] theorem responsesOf_notice (command : UInt32) (inBuff : Bytes) :
    responsesOf [.notice command inBuff] = [] := rfl

@[simp] theorem responsesOf_response (v : Served) : responsesOf [.response v] = [v] := rfl

/-! ### The two ends -/

structure Link (κ ω : Type) where
  ends : Bool → End κ ω
  taken : Bool → ℕ

def Link.world (l : Link κ ω) (p : Bool) : World κ ω := (l.ends p).conn.side.world

/-- The bytes that the other end has sent and this one has not taken. -/
def Link.wire (l : Link κ ω) (p : Bool) : Bytes := (l.world !p).sent.drop (l.taken p)

/-- What a thread of one end does, or a piece of the wire that its socket hands over. -/
inductive LinkStep (κ : Type)
  | act (p : Bool) (a : Action κ)
  | deliver (p : Bool) (n : ℕ)

variable (app : Bool → Application ω) (conf : Bool → Config)

def Link.move (l : Link κ ω) (p : Bool) (op : EndStep κ) : Link κ ω :=
  { l with ends := Function.update l.ends p (endStep (app p) (conf p) (l.ends p) op) }

def linkStep (l : Link κ ω) : LinkStep κ → Link κ ω
  | .act p a => l.move app conf p (.act a)
  | .deliver p n =>
      if (l.ends p).reading ∧ (l.ends p).busy = false then
        let chunk := (l.wire p).take n
        { l.move app conf p (.recv chunk) with
          taken := Function.update l.taken p (l.taken p + chunk.length) }
      else l

def Link.initial (head : Bool → BucketHead2) (ctx : Bool → ω) : Link κ ω :=
  { ends := fun p => End.initial (head p) (ctx p), taken := fun _ => 0 }

/-- No call on a socket is cut off by an exception. -/
def Action.Calm : Action κ → Prop
  | .lock fates | .invokeAsync _ _ _ fates | .notify _ _ fates | .turn fates =>
      ∀ queued, .thrown queued ∉ fates
  | _ => True

def LinkStep.Calm : LinkStep κ → Prop
  | .act _ a => a.Calm
  | .deliver _ _ => True

/-! ### What one end knows of its messages -/

def Part (rest : Bytes) : Prop := ∃ m : Message, m.Fits ∧ rest <+: m.bytes ∧ rest ≠ m.bytes

def calls (w : World κ ω) : List (UInt32 × Bytes) := w.invoked.map fun r => (r.command, r.inBuff)

/-- The messages that an end has sent whole. Only the last one before a shutdown may be cut off,
and on an open socket they are all that was to be sent. -/
structure Sends (w : World κ ω) (out : List Message) : Prop where
  bytes : ∃ rest, w.sent = stream out ++ rest ∧ Part rest ∧ (w.wasShutdown = false → rest = [])
  fits : ∀ m ∈ out, m.Fits
  requests : requestsOf out <+: calls w
  notices : noticesOf out <+: w.notices
  responses : responsesOf out <+: w.served
  complete : w.wasShutdown = false →
    requestsOf out = calls w ∧ noticesOf out = w.notices ∧ responsesOf out = w.served

def answers (requests : List (Request κ)) (served : List Served) : List (Called κ) :=
  List.zipWith (fun r v => ⟨r.cb, v.returnCode, v.returnBuff⟩) requests served

/-- A callback that is told that there will be no response. -/
def Called.Failed (c : Called κ) : Prop :=
  (c.code = LEVIN_ERROR_CONNECTION ∨ c.code = LEVIN_ERROR_CONNECTION_TIMEDOUT ∨
    c.code = LEVIN_ERROR_CONNECTION_DESTROYED) ∧ c.buff = []

/-- The handlers that are left when `n` requests were answered: those of the requests behind them,
up to the shutdown. Where a response was lost on a handler that had expired, all later ones are
lost on it too. -/
structure Waiting (s : Side κ (World κ ω)) (responses : List Served) (n : ℕ) : Prop where
  handlers : s.invokeResponseHandlers.map (·.cb) <+: (s.world.invoked.drop n).map (·.cb)
  all : s.world.wasShutdown = false →
    s.invokeResponseHandlers.length = s.world.invoked.length - n
  current : n = responses.length ∨
    s.world.wasShutdown = true ∧ s.invokeResponseHandlers = [] ∨
    ∃ h others, s.invokeResponseHandlers = h :: others ∧ h.cancelTimerCalled = true

/-- How the responses that came were given to the callbacks: to the first `n` calls, in order. -/
structure Answered (s : Side κ (World κ ω)) (responses : List Served) (n : ℕ)
    (failed : List (Called κ)) : Prop where
  le_responses : n ≤ responses.length
  le_invoked : n ≤ s.world.invoked.length
  called : s.world.called.Perm (answers (s.world.invoked.take n) (responses.take n) ++ failed)
  failed : ∀ c ∈ failed, c.Failed
  waiting : s.protocolReleased = true ∨ Waiting s responses n

structure Handles (s : Side κ (World κ ω)) (incoming : List Message) : Prop where
  served : s.world.served.map (fun v => (v.command, v.buff)) = requestsOf incoming
  notified : s.world.notified = noticesOf incoming
  answered : ∃ n failed, Answered s (responsesOf incoming) n failed

/-! ### Callbacks -/

section Answered

variable {app : Application ω} {s s' : Side κ (World κ ω)} {responses : List Served} {n : ℕ}
  {failed : List (Called κ)}

theorem answers_succ {requests : List (Request κ)} {r : Request κ} {v : Served}
    (hn : responses.length = n) (hr : requests[n]? = some r) :
    answers (requests.take (n + 1)) ((responses ++ [v]).take (n + 1)) =
      answers (requests.take n) (responses.take n) ++ [⟨r.cb, v.returnCode, v.returnBuff⟩] := by
  have hrequests : requests.take (n + 1) = requests.take n ++ [r] := by
    rw [List.take_add_one, hr, Option.toList_some]
  have hlength : (requests.take n).length = responses.length := by
    obtain ⟨hlt, -⟩ := List.getElem?_eq_some_iff.mp hr
    rw [List.length_take]
    omega
  have hresponses : (responses ++ [v]).take (n + 1) = responses ++ [v] := by
    rw [List.take_of_length_le]
    simp [hn]
  rw [hrequests, hresponses, List.take_of_length_le (Nat.le_of_eq hn), answers, answers,
    List.zipWith_append hlength]
  rfl

theorem take_concat_of_le {v : Served} (h : n ≤ responses.length) :
    (responses ++ [v]).take n = responses.take n := List.take_append_of_le_length h

namespace Waiting

theorem congr (h : Waiting s responses n)
    (hshut : s'.world.wasShutdown = s.world.wasShutdown)
    (hhandlers : s'.invokeResponseHandlers = s.invokeResponseHandlers)
    (hinvoked : s'.world.invoked = s.world.invoked) : Waiting s' responses n where
  handlers := by rw [hhandlers, hinvoked]; exact h.handlers
  all := by rw [hhandlers, hinvoked, hshut]; exact h.all
  current := by rw [hhandlers, hshut]; exact h.current

theorem flagged (h : Waiting s responses n) : Waiting s.flagged responses n where
  handlers := h.handlers
  all hopen := by cases hopen
  current := by
    obtain hall | ⟨-, hnil⟩ | hblocked := h.current
    · exact .inl hall
    · exact .inr (.inl ⟨rfl, hnil⟩)
    · exact .inr (.inr hblocked)

/-- A call without a handler, on a socket that is shut down. -/
theorem record (h : Waiting s responses n) (hn : n ≤ s.world.invoked.length)
    (hshut : s.world.wasShutdown = true) (r : Request κ) {locked : ℕ} :
    Waiting (s.update fun w => { w with locked, invoked := w.invoked ++ [r] }) responses n where
  handlers := by
    refine h.handlers.trans ?_
    rw [Side.update_world, List.drop_append_of_le_length hn, List.map_append]
    exact List.prefix_append _ _
  all hopen := absurd (hopen.symm.trans hshut) Bool.false_ne_true
  current := h.current

/-- A call whose handler stands behind the others. -/
theorem add (h : Waiting s responses n) (hn : n ≤ s.world.invoked.length)
    (hopen : s.world.wasShutdown = false) (r : Request κ) {started : Bool}
    (hhandlers : s'.invokeResponseHandlers =
      s.invokeResponseHandlers ++ [.fresh r.cb r.command started])
    (hinvoked : s'.world.invoked = s.world.invoked ++ [r]) : Waiting s' responses n where
  handlers := by
    have hlength := h.all hopen
    have hsame : s.invokeResponseHandlers.map (·.cb) = (s.world.invoked.drop n).map (·.cb) := by
      refine h.handlers.eq_of_length ?_
      rw [List.length_map, List.length_map, List.length_drop, hlength]
    rw [hhandlers, hinvoked, List.drop_append_of_le_length hn, List.map_append, List.map_append,
      hsame]
    exact List.prefix_rfl
  all _ := by
    have hlength := h.all hopen
    rw [hhandlers, hinvoked, List.length_append, List.length_append, List.length_singleton,
      List.length_singleton]
    omega
  current := by
    obtain hall | ⟨hshut, -⟩ | ⟨first, others, hfirst, hcalled⟩ := h.current
    · exact .inl hall
    · exact absurd (hopen.symm.trans hshut) Bool.false_ne_true
    · exact .inr (.inr ⟨first, others ++ [.fresh r.cb r.command started],
        by rw [hhandlers, hfirst, List.cons_append], hcalled⟩)

theorem expire (h : Waiting s responses n) (i : ℕ) : Waiting (expire i s) responses n := by
  rw [Levin.expire]
  cases hget : s.invokeResponseHandlers[i]? with
  | none => exact h
  | some handler =>
      dsimp only
      split_ifs with hpending
      · obtain ⟨hi, hhandler⟩ := List.getElem?_eq_some_iff.mp hget
        have hsame : (s.invokeResponseHandlers.set i { handler with timerPending := false }).map
            (·.cb) = s.invokeResponseHandlers.map (·.cb) := by
          have hi' : i < (s.invokeResponseHandlers.map (·.cb)).length := by simpa using hi
          have hcb : handler.cb = (s.invokeResponseHandlers.map (·.cb))[i] := by
            rw [List.getElem_map, hhandler]
          rw [List.map_set]
          exact hcb ▸ List.set_getElem_self hi'
        refine ⟨?_, fun hopen => ?_, ?_⟩
        · exact hsame.symm ▸ h.handlers
        · rw [List.length_set]
          exact h.all hopen
        · obtain hall | ⟨hshut, hnil⟩ | ⟨first, others, hfirst, hcalled⟩ := h.current
          · exact .inl hall
          · rw [hnil] at hi
            cases hi
          · right; right
            rw [hfirst] at hget ⊢
            cases i with
            | zero =>
                obtain rfl := Option.some.inj hget
                exact ⟨_, others, rfl, hcalled⟩
            | succ i => exact ⟨first, _, rfl, hcalled⟩
      · exact h

end Waiting

namespace Answered

theorem congr (h : Answered s responses n failed)
    (hshut : s'.world.wasShutdown = s.world.wasShutdown)
    (hreleased : s'.protocolReleased = s.protocolReleased)
    (hhandlers : s'.invokeResponseHandlers = s.invokeResponseHandlers)
    (hinvoked : s'.world.invoked = s.world.invoked) (hcalled : s'.world.called = s.world.called) :
    Answered s' responses n failed where
  le_responses := h.le_responses
  le_invoked := by rw [hinvoked]; exact h.le_invoked
  called := by rw [hcalled, hinvoked]; exact h.called
  failed := h.failed
  waiting := by
    rw [hreleased]
    exact h.waiting.imp_right fun hw => hw.congr hshut hhandlers hinvoked

theorem flagged (h : Answered s responses n failed) : Answered s.flagged responses n failed where
  le_responses := h.le_responses
  le_invoked := h.le_invoked
  called := h.called
  failed := h.failed
  waiting := h.waiting.imp_right Waiting.flagged

theorem sending (h : Answered s responses n failed) (fates : List Fate) (bytes : Bytes) :
    Answered (s.sending fates bytes) responses n failed := h.congr rfl rfl rfl rfl rfl

theorem tell (h : Answered s responses n failed) {c : Called κ} (hc : c.Failed)
    (hshut : s'.world.wasShutdown = s.world.wasShutdown)
    (hreleased : s'.protocolReleased = s.protocolReleased)
    (hhandlers : s'.invokeResponseHandlers = s.invokeResponseHandlers)
    (hinvoked : s'.world.invoked = s.world.invoked)
    (hcalled : s'.world.called = s.world.called ++ [c]) :
    Answered s' responses n (failed ++ [c]) where
  le_responses := h.le_responses
  le_invoked := by rw [hinvoked]; exact h.le_invoked
  called := by
    rw [hcalled, hinvoked, ← List.append_assoc]
    exact h.called.append_right [c]
  failed d hd := by
    rcases List.mem_append.mp hd with hd | hd
    · exact h.failed d hd
    · rwa [List.mem_singleton.mp hd]
  waiting := by
    rw [hreleased]
    exact h.waiting.imp_right fun hw => hw.congr hshut hhandlers hinvoked

variable (app) in
theorem releaseProtocol (h : Answered s responses n failed)
    (hsound : ∀ handler ∈ s.invokeResponseHandlers, handler.Sound) :
    ∃ more, Answered (releaseProtocol (endpoint app) s) responses n (failed ++ more) := by
  obtain ⟨waitCount, hrelease⟩ := Ledger.releaseProtocol_eq app hsound
  rw [hrelease]
  refine ⟨(pendingCbs s.invokeResponseHandlers).map fun cb =>
    ⟨cb, LEVIN_ERROR_CONNECTION_DESTROYED, []⟩, h.le_responses, h.le_invoked, ?_, ?_, .inl rfl⟩
  · rw [← List.append_assoc]
    exact h.called.append_right _
  · intro c hc
    rcases List.mem_append.mp hc with hc | hc
    · exact h.failed c hc
    · obtain ⟨cb, -, rfl⟩ := List.mem_map.mp hc
      exact ⟨.inr (.inr rfl), rfl⟩

theorem release (h : Answered s responses n failed)
    (hsound : ∀ handler ∈ s.invokeResponseHandlers, handler.Sound) :
    ∃ more, Answered (release app s) responses n (failed ++ more) := by
  rw [Levin.release]
  split_ifs
  · exact h.releaseProtocol app hsound
  · exact ⟨[], by rwa [List.append_nil]⟩

theorem shutdown (h : Answered s responses n failed)
    (hsound : ∀ handler ∈ s.invokeResponseHandlers, handler.Sound) :
    ∃ more, Answered (shutdown app s) responses n (failed ++ more) := by
  rw [Levin.shutdown]
  split_ifs
  · exact ⟨[], by rwa [List.append_nil]⟩
  · exact h.flagged.releaseProtocol app hsound

theorem sendFailure (h : Answered s responses n failed) {bytes : Bytes}
    (hsound : ∀ handler ∈ s.invokeResponseHandlers, handler.Sound)
    (hfail : SendFailure app bytes s s') :
    ∃ more, Answered s' responses n (failed ++ more) := by
  cases hfail with
  | refused => exact ⟨[], by rwa [List.append_nil]⟩
  | thrown fates part => exact ⟨[], by rw [List.append_nil]; exact h.sending fates part⟩
  | cut fates part => exact ⟨[], by rw [List.append_nil]; exact (h.sending fates part).flagged⟩
  | full fates part => exact (h.sending fates part).shutdown hsound

/-- The call is written down: its handler was added to an open connection. -/
theorem add (h : Answered s responses n failed) (hledger : Ledger [] s)
    (hopen : s.world.wasShutdown = false) (r : Request κ) {started : Bool}
    (hhandlers : s'.invokeResponseHandlers =
      s.invokeResponseHandlers ++ [.fresh r.cb r.command started])
    (hinvoked : s'.world.invoked = s.world.invoked ++ [r])
    (hcalled : s'.world.called = s.world.called) : Answered s' responses n failed where
  le_responses := h.le_responses
  le_invoked := by
    rw [hinvoked, List.length_append]
    exact Nat.le_add_right_of_le h.le_invoked
  called := by
    rw [hcalled, hinvoked, List.take_append_of_le_length h.le_invoked]
    exact h.called
  failed := h.failed
  waiting := by
    obtain hreleased | hwaiting := h.waiting
    · have hshut := (hledger.released hreleased).1
      exact absurd (hopen.symm.trans hshut) Bool.false_ne_true
    · exact .inr (hwaiting.add h.le_invoked hopen r hhandlers hinvoked)

/-- The call is written down: it was not sent whole. -/
theorem record (h : Answered s responses n failed) (hshut : s.world.wasShutdown = true)
    (r : Request κ) (locked : ℕ) :
    Answered (s.update fun w => { w with locked, invoked := w.invoked ++ [r] }) responses n
      failed where
  le_responses := h.le_responses
  le_invoked := by
    rw [Side.update_world, List.length_append]
    exact Nat.le_add_right_of_le h.le_invoked
  called := by
    rw [Side.update_world, List.take_append_of_le_length h.le_invoked]
    exact h.called
  failed := h.failed
  waiting := h.waiting.imp_right fun hw => hw.record h.le_invoked hshut r

theorem expire (h : Answered s responses n failed) (i : ℕ) :
    Answered (expire i s) responses n failed := by
  have hwaiting := h.waiting.imp_right fun hw => Waiting.expire hw i
  rw [Levin.expire] at hwaiting ⊢
  cases hget : s.invokeResponseHandlers[i]? with
  | none => exact h
  | some handler =>
      rw [hget] at hwaiting
      dsimp only at hwaiting ⊢
      split_ifs at hwaiting ⊢ with hpending
      · exact ⟨h.le_responses, h.le_invoked, h.called, h.failed, hwaiting⟩
      · exact h

theorem lost (h : Answered s responses n failed) (v : Served)
    (hinvoked : s'.world.invoked = s.world.invoked) (hcalled : s'.world.called = s.world.called)
    (hwaiting : s'.protocolReleased = true ∨ Waiting s' (responses ++ [v]) n) :
    Answered s' (responses ++ [v]) n failed where
  le_responses := by
    rw [List.length_append]
    exact Nat.le_add_right_of_le h.le_responses
  le_invoked := by rw [hinvoked]; exact h.le_invoked
  called := by
    rw [hcalled, hinvoked, take_concat_of_le h.le_responses]
    exact h.called
  failed := h.failed
  waiting := hwaiting

/-- A response that the callback of its request gets. -/
theorem answer (h : Answered s responses n failed) (hwaiting : Waiting s responses n) (v : Served)
    {handler : AnvokeHandler κ} {others : List (AnvokeHandler κ)}
    (hhandlers : s.invokeResponseHandlers = handler :: others)
    (hfresh : handler.cancelTimerCalled ≠ true)
    (hothers : s'.invokeResponseHandlers = others)
    (hshut : s'.world.wasShutdown = s.world.wasShutdown)
    (hinvoked : s'.world.invoked = s.world.invoked)
    (hcalled : s'.world.called = s.world.called ++ [⟨handler.cb, v.returnCode, v.returnBuff⟩]) :
    Answered s' (responses ++ [v]) (n + 1) failed := by
  have hn : n = responses.length := by
    obtain hall | ⟨-, hnil⟩ | ⟨first, others', hfirst, hblocked⟩ := hwaiting.current
    · exact hall
    · rw [hhandlers] at hnil
      cases hnil
    · rw [hhandlers] at hfirst
      obtain rfl := (List.cons.inj hfirst).1
      exact absurd hblocked hfresh
  have hnames := hwaiting.handlers
  rw [hhandlers, List.map_cons] at hnames
  have hlt : n < s.world.invoked.length := by
    have hlength := hnames.length_le
    simp only [List.length_cons, List.length_map, List.length_drop] at hlength
    omega
  rw [List.drop_eq_getElem_cons hlt, List.map_cons, List.cons_prefix_cons] at hnames
  obtain ⟨hcb, hrest⟩ := hnames
  refine ⟨?_, by rw [hinvoked]; exact hlt, ?_, h.failed, .inr ⟨?_, fun hopen => ?_, .inl ?_⟩⟩
  · rw [List.length_append, List.length_singleton]
    omega
  · rw [hcalled, hinvoked, answers_succ hn.symm (List.getElem?_eq_getElem hlt), hcb]
    refine (h.called.append_right _).trans ?_
    simp only [List.append_assoc]
    exact List.perm_append_comm.append_left _
  · rwa [hothers, hinvoked]
  · have hlength := hwaiting.all (hshut ▸ hopen)
    rw [hhandlers, List.length_cons] at hlength
    rw [hothers, hinvoked]
    omega
  · rw [List.length_append, List.length_singleton, hn]

/-- A response finds the callback of its request, or one of its own end that has expired. -/
theorem handleResponse (h : Answered s responses n failed) (hledger : Ledger [] s)
    (hcount : responses.length < s.world.invoked.length) {v : Served} {head : BucketHead2}
    (hcode : head.returnCode = v.returnCode) :
    ∃ n', Answered (handleResponse (endpoint app) head v.returnBuff s).2 (responses ++ [v]) n'
      failed := by
  cases hhandlers : s.invokeResponseHandlers with
  | nil =>
      -- on an open socket every request was answered, so there cannot be one more response
      have hgone : s.protocolReleased = true ∨ Waiting s (responses ++ [v]) n := by
        refine h.waiting.imp_right fun hw => ?_
        have hshut : s.world.wasShutdown = true := by
          by_contra hshut
          have hall := hw.all (Bool.eq_false_iff.mpr hshut)
          rw [hhandlers, List.length_nil] at hall
          have hle := h.le_responses
          omega
        exact ⟨hw.handlers, hw.all, .inr (.inl ⟨hshut, hhandlers⟩)⟩
      refine ⟨n, ?_⟩
      rw [handleResponse_nil hhandlers, syncResponse]
      split_ifs
      · exact h.lost v rfl rfl hgone
      · exact h.lost v rfl rfl (hgone.imp_right fun hw => hw.congr rfl rfl rfl)
  | cons handler others =>
      have hsound : handler.Sound :=
        hledger.sound handler (by rw [hhandlers]; exact List.mem_cons_self)
      have hwaiting : Waiting s responses n := by
        refine h.waiting.resolve_left fun hreleased => ?_
        rw [(hledger.released hreleased).2] at hhandlers
        cases hhandlers
      rw [handleResponse_cons hhandlers, hsound.cancelTimer_fst]
      cases hpending : handler.timerPending with
      | true =>
          have hfresh : handler.cancelTimerCalled ≠ true := by
            intro hcalled
            rw [(hsound hcalled).2] at hpending
            cases hpending
          refine ⟨n + 1, h.answer hwaiting v hhandlers hfresh rfl rfl rfl ?_⟩
          rw [← hcode]
          rfl
      | false =>
          have hblocked : handler.cancelTimer.2.cancelTimerCalled = true := by
            rw [AnvokeHandler.cancelTimer]
            split_ifs with hcalled
            · exact hcalled
            · rfl
          have hnames := hwaiting.handlers
          have hlength := hwaiting.all
          rw [hhandlers] at hnames hlength
          refine ⟨n, h.lost v rfl rfl (.inr ⟨?_, hlength, .inr (.inr ⟨_, others, rfl, hblocked⟩)⟩)⟩
          rw [List.map_cons] at hnames
          simpa using hnames

end Answered

end Answered

/-! ### One end, with the messages it has sent and got -/

theorem part_nil : Part [] := by
  have hfits : (Message.notice 0 []).Fits := show 0 < 2 ^ 64 by norm_num
  refine ⟨.notice 0 [], hfits, List.nil_prefix, fun h => ?_⟩
  have hlength := congrArg List.length h
  simp only [Message.bytes, List.length_append, BucketHead2.toBytes_length] at hlength
  have hsize : BucketHead2.size = 33 := rfl
  rw [List.length_nil] at hlength
  omega

theorem bytes_request (command : UInt32) (inBuff : Bytes) :
    (Message.request command inBuff).bytes = requestBytes command inBuff 1 := rfl

theorem bytes_notice (command : UInt32) (inBuff : Bytes) :
    (Message.notice command inBuff).bytes = requestBytes command inBuff 0 := rfl

theorem stream_concat (out : List Message) (m : Message) :
    stream (out ++ [m]) = stream out ++ m.bytes := by
  rw [stream_append]
  simp [stream]

theorem Sendable.lt {inBuff : Bytes} (h : Sendable inBuff) : inBuff.length < 2 ^ 64 :=
  lt_trans h (by norm_num)

structure Logged (m : Message) (w w' : World κ ω) : Prop where
  calls : calls w' = calls w ++ requestsOf [m]
  notices : w'.notices = w.notices ++ noticesOf [m]
  served : w'.served = w.served ++ responsesOf [m]

namespace Sends

variable {w w' : World κ ω} {out : List Message} {m : Message}

theorem congr (h : Sends w out) (hsent : w'.sent = w.sent) (hinvoked : w'.invoked = w.invoked)
    (hnotices : w'.notices = w.notices) (hserved : w'.served = w.served)
    (hshut : w'.wasShutdown = false → w.wasShutdown = false) : Sends w' out where
  bytes := by
    obtain ⟨rest, hrest, hpart, hopen⟩ := h.bytes
    exact ⟨rest, hsent.trans hrest, hpart, fun h' => hopen (hshut h')⟩
  fits := h.fits
  requests := by rw [calls, hinvoked]; exact h.requests
  notices := by rw [hnotices]; exact h.notices
  responses := by rw [hserved]; exact h.responses
  complete hopen := by
    rw [calls, hinvoked, hnotices, hserved]
    exact h.complete (hshut hopen)

theorem sent (h : Sends w out) (hopen : w.wasShutdown = false) (hm : m.Fits)
    (hlog : Logged m w w') (hsent : w'.sent = w.sent ++ m.bytes) : Sends w' (out ++ [m]) := by
  obtain ⟨hrequests, hnotices, hresponses⟩ := h.complete hopen
  have hall : requestsOf (out ++ [m]) = calls w' ∧ noticesOf (out ++ [m]) = w'.notices ∧
      responsesOf (out ++ [m]) = w'.served := by
    rw [requestsOf_append, noticesOf_append, responsesOf_append, hrequests, hnotices, hresponses]
    exact ⟨hlog.calls.symm, hlog.notices.symm, hlog.served.symm⟩
  refine ⟨⟨[], ?_, part_nil, fun _ => rfl⟩, fun m' hm' => ?_, ?_, ?_, ?_, fun _ => hall⟩
  · obtain ⟨rest, hrest, -, hnil⟩ := h.bytes
    rw [hsent, hrest, hnil hopen, List.append_nil, List.append_nil, stream_concat]
  · rcases List.mem_append.mp hm' with hm' | hm'
    · exact h.fits m' hm'
    · rwa [List.mem_singleton.mp hm']
  · rw [hall.1]
  · rw [hall.2.1]
  · rw [hall.2.2]

/-- The message is not sent, because the socket was shut down. -/
theorem refused (h : Sends w out) (hlog : Logged m w w') (hsent : w'.sent = w.sent)
    (hshut : w'.wasShutdown = true) : Sends w' out where
  bytes := by
    obtain ⟨rest, hrest, hpart, -⟩ := h.bytes
    exact ⟨rest, hsent.trans hrest, hpart, fun h' => absurd (h'.symm.trans hshut) (by decide)⟩
  fits := h.fits
  requests := by
    rw [hlog.calls]
    exact h.requests.trans (List.prefix_append _ _)
  notices := by
    rw [hlog.notices]
    exact h.notices.trans (List.prefix_append _ _)
  responses := by
    rw [hlog.served]
    exact h.responses.trans (List.prefix_append _ _)
  complete hopen := absurd (hopen.symm.trans hshut) (by decide)

/-- The message is not sent whole, or at least the call does not know that it is. -/
theorem failed (h : Sends w out) (hm : m.Fits) (hlog : Logged m w w') {part : Bytes}
    (hpart : part <+: m.bytes) (hsent : w'.sent = w.sent ++ part)
    (hrefused : w.wasShutdown = true → part = []) (hshut : w'.wasShutdown = true) :
    ∃ out', (out' = out ∨ out' = out ++ [m]) ∧ Sends w' out' := by
  by_cases hw : w.wasShutdown = true
  · rw [hrefused hw, List.append_nil] at hsent
    exact ⟨out, .inl rfl, h.refused hlog hsent hshut⟩
  have hopen : w.wasShutdown = false := Bool.eq_false_iff.mpr hw
  by_cases hwhole : part = m.bytes
  · rw [hwhole] at hsent
    exact ⟨_, .inr rfl, h.sent hopen hm hlog hsent⟩
  · have hbefore : Sends { w' with sent := w.sent } out := by
      exact h.refused ⟨hlog.calls, hlog.notices, hlog.served⟩ rfl hshut
    refine ⟨out, .inl rfl, ⟨part, ?_, ⟨m, hm, hpart, hwhole⟩, fun h' => ?_⟩, h.fits,
      hbefore.requests, hbefore.notices, hbefore.responses, hbefore.complete⟩
    · obtain ⟨rest, hrest, -, hnil⟩ := h.bytes
      rw [hsent, hrest, hnil hopen, List.append_nil]
    · exact absurd (h'.symm.trans hshut) (by decide)

end Sends

/-- No exception is in the way of the calls to come. -/
def World.Calm (w : World κ ω) : Prop := ∀ queued, .thrown queued ∉ w.fates

theorem SendFailure.world {app : Application ω} {s s' : Side κ (World κ ω)} {bytes : Bytes}
    (hfail : SendFailure app bytes s s') (hcalm : s.world.Calm)
    (hsound : ∀ handler ∈ s.invokeResponseHandlers, handler.Sound) :
    ∃ part, part <+: bytes ∧ (s.world.wasShutdown = true → part = []) ∧
      ∃ fates called, s'.world = { s.world with
        fates, called, wasShutdown := true, sent := s.world.sent ++ part } := by
  cases hfail with
  | refused hshut =>
      refine ⟨[], List.nil_prefix, fun _ => rfl, s.world.fates, s.world.called, ?_⟩
      rw [List.append_nil, ← hshut]
  | thrown fates part queued hmem => exact absurd hmem (hcalm queued)
  | cut fates part hopen hpart =>
      refine ⟨part, hpart, fun hshut => ?_, fates, s.world.called, rfl⟩
      exact absurd (hopen.symm.trans hshut) Bool.false_ne_true
  | full fates part hopen hpart =>
      refine ⟨part, hpart, fun hshut => ?_, fates, ?_⟩
      · exact absurd (hopen.symm.trans hshut) Bool.false_ne_true
      have hopen' : ¬(s.sending fates part).world.wasShutdown = true := Bool.eq_false_iff.mp hopen
      obtain ⟨waitCount, hrelease⟩ :=
        @Ledger.releaseProtocol_eq κ ω app (s.sending fates part).flagged hsound
      rw [shutdown, if_neg hopen', releaseProtocol_offline, hrelease]
      exact ⟨_, rfl⟩

/-- One end whose messages so far are `out`, and which got `incoming`. -/
structure Party (s : Side κ (World κ ω)) (out incoming : List Message) : Prop where
  ledger : Ledger [] s
  sends : Sends s.world out
  handles : Handles s incoming

structure Grown (s s' : Side κ (World κ ω)) (out out' : List Message) : Prop where
  out : out <+: out'
  sent : s.world.sent <+: s'.world.sent

theorem Grown.refl {s s' : Side κ (World κ ω)} {out : List Message}
    (hsent : s'.world.sent = s.world.sent) : Grown s s' out out :=
  ⟨List.prefix_rfl, by rw [hsent]⟩

theorem prefix_of_eq_or {α : Type} {out out' : List α} {m : α}
    (h : out' = out ∨ out' = out ++ [m]) : out <+: out' := by
  rcases h with rfl | rfl
  · exact List.prefix_rfl
  · exact List.prefix_append _ _

namespace Party

variable {app : Application ω} {s : Side κ (World κ ω)} {out incoming : List Message}

/-- A step that sends nothing and keeps the books. -/
theorem congr (h : Party s out incoming) {s' : Side κ (World κ ω)} (hledger : Ledger [] s')
    (hanswered : ∃ n failed, Answered s' (responsesOf incoming) n failed)
    (hsent : s'.world.sent = s.world.sent) (hinvoked : s'.world.invoked = s.world.invoked)
    (hnotices : s'.world.notices = s.world.notices) (hserved : s'.world.served = s.world.served)
    (hnotified : s'.world.notified = s.world.notified)
    (hshut : s'.world.wasShutdown = false → s.world.wasShutdown = false) :
    Party s' out incoming where
  ledger := hledger
  sends := h.sends.congr hsent hinvoked hnotices hserved hshut
  handles := ⟨by rw [hserved]; exact h.handles.served, hnotified.trans h.handles.notified,
    hanswered⟩

theorem meet (h : Party s out incoming) (fates : List Fate) :
    Party (meet fates s) out incoming := by
  obtain ⟨n, failed, hanswered⟩ := h.handles.answered
  exact h.congr (h.ledger.meet fates) ⟨n, failed, hanswered.congr rfl rfl rfl rfl rfl⟩ rfl rfl rfl
    rfl rfl id

theorem flagged (h : Party s out incoming) : Party s.flagged out incoming := by
  obtain ⟨n, failed, hanswered⟩ := h.handles.answered
  refine h.congr h.ledger.flagged ⟨n, failed, hanswered.flagged⟩ rfl rfl rfl rfl rfl ?_
  intro hopen
  cases hopen

variable (app) in
theorem lock (h : Party s out incoming) :
    Grown s (lock app s) out out ∧ Party (lock app s) out incoming := by
  obtain ⟨n, failed, hanswered⟩ := h.handles.answered
  have hadd : (endpoint app).addRef s = addRef s := rfl
  have hledger : Ledger [] (Levin.lock app s) := h.ledger.lock app
  rw [Levin.lock, startOuterCall, hadd] at hledger ⊢
  rcases addRef_cases s with ⟨fates, -, heq⟩ | heq | ⟨fates, -, heq | heq⟩
  · rw [heq] at hledger ⊢
    have hsame : Party (s.sending fates []) out incoming := by
      exact h.congr (h.ledger.sending fates []) ⟨n, failed, hanswered.sending fates []⟩
        (List.append_nil _) rfl rfl rfl rfl id
    refine ⟨Grown.refl (List.append_nil _), hsame.congr hledger ?_ rfl rfl rfl rfl rfl id⟩
    exact ⟨n, failed, (hanswered.sending fates []).congr rfl rfl rfl rfl rfl⟩
  · rw [heq]
    exact ⟨Grown.refl rfl, h⟩
  · rw [heq] at hledger ⊢
    exact ⟨Grown.refl (List.append_nil _), h.congr hledger
      ⟨n, failed, hanswered.sending fates []⟩ (List.append_nil _) rfl rfl rfl rfl id⟩
  · rw [heq] at hledger ⊢
    refine ⟨Grown.refl (List.append_nil _), h.congr hledger
      ⟨n, failed, (hanswered.sending fates []).flagged⟩ (List.append_nil _) rfl rfl rfl rfl ?_⟩
    intro hopen
    cases hopen

theorem invokeAsync (h : Party s out incoming) (hcalm : s.world.Calm) {command : UInt32}
    {inBuff : Bytes} (hsize : Sendable inBuff) (cb : κ) :
    ∃ out', Grown s (invokeAsync app command inBuff cb s) out out' ∧
      Party (invokeAsync app command inBuff cb s) out' incoming := by
  obtain ⟨n, failed, hanswered⟩ := h.handles.answered
  have hledger : Ledger [] (Levin.invokeAsync app command inBuff cb s) :=
    h.ledger.invokeAsync command inBuff cb
  have hfits : (Message.request command inBuff).Fits := hsize.lt
  by_cases hlocked : s.world.locked = 0
  · rw [Levin.invokeAsync, if_pos hlocked]
    exact ⟨out, Grown.refl rfl, h⟩
  rw [Levin.invokeAsync, if_neg hlocked] at hledger ⊢
  rcases asyncInvoke_cases app command inBuff cb h.ledger.alive with
    ⟨fates, waitCount, hopen, hs⟩ | ⟨fates, shut, waitCount, hopen, hs⟩ | ⟨s', waitCount, hfail, hs⟩
  · rw [hs] at hledger ⊢
    refine ⟨out ++ [.request command inBuff], ⟨List.prefix_append _ _, List.prefix_append _ _⟩,
      hledger, h.sends.sent hopen hfits ⟨by simp [calls, Side.sending, Side.update], ?_, ?_⟩ ?_,
      h.handles.served, h.handles.notified, n, failed, ?_⟩
    · exact (List.append_nil _).symm
    · exact (List.append_nil _).symm
    · rw [bytes_request]
      rfl
    · exact hanswered.add h.ledger hopen ⟨command, inBuff, cb⟩ rfl rfl rfl
  · rw [hs] at hledger ⊢
    refine ⟨out ++ [.request command inBuff], ⟨List.prefix_append _ _, List.prefix_append _ _⟩,
      hledger, h.sends.sent hopen hfits ⟨by simp [calls, Side.update], ?_, ?_⟩ ?_,
      h.handles.served, h.handles.notified, n,
      failed ++ [⟨cb, LEVIN_ERROR_CONNECTION_DESTROYED, []⟩], ?_⟩
    · exact (List.append_nil _).symm
    · exact (List.append_nil _).symm
    · rw [bytes_request]
      rfl
    · have hadded : Answered { s with
          invokeResponseHandlers := s.invokeResponseHandlers ++ [.fresh cb command false]
          world := { s.world with
            wasShutdown := shut
            invoked := s.world.invoked ++ [⟨command, inBuff, cb⟩] } } (responsesOf incoming) n
          failed := hanswered.add h.ledger hopen ⟨command, inBuff, cb⟩ rfl rfl rfl
      exact hadded.tell ⟨.inr (.inr rfl), rfl⟩ rfl rfl rfl rfl rfl
  · rw [hs] at hledger ⊢
    obtain ⟨part, hpart, hrefused, fates, called, hworld⟩ := hfail.world hcalm h.ledger.sound
    have hready : Answered { s with invokeBufReady := false } (responsesOf incoming) n failed :=
      hanswered.congr rfl rfl rfl rfl rfl
    obtain ⟨more, hmore⟩ := hready.sendFailure h.ledger.sound hfail
    have htold : Answered { s' with
        waitCount
        world := { s'.world with
          called := s'.world.called ++ [⟨cb, LEVIN_ERROR_CONNECTION, []⟩] } }
        (responsesOf incoming) n (failed ++ more ++ [⟨cb, LEVIN_ERROR_CONNECTION, []⟩]) :=
      hmore.tell ⟨.inl rfl, rfl⟩ rfl rfl rfl rfl rfl
    have hshut : s'.world.wasShutdown = true := by rw [hworld]
    obtain ⟨out', hout', hsends⟩ : ∃ out', (out' = out ∨ out' = out ++ [.request command inBuff]) ∧
        Sends { s'.world with
          called := s'.world.called ++ [⟨cb, LEVIN_ERROR_CONNECTION, []⟩]
          locked := s'.world.locked - 1
          invoked := s'.world.invoked ++ [⟨command, inBuff, cb⟩] } out' := by
      refine h.sends.failed hfits ⟨by simp [calls, hworld], by simp [hworld], by simp [hworld]⟩ ?_
        (by simp only [hworld]) hrefused hshut
      rwa [bytes_request]
    refine ⟨out', ⟨prefix_of_eq_or hout', ?_⟩, hledger, hsends, ?_, ?_, n, _,
      htold.record hshut ⟨command, inBuff, cb⟩ _⟩
    · simp [Side.update, hworld]
    · simpa [Side.update, hworld] using h.handles.served
    · simpa [Side.update, hworld] using h.handles.notified

theorem notifyPeer (h : Party s out incoming) (hcalm : s.world.Calm) {command : UInt32}
    {inBuff : Bytes} (hsize : Sendable inBuff) :
    ∃ out', Grown s (notifyPeer app command inBuff s) out out' ∧
      Party (notifyPeer app command inBuff s) out' incoming := by
  obtain ⟨n, failed, hanswered⟩ := h.handles.answered
  have hledger : Ledger [] (Levin.notifyPeer app command inBuff s) :=
    h.ledger.notifyPeer command inBuff
  have hfits : (Message.notice command inBuff).Fits := hsize.lt
  by_cases hlocked : s.world.locked = 0
  · rw [Levin.notifyPeer, if_pos hlocked]
    exact ⟨out, Grown.refl rfl, h⟩
  rw [Levin.notifyPeer, if_neg hlocked] at hledger ⊢
  rcases notify_cases app command inBuff h.ledger.alive with
    ⟨fates, waitCount, hopen, hs⟩ | ⟨s', waitCount, hfail, hs⟩
  · rw [hs] at hledger ⊢
    refine ⟨out ++ [.notice command inBuff], ⟨List.prefix_append _ _, List.prefix_append _ _⟩,
      hledger, h.sends.sent hopen hfits ⟨?_, rfl, ?_⟩ ?_, h.handles.served, h.handles.notified, n,
      failed, hanswered.congr rfl rfl rfl rfl rfl⟩
    · exact (List.append_nil _).symm
    · exact (List.append_nil _).symm
    · rw [bytes_notice]
      rfl
  · rw [hs] at hledger ⊢
    obtain ⟨part, hpart, hrefused, fates, called, hworld⟩ := hfail.world hcalm h.ledger.sound
    obtain ⟨more, hmore⟩ := hanswered.sendFailure h.ledger.sound hfail
    have hshut : s'.world.wasShutdown = true := by rw [hworld]
    obtain ⟨out', hout', hsends⟩ : ∃ out', (out' = out ∨ out' = out ++ [.notice command inBuff]) ∧
        Sends { s'.world with
          locked := s'.world.locked - 1
          notices := s'.world.notices ++ [(command, inBuff)] } out' := by
      refine h.sends.failed hfits ⟨by simp [calls, hworld], by simp [hworld], by simp [hworld]⟩ ?_
        (by simp only [hworld]) hrefused hshut
      rwa [bytes_notice]
    refine ⟨out', ⟨prefix_of_eq_or hout', ?_⟩, hledger, hsends, ?_, ?_, n, _,
      hmore.congr rfl rfl rfl rfl rfl⟩
    · simp [Side.update, hworld]
    · simpa [Side.update, hworld] using h.handles.served
    · simpa [Side.update, hworld] using h.handles.notified

theorem expire (h : Party s out incoming) (i : ℕ) :
    Grown s (expire i s) out out ∧ Party (expire i s) out incoming := by
  obtain ⟨n, failed, hanswered⟩ := h.handles.answered
  have hanswered' := hanswered.expire i
  have hledger' := h.ledger.expire i
  rw [Levin.expire] at hanswered' hledger' ⊢
  cases hget : s.invokeResponseHandlers[i]? with
  | none => exact ⟨Grown.refl rfl, h⟩
  | some handler =>
      rw [hget] at hanswered' hledger'
      dsimp only at hanswered' hledger' ⊢
      split_ifs at hanswered' hledger' ⊢ with hpending
      · exact ⟨Grown.refl rfl, h.congr hledger' ⟨n, failed, hanswered'⟩ rfl rfl rfl rfl rfl id⟩
      · exact ⟨Grown.refl rfl, h⟩

variable (app) in
theorem timeout (h : Party s out incoming) (i : ℕ) :
    Grown s (timeout app i s) out out ∧ Party (timeout app i s) out incoming := by
  obtain ⟨n, failed, hanswered⟩ := h.handles.answered
  have hledger' : Ledger [] (Levin.timeout app i s) := h.ledger.timeout i
  rw [Levin.timeout] at hledger' ⊢
  cases hget : s.world.due[i]? with
  | none => exact ⟨Grown.refl rfl, h⟩
  | some cb =>
      rw [hget] at hledger'
      refine ⟨Grown.refl rfl, h.congr hledger'
        ⟨n, failed ++ [⟨cb, LEVIN_ERROR_CONNECTION_TIMEDOUT, []⟩], ?_⟩ rfl rfl rfl rfl rfl id⟩
      exact hanswered.tell ⟨.inr (.inl rfl), rfl⟩ rfl rfl rfl rfl rfl

theorem close (h : Party s out incoming) :
    Party { s with closeCalled := s.closeCalled + 1 } out incoming := by
  obtain ⟨n, failed, hanswered⟩ := h.handles.answered
  exact h.congr (h.ledger.congr rfl rfl rfl id rfl rfl rfl)
    ⟨n, failed, hanswered.congr rfl rfl rfl rfl rfl⟩ rfl rfl rfl rfl rfl id

variable (app) in
theorem release (h : Party s out incoming) :
    Grown s (release app s) out out ∧ Party (release app s) out incoming := by
  obtain ⟨n, failed, hanswered⟩ := h.handles.answered
  have hledger' : Ledger [] (Levin.release app s) := h.ledger.release
  obtain ⟨more, hmore⟩ : ∃ more, Answered (Levin.release app s) (responsesOf incoming) n
      (failed ++ more) := hanswered.release h.ledger.sound
  rw [Levin.release] at hledger' hmore ⊢
  split_ifs at hledger' hmore ⊢ with hrelease
  · obtain ⟨waitCount, heq⟩ := Ledger.releaseProtocol_eq app h.ledger.sound
    rw [heq] at hledger' hmore ⊢
    exact ⟨Grown.refl rfl, h.congr hledger' ⟨n, _, hmore⟩ rfl rfl rfl rfl rfl id⟩
  · exact ⟨Grown.refl rfl, h⟩

theorem isResponse_response (v : Served) : isResponse (Message.response v).head.protocolVersion
    (Message.response v).head = true := by
  have hflags : LEVIN_PACKET_RESPONSE &&& LEVIN_PACKET_RESPONSE ≠ 0 := by decide
  exact decide_eq_true ⟨rfl, hflags⟩

theorem isResponse_requestHead (command : UInt32) (inBuff : Bytes) (haveToReturnData : UInt8) :
    isResponse (requestHead command inBuff haveToReturnData).protocolVersion
      (requestHead command inBuff haveToReturnData) = false := by
  have hflags : LEVIN_PACKET_REQUEST &&& LEVIN_PACKET_RESPONSE = 0 := by decide
  exact decide_eq_false fun h => h.2 hflags

theorem handleResponse_world (head : BucketHead2) (buff : Bytes) :
    ∃ called, (handleResponse (endpoint app) head buff s).2.world =
      { s.world with called := called } := by
  cases hhandlers : s.invokeResponseHandlers with
  | nil =>
      rw [handleResponse_nil hhandlers, syncResponse]
      split_ifs
      · exact ⟨s.world.called, rfl⟩
      · exact ⟨s.world.called, rfl⟩
  | cons handler others =>
      rw [handleResponse_cons hhandlers]
      cases handler.cancelTimer.1
      · exact ⟨s.world.called, rfl⟩
      · exact ⟨_, rfl⟩

theorem handle_response (v : Served) (hfits : (Message.response v).Fits) :
    ((Message.response v).packet hfits).handle (endpoint app) s =
      handleResponse (endpoint app) (Message.response v).head v.returnBuff s := by
  rw [Packet.handle]
  simp only [Message.packet, handlePacket, isResponse_response, if_true]
  rfl

theorem handle_notice (command : UInt32) (inBuff : Bytes)
    (hfits : (Message.notice command inBuff).Fits) :
    ((Message.notice command inBuff).packet hfits).handle (endpoint app) s =
      (true, s.update fun w =>
        { w with ctx := app.notify command inBuff w.ctx,
                 notified := w.notified ++ [(command, inBuff)] }) := by
  have hresponse : isResponse (Message.notice command inBuff).head.protocolVersion
      (Message.notice command inBuff).head = false := isResponse_requestHead _ _ _
  have hreturn : (Message.notice command inBuff).head.haveToReturnData = 0 := rfl
  rw [Packet.handle]
  simp only [Message.packet, handlePacket, hresponse]
  rw [if_neg Bool.false_ne_true, handleRequest_notify hreturn]
  rfl

/-- A request is served, and the answer is the message that goes back. -/
theorem handle_request (command : UInt32) (inBuff : Bytes)
    (hfits : (Message.request command inBuff).Fits) :
    ∃ v : Served, v.command = command ∧ v.buff = inBuff ∧ (Message.response v).Fits ∧
      ∃ ctx, ((Message.request command inBuff).packet hfits).handle (endpoint app) s =
        doSend app (Message.response v).bytes
          { s with world := { s.world with ctx, served := s.world.served ++ [v] } } := by
  have hresponse : isResponse (Message.request command inBuff).head.protocolVersion
      (Message.request command inBuff).head = false := isResponse_requestHead _ _ _
  have hreturn : (Message.request command inBuff).head.haveToReturnData ≠ 0 := by
    show (1 : UInt8) ≠ 0
    decide
  refine ⟨⟨command, inBuff, (app.invoke command inBuff s.world.ctx).1.1,
    (app.invoke command inBuff s.world.ctx).1.2⟩, rfl, rfl, app.reply_lt _ _ _,
    (app.invoke command inBuff s.world.ctx).2, ?_⟩
  rw [Packet.handle]
  simp only [Message.packet, handlePacket, hresponse]
  rw [if_neg Bool.false_ne_true, handleRequest_invoke hreturn]
  rfl

theorem serveRequest (h : Party s out incoming) (hcalm : s.world.Calm) (v : Served) (ctx : ω)
    (hv : (Message.response v).Fits)
    (hledger : Ledger [] (doSend app (Message.response v).bytes
      { s with world := { s.world with ctx, served := s.world.served ++ [v] } }).2) :
    ∃ out', (out' = out ∨ out' = out ++ [.response v]) ∧
      Grown s (doSend app (Message.response v).bytes
        { s with world := { s.world with ctx, served := s.world.served ++ [v] } }).2 out out' ∧
      Party (doSend app (Message.response v).bytes
        { s with world := { s.world with ctx, served := s.world.served ++ [v] } }).2 out'
        (incoming ++ [.request v.command v.buff]) := by
  obtain ⟨n, failed, hanswered⟩ := h.handles.answered
  have hserved : (s.world.served ++ [v]).map (fun v => (v.command, v.buff)) =
      requestsOf (incoming ++ [.request v.command v.buff]) := by
    simp [h.handles.served]
  have hnotified : s.world.notified = noticesOf (incoming ++ [.request v.command v.buff]) := by
    simp [h.handles.notified]
  have hresponses : responsesOf (incoming ++ [.request v.command v.buff]) =
      responsesOf incoming := by simp
  have hsame : Answered { s with world := { s.world with ctx, served := s.world.served ++ [v] } }
      (responsesOf (incoming ++ [.request v.command v.buff])) n failed := by
    rw [hresponses]
    exact hanswered.congr rfl rfl rfl rfl rfl
  have hsent := @sent_doSend κ ω app (Message.response v).bytes
    { s with world := { s.world with ctx, served := s.world.served ++ [v] } }
  generalize doSend app (Message.response v).bytes
    { s with world := { s.world with ctx, served := s.world.served ++ [v] } } = result
    at hledger hsent ⊢
  rcases hsent with ⟨-, hopen, fates, -, hs⟩ | ⟨-, hfail⟩
  · rw [hs] at hledger ⊢
    refine ⟨out ++ [.response v], .inr rfl,
      ⟨List.prefix_append _ _, List.prefix_append _ _⟩, hledger,
      h.sends.sent hopen hv ⟨?_, ?_, ?_⟩ ?_, hserved, hnotified, n, failed,
      hsame.sending fates _⟩
    · exact (List.append_nil _).symm
    · exact (List.append_nil _).symm
    · rfl
    · rfl
  · obtain ⟨part, hpart, hrefused, fates, called, hworld⟩ := hfail.world hcalm h.ledger.sound
    obtain ⟨more, hmore⟩ := hsame.sendFailure h.ledger.sound hfail
    obtain ⟨out', hout', hsends⟩ : ∃ out', (out' = out ∨ out' = out ++ [.response v]) ∧
        Sends result.2.world out' := by
      exact h.sends.failed hv ⟨by simp [calls, hworld], by simp [hworld], by simp [hworld]⟩ hpart
        (by simp only [hworld]) hrefused (by rw [hworld])
    refine ⟨out', hout', ⟨prefix_of_eq_or hout', ?_⟩, hledger, hsends, ?_, ?_, n, _, hmore⟩
    · simp [hworld]
    · rw [hworld]
      exact hserved
    · rw [hworld]
      exact hnotified

/-- What an end makes of the next message that comes. -/
theorem handle (h : Party s out incoming) (hcalm : s.world.Calm) {m : Message} (hfits : m.Fits)
    (hcount : (responsesOf (incoming ++ [m])).length ≤ (requestsOf out).length) :
    ∃ out', Grown s ((m.packet hfits).handle (endpoint app) s).2 out out' ∧
      Party ((m.packet hfits).handle (endpoint app) s).2 out' (incoming ++ [m]) := by
  obtain ⟨n, failed, hanswered⟩ := h.handles.answered
  have hledger' : Ledger [] ((m.packet hfits).handle (endpoint app) s).2 :=
    h.ledger.handlePacket _ _ _
  cases m with
  | request command inBuff =>
      obtain ⟨v, rfl, rfl, hv, ctx, hhandle⟩ := @handle_request κ ω app s _ _ hfits
      rw [hhandle] at hledger' ⊢
      obtain ⟨out', -, hgrown, hparty⟩ := h.serveRequest hcalm v ctx hv hledger'
      exact ⟨out', hgrown, hparty⟩
  | notice command inBuff =>
      rw [handle_notice] at hledger' ⊢
      refine ⟨out, Grown.refl rfl, hledger', h.sends.congr rfl rfl rfl rfl id, ?_, ?_, n,
        failed, ?_⟩
      · simpa using h.handles.served
      · simp [h.handles.notified]
      · rw [responsesOf_append, responsesOf_notice, List.append_nil]
        exact hanswered.congr rfl rfl rfl rfl rfl
  | response v =>
      rw [handle_response] at hledger' ⊢
      have hlt : (responsesOf incoming).length < s.world.invoked.length := by
        have hle := h.sends.requests.length_le
        rw [calls, List.length_map] at hle
        simp at hcount
        omega
      obtain ⟨n', hn'⟩ : ∃ n', Answered (handleResponse (endpoint app)
          (Message.response v).head v.returnBuff s).2 (responsesOf incoming ++ [v]) n' failed :=
        hanswered.handleResponse h.ledger hlt rfl
      obtain ⟨called, hworld⟩ : ∃ called, (handleResponse (endpoint app)
          (Message.response v).head v.returnBuff s).2.world = { s.world with called := called } :=
        handleResponse_world _ _
      refine ⟨out, Grown.refl (by rw [hworld]), hledger', ?_, ?_, ?_, n', failed, ?_⟩
      · rw [hworld]
        exact h.sends.congr rfl rfl rfl rfl id
      · rw [hworld, requestsOf_append, requestsOf_response, List.append_nil]
        exact h.handles.served
      · rw [hworld, noticesOf_append, noticesOf_response, List.append_nil]
        exact h.handles.notified
      · simpa using hn'

end Party

/-! ### Receiving what the other end has sent -/

/-- The bytes of an end: whole messages, and at most a part of one more. -/
structure Streams (sent : List Message) (bytes : Bytes) : Prop where
  fits : ∀ m ∈ sent, m.Fits
  split : ∃ rest, Part rest ∧ bytes <+: stream sent ++ rest

theorem Part.not_prefix {rest : Bytes} (h : Part rest) (p : Packet) : ¬p.bytes <+: rest := by
  obtain ⟨m, hm, hpart, hne⟩ := h
  intro hprefix
  obtain ⟨more, hmore⟩ := hprefix.trans hpart
  have hsplit : (m.packet hm).bytes ++ [] = p.bytes ++ more := by
    rw [hmore, List.append_nil, Message.bytes_packet]
  have hsame : m.packet hm = p := (Packet.bytes_append_inj hsplit).1
  rw [← hsame, Message.bytes_packet] at hprefix
  exact hne (hpart.eq_of_length (le_antisymm hpart.length_le hprefix.length_le))

theorem next_message {sent incoming : List Message} {bytes rest : Bytes} {p : Packet}
    (hsent : Streams sent bytes) (horder : incoming <+: sent)
    (heq : bytes = stream incoming ++ (p.bytes ++ rest)) :
    ∃ m, ∃ h : Message.Fits m, incoming ++ [m] <+: sent ∧ m.packet h = p := by
  obtain ⟨tail, rfl⟩ := horder
  obtain ⟨part, hpart, hbytes⟩ := hsent.split
  rw [heq, stream_append, List.append_assoc, List.prefix_append_right_inj] at hbytes
  obtain ⟨more, hmore⟩ := hbytes
  cases tail with
  | nil =>
      refine absurd ?_ (hpart.not_prefix p)
      rw [show stream [] = [] from rfl, List.nil_append] at hmore
      rw [← hmore, List.append_assoc]
      exact List.prefix_append _ _
  | cons m tail =>
      have hm : m.Fits := hsent.fits m (by simp)
      have hsplit : (m.packet hm).bytes ++ (stream tail ++ part) = p.bytes ++ (rest ++ more) := by
        rw [← List.append_assoc p.bytes, hmore, Message.bytes_packet]
        simp [stream]
      refine ⟨m, hm, ⟨tail, by simp⟩, (Packet.bytes_append_inj hsplit).1⟩

/-- What is known of an end that still reads: the bytes it took are the messages it got and what
it keeps. -/
structure Reading (conf : Config) (e : End κ ω) (bytes : Bytes) (incoming : List Message) :
    Prop where
  bytes_eq : bytes = stream incoming ++ e.conn.pending
  wellFormed : e.conn.receiver.WellFormed conf

namespace Party

variable {app : Application ω} {conf : Config} {e : End κ ω} {bytes : Bytes}
  {sent out incoming : List Message}

theorem handleNext (h : Party e.conn.side out incoming) (hcalm : e.conn.side.world.Calm)
    (horder : incoming <+: sent) (hreading : Reading conf e bytes incoming)
    (hsent : Streams sent bytes) (hcount : (responsesOf sent).length ≤ (requestsOf out).length)
    {p : Packet} {rest : Bytes} {ok : Bool} {side : Side κ (World κ ω)}
    (hpending : e.conn.pending = p.bytes ++ rest)
    (hhandle : p.handle (endpoint app) e.conn.side = (ok, side)) :
    ∃ out' incoming', Party side out' incoming' ∧ incoming' <+: sent ∧
      Grown e.conn.side side out out' ∧ bytes = stream incoming' ++ rest := by
  have heq := hreading.bytes_eq
  rw [hpending] at heq
  obtain ⟨m, hm, horder', rfl⟩ := next_message hsent horder heq
  have hcount' : (responsesOf (incoming ++ [m])).length ≤ (requestsOf out).length :=
    (horder'.filterMap _).length_le.trans hcount
  obtain ⟨out', hgrown, hparty⟩ : ∃ out', Grown e.conn.side
      ((m.packet hm).handle (endpoint app) e.conn.side).2 out out' ∧
        Party ((m.packet hm).handle (endpoint app) e.conn.side).2 out' (incoming ++ [m]) :=
    h.handle hcalm hm hcount'
  rw [hhandle] at hparty hgrown
  refine ⟨out', incoming ++ [m], hparty, horder', hgrown, ?_⟩
  rw [heq, stream_concat, List.append_assoc, Message.bytes_packet]

variable (app) in
theorem turn (h : Party e.conn.side out incoming) (hcalm : e.conn.side.world.Calm)
    (horder : incoming <+: sent) (hreading : e.reading = true → Reading conf e bytes incoming)
    (hbusy : e.busy = true → e.reading = true) (hsent : Streams sent bytes)
    (hcount : (responsesOf sent).length ≤ (requestsOf out).length) :
    ∃ out' incoming', Party (e.turn app conf).conn.side out' incoming' ∧ incoming' <+: sent ∧
      Grown e.conn.side (e.turn app conf).conn.side out out' ∧
      ((e.turn app conf).reading = true → Reading conf (e.turn app conf) bytes incoming') ∧
      ((e.turn app conf).busy = true → (e.turn app conf).reading = true) := by
  by_cases hrun : e.busy = true
  swap
  · rw [End.turn_idle (Bool.eq_false_iff.mpr hrun)]
    exact ⟨out, incoming, h, horder, Grown.refl rfl, hreading, hbusy⟩
  have hread := hreading (hbusy hrun)
  cases hmove : e.conn.receiver.move (endpoint app) conf e.conn.cacheInBuffer with
  | wait =>
      rw [End.turn_wait hrun hmove]
      refine ⟨out, incoming, h, horder, Grown.refl rfl, fun hr => ?_, fun hbad => ?_⟩
      · exact ⟨(hreading hr).bytes_eq, (hreading hr).wellFormed⟩
      · cases hbad
  | go r rest =>
      rw [End.turn_go hrun hmove]
      obtain ⟨hwell, hcase⟩ := hread.wellFormed.go_cases hmove
      rcases hcase with ⟨hside, hpending⟩ | ⟨p, -, hpending, hrest, hhandle⟩
      · have hsame : r.side = e.conn.side := hside
        have hparty : Party r.side out incoming := by rwa [hsame]
        refine ⟨out, incoming, hparty, horder, Grown.refl (congrArg (·.world.sent) hsame),
          fun _ => ⟨?_, hwell⟩, hbusy⟩
        rw [hread.bytes_eq]
        exact congrArg _ hpending.symm
      · obtain ⟨out', incoming', hparty, horder', hgrown, heq⟩ :=
          h.handleNext hcalm horder hread hsent hcount hpending hhandle
        refine ⟨out', incoming', hparty, horder', hgrown, fun _ => ⟨?_, hwell⟩, hbusy⟩
        rw [heq]
        exact congrArg _ hrest.symm
  | stop r =>
      rw [End.turn_stop hrun hmove]
      have hstopped : ∃ out' incoming', Party r.side out' incoming' ∧ incoming' <+: sent ∧
          Grown e.conn.side r.side out out' := by
        rcases hread.wellFormed.stop_cases hmove with ⟨-, hside⟩ | ⟨p, ⟨rest, hrest⟩, -, hhandle⟩
        · have hsame : r.side = e.conn.side := hside
          exact ⟨out, incoming, by rwa [hsame], horder, Grown.refl (by rw [hsame])⟩
        · obtain ⟨out', incoming', hparty, horder', hgrown, -⟩ :=
            h.handleNext hcalm horder hread hsent hcount hrest.symm hhandle
          exact ⟨out', incoming', hparty, horder', hgrown⟩
      obtain ⟨out', incoming', hparty, horder', hgrown⟩ := hstopped
      exact ⟨out', incoming', hparty, horder', hgrown, fun hbad => absurd hbad Bool.false_ne_true,
        fun hbad => absurd hbad Bool.false_ne_true⟩

end Party

/-- A piece that the socket hands over is kept, or the connection reads no more. -/
theorem Reading.recv {conf : Config} {e : End κ ω} {bytes : Bytes} {incoming : List Message}
    (h : Reading conf e bytes incoming) (hreading : e.reading = true) (hbusy : e.busy = false)
    (chunk : Bytes) :
    (e.recv conf chunk).conn.side = e.conn.side ∧
      ((e.recv conf chunk).reading = true →
        Reading conf (e.recv conf chunk) (bytes ++ chunk) incoming) ∧
      ((e.recv conf chunk).busy = true → (e.recv conf chunk).reading = true) := by
  by_cases hrefused : Refused conf chunk e.conn
  · rw [End.recv_refused hreading hbusy hrefused]
    refine ⟨rfl, fun hbad => ?_, fun hbad => ?_⟩
    · cases hbad
    · exact absurd (hbusy.symm.trans hbad) Bool.false_ne_true
  · rw [End.recv_taken hreading hbusy hrefused]
    refine ⟨rfl, fun _ => ⟨?_, h.wellFormed⟩, fun _ => hreading⟩
    have hpending : (e.conn.receiver.attach (e.conn.cacheInBuffer ++ chunk)).pending =
        e.conn.pending ++ chunk := Receiver.pending_append _ _ _
    rw [hpending, ← List.append_assoc, ← h.bytes_eq]

/-! ### Both ends -/

/-- What holds in every state: `out p` is what the end `p` has sent, `incoming p` what it got. -/
structure Connected (conf : Bool → Config) (l : Link κ ω) (out incoming : Bool → List Message) :
    Prop where
  party : ∀ p, Party (l.ends p).conn.side (out p) (incoming p)
  order : ∀ p, incoming p <+: out !p
  taken_le : ∀ p, l.taken p ≤ (l.world !p).sent.length
  reading : ∀ p, (l.ends p).reading = true →
    Reading (conf p) (l.ends p) ((l.world !p).sent.take (l.taken p)) (incoming p)
  busy : ∀ p, (l.ends p).busy = true → (l.ends p).reading = true

namespace Connected

variable {app : Bool → Application ω} {conf : Bool → Config} {l : Link κ ω}
  {out incoming : Bool → List Message}

/-- An end has not answered more requests than the other has sent. -/
theorem responses_le (h : Connected conf l out incoming) (p : Bool) :
    (responsesOf (out !p)).length ≤ (requestsOf (out p)).length := by
  have hserved := congrArg List.length (h.party !p).handles.served
  have horder := h.order !p
  rw [Bool.not_not] at horder
  rw [List.length_map] at hserved
  calc (responsesOf (out !p)).length ≤ (l.world !p).served.length :=
        (h.party !p).sends.responses.length_le
    _ = (requestsOf (incoming !p)).length := hserved
    _ ≤ (requestsOf (out p)).length := (horder.filterMap _).length_le

/-- What an end has taken of the wire is a piece of what the other has sent. -/
theorem streams (h : Connected conf l out incoming) (p : Bool) :
    Streams (out !p) ((l.world !p).sent.take (l.taken p)) := by
  obtain ⟨rest, hrest, hpart, -⟩ := (h.party !p).sends.bytes
  refine ⟨(h.party !p).sends.fits, rest, hpart, ?_⟩
  rw [← hrest]
  exact List.take_prefix _ _

/-- The step of one end, with what it has sent and got after it. -/
theorem update (h : Connected conf l out incoming) (p : Bool) {l' : Link κ ω}
    {sent got : List Message} (hends : l'.ends (!p) = l.ends (!p))
    (htaken : l'.taken (!p) = l.taken (!p)) (hparty : Party (l'.ends p).conn.side sent got)
    (hgrown : Grown (l.ends p).conn.side (l'.ends p).conn.side (out p) sent)
    (horder : got <+: out !p) (hle : l'.taken p ≤ (l.world !p).sent.length)
    (hreading : (l'.ends p).reading = true →
      Reading (conf p) (l'.ends p) ((l.world !p).sent.take (l'.taken p)) got)
    (hbusy : (l'.ends p).busy = true → (l'.ends p).reading = true) :
    Connected conf l' (Function.update out p sent) (Function.update incoming p got) := by
  have hother : (!p) ≠ p := Bool.not_ne_self p
  have hworld : l'.world (!p) = l.world (!p) := by rw [Link.world, Link.world, hends]
  have hcases : ∀ q, q = p ∨ q = !p := by
    intro q
    cases p <;> cases q <;> simp
  have hsent : (l.world p).sent <+: (l'.world p).sent := hgrown.sent
  have hleOther := h.taken_le !p
  rw [Bool.not_not] at hleOther
  constructor
  · intro q
    rcases hcases q with rfl | rfl
    · rwa [Function.update_self, Function.update_self]
    · rw [hends, Function.update_of_ne hother, Function.update_of_ne hother]
      exact h.party !p
  · intro q
    rcases hcases q with rfl | rfl
    · rwa [Function.update_self, Function.update_of_ne hother]
    · rw [Function.update_of_ne hother, Bool.not_not, Function.update_self]
      have horder' := h.order !p
      rw [Bool.not_not] at horder'
      exact horder'.trans hgrown.out
  · intro q
    rcases hcases q with rfl | rfl
    · rwa [hworld]
    · rw [htaken, Bool.not_not]
      exact hleOther.trans hsent.length_le
  · intro q
    rcases hcases q with rfl | rfl
    · rwa [hworld, Function.update_self]
    · rw [hends, htaken, Function.update_of_ne hother, Bool.not_not]
      intro hread
      have hbefore := h.reading (!p) hread
      rw [Bool.not_not] at hbefore
      obtain ⟨more, hmore⟩ := hsent
      rwa [← hmore, List.take_append_of_le_length hleOther]
  · intro q
    rcases hcases q with rfl | rfl
    · exact hbusy
    · rw [hends]
      exact h.busy !p

/-- What a thread of one end does, when it reads nothing. -/
theorem act (h : Connected conf l out incoming) (p : Bool) {a : Action κ} {sent : List Message}
    (f : Side κ (World κ ω) → Side κ (World κ ω))
    (hact : (l.ends p).act (app p) (conf p) a = (l.ends p).update f)
    (hparty : Party (f (l.ends p).conn.side) sent (incoming p))
    (hgrown : Grown (l.ends p).conn.side (f (l.ends p).conn.side) (out p) sent) :
    Connected conf (l.move app conf p (.act a)) (Function.update out p sent)
      (Function.update incoming p (incoming p)) := by
  have hself : (l.move app conf p (.act a)).ends p = (l.ends p).update f := by
    simp [Link.move, endStep, hact]
  have hother : (l.move app conf p (.act a)).ends (!p) = l.ends (!p) := by simp [Link.move]
  refine h.update p hother rfl (hself ▸ hparty) (hself ▸ hgrown) (h.order p) (h.taken_le p) ?_ ?_
  · rw [hself]
    intro hread
    exact ⟨(h.reading p hread).bytes_eq, (h.reading p hread).wellFormed⟩
  · rw [hself]
    exact h.busy p

theorem turn (h : Connected conf l out incoming) (p : Bool) (fates : List Fate)
    (hcalm : ∀ queued, .thrown queued ∉ fates) :
    ∃ out' incoming', Connected conf (l.move app conf p (.act (.turn fates))) out' incoming' := by
  obtain ⟨sent, got, hparty, horder, hgrown, hreading, hbusy⟩ :
      ∃ sent got, Party (((l.ends p).update (meet fates)).turn (app p) (conf p)).conn.side sent
          got ∧ got <+: (out !p) ∧
        Grown ((l.ends p).update (meet fates)).conn.side
          (((l.ends p).update (meet fates)).turn (app p) (conf p)).conn.side (out p) sent ∧
        ((((l.ends p).update (meet fates)).turn (app p) (conf p)).reading = true →
          Reading (conf p) (((l.ends p).update (meet fates)).turn (app p) (conf p))
            ((l.world !p).sent.take (l.taken p)) got) ∧
        ((((l.ends p).update (meet fates)).turn (app p) (conf p)).busy = true →
          (((l.ends p).update (meet fates)).turn (app p) (conf p)).reading = true) := by
    have hmet : Party ((l.ends p).update (meet fates)).conn.side (out p) (incoming p) :=
      (h.party p).meet fates
    refine hmet.turn (app p) hcalm (h.order p) (fun hread => ?_) (h.busy p) (h.streams p)
      (h.responses_le p)
    exact ⟨(h.reading p hread).bytes_eq, (h.reading p hread).wellFormed⟩
  have hself : (l.move app conf p (.act (.turn fates))).ends p =
      ((l.ends p).update (meet fates)).turn (app p) (conf p) := by
    simp [Link.move, endStep, End.act]
  have hother : (l.move app conf p (.act (.turn fates))).ends (!p) = l.ends (!p) := by
    simp [Link.move]
  refine ⟨_, _, h.update p hother rfl (hself ▸ hparty) ?_ horder (h.taken_le p) ?_ ?_⟩
  · rw [hself]
    exact ⟨hgrown.out, hgrown.sent⟩
  · rw [hself]
    exact hreading
  · rw [hself]
    exact hbusy

theorem deliver (h : Connected conf l out incoming) (p : Bool) (n : ℕ) :
    ∃ out' incoming', Connected conf (linkStep app conf l (.deliver p n)) out' incoming' := by
  rw [linkStep]
  split_ifs with hidle
  swap
  · exact ⟨out, incoming, h⟩
  have hread := h.reading p hidle.1
  obtain ⟨hside, hreading, hbusy⟩ := hread.recv hidle.1 hidle.2 ((l.wire p).take n)
  have htaken : (l.world !p).sent.take (l.taken p) ++ (l.wire p).take n =
      (l.world !p).sent.take (l.taken p + ((l.wire p).take n).length) := by
    rw [List.take_add]
    exact congrArg _ (List.prefix_iff_eq_take.mp (List.take_prefix n (l.wire p)))
  rw [htaken] at hreading
  have hself : (l.move app conf p (.recv ((l.wire p).take n))).ends p =
      (l.ends p).recv (conf p) ((l.wire p).take n) := by
    simp [Link.move, endStep]
  have hstep : Connected conf { l.move app conf p (.recv ((l.wire p).take n)) with
      taken := Function.update l.taken p (l.taken p + ((l.wire p).take n).length) }
      (Function.update out p (out p)) (Function.update incoming p (incoming p)) := by
    refine h.update p ?_ ?_ ?_ ?_ (h.order p) ?_ ?_ ?_
    · simp [Link.move]
    · simp
    · rw [hself, hside]
      exact h.party p
    · rw [hself, hside]
      exact Grown.refl rfl
    · have hwire : ((l.wire p).take n).length ≤ (l.wire p).length := by
        rw [List.length_take]
        exact Nat.min_le_right _ _
      have hdrop : (l.wire p).length = (l.world !p).sent.length - l.taken p := List.length_drop
      have hle := h.taken_le p
      simp only [Function.update_self]
      omega
    · simp only [Function.update_self]
      rw [hself]
      exact hreading
    · rw [hself]
      exact hbusy
  exact ⟨_, _, hstep⟩

theorem step (h : Connected conf l out incoming) (op : LinkStep κ) (hcalm : op.Calm) :
    ∃ out' incoming', Connected conf (linkStep app conf l op) out' incoming' := by
  cases op with
  | deliver p n => exact h.deliver p n
  | act p a =>
      have hparty := h.party p
      cases a with
      | lock fates =>
          obtain ⟨hgrown, hlocked⟩ := (hparty.meet fates).lock (app p)
          exact ⟨_, _, h.act p (fun s => lock (app p) (meet fates s)) rfl hlocked
            ⟨hgrown.out, hgrown.sent⟩⟩
      | invokeAsync command inBuff cb fates =>
          by_cases hsize : Sendable inBuff
          · obtain ⟨sent, hgrown, hsent⟩ : ∃ sent, Grown (meet fates (l.ends p).conn.side)
                (invokeAsync (app p) command inBuff cb (meet fates (l.ends p).conn.side)) (out p)
                sent ∧ Party (invokeAsync (app p) command inBuff cb
                  (meet fates (l.ends p).conn.side)) sent (incoming p) :=
              (hparty.meet fates).invokeAsync hcalm hsize cb
            exact ⟨_, _, h.act p (fun s => invokeAsync (app p) command inBuff cb (meet fates s))
              (if_pos hsize) hsent ⟨hgrown.out, hgrown.sent⟩⟩
          · exact ⟨_, _, h.act p id (if_neg hsize) hparty (Grown.refl rfl)⟩
      | notify command inBuff fates =>
          by_cases hsize : Sendable inBuff
          · obtain ⟨sent, hgrown, hsent⟩ : ∃ sent, Grown (meet fates (l.ends p).conn.side)
                (notifyPeer (app p) command inBuff (meet fates (l.ends p).conn.side)) (out p)
                sent ∧ Party (notifyPeer (app p) command inBuff
                  (meet fates (l.ends p).conn.side)) sent (incoming p) :=
              (hparty.meet fates).notifyPeer hcalm hsize
            exact ⟨_, _, h.act p (fun s => notifyPeer (app p) command inBuff (meet fates s))
              (if_pos hsize) hsent ⟨hgrown.out, hgrown.sent⟩⟩
          · exact ⟨_, _, h.act p id (if_neg hsize) hparty (Grown.refl rfl)⟩
      | turn fates => exact h.turn p fates hcalm
      | expire i =>
          obtain ⟨hgrown, hexpired⟩ := hparty.expire i
          exact ⟨_, _, h.act p (expire i) rfl hexpired hgrown⟩
      | timeout i =>
          obtain ⟨hgrown, htold⟩ := hparty.timeout (app p) i
          exact ⟨_, _, h.act p (timeout (app p) i) rfl htold hgrown⟩
      | close =>
          exact ⟨_, _, h.act p
          (fun s => { s with closeCalled := s.closeCalled + 1 }) rfl hparty.close (Grown.refl rfl)⟩
      | shutdown => exact ⟨_, _, h.act p Side.flagged rfl hparty.flagged (Grown.refl rfl)⟩
      | release =>
          obtain ⟨hgrown, hreleased⟩ := hparty.release (app p)
          exact ⟨_, _, h.act p (release (app p)) rfl hreleased hgrown⟩

theorem initial (head : Bool → BucketHead2) (ctx : Bool → ω) :
    Connected conf (Link.initial head ctx : Link κ ω) (fun _ => []) (fun _ => []) where
  party p := by
    refine ⟨Ledger.initial _, ⟨⟨[], rfl, part_nil, fun _ => rfl⟩, by simp, List.nil_prefix,
      List.nil_prefix, List.nil_prefix, fun _ => ⟨rfl, rfl, rfl⟩⟩, rfl, rfl, 0, [], ?_⟩
    exact ⟨Nat.zero_le _, Nat.zero_le _, List.Perm.refl _, by simp,
      .inr ⟨List.nil_prefix, fun _ => rfl, .inl rfl⟩⟩
  order p := List.prefix_rfl
  taken_le p := Nat.zero_le _
  reading p _ := by
    refine ⟨rfl, fun hbad => ?_⟩
    cases hbad
  busy p hbad := by cases hbad

end Connected

def worldAfter (head : Bool → BucketHead2) (ctx : Bool → ω) (steps : List (LinkStep κ))
    (p : Bool) : World κ ω :=
  (run (linkStep app conf) (Link.initial head ctx) steps).world p

variable {app conf}

theorem answers_take {requests : List (Request κ)} {responses served : List Served} {n : ℕ}
    (h : responses <+: served) (hn : n ≤ responses.length) :
    answers (requests.take n) (responses.take n) <+: answers requests served := by
  obtain ⟨more, rfl⟩ := h
  have htake : responses.take n = (responses ++ more).take n :=
    (List.take_append_of_le_length hn).symm
  rw [htake, answers, ← List.take_zipWith]
  exact List.take_prefix _ _

/-- In every run of two ends in which no exception cuts off a send, however their steps are
interleaved, the streams cut and the sends broken off by a shutdown: an end has served the first of
the requests that the other made, and got its first notifications, each once and in their order; and
the callbacks that were called got the answer of the other end to their own request, in the order of
the requests, or were told of a failure. -/
theorem run_exchange (head : Bool → BucketHead2) (ctx : Bool → ω) (steps : List (LinkStep κ))
    (hcalm : ∀ op ∈ steps, op.Calm) (p : Bool) :
    ((worldAfter app conf head ctx steps p).served.map fun v => (v.command, v.buff)) <+:
        ((worldAfter app conf head ctx steps !p).invoked.map fun r => (r.command, r.inBuff)) ∧
      (worldAfter app conf head ctx steps p).notified <+:
        (worldAfter app conf head ctx steps !p).notices ∧
      ∃ answered failed,
        (worldAfter app conf head ctx steps p).called.Perm (answered ++ failed) ∧
        answered <+: answers (worldAfter app conf head ctx steps p).invoked
          (worldAfter app conf head ctx steps !p).served ∧
        ∀ c ∈ failed, c.Failed := by
  obtain ⟨out, incoming, h⟩ : ∃ out incoming, Connected conf
      (run (linkStep app conf) (Link.initial head ctx) steps) out incoming := by
    refine List.foldlRecOn steps (linkStep app conf) (motive := fun l => ∃ out incoming,
      Connected conf l out incoming) ⟨_, _, Connected.initial head ctx⟩ ?_
    rintro l ⟨_, _, hl⟩ op hop
    exact hl.step op (hcalm op hop)
  obtain ⟨n, failed, hanswered⟩ := (h.party p).handles.answered
  refine ⟨?_, ?_, _, failed, hanswered.called, ?_, hanswered.failed⟩
  · have hserved := (h.party p).handles.served
    exact hserved ▸ ((h.order p).filterMap _).trans (h.party !p).sends.requests
  · have hnotified := (h.party p).handles.notified
    exact hnotified ▸ ((h.order p).filterMap _).trans (h.party !p).sends.notices
  · have hresponses : responsesOf (incoming p) <+: responsesOf (out !p) := (h.order p).filterMap _
    exact answers_take (hresponses.trans (h.party !p).sends.responses) hanswered.le_responses

/-! ### A small run -/

/-- A node that counts its requests, and answers with the count and the first byte. -/
def counting : Application ℕ where
  invoke _ buff n := ((7, [UInt8.ofNat n, buff.headD 0]), n + 1)
  notify _ _ n := n
  reply_lt _ _ _ := by norm_num

def turns (p : Bool) (n : ℕ) : List (LinkStep Char) := List.replicate n (.act p (.turn []))

/-- A request that is answered, a notification, and a request of which only the head is sent. -/
def smallRun : List (LinkStep Char) :=
  List.flatten [
    [.act false (.lock []), .act false (.invokeAsync 1001 [5, 6] 'a' []), .act false (.lock []),
      .act false (.notify 2001 [9] [.room, .room]), .deliver true 40],
    turns true 3, [.deliver true 100], turns true 5, [.deliver false 100], turns false 3,
    [.act false (.lock []), .act false (.invokeAsync 1002 [8] 'b' [.room, .shutdown]),
      .act false .release]]

def smallWorld (p : Bool) : World Char ℕ :=
  worldAfter (fun _ => counting) (fun _ => smallPackets) (fun _ => .ofBytes []) (fun _ => 3)
    smallRun p

theorem run_exchange_smallRun :
    (smallWorld true).served.map (fun v => (v.command, v.buff)) = [(1001, [5, 6])] ∧
      (smallWorld false).called = [⟨'a', 7, [3, 5]⟩, ⟨'b', LEVIN_ERROR_CONNECTION, []⟩] ∧
      (smallWorld true).notified <+: (smallWorld false).notices := by
  have hcalm : ∀ op ∈ smallRun, op.Calm := by
    simp [smallRun, turns, LinkStep.Calm, Action.Calm]
  obtain ⟨-, hnotified, -⟩ := @run_exchange Char ℕ (fun _ => counting) (fun _ => smallPackets)
    (fun _ => .ofBytes []) (fun _ => 3) smallRun hcalm true
  have hrun : (smallWorld true).served.map (fun v => (v.command, v.buff)) = [(1001, [5, 6])] ∧
      (smallWorld false).called = [⟨'a', 7, [3, 5]⟩, ⟨'b', LEVIN_ERROR_CONNECTION, []⟩] := by
    decide +kernel
  exact ⟨hrun.1, hrun.2, hnotified⟩

end XrCoin.Levin
