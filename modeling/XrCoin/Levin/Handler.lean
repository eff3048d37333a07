import XrCoin.Levin.Bucket

/-!
`async_protocol_handler`: one end of a levin connection.

What `handle_recv` reads of the wire is kept apart from the rest of the handler, its `Side`,
which also the threads that send touch. The commands handler, the callbacks of `async_invoke`
and the socket are functions on the side. The length of a timeout is not modelled, so a timer
is pending until it is cancelled or expires.
-/

namespace XrCoin.Levin

def MIN_BYTES_WANTED : ℕ := 512

def LEVIN_ERROR_CONNECTION : Int32 := -1

def LEVIN_ERROR_CONNECTION_DESTROYED : Int32 := -3

def LEVIN_ERROR_CONNECTION_TIMEDOUT : Int32 := -4

inductive StreamState
  | head
  | body
  deriving DecidableEq, Repr

structure AnvokeHandler (κ : Type) where
  cb : κ
  command : UInt32
  timerPending : Bool
  timerStarted : Bool
  cancelTimerCalled : Bool
  timerCancelled : Bool
  deriving DecidableEq, Repr

structure Side (κ χ : Type) where
  deletionInitiated : Bool
  protocolReleased : Bool
  invokeBufReady : Bool
  invokeResultCode : Int32
  localInvBuff : Bytes
  waitCount : UInt32
  closeCalled : ℕ
  invokeResponseHandlers : List (AnvokeHandler κ)
  world : χ

structure Connection (κ χ : Type) where
  currentHead : BucketHead2
  cacheInBuffer : Bytes
  state : StreamState
  oponentProtocolVer : UInt32
  side : Side κ χ

structure Config where
  hasCommandsHandler : Bool
  maxPacketSize : UInt64

structure Environment (κ χ : Type) where
  invoke : UInt32 → Bytes → Side κ χ → (Int32 × Bytes) × Side κ χ
  notify : UInt32 → Bytes → Side κ χ → Side κ χ
  callback : κ → Int32 → Bytes → Side κ χ → Side κ χ
  doSend : Bytes → Side κ χ → Bool × Side κ χ
  addRef : Side κ χ → Bool × Side κ χ
  release : Side κ χ → Side κ χ
  closeEndpoint : Side κ χ → Side κ χ

variable {κ χ : Type} (env : Environment κ χ) (conf : Config)

/-! ### Timers and outer calls -/

def startOuterCall (s : Side κ χ) : Bool × Side κ χ :=
  let (added, s) := env.addRef s
  if added then (true, { s with waitCount := s.waitCount + 1 }) else (false, s)

def finishOuterCall (s : Side κ χ) : Side κ χ :=
  env.release { s with waitCount := s.waitCount - 1 }

namespace AnvokeHandler

def cancelTimer (h : AnvokeHandler κ) : Bool × AnvokeHandler κ :=
  if h.cancelTimerCalled then (h.timerCancelled, h)
  else
    (h.timerPending,
      { h with cancelTimerCalled := true, timerCancelled := h.timerPending, timerPending := false })

def resetTimer (h : AnvokeHandler κ) : AnvokeHandler κ :=
  if !h.cancelTimerCalled && h.timerPending then { h with timerPending := true } else h

def handle (h : AnvokeHandler κ) (res : Int32) (buff : Bytes) (s : Side κ χ) : Bool × Side κ χ :=
  if h.cancelTimer.1 then (true, finishOuterCall env (env.callback h.cb res buff s)) else (false, s)

def cancel (h : AnvokeHandler κ) (s : Side κ χ) : Side κ χ :=
  if h.cancelTimer.1 then
    finishOuterCall env (env.callback h.cb LEVIN_ERROR_CONNECTION_DESTROYED [] s)
  else s

end AnvokeHandler

/-- The constructor of the handler starts the timer if the connection can be kept. -/
def addInvokeResponseHandler (cb : κ) (command : UInt32) (s : Side κ χ) : Bool × Side κ χ :=
  let (started, s) := startOuterCall env s
  let handler : AnvokeHandler κ :=
    { cb, command, timerPending := started, timerStarted := started, cancelTimerCalled := false,
      timerCancelled := false }
  (started, { s with invokeResponseHandlers := s.invokeResponseHandlers ++ [handler] })

def timedOut (cb : κ) (s : Side κ χ) : Side κ χ :=
  let s := env.callback cb LEVIN_ERROR_CONNECTION_TIMEDOUT [] s
  finishOuterCall env (env.closeEndpoint { s with closeCalled := s.closeCalled + 1 })

def releaseProtocol (s : Side κ χ) : Side κ χ :=
  s.invokeResponseHandlers.foldl (fun s h => h.cancel env s)
    { s with invokeResponseHandlers := [], protocolReleased := true }

/-! ### Receiving -/

/-- A response that no `async_invoke` waits for goes to a blocking `invoke`. -/
def syncResponse (head : BucketHead2) (buff : Bytes) (s : Side κ χ) : Bool × Side κ χ :=
  if s.waitCount = 0 ∧ s.closeCalled = 0 then (false, s)
  else (true, { s with localInvBuff := buff, invokeResultCode := head.returnCode,
                       invokeBufReady := true })

def handleResponse (head : BucketHead2) (buff : Bytes) (s : Side κ χ) : Bool × Side κ χ :=
  match s.invokeResponseHandlers with
  | [] => syncResponse head buff s
  | responseHandler :: others =>
      let (timerCancelled, responseHandler) := responseHandler.cancelTimer
      if timerCancelled then
        -- the handler is taken out before its callback runs
        (true, (responseHandler.handle env head.returnCode buff
          { s with invokeResponseHandlers := others }).2)
      else (true, { s with invokeResponseHandlers := responseHandler :: others })

def responseHead (head : BucketHead2) (returnCode : Int32) (size : ℕ) : BucketHead2 :=
  { head with returnCode, cb := UInt64.ofNat size, haveToReturnData := 0,
              protocolVersion := LEVIN_PROTOCOL_VER_1, flags := LEVIN_PACKET_RESPONSE }

def handleRequest (head : BucketHead2) (buff : Bytes) (s : Side κ χ) :
    Bool × BucketHead2 × Side κ χ :=
  if head.haveToReturnData ≠ 0 then
    let ((returnCode, returnBuff), s) := env.invoke head.command buff s
    let head := responseHead head returnCode returnBuff.length
    let (sent, s) := env.doSend (head.toBytes ++ returnBuff) s
    (sent, head, s)
  else (true, head, env.notify head.command buff s)

def isResponse (oponentProtocolVer : UInt32) (head : BucketHead2) : Bool :=
  oponentProtocolVer = LEVIN_PROTOCOL_VER_1 ∧ head.flags &&& LEVIN_PACKET_RESPONSE ≠ 0

def handlePacket (oponentProtocolVer : UInt32) (head : BucketHead2) (buff : Bytes)
    (s : Side κ χ) : Bool × BucketHead2 × Side κ χ :=
  if isResponse oponentProtocolVer head then
    let (ok, s) := handleResponse env head buff s
    (ok, head, s)
  else handleRequest env head buff s

/-- Where a body is not complete, the first handler gets more time for a large piece of it. -/
def partialReceived (cb : ℕ) (s : Side κ χ) : Side κ χ :=
  if MIN_BYTES_WANTED ≤ cb then
    match s.invokeResponseHandlers with
    | [] => s
    | h :: others => { s with invokeResponseHandlers := h.resetTimer :: others }
  else s

/-- The signature of a head of which only the first bytes are there. -/
def signatureMismatch (buffer : Bytes) : Bool :=
  8 ≤ buffer.length ∧ UInt64.ofNat (BucketHead2.field buffer 0 8) ≠ LEVIN_SIGNATURE

/-- The loop of `handle_recv`, with a bound on its rounds. -/
def recvLoop (cb : ℕ) : ℕ → Connection κ χ → Bool × Connection κ χ
  | 0, c => (true, c)
  | n + 1, c =>
      match c.state with
      | .body =>
          if c.cacheInBuffer.length < c.currentHead.cb.toNat then
            (true, { c with side := partialReceived cb c.side })
          else
            let buffToInvoke := c.cacheInBuffer.take c.currentHead.cb.toNat
            let cacheInBuffer := c.cacheInBuffer.drop c.currentHead.cb.toNat
            let (ok, currentHead, side) :=
              handlePacket env c.oponentProtocolVer c.currentHead buffToInvoke c.side
            if ok then
              recvLoop cb n { c with currentHead, cacheInBuffer, side, state := .head }
            else (false, { c with currentHead, cacheInBuffer, side })
      | .head =>
          if c.cacheInBuffer.length < BucketHead2.size then
            (!signatureMismatch c.cacheInBuffer, c)
          else
            let phead := BucketHead2.ofBytes c.cacheInBuffer
            if phead.signature ≠ LEVIN_SIGNATURE then (false, c)
            else
              let c := { c with currentHead := phead, state := .body,
                                cacheInBuffer := c.cacheInBuffer.drop BucketHead2.size,
                                oponentProtocolVer := phead.protocolVersion }
              if phead.cb > conf.maxPacketSize then (false, c) else recvLoop cb n c

/-- `handle_recv`. A head and its body take two rounds, so the rounds are bounded by the bytes. -/
def handleRecv (chunk : Bytes) (c : Connection κ χ) : Bool × Connection κ χ :=
  if c.side.closeCalled ≠ 0 then (false, c)
  else if !conf.hasCommandsHandler then (false, c)
  else if c.cacheInBuffer.length + chunk.length > conf.maxPacketSize.toNat then (false, c)
  else
    let cacheInBuffer := c.cacheInBuffer ++ chunk
    recvLoop env conf chunk.length (2 * cacheInBuffer.length + 2) { c with cacheInBuffer }

/-! ### Sending -/

def requestHead (command : UInt32) (inBuff : Bytes) (haveToReturnData : UInt8) : BucketHead2 where
  signature := LEVIN_SIGNATURE
  cb := UInt64.ofNat inBuff.length
  haveToReturnData := haveToReturnData
  command := command
  returnCode := 0
  flags := LEVIN_PACKET_REQUEST
  protocolVersion := LEVIN_PROTOCOL_VER_1

def sendRequest (head : BucketHead2) (inBuff : Bytes) (s : Side κ χ) : Bool × Side κ χ :=
  let (sent, s) := env.doSend head.toBytes s
  if sent then env.doSend inBuff s else (false, s)

/-- `async_invoke`, on a connection that its caller has locked with `start_outer_call`. -/
def asyncInvoke (command : UInt32) (inBuff : Bytes) (cb : κ) (s : Side κ χ) : Bool × Side κ χ :=
  let (errCode, s) : Option Int32 × Side κ χ :=
    if s.deletionInitiated then (some LEVIN_ERROR_CONNECTION_DESTROYED, s)
    else
      let (sent, s) :=
        sendRequest env (requestHead command inBuff 1) inBuff { s with invokeBufReady := false }
      if !sent then (some LEVIN_ERROR_CONNECTION, s)
      else
        let (started, s) := addInvokeResponseHandler env cb command s
        if !started then (some LEVIN_ERROR_CONNECTION_DESTROYED, s) else (none, s)
  match errCode with
  | some code => (false, finishOuterCall env (env.callback cb code [] s))
  | none => (true, finishOuterCall env s)

def notify (command : UInt32) (inBuff : Bytes) (s : Side κ χ) : Int32 × Side κ χ :=
  if s.deletionInitiated then (LEVIN_ERROR_CONNECTION_DESTROYED, finishOuterCall env s)
  else
    let (sent, s) := sendRequest env (requestHead command inBuff 0) inBuff s
    (if sent then 1 else -1, finishOuterCall env s)

end XrCoin.Levin
