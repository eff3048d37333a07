import XrCoin.Levin.Framing

/-!
The socket of a levin connection: `add_ref`, `do_send` and `shutdown` of the connections of the
server, while other threads run.

Whether there is room in the queue depends on how fast the other end reads, and any thread may shut
the socket down at any time. So what a call on the socket meets is given to it, as a list of fates.
A send that fails can leave a part of its bytes in the queue.
-/

namespace XrCoin.Levin

structure Application (ω : Type) where
  invoke : UInt32 → Bytes → ω → (Int32 × Bytes) × ω
  notify : UInt32 → Bytes → ω → ω
  reply_lt : ∀ command buff w, (invoke command buff w).1.2.length < 2 ^ 64

structure Served where
  command : UInt32
  buff : Bytes
  returnCode : Int32
  returnBuff : Bytes
  deriving DecidableEq

structure Request (κ : Type) where
  command : UInt32
  inBuff : Bytes
  cb : κ
  deriving DecidableEq

structure Called (κ : Type) where
  cb : κ
  code : Int32
  buff : Bytes
  deriving DecidableEq

/-- What a call of `add_ref` or `do_send_chunk` meets. -/
inductive Fate
  | room
  /-- The queue is still full after the last of the retries. -/
  | full
  /-- Another thread has shut the socket down. -/
  | shutdown
  /-- An exception, before or after the bytes are in the queue. -/
  | thrown (queued : Bool)
  deriving DecidableEq

structure World (κ ω : Type) where
  ctx : ω
  wasShutdown : Bool
  fates : List Fate
  /-- Threads that have found and locked the connection for a call. -/
  locked : ℕ
  /-- All that was put in the queue. -/
  sent : Bytes
  /-- Timers that have expired, and whose turn has not come. -/
  due : List κ
  invoked : List (Request κ)
  notices : List (UInt32 × Bytes)
  served : List Served
  notified : List (UInt32 × Bytes)
  called : List (Called κ)

variable {κ ω : Type}

namespace Side

def update {χ : Type} (s : Side κ χ) (f : χ → χ) : Side κ χ := { s with world := f s.world }

@[simp] theorem update_world {χ : Type} (s : Side κ χ) (f : χ → χ) :
    (s.update f).world = f s.world := rfl

/-- The side after some fates were met and some bytes put in the queue. -/
def sending (s : Side κ (World κ ω)) (fates : List Fate) (bytes : Bytes) :
    Side κ (World κ ω) :=
  s.update fun w => { w with fates, sent := w.sent ++ bytes }

def flagged (s : Side κ (World κ ω)) : Side κ (World κ ω) :=
  s.update fun w => { w with wasShutdown := true }

theorem sending_sending (s : Side κ (World κ ω)) (fates fates' : List Fate) (a b : Bytes) :
    (s.sending fates a).sending fates' b = s.sending fates' (a ++ b) := by
  simp [sending, update]

end Side

/-! ### The environment of the handler -/

variable (app : Application ω)

def serve (command : UInt32) (buff : Bytes) (w : World κ ω) : (Int32 × Bytes) × World κ ω :=
  let ((returnCode, returnBuff), ctx) := app.invoke command buff w.ctx
  ((returnCode, returnBuff),
    { w with ctx, served := w.served ++ [⟨command, buff, returnCode, returnBuff⟩] })

def offline : Environment κ (World κ ω) where
  invoke command buff s :=
    ((serve app command buff s.world).1, { s with world := (serve app command buff s.world).2 })
  notify command buff s := s.update fun w =>
    { w with ctx := app.notify command buff w.ctx, notified := w.notified ++ [(command, buff)] }
  callback cb code buff s := s.update fun w => { w with called := w.called ++ [⟨cb, code, buff⟩] }
  doSend _ s := (false, s)
  addRef s := (false, s)
  release s := s
  closeEndpoint s := s

def shutdown (s : Side κ (World κ ω)) : Side κ (World κ ω) :=
  if s.world.wasShutdown then s else releaseProtocol (offline app) s.flagged

def doSendChunk (bytes : Bytes) (s : Side κ (World κ ω)) : Bool × Side κ (World κ ω) :=
  if s.world.wasShutdown then (false, s)
  else
    match s.world.fates.headD .room with
    | .room => (true, s.sending s.world.fates.tail bytes)
    | .full => (false, shutdown app (s.sending s.world.fates.tail []))
    | .shutdown => (false, (s.sending s.world.fates.tail []).flagged)
    | .thrown queued => (false, s.sending s.world.fates.tail (if queued then bytes else []))

def chunksizeGood : ℕ := 1024 * 32

def chunksizeMax : ℕ := chunksizeGood * 2

def doSendChunks (bytes : Bytes) (s : Side κ (World κ ω)) : Bool × Side κ (World κ ω) :=
  if bytes = [] then (true, s)
  else
    let (ok, s) := doSendChunk app (bytes.take chunksizeGood) s
    if ok then doSendChunks (bytes.drop chunksizeGood) s else (false, s)
termination_by bytes.length
decreasing_by
  have hpos : 0 < bytes.length := List.length_pos_of_ne_nil (by assumption)
  have hchunk : chunksizeGood = 32768 := rfl
  rw [List.length_drop]
  omega

/-- `do_send` of a connection that is not one of the RPC server, which does not cut. -/
def doSend (bytes : Bytes) (s : Side κ (World κ ω)) : Bool × Side κ (World κ ω) :=
  if s.world.wasShutdown then (false, s)
  else if chunksizeMax < bytes.length then doSendChunks app bytes s
  else doSendChunk app bytes s

def addRef (s : Side κ (World κ ω)) : Bool × Side κ (World κ ω) :=
  if s.world.wasShutdown then (false, s)
  else
    match s.world.fates.headD .room with
    | .room => (true, s.sending s.world.fates.tail [])
    | .full => (true, s.sending s.world.fates.tail [])
    | .shutdown => (false, (s.sending s.world.fates.tail []).flagged)
    | .thrown _ => (false, s.sending s.world.fates.tail [])

/-- The node with its socket. `close` only asks for a shutdown, which comes when the queue is
empty, from whichever thread sees it so. -/
def endpoint : Environment κ (World κ ω) :=
  { offline app with doSend := doSend app, addRef := addRef }

theorem releaseProtocol_offline (s : Side κ (World κ ω)) :
    releaseProtocol (offline app) s = releaseProtocol (endpoint app) s := rfl

/-! ### What a send does -/

variable {app} {s s' : Side κ (World κ ω)} {a b bytes : Bytes}

variable (app) in
/-- What is left of a send that failed: the socket had been shut down before, or an exception has
cut the send off, or the socket was shut down on the way. -/
inductive SendFailure (bytes : Bytes) (s : Side κ (World κ ω)) : Side κ (World κ ω) → Prop
  | refused : s.world.wasShutdown = true → SendFailure bytes s s
  | thrown (fates : List Fate) (part : Bytes) (queued : Bool) :
      .thrown queued ∈ s.world.fates → SendFailure bytes s (s.sending fates part)
  | cut (fates : List Fate) (part : Bytes) : s.world.wasShutdown = false → part <+: bytes →
      SendFailure bytes s (s.sending fates part).flagged
  | full (fates : List Fate) (part : Bytes) : s.world.wasShutdown = false → part <+: bytes →
      SendFailure bytes s (shutdown app (s.sending fates part))

variable (app) in
/-- A send puts all its bytes in the queue of an open socket, or it fails. -/
def Sent (bytes : Bytes) (s : Side κ (World κ ω)) (result : Bool × Side κ (World κ ω)) : Prop :=
  (result.1 = true ∧ s.world.wasShutdown = false ∧
      ∃ fates, fates <:+ s.world.fates ∧ result.2 = s.sending fates bytes) ∨
    result.1 = false ∧ SendFailure app bytes s result.2

theorem SendFailure.mono (h : SendFailure app a s s') (hab : a <+: b) : SendFailure app b s s' := by
  cases h with
  | refused hshut => exact .refused hshut
  | thrown fates part queued hmem => exact .thrown fates part queued hmem
  | cut fates part hopen hpart => exact .cut fates part hopen (hpart.trans hab)
  | full fates part hopen hpart => exact .full fates part hopen (hpart.trans hab)

theorem SendFailure.after {fates : List Fate} (hopen : s.world.wasShutdown = false)
    (hfates : fates <:+ s.world.fates) (h : SendFailure app b (s.sending fates a) s') :
    SendFailure app (a ++ b) s s' := by
  cases h with
  | refused hshut => exact absurd (hopen.symm.trans hshut) Bool.false_ne_true
  | thrown fates' part queued hmem =>
      rw [Side.sending_sending]
      exact .thrown fates' _ queued (hfates.subset hmem)
  | cut fates' part _ hpart =>
      rw [Side.sending_sending]
      exact .cut fates' _ hopen ((List.prefix_append_right_inj a).mpr hpart)
  | full fates' part _ hpart =>
      rw [Side.sending_sending]
      exact .full fates' _ hopen ((List.prefix_append_right_inj a).mpr hpart)

/-- One send after another is a send of all the bytes. -/
theorem Sent.andThen {first : Bool × Side κ (World κ ω)}
    {next : Side κ (World κ ω) → Bool × Side κ (World κ ω)} (h : Sent app a s first)
    (hnext : Sent app b first.2 (next first.2)) :
    Sent app (a ++ b) s (if first.1 then next first.2 else (false, first.2)) := by
  obtain ⟨ok, s₁⟩ := first
  rcases h with ⟨hok, hopen, fates, hfates, hs⟩ | ⟨hok, hfail⟩
  · obtain rfl : ok = true := hok
    obtain rfl : s₁ = s.sending fates a := hs
    rw [if_pos rfl]
    rcases hnext with ⟨hok', -, fates', hfates', hs'⟩ | ⟨hok', hfail'⟩
    · refine .inl ⟨hok', hopen, fates', hfates'.trans hfates, ?_⟩
      rw [hs', Side.sending_sending]
    · exact .inr ⟨hok', hfail'.after hopen hfates⟩
  · obtain rfl : ok = false := hok
    exact .inr ⟨rfl, hfail.mono (List.prefix_append a b)⟩

theorem sent_doSendChunk (bytes : Bytes) (s : Side κ (World κ ω)) :
    Sent app bytes s (doSendChunk app bytes s) := by
  rw [doSendChunk]
  by_cases hshut : s.world.wasShutdown = true
  · rw [if_pos hshut]
    exact .inr ⟨rfl, .refused hshut⟩
  have hopen : s.world.wasShutdown = false := Bool.eq_false_iff.mpr hshut
  rw [if_neg hshut]
  cases hfate : s.world.fates.headD .room with
  | room => exact .inl ⟨rfl, hopen, _, List.tail_suffix _, rfl⟩
  | full => exact .inr ⟨rfl, .full _ _ hopen List.nil_prefix⟩
  | shutdown => exact .inr ⟨rfl, .cut _ _ hopen List.nil_prefix⟩
  | thrown queued =>
      refine .inr ⟨rfl, .thrown _ _ queued ?_⟩
      cases hlist : s.world.fates with
      | nil =>
          rw [hlist] at hfate
          cases hfate
      | cons fate fates =>
          rw [hlist, List.headD_cons] at hfate
          exact hfate ▸ List.mem_cons_self

theorem sent_doSendChunks (bytes : Bytes) (s : Side κ (World κ ω))
    (hopen : s.world.wasShutdown = false) : Sent app bytes s (doSendChunks app bytes s) := by
  induction bytes, s using doSendChunks.induct app with
  | case1 s =>
      rw [doSendChunks, if_pos rfl]
      exact .inl ⟨rfl, hopen, s.world.fates, List.suffix_rfl, by simp [Side.sending, Side.update]⟩
  | case2 bytes s hne s₁ hchunk ih =>
      have hsent : Sent app (bytes.take chunksizeGood) s (true, s₁) :=
        hchunk ▸ sent_doSendChunk _ s
      have hopen₁ : s₁.world.wasShutdown = false := by
        obtain ⟨-, -, fates, -, rfl⟩ | ⟨hfalse, -⟩ := hsent
        · exact hopen
        · exact absurd hfalse.symm Bool.false_ne_true
      have hall := hsent.andThen (ih hopen₁)
      rw [List.take_append_drop] at hall
      rw [doSendChunks, if_neg hne, hchunk]
      exact hall
  | case3 bytes s hne ok s₁ hchunk hok =>
      obtain rfl : ok = false := Bool.eq_false_iff.mpr hok
      have hsent : Sent app (bytes.take chunksizeGood) s (false, s₁) :=
        hchunk ▸ sent_doSendChunk _ s
      rw [doSendChunks, if_neg hne, hchunk]
      obtain ⟨htrue, -⟩ | ⟨-, hfail⟩ := hsent
      · exact absurd htrue Bool.false_ne_true
      · exact .inr ⟨rfl, hfail.mono (List.take_prefix _ _)⟩

theorem sent_doSend (bytes : Bytes) (s : Side κ (World κ ω)) :
    Sent app bytes s (doSend app bytes s) := by
  rw [doSend]
  split_ifs with hshut
  · exact .inr ⟨rfl, .refused hshut⟩
  · exact sent_doSendChunks bytes s (Bool.eq_false_iff.mpr hshut)
  · exact sent_doSendChunk bytes s

theorem sent_sendRequest (head : BucketHead2) (inBuff : Bytes) (s : Side κ (World κ ω)) :
    Sent app (head.toBytes ++ inBuff) s (sendRequest (endpoint app) head inBuff s) := by
  exact (sent_doSend head.toBytes s).andThen (sent_doSend inBuff _)

/-- A reference is added to an open socket, or not, and the socket may have been shut down. -/
theorem addRef_cases (s : Side κ (World κ ω)) :
    (∃ fates, s.world.wasShutdown = false ∧ addRef s = (true, s.sending fates [])) ∨
      addRef s = (false, s) ∨
      ∃ fates, s.world.wasShutdown = false ∧
        (addRef s = (false, s.sending fates []) ∨
          addRef s = (false, (s.sending fates []).flagged)) := by
  rw [addRef]
  by_cases hshut : s.world.wasShutdown = true
  · rw [if_pos hshut]
    exact .inr (.inl rfl)
  have hopen : s.world.wasShutdown = false := Bool.eq_false_iff.mpr hshut
  rw [if_neg hshut]
  cases s.world.fates.headD .room with
  | room => exact .inl ⟨_, hopen, rfl⟩
  | full => exact .inl ⟨_, hopen, rfl⟩
  | shutdown => exact .inr (.inr ⟨_, hopen, .inr rfl⟩)
  | thrown queued => exact .inr (.inr ⟨_, hopen, .inl rfl⟩)

end XrCoin.Levin
