import XrCoin.Data.Draining
import XrCoin.Levin.Handler

/-!
The packets that a levin connection sees in the bytes it receives.

The loop of `handle_recv` is a machine on a buffer, so what it does does not depend on how the
socket cut the stream. In every run the packets that were handled and the bytes that are kept
are together the bytes that came.
-/

namespace XrCoin.Levin

open Data

variable {κ χ : Type} {env : Environment κ χ} {conf : Config}

/-! ### The loop as a machine on the buffer -/

structure Receiver (κ χ : Type) where
  currentHead : BucketHead2
  state : StreamState
  oponentProtocolVer : UInt32
  side : Side κ χ

def Connection.receiver (c : Connection κ χ) : Receiver κ χ :=
  { currentHead := c.currentHead, state := c.state, oponentProtocolVer := c.oponentProtocolVer,
    side := c.side }

theorem Connection.eq_of_receiver {c d : Connection κ χ} (h : c.receiver = d.receiver)
    (hbuffer : c.cacheInBuffer = d.cacheInBuffer) : c = d := by
  obtain ⟨head, buffer, state, ver, side⟩ := c
  obtain ⟨head', buffer', state', ver', side'⟩ := d
  obtain ⟨rfl, rfl, rfl, rfl⟩ := Receiver.mk.inj h
  obtain rfl : buffer = buffer' := hbuffer
  rfl

namespace Receiver

variable (env conf)

def bodyMove (r : Receiver κ χ) (buffer : Bytes) : Move (Receiver κ χ) UInt8 :=
  let (ok, currentHead, side) :=
    handlePacket env r.oponentProtocolVer r.currentHead (buffer.take r.currentHead.cb.toNat) r.side
  if ok then
    .go { r with currentHead, side, state := .head } (buffer.drop r.currentHead.cb.toNat)
  else .stop { r with currentHead, side }

def reading (r : Receiver κ χ) (phead : BucketHead2) : Receiver κ χ :=
  { r with currentHead := phead, state := .body, oponentProtocolVer := phead.protocolVersion }

def headMove (r : Receiver κ χ) (buffer : Bytes) : Move (Receiver κ χ) UInt8 :=
  let phead := BucketHead2.ofBytes buffer
  if phead.signature ≠ LEVIN_SIGNATURE then .stop r
  else if phead.cb > conf.maxPacketSize then .stop (r.reading phead)
  else .go (r.reading phead) (buffer.drop BucketHead2.size)

def move (r : Receiver κ χ) (buffer : Bytes) : Move (Receiver κ χ) UInt8 :=
  match r.state with
  | .body => if buffer.length < r.currentHead.cb.toNat then .wait else r.bodyMove env buffer
  | .head =>
      if buffer.length < BucketHead2.size then
        if signatureMismatch buffer then .stop r else .wait
      else r.headMove conf buffer

def cost (r : Receiver κ χ) (buffer : Bytes) : ℕ :=
  2 * buffer.length + if r.state = .body then 1 else 0

theorem cost_le (r : Receiver κ χ) (buffer : Bytes) : r.cost buffer ≤ 2 * buffer.length + 1 := by
  rw [cost]
  split_ifs <;> omega

def attach (r : Receiver κ χ) (buffer : Bytes) : Connection κ χ :=
  { currentHead := r.currentHead, cacheInBuffer := buffer, state := r.state,
    oponentProtocolVer := r.oponentProtocolVer, side := r.side }

variable {env conf} {r r' : Receiver κ χ} {buffer rest : Bytes}

theorem move_body (hstate : r.state = .body) (h : r.currentHead.cb.toNat ≤ buffer.length) :
    r.move env conf buffer = r.bodyMove env buffer := by
  rw [move, hstate]
  exact if_neg (by omega)

theorem move_head (hstate : r.state = .head) (h : BucketHead2.size ≤ buffer.length) :
    r.move env conf buffer = r.headMove conf buffer := by
  rw [move, hstate]
  exact if_neg (by omega)

theorem bodyMove_append (h : r.currentHead.cb.toNat ≤ buffer.length) (more : Bytes) :
    r.bodyMove env (buffer ++ more) = (r.bodyMove env buffer).append more := by
  rw [bodyMove, bodyMove, List.take_append_of_le_length h, List.drop_append_of_le_length h]
  generalize handlePacket env _ _ _ _ = result
  obtain ⟨ok, currentHead, side⟩ := result
  cases ok <;> rfl

theorem field_append_of_le {offset width : ℕ} (h : offset + width ≤ buffer.length) (more : Bytes) :
    BucketHead2.field (buffer ++ more) offset width = BucketHead2.field buffer offset width := by
  have hrest : width ≤ (buffer.drop offset).length := by
    rw [List.length_drop]
    omega
  rw [BucketHead2.field, BucketHead2.field, List.drop_append_of_le_length (by omega),
    List.take_append_of_le_length hrest]

theorem ofBytes_append (h : BucketHead2.size ≤ buffer.length) (more : Bytes) :
    BucketHead2.ofBytes (buffer ++ more) = BucketHead2.ofBytes buffer := by
  have hsize : BucketHead2.size = 33 := rfl
  simp only [BucketHead2.ofBytes]
  rw [field_append_of_le (by omega), field_append_of_le (by omega), field_append_of_le (by omega),
    field_append_of_le (by omega), field_append_of_le (by omega), field_append_of_le (by omega),
    field_append_of_le (by omega)]

theorem headMove_append (h : BucketHead2.size ≤ buffer.length) (more : Bytes) :
    r.headMove conf (buffer ++ more) = (r.headMove conf buffer).append more := by
  rw [headMove, headMove, ofBytes_append h, List.drop_append_of_le_length h]
  split_ifs <;> rfl

/-- A wrong signature is seen in the first bytes, however many are there. -/
theorem headMove_of_mismatch (h : signatureMismatch buffer = true) :
    r.headMove conf buffer = .stop r := by
  have hsignature := (of_decide_eq_true h).2
  rw [headMove]
  exact if_pos hsignature

theorem signatureMismatch_append (h : signatureMismatch buffer = true) (more : Bytes) :
    signatureMismatch (buffer ++ more) = true := by
  obtain ⟨hlen, hsignature⟩ := of_decide_eq_true h
  rw [signatureMismatch, field_append_of_le (by omega), List.length_append]
  exact decide_eq_true ⟨by omega, hsignature⟩

theorem move_append (h : r.move env conf buffer ≠ .wait) (more : Bytes) :
    r.move env conf (buffer ++ more) = (r.move env conf buffer).append more := by
  have hlength : buffer.length ≤ (buffer ++ more).length := by simp
  cases hstate : r.state with
  | body =>
      by_cases hbody : r.currentHead.cb.toNat ≤ buffer.length
      · rw [move_body hstate hbody, move_body hstate (hbody.trans hlength),
          bodyMove_append hbody]
      · refine absurd ?_ h
        rw [move, hstate]
        exact if_pos (by omega)
  | head =>
      by_cases hhead : BucketHead2.size ≤ buffer.length
      · rw [move_head hstate hhead, move_head hstate (hhead.trans hlength),
          headMove_append hhead]
      · by_cases hmismatch : signatureMismatch buffer = true
        · have hstop : ∀ b, signatureMismatch b = true → r.move env conf b = .stop r := by
            intro b hb
            by_cases hlen : BucketHead2.size ≤ b.length
            · rw [move_head hstate hlen, headMove_of_mismatch hb]
            · simp only [move, hstate]
              rw [if_pos (by omega), if_pos hb]
          rw [hstop _ hmismatch, hstop _ (signatureMismatch_append hmismatch more), Move.append]
        · refine absurd ?_ h
          simp only [move, hstate]
          rw [if_pos (by omega), if_neg hmismatch]

theorem cost_lt (h : r.move env conf buffer = .go r' rest) : r'.cost rest < r.cost buffer := by
  cases hstate : r.state with
  | body =>
      by_cases hbody : r.currentHead.cb.toNat ≤ buffer.length
      · rw [move_body hstate hbody, bodyMove] at h
        generalize handlePacket env _ _ _ _ = result at h
        obtain ⟨ok, currentHead, side⟩ := result
        cases ok
        · cases h
        · obtain ⟨rfl, rfl⟩ := Move.go.inj h
          simp only [cost, hstate, List.length_drop]
          simp
      · simp only [move, hstate] at h
        rw [if_pos (by omega)] at h
        cases h
  | head =>
      by_cases hhead : BucketHead2.size ≤ buffer.length
      · rw [move_head hstate hhead, headMove] at h
        split_ifs at h
        obtain ⟨rfl, rfl⟩ := Move.go.inj h
        have hsize : BucketHead2.size = 33 := rfl
        simp only [cost, reading, hstate, List.length_drop]
        simp
        omega
      · simp only [move, hstate] at h
        rw [if_pos (by omega)] at h
        split_ifs at h

variable (env conf) in
def consumer : Consumer (Receiver κ χ) UInt8 where
  move := move env conf
  cost := cost
  cost_lt := cost_lt
  move_append := move_append

end Receiver

@[simp] theorem AnvokeHandler.resetTimer_eq (h : AnvokeHandler κ) : h.resetTimer = h := by
  obtain ⟨cb, command, pending, started, called, cancelled⟩ := h
  cases pending <;> cases called <;> rfl

@[simp] theorem partialReceived_eq (cb : ℕ) (s : Side κ χ) : partialReceived cb s = s := by
  rw [partialReceived]
  split_ifs
  · split
    · rfl
    · next handler others hhandlers =>
        rw [AnvokeHandler.resetTimer_eq, ← hhandlers]
  · rfl

/-- How the loop ended, without what is left in the buffer of a connection that is closed. -/
def ended : Bool × Connection κ χ → Drained (Receiver κ χ) UInt8
  | (true, c) => .waiting c.receiver c.cacheInBuffer
  | (false, c) => .stopped c.receiver

theorem ended_recvLoop_succ (cb n : ℕ) (c : Connection κ χ) :
    ended (recvLoop env conf cb (n + 1) c) =
      match c.receiver.move env conf c.cacheInBuffer with
      | .wait => .waiting c.receiver c.cacheInBuffer
      | .stop r => .stopped r
      | .go r rest => ended (recvLoop env conf cb n (r.attach rest)) := by
  obtain ⟨head, buffer, state, ver, side⟩ := c
  cases state with
  | body =>
      by_cases hbody : buffer.length < head.cb.toNat
      · simp [recvLoop, Receiver.move, Connection.receiver, hbody, ended]
      · rcases hresult : handlePacket env ver head (buffer.take head.cb.toNat) side with
          ⟨ok, head', side'⟩
        cases ok <;>
          simp [recvLoop, Receiver.move, Receiver.bodyMove, Connection.receiver, hbody, hresult,
            ended, Receiver.attach]
  | head =>
      by_cases hhead : buffer.length < BucketHead2.size
      · cases hmismatch : signatureMismatch buffer <;>
          simp [recvLoop, Receiver.move, Connection.receiver, hhead, hmismatch, ended]
      · simp only [recvLoop, Receiver.move, Receiver.headMove, Connection.receiver, hhead, if_false]
        split_ifs <;> rfl

theorem ended_recvLoop {cb n : ℕ} {c : Connection κ χ}
    (hn : c.receiver.cost c.cacheInBuffer < n) :
    ended (recvLoop env conf cb n c) =
      (Receiver.consumer env conf).drain c.receiver c.cacheInBuffer := by
  induction n generalizing c with
  | zero => cases hn
  | succ n ih =>
      rw [ended_recvLoop_succ]
      cases hmove : c.receiver.move env conf c.cacheInBuffer with
      | wait => exact (Consumer.drain_wait (c := Receiver.consumer env conf) hmove).symm
      | stop r => exact (Consumer.drain_stop (c := Receiver.consumer env conf) hmove).symm
      | go r rest =>
          have hlt := Receiver.cost_lt hmove
          rw [Consumer.drain_go (c := Receiver.consumer env conf) hmove]
          exact ih (show r.cost rest < n by omega)

/-! ### Pieces of the stream -/

/-- Why a piece is not looked at. -/
def Refused (conf : Config) (chunk : Bytes) (c : Connection κ χ) : Prop :=
  c.side.closeCalled ≠ 0 ∨ conf.hasCommandsHandler = false ∨
    conf.maxPacketSize.toNat < c.cacheInBuffer.length + chunk.length

theorem handleRecv_refused {chunk : Bytes} {c : Connection κ χ} (h : Refused conf chunk c) :
    handleRecv env conf chunk c = (false, c) := by
  rw [handleRecv]
  split_ifs with hclosed hhandler hsize
  · rfl
  · rfl
  · rfl
  · rcases h with h | h | h
    · exact absurd h hclosed
    · rw [h] at hhandler
      exact absurd rfl hhandler
    · exact absurd h hsize

/-- A piece that is looked at is the next piece of the machine. -/
theorem ended_handleRecv {chunk : Bytes} {c : Connection κ χ} (h : ¬ Refused conf chunk c) :
    ended (handleRecv env conf chunk c) =
      (Receiver.consumer env conf).drain c.receiver (c.cacheInBuffer ++ chunk) := by
  simp only [Refused, not_or, not_lt] at h
  obtain ⟨hclosed, hhandler, hsize⟩ := h
  rw [Bool.not_eq_false] at hhandler
  rw [handleRecv, if_neg hclosed, hhandler, if_neg (by decide), if_neg (by omega)]
  apply ended_recvLoop
  exact (Receiver.cost_le _ _).trans_lt (Nat.lt_succ_self _)

theorem drain_of_handleRecv {chunk : Bytes} {c c' : Connection κ χ}
    (h : handleRecv env conf chunk c = (true, c')) :
    (Receiver.consumer env conf).drain c.receiver (c.cacheInBuffer ++ chunk) =
      .waiting c'.receiver c'.cacheInBuffer := by
  have hlooked : ¬ Refused conf chunk c := by
    intro hrefused
    rw [handleRecv_refused hrefused] at h
    cases h
  rw [← ended_handleRecv hlooked, h, ended]

/-- The pieces that the socket hands over, up to the first that is answered with `false`. -/
def recvAll (env : Environment κ χ) (conf : Config) :
    List Bytes → Connection κ χ → Bool × Connection κ χ
  | [], c => (true, c)
  | chunk :: chunks, c =>
      let (ok, c) := handleRecv env conf chunk c
      if ok then recvAll env conf chunks c else (false, c)

/-- A move that does not read a head leaves the side that a packet leaves. -/
theorem Receiver.move_side {r r' : Receiver κ χ} {buffer : Bytes}
    (h : (∃ rest, r.move env conf buffer = .go r' rest) ∨ r.move env conf buffer = .stop r') :
    r'.side = r.side ∨ ∃ buff, r'.side =
      (handlePacket env r.oponentProtocolVer r.currentHead buff r.side).2.2 := by
  cases hstate : r.state with
  | body =>
      by_cases hbody : r.currentHead.cb.toNat ≤ buffer.length
      · rw [move_body hstate hbody, bodyMove] at h
        right
        refine ⟨buffer.take r.currentHead.cb.toNat, ?_⟩
        rcases hresult : handlePacket env r.oponentProtocolVer r.currentHead
          (buffer.take r.currentHead.cb.toNat) r.side with ⟨ok, currentHead, side⟩
        rw [hresult] at h
        cases ok
        · obtain ⟨rest, h⟩ | h := h
          · cases h
          · rw [← Move.stop.inj h]
        · obtain ⟨rest, h⟩ | h := h
          · rw [← (Move.go.inj h).1]
          · cases h
      · simp only [move, hstate] at h
        rw [if_pos (by omega)] at h
        obtain ⟨rest, h⟩ | h := h <;> cases h
  | head =>
      left
      by_cases hhead : BucketHead2.size ≤ buffer.length
      · rw [move_head hstate hhead, headMove] at h
        split_ifs at h <;> obtain ⟨rest, h⟩ | h := h
        · cases h
        · rw [← Move.stop.inj h]
        · cases h
        · rw [← Move.stop.inj h]
          rfl
        · rw [← (Move.go.inj h).1]
          rfl
        · cases h
      · simp only [move, hstate] at h
        rw [if_pos (by omega)] at h
        split_ifs at h <;> obtain ⟨rest, h⟩ | h := h
        · cases h
        · rw [← Move.stop.inj h]
        · cases h
        · cases h

/-! ### Packets -/

def Packet.Accepted (conf : Config) (p : Packet) : Prop :=
  p.head.signature = LEVIN_SIGNATURE ∧ p.head.cb ≤ conf.maxPacketSize

def Packet.handle (env : Environment κ χ) (p : Packet) (s : Side κ χ) : Bool × Side κ χ :=
  let (ok, _, s) := handlePacket env p.head.protocolVersion p.head p.body s
  (ok, s)

/-- The packets one after the other, up to the first that cannot be handled. -/
def handleAll (env : Environment κ χ) : List Packet → Side κ χ → Bool × Side κ χ
  | [], s => (true, s)
  | p :: ps, s =>
      let (ok, s) := p.handle env s
      if ok then handleAll env ps s else (false, s)

theorem handleAll_concat {ps : List Packet} {p : Packet} {s s' : Side κ χ}
    (h : handleAll env ps s = (true, s')) : handleAll env (ps ++ [p]) s = p.handle env s' := by
  induction ps generalizing s with
  | nil =>
      obtain rfl := (Prod.mk.inj h).2
      rw [List.nil_append, handleAll]
      rcases p.handle env s with ⟨ok, side⟩
      cases ok <;> rfl
  | cons q ps ih =>
      rw [handleAll] at h
      rw [List.cons_append, handleAll]
      rcases hresult : q.handle env s with ⟨ok, side⟩
      rw [hresult] at h
      cases ok
      · cases h
      · exact ih h

namespace Receiver

/-- The bytes that came and were not handled: a head that was read waits for its body. -/
def pending (r : Receiver κ χ) (buffer : Bytes) : Bytes :=
  match r.state with
  | .head => buffer
  | .body => r.currentHead.toBytes ++ buffer

/-- A head that waits for its body is an accepted one. -/
def WellFormed (conf : Config) (r : Receiver κ χ) : Prop :=
  r.state = .body → r.oponentProtocolVer = r.currentHead.protocolVersion ∧
    r.currentHead.signature = LEVIN_SIGNATURE ∧ r.currentHead.cb ≤ conf.maxPacketSize

theorem pending_append (r : Receiver κ χ) (buffer more : Bytes) :
    r.pending (buffer ++ more) = r.pending buffer ++ more := by
  cases hstate : r.state <;> simp [pending, hstate]

/-- A machine that waits holds no whole packet. -/
theorem not_prefix_of_wait {r : Receiver κ χ} {buffer : Bytes}
    (hwait : r.move env conf buffer = .wait)
    (p : Packet) : ¬ p.bytes <+: r.pending buffer := by
  intro hprefix
  cases hstate : r.state with
  | head =>
      have hlen := hprefix.length_le
      rw [Receiver.pending, hstate, Packet.length_bytes] at hlen
      have hhead : BucketHead2.size ≤ buffer.length := by
        show BucketHead2.size ≤ _
        dsimp only at hlen
        omega
      rw [Receiver.move_head hstate hhead, Receiver.headMove] at hwait
      split_ifs at hwait
  | body =>
      rw [Receiver.pending, hstate] at hprefix
      obtain ⟨tail, htail⟩ := hprefix
      have hhead : p.head = r.currentHead := by
        have hof := congrArg BucketHead2.ofBytes htail
        rwa [Packet.bytes, List.append_assoc, BucketHead2.ofBytes_toBytes,
          BucketHead2.ofBytes_toBytes] at hof
      have hlen := congrArg List.length htail
      simp only [List.length_append, Packet.length_bytes, BucketHead2.toBytes_length, hhead] at hlen
      have hbody : r.currentHead.cb.toNat ≤ buffer.length := by omega
      rw [Receiver.move_body hstate hbody, Receiver.bodyMove] at hwait
      rcases hresult : handlePacket env r.oponentProtocolVer r.currentHead
        (buffer.take r.currentHead.cb.toNat) r.side with ⟨ok, currentHead, side⟩
      rw [hresult] at hwait
      cases ok <;> cases hwait

end Receiver

/-- The stream goes on with a head that is not accepted. -/
def BadHead (conf : Config) (bytes : Bytes) : Prop :=
  signatureMismatch bytes = true ∨
    BucketHead2.size ≤ bytes.length ∧ conf.maxPacketSize < (BucketHead2.ofBytes bytes).cb

namespace Receiver.WellFormed

variable {r r' : Receiver κ χ} {buffer rest : Bytes}

theorem exists_packet (h : r.WellFormed conf) (hstate : r.state = .body)
    (hbody : r.currentHead.cb.toNat ≤ buffer.length) :
    ∃ p : Packet, p.head = r.currentHead ∧ p.body = buffer.take r.currentHead.cb.toNat ∧
      p.Accepted conf ∧ r.oponentProtocolVer = p.head.protocolVersion ∧
      r.pending buffer = p.bytes ++ buffer.drop r.currentHead.cb.toNat := by
  obtain ⟨hver, hsignature, hcb⟩ := h hstate
  refine ⟨⟨r.currentHead, buffer.take r.currentHead.cb.toNat, ?_⟩, rfl, rfl, ⟨hsignature, hcb⟩,
    hver, ?_⟩
  · rw [List.length_take]
    omega
  · rw [Packet.bytes, List.append_assoc, List.take_append_drop, Receiver.pending, hstate]

/-- What a move that goes on has done: it has read a head, or it has handled a packet. -/
theorem go_cases (h : r.WellFormed conf) (hmove : r.move env conf buffer = .go r' rest) :
    r'.WellFormed conf ∧
      (r'.side = r.side ∧ r'.pending rest = r.pending buffer ∨
        ∃ p : Packet, p.Accepted conf ∧ r.pending buffer = p.bytes ++ rest ∧
          r'.pending rest = rest ∧ p.handle env r.side = (true, r'.side)) := by
  cases hstate : r.state with
  | body =>
      by_cases hbody : r.currentHead.cb.toNat ≤ buffer.length
      · obtain ⟨p, hphead, hpbody, haccepted, hver, hpending⟩ := h.exists_packet hstate hbody
        rw [move_body hstate hbody, bodyMove, hver, ← hpbody, ← hphead] at hmove
        rcases hresult : handlePacket env p.head.protocolVersion p.head p.body r.side with
          ⟨ok, currentHead, side⟩
        rw [hresult] at hmove
        cases ok
        · cases hmove
        · obtain ⟨rfl, rfl⟩ := Move.go.inj hmove
          refine ⟨?_, .inr ⟨p, haccepted, ?_, rfl, ?_⟩⟩
          · intro hbad
            cases hbad
          · rw [hpending, hphead]
          · rw [Packet.handle, hresult]
      · simp only [move, hstate] at hmove
        rw [if_pos (by omega)] at hmove
        cases hmove
  | head =>
      by_cases hhead : BucketHead2.size ≤ buffer.length
      · rw [move_head hstate hhead, headMove] at hmove
        split_ifs at hmove with hsignature hcb
        obtain ⟨rfl, rfl⟩ := Move.go.inj hmove
        refine ⟨fun _ => ⟨rfl, not_not.mp hsignature, UInt64.not_lt.mp hcb⟩, .inl ⟨rfl, ?_⟩⟩
        simp only [pending, hstate, reading]
        rw [BucketHead2.toBytes_ofBytes hhead, List.take_append_drop]
      · simp only [move, hstate] at hmove
        rw [if_pos (by omega)] at hmove
        split_ifs at hmove

/-- Why a move stops: a head that is not accepted, or a packet that cannot be handled. -/
theorem stop_cases (h : r.WellFormed conf) (hmove : r.move env conf buffer = .stop r') :
    BadHead conf (r.pending buffer) ∧ r'.side = r.side ∨
      ∃ p : Packet, p.bytes <+: r.pending buffer ∧ p.Accepted conf ∧
        p.handle env r.side = (false, r'.side) := by
  cases hstate : r.state with
  | body =>
      right
      by_cases hbody : r.currentHead.cb.toNat ≤ buffer.length
      · obtain ⟨p, hphead, hpbody, haccepted, hver, hpending⟩ := h.exists_packet hstate hbody
        refine ⟨p, hpending ▸ List.prefix_append _ _, haccepted, ?_⟩
        rw [move_body hstate hbody, bodyMove, hver, ← hpbody, ← hphead] at hmove
        rcases hresult : handlePacket env p.head.protocolVersion p.head p.body r.side with
          ⟨ok, currentHead, side⟩
        rw [hresult] at hmove
        rw [Packet.handle, hresult]
        cases ok
        · rw [← Move.stop.inj hmove]
        · cases hmove
      · simp only [move, hstate] at hmove
        rw [if_pos (by omega)] at hmove
        cases hmove
  | head =>
      left
      rw [pending, hstate]
      by_cases hhead : BucketHead2.size ≤ buffer.length
      · rw [move_head hstate hhead, headMove] at hmove
        split_ifs at hmove with hsignature hcb
        · obtain rfl := Move.stop.inj hmove
          have hsize : BucketHead2.size = 33 := rfl
          have hlen : 8 ≤ buffer.length := by omega
          exact ⟨.inl (decide_eq_true ⟨hlen, hsignature⟩), rfl⟩
        · obtain rfl := Move.stop.inj hmove
          exact ⟨.inr ⟨hhead, hcb⟩, rfl⟩
      · simp only [move, hstate] at hmove
        rw [if_pos (by omega)] at hmove
        split_ifs at hmove with hmismatch
        obtain rfl := Move.stop.inj hmove
        exact ⟨.inl hmismatch, rfl⟩

end Receiver.WellFormed

structure Received (env : Environment κ χ) (conf : Config) (s : Side κ χ) (bytes : Bytes)
    (ps : List Packet) (r : Receiver κ χ) (buffer : Bytes) : Prop where
  bytes_eq : bytes = (ps.map Packet.bytes).flatten ++ r.pending buffer
  accepted : ∀ p ∈ ps, p.Accepted conf
  handled : handleAll env ps s = (true, r.side)
  wellFormed : r.WellFormed conf

namespace Received

variable {s : Side κ χ} {bytes buffer rest : Bytes} {ps : List Packet} {r r' : Receiver κ χ}

theorem append (h : Received env conf s bytes ps r buffer) (more : Bytes) :
    Received env conf s (bytes ++ more) ps r (buffer ++ more) where
  bytes_eq := by rw [Receiver.pending_append, ← List.append_assoc, ← h.bytes_eq]
  accepted := h.accepted
  handled := h.handled
  wellFormed := h.wellFormed

theorem step (h : Received env conf s bytes ps r buffer)
    (hmove : r.move env conf buffer = .go r' rest) :
    ∃ ps', Received env conf s bytes ps' r' rest := by
  obtain ⟨hwell, hcase⟩ := h.wellFormed.go_cases hmove
  rcases hcase with ⟨hside, hpending⟩ | ⟨p, haccepted, hpending, hrest, hhandle⟩
  · exact ⟨ps, hpending ▸ h.bytes_eq, h.accepted, hside ▸ h.handled, hwell⟩
  · refine ⟨ps ++ [p], ?_, ?_, (handleAll_concat h.handled).trans hhandle, hwell⟩
    · rw [h.bytes_eq, hpending, hrest]
      simp
    · intro q hq
      rcases List.mem_append.mp hq with hq | hq
      · exact h.accepted q hq
      · rwa [List.mem_singleton.mp hq]

theorem drain_waiting (h : Received env conf s bytes ps r buffer)
    (hdrain : (Receiver.consumer env conf).drain r buffer = .waiting r' rest) :
    ∃ ps', Received env conf s bytes ps' r' rest := by
  have hend : ∀ t kept, (Receiver.consumer env conf).drain r buffer = .waiting t kept →
      ∃ ps', Received env conf s bytes ps' t kept := by
    apply Consumer.drain_induction (P := fun r buffer => ∃ ps, Received env conf s bytes ps r buffer)
      (Q := fun d => ∀ t kept, d = .waiting t kept → ∃ ps', Received env conf s bytes ps' t kept)
    · rintro r r' buffer rest hmove ⟨ps, hps⟩
      exact hps.step hmove
    · intro r buffer _ hps t kept heq
      cases heq
      exact hps
    · intro r r' buffer _ _ t kept heq
      cases heq
    · exact ⟨ps, h⟩
  exact hend r' rest hdrain

theorem drain_stopped (h : Received env conf s bytes ps r buffer)
    (hdrain : (Receiver.consumer env conf).drain r buffer = .stopped r') :
    ∃ ps' before rest, Received env conf s bytes ps' before rest ∧
      before.move env conf rest = .stop r' := by
  have hend : ∀ t, (Receiver.consumer env conf).drain r buffer = .stopped t →
      ∃ ps' before rest, Received env conf s bytes ps' before rest ∧
        before.move env conf rest = .stop t := by
    apply Consumer.drain_induction (P := fun r buffer => ∃ ps, Received env conf s bytes ps r buffer)
      (Q := fun d => ∀ t, d = .stopped t → ∃ ps' before rest,
        Received env conf s bytes ps' before rest ∧ before.move env conf rest = .stop t)
    · rintro r r' buffer rest hmove ⟨ps, hps⟩
      exact hps.step hmove
    · intro r buffer _ _ t heq
      cases heq
    · rintro r r' buffer hmove ⟨ps, hps⟩ t heq
      cases heq
      exact ⟨ps, r, buffer, hps, hmove⟩
    · exact ⟨ps, h⟩
  exact hend r' hdrain

/-- What a machine that waits keeps is at most a head and a body that is not complete. -/
theorem length_pending_lt (h : Received env conf s bytes ps r buffer)
    (hwait : r.move env conf buffer = .wait) :
    (r.pending buffer).length < BucketHead2.size + max 1 conf.maxPacketSize.toNat := by
  rw [Receiver.move] at hwait
  cases hstate : r.state with
  | head =>
      rw [Receiver.pending, hstate]
      by_cases hhead : buffer.length < BucketHead2.size
      · exact Nat.lt_add_right _ hhead
      · rw [hstate] at hwait
        dsimp only at hwait
        rw [if_neg hhead, Receiver.headMove] at hwait
        split_ifs at hwait
  | body =>
      obtain ⟨-, -, hcb⟩ := h.wellFormed hstate
      rw [UInt64.le_iff_toNat_le] at hcb
      have hbody : buffer.length < r.currentHead.cb.toNat := by
        by_contra hbody
        rw [hstate] at hwait
        dsimp only at hwait
        rw [if_neg hbody, Receiver.bodyMove] at hwait
        rcases hresult : handlePacket env r.oponentProtocolVer r.currentHead
          (buffer.take r.currentHead.cb.toNat) r.side with ⟨ok, currentHead, side⟩
        rw [hresult] at hwait
        cases ok <;> cases hwait
      rw [Receiver.pending, hstate]
      simp only [List.length_append, BucketHead2.toBytes_length]
      omega

end Received

/-! ### Whole runs -/

def Connection.fresh (head : BucketHead2) (s : Side κ χ) : Connection κ χ :=
  { currentHead := head, cacheInBuffer := [], state := .head, oponentProtocolVer := 0, side := s }

def Connection.pending (c : Connection κ χ) : Bytes := c.receiver.pending c.cacheInBuffer

theorem received_fresh (head : BucketHead2) (s : Side κ χ) :
    Received env conf s [] [] (Connection.fresh head s).receiver [] where
  bytes_eq := rfl
  accepted := by simp
  handled := rfl
  wellFormed h := by cases h

theorem move_fresh (head : BucketHead2) (s : Side κ χ) :
    (Connection.fresh head s).receiver.move env conf [] = .wait := rfl

theorem Received.recvAll {s : Side κ χ} {bytes : Bytes} {ps : List Packet}
    {c c' : Connection κ χ} {chunks : List Bytes}
    (h : Received env conf s bytes ps c.receiver c.cacheInBuffer)
    (hwait : c.receiver.move env conf c.cacheInBuffer = .wait)
    (hall : recvAll env conf chunks c = (true, c')) :
    ∃ ps', Received env conf s (bytes ++ chunks.flatten) ps' c'.receiver c'.cacheInBuffer ∧
      c'.receiver.move env conf c'.cacheInBuffer = .wait := by
  induction chunks generalizing c bytes ps with
  | nil =>
      obtain rfl := (Prod.mk.inj hall).2
      rw [List.flatten_nil, List.append_nil]
      exact ⟨ps, h, hwait⟩
  | cons chunk chunks ih =>
      rw [Levin.recvAll] at hall
      rcases hrecv : handleRecv env conf chunk c with ⟨ok, next⟩
      rw [hrecv] at hall
      cases ok
      · cases hall
      have hdrain := drain_of_handleRecv hrecv
      obtain ⟨ps₁, hps₁⟩ := (h.append chunk).drain_waiting hdrain
      rw [List.flatten_cons, ← List.append_assoc]
      exact ih hps₁ (Consumer.move_of_drain (c := Receiver.consumer env conf) hdrain) hall

/-- However the stream is cut into pieces, a connection that took them all has handled the packets
of the stream, each once and in their order, and keeps the rest, in which no packet is whole. -/
theorem recvAll_packets {head : BucketHead2} {s : Side κ χ} {c : Connection κ χ}
    {chunks : List Bytes} (h : recvAll env conf chunks (.fresh head s) = (true, c)) :
    ∃ ps : List Packet, chunks.flatten = (ps.map Packet.bytes).flatten ++ c.pending ∧
      (∀ p ∈ ps, p.Accepted conf) ∧ handleAll env ps s = (true, c.side) ∧
      (∀ p : Packet, ¬ p.bytes <+: c.pending) ∧
      c.pending.length < BucketHead2.size + max 1 conf.maxPacketSize.toNat := by
  obtain ⟨ps, hps, hwait⟩ := (received_fresh head s).recvAll (move_fresh head s) h
  exact ⟨ps, hps.bytes_eq, hps.accepted, hps.handled, Receiver.not_prefix_of_wait hwait,
    hps.length_pending_lt hwait⟩

/-- A commands handler that writes its notifications down and serves nothing. -/
def recorder : Environment Unit (List (UInt32 × Bytes)) where
  invoke _ _ s := ((0, []), s)
  notify command buff s := { s with world := s.world ++ [(command, buff)] }
  callback _ _ _ s := s
  doSend _ s := (false, s)
  addRef s := (false, s)
  release s := s
  closeEndpoint s := s

def recorderSide : Side Unit (List (UInt32 × Bytes)) :=
  { deletionInitiated := false, protocolReleased := false, invokeBufReady := false,
    invokeResultCode := 0, localInvBuff := [], waitCount := 0, closeCalled := 0,
    invokeResponseHandlers := [], world := [] }

def smallPackets : Config := ⟨true, 100⟩

def twoNotices : List Bytes :=
  let sent := (requestHead 2001 [7, 8, 9] 0).toBytes ++ [7, 8, 9] ++
    (requestHead 2002 [5] 0).toBytes ++ [5]
  [sent.take 20, (sent.drop 20).take 15, sent.drop 35]

theorem recvAll_twoNotices :
    (recvAll recorder smallPackets twoNotices (.fresh (.ofBytes []) recorderSide)).1 = true := by
  decide +kernel

theorem recvAll_packets_twoNotices :
    ∃ c, recvAll recorder smallPackets twoNotices (.fresh (.ofBytes []) recorderSide) = (true, c) ∧
      ∃ ps : List Packet, twoNotices.flatten = (ps.map Packet.bytes).flatten ++ c.pending ∧
        (∀ p ∈ ps, p.Accepted smallPackets) ∧ handleAll recorder ps recorderSide = (true, c.side) ∧
        (∀ p : Packet, ¬ p.bytes <+: c.pending) ∧
        c.pending.length < BucketHead2.size + max 1 smallPackets.maxPacketSize.toNat :=
  ⟨_, Prod.ext recvAll_twoNotices rfl, recvAll_packets (Prod.ext recvAll_twoNotices rfl)⟩

structure Stopped (env : Environment κ χ) (conf : Config) (s : Side κ χ) (bytes : Bytes)
    (c : Connection κ χ) (ps : List Packet) (before : Side κ χ) (rest : Bytes) : Prop where
  bytes_eq : bytes = (ps.map Packet.bytes).flatten ++ rest
  accepted : ∀ p ∈ ps, p.Accepted conf
  handled : handleAll env ps s = (true, before)
  reason : BadHead conf rest ∧ c.side = before ∨
    ∃ p : Packet, p.bytes <+: rest ∧ p.Accepted conf ∧ p.handle env before = (false, c.side)

theorem Received.recvAll_false {s : Side κ χ} {bytes : Bytes} {ps : List Packet}
    {c c' : Connection κ χ} {chunks : List Bytes}
    (h : Received env conf s bytes ps c.receiver c.cacheInBuffer)
    (hall : Levin.recvAll env conf chunks c = (false, c')) :
    ∃ done chunk, done ++ [chunk] <+: chunks ∧
      (Levin.recvAll env conf done c = (true, c') ∧ Refused conf chunk c' ∨
        ∃ ps before rest, Stopped env conf s (bytes ++ (done ++ [chunk]).flatten) c' ps before
          rest) := by
  induction chunks generalizing c bytes ps with
  | nil => cases hall
  | cons chunk chunks ih =>
      rw [Levin.recvAll] at hall
      by_cases hrefused : Refused conf chunk c
      · rw [handleRecv_refused hrefused] at hall
        obtain rfl := (Prod.mk.inj hall).2
        exact ⟨[], chunk, by simp, .inl ⟨rfl, hrefused⟩⟩
      · rcases hrecv : handleRecv env conf chunk c with ⟨ok, next⟩
        have hdrain : ended (handleRecv env conf chunk c) = _ := ended_handleRecv hrefused
        rw [hrecv] at hall hdrain
        cases ok
        · obtain rfl := (Prod.mk.inj hall).2
          obtain ⟨ps', before, rest, hps', hmove⟩ := (h.append chunk).drain_stopped hdrain.symm
          refine ⟨[], chunk, by simp, .inr ⟨ps', before.side, before.pending rest, ?_⟩⟩
          rw [List.nil_append, List.flatten_singleton]
          exact ⟨hps'.bytes_eq, hps'.accepted, hps'.handled, hps'.wellFormed.stop_cases hmove⟩
        · obtain ⟨ps₁, hps₁⟩ := (h.append chunk).drain_waiting hdrain.symm
          obtain ⟨done, last, hprefix, hlast⟩ := ih hps₁ hall
          refine ⟨chunk :: done, last, by simpa using hprefix, ?_⟩
          rw [List.cons_append, List.flatten_cons, ← List.append_assoc, Levin.recvAll, hrecv]
          exact hlast

/-- A connection that answers `false` has first handled packets of its stream in their order. It
answers so to a piece it does not look at, to a head it does not accept, and to a packet that it
cannot handle, and does nothing after that. -/
theorem recvAll_stops {head : BucketHead2} {s : Side κ χ} {c : Connection κ χ}
    {chunks : List Bytes} (h : recvAll env conf chunks (.fresh head s) = (false, c)) :
    ∃ done chunk, done ++ [chunk] <+: chunks ∧
      (recvAll env conf done (.fresh head s) = (true, c) ∧ Refused conf chunk c ∨
        ∃ ps before rest, Stopped env conf s (done ++ [chunk]).flatten c ps before rest) := by
  exact (received_fresh head s).recvAll_false h

theorem recvAll_garbage : (recvAll recorder smallPackets [(twoNotices.flatten.take 36), [0, 0, 0],
    [0, 0, 0, 0, 0]] (.fresh (.ofBytes []) recorderSide)).1 = false := by
  decide +kernel

/-- A notification, and then bytes that begin no head. -/
theorem recvAll_stops_garbage :
    ∃ c, recvAll recorder smallPackets [(twoNotices.flatten.take 36), [0, 0, 0], [0, 0, 0, 0, 0]]
        (.fresh (.ofBytes []) recorderSide) = (false, c) ∧
      ∃ done chunk, done ++ [chunk] <+: [(twoNotices.flatten.take 36), [0, 0, 0], [0, 0, 0, 0, 0]] ∧
        (recvAll recorder smallPackets done (.fresh (.ofBytes []) recorderSide) = (true, c) ∧
            Refused smallPackets chunk c ∨
          ∃ ps before rest, Stopped recorder smallPackets recorderSide (done ++ [chunk]).flatten c
            ps before rest) :=
  ⟨_, Prod.ext recvAll_garbage rfl, recvAll_stops (Prod.ext recvAll_garbage rfl)⟩

/-- A run that takes all pieces is one run of the machine on the whole stream. -/
theorem drain_of_recvAll {c c' : Connection κ χ} {chunks : List Bytes}
    (hwait : c.receiver.move env conf c.cacheInBuffer = .wait)
    (h : recvAll env conf chunks c = (true, c')) :
    (Receiver.consumer env conf).drain c.receiver (c.cacheInBuffer ++ chunks.flatten) =
      .waiting c'.receiver c'.cacheInBuffer := by
  induction chunks generalizing c with
  | nil =>
      obtain rfl := (Prod.mk.inj h).2
      rw [List.flatten_nil, List.append_nil]
      exact Consumer.drain_wait (c := Receiver.consumer env conf) hwait
  | cons chunk chunks ih =>
      rw [recvAll] at h
      rcases hrecv : handleRecv env conf chunk c with ⟨ok, next⟩
      rw [hrecv] at h
      cases ok
      · cases h
      have hdrain := drain_of_handleRecv hrecv
      rw [List.flatten_cons, ← List.append_assoc, Consumer.drain_append, hdrain, Consumer.feed]
      exact ih (Consumer.move_of_drain (c := Receiver.consumer env conf) hdrain) h

/-- Two ways to cut a stream that are both taken to the end leave the same connection. -/
theorem recvAll_congr {head : BucketHead2} {s : Side κ χ} {c d : Connection κ χ}
    {chunks pieces : List Bytes} (hcut : chunks.flatten = pieces.flatten)
    (hc : recvAll env conf chunks (.fresh head s) = (true, c))
    (hd : recvAll env conf pieces (.fresh head s) = (true, d)) : c = d := by
  have hdrain := drain_of_recvAll (move_fresh head s) hc
  rw [hcut, drain_of_recvAll (move_fresh head s) hd] at hdrain
  obtain ⟨hreceiver, hbuffer⟩ := Drained.waiting.inj hdrain
  exact (Connection.eq_of_receiver hreceiver hbuffer).symm

end XrCoin.Levin
