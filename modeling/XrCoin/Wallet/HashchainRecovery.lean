import Mathlib
import XrCoin.Wallet.Scan

/-!
The chain of hashes of a wallet and its recovery in `refresh`: when the daemon sends blocks that
are out of its bounds it is cleared, filled up to its old beginning by `fast_refresh`, and the
old hashes are put behind.

The short history that goes with the requests is left out: the daemon answers what it likes. The
answers are a list that ends when the wallet is told to stop.
-/

namespace XrCoin.Wallet

open Cryptonote

structure Hashchain where
  offset : ℕ
  genesis : Hash
  hashes : List Hash
  deriving DecidableEq

namespace Hashchain

def size (c : Hashchain) : ℕ := c.hashes.length + c.offset

def get (c : Hashchain) (i : ℕ) : Hash := c.hashes.getD (i - c.offset) nullHash

def pushBack (c : Hashchain) (hash : Hash) : Hashchain :=
  { c with
    genesis := if c.offset = 0 ∧ c.hashes = [] then hash else c.genesis
    hashes := c.hashes ++ [hash] }

def clear (c : Hashchain) : Hashchain := { c with offset := 0, hashes := [] }

def pushAll (c : Hashchain) (hashes : List Hash) : Hashchain := hashes.foldl pushBack c

def trimLoop (height : ℕ) : ℕ → List Hash → ℕ × List Hash
  | offset, hash :: next :: hashes =>
      if offset < height then trimLoop height (offset + 1) (next :: hashes)
      else (offset, hash :: next :: hashes)
  | offset, hashes => (offset, hashes)

def trim (c : Hashchain) (height : ℕ) : Hashchain :=
  let trimmed := trimLoop height c.offset c.hashes
  { c with offset := trimmed.1, hashes := trimmed.2 }

end Hashchain

structure HashesReply where
  startHeight : ℕ
  hashes : List Hash

/-- The loop over the hashes of an answer, with the index where it goes on unless the whole
refresh ends. -/
def takeHashes (stopHeight : ℕ) : List Hash → ℕ → Hashchain → Hashchain × Option ℕ
  | [], currentIndex, c => (c, some currentIndex)
  | blId :: hashes, currentIndex, c =>
      let next := (currentIndex + 1) % 2 ^ 64
      if c.size ≤ currentIndex then
        if stopHeight ≤ next then (c.pushBack blId, none)
        else takeHashes stopHeight hashes next (c.pushBack blId)
      else if blId ≠ c.get currentIndex then (c, none)
      else if stopHeight ≤ next then (c, none)
      else takeHashes stopHeight hashes next c

/-- The loop of `fast_refresh`. No answer is an exception. -/
def fastRefreshLoop (stopHeight : ℕ) :
    List (Option HashesReply) → ℕ → Hashchain → Hashchain × Except String Unit
  | [], _, c => (c, .ok ())
  | reply :: replies, currentIndex, c =>
      if stopHeight ≤ currentIndex then (c, .ok ())
      else
        match reply with
        | none => (c, .error "no_connection_to_daemon")
        | some reply =>
            if reply.hashes.length ≤ 3 then (c, .ok ())
            else if reply.startHeight < c.offset then (c, .ok ())
            else
              match takeHashes stopHeight reply.hashes reply.startHeight c with
              | (c, none) => (c, .ok ())
              | (c, some currentIndex) => fastRefreshLoop stopHeight replies currentIndex c

structure LastCheckpoint where
  height : ℕ
  hash : Hash

def fastRefresh (checkpoint : LastCheckpoint) (stopHeight : ℕ) (force : Bool)
    (replies : List (Option HashesReply)) (c : Hashchain) : Hashchain × Except String Unit :=
  let c :=
    if checkpoint.height < stopHeight ∧ 0 < c.size ∧ c.size - 1 < checkpoint.height ∧
        force = false then
      ((c.pushAll (List.replicate (checkpoint.height - c.size) nullHash)).pushBack
        checkpoint.hash).trim checkpoint.height
    else c
  fastRefreshLoop stopHeight replies c.size c

def resetChain (genesisHash : Hash) (c : Hashchain) : Hashchain := c.clear.pushBack genesisHash

/-- The recovery of `refresh`, up to the exception with which it loops again. -/
def recoverHashchain (checkpoint : LastCheckpoint) (genesisHash : Hash)
    (replies : List (Option HashesReply)) (c : Hashchain) : Hashchain × Except String Unit :=
  let stopHeight := c.offset
  let tip := c.hashes
  match fastRefresh checkpoint stopHeight true replies (resetChain genesisHash c) with
  | (c, .error e) => (c, .error e)
  | (c, .ok _) =>
      if c.size ≠ stopHeight then (c, .error "Unexpected hashchain size")
      else if c.offset ≠ 0 then (c, .error "Unexpected hashchain offset")
      else (c.pushAll tip, .ok ())

/-! ### What the recovery leaves -/

/-- The recovery leaves the chain alone, or it completes: the chain begins at the genesis block
and has the old hashes at their old heights. -/
structure RecoveryAtomic (checkpoint : LastCheckpoint) (genesisHash : Hash)
    (replies : List (Option HashesReply)) (c : Hashchain) : Prop where
  unchanged : ∀ e c', recoverHashchain checkpoint genesisHash replies c = (c', .error e) → c' = c
  completed : ∀ c', recoverHashchain checkpoint genesisHash replies c = (c', .ok ()) →
    c'.offset = 0 ∧ c'.genesis = genesisHash ∧ c'.get 0 = genesisHash ∧ c'.size = c.size ∧
      ∀ i, c.offset ≤ i → i < c.size → c'.get i = c.get i

/-- The daemon brings the hashes below the old beginning of the chain, and no more. -/
def BringsHashes (checkpoint : LastCheckpoint) (genesisHash : Hash)
    (replies : List (Option HashesReply)) (c : Hashchain) : Prop :=
  ∃ c', fastRefresh checkpoint c.offset true replies (resetChain genesisHash c) = (c', .ok ()) ∧
    c'.size = c.offset

structure FromGenesis (genesisHash : Hash) (c : Hashchain) : Prop where
  offset : c.offset = 0
  genesis : c.genesis = genesisHash
  first : ∃ rest, c.hashes = genesisHash :: rest

theorem FromGenesis.pushBack {genesisHash : Hash} {c : Hashchain} (h : FromGenesis genesisHash c)
    (hash : Hash) : FromGenesis genesisHash (c.pushBack hash) := by
  obtain ⟨rest, hrest⟩ := h.first
  refine ⟨h.offset, ?_, rest ++ [hash], ?_⟩
  · rw [Hashchain.pushBack, hrest]
    simpa using h.genesis
  · rw [Hashchain.pushBack, hrest]
    rfl

theorem fromGenesis_resetChain (genesisHash : Hash) (c : Hashchain) :
    FromGenesis genesisHash (resetChain genesisHash c) := by
  refine ⟨rfl, ?_, [], rfl⟩
  simp [resetChain, Hashchain.clear, Hashchain.pushBack]

theorem FromGenesis.takeHashes {genesisHash : Hash} {c : Hashchain}
    (h : FromGenesis genesisHash c) (stopHeight : ℕ) (hashes : List Hash) (currentIndex : ℕ) :
    FromGenesis genesisHash (takeHashes stopHeight hashes currentIndex c).1 := by
  induction hashes generalizing currentIndex c with
  | nil => exact h
  | cons blId hashes ih =>
      rw [Wallet.takeHashes]
      split_ifs
      · exact h.pushBack blId
      · exact ih (h.pushBack blId) _
      · exact h
      · exact h
      · exact ih h _

theorem FromGenesis.fastRefreshLoop {genesisHash : Hash} {c : Hashchain}
    (h : FromGenesis genesisHash c) (stopHeight : ℕ) (replies : List (Option HashesReply))
    (currentIndex : ℕ) :
    FromGenesis genesisHash (fastRefreshLoop stopHeight replies currentIndex c).1 := by
  induction replies generalizing currentIndex c with
  | nil => exact h
  | cons reply replies ih =>
      cases reply with
      | none =>
          rw [Wallet.fastRefreshLoop]
          split_ifs
          · exact h
          · exact h
      | some reply =>
          rw [Wallet.fastRefreshLoop]
          have htaken := h.takeHashes stopHeight reply.hashes reply.startHeight
          split_ifs
          · exact h
          · exact h
          · exact h
          · rcases hresult : Wallet.takeHashes stopHeight reply.hashes reply.startHeight c with
              ⟨c', _ | currentIndex'⟩
            · rw [hresult] at htaken
              exact htaken
            · rw [hresult] at htaken
              exact ih htaken _

theorem FromGenesis.pushAll {genesisHash : Hash} {c : Hashchain} (h : FromGenesis genesisHash c)
    (hashes : List Hash) :
    FromGenesis genesisHash (c.pushAll hashes) ∧ (c.pushAll hashes).hashes = c.hashes ++ hashes := by
  induction hashes generalizing c with
  | nil => exact ⟨h, (List.append_nil _).symm⟩
  | cons hash hashes ih =>
      obtain ⟨hfrom, heq⟩ := ih (h.pushBack hash)
      refine ⟨hfrom, ?_⟩
      change ((c.pushBack hash).pushAll hashes).hashes = _
      rw [heq, Hashchain.pushBack, List.append_assoc]
      rfl

/-- Below no old beginning there is nothing to ask for. -/
theorem fastRefresh_zero (checkpoint : LastCheckpoint) (replies : List (Option HashesReply))
    (c : Hashchain) : fastRefresh checkpoint 0 true replies c = (c, .ok ()) := by
  rw [fastRefresh, if_neg (fun h => Nat.not_lt_zero _ h.1)]
  cases replies with
  | nil => rfl
  | cons reply replies => cases reply <;> rw [fastRefreshLoop, if_pos (Nat.zero_le _)]

theorem fromGenesis_fastRefresh (checkpoint : LastCheckpoint) (genesisHash : Hash)
    (stopHeight : ℕ) (replies : List (Option HashesReply)) (c : Hashchain) :
    FromGenesis genesisHash
      (fastRefresh checkpoint stopHeight true replies (resetChain genesisHash c)).1 := by
  rw [fastRefresh, if_neg (fun h => absurd h.2.2.2 (by decide))]
  exact (fromGenesis_resetChain genesisHash c).fastRefreshLoop _ _ _

/-- The recovery does what `fast_refresh` does, and completes if that brings the hashes. -/
theorem recoverHashchain_cases (checkpoint : LastCheckpoint) (genesisHash : Hash)
    (replies : List (Option HashesReply)) (c : Hashchain) :
    ∃ c', FromGenesis genesisHash c' ∧
      (fastRefresh checkpoint c.offset true replies (resetChain genesisHash c)).1 = c' ∧
      ((BringsHashes checkpoint genesisHash replies c ∧ c'.size = c.offset ∧
          recoverHashchain checkpoint genesisHash replies c = (c'.pushAll c.hashes, .ok ())) ∨
        ¬BringsHashes checkpoint genesisHash replies c ∧
          ∃ e, recoverHashchain checkpoint genesisHash replies c = (c', .error e)) := by
  have hfrom := fromGenesis_fastRefresh checkpoint genesisHash c.offset replies c
  rw [recoverHashchain, BringsHashes]
  generalize fastRefresh checkpoint c.offset true replies (resetChain genesisHash c) = result
    at hfrom ⊢
  obtain ⟨c', e | _⟩ := result
  · refine ⟨c', hfrom, rfl, .inr ⟨?_, e, rfl⟩⟩
    rintro ⟨c'', heq, -⟩
    cases heq
  · refine ⟨c', hfrom, rfl, ?_⟩
    dsimp only
    by_cases hsize : c'.size = c.offset
    · rw [if_neg (not_not.mpr hsize), if_neg (not_not.mpr hfrom.offset)]
      exact .inl ⟨⟨c', rfl, hsize⟩, hsize, rfl⟩
    · rw [if_pos hsize]
      refine .inr ⟨?_, _, rfl⟩
      rintro ⟨c'', heq, hsize'⟩
      cases heq
      exact hsize hsize'

/-- The recovery is atomic exactly where the daemon brings the hashes that are missing, or where
there was nothing but the genesis block. -/
theorem recoveryAtomic_iff (checkpoint : LastCheckpoint) (genesisHash : Hash)
    (replies : List (Option HashesReply)) (c : Hashchain) :
    RecoveryAtomic checkpoint genesisHash replies c ↔
      BringsHashes checkpoint genesisHash replies c ∨ c = ⟨0, genesisHash, [genesisHash]⟩ := by
  obtain ⟨c', hfrom, hrefresh, hcases⟩ :=
    recoverHashchain_cases checkpoint genesisHash replies c
  rcases hcases with ⟨hbrings, hsize, hresult⟩ | ⟨hnot, e, hresult⟩
  · refine iff_of_true ⟨?_, ?_⟩ (.inl hbrings)
    · intro e c'' heq
      rw [hresult] at heq
      cases heq
    · intro c'' heq
      rw [hresult] at heq
      obtain rfl : c'.pushAll c.hashes = c'' := congrArg Prod.fst heq
      obtain ⟨hall, hhashes⟩ := hfrom.pushAll c.hashes
      have hlength : c'.hashes.length = c.offset := by
        rw [Hashchain.size, hfrom.offset] at hsize
        exact hsize
      refine ⟨hall.offset, hall.genesis, ?_, ?_, ?_⟩
      · obtain ⟨rest, hrest⟩ := hall.first
        rw [Hashchain.get, hrest, hall.offset]
        rfl
      · rw [Hashchain.size, Hashchain.size, hhashes, hall.offset, List.length_append, hlength]
        omega
      · intro i hi _
        rw [Hashchain.get, Hashchain.get, hhashes, hall.offset, Nat.sub_zero,
          List.getD_append_right _ _ _ _ (by omega), hlength]
  · rw [or_iff_right hnot]
    constructor
    · intro hatomic
      have hsame := hatomic.unchanged e c' hresult
      rw [hsame] at hfrom hrefresh
      rw [hfrom.offset, fastRefresh_zero] at hrefresh
      rw [← hrefresh]
      rfl
    · rintro rfl
      rw [fastRefresh_zero] at hrefresh
      refine ⟨?_, ?_⟩
      · intro e' c'' heq
        rw [hresult] at heq
        obtain rfl : c' = c'' := congrArg Prod.fst heq
        rw [← hrefresh]
        rfl
      · intro c'' heq
        rw [hresult] at heq
        cases heq

/-- Two hashes from height one on, and a daemon that cannot be reached. -/
theorem unreachedDaemon_not_atomic :
    ¬RecoveryAtomic ⟨0, nullHash⟩ nullHash [none]
      ⟨2, nullHash, [List.Vector.replicate 32 1, List.Vector.replicate 32 2]⟩ := by
  intro h
  have hsame := h.unchanged "no_connection_to_daemon" ⟨0, nullHash, [nullHash]⟩ rfl
  exact absurd (congrArg Hashchain.offset hsame) (by decide)

end XrCoin.Wallet
