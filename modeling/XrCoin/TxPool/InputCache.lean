import Mathlib
import XrCoin.Blockchain.RingSizes
import XrCoin.Data.Runs

/-!
The pool's cache of checked inputs.

An answer of the chain is kept under the id of the transaction until a block comes or goes. What
the chain is asked for is a parameter, which a chain change replaces. The table of scanned outputs
belongs to it: it is empty outside the preparation of blocks, during which the pool is locked.
-/

namespace XrCoin.TxPool

open Archive Cryptonote Blockchain Data

/-! ### The check of the chain -/

structure InputChain where
  view : InputsView
  /-- `get_block_hash_from_height`, for a block that there is. -/
  blockHash : ℕ → Hash
  /-- Whether the block to come has a precompiled hash, in `m_blocks_hash_check`. -/
  precompiled : Bool

/-- What a check leaves: its answer with the flag that it set, and the greatest height of a ring
member with the id of the block there. -/
structure CheckedInputs where
  ret : Bool
  flag : Option InputsFailure
  maxUsedBlockHeight : UInt64
  maxUsedBlockId : Hash

/-- The answers agree, and so do the height and the id where the inputs are accepted. -/
def CheckedInputs.Same (checked direct : CheckedInputs) : Prop :=
  checked.ret = direct.ret ∧ checked.flag = direct.flag ∧
    (direct.ret = true → checked.maxUsedBlockHeight = direct.maxUsedBlockHeight ∧
      checked.maxUsedBlockId = direct.maxUsedBlockId)

section Check

variable (rules : InputRules) (sigs : SignatureOps) (ops : CryptoOps) (cfg : Config)

/-- `Blockchain::check_tx_inputs` as the pool calls it. The id stays where the inputs are
refused. -/
def blockchainCheckTxInputs (chain : InputChain) (tx : Transaction) (maxUsedBlockId : Hash)
    (keptByBlock : Bool) : CheckedInputs :=
  if chain.precompiled = true ∧ keptByBlock = true then ⟨true, none, 0, nullHash⟩
  else
    match Blockchain.checkTxInputs rules chain.view sigs ops cfg tx with
    | (.error failure, height) => ⟨false, some failure, height.toUInt64, maxUsedBlockId⟩
    | (.ok _, height) =>
        if height < chain.view.height then
          ⟨true, none, height.toUInt64, chain.blockHash height⟩
        else ⟨false, none, height.toUInt64, maxUsedBlockId⟩

theorem blockchainCheckTxInputs_same (chain : InputChain) (tx : Transaction) (id id' : Hash)
    (keptByBlock : Bool) :
    (blockchainCheckTxInputs rules sigs ops cfg chain tx id keptByBlock).Same
      (blockchainCheckTxInputs rules sigs ops cfg chain tx id' keptByBlock) := by
  rw [blockchainCheckTxInputs, blockchainCheckTxInputs]
  split
  · exact ⟨rfl, rfl, fun _ => ⟨rfl, rfl⟩⟩
  · split
    · refine ⟨rfl, rfl, fun h => ?_⟩
      cases h
    · split
      · exact ⟨rfl, rfl, fun _ => ⟨rfl, rfl⟩⟩
      · refine ⟨rfl, rfl, fun h => ?_⟩
        cases h

/-! ### The cache -/

abbrev InputCache : Type := Hash → Option CheckedInputs

structure CheckCall where
  tx : Transaction
  txid : Hash
  maxUsedBlockId : Hash
  keptByBlock : Bool

def checkTxInputs (chain : InputChain) (cache : InputCache) (call : CheckCall) :
    CheckedInputs × InputCache :=
  let ret := blockchainCheckTxInputs rules sigs ops cfg chain call.tx call.maxUsedBlockId
    call.keptByBlock
  if call.keptByBlock then (ret, cache)
  else
    match cache call.txid with
    | some cached => (cached, cache)
    | none => (ret, Function.update cache call.txid (some ret))

/-- Each entry is what the chain says of the transaction with that id. -/
def CacheAgrees (txOf : Hash → Transaction) (chain : InputChain) (cache : InputCache) : Prop :=
  ∀ txid cached, cache txid = some cached → ∀ id,
    cached.Same (blockchainCheckTxInputs rules sigs ops cfg chain (txOf txid) id false)

variable {rules sigs ops cfg} {txOf : Hash → Transaction} {chain : InputChain} {cache : InputCache}

/-- With a cache that agrees, a call leaves what the chain says. -/
theorem checkTxInputs_same (hcache : CacheAgrees rules sigs ops cfg txOf chain cache)
    {call : CheckCall} (htx : call.tx = txOf call.txid) :
    (checkTxInputs rules sigs ops cfg chain cache call).1.Same
      (blockchainCheckTxInputs rules sigs ops cfg chain call.tx call.maxUsedBlockId
        call.keptByBlock) := by
  rw [checkTxInputs]
  by_cases hkept : call.keptByBlock = true
  · rw [if_pos hkept]
    exact ⟨rfl, rfl, fun _ => ⟨rfl, rfl⟩⟩
  · rw [if_neg hkept]
    cases hfound : cache call.txid with
    | none => exact ⟨rfl, rfl, fun _ => ⟨rfl, rfl⟩⟩
    | some cached =>
        rw [Bool.not_eq_true] at hkept
        rw [hkept, htx]
        exact hcache call.txid cached hfound call.maxUsedBlockId

theorem checkTxInputs_agrees (hcache : CacheAgrees rules sigs ops cfg txOf chain cache)
    {call : CheckCall} (htx : call.tx = txOf call.txid) :
    CacheAgrees rules sigs ops cfg txOf chain
      (checkTxInputs rules sigs ops cfg chain cache call).2 := by
  rw [checkTxInputs]
  by_cases hkept : call.keptByBlock = true
  · rw [if_pos hkept]
    exact hcache
  · rw [if_neg hkept]
    cases hfound : cache call.txid with
    | some cached => exact hcache
    | none =>
        intro txid cached hcached id
        dsimp only at hcached
        by_cases hid : txid = call.txid
        · subst hid
          rw [Function.update_self] at hcached
          obtain rfl := Option.some.inj hcached
          rw [Bool.not_eq_true] at hkept
          rw [hkept, ← htx]
          exact blockchainCheckTxInputs_same ..
        · rw [Function.update_of_ne hid] at hcached
          exact hcache txid cached hcached id

/-! ### Runs -/

/-- The chain and the cache. `behind` is a history: the chain has changed and the pool has not
been told yet. -/
structure CachedChain where
  chain : InputChain
  cache : InputCache
  behind : Bool

inductive CacheOp
  /-- The database adds or pops a block. -/
  | changeChain (chain : InputChain)
  | onBlockchainInc
  | onBlockchainDec
  | checkTxInputs (call : CheckCall)

variable (rules sigs ops cfg) in
def CachedChain.step (s : CachedChain) : CacheOp → CachedChain
  | .changeChain chain => ⟨chain, s.cache, true⟩
  | .onBlockchainInc => ⟨s.chain, fun _ => none, false⟩
  | .onBlockchainDec => ⟨s.chain, fun _ => none, false⟩
  | .checkTxInputs call =>
      ⟨s.chain, (TxPool.checkTxInputs rules sigs ops cfg s.chain s.cache call).2, s.behind⟩

/-- The id of a call identifies its transaction, and the pool has been told of the chain. Popping a
block returns its transactions to the pool before it tells of the change, as kept by a block. -/
def CacheOp.Allowed (txOf : Hash → Transaction) : CacheOp → CachedChain → Prop
  | .checkTxInputs call, s =>
      call.tx = txOf call.txid ∧ (s.behind = false ∨ call.keptByBlock = true)
  | _, _ => True

def CachedChain.Agrees (rules : InputRules) (sigs : SignatureOps) (ops : CryptoOps) (cfg : Config)
    (txOf : Hash → Transaction) (s : CachedChain) : Prop :=
  s.behind = false → CacheAgrees rules sigs ops cfg txOf s.chain s.cache

theorem CachedChain.step_agrees {s : CachedChain} {op : CacheOp}
    (hs : s.Agrees rules sigs ops cfg txOf) (hop : op.Allowed txOf s) :
    (s.step rules sigs ops cfg op).Agrees rules sigs ops cfg txOf := by
  cases op with
  | changeChain chain => exact fun h => by cases h
  | onBlockchainInc => exact fun _ _ _ h => by cases h
  | onBlockchainDec => exact fun _ _ _ h => by cases h
  | checkTxInputs call => exact fun h => checkTxInputs_agrees (hs h) hop.1

def CachedChain.start (chain : InputChain) : CachedChain := ⟨chain, fun _ => none, false⟩

/-- After any run, a call with the cache leaves what a call of the chain as it is then leaves. -/
theorem inputCache_transparent (rules : InputRules) (sigs : SignatureOps) (ops : CryptoOps)
    (cfg : Config) (txOf : Hash → Transaction) (chain : InputChain) (steps : List CacheOp)
    (call : CheckCall)
    (hsteps : Throughout (CachedChain.step rules sigs ops cfg) (CacheOp.Allowed txOf)
      (.start chain) steps)
    (hcall : CacheOp.Allowed txOf (.checkTxInputs call)
      (run (CachedChain.step rules sigs ops cfg) (.start chain) steps)) :
    (checkTxInputs rules sigs ops cfg
        (run (CachedChain.step rules sigs ops cfg) (.start chain) steps).chain
        (run (CachedChain.step rules sigs ops cfg) (.start chain) steps).cache call).1.Same
      (blockchainCheckTxInputs rules sigs ops cfg
        (run (CachedChain.step rules sigs ops cfg) (.start chain) steps).chain call.tx
        call.maxUsedBlockId call.keptByBlock) := by
  have hagrees : (run (CachedChain.step rules sigs ops cfg) (.start chain) steps).Agrees
      rules sigs ops cfg txOf := by
    apply hsteps.invariant
    · exact fun _ _ _ h => by cases h
    · exact fun s op _ hs hop => CachedChain.step_agrees hs hop
  rcases hcall.2 with hknown | hkept
  · exact checkTxInputs_same (hagrees hknown) hcall.1
  · rw [checkTxInputs, if_pos hkept]
    exact ⟨rfl, rfl, fun _ => ⟨rfl, rfl⟩⟩

end Check

/-- A chain with ten outputs of each amount, whose blocks have their height as id. -/
def numberedChain (version : UInt8) : InputChain where
  view := { tenOutputs with hfVersion := version }
  blockHash n := ⟨leBytes 32 n, leBytes_length 32 n⟩
  precompiled := false

def threeRingsCall (keptByBlock : Bool) : CheckCall :=
  ⟨twoRingsTx threeOffsets threeOffsets, nullHash, nullHash, keptByBlock⟩

theorem inputCache_transparent_threeRings :
    (checkTxInputs fixedRules signedRings inertOps currentConfig
        (run (CachedChain.step fixedRules signedRings inertOps currentConfig)
          (.start (numberedChain 6)) [.checkTxInputs (threeRingsCall false),
            .changeChain (numberedChain 7), .checkTxInputs (threeRingsCall true),
            .onBlockchainDec, .checkTxInputs (threeRingsCall false)]).chain
        (run (CachedChain.step fixedRules signedRings inertOps currentConfig)
          (.start (numberedChain 6)) [.checkTxInputs (threeRingsCall false),
            .changeChain (numberedChain 7), .checkTxInputs (threeRingsCall true),
            .onBlockchainDec, .checkTxInputs (threeRingsCall false)]).cache
        (threeRingsCall false)).1.Same
      (blockchainCheckTxInputs fixedRules signedRings inertOps currentConfig (numberedChain 7)
        (threeRingsCall false).tx nullHash false) :=
  inputCache_transparent fixedRules signedRings inertOps currentConfig
    (fun _ => twoRingsTx threeOffsets threeOffsets) (numberedChain 6) _ (threeRingsCall false)
    ⟨⟨rfl, .inl rfl⟩, trivial, ⟨rfl, .inr rfl⟩, trivial, ⟨rfl, .inl rfl⟩, trivial⟩
    ⟨rfl, .inl rfl⟩

end XrCoin.TxPool
