import Mathlib
import XrCoin.Data.Runs
import XrCoin.Wallet.HashchainRecovery

/-!
`export_blockchain` and `import_blockchain`.

The importer makes up for the hashes in front of the offset by as many copies of the genesis hash,
and trims them. A trim leaves one element, so that one copy stays in front of the first hash.
-/

namespace XrCoin.Wallet

open Cryptonote Data

namespace Hashchain

def start : Hashchain := ⟨0, nullHash, []⟩

def empty (c : Hashchain) : Bool := c.hashes = [] ∧ c.offset = 0

/-- `crop`, which does not come to an end below the offset. -/
def crop (c : Hashchain) (height : ℕ) : Hashchain :=
  if height < c.offset then c
  else
    { c with
      hashes := c.hashes.take (height - c.offset) ++
        List.replicate (height - c.offset - c.hashes.length) nullHash }

inductive Op
  | pushBack (hash : Hash)
  | trim (height : ℕ)
  | crop (height : ℕ)
  | clear

def step (c : Hashchain) : Op → Hashchain
  | .pushBack hash => c.pushBack hash
  | .trim height => c.trim height
  | .crop height => c.crop height
  | .clear => c.clear

def exportBlockchain (c : Hashchain) : ℕ × Hash × List Hash :=
  (c.offset, if c.empty then nullHash else c.genesis,
    (List.range' c.offset (c.size - c.offset)).map c.get)

def importBlockchain (genesisHash : Hash) (c : Hashchain) (bc : ℕ × Hash × List Hash) :
    Except String Hashchain :=
  let c := c.clear
  let c := if bc.1 = 0 then c else (c.pushAll (List.replicate bc.1 bc.2.1)).trim bc.1
  let c := c.pushAll bc.2.2
  if genesisHash ≠ c.genesis then .error "Genesis block mismatch" else .ok c

/-- The chain starts with the genesis block of the wallet. What was trimmed is only known by the
genesis hash. -/
structure StartsWith (genesisHash : Hash) (c : Hashchain) : Prop where
  genesis : c.genesis = genesisHash
  first : c.offset = 0 → c.hashes.head? = some genesisHash

/-- The offset, the genesis hash, the end and the hashes between offset and end are the same. -/
structure Restores (c c' : Hashchain) : Prop where
  offset : c'.offset = c.offset
  genesis : c'.genesis = c.genesis
  size : c'.size = c.size
  hashes : ∀ i, c.offset ≤ i → i < c.size → c'.get i = c.get i

/-! ### Exporting and importing -/

theorem exportBlockchain_hashes (c : Hashchain) : c.exportBlockchain.2.2 = c.hashes := by
  apply List.ext_getElem
  · simp [exportBlockchain, size]
  · intro i hi hi'
    simp [exportBlockchain, get, List.getElem?_eq_getElem hi']

theorem pushAll_cons (c : Hashchain) (hash : Hash) (hashes : List Hash) :
    c.pushAll (hash :: hashes) = (c.pushBack hash).pushAll hashes := rfl

theorem pushAll_of_nonempty {c : Hashchain} (h : c.hashes ≠ []) (hashes : List Hash) :
    c.pushAll hashes = { c with hashes := c.hashes ++ hashes } := by
  induction hashes generalizing c with
  | nil => simp [pushAll]
  | cons hash hashes ih =>
      have hpush : c.pushBack hash = { c with hashes := c.hashes ++ [hash] } := by
        rw [pushBack, if_neg fun hc => h hc.2]
      rw [pushAll_cons, hpush, ih (by simp)]
      simp

/-- Filling a cleared chain takes the genesis hash from the first one. -/
theorem pushAll_clear (c : Hashchain) (hash : Hash) (hashes : List Hash) :
    c.clear.pushAll (hash :: hashes) = ⟨0, hash, hash :: hashes⟩ := by
  have hpush : c.clear.pushBack hash = ⟨0, hash, [hash]⟩ := by simp [clear, pushBack]
  rw [pushAll_cons, hpush, pushAll_of_nonempty (by simp)]
  rfl

theorem trimLoop_replicate (hash : Hash) (offset n : ℕ) :
    trimLoop (offset + n + 1) offset (List.replicate (n + 1) hash) = (offset + n, [hash]) := by
  induction n generalizing offset with
  | zero => rfl
  | succ n ih =>
      rw [List.replicate_succ, List.replicate_succ, trimLoop, if_pos (by omega)]
      have hnext := ih (offset + 1)
      rw [List.replicate_succ] at hnext
      have hheight : offset + (n + 1) + 1 = offset + 1 + n + 1 := by omega
      rw [hheight, hnext]
      congr 1
      omega

theorem importBlockchain_offset (c₀ : Hashchain) {genesisHash : Hash} {c : Hashchain}
    (hstart : c.StartsWith genesisHash) {n : ℕ} (hoffset : c.offset = n + 1) :
    importBlockchain genesisHash c₀ c.exportBlockchain =
      .ok ⟨n, genesisHash, genesisHash :: c.hashes⟩ := by
  have hgenesis : c.exportBlockchain.2.1 = genesisHash := by
    simp [exportBlockchain, empty, hoffset, hstart.genesis]
  have hfill : c₀.clear.pushAll (List.replicate (n + 1) genesisHash) =
      ⟨0, genesisHash, List.replicate (n + 1) genesisHash⟩ := by
    rw [List.replicate_succ]
    exact pushAll_clear ..
  have htrim : (Hashchain.mk 0 genesisHash (List.replicate (n + 1) genesisHash)).trim (n + 1) =
      ⟨n, genesisHash, [genesisHash]⟩ := by
    have hloop := trimLoop_replicate genesisHash 0 n
    rw [Nat.zero_add] at hloop
    rw [trim, hloop]
  have hnonzero : c.exportBlockchain.1 = n + 1 := hoffset
  rw [importBlockchain, hgenesis, hnonzero, exportBlockchain_hashes, if_neg (Nat.succ_ne_zero n),
    hfill, htrim, pushAll_of_nonempty (by simp)]
  simp

/-- Without an offset an import of an export gives the same chain. -/
theorem importBlockchain_zero (c₀ : Hashchain) {genesisHash : Hash} {c : Hashchain}
    (hstart : c.StartsWith genesisHash) (hoffset : c.offset = 0) :
    importBlockchain genesisHash c₀ c.exportBlockchain = .ok c := by
  obtain ⟨rest, hrest⟩ := List.head?_eq_some_iff.mp (hstart.first hoffset)
  have hnone : c.exportBlockchain.1 = 0 := hoffset
  have hsame : c = ⟨0, genesisHash, genesisHash :: rest⟩ := by
    have hgenesis := hstart.genesis
    cases c
    simp_all
  rw [importBlockchain, hnone, exportBlockchain_hashes, if_pos rfl, hrest, pushAll_clear]
  simp [hsame]

/-- A chain comes back from an export exactly when it has no offset. -/
theorem importExport_iff (genesisHash : Hash) (c c₀ : Hashchain)
    (hstart : c.StartsWith genesisHash) :
    (∃ c', importBlockchain genesisHash c₀ c.exportBlockchain = .ok c' ∧ c.Restores c') ↔
      c.offset = 0 := by
  constructor
  · rintro ⟨c', himport, hrestores⟩
    cases hoffset : c.offset with
    | zero => rfl
    | succ n =>
        rw [importBlockchain_offset c₀ hstart hoffset] at himport
        obtain rfl := Except.ok.inj himport
        have hsame := hrestores.offset
        rw [hoffset] at hsame
        exact absurd hsame (Nat.ne_of_lt (Nat.lt_succ_self n))
  · intro hoffset
    exact ⟨c, importBlockchain_zero c₀ hstart hoffset, rfl, rfl, rfl, fun _ _ _ => rfl⟩

def trimmedPair : Hashchain :=
  run step start [.pushBack (List.Vector.replicate 32 1), .pushBack (List.Vector.replicate 32 2),
    .trim 1]

theorem trimmedPair_startsWith : trimmedPair.StartsWith (List.Vector.replicate 32 1) :=
  ⟨by decide, by decide⟩

/-- The import has the offset 0, and the genesis hash in the place of the first one. -/
theorem trimmedPair_not_restored :
    trimmedPair = ⟨1, List.Vector.replicate 32 1, [List.Vector.replicate 32 2]⟩ ∧
      ¬∃ c', importBlockchain (List.Vector.replicate 32 1) start trimmedPair.exportBlockchain =
        .ok c' ∧ trimmedPair.Restores c' := by
  refine ⟨by decide, ?_⟩
  rintro ⟨c', himport, hrestores⟩
  have hoffset : trimmedPair.offset = 0 + 1 := by decide
  rw [importBlockchain_offset start trimmedPair_startsWith hoffset] at himport
  obtain rfl := Except.ok.inj himport
  exact absurd hrestores.offset (by decide)

/-- The same chain with nothing trimmed comes back. -/
def wholePair : Hashchain :=
  run step start [.pushBack (List.Vector.replicate 32 1), .pushBack (List.Vector.replicate 32 2)]

theorem importExport_pairs :
    (∃ c', importBlockchain (List.Vector.replicate 32 1) start wholePair.exportBlockchain =
        .ok c' ∧ wholePair.Restores c') ∧
      ¬∃ c', importBlockchain (List.Vector.replicate 32 1) start trimmedPair.exportBlockchain =
        .ok c' ∧ trimmedPair.Restores c' :=
  ⟨(importExport_iff _ wholePair start ⟨by decide, by decide⟩).mpr (by decide),
    (importExport_iff _ trimmedPair start trimmedPair_startsWith).not.mpr (by decide)⟩

end Hashchain

end XrCoin.Wallet
