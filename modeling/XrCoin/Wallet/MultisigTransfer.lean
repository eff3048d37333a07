import Mathlib
import XrCoin.Common.Combinator
import XrCoin.Data.Serving
import XrCoin.Wallet.MultisigImport

/-!
The multisig part of `transfer_selected_rct`: the transaction is made in one version for every choice
of signers that are left out, and every version takes one pair of commitments from each of the others
for each of its inputs.

No pair is taken twice. A signer exports as many pairs as there can be versions.
-/

namespace XrCoin.Wallet

open Archive Cryptonote Data Common

structure MultisigKLRki where
  k : Key
  l : Key
  r : Key
  ki : Key

structure SpendTransfer where
  publicKey : PublicKey
  keyImage : KeyImage
  multisigInfo : List MultisigInfo

structure MultisigSpender where
  signers : List PublicKey
  threshold : ℕ
  signer : PublicKey
  transfers : List SpendTransfer

structure PointOps where
  generateMultisigLR : PublicKey → Key → Key × Key
  addKeys : Key → Key → Option Key

variable (ops : PointOps) (w : MultisigSpender)

/-! ### The pairs of one input -/

def getMultisigKLRki (td : SpendTransfer) (k : Key) : MultisigKLRki :=
  ⟨k, (ops.generateMultisigLR td.publicKey k).1, (ops.generateMultisigLR td.publicKey k).2,
    td.keyImage⟩

def addLR (kLRki : MultisigKLRki) (lr : LR) : Except String MultisigKLRki := do
  let l ← orThrow (ops.addKeys kLRki.l lr.l) "ge_frombytes_vartime failed"
  let r ← orThrow (ops.addKeys kLRki.r lr.r) "ge_frombytes_vartime failed"
  return { kLRki with l, r }

/-- The body of the loop over the infos, with the number of signers that are used. The state is
`used_L`, in the order of insertion. -/
def pickLR (ignoreSet : Finset PublicKey) (picked : MultisigKLRki × ℕ) (p : MultisigInfo) :
    Throwing (List Key) (MultisigKLRki × ℕ) :=
  if p.signer ∈ ignoreSet then pure picked
  else do
    let usedL ← Throwing.get
    match p.lr.find? fun lr => decide (lr.l ∉ usedL) with
    | none => pure picked
    | some lr => do
        Throwing.modify (· ++ [lr.l])
        let kLRki ← Throwing.lift (addLR ops picked.1 lr)
        pure (kLRki, picked.2 + 1)

def getMultisigCompositeKLRki (k : Key) (n : ℕ) (ignoreSet : Finset PublicKey) :
    Throwing (List Key) MultisigKLRki := do
  let td ← Throwing.lift (orThrow w.transfers[n]? "Bad transfer index")
  let picked ← Throwing.loop (pickLR ops ignoreSet) td.multisigInfo (getMultisigKLRki ops td k, 1)
  Throwing.throwIf (picked.2 < w.threshold) "LR not found for enough participants"
  pure picked.1

/-! ### The versions -/

def availableSigners : List PublicKey :=
  w.signers.filter fun signer =>
    decide (signer ≠ w.signer ∧
      ∃ td ∈ w.transfers.head?, ∃ i ∈ td.multisigInfo, i.signer = signer)

def getIgnoreSets : Except String (List (Finset PublicKey)) :=
  if w.transfers = [] then .ok []
  else do
    let multisigSigners := availableSigners w
    let nAvailableSigners := 1 + multisigSigners.length
    throwIf (nAvailableSigners < w.threshold) "multisig_import_needed"
    if w.threshold < nAvailableSigners then do
      let combinations ← combine multisigSigners (multisigSigners.length + 1 - w.threshold)
      return combinations.map List.toFinset
    else return []

def versionSets (ignoreSets : List (Finset PublicKey)) : List (Finset PublicKey) :=
  ignoreSets.headD ∅ :: if w.threshold < w.signers.length then ignoreSets.tail else []

/-- One version: the pairs of its inputs. What is made of them, with all that can go wrong, is a
parameter. -/
def createVersion (skGen : ℕ → ℕ → Key)
    (construct : ℕ → List MultisigKLRki → Except String Unit) (selectedTransfers : List ℕ)
    (versions : List (List MultisigKLRki)) (version : Finset PublicKey × ℕ) :
    Throwing (List Key) (List (List MultisigKLRki)) := do
  let sources ← Throwing.loop (fun sources idx => do
    let kLRki ← getMultisigCompositeKLRki ops w (skGen version.2 idx) idx version.1
    pure (sources ++ [kLRki])) selectedTransfers []
  Throwing.lift (construct version.2 sources)
  pure (versions ++ [sources])

/-- The part of `transfer_selected_rct` that is about the signers. -/
def createVersions (skGen : ℕ → ℕ → Key)
    (construct : ℕ → List MultisigKLRki → Except String Unit) (selectedTransfers : List ℕ) :
    Throwing (List Key) (List (List MultisigKLRki)) := do
  let ignoreSets ← Throwing.lift (getIgnoreSets w)
  Throwing.loop (createVersion ops w skGen construct selectedTransfers)
    (versionSets w ignoreSets).zipIdx []

/-! ### What the others exported -/

def exportedPairs (publicKey : PublicKey) (ks : List Key) : List LR :=
  ks.map fun k => ⟨(ops.generateMultisigLR publicKey k).1, (ops.generateMultisigLR publicKey k).2⟩

structure PointOps.Closed (isPoint : Key → Prop) : Prop where
  generate : ∀ key k, isPoint (ops.generateMultisigLR key k).1 ∧
    isPoint (ops.generateMultisigLR key k).2
  add : ∀ a b, isPoint a → isPoint b → ∃ c, ops.addKeys a b = some c ∧ isPoint c

/-- A wallet with its own signer among different ones, some of which are not needed. -/
structure MultisigSpender.Valid : Prop where
  nodup : w.signers.Nodup
  own : w.signer ∈ w.signers
  threshold_pos : 1 ≤ w.threshold
  threshold_lt : w.threshold < w.signers.length

/-- The pairs were exported, all of them are different, and every available signer exported so many
for each selected transfer. -/
structure MultisigSpender.Supplied (selectedTransfers : List ℕ) (nlr : ℕ) : Prop where
  exported : ∀ td ∈ w.transfers, ∀ i ∈ td.multisigInfo,
    ∃ ks, i.lr = exportedPairs ops td.publicKey ks
  distinct : (w.transfers.flatMap fun td =>
    td.multisigInfo.flatMap fun i => i.lr.map LR.l).Nodup
  enough : ∀ n ∈ selectedTransfers, ∃ td, w.transfers[n]? = some td ∧
    ∀ signer ∈ availableSigners w, ∃ i ∈ td.multisigInfo, i.signer = signer ∧ nlr ≤ i.lr.length

/-! ### One input -/

variable {ops w} {isPoint : Key → Prop}

def binsOf (ignoreSet : Finset PublicKey) (infos : List MultisigInfo) : List (List LR) :=
  (infos.filter fun p => decide (p.signer ∉ ignoreSet)).map MultisigInfo.lr

theorem addLR_points (hops : ops.Closed isPoint) {kLRki : MultisigKLRki} {lr : LR}
    (hl : isPoint kLRki.l) (hr : isPoint kLRki.r) (hlr : isPoint lr.l ∧ isPoint lr.r) :
    ∃ kLRki', addLR ops kLRki lr = .ok kLRki' ∧ isPoint kLRki'.l ∧ isPoint kLRki'.r := by
  obtain ⟨l, haddl, hpointl⟩ := hops.add _ _ hl hlr.1
  obtain ⟨r, haddr, hpointr⟩ := hops.add _ _ hr hlr.2
  refine ⟨{ kLRki with l := l, r := r }, ?_, hpointl, hpointr⟩
  rw [addLR, haddl, haddr]
  rfl

theorem loop_pickLR (hops : ops.Closed isPoint) (ignoreSet : Finset PublicKey)
    {infos : List MultisigInfo} (hinfos : ∀ i ∈ infos, ∀ lr ∈ i.lr, isPoint lr.l ∧ isPoint lr.r)
    {kLRki : MultisigKLRki} (hl : isPoint kLRki.l) (hr : isPoint kLRki.r) (n : ℕ)
    (usedL : List Key) :
    ∃ kLRki', Throwing.loop (pickLR ops ignoreSet) infos (kLRki, n) usedL =
      (.ok (kLRki', n + (serve LR.l usedL (binsOf ignoreSet infos)).length),
        usedL ++ (serve LR.l usedL (binsOf ignoreSet infos)).map LR.l) := by
  induction infos generalizing kLRki n usedL with
  | nil => exact ⟨kLRki, by simp [binsOf, serve, Throwing.loop]⟩
  | cons p infos ih =>
      rw [List.forall_mem_cons] at hinfos
      rw [Throwing.loop]
      by_cases hignore : p.signer ∈ ignoreSet
      · have hbins : binsOf ignoreSet (p :: infos) = binsOf ignoreSet infos := by
          rw [binsOf, List.filter_cons_of_neg (by simpa using hignore), binsOf]
        have hstep : pickLR ops ignoreSet (kLRki, n) p usedL = (.ok (kLRki, n), usedL) := by
          rw [pickLR, if_pos hignore]
          rfl
        rw [Throwing.bind_of_ok hstep, hbins]
        exact ih hinfos.2 hl hr n usedL
      · have hbins : binsOf ignoreSet (p :: infos) = p.lr :: binsOf ignoreSet infos := by
          rw [binsOf, List.filter_cons_of_pos (by simpa using hignore), List.map_cons, binsOf]
        rw [hbins]
        cases hfind : p.lr.find? fun lr => decide (lr.l ∉ usedL) with
        | none =>
            have hstep : pickLR ops ignoreSet (kLRki, n) p usedL = (.ok (kLRki, n), usedL) := by
              rw [pickLR, if_neg hignore, Throwing.get_bind, hfind]
              rfl
            rw [Throwing.bind_of_ok hstep, serve_cons_of_none hfind]
            exact ih hinfos.2 hl hr n usedL
        | some lr =>
            obtain ⟨kLRki', hadd, hl', hr'⟩ :=
              addLR_points hops hl hr (hinfos.1 lr (of_find?_unused hfind).1)
            have hstep : pickLR ops ignoreSet (kLRki, n) p usedL =
                (.ok (kLRki', n + 1), usedL ++ [lr.l]) := by
              rw [pickLR, if_neg hignore, Throwing.get_bind, hfind]
              dsimp only
              rw [Throwing.modify_bind, hadd, Throwing.lift_ok_bind]
              rfl
            obtain ⟨kLRki'', hrest⟩ := ih hinfos.2 hl' hr' (n + 1) (usedL ++ [lr.l])
            refine ⟨kLRki'', ?_⟩
            rw [Throwing.bind_of_ok hstep, hrest, serve_cons_of_some hfind, List.length_cons,
              List.map_cons, List.append_assoc, List.singleton_append, Nat.add_right_comm,
              Nat.add_assoc]

/-! ### What is left -/

/-- Every available signer has so many unused pairs for each transfer. -/
def Left (w : MultisigSpender) (selectedTransfers : List ℕ) (left : ℕ → ℕ) (usedL : List Key) :
    Prop :=
  ∀ n ∈ selectedTransfers, ∃ td, w.transfers[n]? = some td ∧
    ∀ signer ∈ availableSigners w, ∃ i ∈ td.multisigInfo, i.signer = signer ∧
      left n ≤ unused LR.l usedL i.lr

theorem mem_binsOf {ignoreSet : Finset PublicKey} {infos : List MultisigInfo} {bin : List LR} :
    bin ∈ binsOf ignoreSet infos ↔ ∃ i ∈ infos, i.signer ∉ ignoreSet ∧ i.lr = bin := by
  simp [binsOf, and_assoc]

section Supplied

variable {selectedTransfers : List ℕ} {nlr : ℕ} (hsupplied : w.Supplied ops selectedTransfers nlr)
include hsupplied

theorem left_initially : Left w selectedTransfers (fun _ => nlr) [] := by
  intro n hn
  obtain ⟨td, htd, henough⟩ := hsupplied.enough n hn
  refine ⟨td, htd, fun signer hsigner => ?_⟩
  obtain ⟨i, hi, hsigner, hle⟩ := henough signer hsigner
  refine ⟨i, hi, hsigner, ?_⟩
  simpa [unused] using hle

theorem infos_points (hops : ops.Closed isPoint) {td : SpendTransfer} (htd : td ∈ w.transfers) :
    ∀ i ∈ td.multisigInfo, ∀ lr ∈ i.lr, isPoint lr.l ∧ isPoint lr.r := by
  intro i hi lr hlr
  obtain ⟨ks, hks⟩ := hsupplied.exported td htd i hi
  rw [hks] at hlr
  obtain ⟨k, -, rfl⟩ := List.mem_map.mp hlr
  exact hops.generate td.publicKey k

theorem infos_apart {td : SpendTransfer} (htd : td ∈ w.transfers) :
    td.multisigInfo.Pairwise fun i j => Apart LR.l i.lr j.lr :=
  (List.nodup_flatMap.mp ((List.nodup_flatMap.mp hsupplied.distinct).1 td htd)).2

theorem bins_apart {td : SpendTransfer} (htd : td ∈ w.transfers) (ignoreSet : Finset PublicKey) :
    (binsOf ignoreSet td.multisigInfo).Pairwise (Apart LR.l) := by
  rw [binsOf, List.pairwise_map]
  exact (infos_apart hsupplied htd).filter _

theorem bin_nodup {td : SpendTransfer} (htd : td ∈ w.transfers) {i : MultisigInfo}
    (hi : i ∈ td.multisigInfo) : (i.lr.map LR.l).Nodup :=
  (List.nodup_flatMap.mp ((List.nodup_flatMap.mp hsupplied.distinct).1 td htd)).1 i hi

theorem transfers_apart {n n' : ℕ} {td td' : SpendTransfer} (hne : n ≠ n')
    (htd : w.transfers[n]? = some td) (htd' : w.transfers[n']? = some td') {i i' : MultisigInfo}
    (hi : i ∈ td.multisigInfo) (hi' : i' ∈ td'.multisigInfo) : Apart LR.l i.lr i'.lr := by
  have hpairwise := List.pairwise_iff_getElem.mp (List.nodup_flatMap.mp hsupplied.distinct).2
  obtain ⟨hn, rfl⟩ := List.getElem?_eq_some_iff.mp htd
  obtain ⟨hn', rfl⟩ := List.getElem?_eq_some_iff.mp htd'
  intro l hl hl'
  have hmem : l ∈ w.transfers[n].multisigInfo.flatMap fun i => i.lr.map LR.l :=
    List.mem_flatMap.mpr ⟨i, hi, hl⟩
  have hmem' : l ∈ w.transfers[n'].multisigInfo.flatMap fun i => i.lr.map LR.l :=
    List.mem_flatMap.mpr ⟨i', hi', hl'⟩
  rcases Nat.lt_or_gt_of_ne hne with hlt | hgt
  · exact hpairwise n n' hn hn' hlt hmem hmem'
  · exact hpairwise n' n hn' hn hgt hmem' hmem

/-- One input costs each signer one pair of that input at most. -/
theorem Left.serve {left left' : ℕ → ℕ} {usedL : List Key} {n : ℕ} {td : SpendTransfer}
    (h : Left w selectedTransfers left usedL) (htd : w.transfers[n]? = some td)
    (hsame : ∀ n' ≠ n, left' n' ≤ left n') (hless : left' n ≤ left n - 1)
    (ignoreSet : Finset PublicKey) :
    Left w selectedTransfers left'
      (usedL ++ (Data.serve LR.l usedL (binsOf ignoreSet td.multisigInfo)).map LR.l) := by
  intro n' hn'
  obtain ⟨td', htd', hleft⟩ := h n' hn'
  refine ⟨td', htd', fun signer hsigner => ?_⟩
  obtain ⟨i, hi, hsigner, hle⟩ := hleft signer hsigner
  refine ⟨i, hi, hsigner, ?_⟩
  by_cases hne : n' = n
  · subst hne
    obtain rfl := Option.some.inj (htd.symm.trans htd')
    have hmem := List.mem_of_getElem? htd
    by_cases hignore : i.signer ∈ ignoreSet
    · -- an ignored signer is asked for nothing
      rw [unused_serve_of_apart]
      · omega
      · intro bin hbin
        obtain ⟨j, hj, hjignore, rfl⟩ := mem_binsOf.mp hbin
        have hji : j ≠ i := fun heq => hjignore (heq ▸ hignore)
        have hsymm : Std.Symm fun i j : MultisigInfo => Apart LR.l i.lr j.lr :=
          ⟨fun _ _ hapart => List.Disjoint.symm hapart⟩
        exact (infos_apart hsupplied hmem).forall hj hi hji
    · have hbin : i.lr ∈ binsOf ignoreSet td.multisigInfo :=
        mem_binsOf.mpr ⟨i, hi, hignore, rfl⟩
      have hone := @unused_le_serve _ _ _ LR.l usedL i.lr _ (bins_apart hsupplied hmem ignoreSet)
        hbin (bin_nodup hsupplied hmem hi)
      omega
  · rw [unused_serve_of_apart]
    · exact (hsame n' hne).trans hle
    · intro bin hbin
      obtain ⟨i', hi', -, rfl⟩ := mem_binsOf.mp hbin
      exact transfers_apart hsupplied (Ne.symm hne) htd htd' hi' hi

/-- The signers that are not left out have a pair each. -/
theorem card_le_length_serve {left : ℕ → ℕ} {usedL : List Key} {n : ℕ} {td : SpendTransfer}
    (h : Left w selectedTransfers left usedL) (hn : n ∈ selectedTransfers)
    (htd : w.transfers[n]? = some td) (hpos : 0 < left n) (ignoreSet : Finset PublicKey) :
    ((availableSigners w).toFinset \ ignoreSet).card ≤
      (Data.serve LR.l usedL (binsOf ignoreSet td.multisigInfo)).length := by
  obtain ⟨td', htd', hleft⟩ := h n hn
  obtain rfl := Option.some.inj (htd.symm.trans htd')
  have hcount := @countP_le_length_serve _ _ _ LR.l usedL _
    (bins_apart hsupplied (List.mem_of_getElem? htd) ignoreSet)
  refine le_trans ?_ hcount
  -- each of them is the signer of an entry with an unused pair
  let entries := td.multisigInfo.filter fun i =>
    decide (i.signer ∉ ignoreSet) && decide (0 < unused LR.l usedL i.lr)
  have hentries : (binsOf ignoreSet td.multisigInfo).countP
      (fun bin => decide (0 < unused LR.l usedL bin)) = entries.length := by
    rw [binsOf, List.countP_map, List.countP_eq_length_filter, List.filter_filter]
    congr 1
    exact List.filter_congr fun i _ => Bool.and_comm _ _
  have hsubset : (availableSigners w).toFinset \ ignoreSet ⊆
      (entries.map MultisigInfo.signer).toFinset := by
    intro signer hsigner
    rw [Finset.mem_sdiff, List.mem_toFinset] at hsigner
    obtain ⟨i, hi, rfl, hle⟩ := hleft signer hsigner.1
    refine List.mem_toFinset.mpr (List.mem_map_of_mem (List.mem_filter.mpr ⟨hi, ?_⟩))
    simp [hsigner.2, hpos.trans_le hle]
  calc ((availableSigners w).toFinset \ ignoreSet).card
      ≤ (entries.map MultisigInfo.signer).toFinset.card := Finset.card_le_card hsubset
    _ ≤ (entries.map MultisigInfo.signer).length := List.toFinset_card_le _
    _ = _ := by rw [List.length_map, hentries]

/-- An input gets its pairs as long as no more signers are left out than can be missed. -/
theorem getMultisigCompositeKLRki_ok (hops : ops.Closed isPoint) {left left' : ℕ → ℕ}
    {usedL : List Key} (k : Key) {n : ℕ} {ignoreSet : Finset PublicKey}
    (h : Left w selectedTransfers left usedL) (hn : n ∈ selectedTransfers) (hpos : 0 < left n)
    (henough : w.threshold ≤ ((availableSigners w).toFinset \ ignoreSet).card + 1)
    (hsame : ∀ n' ≠ n, left' n' ≤ left n') (hless : left' n ≤ left n - 1) :
    ∃ kLRki usedL', getMultisigCompositeKLRki ops w k n ignoreSet usedL = (.ok kLRki, usedL') ∧
      (usedL.Nodup → usedL'.Nodup) ∧ Left w selectedTransfers left' usedL' := by
  obtain ⟨td, htd, -⟩ := h n hn
  have hmem := List.mem_of_getElem? htd
  have hgenerate := hops.generate td.publicKey k
  obtain ⟨kLRki, hloop⟩ := @loop_pickLR ops isPoint hops ignoreSet td.multisigInfo
    (infos_points hsupplied hops hmem) (getMultisigKLRki ops td k) hgenerate.1 hgenerate.2 1 usedL
  have hcard := card_le_length_serve hsupplied h hn htd hpos ignoreSet
  refine ⟨kLRki, _, ?_, nodup_serve, h.serve hsupplied htd hsame hless ignoreSet⟩
  rw [getMultisigCompositeKLRki, htd]
  show ((Throwing.loop _ _ _ >>= _) usedL : _) = _
  rw [Throwing.bind_of_ok hloop, Throwing.throwIf_bind, if_neg (by dsimp only; omega)]
  rfl

/-! ### All versions -/

theorem loop_sources (hops : ops.Closed isPoint) {v : Finset PublicKey}
    (henough : w.threshold ≤ ((availableSigners w).toFinset \ v).card + 1)
    (key : ℕ → Key) (left : ℕ) {rest : List ℕ} (hrest : rest ⊆ selectedTransfers)
    (hnodup : rest.Nodup) (sources : List MultisigKLRki) {usedL : List Key}
    (h : Left w selectedTransfers (fun n => if n ∈ rest then left + 1 else left) usedL) :
    ∃ sources' usedL', Throwing.loop (fun sources idx => do
        let kLRki ← getMultisigCompositeKLRki ops w (key idx) idx v
        pure (sources ++ [kLRki])) rest sources usedL = (.ok sources', usedL') ∧
      (usedL.Nodup → usedL'.Nodup) ∧ Left w selectedTransfers (fun _ => left) usedL' := by
  induction rest generalizing sources usedL with
  | nil => exact ⟨sources, usedL, rfl, id, by simpa using h⟩
  | cons n rest ih =>
      rw [List.nodup_cons] at hnodup
      rw [List.cons_subset] at hrest
      have hother : ∀ n' ≠ n, (if n' ∈ rest then left + 1 else left) ≤
          if n' ∈ n :: rest then left + 1 else left := fun n' hne => by simp [hne]
      have hless : (if n ∈ rest then left + 1 else left) ≤
          (if n ∈ n :: rest then left + 1 else left) - 1 := by simp [hnodup.1]
      obtain ⟨kLRki, usedL₁, hpick, hkeeps, hleft⟩ := getMultisigCompositeKLRki_ok hsupplied hops
        (key n) h hrest.1 (by simp) henough hother hless
      obtain ⟨sources', usedL', hloop, hkeeps', hleft'⟩ :=
        ih hrest.2 hnodup.2 (sources ++ [kLRki]) hleft
      refine ⟨sources', usedL', ?_, fun hused => hkeeps' (hkeeps hused), hleft'⟩
      have hstep : (do
          let kLRki ← getMultisigCompositeKLRki ops w (key n) n v
          pure (sources ++ [kLRki]) : Throwing (List Key) (List MultisigKLRki)) usedL =
            (.ok (sources ++ [kLRki]), usedL₁) := by
        rw [Throwing.bind_of_ok hpick]
        rfl
      rw [Throwing.loop, Throwing.bind_of_ok hstep]
      exact hloop

/-- Whatever throws, it is not for want of pairs. -/
theorem loop_createVersion (hops : ops.Closed isPoint) (hselected : selectedTransfers.Nodup)
    (skGen : ℕ → ℕ → Key) (construct : ℕ → List MultisigKLRki → Except String Unit)
    {versions : List (Finset PublicKey × ℕ)}
    (henough : ∀ v ∈ versions, w.threshold ≤ ((availableSigners w).toFinset \ v.1).card + 1)
    (made : List (List MultisigKLRki)) {usedL : List Key} (hused : usedL.Nodup)
    (h : Left w selectedTransfers (fun _ => versions.length) usedL) :
    let run := Throwing.loop (createVersion ops w skGen construct selectedTransfers) versions made
      usedL
    run.2.Nodup ∧ ∀ e, run.1 = .error e → ∃ version sources, construct version sources = .error e := by
  induction versions generalizing made usedL with
  | nil => exact ⟨hused, fun e he => by cases he⟩
  | cons v versions ih =>
      rw [List.forall_mem_cons] at henough
      have hbefore : Left w selectedTransfers (fun n =>
          if n ∈ selectedTransfers then versions.length + 1 else versions.length) usedL := by
        intro n hn
        obtain ⟨td, htd, hleft⟩ := h n hn
        exact ⟨td, htd, by simpa [hn] using hleft⟩
      obtain ⟨sources, usedL', hsources, hkeeps, hleft⟩ := loop_sources hsupplied hops henough.1
        (skGen v.2) versions.length (List.Subset.refl selectedTransfers) hselected [] hbefore
      cases hconstruct : construct v.2 sources with
      | error e =>
          have hstep : createVersion ops w skGen construct selectedTransfers made v usedL =
              (.error e, usedL') := by
            rw [createVersion, Throwing.bind_of_ok hsources, hconstruct]
            rfl
          rw [Throwing.loop, Throwing.bind_of_error hstep]
          refine ⟨hkeeps hused, fun e' he' => ⟨v.2, sources, ?_⟩⟩
          rw [hconstruct, Except.error.inj he']
      | ok u =>
          have hstep : createVersion ops w skGen construct selectedTransfers made v usedL =
              (.ok (made ++ [sources]), usedL') := by
            rw [createVersion, Throwing.bind_of_ok hsources, hconstruct]
            rfl
          rw [Throwing.loop, Throwing.bind_of_ok hstep]
          exact ih henough.2 (made ++ [sources]) (hkeeps hused) hleft

end Supplied

/-! ### The number of versions -/

theorem availableSigners_nodup (hw : w.Valid) : (availableSigners w).Nodup := hw.nodup.filter _

theorem length_availableSigners (hw : w.Valid) :
    (availableSigners w).length ≤ w.signers.length - 1 := by
  have hsubset : availableSigners w ⊆ w.signers.erase w.signer := by
    intro signer hsigner
    obtain ⟨hmem, hother⟩ := List.mem_filter.mp hsigner
    exact (List.mem_erase_of_ne (of_decide_eq_true hother).1).mpr hmem
  have hle := ((availableSigners_nodup hw).subperm hsubset).length_le
  rwa [List.length_erase_of_mem hw.own] at hle

/-- The choices of signers are no more than the pairs a signer exports. -/
theorem choose_le (hw : w.Valid) :
    (availableSigners w).length.choose (w.threshold - 1) ≤
      (w.signers.length - 1).choose (w.signers.length - w.threshold) := by
  have hsum : w.signers.length - 1 = (w.threshold - 1) + (w.signers.length - w.threshold) := by
    have hpos := hw.threshold_pos
    have hlt := hw.threshold_lt
    omega
  rw [← Nat.choose_symm_of_eq_add hsum]
  exact Nat.choose_le_choose _ (length_availableSigners hw)

theorem versionSets_spec (hw : w.Valid)
    (havailable : w.threshold ≤ (availableSigners w).length + 1) :
    ∃ sets, getIgnoreSets w = .ok sets ∧
      (versionSets w sets).length ≤
        (w.signers.length - 1).choose (w.signers.length - w.threshold) ∧
      ∀ v ∈ versionSets w sets,
        w.threshold ≤ ((availableSigners w).toFinset \ v).card + 1 := by
  have hcard : (availableSigners w).toFinset.card = (availableSigners w).length :=
    List.toFinset_card_of_nodup (availableSigners_nodup hw)
  have hpos := hw.threshold_pos
  -- one version that leaves out nobody
  have hnobody : (versionSets w []).length ≤
        (w.signers.length - 1).choose (w.signers.length - w.threshold) ∧
      ∀ v ∈ versionSets w [], w.threshold ≤ ((availableSigners w).toFinset \ v).card + 1 := by
    have hsets : versionSets w [] = [∅] := by simp [versionSets]
    rw [hsets]
    constructor
    · exact Nat.choose_pos (by omega)
    · intro v hv
      rw [List.mem_singleton.mp hv, Finset.sdiff_empty, hcard]
      exact havailable
  by_cases htransfers : w.transfers = []
  · exact ⟨[], by rw [getIgnoreSets, if_pos htransfers], hnobody⟩
  by_cases hmore : w.threshold < 1 + (availableSigners w).length
  · obtain ⟨combinations, hcombine, hperm⟩ := @combine_eq_ok _ (availableSigners w)
      ((availableSigners w).length + 1 - w.threshold) (by omega) (by omega)
    have hlength : combinations.length =
        (availableSigners w).length.choose (w.threshold - 1) := by
      rw [hperm.length_eq, List.length_sublistsLen]
      exact Nat.choose_symm_of_eq_add (by omega)
    obtain ⟨first, others, rfl⟩ := List.exists_cons_of_length_pos (by
      rw [hlength]
      exact Nat.choose_pos (by omega))
    refine ⟨(first :: others).map List.toFinset, ?_, ?_, ?_⟩
    · rw [getIgnoreSets, if_neg htransfers]
      refine bind_eq_ok.mpr ⟨(), throwIf_eq_ok.mpr (by omega), ?_⟩
      rw [if_pos hmore, hcombine]
      rfl
    · rw [versionSets, if_pos hw.threshold_lt]
      refine le_trans ?_ (choose_le hw)
      rw [← hlength]
      simp
    · intro v hv
      rw [versionSets, if_pos hw.threshold_lt] at hv
      obtain ⟨combination, hmem, rfl⟩ := List.mem_map.mp (show v ∈
        (first :: others).map List.toFinset from hv)
      obtain ⟨hsublist, hsize⟩ := List.mem_sublistsLen.mp (hperm.subset hmem)
      have hsubset : combination.toFinset ⊆ (availableSigners w).toFinset := fun a ha =>
        List.mem_toFinset.mpr (hsublist.subset (List.mem_toFinset.mp ha))
      have hcardv : combination.toFinset.card = combination.length :=
        List.toFinset_card_of_nodup ((availableSigners_nodup hw).sublist hsublist)
      rw [Finset.card_sdiff_of_subset hsubset, hcard, hcardv, hsize]
      omega
  · refine ⟨[], ?_, hnobody⟩
    rw [getIgnoreSets, if_neg htransfers]
    refine bind_eq_ok.mpr ⟨(), throwIf_eq_ok.mpr (by omega), ?_⟩
    rw [if_neg hmore]
    rfl

/-! ### The claims of the counting -/

/-- The combinations of a list are its sublists of the length, each once, and their number is
computed as long as no product is too large. -/
def CombinesAll {α : Type} (l : List α) : Prop :=
  ∀ k, 0 < k → k ≤ l.length → ∃ combinations, combine l k = .ok combinations ∧
    combinations.Nodup ∧
    (∀ c, c ∈ combinations ↔ c.Sublist l ∧ c.length = k) ∧
    ∀ k' n' : UInt32, k'.toNat = k → n'.toNat = l.length → ProductsFit k l.length →
      ∃ count, combinationsCount k' n' = .ok count ∧ combinations.length = count.toNat ∧
        count.toNat = l.length.choose k

theorem combinesAll {α : Type} {l : List α} (hl : l.Nodup) : CombinesAll l := by
  intro k hpos hk
  obtain ⟨combinations, hcombine, hperm⟩ := combine_eq_ok hpos hk
  have hlength : combinations.length = l.length.choose k := by
    rw [hperm.length_eq, List.length_sublistsLen]
  refine ⟨combinations, hcombine, hperm.nodup_iff.mpr (List.nodup_sublistsLen k hl),
    fun c => hperm.mem_iff.trans List.mem_sublistsLen, ?_⟩
  rintro k' n' rfl hn' hfit
  rw [← hn'] at hk hlength hfit ⊢
  obtain ⟨count, hcount, hchoose⟩ := combinationsCount_eq (UInt32.le_iff_toNat_le.mpr hk) hfit
  exact ⟨count, hcount, hlength.trans hchoose.symm, hchoose⟩

/-- No call for an input fails for want of signers or pairs: what is thrown is thrown by the rest.
No commitment is used twice. -/
def NeverRunsOut (ops : PointOps) (w : MultisigSpender) (selectedTransfers : List ℕ) : Prop :=
  ∀ skGen construct,
    (createVersions ops w skGen construct selectedTransfers []).2.Nodup ∧
      ∀ e, (createVersions ops w skGen construct selectedTransfers []).1 = .error e →
        ∃ version sources, construct version sources = .error e

theorem neverRunsOut (hops : ops.Closed isPoint) (hw : w.Valid) {selectedTransfers : List ℕ}
    (hselected : selectedTransfers.Nodup) {nlr : ℕ}
    (hsupplied : w.Supplied ops selectedTransfers nlr)
    (havailable : w.threshold ≤ (availableSigners w).length + 1)
    (hnlr : (w.signers.length - 1).choose (w.signers.length - w.threshold) ≤ nlr) :
    NeverRunsOut ops w selectedTransfers := by
  intro skGen construct
  obtain ⟨sets, hsets, hlength, henough⟩ := versionSets_spec hw havailable
  have hleft : Left w selectedTransfers (fun _ => (versionSets w sets).zipIdx.length) [] := by
    intro n hn
    obtain ⟨td, htd, hleft⟩ := left_initially hsupplied n hn
    refine ⟨td, htd, fun signer hsigner => ?_⟩
    obtain ⟨i, hi, hsigner, hle⟩ := hleft signer hsigner
    refine ⟨i, hi, hsigner, le_trans ?_ hle⟩
    rw [List.length_zipIdx]
    exact hlength.trans hnlr
  have hrun : createVersions ops w skGen construct selectedTransfers [] =
      Throwing.loop (createVersion ops w skGen construct selectedTransfers)
        (versionSets w sets).zipIdx [] [] := by
    rw [createVersions, hsets]
    rfl
  rw [hrun]
  refine loop_createVersion hsupplied hops hselected skGen construct ?_ [] List.nodup_nil hleft
  rintro ⟨v, i⟩ hv
  exact henough v (List.fst_mem_of_mem_zipIdx hv)

/-- The combinations and their number; and with so many pairs of each available signer for each
input, where all are different, the versions never run out of pairs and use none twice. -/
theorem multisigCombinations (hops : ops.Closed isPoint) (hw : w.Valid) {k n : UInt32}
    (hk : k.toNat = w.signers.length - w.threshold) (hn : n.toNat = w.signers.length - 1)
    (hfit : ProductsFit k.toNat n.toNat) {nlr : UInt64} (hnlr : combinationsCount k n = .ok nlr)
    {selectedTransfers : List ℕ} (hselected : selectedTransfers.Nodup)
    (hsupplied : w.Supplied ops selectedTransfers nlr.toNat)
    (havailable : w.threshold - 1 ≤ (availableSigners w).length) :
    (∀ (α : Type) (l : List α), l.Nodup → CombinesAll l) ∧
      NeverRunsOut ops w selectedTransfers := by
  refine ⟨fun α l hl => combinesAll hl, ?_⟩
  have hkn : k ≤ n := by
    rw [UInt32.le_iff_toNat_le, hk, hn]
    have hpos := hw.threshold_pos
    omega
  obtain ⟨count, hcount, hchoose⟩ := combinationsCount_eq hkn hfit
  obtain rfl := Except.ok.inj (hnlr.symm.trans hcount)
  refine neverRunsOut hops hw hselected hsupplied (by omega) ?_
  rw [hchoose, hk, hn]

/-! ### Two of three -/

def samplePoints : PointOps where
  generateMultisigLR _ k := (k, k)
  addKeys a _ := some a

def sampleNonce (n : UInt8) : Key := List.Vector.replicate 32 n

def samplePairs (a b : UInt8) : List LR :=
  exportedPairs samplePoints (sampleNonce 4) [sampleNonce a, sampleNonce b]

def sampleSpender : MultisigSpender where
  signers := [sampleNonce 1, sampleNonce 2, sampleNonce 3]
  threshold := 2
  signer := sampleNonce 1
  transfers :=
    [⟨sampleNonce 4, sampleNonce 5,
      [⟨sampleNonce 2, samplePairs 10 11, []⟩, ⟨sampleNonce 3, samplePairs 20 21, []⟩]⟩]

theorem multisigCombinations_sample : NeverRunsOut samplePoints sampleSpender [0] := by
  have hpoints : samplePoints.Closed fun _ => True :=
    ⟨fun _ _ => ⟨trivial, trivial⟩, fun a _ _ _ => ⟨a, rfl, trivial⟩⟩
  have hvalid : sampleSpender.Valid := ⟨by decide, by decide, by decide, by decide⟩
  have hsupplied : sampleSpender.Supplied samplePoints [0] 2 := by
    refine ⟨?_, by decide, ?_⟩
    · intro td htd i hi
      obtain rfl := List.mem_singleton.mp htd
      rcases List.mem_cons.mp hi with rfl | hi
      · exact ⟨_, rfl⟩
      · obtain rfl := List.mem_singleton.mp hi
        exact ⟨_, rfl⟩
    · intro n hn
      obtain rfl := List.mem_singleton.mp hn
      refine ⟨_, rfl, fun signer hsigner => ?_⟩
      have hothers : availableSigners sampleSpender = [sampleNonce 2, sampleNonce 3] := rfl
      rw [hothers] at hsigner
      rcases List.mem_cons.mp hsigner with rfl | hsigner
      · exact ⟨_, List.mem_cons_self, rfl, le_refl 2⟩
      · obtain rfl := List.mem_singleton.mp hsigner
        exact ⟨_, List.mem_cons_of_mem _ List.mem_cons_self, rfl, le_refl 2⟩
  exact (@multisigCombinations samplePoints sampleSpender _ hpoints hvalid 1 2 rfl rfl (by decide)
    2 rfl [0] (by decide) hsupplied (by decide)).2

end XrCoin.Wallet
