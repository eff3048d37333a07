import XrCoin.Core.Relays
import XrCoin.Cryptonote.TransactionWeight

/-!
What `handle_incoming_tx_accumulated_batch` makes of each transaction. The delayed
verification of the bulletproofs is that of all of them together, and only when it fails
are they gone through one at a time; the outcome is that of every transaction alone.
-/

namespace XrCoin.Core

open Archive Cryptonote TxPool

/-! ### One loop -/

/-- What a loop leaves of an entry when it fails those transactions that `passes` refuses. -/
def settle (passes : Transaction → Bool) (e : Incoming) : Incoming :=
  match e.pending with
  | none => e
  | some (tx, _) => if passes tx then e else e.fail

/-- The hash that goes to `set_semantics_failed` for an entry. -/
def refused (passes : Transaction → Bool) (e : Incoming) : Option Hash :=
  match e.pending with
  | none => none
  | some (tx, hash) => if passes tx then none else some hash

/-- `set_semantics_failed` for one hash after the other. -/
def markAll (hashes : List Hash) (bad : BadSemanticsTxes) : BadSemanticsTxes :=
  hashes.foldl (fun bad hash => setSemanticsFailed hash bad) bad

section

variable {passes passes' : Transaction → Bool} {e : Incoming} {es : List Incoming}

theorem settle_of_none (h : e.pending = none) : settle passes e = e := by
  simp [settle, h]

theorem settle_of_passes {tx : Transaction} {hash : Hash} (h : e.pending = some (tx, hash))
    (hpass : passes tx = true) : settle passes e = e := by
  simp [settle, h, hpass]

theorem settle_of_fails {tx : Transaction} {hash : Hash} (h : e.pending = some (tx, hash))
    (hfail : passes tx = false) : settle passes e = e.fail := by
  simp [settle, h, hfail]

theorem refused_of_none (h : e.pending = none) : refused passes e = none := by
  simp [refused, h]

theorem refused_of_passes {tx : Transaction} {hash : Hash} (h : e.pending = some (tx, hash))
    (hpass : passes tx = true) : refused passes e = none := by
  simp [refused, h, hpass]

theorem refused_of_fails {tx : Transaction} {hash : Hash} (h : e.pending = some (tx, hash))
    (hfail : passes tx = false) : refused passes e = some hash := by
  simp [refused, h, hfail]

/-- Only the verdicts on the pending transactions count. -/
theorem settle_congr (h : Pending (fun _ tx _ => passes tx = passes' tx) e) :
    settle passes e = settle passes' e ∧ refused passes e = refused passes' e := by
  cases hpending : e.pending with
  | none => simp [settle, refused, hpending]
  | some pair =>
      have hsame := h pair.1 pair.2 hpending
      simp [settle, refused, hpending, hsame]

/-- Two loops after each other are one with both verdicts. -/
theorem settle_settle (e : Incoming) :
    settle passes' (settle passes e) = settle (fun tx => passes tx && passes' tx) e := by
  cases hpending : e.pending with
  | none => rw [settle_of_none hpending, settle_of_none hpending, settle_of_none hpending]
  | some pair =>
      cases hpass : passes pair.1 with
      | false =>
          rw [settle_of_fails hpending hpass, settle_of_none (pending_fail e),
            settle_of_fails hpending (by simp [hpass])]
      | true =>
          rw [settle_of_passes hpending hpass]
          simp [settle, hpending, hpass]

/-- What two loops mark is what one marks that has both verdicts. -/
theorem refused_perm (es : List Incoming) :
    (es.filterMap (refused passes) ++ (es.map (settle passes)).filterMap (refused passes')).Perm
      (es.filterMap (refused fun tx => passes tx && passes' tx)) := by
  induction es with
  | nil => simp
  | cons e es ih =>
      cases hpending : e.pending with
      | none =>
          rw [List.map_cons, settle_of_none hpending, List.filterMap_cons_none
            (refused_of_none hpending), List.filterMap_cons_none (refused_of_none hpending),
            List.filterMap_cons_none (refused_of_none hpending)]
          exact ih
      | some pair =>
          cases hpass : passes pair.1 with
          | false =>
              rw [List.map_cons, settle_of_fails hpending hpass,
                List.filterMap_cons_some (refused_of_fails hpending hpass),
                List.filterMap_cons_none (refused_of_none (pending_fail e)),
                List.filterMap_cons_some (refused_of_fails hpending (by simp [hpass]))]
              exact ih.cons _
          | true =>
              rw [List.map_cons, settle_of_passes hpending hpass,
                List.filterMap_cons_none (refused_of_passes hpending hpass)]
              cases hpass' : passes' pair.1 with
              | false =>
                  rw [List.filterMap_cons_some (refused_of_fails hpending hpass'),
                    List.filterMap_cons_some (refused_of_fails hpending (by simp [hpass']))]
                  exact List.perm_middle.trans (ih.cons _)
              | true =>
                  rw [List.filterMap_cons_none (refused_of_passes hpending hpass'),
                    List.filterMap_cons_none (refused_of_passes hpending (by simp [hpass, hpass']))]
                  exact ih

end

section

variable {conf : CoreConfig} {crypto : CoreCrypto} {ops : CryptoOps} {cfg : Config}
  {view : CoreView} {keepedByBlock : Bool}

def passesFirst (conf : CoreConfig) (crypto : CoreCrypto) (cfg : Config) (view : CoreView)
    (keepedByBlock : Bool) (tx : Transaction) : Bool :=
  (checkTxSemantic conf crypto cfg view tx keepedByBlock).getD false &&
    checkRctSemantic conf crypto tx

def passesSecond (crypto : CoreCrypto) (assumedBad : Bool) (tx : Transaction) : Bool :=
  !(decide (tx.rctSignatures.type = rctTypeBulletproof) &&
    (assumedBad || !crypto.verRctSemanticsSimple tx.rctSignatures))

/-- Where no weight throws, the first loop comes to its end, and settles each entry. -/
theorem checkEach_eq {es : List Incoming} {bad : BadSemanticsTxes}
    (h : ∀ e ∈ es, Pending (fun _ tx _ =>
      checkTxSemantic conf crypto cfg view tx keepedByBlock ≠ none) e) :
    checkEach conf crypto cfg view keepedByBlock es bad =
      (true, markAll (es.filterMap (refused (passesFirst conf crypto cfg view keepedByBlock))) bad,
        es.map (settle (passesFirst conf crypto cfg view keepedByBlock))) := by
  induction es generalizing bad with
  | nil => rfl
  | cons e es ih =>
      rw [List.forall_mem_cons] at h
      rw [checkEach, List.map_cons]
      split
      · rename_i hpending
        rw [settle_of_none hpending, List.filterMap_cons_none (refused_of_none hpending), ih h.2]
      · rename_i tx hash hpending
        split
        · rename_i hthrows
          exact absurd hthrows (h.1 tx hash hpending)
        · rename_i semantic hsemantic
          have hfirst : passesFirst conf crypto cfg view keepedByBlock tx =
              (semantic && checkRctSemantic conf crypto tx) := by
            simp [passesFirst, hsemantic]
          split
          · rename_i hpass
            rw [← hfirst] at hpass
            rw [settle_of_passes hpending hpass,
              List.filterMap_cons_none (refused_of_passes hpending hpass), ih h.2]
          · rename_i hfail
            rw [← hfirst, Bool.not_eq_true] at hfail
            rw [settle_of_fails hpending hfail,
              List.filterMap_cons_some (refused_of_fails hpending hfail), ih h.2]
            rfl

theorem verifyEach_eq {assumedBad : Bool} {es : List Incoming} {bad : BadSemanticsTxes} :
    verifyEach crypto assumedBad es bad =
      (markAll (es.filterMap (refused (passesSecond crypto assumedBad))) bad,
        es.map (settle (passesSecond crypto assumedBad))) := by
  induction es generalizing bad with
  | nil => rfl
  | cons e es ih =>
      rw [verifyEach, List.map_cons]
      split
      · rename_i hpending
        rw [settle_of_none hpending, List.filterMap_cons_none (refused_of_none hpending), ih]
      · rename_i tx hash hpending
        split
        · rename_i hcond
          have hfail : passesSecond crypto assumedBad tx = false := by
            rw [passesSecond, decide_eq_true hcond.1]
            rcases hcond.2 with hbad | hbad <;> simp [hbad]
          rw [settle_of_fails hpending hfail,
            List.filterMap_cons_some (refused_of_fails hpending hfail), ih]
          rfl
        · rename_i hcond
          have hpass : passesSecond crypto assumedBad tx = true := by
            rw [not_and_or, not_or, Bool.not_eq_true, Bool.not_eq_false] at hcond
            rcases hcond with htype | ⟨hgood, hver⟩
            · simp [passesSecond, htype]
            · simp [passesSecond, hgood, hver]
          rw [settle_of_passes hpending hpass,
            List.filterMap_cons_none (refused_of_passes hpending hpass), ih]

/-! ### What a transaction does alone -/

/-- Why a transaction fails alone: `check_tx_semantic`, a null or unknown type, its own
signature, or the layout of its bulletproof. -/
def FailsAlone (conf : CoreConfig) (crypto : CoreCrypto) (cfg : Config) (view : CoreView)
    (keepedByBlock : Bool) (tx : Transaction) : Prop :=
  checkTxSemantic conf crypto cfg view tx keepedByBlock = some false ∨
    2 ≤ tx.version ∧
      (tx.rctSignatures.type = rctTypeNull ∨
        tx.rctSignatures.type ∉ [rctTypeNull, rctTypeSimple, rctTypeFull, rctTypeBulletproof] ∨
        tx.rctSignatures.type ∈ [rctTypeSimple, rctTypeBulletproof] ∧
          crypto.verRctSemanticsSimple tx.rctSignatures = false ∨
        tx.rctSignatures.type = rctTypeFull ∧ crypto.verRct tx.rctSignatures = false ∨
        tx.rctSignatures.type = rctTypeBulletproof ∧
          isCanonicalBulletproofLayout conf tx.rctSignatures.p.bulletproofs.toList = false)

def passesAlone (conf : CoreConfig) (crypto : CoreCrypto) (cfg : Config) (view : CoreView)
    (keepedByBlock : Bool) (tx : Transaction) : Bool :=
  passesFirst conf crypto cfg view keepedByBlock tx &&
    (!decide (2 ≤ tx.version ∧ tx.rctSignatures.type = rctTypeBulletproof) ||
      crypto.verRctSemanticsSimple tx.rctSignatures)

theorem checkRctSemantic_eq_false {tx : Transaction} (hversion : 2 ≤ tx.version) :
    checkRctSemantic conf crypto tx = false ↔
      tx.rctSignatures.type = rctTypeNull ∨
        tx.rctSignatures.type ∉ [rctTypeNull, rctTypeSimple, rctTypeFull, rctTypeBulletproof] ∨
        tx.rctSignatures.type = rctTypeSimple ∧
          crypto.verRctSemanticsSimple tx.rctSignatures = false ∨
        tx.rctSignatures.type = rctTypeFull ∧ crypto.verRct tx.rctSignatures = false ∨
        tx.rctSignatures.type = rctTypeBulletproof ∧
          isCanonicalBulletproofLayout conf tx.rctSignatures.p.bulletproofs.toList = false := by
  rw [checkRctSemantic, if_neg (UInt64.not_lt.mpr hversion)]
  have hSimple : rctTypeSimple ≠ rctTypeNull := by decide
  have hFull : rctTypeFull ≠ rctTypeNull ∧ rctTypeFull ≠ rctTypeSimple := by decide
  have hProof : rctTypeBulletproof ≠ rctTypeNull ∧ rctTypeBulletproof ≠ rctTypeSimple ∧
    rctTypeBulletproof ≠ rctTypeFull := by decide
  split
  · rename_i htype
    simp [htype]
  split
  · rename_i htype
    simp [htype, hSimple, hFull.2.symm, hProof.2.1.symm]
  split
  · rename_i htype
    simp [htype, hFull, hProof.2.2.symm]
  split
  · rename_i htype
    simp [htype, hProof]
  · rename_i hnull hsimple hfull hproof
    simp [hnull, hsimple, hfull, hproof]

theorem passesAlone_eq_false {tx : Transaction}
    (hreturns : checkTxSemantic conf crypto cfg view tx keepedByBlock ≠ none) :
    passesAlone conf crypto cfg view keepedByBlock tx = false ↔
      FailsAlone conf crypto cfg view keepedByBlock tx := by
  obtain ⟨semantic, hsemantic⟩ := Option.ne_none_iff_exists'.mp hreturns
  have hsplit : passesAlone conf crypto cfg view keepedByBlock tx = false ↔
      semantic = false ∨ checkRctSemantic conf crypto tx = false ∨
        (2 ≤ tx.version ∧ tx.rctSignatures.type = rctTypeBulletproof) ∧
          crypto.verRctSemanticsSimple tx.rctSignatures = false := by
    rw [passesAlone, passesFirst, hsemantic, Option.getD_some, Bool.and_eq_false_iff,
      Bool.and_eq_false_iff, Bool.or_eq_false_iff, Bool.not_eq_false', decide_eq_true_eq, or_assoc]
  rw [hsplit, FailsAlone, hsemantic, Option.some.injEq]
  refine or_congr_right ?_
  by_cases hversion : 2 ≤ tx.version
  · simp only [checkRctSemantic_eq_false hversion, List.mem_pair, hversion, true_and]
    constructor
    · rintro ((hnull | hother | ⟨hsimple, hfails⟩ | hfull | hproof) | ⟨hproof, hfails⟩)
      · exact .inl hnull
      · exact .inr (.inl hother)
      · exact .inr (.inr (.inl ⟨.inl hsimple, hfails⟩))
      · exact .inr (.inr (.inr (.inl hfull)))
      · exact .inr (.inr (.inr (.inr hproof)))
      · exact .inr (.inr (.inl ⟨.inr hproof, hfails⟩))
    · rintro (hnull | hother | ⟨hsimple | hproof, hfails⟩ | hfull | hproof)
      · exact .inl (.inl hnull)
      · exact .inl (.inr (.inl hother))
      · exact .inl (.inr (.inr (.inl ⟨hsimple, hfails⟩)))
      · exact .inr ⟨hproof, hfails⟩
      · exact .inl (.inr (.inr (.inr (.inl hfull))))
      · exact .inl (.inr (.inr (.inr (.inr hproof))))
  · have hold : checkRctSemantic conf crypto tx = true := by
      rw [checkRctSemantic, if_pos (UInt64.not_le.mp hversion)]
    simp [hversion, hold]

/-- A bulletproof that the first loop lets through is among the delayed ones. -/
theorem mem_delayed_settle {es : List Incoming} {e : Incoming} {tx : Transaction} {hash : Hash}
    {passes : Transaction → Bool} (he : e ∈ es) (hpending : e.pending = some (tx, hash))
    (hpass : passes tx = true) (hversion : 2 ≤ tx.version)
    (htype : tx.rctSignatures.type = rctTypeBulletproof) :
    tx.rctSignatures ∈ delayed (es.map (settle passes)) := by
  have hmem : e ∈ es.map (settle passes) :=
    List.mem_map.mpr ⟨e, he, settle_of_passes hpending hpass⟩
  exact mem_delayed hmem hpending hversion htype

/-- Where all delayed proofs verify, the first loop has given the verdicts. -/
theorem passesAlone_of_verified {es : List Incoming} {e : Incoming}
    (hverified : (delayed (es.map (settle (passesFirst conf crypto cfg view
      keepedByBlock)))).all crypto.verRctSemanticsSimple = true) (he : e ∈ es) :
    Pending (fun _ tx _ => passesFirst conf crypto cfg view keepedByBlock tx =
      passesAlone conf crypto cfg view keepedByBlock tx) e := by
  intro tx hash hpending
  cases hpass : passesFirst conf crypto cfg view keepedByBlock tx with
  | false => simp [passesAlone, hpass]
  | true =>
      by_cases hproof : 2 ≤ tx.version ∧ tx.rctSignatures.type = rctTypeBulletproof
      · have hmem := mem_delayed_settle he hpending hpass hproof.1 hproof.2
        simp [passesAlone, hpass, List.all_eq_true.mp hverified _ hmem]
      · simp [passesAlone, hpass, hproof]

/-- Where they do not, the second loop gives those that are missing. A proof that was alone
is the one that failed. -/
theorem passesAlone_of_unverified {es : List Incoming} {e : Incoming}
    (hfails : (delayed (es.map (settle (passesFirst conf crypto cfg view
      keepedByBlock)))).all crypto.verRctSemanticsSimple = false)
    (he : e ∈ es) (hversion : Pending (fun _ tx _ =>
      tx.rctSignatures.type = rctTypeBulletproof → 2 ≤ tx.version) e) :
    Pending (fun _ tx _ => (passesFirst conf crypto cfg view keepedByBlock tx &&
        passesSecond crypto (decide ((delayed (es.map (settle (passesFirst conf crypto cfg view
          keepedByBlock)))).length = 1)) tx) =
      passesAlone conf crypto cfg view keepedByBlock tx) e := by
  intro tx hash hpending
  cases hpass : passesFirst conf crypto cfg view keepedByBlock tx with
  | false => simp [passesAlone, hpass]
  | true =>
      by_cases htype : tx.rctSignatures.type = rctTypeBulletproof
      · have hmem := mem_delayed_settle he hpending hpass (hversion tx hash hpending htype) htype
        have halone : passesAlone conf crypto cfg view keepedByBlock tx =
            crypto.verRctSemanticsSimple tx.rctSignatures := by
          simp [passesAlone, hpass, htype, hversion tx hash hpending htype]
        rw [halone, Bool.true_and]
        by_cases hone : (delayed (es.map (settle (passesFirst conf crypto cfg view
            keepedByBlock)))).length = 1
        · obtain ⟨rv, hrv⟩ := List.length_eq_one_iff.mp hone
          rw [hrv, List.mem_singleton] at hmem
          have hbad : crypto.verRctSemanticsSimple tx.rctSignatures = false := by
            simpa [hrv, ← hmem] using hfails
          simp [passesSecond, htype, hone, hbad]
        · simp [passesSecond, htype, hone]
      · simp [passesAlone, passesSecond, hpass, htype]

/-! ### What goes to the batch -/

/-- What `handle_incoming_tx_pre` lets through, with a serialisation that a `std::string`
can hold. -/
def Passed (ops : CryptoOps) (cfg : Config) (e : Incoming) : Prop :=
  Pending (fun blob tx _ => parseAndValidateTxFromBlob ops cfg blob = some tx ∧
    tx.version ≠ 0 ∧ (txToBlob cfg tx).length < 2 ^ 63) e

theorem passed_incoming {ρ : Type} {c : CoreState ρ} {txBlobs : List (List UInt8)}
    (hsize : ∀ blob ∈ txBlobs, ∀ tx, parseAndValidateTxFromBlob ops cfg blob = some tx →
      (txToBlob cfg tx).length < 2 ^ 63) :
    ∀ e ∈ txBlobs.map (incoming conf ops cfg view c), Passed ops cfg e := by
  intro e he
  refine (incoming_pending c txBlobs e he).mono ?_
  rintro blob tx hash ⟨hblob, hpre, -⟩
  obtain ⟨hparse, -, -, hne, -⟩ := handleIncomingTxPre_eq_some hpre
  exact ⟨hparse, hne, hsize blob hblob tx hparse⟩

theorem version_of_type {blob : List UInt8} {tx : Transaction}
    (hparse : parseAndValidateTxFromBlob ops cfg blob = some tx) (hne : tx.version ≠ 0)
    (htype : tx.rctSignatures.type = rctTypeBulletproof) : 2 ≤ tx.version := by
  by_contra hlt
  have hone : tx.version = 1 := by
    rw [UInt64.not_le] at hlt
    grind
  rw [rctSignatures_of_parse hparse hone] at htype
  exact absurd htype (by decide)

/-- The weight is only asked for when all inputs are to keys, and then it does not throw. -/
theorem tooLarge_ne_none {blob : List UInt8} {tx : Transaction}
    (hparse : parseAndValidateTxFromBlob ops cfg blob = some tx)
    (hsize : (txToBlob cfg tx).length < 2 ^ 63) (htypes : checkInputsTypesSupported tx = true) :
    tooLarge conf cfg view tx ≠ none := by
  obtain ⟨loaded, hexpand, hchecked⟩ := parsedTx_checked hparse
  have hcoinbase : isCoinbase loaded = false := by
    rw [checkInputsTypesSupported, expandTransaction1_prefix hexpand] at htypes
    rw [isCoinbase]
    split
    · rename_i hgen
      rw [hgen] at htypes
      exact absurd htypes (by simp [Txin.keyImage])
    · rfl
  have hsaves := saves_of_expanded hexpand hcoinbase hchecked
  obtain ⟨weight, hweight, -⟩ := (weightTotal_iff_of_checked hchecked hsize).2.mpr hsaves
  simp [tooLarge, hweight]

theorem checkTxSemantic_ne_none {blob : List UInt8} {tx : Transaction}
    (hparse : parseAndValidateTxFromBlob ops cfg blob = some tx)
    (hsize : (txToBlob cfg tx).length < 2 ^ 63) :
    checkTxSemantic conf crypto cfg view tx keepedByBlock ≠ none := by
  rw [checkTxSemantic]
  split
  · simp
  split
  · simp
  rename_i htypes
  rw [Bool.not_eq_false] at htypes
  have hweight : (if keepedByBlock then some false else tooLarge conf cfg view tx) ≠ none := by
    split
    · simp
    · exact tooLarge_ne_none hparse hsize htypes
  split
  · simp
  split
  · simp
  split
  · simp
  split
  · simp
  split
  · rename_i hthrows
    exact absurd hthrows hweight
  · simp
  · simp

/-! ### The batch -/

theorem settled_congr {passes passes' : Transaction → Bool} {es : List Incoming}
    (h : ∀ e ∈ es, Pending (fun _ tx _ => passes tx = passes' tx) e) :
    es.map (settle passes) = es.map (settle passes') ∧
      es.filterMap (refused passes) = es.filterMap (refused passes') :=
  ⟨List.map_congr_left fun e he => (settle_congr (h e he)).1,
    List.filterMap_congr fun e he => (settle_congr (h e he)).2⟩

/-- The batch comes to its end, settles every entry by the verdict on its transaction alone,
and marks the hashes of those that fail. -/
theorem batch_eq {es : List Incoming} {bad : BadSemanticsTxes}
    (houtside : ¬(keepedByBlock = true ∧ view.isWithinCompiledBlockHashArea = true))
    (hpassed : ∀ e ∈ es, Passed ops cfg e) :
    ∃ marks : List Hash,
      marks.Perm (es.filterMap (refused (passesAlone conf crypto cfg view keepedByBlock))) ∧
        handleIncomingTxAccumulatedBatch conf crypto cfg view keepedByBlock es bad =
          (true, markAll marks bad,
            es.map (settle (passesAlone conf crypto cfg view keepedByBlock))) := by
  have hreturns : ∀ e ∈ es, Pending (fun _ tx _ =>
      checkTxSemantic conf crypto cfg view tx keepedByBlock ≠ none) e := by
    intro e he
    refine (hpassed e he).mono ?_
    rintro blob tx hash ⟨hparse, -, hsize⟩
    exact checkTxSemantic_ne_none hparse hsize
  rw [handleIncomingTxAccumulatedBatch, if_neg houtside, checkEach_eq hreturns]
  simp only [true_and]
  split
  · rename_i hfails
    have hversions : ∀ e ∈ es, Pending (fun _ tx _ =>
        tx.rctSignatures.type = rctTypeBulletproof → 2 ≤ tx.version) e := by
      intro e he
      refine (hpassed e he).mono ?_
      rintro blob tx hash ⟨hparse, hne, -⟩
      exact version_of_type hparse hne
    obtain ⟨hsettled, hrefused⟩ := settled_congr fun e he =>
      passesAlone_of_unverified hfails he (hversions e he)
    have hperm := @refused_perm (passesFirst conf crypto cfg view keepedByBlock)
      (passesSecond crypto (decide ((delayed (es.map (settle (passesFirst conf crypto cfg view
        keepedByBlock)))).length = 1))) es
    rw [hrefused] at hperm
    refine ⟨_, hperm, ?_⟩
    rw [verifyEach_eq, List.map_map, ← hsettled, markAll, markAll, markAll, List.foldl_append]
    refine congrArg (fun settled => (true, _, settled)) (List.map_congr_left fun e _ => ?_)
    exact settle_settle e
  · rename_i hverified
    rw [Bool.not_eq_false] at hverified
    obtain ⟨hsettled, hrefused⟩ := settled_congr fun e he => passesAlone_of_verified hverified he
    rw [← hsettled, ← hrefused]
    exact ⟨_, .refl _, rfl⟩

/-! ### Marked hashes -/

theorem marked_markAll {hashes : List Hash} {bad : BadSemanticsTxes} {hash : Hash}
    (h : Marked hash (markAll hashes bad)) : hash ∈ hashes ∨ Marked hash bad := by
  induction hashes generalizing bad with
  | nil => exact .inr h
  | cons txHash hashes ih =>
      rcases ih h with hmem | hmarked
      · exact .inl (List.mem_cons_of_mem _ hmem)
      · rcases marked_setSemanticsFailed hmarked with rfl | hmarked
        · exact .inl (by simp)
        · exact .inr hmarked

/-- A hash that stays marked for `n` more hashes: one of the first set is moved at most once,
and one of the second set is dropped only when the first is full. -/
def Lasting (hash : Hash) (n : ℕ) (bad : BadSemanticsTxes) : Prop :=
  hash ∈ bad.1 ∧ n ≤ badSemanticsTxesMaxSize ∨
    hash ∈ bad.2 ∧ bad.1.card + n < badSemanticsTxesMaxSize

theorem Lasting.marked {hash : Hash} {n : ℕ} {bad : BadSemanticsTxes} (h : Lasting hash n bad) :
    Marked hash bad := h.imp And.left And.left

theorem lasting_setSemanticsFailed {hash : Hash} {n : ℕ} {bad : BadSemanticsTxes}
    (hn : n < badSemanticsTxesMaxSize) : Lasting hash n (setSemanticsFailed hash bad) := by
  rw [setSemanticsFailed]
  split
  · exact .inr ⟨by simp, by simpa using hn⟩
  · exact .inl ⟨by simp, hn.le⟩

theorem Lasting.step {hash txHash : Hash} {n : ℕ} {bad : BadSemanticsTxes}
    (h : Lasting hash (n + 1) bad) : Lasting hash n (setSemanticsFailed txHash bad) := by
  rw [setSemanticsFailed]
  rcases h with ⟨hmem, hn⟩ | ⟨hmem, hn⟩
  · split
    · exact .inr ⟨by simp [hmem], by simpa using hn⟩
    · exact .inl ⟨by simp [hmem], by omega⟩
  · have hcard := Finset.card_insert_le txHash bad.1
    have hroom : ¬badSemanticsTxesMaxSize ≤ (insert txHash bad.1).card := by omega
    simp only [if_neg hroom]
    exact .inr ⟨hmem, by simp only; omega⟩

theorem Lasting.markAll {hash : Hash} {hashes : List Hash} {bad : BadSemanticsTxes}
    (h : Lasting hash hashes.length bad) : Marked hash (markAll hashes bad) := by
  induction hashes generalizing bad with
  | nil => exact h.marked
  | cons txHash hashes ih => exact ih h.step

/-- As many hashes as one set holds are all marked in the end. -/
theorem marked_markAll_of_mem {hash : Hash} {hashes : List Hash} {bad : BadSemanticsTxes}
    (hmem : hash ∈ hashes) (hlength : hashes.length ≤ badSemanticsTxesMaxSize) :
    Marked hash (markAll hashes bad) := by
  induction hashes generalizing bad with
  | nil => cases hmem
  | cons txHash hashes ih =>
      rw [List.length_cons] at hlength
      rcases List.mem_cons.mp hmem with rfl | hmem
      · have hlast : Lasting hash hashes.length (setSemanticsFailed hash bad) :=
          lasting_setSemanticsFailed hlength
        exact hlast.markAll
      · exact ih hmem (by omega)

/-! ### The outcome -/

/-- The entry holds a transaction with this hash that fails alone. -/
def FailsIn (conf : CoreConfig) (crypto : CoreCrypto) (cfg : Config) (view : CoreView)
    (keepedByBlock : Bool) (e : Incoming) (hash : Hash) : Prop :=
  ∃ tx, e.pending = some (tx, hash) ∧ FailsAlone conf crypto cfg view keepedByBlock tx

theorem refused_passesAlone {e : Incoming} {hash : Hash} (hpassed : Passed ops cfg e) :
    refused (passesAlone conf crypto cfg view keepedByBlock) e = some hash ↔
      FailsIn conf crypto cfg view keepedByBlock e hash := by
  cases hpending : e.pending with
  | none => simp [refused, FailsIn, hpending]
  | some pair =>
      obtain ⟨tx, txHash⟩ := pair
      obtain ⟨hparse, -, hsize⟩ := hpassed tx txHash hpending
      have hiff : passesAlone conf crypto cfg view keepedByBlock tx = false ↔
          FailsAlone conf crypto cfg view keepedByBlock tx :=
        passesAlone_eq_false (checkTxSemantic_ne_none hparse hsize)
      have hfails : FailsIn conf crypto cfg view keepedByBlock e hash ↔
          txHash = hash ∧ FailsAlone conf crypto cfg view keepedByBlock tx := by
        simp [FailsIn, hpending, and_assoc]
      rw [hfails, ← hiff]
      cases hpass : passesAlone conf crypto cfg view keepedByBlock tx with
      | true =>
          rw [refused_of_passes hpending hpass]
          simp
      | false =>
          rw [refused_of_fails hpending hpass]
          simp

theorem parsed_settle {e : Incoming} {tx : Transaction} {hash : Hash}
    (hpassed : Passed ops cfg e) (hpending : e.pending = some (tx, hash)) :
    (settle (passesAlone conf crypto cfg view keepedByBlock) e).parsed = none ↔
      FailsAlone conf crypto cfg view keepedByBlock tx := by
  obtain ⟨hparse, -, hsize⟩ := hpassed tx hash hpending
  have hiff : passesAlone conf crypto cfg view keepedByBlock tx = false ↔
      FailsAlone conf crypto cfg view keepedByBlock tx :=
    passesAlone_eq_false (checkTxSemantic_ne_none hparse hsize)
  cases hpass : passesAlone conf crypto cfg view keepedByBlock tx with
  | true =>
      have hkept : e.parsed ≠ none := by
        intro hnone
        rw [Incoming.pending, hnone] at hpending
        split at hpending <;> cases hpending
      rw [settle_of_passes hpending hpass, ← hiff, hpass]
      simp [hkept]
  | false =>
      rw [settle_of_fails hpending hpass]
      exact iff_of_true rfl (hiff.mp hpass)

/-- After the batch the result of a transaction is `false` exactly when it fails alone, and the
hashes of those that fail are what goes to `set_semantics_failed`. -/
theorem batch_result_iff {es : List Incoming} {bad : BadSemanticsTxes}
    (houtside : ¬(keepedByBlock = true ∧ view.isWithinCompiledBlockHashArea = true))
    (hpassed : ∀ e ∈ es, Passed ops cfg e) :
    ∃ marks settled,
      handleIncomingTxAccumulatedBatch conf crypto cfg view keepedByBlock es bad =
        (true, markAll marks bad, settled) ∧
      List.Forall₂ (fun e e' => ∀ tx hash, e.pending = some (tx, hash) →
        (e'.parsed = none ↔ FailsAlone conf crypto cfg view keepedByBlock tx)) es settled ∧
      (∀ hash, hash ∈ marks ↔ ∃ e ∈ es, FailsIn conf crypto cfg view keepedByBlock e hash) ∧
      (∀ hash, Marked hash (markAll marks bad) → hash ∈ marks ∨ Marked hash bad) ∧
      (es.length ≤ badSemanticsTxesMaxSize →
        ∀ hash ∈ marks, Marked hash (markAll marks bad)) := by
  obtain ⟨marks, hperm, heq⟩ := @batch_eq conf crypto ops cfg view keepedByBlock es bad houtside hpassed
  refine ⟨marks, _, heq, ?_, fun hash => ?_, fun hash => marked_markAll, fun hlength hash hmem => ?_⟩
  · rw [List.forall₂_map_right_iff, List.forall₂_same]
    intro e he tx hash hpending
    exact parsed_settle (hpassed e he) hpending
  · rw [hperm.mem_iff, List.mem_filterMap]
    refine exists_congr fun e => and_congr_right fun he => ?_
    exact refused_passesAlone (hpassed e he)
  · refine marked_markAll_of_mem hmem ?_
    rw [hperm.length_eq]
    exact (List.length_filterMap_le _ _).trans hlength

end

/-! ### Five transactions, of which two fail -/

def feeCrypto : CoreCrypto :=
  ⟨fun _ => true, fun _ => true, fun rv => decide (rv.txnFee ≠ 9), fun _ => true⟩

def entryOf (tx : Transaction) (id : ℕ) : Incoming :=
  ⟨txToBlob currentConfig tx, default, some (tx, hashOfNat id), false⟩

/-- Three spends with a bulletproof, the second of which has a bad one, a payment without
any, and a transaction without inputs. -/
def mixedEntries : List Incoming :=
  [entryOf (spendingTx 20 1) 1, entryOf (spendingTx 30 9) 2, entryOf (paymentTx 0x51) 3,
    entryOf emptyTransaction 4, entryOf (spendingTx 40 2) 5]

instance (tx : Transaction) :
    Decidable (FailsAlone paymentCoreConf feeCrypto currentConfig (limitedView 300000) false tx) :=
  inferInstanceAs (Decidable (_ ∨ _ ∧ _))

theorem failsIn_entryOf {conf : CoreConfig} {crypto : CoreCrypto} {cfg : Config} {view : CoreView}
    {keepedByBlock : Bool} {tx : Transaction} {id : ℕ} {hash : Hash} :
    FailsIn conf crypto cfg view keepedByBlock (entryOf tx id) hash ↔
      hashOfNat id = hash ∧ FailsAlone conf crypto cfg view keepedByBlock tx := by
  simp [FailsIn, entryOf, Incoming.pending, and_assoc]

theorem passed_entryOf {ops : CryptoOps} {tx : Transaction} {id : ℕ}
    (hparse : parseAndValidateTxFromBlob ops currentConfig (txToBlob currentConfig tx) = some tx)
    (hversion : tx.version ≠ 0) (hsize : (txToBlob currentConfig tx).length < 2 ^ 63) :
    Passed ops currentConfig (entryOf tx id) := by
  intro tx' hash hpending
  obtain ⟨rfl, rfl⟩ := Prod.mk.inj (Option.some.inj hpending)
  exact ⟨hparse, hversion, hsize⟩

theorem passed_mixedEntries : ∀ e ∈ mixedEntries, Passed identityOps currentConfig e := by
  simp only [mixedEntries, List.forall_mem_cons]
  exact ⟨passed_entryOf (by decide +kernel) (by decide) (by decide +kernel),
    passed_entryOf (by decide +kernel) (by decide) (by decide +kernel),
    passed_entryOf (by decide +kernel) (by decide) (by decide +kernel),
    passed_entryOf (by decide +kernel) (by decide) (by decide +kernel),
    passed_entryOf (by decide +kernel) (by decide) (by decide +kernel), by simp⟩

/-- The bad proof and the empty transaction are marked, and nothing else. -/
theorem batch_result_iff_mixedEntries :
    ∃ marks settled,
      handleIncomingTxAccumulatedBatch paymentCoreConf feeCrypto currentConfig
        (limitedView 300000) false mixedEntries (∅, ∅) = (true, markAll marks (∅, ∅), settled) ∧
      List.Forall₂ (fun e e' => ∀ tx hash, e.pending = some (tx, hash) →
        (e'.parsed = none ↔ FailsAlone paymentCoreConf feeCrypto currentConfig
          (limitedView 300000) false tx)) mixedEntries settled ∧
      (∀ hash, hash ∈ marks ↔ hash = hashOfNat 2 ∨ hash = hashOfNat 4) ∧
      ∀ hash ∈ marks, Marked hash (markAll marks (∅, ∅)) := by
  have houtside : ¬((false : Bool) = true ∧
      (limitedView 300000).isWithinCompiledBlockHashArea = true) := by simp
  obtain ⟨marks, settled, heq, hresults, hmarks, -, hmarked⟩ :=
    batch_result_iff houtside passed_mixedEntries
  refine ⟨marks, settled, heq, hresults, fun hash => ?_, hmarked (by decide)⟩
  have hgood : ¬FailsAlone paymentCoreConf feeCrypto currentConfig (limitedView 300000) false
      (spendingTx 20 1) := by decide +kernel
  have hbad : FailsAlone paymentCoreConf feeCrypto currentConfig (limitedView 300000) false
      (spendingTx 30 9) := by decide +kernel
  have hpayment : ¬FailsAlone paymentCoreConf feeCrypto currentConfig (limitedView 300000) false
      (paymentTx 0x51) := by decide +kernel
  have hempty : FailsAlone paymentCoreConf feeCrypto currentConfig (limitedView 300000) false
      emptyTransaction := by decide +kernel
  have hlast : ¬FailsAlone paymentCoreConf feeCrypto currentConfig (limitedView 300000) false
      (spendingTx 40 2) := by decide +kernel
  simp [hmarks hash, mixedEntries, failsIn_entryOf, hgood, hbad, hpayment, hempty, hlast, eq_comm]

end XrCoin.Core
