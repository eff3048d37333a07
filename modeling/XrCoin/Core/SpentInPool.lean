import XrCoin.TxPool.Runs

/-!
`are_key_images_spent_in_pool`. The pool looks every key image up in its index, which is
that of the stored transactions, but it takes the vector for its answers by value. The
caller keeps the vector that it has cleared.
-/

namespace XrCoin.Core

open Archive Cryptonote TxPool

section

variable {ρ : Type}

/-- `check_for_key_images`, with the copy of `spent` that it fills. -/
def checkForKeyImages (p : Pool ρ) (keyImages : List KeyImage) (_spent : List Bool) :
    Bool × List Bool :=
  (true, keyImages.map fun image => (p.spentKeyImages image).isSome)

/-- `are_key_images_spent_in_pool`, with `spent` after the call. The parameter of
`check_for_key_images` is no reference. -/
def areKeyImagesSpentInPool (p : Pool ρ) (keyIm : List KeyImage) (_spent : List Bool) :
    Bool × List Bool :=
  let spent := []
  ((checkForKeyImages p keyIm spent).1, spent)

/-- There is one answer for each key image: whether a stored transaction spends it. -/
def AnswersSpent (ops : CryptoOps) (cfg : Config) (p : Pool ρ) (keyIm : List KeyImage)
    (spent : List Bool) : Prop :=
  List.Forall₂ (fun ki answer => answer = true ↔ ∃ row ∈ p.txpool.rows, Spends ops cfg row ki)
    keyIm spent

variable {fr : FeeRate ρ} {ops : CryptoOps} {cfg : Config} {conf : PoolConfig} {p : Pool ρ}

/-- The copy that the pool fills is right. -/
theorem answersSpent_checkForKeyImages (h : Consistent ops cfg p) (keyIm : List KeyImage)
    (spent : List Bool) : AnswersSpent ops cfg p keyIm (checkForKeyImages p keyIm spent).2 := by
  rw [AnswersSpent, checkForKeyImages, List.forall₂_map_right_iff, List.forall₂_same]
  intro ki _
  rw [h.images.isSome_iff]
  constructor
  · rintro ⟨id, row, hrow, -, hspends⟩
    exact ⟨row, hrow, hspends⟩
  · rintro ⟨row, hrow, hspends⟩
    exact ⟨row.txid, row, hrow, rfl, hspends⟩

variable [DecidableEq ρ]

/-- In every run the caller has its answers exactly when it asks for nothing. -/
theorem answersSpent_iff (h : Run fr ops cfg conf (Admissible ops cfg) p) (keyIm : List KeyImage)
    (spent : List Bool) :
    (AnswersSpent ops cfg p keyIm (areKeyImagesSpentInPool p keyIm spent).2 ↔ keyIm = []) ∧
      AnswersSpent ops cfg p keyIm (checkForKeyImages p keyIm spent).2 := by
  refine ⟨?_, answersSpent_checkForKeyImages h.consistent keyIm spent⟩
  exact List.forall₂_nil_right_iff

end

theorem run_onePayment : Run fractionRate paymentOps currentConfig paymentConf
    (Admissible paymentOps currentConfig) onePayment :=
  .step paymentView (addPayment 0x51) (.empty 200) given_first

/-- The pool has the transaction that spends the key image, and the call gives no answer. -/
theorem areKeyImagesSpentInPool_onePayment :
    Run fractionRate paymentOps currentConfig paymentConf (Admissible paymentOps currentConfig)
        onePayment ∧
      (areKeyImagesSpentInPool onePayment [List.Vector.replicate 32 0x51] []) = (true, []) ∧
      ¬AnswersSpent paymentOps currentConfig onePayment [List.Vector.replicate 32 0x51]
        (areKeyImagesSpentInPool onePayment [List.Vector.replicate 32 0x51] []).2 := by
  refine ⟨run_onePayment, rfl, ?_⟩
  rw [AnswersSpent, areKeyImagesSpentInPool, List.forall₂_nil_right_iff]
  simp

theorem answersSpent_iff_onePayment :
    (AnswersSpent paymentOps currentConfig onePayment []
        (areKeyImagesSpentInPool onePayment [] [true]).2) ∧
      AnswersSpent paymentOps currentConfig onePayment [List.Vector.replicate 32 0x51]
        (checkForKeyImages onePayment [List.Vector.replicate 32 0x51] []).2 :=
  ⟨(answersSpent_iff run_onePayment [] [true]).1.mpr rfl,
    (answersSpent_iff run_onePayment [List.Vector.replicate 32 0x51] []).2⟩

end XrCoin.Core
