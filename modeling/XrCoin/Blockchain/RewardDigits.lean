import XrCoin.Blockchain.MinerTx

/-!
`decompose_amount_into_digits` in its 64 bits, with the calls of its two handlers told apart, and
what the outputs of a miner transaction add up to.

The order goes past 64 bits only behind the last digit. Once a chunk is above the threshold,
every later digit is, so that the dust is complete when it is reported.
-/

namespace XrCoin.Cryptonote

variable {β : Type}

/-- The loop over the digits with 64-bit numbers. -/
def decomposeLoop64 (dustThreshold : UInt64) (chunkHandler dustHandler : UInt64 → β) :
    ℕ → UInt64 → UInt64 → UInt64 → Bool → List β
  | 0, _, dust, _, isDustHandled =>
      if isDustHandled = false ∧ dust ≠ 0 then [dustHandler dust] else []
  | rounds + 1, amount, dust, order, isDustHandled =>
      if amount = 0 then if isDustHandled = false ∧ dust ≠ 0 then [dustHandler dust] else []
      else
        let chunk := amount % 10 * order
        if dust + chunk ≤ dustThreshold then
          decomposeLoop64 dustThreshold chunkHandler dustHandler rounds (amount / 10) (dust + chunk)
            (order * 10) isDustHandled
        else
          (if isDustHandled = false ∧ dust ≠ 0 then [dustHandler dust] else []) ++
            ((if chunk ≠ 0 then [chunkHandler chunk] else []) ++
              decomposeLoop64 dustThreshold chunkHandler dustHandler rounds (amount / 10) dust
                (order * 10) (isDustHandled || decide (dust ≠ 0)))

section

variable {dustThreshold : UInt64} {chunkHandler dustHandler : UInt64 → β}

theorem handleDust_eq (dust : UInt64) (isDustHandled : Bool) :
    (if isDustHandled = false ∧ dust ≠ 0 then [dustHandler dust] else []) =
      handleDust (fun d => dustHandler d.toUInt64) dust.toNat isDustHandled := by
  have hzero : dust = 0 ↔ dust.toNat = 0 := UInt64.toNat_inj.symm
  simp only [handleDust, ne_eq, hzero, Nat.toUInt64, UInt64.ofNat_toNat]

/-- Nothing wraps while there is a digit left. -/
theorem decomposeLoop64_eq {rounds : ℕ} {amount dust order : UInt64} {place : ℕ}
    {isDustHandled : Bool} (hplace : amount ≠ 0 → order.toNat = place ∧
      amount.toNat * place + dust.toNat < 2 ^ 64) :
    decomposeLoop64 dustThreshold chunkHandler dustHandler rounds amount dust order isDustHandled =
      decomposeLoop dustThreshold.toNat (fun chunk => chunkHandler chunk.toUInt64)
        (fun dust => dustHandler dust.toUInt64) rounds amount.toNat dust.toNat place
        isDustHandled := by
  induction rounds generalizing amount dust order place isDustHandled with
  | zero =>
      rw [decomposeLoop64, decomposeLoop]
      exact handleDust_eq dust isDustHandled
  | succ rounds ih =>
      rw [decomposeLoop64, decomposeLoop]
      by_cases hamount : amount = 0
      · have hzero : amount.toNat = 0 := by rw [hamount]; rfl
        rw [if_pos hamount, if_pos hzero]
        exact handleDust_eq dust isDustHandled
      have hamount' : amount.toNat ≠ 0 := fun h => hamount (UInt64.toNat_inj.mp h)
      obtain ⟨rfl, hfits⟩ := hplace hamount
      have hdigit : (amount % 10).toNat = amount.toNat % 10 := UInt64.toNat_mod ..
      have hrest : (amount / 10).toNat = amount.toNat / 10 := UInt64.toNat_div ..
      have hparts : amount.toNat * order.toNat =
          amount.toNat / 10 * (order.toNat * 10) + amount.toNat % 10 * order.toNat := by
        conv_lhs => rw [← Nat.div_add_mod amount.toNat 10]
        ring
      have hchunk : (amount % 10 * order).toNat = amount.toNat % 10 * order.toNat := by
        rw [UInt64.toNat_mul, hdigit, Nat.mod_eq_of_lt (by omega)]
      have hsum : (dust + amount % 10 * order).toNat =
          dust.toNat + amount.toNat % 10 * order.toNat := by
        rw [UInt64.toNat_add, hchunk, Nat.mod_eq_of_lt (by omega)]
      have hnext : amount / 10 ≠ 0 → (order * 10).toNat = order.toNat * 10 := by
        intro hne
        have hpos : 0 < amount.toNat / 10 := by
          rw [← hrest]
          exact Nat.pos_of_ne_zero fun h => hne (UInt64.toNat_inj.mp h)
        have hle := Nat.le_mul_of_pos_left (order.toNat * 10) hpos
        rw [UInt64.toNat_mul]
        exact Nat.mod_eq_of_lt (show order.toNat * 10 < 2 ^ 64 by omega)
      rw [if_neg hamount, if_neg hamount']
      simp only [UInt64.le_iff_toNat_le, hsum]
      split
      · rw [ih fun hne => ⟨hnext hne, by rw [hrest, hsum]; omega⟩, hrest, hsum]
      · have hchunk₀ : amount % 10 * order = 0 ↔ amount.toNat % 10 * order.toNat = 0 := by
          rw [← hchunk, ← UInt64.toNat_inj]
          rfl
        have hdust₀ : dust = 0 ↔ dust.toNat = 0 := UInt64.toNat_inj.symm
        rw [ih fun hne => ⟨hnext hne, by rw [hrest]; omega⟩, hrest, handleDust_eq]
        have hback : (amount.toNat % 10 * order.toNat).toUInt64 = amount % 10 * order := by
          rw [← hchunk, Nat.toUInt64, UInt64.ofNat_toNat]
        simp only [ne_eq, hchunk₀, hdust₀, hback]

theorem decomposeAmount64_eq (amount : UInt64) :
    decomposeLoop64 dustThreshold chunkHandler dustHandler 20 amount 0 1 false =
      decomposeAmountIntoDigits amount dustThreshold chunkHandler dustHandler := by
  rw [decomposeAmountIntoDigits]
  refine decomposeLoop64_eq fun _ => ⟨rfl, ?_⟩
  have hlt := amount.toNat_lt
  simpa using hlt

end

/-! ### The calls of the handlers -/

def handlerCalls (amount dustThreshold : UInt64) : List (UInt64 ⊕ UInt64) :=
  decomposeLoop64 dustThreshold Sum.inl Sum.inr 20 amount 0 1 false

def chunks {α : Type} (calls : List (α ⊕ α)) : List α := calls.filterMap Sum.getLeft?

def dusts {α : Type} (calls : List (α ⊕ α)) : List α := calls.filterMap Sum.getRight?

section

variable {dustThreshold rounds amount dust order k : ℕ} {isDustHandled : Bool}

@[simp] theorem chunks_handleDust :
    chunks (handleDust (Sum.inr : ℕ → ℕ ⊕ ℕ) dust isDustHandled) = [] := by
  rw [handleDust]
  split <;> rfl

theorem dusts_handleDust :
    dusts (handleDust (Sum.inr : ℕ → ℕ ⊕ ℕ) dust isDustHandled) =
      if isDustHandled = false ∧ dust ≠ 0 then [dust] else [] := by
  rw [handleDust]
  split <;> rfl

theorem dusts_decomposeLoop (hdust : dust ≤ dustThreshold) :
    (dusts (decomposeLoop dustThreshold Sum.inl Sum.inr rounds amount dust order
      isDustHandled)).length ≤ (if isDustHandled then 0 else 1) ∧
    ∀ d ∈ dusts (decomposeLoop dustThreshold Sum.inl Sum.inr rounds amount dust order
      isDustHandled), 0 < d ∧ d ≤ dustThreshold := by
  have hend : ∀ {dust : ℕ} {isDustHandled : Bool}, dust ≤ dustThreshold →
      (dusts (handleDust (Sum.inr : ℕ → ℕ ⊕ ℕ) dust isDustHandled)).length ≤
        (if isDustHandled then 0 else 1) ∧
      ∀ d ∈ dusts (handleDust (Sum.inr : ℕ → ℕ ⊕ ℕ) dust isDustHandled),
        0 < d ∧ d ≤ dustThreshold := by
    intro dust isDustHandled hdust
    rw [dusts_handleDust]
    cases isDustHandled with
    | true => simp
    | false =>
        by_cases hzero : dust = 0
        · simp [hzero]
        · simp [hzero, hdust, Nat.pos_of_ne_zero hzero]
  induction rounds generalizing amount dust order isDustHandled with
  | zero =>
      rw [decomposeLoop]
      exact hend hdust
  | succ rounds ih =>
      rw [decomposeLoop]
      split
      · exact hend hdust
      simp only
      split
      · rename_i hlow
        exact ih hlow
      · have hchunk : ∀ n : ℕ, dusts (if n ≠ 0 then [(Sum.inl n : ℕ ⊕ ℕ)] else []) = [] := by
          intro n
          split <;> rfl
        obtain ⟨-, hfirst'⟩ := @hend dust isDustHandled hdust
        obtain ⟨hlater, hlater'⟩ := @ih (amount / 10) dust (order * 10)
          (isDustHandled || decide (dust ≠ 0)) hdust
        rw [dusts, List.filterMap_append, List.filterMap_append, ← dusts, ← dusts, ← dusts, hchunk,
          List.nil_append]
        constructor
        · rw [List.length_append, dusts_handleDust]
          cases isDustHandled with
          | true => simpa using hlater
          | false =>
              by_cases hzero : dust = 0
              · simpa [hzero] using hlater
              · simpa [hzero] using hlater
        · intro d hd
          rcases List.mem_append.mp hd with hd | hd
          · exact hfirst' d hd
          · exact hlater' d hd

theorem chunks_decomposeLoop :
    (∀ n ∈ chunks (decomposeLoop dustThreshold Sum.inl Sum.inr rounds amount dust (10 ^ k)
      isDustHandled), ∃ digit j, 1 ≤ digit ∧ digit ≤ 9 ∧ k ≤ j ∧ n = digit * 10 ^ j) ∧
    (chunks (decomposeLoop dustThreshold Sum.inl Sum.inr rounds amount dust (10 ^ k)
      isDustHandled)).Pairwise (· < ·) := by
  induction rounds generalizing amount dust k isDustHandled with
  | zero => simp [decomposeLoop]
  | succ rounds ih =>
      have hlater : ∀ {amount dust isDustHandled}, ∀ n ∈ chunks (decomposeLoop dustThreshold
          Sum.inl Sum.inr rounds amount dust (10 ^ (k + 1)) isDustHandled),
          ∃ digit j, 1 ≤ digit ∧ digit ≤ 9 ∧ k ≤ j ∧ n = digit * 10 ^ j := by
        intro amount dust isDustHandled n hn
        obtain ⟨digit, j, hlow, hhigh, hj, hn⟩ := ih.1 n hn
        exact ⟨digit, j, hlow, hhigh, by omega, hn⟩
      rw [decomposeLoop, ← pow_succ]
      split
      · simp
      simp only
      split
      · exact ⟨hlater, ih.2⟩
      · rw [chunks, List.filterMap_append, List.filterMap_append, ← chunks, ← chunks, ← chunks,
          chunks_handleDust, List.nil_append]
        by_cases hzero : amount % 10 * 10 ^ k = 0
        · rw [if_neg (not_not.mpr hzero)]
          exact ⟨hlater, ih.2⟩
        · have hpos : 1 ≤ amount % 10 := Nat.pos_of_ne_zero fun h => hzero (by rw [h, Nat.zero_mul])
          rw [if_pos hzero]
          refine ⟨List.forall_mem_cons.mpr ⟨⟨amount % 10, k, hpos, by omega, le_rfl, rfl⟩, hlater⟩,
            List.pairwise_cons.mpr ⟨fun n hn => ?_, ih.2⟩⟩
          obtain ⟨digit, j, hlow, -, hj, rfl⟩ := ih.1 n hn
          calc
            amount % 10 * 10 ^ k < 10 ^ (k + 1) := by
              rw [pow_succ, Nat.mul_comm]
              exact Nat.mul_lt_mul_of_pos_left (by omega) (Nat.pow_pos (by omega))
            _ ≤ 10 ^ j := Nat.pow_le_pow_right (by omega) hj
            _ ≤ digit * 10 ^ j := Nat.le_mul_of_pos_left _ hlow

end

def numberCalls (amount dustThreshold : UInt64) : List (ℕ ⊕ ℕ) :=
  decomposeLoop dustThreshold.toNat Sum.inl Sum.inr 20 amount.toNat 0 1 false

theorem handlerCalls_eq (amount dustThreshold : UInt64) :
    handlerCalls amount dustThreshold =
      (numberCalls amount dustThreshold).map (Sum.map Nat.toUInt64 Nat.toUInt64) := by
  rw [handlerCalls, decomposeAmount64_eq, decomposeAmountIntoDigits, numberCalls,
    decomposeLoop_map]
  rfl

theorem chunks_map {α γ : Type} (f : α → γ) (calls : List (α ⊕ α)) :
    chunks (calls.map (Sum.map f f)) = (chunks calls).map f := by
  rw [chunks, chunks, List.filterMap_map, List.map_filterMap]
  exact List.filterMap_congr fun call _ => by cases call <;> rfl

theorem dusts_map {α γ : Type} (f : α → γ) (calls : List (α ⊕ α)) :
    dusts (calls.map (Sum.map f f)) = (dusts calls).map f := by
  rw [dusts, dusts, List.filterMap_map, List.map_filterMap]
  exact List.filterMap_congr fun call _ => by cases call <;> rfl

theorem numberCalls_lt {amount dustThreshold : UInt64} {n : ℕ}
    (h : n ∈ chunks (numberCalls amount dustThreshold) ∨
      n ∈ dusts (numberCalls amount dustThreshold)) : n < 2 ^ 64 := by
  have hlt := amount.toNat_lt
  have hsum : (decomposeLoop dustThreshold.toNat id id 20 amount.toNat 0 1 false).sum =
      amount.toNat := by
    rw [sum_decomposeLoop _ (by omega) Nat.one_pos (by simp)]
    simp
  have hvalues : (numberCalls amount dustThreshold).map (Sum.elim id id) =
      decomposeLoop dustThreshold.toNat id id 20 amount.toNat 0 1 false := by
    rw [numberCalls, decomposeLoop_map]
    rfl
  have hmem : n ∈ (numberCalls amount dustThreshold).map (Sum.elim id id) := by
    rcases h with h | h
    · obtain ⟨call, hcall, hn⟩ := List.mem_filterMap.mp h
      cases call with
      | inl m => exact List.mem_map.mpr ⟨_, hcall, Option.some.inj hn⟩
      | inr m => cases hn
    · obtain ⟨call, hcall, hn⟩ := List.mem_filterMap.mp h
      cases call with
      | inl m => cases hn
      | inr m => exact List.mem_map.mpr ⟨_, hcall, Option.some.inj hn⟩
  rw [hvalues] at hmem
  have hle := List.single_le_sum (fun _ _ => Nat.zero_le _) n hmem
  omega

theorem toNat_of_call {amount dustThreshold : UInt64} {n : ℕ}
    (h : n ∈ chunks (numberCalls amount dustThreshold) ∨
      n ∈ dusts (numberCalls amount dustThreshold)) : n.toUInt64.toNat = n :=
  UInt64.toNat_ofNat_of_lt (numberCalls_lt h)

/-- Behind the last digit the loop does nothing, however many rounds it has. -/
theorem decomposeLoop_of_le (dustThreshold : ℕ) (chunkHandler dustHandler : ℕ → β)
    {rounds rounds' amount dust order : ℕ} {isDustHandled : Bool} (hamount : amount < 10 ^ rounds)
    (hle : rounds ≤ rounds') :
    decomposeLoop dustThreshold chunkHandler dustHandler rounds' amount dust order isDustHandled =
      decomposeLoop dustThreshold chunkHandler dustHandler rounds amount dust order
        isDustHandled := by
  induction rounds generalizing rounds' amount dust order isDustHandled with
  | zero =>
      obtain rfl : amount = 0 := by simpa using hamount
      cases rounds' with
      | zero => rfl
      | succ rounds' => rfl
  | succ rounds ih =>
      obtain ⟨rounds', rfl⟩ := Nat.exists_eq_add_one_of_ne_zero (show rounds' ≠ 0 by omega)
      have hnext : amount / 10 < 10 ^ rounds := by
        rw [pow_succ] at hamount
        omega
      simp only [decomposeLoop, ih hnext (show rounds ≤ rounds' by omega)]

end XrCoin.Cryptonote

namespace XrCoin.Blockchain

open Archive Cryptonote

/-! ### The outputs of a miner transaction -/

/-- Merging the first amounts keeps the sum, which does not wrap. -/
theorem sum_mergeOuts {maxOuts : ℕ} {first : UInt64} {outAmounts : List UInt64}
    (h : first.toNat + (outAmounts.map UInt64.toNat).sum < 2 ^ 64) :
    ((mergeOuts maxOuts first outAmounts).map UInt64.toNat).sum =
      first.toNat + (outAmounts.map UInt64.toNat).sum := by
  induction outAmounts generalizing first with
  | nil => simp [mergeOuts]
  | cons second outAmounts ih =>
      rw [List.map_cons, List.sum_cons] at h ⊢
      rw [mergeOuts]
      split
      · have hadd : (first + second).toNat = first.toNat + second.toNat := by
          rw [UInt64.toNat_add]
          exact Nat.mod_eq_of_lt (by omega)
        rw [ih (by omega), hadd]
        omega
      · simp

theorem sum_mergeAll {maxOuts : ℕ} {outAmounts : List UInt64}
    (h : (outAmounts.map UInt64.toNat).sum < 2 ^ 64) :
    ((mergeAll maxOuts outAmounts).map UInt64.toNat).sum = (outAmounts.map UInt64.toNat).sum := by
  cases outAmounts with
  | nil => rfl
  | cons first outAmounts =>
      rw [List.map_cons, List.sum_cons] at h ⊢
      exact sum_mergeOuts h

/-- The outputs add up to what is claimed, merged or not. -/
theorem sum_minerOuts {mc : MinerConfig} {c : MinerTxCall} {blockReward : UInt64}
    {outAmounts : List UInt64} (h : minerOuts mc c blockReward = some outAmounts) :
    (outAmounts.map UInt64.toNat).sum = blockReward.toNat := by
  have hsum := sum_decomposeAmount blockReward (if 2 ≤ c.version then 0 else mc.defaultDustThreshold)
  have hlt := blockReward.toNat_lt
  rw [minerOuts, limitOuts] at h
  generalize decomposeAmountIntoDigits blockReward
    (if 2 ≤ c.version then 0 else mc.defaultDustThreshold) id id = parts at h hsum
  split_ifs at h
  · rw [← Option.some.inj h, sum_mergeAll (by omega), hsum]
  · rw [← Option.some.inj h, hsum]

/-- What the handlers are called with: the amount in all; dust once at most, not zero and not
above the threshold; chunks that are valid amounts, each higher than the one before. Twenty rounds
are enough. The outputs of a miner transaction add up to the reward that is claimed, as they are
decomposed and as they are in the end. -/
theorem decompose_spec (amount dustThreshold : UInt64) :
    ((((handlerCalls amount dustThreshold).map (Sum.elim id id)).map UInt64.toNat).sum =
        amount.toNat ∧
      (dusts (handlerCalls amount dustThreshold)).length ≤ 1 ∧
      (∀ d ∈ dusts (handlerCalls amount dustThreshold), d ≠ 0 ∧ d ≤ dustThreshold) ∧
      (∀ chunk ∈ chunks (handlerCalls amount dustThreshold),
        isValidDecomposedAmount chunk = true ∧
          ∃ digit j, 1 ≤ digit ∧ digit ≤ 9 ∧ chunk.toNat = digit * 10 ^ j) ∧
      (chunks (handlerCalls amount dustThreshold)).Pairwise (· < ·) ∧
      ∀ rounds, 20 ≤ rounds → decomposeLoop64 dustThreshold Sum.inl Sum.inr rounds amount 0 1
        false = handlerCalls amount dustThreshold) ∧
    ∀ mc c weight keys tx tx', constructMinerTx mc c weight keys tx = some tx' →
      ∃ reward, getBlockReward mc.toRewardConfig c.medianWeight weight c.alreadyGeneratedCoins
          c.version c.height = some reward ∧
        ∃ blockReward, claimedReward mc c reward = some blockReward ∧
          ((decomposeAmountIntoDigits blockReward
            (if 2 ≤ c.version then 0 else mc.defaultDustThreshold) id id).map UInt64.toNat).sum =
            blockReward.toNat ∧
          (tx'.vout.toList.map fun out => out.amount.toNat).sum = blockReward.toNat := by
  have hlt := amount.toNat_lt
  refine ⟨⟨?_, ?_, ?_, ?_, ?_, fun rounds hrounds => ?_⟩, fun mc c weight keys tx tx' h => ?_⟩
  · rw [handlerCalls, decomposeAmount64_eq, decomposeAmountIntoDigits, decomposeLoop_map]
    exact sum_decomposeAmount amount dustThreshold
  · rw [handlerCalls_eq, dusts_map, List.length_map]
    exact (dusts_decomposeLoop (Nat.zero_le _)).1
  · rw [handlerCalls_eq, dusts_map, List.forall_mem_map]
    intro n hn
    have hback := toNat_of_call (.inr hn)
    obtain ⟨hpos, hle⟩ := (dusts_decomposeLoop (Nat.zero_le _)).2 n hn
    refine ⟨fun hzero => ?_, ?_⟩
    · rw [hzero] at hback
      exact hpos.ne hback
    · rw [UInt64.le_iff_toNat_le, hback]
      exact hle
  · rw [handlerCalls_eq, chunks_map, List.forall_mem_map]
    intro n hn
    have hback := toNat_of_call (.inl hn)
    have hsmall := numberCalls_lt (.inl hn)
    obtain ⟨digit, j, hlow, hhigh, -, rfl⟩ := (chunks_decomposeLoop (k := 0)).1 n hn
    exact ⟨isValidDecomposedAmount_digit hlow hhigh hsmall, digit, j, hlow, hhigh, hback⟩
  · rw [handlerCalls_eq, chunks_map, List.pairwise_map]
    refine (chunks_decomposeLoop (k := 0)).2.imp_of_mem fun hm hn hlt => ?_
    rw [UInt64.lt_iff_toNat_lt, toNat_of_call (.inl hm), toNat_of_call (.inl hn)]
    exact hlt
  · have hplace : amount ≠ 0 → (1 : UInt64).toNat = 1 ∧
        amount.toNat * 1 + (0 : UInt64).toNat < 2 ^ 64 := fun _ => ⟨rfl, by simpa using hlt⟩
    rw [handlerCalls, decomposeLoop64_eq hplace, decomposeLoop64_eq hplace,
      decomposeLoop_of_le _ _ _ (by omega) hrounds]
  · obtain ⟨reward, blockReward, outAmounts, hspec⟩ := constructMinerTx_spec h
    refine ⟨reward, hspec.reward_eq, blockReward, hspec.claimed, sum_decomposeAmount _ _, ?_⟩
    rw [← sum_minerOuts hspec.outs, ← hspec.amounts, List.map_map]
    rfl

end XrCoin.Blockchain
