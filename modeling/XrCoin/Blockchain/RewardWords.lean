import Mathlib
import XrCoin.Blockchain.RewardMedian
import XrCoin.Cryptonote.WideProduct
import XrCoin.Data.LongDivision

/-!
`get_block_reward` on machine words. The product has two words and is divided twice by a half word,
half by half; the low word of the quotient is the reward.

Where the median fits into a half word nothing is lost, so that the words are those of the numbers
and the assertions hold.
-/

namespace XrCoin.Blockchain

open Cryptonote Data

/-! ### The division -/

def divWithReminder (dividend : UInt64) (divisor remainder : UInt32) : UInt64 × UInt32 :=
  let dividend := dividend ||| (remainder.toUInt64 <<< 32)
  (dividend / divisor.toUInt64, (dividend % divisor.toUInt64).toUInt32)

/-- `div128_32`: the quotient, the low word first, and the remainder. -/
def div128_32 (dividend : UInt64 × UInt64) (divisor : UInt32) : (UInt64 × UInt64) × UInt32 :=
  let dword3 := divWithReminder (hiDword dividend.2) divisor 0
  let dword2 := divWithReminder (loDword dividend.2) divisor dword3.2
  let dword1 := divWithReminder (hiDword dividend.1) divisor dword2.2
  let dword0 := divWithReminder (loDword dividend.1) divisor dword1.2
  (((dword1.1 <<< 32) ||| dword0.1, (dword3.1 <<< 32) ||| dword2.1), dword0.2)

/-- The four halves of two words, the highest first. -/
def dwords (words : UInt64 × UInt64) : List ℕ :=
  [(hiDword words.2).toNat, (loDword words.2).toNat, (hiDword words.1).toNat,
    (loDword words.1).toNat]

theorem fixedValue_dwords (words : UInt64 × UInt64) :
    fixedValue (2 ^ 32) (dwords words) = wideValue words := by
  simp only [dwords, fixedValue, List.foldl_cons, List.foldl_nil, toNat_hiDword, toNat_loDword,
    wideValue]
  omega

theorem toNat_dword_lt (val : UInt64) :
    (hiDword val).toNat < 2 ^ 32 ∧ (loDword val).toNat < 2 ^ 32 := by
  have hval := val.toNat_lt
  rw [toNat_hiDword, toNat_loDword]
  omega

/-- Behind a remainder of the divisor, one step is one digit of the long division. -/
theorem divWithReminder_spec {dividend : UInt64} {divisor remainder : UInt32}
    (hdividend : dividend.toNat < 2 ^ 32) (hremainder : remainder.toNat < divisor.toNat) :
    (divWithReminder dividend divisor remainder).1.toNat =
        (remainder.toNat * 2 ^ 32 + dividend.toNat) / divisor.toNat ∧
      (divWithReminder dividend divisor remainder).2.toNat =
        (remainder.toNat * 2 ^ 32 + dividend.toNat) % divisor.toNat := by
  have hdivisor := divisor.toNat_lt
  have hvalue : (dividend ||| (remainder.toUInt64 <<< 32)).toNat =
      remainder.toNat * 2 ^ 32 + dividend.toNat := by
    rw [UInt64.or_comm, toNat_or_shiftDword _ _ hdividend, UInt32.toNat_toUInt64]
    omega
  constructor
  · rw [divWithReminder, UInt64.toNat_div, hvalue, UInt32.toNat_toUInt64]
  · rw [divWithReminder, UInt64.toNat_toUInt32, UInt64.toNat_mod, hvalue, UInt32.toNat_toUInt64]
    exact Nat.mod_eq_of_lt ((Nat.mod_lt _ (Nat.zero_lt_of_lt hremainder)).trans hdivisor)

theorem divWithReminder_lt {dividend : UInt64} {divisor remainder : UInt32}
    (hdividend : dividend.toNat < 2 ^ 32) (hremainder : remainder.toNat < divisor.toNat) :
    (divWithReminder dividend divisor remainder).1.toNat < 2 ^ 32 ∧
      (divWithReminder dividend divisor remainder).2.toNat < divisor.toNat := by
  obtain ⟨hquotient, hrest⟩ := divWithReminder_spec hdividend hremainder
  rw [hquotient, hrest]
  exact ⟨longDivide_digit_lt hremainder hdividend, Nat.mod_lt _ (Nat.zero_lt_of_lt hremainder)⟩

/-- Two halves put together are taken apart again. -/
theorem dwords_dwordPair {high low : UInt64} (hhigh : high.toNat < 2 ^ 32)
    (hlow : low.toNat < 2 ^ 32) :
    (hiDword ((high <<< 32) ||| low)).toNat = high.toNat ∧
      (loDword ((high <<< 32) ||| low)).toNat = low.toNat := by
  rw [toNat_hiDword, toNat_loDword, toNat_or_shiftDword _ _ hlow]
  omega

/-- The four steps are the long division of the four halves. -/
theorem dwords_div128_32 (dividend : UInt64 × UInt64) {divisor : UInt32}
    (hdivisor : 0 < divisor.toNat) :
    dwords (div128_32 dividend divisor).1 =
        (longDivide (2 ^ 32) divisor.toNat 0 (dwords dividend)).1 ∧
      (div128_32 dividend divisor).2.toNat =
        (longDivide (2 ^ 32) divisor.toNat 0 (dwords dividend)).2 := by
  obtain ⟨hhigh3, hhigh2⟩ := toNat_dword_lt dividend.2
  obtain ⟨hlow1, hlow0⟩ := toNat_dword_lt dividend.1
  have hzero : (0 : UInt32).toNat < divisor.toNat := hdivisor
  obtain ⟨hquotient3, hremainder3⟩ := divWithReminder_spec hhigh3 hzero
  obtain ⟨hlt3, hlt3'⟩ := divWithReminder_lt hhigh3 hzero
  obtain ⟨hquotient2, hremainder2⟩ := divWithReminder_spec hhigh2 hlt3'
  obtain ⟨hlt2, hlt2'⟩ := divWithReminder_lt hhigh2 hlt3'
  obtain ⟨hquotient1, hremainder1⟩ := divWithReminder_spec hlow1 hlt2'
  obtain ⟨hlt1, hlt1'⟩ := divWithReminder_lt hlow1 hlt2'
  obtain ⟨hquotient0, hremainder0⟩ := divWithReminder_spec hlow0 hlt1'
  obtain ⟨hlt0, -⟩ := divWithReminder_lt hlow0 hlt1'
  obtain ⟨hword3, hword2⟩ := dwords_dwordPair hlt3 hlt2
  obtain ⟨hword1, hword0⟩ := dwords_dwordPair hlt1 hlt0
  constructor
  · simp only [dwords, div128_32, hword3, hword2, hword1, hword0, longDivide]
    rw [hquotient0, hremainder1, hquotient1, hremainder2, hquotient2, hremainder3, hquotient3]
    rfl
  · simp only [dwords, div128_32, longDivide]
    rw [hremainder0, hremainder1, hremainder2, hremainder3]
    rfl

theorem div128_32_exact (dividend : UInt64 × UInt64) {divisor : UInt32}
    (hdivisor : 0 < divisor.toNat) :
    wideValue (div128_32 dividend divisor).1 = wideValue dividend / divisor.toNat ∧
      (div128_32 dividend divisor).2.toNat = wideValue dividend % divisor.toNat := by
  obtain ⟨hquotient, hremainder⟩ := dwords_div128_32 dividend hdivisor
  have hvalue : wideValue (div128_32 dividend divisor).1 = wideValue dividend / divisor.toNat := by
    rw [← fixedValue_dwords, hquotient, fixedValue_longDivide hdivisor, fixedValue_dwords]
  refine ⟨hvalue, ?_⟩
  have hdivision := @longDivide_eq (2 ^ 32) divisor.toNat 0 (dwords dividend)
  rw [← hquotient, ← hremainder, fixedValue_dwords, fixedValue_dwords, hvalue, Nat.zero_mul,
    Nat.zero_add] at hdivision
  have hparts := Nat.div_add_mod (wideValue dividend) divisor.toNat
  omega

/-! ### The reward -/

/-- The words of a reward above the median: the product and the quotients of the two divisions. -/
structure Penalty where
  multiplicand : UInt64
  product : UInt64 × UInt64
  once : UInt64 × UInt64
  twice : UInt64 × UInt64

/-- The part of `get_block_reward` above the median. A division by zero traps. -/
def penalty (baseReward medianWeight currentBlockWeight : UInt64) : Option Penalty :=
  let multiplicand := (2 * medianWeight - currentBlockWeight) * currentBlockWeight
  let product := mul128 baseReward multiplicand
  if medianWeight.toUInt32 = 0 then none
  else
    let once := (div128_32 product medianWeight.toUInt32).1
    let twice := (div128_32 once medianWeight.toUInt32).1
    some ⟨multiplicand, product, once, twice⟩

variable (rc : RewardConfig)

def getBlockRewardWords (medianWeight currentBlockWeight alreadyGeneratedCoins : UInt64)
    (version : UInt8) (height : ℕ) : Option UInt64 :=
  let base := baseReward rc alreadyGeneratedCoins version height
  let fullRewardZone := getMinBlockWeight rc version
  let medianWeight := if medianWeight < fullRewardZone then fullRewardZone else medianWeight
  if currentBlockWeight ≤ medianWeight then some base
  else if 2 * medianWeight < currentBlockWeight then none
  else (penalty base medianWeight currentBlockWeight).map fun p => p.twice.1

structure Penalty.Asserts (baseReward : UInt64) (p : Penalty) : Prop where
  product : hiDword baseReward * hiDword p.multiplicand ≤ p.product.2
  hi : p.twice.2 = 0
  lo : p.twice.1 < baseReward

structure Penalty.Exact (base median weight : ℕ) (p : Penalty) : Prop where
  multiplicand : p.multiplicand.toNat = (2 * median - weight) * weight
  product : wideValue p.product = base * p.multiplicand.toNat
  once : wideValue p.once = wideValue p.product / median
  twice : wideValue p.twice = wideValue p.once / median

theorem wideValue_lo (words : UInt64 × UInt64) : words.1.toNat = wideValue words % 2 ^ 64 := by
  have hlo := words.1.toNat_lt
  rw [wideValue]
  omega

theorem wideValue_hi (words : UInt64 × UInt64) : words.2.toNat = wideValue words / 2 ^ 64 := by
  have hlo := words.1.toNat_lt
  rw [wideValue]
  omega

/-- Any two divisions of a word by a divisor that is not zero keep the value. -/
theorem penalty_eq_some {base median weight : UInt64} {p : Penalty}
    (h : penalty base median weight = some p) :
    0 < median.toUInt32.toNat ∧ p.multiplicand = (2 * median - weight) * weight ∧
      wideValue p.product = base.toNat * p.multiplicand.toNat ∧
      wideValue p.once = wideValue p.product / median.toUInt32.toNat ∧
      wideValue p.twice = wideValue p.once / median.toUInt32.toNat := by
  simp only [penalty] at h
  split at h
  · cases h
  · rename_i hdivisor
    have hpos : 0 < median.toUInt32.toNat :=
      Nat.pos_of_ne_zero fun hzero => hdivisor (UInt32.toNat.inj hzero)
    obtain rfl := Option.some.inj h
    exact ⟨hpos, rfl, mul128_exact _ _, (div128_32_exact _ hpos).1, (div128_32_exact _ hpos).1⟩

/-- The words give the reward of the numbers for every median and every weight. -/
theorem penalty_penalizedReward (base median weight : UInt64) :
    (penalty base median weight).map (fun p => p.twice.1) = penalizedReward base median weight := by
  rcases hp : penalty base median weight with _ | p
  · rw [penalizedReward]
    simp only [penalty] at hp
    split at hp
    · rename_i hzero
      rw [if_pos (by rw [hzero]; rfl)]
      rfl
    · cases hp
  · obtain ⟨hpos, hmultiplicand, hproduct, honce, htwice⟩ := penalty_eq_some hp
    rw [penalizedReward, if_neg hpos.ne', ← hmultiplicand, ← hproduct, ← honce, ← htwice]
    apply congrArg some
    apply UInt64.toNat.inj
    rw [wideValue_lo, Nat.toUInt64, UInt64.toNat_ofNat']

theorem getBlockRewardWords_eq : getBlockRewardWords rc = getBlockReward rc := by
  funext median weight coins version height
  simp only [getBlockRewardWords, getBlockReward, penalty_penalizedReward]

/-! ### The penalty between the median and twice the median -/

theorem multiplicand_lt {median weight : ℕ} (habove : median < weight) (hfits : weight ≤ 2 * median) :
    (2 * median - weight) * weight < median * median := by
  obtain ⟨excess, rfl⟩ := Nat.exists_eq_add_of_lt habove
  obtain ⟨rest, hrest⟩ := Nat.exists_eq_add_of_le hfits
  rw [hrest, Nat.add_sub_cancel_left]
  obtain rfl : median = excess + 1 + rest := by omega
  nlinarith [Nat.zero_le (excess * excess)]

theorem multiplicand_anti {median lighter heavier : ℕ} (habove : median ≤ lighter)
    (hle : lighter ≤ heavier) :
    (2 * median - heavier) * heavier ≤ (2 * median - lighter) * lighter := by
  rcases Nat.lt_or_ge (2 * median) heavier with hheavy | hfits
  · rw [Nat.sub_eq_zero_of_le hheavy.le, Nat.zero_mul]
    exact Nat.zero_le _
  obtain ⟨rest, hrest⟩ := Nat.exists_eq_add_of_le hfits
  obtain ⟨more, rfl⟩ := Nat.exists_eq_add_of_le hle
  have hmore : 2 * median - lighter = rest + more := by omega
  have hless : 2 * median - (lighter + more) = rest := by omega
  rw [hless, hmore]
  -- what the lighter block has more on the left is at most what it has less on the right
  nlinarith [Nat.mul_le_mul_left more (show rest ≤ lighter by omega)]

theorem penalized_lt {base median weight : ℕ} (hbase : 0 < base) (habove : median < weight)
    (hfits : weight ≤ 2 * median) : penalized base median weight < base := by
  apply Nat.div_lt_of_lt_mul
  calc
    base * ((2 * median - weight) * weight) < base * (median * median) :=
      Nat.mul_lt_mul_of_pos_left (multiplicand_lt habove hfits) hbase
    _ = median * median * base := Nat.mul_comm _ _

theorem penalized_anti {base median lighter heavier : ℕ} (habove : median ≤ lighter)
    (hle : lighter ≤ heavier) : penalized base median heavier ≤ penalized base median lighter :=
  Nat.div_le_div_right (Nat.mul_le_mul_left base (multiplicand_anti habove hle))

theorem penalty_spec {base median weight : UInt64} (hbase : 0 < base.toNat)
    (hmedian : median.toNat < 2 ^ 32) (habove : median.toNat < weight.toNat)
    (hfits : weight.toNat ≤ 2 * median.toNat) :
    ∃ p, penalty base median weight = some p ∧
      p.Exact base.toNat median.toNat weight.toNat ∧ p.Asserts base ∧
      p.twice.1.toNat = penalized base.toNat median.toNat weight.toNat := by
  have hdivisor : median.toUInt32.toNat = median.toNat := by
    rw [UInt64.toNat_toUInt32]
    exact Nat.mod_eq_of_lt hmedian
  obtain ⟨p, hp⟩ : ∃ p, penalty base median weight = some p := by
    have hne : median.toUInt32 ≠ 0 := by
      intro hzero
      rw [hzero] at hdivisor
      have hmedianZero : median.toNat = 0 := hdivisor.symm
      omega
    simp only [penalty, if_neg hne, Option.some.injEq, exists_eq']
  obtain ⟨-, hmultiplicand, hproduct, honce, htwice⟩ := penalty_eq_some hp
  have hexact : p.Exact base.toNat median.toNat weight.toNat :=
    { multiplicand := by rw [hmultiplicand, toNat_multiplicand hmedian hfits]
      product := hproduct
      once := by rw [honce, hdivisor]
      twice := by rw [htwice, hdivisor] }
  have hvalue : wideValue p.twice = penalized base.toNat median.toNat weight.toNat := by
    rw [hexact.twice, hexact.once, hexact.product, hexact.multiplicand, Nat.div_div_eq_div_mul,
      penalized]
  have hlt : wideValue p.twice < base.toNat := by
    rw [hvalue]
    exact penalized_lt hbase habove hfits
  have hbaseLt := base.toNat_lt
  have hlo : p.twice.1.toNat = wideValue p.twice := by
    rw [wideValue_lo]
    exact Nat.mod_eq_of_lt (hlt.trans hbaseLt)
  refine ⟨p, hp, hexact, ⟨?_, ?_, ?_⟩, hlo.trans hvalue⟩
  · -- the upper halves alone are part of the product
    rw [UInt64.le_iff_toNat_le, wideValue_hi, hproduct,
      (toNat_mul_dwords (toNat_dword_lt base).1 (toNat_dword_lt p.multiplicand).1).1,
      toNat_hiDword, toNat_hiDword, Nat.le_div_iff_mul_le (by norm_num)]
    calc
      base.toNat / 2 ^ 32 * (p.multiplicand.toNat / 2 ^ 32) * 2 ^ 64
          = base.toNat / 2 ^ 32 * 2 ^ 32 * (p.multiplicand.toNat / 2 ^ 32 * 2 ^ 32) := by ring
      _ ≤ base.toNat * p.multiplicand.toNat :=
        Nat.mul_le_mul (Nat.div_mul_le_self _ _) (Nat.div_mul_le_self _ _)
  · apply UInt64.toNat.inj
    rw [wideValue_hi]
    exact Nat.div_eq_of_lt (hlt.trans hbaseLt)
  · rwa [UInt64.lt_iff_toNat_lt, hlo]

/-! ### The reward in full -/

/-- The constants: the zone of the full reward fits into a half word, and the subsidy is never
zero. -/
structure RewardConfig.Sound (rc : RewardConfig) : Prop where
  zone : rc.blockGrantedFullRewardZoneV1.toNat < 2 ^ 32
  targetV1 : 60 ≤ rc.difficultyTargetV1
  targetV2 : 60 ≤ rc.difficultyTargetV2
  subsidy : 0 < rc.finalSubsidyPerMinute.toNat
  fitsV1 : rc.finalSubsidyPerMinute.toNat * (rc.difficultyTargetV1 / 60) < 2 ^ 64
  fitsV2 : rc.finalSubsidyPerMinute.toNat * (rc.difficultyTargetV2 / 60) < 2 ^ 64

variable {rc}

theorem RewardConfig.Sound.minutes (hrc : rc.Sound) (version : UInt8) (height : ℕ) :
    0 < targetMinutes rc version height ∧
      rc.finalSubsidyPerMinute.toNat * targetMinutes rc version height < 2 ^ 64 := by
  rw [targetMinutes]
  split
  · exact ⟨Nat.div_pos hrc.targetV1 (by norm_num), hrc.fitsV1⟩
  · exact ⟨Nat.div_pos hrc.targetV2 (by norm_num), hrc.fitsV2⟩

theorem RewardConfig.Sound.baseReward_pos (hrc : rc.Sound) (coins : UInt64) (version : UInt8)
    (height : ℕ) : 0 < (baseReward rc coins version height).toNat := by
  obtain ⟨hminutes, hfits⟩ := hrc.minutes version height
  have hsubsidy : 0 <
      (rc.finalSubsidyPerMinute * (targetMinutes rc version height).toUInt64).toNat := by
    have hle := Nat.le_mul_of_pos_left (targetMinutes rc version height) hrc.subsidy
    have hsmall : targetMinutes rc version height % 2 ^ 64 = targetMinutes rc version height :=
      Nat.mod_eq_of_lt (hle.trans_lt hfits)
    rw [UInt64.toNat_mul, Nat.toUInt64, UInt64.toNat_ofNat', hsmall, Nat.mod_eq_of_lt hfits]
    exact Nat.mul_pos hrc.subsidy hminutes
  rw [baseReward]
  split
  · exact hsubsidy
  · rename_i hle
    rw [UInt64.lt_iff_toNat_lt] at hle
    omega

theorem RewardConfig.Sound.softMedian_lt (hrc : rc.Sound) (version : UInt8) {median : UInt64}
    (hmedian : median.toNat < 2 ^ 32) : (softMedian rc version median).toNat < 2 ^ 32 := by
  rw [toNat_softMedian, getMinBlockWeight]
  split
  · exact max_lt (by decide) hmedian
  · exact max_lt hrc.zone hmedian

structure RewardSpec (base median weight : UInt64) (reward : Option UInt64) : Prop where
  fails : reward = none ↔ 2 * median.toNat < weight.toNat
  whole : weight.toNat ≤ median.toNat → reward = some base
  reduced : median.toNat < weight.toNat → weight.toNat ≤ 2 * median.toNat →
    ∃ p r, penalty base median weight = some p ∧ reward = some r ∧
      p.Exact base.toNat median.toNat weight.toNat ∧ p.Asserts base ∧
      r.toNat = base.toNat * (2 * median.toNat - weight.toNat) * weight.toNat / median.toNat /
        median.toNat ∧
      r.toNat = base.toNat * weight.toNat * (2 * median.toNat - weight.toNat) / median.toNat ^ 2

theorem getBlockRewardWords_cases (hrc : rc.Sound) {median : UInt64}
    (hmedian : median.toNat < 2 ^ 32) (weight coins : UInt64) (version : UInt8) (height : ℕ) :
    (2 * (softMedian rc version median).toNat < weight.toNat →
        getBlockRewardWords rc median weight coins version height = none) ∧
      (weight.toNat ≤ (softMedian rc version median).toNat →
        getBlockRewardWords rc median weight coins version height =
          some (baseReward rc coins version height)) ∧
      ((softMedian rc version median).toNat < weight.toNat →
        weight.toNat ≤ 2 * (softMedian rc version median).toNat →
        getBlockRewardWords rc median weight coins version height =
          (penalty (baseReward rc coins version height) (softMedian rc version median) weight).map
            fun p => p.twice.1) := by
  have htwice := toNat_double (hrc.softMedian_lt version hmedian)
  have hwords : getBlockRewardWords rc median weight coins version height =
      if weight.toNat ≤ (softMedian rc version median).toNat then
        some (baseReward rc coins version height)
      else if 2 * (softMedian rc version median).toNat < weight.toNat then none
      else (penalty (baseReward rc coins version height) (softMedian rc version median) weight).map
        fun p => p.twice.1 := by
    simp only [← htwice, ← UInt64.lt_iff_toNat_lt, ← UInt64.le_iff_toNat_le]
    rfl
  rw [hwords]
  refine ⟨fun hheavy => ?_, fun hlight => if_pos hlight, fun habove hfits => ?_⟩
  · rw [if_neg (by omega), if_pos hheavy]
  · rw [if_neg (by omega), if_neg (by omega)]

theorem getBlockRewardWords_spec (hrc : rc.Sound) {median : UInt64} (hmedian : median.toNat < 2 ^ 32)
    (weight coins : UInt64) (version : UInt8) (height : ℕ) :
    RewardSpec (baseReward rc coins version height) (softMedian rc version median) weight
      (getBlockRewardWords rc median weight coins version height) := by
  obtain ⟨hheavy, hlight, hbetween⟩ :=
    getBlockRewardWords_cases hrc hmedian weight coins version height
  have hbase := hrc.baseReward_pos coins version height
  have hsoft := hrc.softMedian_lt version hmedian
  have hreduced (habove : (softMedian rc version median).toNat < weight.toNat)
      (hfits : weight.toNat ≤ 2 * (softMedian rc version median).toNat) :
      ∃ p, penalty (baseReward rc coins version height) (softMedian rc version median) weight =
          some p ∧
        getBlockRewardWords rc median weight coins version height = some p.twice.1 ∧
        p.Exact (baseReward rc coins version height).toNat (softMedian rc version median).toNat
          weight.toNat ∧
        p.Asserts (baseReward rc coins version height) ∧
        p.twice.1.toNat = penalized (baseReward rc coins version height).toNat
          (softMedian rc version median).toNat weight.toNat := by
    obtain ⟨p, hp, hexact, hasserts, hvalue⟩ := penalty_spec hbase hsoft habove hfits
    refine ⟨p, hp, ?_, hexact, hasserts, hvalue⟩
    rw [hbetween habove hfits, hp]
    rfl
  refine ⟨⟨fun hfails => ?_, hheavy⟩, hlight, fun habove hfits => ?_⟩
  · by_contra hfits
    rcases Nat.lt_or_ge (softMedian rc version median).toNat weight.toNat with habove | hbelow
    · obtain ⟨p, -, hsome, -⟩ := hreduced habove (not_lt.mp hfits)
      rw [hfails] at hsome
      cases hsome
    · rw [hlight hbelow] at hfails
      cases hfails
  · obtain ⟨p, hp, hreward, hexact, hasserts, hvalue⟩ := hreduced habove hfits
    refine ⟨p, p.twice.1, hp, hreward, hexact, hasserts, ?_, ?_⟩
    · rw [hvalue, penalized, Nat.div_div_eq_div_mul, Nat.mul_assoc]
    · rw [hvalue, penalized, Nat.pow_two, Nat.mul_assoc, Nat.mul_comm weight.toNat]

theorem getBlockRewardWords_anti (hrc : rc.Sound) {median : UInt64} (hmedian : median.toNat < 2 ^ 32)
    (coins : UInt64) (version : UInt8) (height : ℕ) {lighter heavier reward : UInt64}
    (habove : (softMedian rc version median).toNat ≤ lighter.toNat)
    (hle : lighter.toNat ≤ heavier.toNat)
    (h : getBlockRewardWords rc median heavier coins version height = some reward) :
    ∃ reward', getBlockRewardWords rc median lighter coins version height = some reward' ∧
      reward ≤ reward' := by
  have hheavier := getBlockRewardWords_spec hrc hmedian heavier coins version height
  have hlighter := getBlockRewardWords_spec hrc hmedian lighter coins version height
  have hfits : heavier.toNat ≤ 2 * (softMedian rc version median).toNat := by
    by_contra hheavy
    rw [hheavier.fails.mpr (not_le.mp hheavy)] at h
    cases h
  rcases habove.eq_or_lt with hmedianEq | hlt
  · -- the lighter block is paid the base reward
    refine ⟨_, hlighter.whole hmedianEq.ge, ?_⟩
    rcases hle.eq_or_lt with heq | hlt
    · rw [hheavier.whole (by omega)] at h
      exact (congrArg UInt64.toNat (Option.some.inj h)).ge
    · obtain ⟨p, r, -, hr, -, hasserts, hvalue, -⟩ := hheavier.reduced (by omega) hfits
      obtain rfl := Option.some.inj (h.symm.trans hr)
      rw [UInt64.le_iff_toNat_le, hvalue, Nat.div_div_eq_div_mul, Nat.mul_assoc]
      exact penalized_le hfits
  · obtain ⟨-, r, -, hr, -, -, hvalue, -⟩ := hheavier.reduced (by omega) hfits
    obtain ⟨-, r', -, hr', -, -, hvalue', -⟩ := hlighter.reduced hlt (hle.trans hfits)
    obtain rfl := Option.some.inj (h.symm.trans hr)
    refine ⟨r', hr', ?_⟩
    rw [UInt64.le_iff_toNat_le, hvalue, hvalue', Nat.div_div_eq_div_mul, Nat.mul_assoc,
      Nat.div_div_eq_div_mul, Nat.mul_assoc]
    exact penalized_anti habove hle

/-- For every median that fits into a half word, every weight, every version and every height: the
reward is that of the numbers, the words of the penalty lose nothing, the assertions hold, and a
heavier block gets no greater reward. -/
theorem getBlockReward_exact (hrc : rc.Sound) {median : UInt64} (hmedian : median.toNat < 2 ^ 32)
    (coins : UInt64) (version : UInt8) (height : ℕ) :
    (softMedian rc version median).toNat =
        max (getMinBlockWeight rc version).toNat median.toNat ∧
      (∀ weight, RewardSpec (baseReward rc coins version height) (softMedian rc version median)
        weight (getBlockRewardWords rc median weight coins version height)) ∧
      ∀ lighter heavier reward : UInt64,
        (softMedian rc version median).toNat ≤ lighter.toNat → lighter.toNat ≤ heavier.toNat →
        getBlockRewardWords rc median heavier coins version height = some reward →
        ∃ reward', getBlockRewardWords rc median lighter coins version height = some reward' ∧
          reward ≤ reward' :=
  ⟨toNat_softMedian rc version median,
    fun weight => getBlockRewardWords_spec hrc hmedian weight coins version height,
    fun _ _ _ => getBlockRewardWords_anti hrc hmedian coins version height⟩

theorem smallRewards_sound : smallRewards.Sound := by
  constructor <;> decide

/-- Half over the median three quarters of the reward are left. -/
theorem getBlockReward_exact_smallRewards :
    ∃ reward, getBlockRewardWords smallRewards 200000 450000 0 1 0 = some reward ∧
      reward.toNat = (baseReward smallRewards 0 1 0).toNat * 450000 * 150000 / 300000 ^ 2 := by
  obtain ⟨hmedian, hspec, -⟩ := getBlockReward_exact smallRewards_sound
    (show (200000 : UInt64).toNat < 2 ^ 32 by decide) 0 1 0
  have hsoft : (softMedian smallRewards 1 200000).toNat = 300000 := hmedian
  obtain ⟨-, r, -, hr, -, -, -, hvalue⟩ := (hspec 450000).reduced
    (by rw [hsoft]; decide) (by rw [hsoft]; decide)
  rw [hsoft] at hvalue
  exact ⟨r, hr, hvalue⟩

end XrCoin.Blockchain
