import XrCoin.Blockchain.MainChain
import XrCoin.Data.Runs

/-!
`prevalidate_block_hashes`: the ids of blocks against the hashes of groups of ids that are
compiled in, and what `handle_block_to_main_chain` then takes on the fast path.

The number of usable ids is an unsigned word that may start below zero. The chain that a
call reads is a parameter of it.
-/

namespace XrCoin.Blockchain

open Archive Cryptonote Data

structure PrecomputedHashes where
  step : ℕ
  hashOfHashes : List Hash
  step_pos : 0 < step
  size_lt : hashOfHashes.length * step < 2 ^ 63

structure HashVector where
  toList : List Hash
  size_lt : toList.length < 2 ^ 58

variable (ops : CryptoOps) (pre : PrecomputedHashes)

def hashGroup (group : List Hash) : Hash := ops.cnFastHash (group.flatMap fun h => h.val)

/-- The loop over a group that is added to the known ids. It stops at an entry that is
another id. -/
def writeGroup : ℕ → List Hash → List Hash → Bool × List Hash
  | _, [], check => (true, check)
  | i, h :: group, check =>
      if check.getD i nullHash = nullHash ∨ check.getD i nullHash = h then
        writeGroup (i + 1) group (check.set i h)
      else (false, check)

/-- The loop over the groups, for a number of rounds. It tells the usable ids, and nothing
when the known ids are inconsistent. -/
def checkGroups (data : List Hash) (firstIndex : ℕ) (size : UInt64) :
    ℕ → ℕ → UInt64 → List Hash → Option UInt64 × List Hash
  | 0, _, usable, check => (some usable, check)
  | rounds + 1, n, usable, check =>
      match pre.hashOfHashes[n]? with
      | some expected =>
          let start := (n - firstIndex) * pre.step
          if data.length < start + pre.step then (some usable, check)
          else
            let group := (data.drop start).take pre.step
            if hashGroup ops group ≠ expected then (some usable, check)
            else
              match writeGroup (n * pre.step) group check with
              | (false, check) => (none, check)
              | (true, check) =>
                  checkGroups data firstIndex size rounds (n + 1) (usable + pre.step.toUInt64) check
      | none =>
          let usable := usable + pre.step.toUInt64
          checkGroups data firstIndex size rounds (n + 1) (if size < usable then size else usable)
            check

/-- The index of the last group. For no ids at height 0 the subtraction wraps. -/
def lastIndex (height size : ℕ) : ℕ :=
  (if height + size = 0 then 2 ^ 64 - 1 else height + size - 1) / pre.step

/-- Whether there are not enough ids to calculate even a single hash. -/
def notEnough (height size : ℕ) : Bool :=
  height / pre.step = lastIndex pre height size ∧ size < pre.step ∧
    (height + size) % pre.step ≠ 0

/-- Whether the ids begin inside a group, above the chain. -/
def disconnected (chain : List Hash) (height : ℕ) : Bool :=
  chain.length < height ∧ height % pre.step ≠ 0

def firstIndex (chain : List Hash) (height : ℕ) : ℕ :=
  if disconnected pre chain height then height / pre.step + 1 else height / pre.step

def groupData (chain : List Hash) (height : ℕ) (hashes : List Hash) : List Hash :=
  if disconnected pre chain height then hashes.drop (pre.step - height % pre.step)
  else (chain.take height).drop (height / pre.step * pre.step) ++ hashes

/-- `prevalidate_block_hashes` on the ids of the chain. -/
def prevalidateBlockHashes (chain : List Hash) (height : UInt64) (hashes : HashVector)
    (check : List Hash) : UInt64 × List Hash :=
  let size := hashes.toList.length
  if pre.hashOfHashes.length * pre.step ≤ height.toNat then (size.toUInt64, check)
  else if check = [] then (size.toUInt64, check)
  else if notEnough pre height.toNat size then (size.toUInt64, check)
  else
    let first := firstIndex pre chain height.toNat
    match checkGroups ops pre (groupData pre chain height.toNat hashes.toList) first size.toUInt64
        (lastIndex pre height.toNat size + 1 - first) first
        ((first * pre.step).toUInt64 - height) check with
    | (none, check) => (0, check)
    | (some usable, check) =>
        if usable < 9223372036854775807 then (usable, check) else (0, check)

structure PrevalidateCall where
  chain : List Hash
  height : UInt64
  hashes : HashVector

def PrevalidateCall.apply (check : List Hash) (call : PrevalidateCall) : List Hash :=
  (prevalidateBlockHashes ops pre call.chain call.height call.hashes check).2

def emptyCheck : List Hash := List.replicate (pre.hashOfHashes.length * pre.step) nullHash

/-! ### What is known -/

def IsPreimage (group : List Hash) (expected : Hash) : Prop :=
  group.length = pre.step ∧ hashGroup ops group = expected

/-- No hash of the table has two preimages. -/
def Committing : Prop :=
  ∀ (n : ℕ) (expected : Hash) (g g' : List Hash), pre.hashOfHashes[n]? = some expected →
    IsPreimage ops pre g expected → IsPreimage ops pre g' expected → g = g'

def HoldsGroup (check : List Hash) (n : ℕ) (group : List Hash) : Prop :=
  ∀ k < pre.step, check[n * pre.step + k]? = group[k]?

/-- Each group of the known ids is empty, or is the preimage of the hash of the table. -/
structure SoundCheck (check : List Hash) : Prop where
  length : check.length = pre.hashOfHashes.length * pre.step
  groups : ∀ n expected, pre.hashOfHashes[n]? = some expected →
    HoldsGroup pre check n (List.replicate pre.step nullHash) ∨
      ∃ group, IsPreimage ops pre group expected ∧ HoldsGroup pre check n group

/-! ### Writing a group -/

theorem writeGroup_spec {group check : List Hash} {i : ℕ} (hfits : i + group.length ≤ check.length)
    (hsame : ∀ k < group.length, check[i + k]? = some nullHash ∨ check[i + k]? = group[k]?) :
    ∃ check', writeGroup i group check = (true, check') ∧ check'.length = check.length ∧
      ∀ j, check'[j]? = if i ≤ j ∧ j < i + group.length then group[j - i]? else check[j]? := by
  induction group generalizing i check with
  | nil =>
      refine ⟨check, rfl, rfl, fun j => ?_⟩
      rw [List.length_nil, if_neg (by omega)]
  | cons h group ih =>
      rw [List.length_cons] at hfits
      have hi : i < check.length := by omega
      have hfirst := hsame 0 (Nat.zero_lt_succ _)
      rw [Nat.add_zero, List.getElem?_cons_zero] at hfirst
      have hentry : check.getD i nullHash = nullHash ∨ check.getD i nullHash = h := by
        rw [List.getD_eq_getElem?_getD]
        exact hfirst.imp (fun hnull => by rw [hnull]; rfl) fun hid => by rw [hid]; rfl
      have hfits' : i + 1 + group.length ≤ (check.set i h).length := by
        rw [List.length_set]
        omega
      have hsame' : ∀ k < group.length, (check.set i h)[i + 1 + k]? = some nullHash ∨
          (check.set i h)[i + 1 + k]? = group[k]? := by
        intro k hk
        rw [List.getElem?_set_ne (by omega), show i + 1 + k = i + (k + 1) by omega]
        exact hsame (k + 1) (by rw [List.length_cons]; omega)
      rw [writeGroup, if_pos hentry]
      obtain ⟨check', hwrite, hlength, hget⟩ := ih hfits' hsame'
      refine ⟨check', hwrite, by rw [hlength, List.length_set], fun j => ?_⟩
      rw [hget, List.length_cons]
      rcases Nat.lt_trichotomy j i with hlt | rfl | hgt
      · rw [if_neg (by omega), if_neg (by omega), List.getElem?_set_ne (by omega)]
      · rw [if_neg (by omega), if_pos (by omega), Nat.sub_self, List.getElem?_set_self hi,
          List.getElem?_cons_zero]
      · by_cases hin : j < i + 1 + group.length
        · rw [if_pos (by omega), if_pos (by omega), show j - i = j - (i + 1) + 1 by omega,
            List.getElem?_cons_succ]
        · rw [if_neg (by omega), if_neg (by omega), List.getElem?_set_ne (by omega)]

variable {ops pre}

theorem index_outside {m n k step : ℕ} (hk : k < step) (hne : m ≠ n) :
    ¬(n * step ≤ m * step + k ∧ m * step + k < n * step + step) := by
  rintro ⟨hle, hlt⟩
  rcases Nat.lt_or_gt_of_ne hne with h | h
  · have hmul := Nat.mul_le_mul_right step (Nat.succ_le_of_lt h)
    rw [Nat.succ_mul] at hmul
    omega
  · have hmul := Nat.mul_le_mul_right step (Nat.succ_le_of_lt h)
    rw [Nat.succ_mul] at hmul
    omega

/-- A preimage can be added, and is in its place afterwards. -/
theorem SoundCheck.write (hcommit : Committing ops pre) {check : List Hash}
    (h : SoundCheck ops pre check) {n : ℕ} {expected : Hash} {group : List Hash}
    (hn : pre.hashOfHashes[n]? = some expected) (hgroup : IsPreimage ops pre group expected) :
    ∃ check', writeGroup (n * pre.step) group check = (true, check') ∧
      SoundCheck ops pre check' ∧ HoldsGroup pre check' n group ∧
      ∀ m g, m ≠ n → HoldsGroup pre check m g → HoldsGroup pre check' m g := by
  have hlt : n < pre.hashOfHashes.length := (List.getElem?_eq_some_iff.mp hn).1
  have hfits : n * pre.step + group.length ≤ check.length := by
    rw [hgroup.1, h.length, ← Nat.succ_mul]
    exact Nat.mul_le_mul_right _ hlt
  have hsame : ∀ k < group.length, check[n * pre.step + k]? = some nullHash ∨
      check[n * pre.step + k]? = group[k]? := by
    intro k hk
    rw [hgroup.1] at hk
    rcases h.groups n expected hn with hnull | ⟨group', hgroup', hholds⟩
    · left
      rw [hnull k hk, List.getElem?_replicate, if_pos hk]
    · right
      rw [hholds k hk, hcommit n expected group' group hn hgroup' hgroup]
  obtain ⟨check', hwrite, hlength, hget⟩ := writeGroup_spec hfits hsame
  rw [hgroup.1] at hget
  have hholds : HoldsGroup pre check' n group := by
    intro k hk
    rw [hget, if_pos ⟨Nat.le_add_right _ _, Nat.add_lt_add_left hk _⟩, Nat.add_sub_cancel_left]
  have hother : ∀ m g, m ≠ n → HoldsGroup pre check m g → HoldsGroup pre check' m g := by
    intro m g hne hm k hk
    rw [hget, if_neg (index_outside hk hne)]
    exact hm k hk
  refine ⟨check', hwrite, ⟨hlength.trans h.length, fun m expected' hm => ?_⟩, hholds, hother⟩
  by_cases hne : m = n
  · subst hne
    rw [hn] at hm
    obtain rfl := Option.some.inj hm
    exact .inr ⟨group, hgroup, hholds⟩
  · rcases h.groups m expected' hm with hnull | ⟨group', hgroup', hholds'⟩
    · exact .inl (hother m _ hne hnull)
    · exact .inr ⟨group', hgroup', hother m _ hne hholds'⟩

theorem soundCheck_emptyCheck : SoundCheck ops pre (emptyCheck pre) := by
  refine ⟨List.length_replicate, fun n expected hn => .inl fun k hk => ?_⟩
  have hlt : n < pre.hashOfHashes.length := (List.getElem?_eq_some_iff.mp hn).1
  have hfits := Nat.mul_le_mul_right pre.step (Nat.succ_le_of_lt hlt)
  rw [Nat.succ_mul] at hfits
  rw [emptyCheck, List.getElem?_replicate, List.getElem?_replicate, if_pos hk, if_pos (by omega)]

/-! ### The loop over the groups -/

def dataGroup (step : ℕ) (data : List Hash) (firstIndex n : ℕ) : List Hash :=
  (data.drop ((n - firstIndex) * step)).take step

variable (pre) in
/-- The usable ids, when the groups below an index are checked: those below the index, or
fewer behind the end of the table. -/
def Usable (height : UInt64) (size n : ℕ) (usable : UInt64) : Prop :=
  (n ≤ pre.hashOfHashes.length ∧ n * pre.step ≤ height.toNat + size ∧
      usable = (n * pre.step).toUInt64 - height) ∨
    (pre.hashOfHashes.length < n ∧ usable.toNat ≤ size ∧
      height.toNat + usable.toNat ≤ n * pre.step)

theorem toNat_toUInt64 {n : ℕ} (h : n < 2 ^ 63) : n.toUInt64.toNat = n :=
  UInt64.toNat_ofNat_of_lt' (Nat.lt_trans h (by decide))

theorem toNat_usable {height : UInt64} {n : ℕ} (hn : n ≤ pre.hashOfHashes.length)
    (hle : height.toNat ≤ n * pre.step) :
    ((n * pre.step).toUInt64 - height).toNat = n * pre.step - height.toNat := by
  have hlt : n * pre.step < 2 ^ 63 := Nat.lt_of_le_of_lt (Nat.mul_le_mul_right _ hn) pre.size_lt
  rw [UInt64.toNat_sub_of_le, toNat_toUInt64 hlt]
  rw [UInt64.le_iff_toNat_le, toNat_toUInt64 hlt]
  exact hle

theorem Usable.inside {height usable : UInt64} {size n : ℕ} (h : Usable pre height size n usable)
    (hn : n < pre.hashOfHashes.length) (hfits : (n + 1) * pre.step ≤ height.toNat + size) :
    Usable pre height size (n + 1) (usable + pre.step.toUInt64) := by
  rcases h with ⟨-, -, rfl⟩ | ⟨hbeyond, -⟩
  · refine .inl ⟨hn, hfits, ?_⟩
    have hadd : ((n + 1) * pre.step).toUInt64 = (n * pre.step).toUInt64 + pre.step.toUInt64 := by
      rw [Nat.succ_mul]
      exact UInt64.ofNat_add _ _
    rw [hadd, UInt64.sub_eq_add_neg, UInt64.sub_eq_add_neg, UInt64.add_assoc,
      UInt64.add_comm (-height), ← UInt64.add_assoc]
  · omega

theorem Usable.beyond {height usable : UInt64} {size n : ℕ} (h : Usable pre height size n usable)
    (hn : pre.hashOfHashes.length ≤ n)
    (hheight : height.toNat < pre.hashOfHashes.length * pre.step) (hsize : size < 2 ^ 58) :
    Usable pre height size (n + 1) (if size.toUInt64 < usable + pre.step.toUInt64
      then size.toUInt64 else usable + pre.step.toUInt64) := by
  have htable : 0 < pre.hashOfHashes.length := by
    rcases Nat.eq_zero_or_pos pre.hashOfHashes.length with hzero | hpos
    · rw [hzero, Nat.zero_mul] at hheight
      omega
    · exact hpos
  have hstep : pre.step < 2 ^ 63 := by
    have hle := Nat.mul_le_mul_right pre.step (Nat.succ_le_of_lt htable)
    rw [Nat.succ_mul, Nat.zero_mul, Nat.zero_add] at hle
    exact Nat.lt_of_le_of_lt hle pre.size_lt
  -- the usable ids end below the index, and are no more than there are
  have hbound : usable.toNat ≤ size ∧ height.toNat + usable.toNat ≤ n * pre.step := by
    rcases h with ⟨hle, hfits, rfl⟩ | ⟨-, hbound⟩
    · obtain rfl : n = pre.hashOfHashes.length := Nat.le_antisymm hle hn
      rw [toNat_usable le_rfl hheight.le]
      omega
    · exact hbound
  have hsum : (usable + pre.step.toUInt64).toNat = usable.toNat + pre.step := by
    rw [UInt64.toNat_add, toNat_toUInt64 hstep]
    omega
  refine .inr ⟨Nat.lt_succ_of_le hn, ?_⟩
  rw [Nat.succ_mul]
  split
  · rename_i hmore
    rw [UInt64.lt_iff_toNat_lt, hsum, toNat_toUInt64 (by omega)] at hmore
    rw [toNat_toUInt64 (by omega)]
    omega
  · rename_i hmore
    rw [UInt64.lt_iff_toNat_lt, hsum, toNat_toUInt64 (by omega)] at hmore
    rw [hsum]
    omega

/-- The loop keeps the known ids sound, and the groups below the usable ids are known. -/
theorem checkGroups_spec (hcommit : Committing ops pre) {data : List Hash} {first size : ℕ}
    {height : UInt64} (hdata : first * pre.step + data.length = height.toNat + size)
    (hheight : height.toNat < pre.hashOfHashes.length * pre.step) (hsize : size < 2 ^ 58)
    (rounds : ℕ) {n : ℕ} {usable : UInt64} {check : List Hash} (hfirst : first ≤ n)
    (hcheck : SoundCheck ops pre check) (husable : Usable pre height size n usable)
    (hdone : ∀ m, first ≤ m → m < n → m < pre.hashOfHashes.length →
      HoldsGroup pre check m (dataGroup pre.step data first m)) :
    ∃ usable' check' n', checkGroups ops pre data first size.toUInt64 rounds n usable check =
        (some usable', check') ∧ SoundCheck ops pre check' ∧
      Usable pre height size n' usable' ∧
      ∀ m, first ≤ m → m < n' → m < pre.hashOfHashes.length →
        HoldsGroup pre check' m (dataGroup pre.step data first m) := by
  induction rounds generalizing n usable check with
  | zero => exact ⟨usable, check, n, rfl, hcheck, husable, hdone⟩
  | succ rounds ih =>
      rw [checkGroups]
      cases hexpected : pre.hashOfHashes[n]? with
      | none =>
          have hn : pre.hashOfHashes.length ≤ n := List.getElem?_eq_none_iff.mp hexpected
          apply ih (Nat.le_succ_of_le hfirst) hcheck (husable.beyond hn hheight hsize)
          intro m hm hlt hinside
          exact hdone m hm (Nat.lt_of_lt_of_le hinside hn) hinside
      | some expected =>
          have hn : n < pre.hashOfHashes.length := (List.getElem?_eq_some_iff.mp hexpected).1
          simp only
          split
          · exact ⟨usable, check, n, rfl, hcheck, husable, hdone⟩
          rename_i hfull
          split
          · exact ⟨usable, check, n, rfl, hcheck, husable, hdone⟩
          rename_i hvalid
          have hmul := Nat.mul_le_mul_right pre.step hfirst
          rw [Nat.sub_mul] at hfull
          have hgroup : IsPreimage ops pre (dataGroup pre.step data first n) expected := by
            refine ⟨?_, not_not.mp hvalid⟩
            rw [dataGroup, List.length_take, List.length_drop, Nat.sub_mul]
            omega
          obtain ⟨check', hwrite, hcheck', hholds, hother⟩ := hcheck.write hcommit hexpected hgroup
          rw [← dataGroup, hwrite]
          have hfits : (n + 1) * pre.step ≤ height.toNat + size := by
            rw [Nat.succ_mul]
            omega
          apply ih (Nat.le_succ_of_le hfirst) hcheck' (husable.inside hn hfits)
          intro m hm hlt hinside
          rcases Nat.lt_succ_iff_lt_or_eq.mp hlt with hbelow | rfl
          · exact hother m _ (Nat.ne_of_lt hbelow) (hdone m hm hbelow hinside)
          · exact hholds

/-- A count that is not negative: the usable ids are among those of the call, and lie below
the index. -/
theorem Usable.bounds {height usable : UInt64} {size n : ℕ} (h : Usable pre height size n usable)
    (hheight : height.toNat < pre.hashOfHashes.length * pre.step)
    (hsmall : usable < 9223372036854775807) :
    usable.toNat ≤ size ∧ height.toNat + usable.toNat ≤ n * pre.step := by
  rcases h with ⟨hn, hfits, rfl⟩ | ⟨-, hbounds⟩
  · by_cases hle : height.toNat ≤ n * pre.step
    · rw [toNat_usable hn hle]
      omega
    · -- the difference wraps
      have hlt : n * pre.step < 2 ^ 63 :=
        Nat.lt_of_le_of_lt (Nat.mul_le_mul_right _ hn) pre.size_lt
      have htable := pre.size_lt
      rw [UInt64.lt_iff_toNat_lt, UInt64.toNat_sub, toNat_toUInt64 hlt] at hsmall
      have hmax : (9223372036854775807 : UInt64).toNat = 9223372036854775807 := rfl
      omega
  · exact hbounds

/-! ### The data of a call -/

theorem firstIndex_le {chain : List Hash} {height : ℕ}
    (h : height < pre.hashOfHashes.length * pre.step) :
    firstIndex pre chain height ≤ pre.hashOfHashes.length := by
  have hlt : height / pre.step < pre.hashOfHashes.length :=
    (Nat.div_lt_iff_lt_mul pre.step_pos).mpr h
  rw [firstIndex]
  split <;> omega

/-- Where the ids of a disconnected call are not enough to reach the next group, there are
not enough to calculate a hash. -/
theorem le_size_of_disconnected {chain : List Hash} {height size : ℕ}
    (hdis : disconnected pre chain height = true) (henough : notEnough pre height size = false) :
    pre.step - height % pre.step ≤ size := by
  by_contra hfew
  have hmod : height % pre.step ≠ 0 := (of_decide_eq_true hdis).2
  have hlt := Nat.mod_lt height pre.step_pos
  have hheight := Nat.div_add_mod' height pre.step
  have hlast : lastIndex pre height size = height / pre.step := by
    rw [lastIndex, if_neg (by omega)]
    apply Nat.div_eq_of_lt_le
    · omega
    · rw [Nat.succ_mul]
      omega
  have hrest : (height + size) % pre.step = height % pre.step + size := by
    have hsum : height + size = height / pre.step * pre.step + (height % pre.step + size) := by
      omega
    rw [hsum, Nat.mul_add_mod_self_right, Nat.mod_eq_of_lt (by omega)]
  refine absurd henough ?_
  rw [notEnough, hlast, hrest]
  simp only [decide_eq_false_iff_not, not_not]
  exact ⟨trivial, by omega, by omega⟩

theorem firstIndex_mul_of_disconnected {chain : List Hash} {height : ℕ}
    (hdis : disconnected pre chain height = true) :
    firstIndex pre chain height * pre.step =
      height + (pre.step - height % pre.step) := by
  have hlt := Nat.mod_lt height pre.step_pos
  have hheight := Nat.div_add_mod' height pre.step
  rw [firstIndex, if_pos hdis, Nat.succ_mul]
  omega

/-- The ids of the chain that a connected call puts in front. -/
theorem length_chainPart {chain : List Hash} {height : ℕ}
    (hdis : ¬disconnected pre chain height = true) :
    ((chain.take height).drop (height / pre.step * pre.step)).length =
      height - height / pre.step * pre.step := by
  rw [disconnected, decide_eq_true_eq, not_and_or, not_lt, not_not] at hdis
  have hheight := Nat.div_add_mod' height pre.step
  rw [List.length_drop, List.length_take]
  omega

theorem length_groupData {chain hashes : List Hash} {height : ℕ}
    (henough : notEnough pre height hashes.length = false) :
    firstIndex pre chain height * pre.step + (groupData pre chain height hashes).length =
      height + hashes.length := by
  by_cases hdis : disconnected pre chain height = true
  · have hle := le_size_of_disconnected hdis henough
    rw [firstIndex_mul_of_disconnected hdis, groupData, if_pos hdis, List.length_drop]
    omega
  · have hheight := Nat.div_add_mod' height pre.step
    rw [groupData, if_neg hdis, firstIndex, if_neg hdis, List.length_append,
      length_chainPart hdis]
    omega

theorem getElem?_groupData {chain hashes : List Hash} {height i : ℕ}
    (hfirst : firstIndex pre chain height * pre.step ≤ height + i) :
    (groupData pre chain height hashes)[height + i - firstIndex pre chain height * pre.step]? =
      hashes[i]? := by
  by_cases hdis : disconnected pre chain height = true
  · rw [firstIndex_mul_of_disconnected hdis] at hfirst ⊢
    rw [groupData, if_pos hdis, List.getElem?_drop]
    congr 1
    omega
  · have hheight := Nat.div_add_mod' height pre.step
    have hlength := length_chainPart hdis
    rw [groupData, if_neg hdis, firstIndex, if_neg hdis, List.getElem?_append_right (by omega),
      hlength]
    congr 1
    omega

/-! ### A call -/

/-- The usable ids of a call, in the groups of the table that begin within the data. -/
def UsableKnown (pre : PrecomputedHashes) (call : PrevalidateCall) (usable : ℕ)
    (check : List Hash) : Prop :=
  ∀ i < usable, ∀ n, n = (call.height.toNat + i) / pre.step → n < pre.hashOfHashes.length →
    firstIndex pre call.chain call.height.toNat * pre.step ≤ n * pre.step →
    ((n + 1) * pre.step ≤ call.height.toNat + call.hashes.toList.length ∨
      notEnough pre call.height.toNat call.hashes.toList.length = false) →
    check[call.height.toNat + i]? = call.hashes.toList[i]?

theorem lt_of_notEnough {height size i : ℕ} (h : notEnough pre height size = true) (hi : i < size) :
    height + size < ((height + i) / pre.step + 1) * pre.step := by
  obtain ⟨hindex, -, hmod⟩ := of_decide_eq_true h
  rw [lastIndex, if_neg (by omega)] at hindex
  have hlt := Nat.lt_mul_div_succ (height + size - 1) pre.step_pos
  rw [← hindex, Nat.mul_comm] at hlt
  have hge : height / pre.step ≤ (height + i) / pre.step :=
    Nat.div_le_div_right (Nat.le_add_right _ _)
  have hmul : (height / pre.step + 1) * pre.step ≤ ((height + i) / pre.step + 1) * pre.step :=
    Nat.mul_le_mul_right pre.step (Nat.succ_le_succ hge)
  have hne : height + size ≠ ((height + i) / pre.step + 1) * pre.step := by
    intro heq
    rw [heq, Nat.mul_mod_left] at hmod
    exact absurd rfl hmod
  omega

/-- The count that the loop ends with, whatever is known. -/
theorem checkGroups_usable {data : List Hash} {first size : ℕ} {height : UInt64}
    (hdata : first * pre.step + data.length = height.toNat + size)
    (hheight : height.toNat < pre.hashOfHashes.length * pre.step) (hsize : size < 2 ^ 58)
    (rounds : ℕ) {n : ℕ} {usable usable' : UInt64} {check check' : List Hash} (hfirst : first ≤ n)
    (husable : Usable pre height size n usable)
    (hloop : checkGroups ops pre data first size.toUInt64 rounds n usable check =
      (some usable', check')) : ∃ n', Usable pre height size n' usable' := by
  induction rounds generalizing n usable check with
  | zero =>
      obtain rfl := Option.some.inj (congrArg Prod.fst hloop)
      exact ⟨n, husable⟩
  | succ rounds ih =>
      rw [checkGroups] at hloop
      cases hexpected : pre.hashOfHashes[n]? with
      | none =>
          rw [hexpected] at hloop
          have hn : pre.hashOfHashes.length ≤ n := List.getElem?_eq_none_iff.mp hexpected
          exact ih (Nat.le_succ_of_le hfirst) (husable.beyond hn hheight hsize) hloop
      | some expected =>
          have hn : n < pre.hashOfHashes.length := (List.getElem?_eq_some_iff.mp hexpected).1
          rw [hexpected] at hloop
          simp only at hloop
          split at hloop
          · obtain rfl := Option.some.inj (congrArg Prod.fst hloop)
            exact ⟨n, husable⟩
          rename_i hfull
          split at hloop
          · obtain rfl := Option.some.inj (congrArg Prod.fst hloop)
            exact ⟨n, husable⟩
          have hmul := Nat.mul_le_mul_right pre.step hfirst
          rw [Nat.sub_mul] at hfull
          have hfits : (n + 1) * pre.step ≤ height.toNat + size := by
            rw [Nat.succ_mul]
            omega
          split at hloop
          · exact absurd hloop (by simp)
          · exact ih (Nat.le_succ_of_le hfirst) (husable.inside hn hfits) hloop

/-- There are no more usable ids than ids. -/
theorem prevalidateBlockHashes_le (chain : List Hash) (height : UInt64) (hashes : HashVector)
    (check : List Hash) :
    (prevalidateBlockHashes ops pre chain height hashes check).1.toNat ≤ hashes.toList.length := by
  have hsize := hashes.size_lt
  have hall : hashes.toList.length.toUInt64.toNat = hashes.toList.length :=
    toNat_toUInt64 (Nat.lt_trans hsize (by decide))
  rw [prevalidateBlockHashes]
  simp only
  split
  · exact hall.le
  rename_i hheight
  rw [not_le] at hheight
  split
  · exact hall.le
  split
  · exact hall.le
  rename_i henough
  rw [Bool.not_eq_true] at henough
  have hdata := @length_groupData pre chain _ _ henough
  have hstart : Usable pre height hashes.toList.length (firstIndex pre chain height.toNat)
      ((firstIndex pre chain height.toNat * pre.step).toUInt64 - height) :=
    .inl ⟨firstIndex_le hheight, by omega, rfl⟩
  split
  · exact Nat.zero_le _
  · rename_i usable check' hloop
    obtain ⟨n', husable⟩ := checkGroups_usable hdata hheight hsize _ le_rfl hstart hloop
    split
    · rename_i hsmall
      exact (husable.bounds hheight hsmall).1
    · exact Nat.zero_le _

/-- What one call does on sound known ids. -/
theorem prevalidateBlockHashes_spec (hcommit : Committing ops pre) (call : PrevalidateCall)
    {check : List Hash} (hcheck : SoundCheck ops pre check) :
    ∃ usable check', prevalidateBlockHashes ops pre call.chain call.height call.hashes check =
        (usable, check') ∧ usable.toNat ≤ call.hashes.toList.length ∧
      SoundCheck ops pre check' ∧ UsableKnown pre call usable.toNat check' := by
  have hsize := call.hashes.size_lt
  have hall : call.hashes.toList.length.toUInt64.toNat = call.hashes.toList.length :=
    toNat_toUInt64 (Nat.lt_trans hsize (by decide))
  rw [prevalidateBlockHashes]
  simp only
  split
  · -- above the table
    rename_i habove
    refine ⟨_, _, rfl, hall.le, hcheck, fun i _ n hn hinside => ?_⟩
    rw [hn, Nat.div_lt_iff_lt_mul pre.step_pos] at hinside
    omega
  rename_i hheight
  rw [not_le] at hheight
  split
  · rename_i hempty
    have hlength := hcheck.length
    rw [hempty, List.length_nil] at hlength
    omega
  split
  · rename_i hnot
    refine ⟨_, _, rfl, hall.le, hcheck, fun i hi n hn _ _ hcomplete => ?_⟩
    rw [hall] at hi
    have hlt := lt_of_notEnough hnot hi
    rw [← hn] at hlt
    rcases hcomplete with hcomplete | henough
    · omega
    · rw [hnot] at henough
      exact absurd henough (by simp)
  rename_i henough
  rw [Bool.not_eq_true] at henough
  have hdata := @length_groupData pre call.chain _ _ henough
  have hstart : Usable pre call.height call.hashes.toList.length
      (firstIndex pre call.chain call.height.toNat)
      ((firstIndex pre call.chain call.height.toNat * pre.step).toUInt64 - call.height) :=
    .inl ⟨firstIndex_le hheight, by omega, rfl⟩
  obtain ⟨usable, check', n', hloop, hcheck', husable, hknown⟩ :=
    checkGroups_spec hcommit hdata hheight hsize
      (lastIndex pre call.height.toNat call.hashes.toList.length + 1 -
        firstIndex pre call.chain call.height.toNat) le_rfl hcheck hstart
      fun m hm hlt => absurd hlt (Nat.not_lt.mpr hm)
  rw [hloop]
  simp only
  split
  · rename_i hsmall
    obtain ⟨hle, hbelow⟩ := husable.bounds hheight hsmall
    refine ⟨_, _, rfl, hle, hcheck', fun i hi n hn hinside hfirst _ => ?_⟩
    have hfirst' : firstIndex pre call.chain call.height.toNat ≤ n :=
      Nat.le_of_mul_le_mul_right hfirst pre.step_pos
    have hlt : n < n' := by
      rw [hn, Nat.div_lt_iff_lt_mul pre.step_pos]
      omega
    have hmod := Nat.mod_lt (call.height.toNat + i) pre.step_pos
    have hindex := Nat.div_add_mod' (call.height.toNat + i) pre.step
    rw [← hn] at hindex
    -- the entry, in its group, in the data, in the ids of the call
    rw [← hindex, hknown n hfirst' hlt hinside _ hmod, dataGroup, List.getElem?_take_of_lt hmod,
      List.getElem?_drop, Nat.sub_mul, ← Nat.sub_add_comm hfirst, hindex,
      getElem?_groupData (by omega)]
  · exact ⟨_, _, rfl, Nat.zero_le _, hcheck', fun i hi => absurd hi (Nat.not_lt_zero i)⟩

theorem SoundCheck.fastPath {ρ : Type} {env : ChainEnv ρ} {s : ChainState ρ} {b : Block}
    (hcheck : SoundCheck ops pre s.blocksHashCheck)
    (hfast : checkExpectedOrWork env s b = some true) :
    ∃ expected group, pre.hashOfHashes[s.chain.length / pre.step]? = some expected ∧
      IsPreimage ops pre group expected ∧
      group[s.chain.length % pre.step]? = some (env.id b) := by
  have hentry : s.blocksHashCheck[s.chain.length]? = some (env.id b) ∧ env.id b ≠ nullHash := by
    rw [checkExpectedOrWork] at hfast
    split at hfast
    · rename_i expectedHash hexpected
      split at hfast
      · exact absurd hfast (by simp)
      · rename_i hnull
        split at hfast
        · rename_i hid
          rw [hexpected, ← hid]
          rw [← hid] at hnull
          exact ⟨rfl, hnull⟩
        · exact absurd hfast (by simp)
    · split at hfast
      · exact absurd hfast (by simp)
      · exact absurd hfast (by simp)
  have hlt := (List.getElem?_eq_some_iff.mp hentry.1).1
  rw [hcheck.length, ← Nat.div_lt_iff_lt_mul pre.step_pos] at hlt
  have hmod := Nat.mod_lt s.chain.length pre.step_pos
  have hexpected := List.getElem?_eq_getElem hlt
  rcases hcheck.groups _ _ hexpected with hnull | ⟨group, hgroup, hholds⟩
  · have hat := hnull _ hmod
    rw [Nat.div_add_mod', hentry.1, List.getElem?_replicate, if_pos hmod] at hat
    exact absurd (Option.some.inj hat) hentry.2
  · have hat := hholds _ hmod
    rw [Nat.div_add_mod', hentry.1] at hat
    exact ⟨_, group, hexpected, hgroup, hat.symm⟩

theorem soundCheck_run (hcommit : Committing ops pre) (calls : List PrevalidateCall) :
    SoundCheck ops pre (run (PrevalidateCall.apply ops pre) (emptyCheck pre) calls) := by
  apply run_invariant _ soundCheck_emptyCheck
  intro check call hcheck
  obtain ⟨usable, check', hcall, -, hcheck', -⟩ := prevalidateBlockHashes_spec hcommit call hcheck
  rw [PrevalidateCall.apply, hcall]
  exact hcheck'

/-- After any calls, a call tells no more usable ids than it has, the known ids are empty or
preimages, the usable ids in groups that the chain and the call make complete are known, and
a block on the fast path has the id that the table commits to. -/
theorem prevalidated_sound (hcommit : Committing ops pre) (calls : List PrevalidateCall)
    (call : PrevalidateCall) :
    ∃ usable check, prevalidateBlockHashes ops pre call.chain call.height call.hashes
        (run (PrevalidateCall.apply ops pre) (emptyCheck pre) calls) = (usable, check) ∧
      usable.toNat ≤ call.hashes.toList.length ∧ SoundCheck ops pre check ∧
      UsableKnown pre call usable.toNat check ∧
      ∀ {ρ : Type} (env : ChainEnv ρ) (s : ChainState ρ) (b : Block), s.blocksHashCheck = check →
        checkExpectedOrWork env s b = some true →
        ∃ expected group, pre.hashOfHashes[s.chain.length / pre.step]? = some expected ∧
          IsPreimage ops pre group expected ∧
          group[s.chain.length % pre.step]? = some (env.id b) := by
  obtain ⟨usable, check, hcall, hle, hcheck, hknown⟩ :=
    prevalidateBlockHashes_spec hcommit call (soundCheck_run hcommit calls)
  refine ⟨usable, check, hcall, hle, hcheck, hknown, fun env s b hs hfast => ?_⟩
  rw [← hs] at hcheck
  exact hcheck.fastPath hfast

/-! ### One group of two -/

def firstIds : List Hash :=
  [hashOfNat 0xde17ace7092bf80170fd1f902226a8d1a9bc1888cb8ed0670c3b869edc92f1aa,
    hashOfNat 0xc0c411f23a85810c640ed1ede21523c8206e842d234d383517f1fb7f7c12f903]

def firstIdsHash : Hash :=
  hashOfNat 0x40f1934a763fb83de5826e60b2b246f439ad119b939278851085d08cb8ee3ba5

def pairOps : CryptoOps :=
  ⟨fun m => if m = firstIds.flatMap fun h => h.val then firstIdsHash else nullHash,
    fun _ => none, fun _ => default⟩

def pairTable : PrecomputedHashes := ⟨2, [firstIdsHash], by decide, by decide⟩

theorem committing_pairTable : Committing pairOps pairTable := by
  -- both have the ids of the table, and these tell the groups apart
  have hids : ∀ expected g, pairTable.hashOfHashes[0]? = some expected →
      IsPreimage pairOps pairTable g expected → g = firstIds := by
    rintro expected g hexpected ⟨hlength, hhash⟩
    obtain rfl : firstIdsHash = expected := Option.some.inj hexpected
    obtain ⟨a, b, rfl⟩ := List.length_eq_two.mp hlength
    have hbytes : ([a, b].flatMap fun h => h.val) = firstIds.flatMap fun h => h.val := by
      by_contra hne
      rw [hashGroup] at hhash
      simp only [pairOps, if_neg hne] at hhash
      exact absurd hhash (by decide)
    simp only [firstIds, List.flatMap_cons, List.flatMap_nil, List.append_nil] at hbytes
    have hsize : ∀ h : Hash, h.val.length = 32 := fun h => h.property
    obtain ⟨ha, hb⟩ := List.append_inj hbytes ((hsize a).trans (hsize _).symm)
    rw [firstIds, Subtype.ext ha, Subtype.ext hb]
  intro n expected g g' hn hg hg'
  have hzero : n = 0 := Nat.lt_one_iff.mp (List.getElem?_eq_some_iff.mp hn).1
  subst hzero
  rw [hids expected g hn hg, hids expected g' hn hg']

def pairCall : PrevalidateCall := ⟨[], 0, ⟨firstIds, by decide⟩⟩

/-- Both ids are usable, and known afterwards. -/
theorem prevalidated_sound_pair :
    Committing pairOps pairTable ∧
      prevalidateBlockHashes pairOps pairTable pairCall.chain pairCall.height pairCall.hashes
        (emptyCheck pairTable) = (2, firstIds) ∧
      ∃ usable check, prevalidateBlockHashes pairOps pairTable pairCall.chain pairCall.height
          pairCall.hashes (run (PrevalidateCall.apply pairOps pairTable) (emptyCheck pairTable) [])
            = (usable, check) ∧
        usable.toNat ≤ 2 ∧ SoundCheck pairOps pairTable check ∧
        UsableKnown pairTable pairCall usable.toNat check := by
  obtain ⟨usable, check, hcall, hle, hcheck, hknown, -⟩ :=
    prevalidated_sound committing_pairTable [] pairCall
  exact ⟨committing_pairTable, by decide, usable, check, hcall, hle, hcheck, hknown⟩

end XrCoin.Blockchain
