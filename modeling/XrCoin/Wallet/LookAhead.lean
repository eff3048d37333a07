import Mathlib
import XrCoin.Data.Runs
import XrCoin.Wallet.Scan

/-!
The table of subaddresses of `wallet2`, which runs ahead of the accounts and of the addresses
that have been handed out, so that a payment to one of the next addresses is seen.

The spend public key of a subaddress is a parameter. Tags of accounts are not modelled.
-/

namespace XrCoin.Wallet

open Archive Cryptonote Data

def uint32Max : UInt32 := 4294967295

def getSubaddressClampedSum (idx extra : UInt32) : UInt32 :=
  if uint32Max - extra < idx then uint32Max else idx + extra

theorem getSubaddressClampedSum_toNat (idx extra : UInt32) :
    (getSubaddressClampedSum idx extra).toNat =
      min (idx.toNat + extra.toNat) (2 ^ 32 - 1) := by
  have hidx := idx.toNat_lt
  have hextra := extra.toNat_lt
  have hle : extra ≤ uint32Max := by
    rw [UInt32.le_iff_toNat_le]
    exact Nat.le_pred_of_lt hextra
  have hsub : (uint32Max - extra).toNat = 2 ^ 32 - 1 - extra.toNat :=
    UInt32.toNat_sub_of_le _ _ hle
  rw [getSubaddressClampedSum]
  split
  case isTrue h =>
      rw [UInt32.lt_iff_toNat_lt, hsub] at h
      have hmax : uint32Max.toNat = 2 ^ 32 - 1 := rfl
      omega
  case isFalse h =>
      rw [UInt32.lt_iff_toNat_lt, hsub] at h
      rw [UInt32.toNat_add]
      omega

def countUp (first last : UInt32) : List UInt32 :=
  (List.range' first.toNat (last.toNat - first.toNat)).map UInt32.ofNat

theorem mem_countUp {first last i : UInt32} :
    i ∈ countUp first last ↔ first.toNat ≤ i.toNat ∧ i.toNat < last.toNat := by
  rw [countUp, List.mem_map]
  constructor
  · rintro ⟨n, hn, rfl⟩
    rw [List.mem_range'_1] at hn
    have hlast := last.toNat_lt
    rw [UInt32.toNat_ofNat_of_lt' (by omega : n < 2 ^ 32)]
    omega
  · intro h
    refine ⟨i.toNat, ?_, UInt32.ofNat_toNat⟩
    rw [List.mem_range'_1]
    omega

def resize {α : Type} (n : ℕ) (value : α) (xs : List α) : List α :=
  xs.take n ++ List.replicate (n - xs.length) value

theorem resize_getElem? {α : Type} {n : ℕ} (value : α) {xs : List α} (hn : xs.length ≤ n) (i : ℕ) :
    (resize n value xs)[i]? =
      if i < xs.length then xs[i]? else if i < n then some value else none := by
  rw [resize, List.take_of_length_le hn, List.getElem?_append]
  split
  · rfl
  · rw [List.getElem?_replicate]
    grind

@[simp] theorem resize_length {α : Type} (n : ℕ) (value : α) (xs : List α) :
    (resize n value xs).length = n := by
  simp only [resize, List.length_append, List.length_take, List.length_replicate]
  omega

/-! ### A table that is filled -/

section Fill

variable {ι κ : Type} [DecidableEq κ]

def fill (key : ι → κ) (indices : List ι) (table : κ → Option ι) : κ → Option ι :=
  indices.foldl (fun table index => Function.update table (key index) (some index)) table

variable {key : ι → κ} (hkey : Function.Injective key)
include hkey

theorem update_known {table : κ → Option ι} {index : ι} (new : ι)
    (h : table (key index) = some index) :
    Function.update table (key new) (some new) (key index) = some index := by
  by_cases heq : key index = key new
  · rw [heq, Function.update_self, hkey heq]
  · rw [Function.update_of_ne heq, h]

theorem fill_known {table : κ → Option ι} {index : ι} (indices : List ι)
    (h : table (key index) = some index) : fill key indices table (key index) = some index := by
  induction indices generalizing table with
  | nil => exact h
  | cons new indices ih => exact ih (update_known hkey new h)

theorem fill_mem {indices : List ι} {index : ι} (hmem : index ∈ indices) (table : κ → Option ι) :
    fill key indices table (key index) = some index := by
  induction indices generalizing table with
  | nil => cases hmem
  | cons new indices ih =>
      rcases List.mem_cons.mp hmem with rfl | hmem
      · exact fill_known hkey indices (Function.update_self ..)
      · exact ih hmem _

end Fill

/-! ### The wallet -/

structure SubaddressBook where
  labels : List (List String)
  subaddresses : PublicKey → Option SubaddressIndex

namespace SubaddressBook

def empty : SubaddressBook := ⟨[], fun _ => none⟩

/-- `m_subaddress_lookahead_major` and `m_subaddress_lookahead_minor`, and the spend public key of
each subaddress. -/
structure Settings where
  major : UInt32
  minor : UInt32
  key : SubaddressIndex → PublicKey

variable (cfg : Settings) (book : SubaddressBook)

def fillAccount (major first last : UInt32) (table : PublicKey → Option SubaddressIndex) :
    PublicKey → Option SubaddressIndex :=
  fill cfg.key ((countUp first last).map (SubaddressIndex.mk major)) table

def fillAccounts (index : SubaddressIndex) (majors : List UInt32)
    (table : PublicKey → Option SubaddressIndex) : PublicKey → Option SubaddressIndex :=
  majors.foldl (fun table major => fillAccount cfg major 0
    (getSubaddressClampedSum (if major = index.major then index.minor else 0) cfg.minor) table)
    table

def expandSubaddresses (index : SubaddressIndex) : Except String SubaddressBook :=
  if book.labels.length ≤ index.major.toNat then
    let majorEnd := getSubaddressClampedSum index.major cfg.major
    let majors := countUp (UInt32.ofNat book.labels.length) majorEnd
    let labels := resize (index.major + 1).toNat ["Untitled account"] book.labels
    .ok {
      labels := labels.modify index.major.toNat (resize (index.minor + 1).toNat "")
      subaddresses := fillAccounts cfg index majors book.subaddresses }
  else
    let labels := book.labels.getD index.major.toNat []
    if labels.length ≤ index.minor.toNat then
      let last := getSubaddressClampedSum index.minor cfg.minor
      let first := UInt32.ofNat labels.length
      -- the device refuses to count down
      if last < first then .error "begin > end"
      else
        .ok {
          labels := book.labels.modify index.major.toNat (resize (index.minor + 1).toNat "")
          subaddresses := fillAccount cfg index.major first last book.subaddresses }
    else .ok book

/-- `m_subaddress_labels[index.major][index.minor] = label`. -/
def setLabel (index : SubaddressIndex) (label : String) : SubaddressBook :=
  { book with
    labels := book.labels.modify index.major.toNat (·.set index.minor.toNat label) }

def addSubaddressAccount (label : String) : Except String SubaddressBook := do
  let indexMajor := UInt32.ofNat book.labels.length
  let book ← book.expandSubaddresses cfg ⟨indexMajor, 0⟩
  return book.setLabel ⟨indexMajor, 0⟩ label

def addSubaddress (indexMajor : UInt32) (label : String) : Except String SubaddressBook := do
  if book.labels.length ≤ indexMajor.toNat then throw "account_index_outofbound"
  let indexMinor := UInt32.ofNat (book.labels.getD indexMajor.toNat []).length
  let book ← book.expandSubaddresses cfg ⟨indexMajor, indexMinor⟩
  return book.setLabel ⟨indexMajor, indexMinor⟩ label

inductive Op
  | expandSubaddresses (index : SubaddressIndex)
  | addSubaddressAccount (label : String)
  | addSubaddress (indexMajor : UInt32) (label : String)

def Op.call : Op → Except String SubaddressBook
  | expandSubaddresses index => book.expandSubaddresses cfg index
  | addSubaddressAccount label => book.addSubaddressAccount cfg label
  | addSubaddress indexMajor label => book.addSubaddress cfg indexMajor label

/-- A call that throws leaves the table and the labels as they are. -/
def step (op : Op) : SubaddressBook :=
  match op.call cfg book with
  | .ok book => book
  | .error _ => book

/-! ### What the table has to hold -/

def labelCount (major : UInt32) : ℕ := (book.labels.getD major.toNat []).length

/-- The table has the key of a subaddress, with its index. -/
def Known (subaddresses : PublicKey → Option SubaddressIndex) (index : SubaddressIndex) : Prop :=
  subaddresses (cfg.key index) = some index

/-- The minor index is within the look-ahead of its account. -/
def NearMinor (index : SubaddressIndex) : Prop :=
  index.minor.toNat < min (max 1 (book.labelCount index.major) - 1 + cfg.minor.toNat) (2 ^ 32 - 1)

def LooksAhead : Prop :=
  ∀ index : SubaddressIndex,
    index.major.toNat < min (book.labels.length + cfg.major.toNat - 1) (2 ^ 32 - 1) →
    book.NearMinor cfg index → Known cfg book.subaddresses index

def AccountsLookAhead : Prop :=
  ∀ index : SubaddressIndex, index.major.toNat < book.labels.length →
    book.NearMinor cfg index → Known cfg book.subaddresses index

/-- Both parts of an index are below the last value. -/
def Inner (index : SubaddressIndex) : Prop :=
  index.major.toNat < 2 ^ 32 - 1 ∧ index.minor.toNat < 2 ^ 32 - 1

/-- The indices of a call are below the last value, also the ones it takes from the labels. -/
def Op.Inner : Op → SubaddressBook → Prop
  | expandSubaddresses index, _ => SubaddressBook.Inner index
  | addSubaddressAccount _, book => book.labels.length < 2 ^ 32 - 1
  | addSubaddress indexMajor _, book =>
      indexMajor.toNat < 2 ^ 32 - 1 ∧ book.labelCount indexMajor < 2 ^ 32 - 1

variable {cfg book}

theorem fillAccounts_cons (index : SubaddressIndex) (major : UInt32) (majors : List UInt32)
    (table : PublicKey → Option SubaddressIndex) :
    fillAccounts cfg index (major :: majors) table =
      fillAccounts cfg index majors (fillAccount cfg major 0 (getSubaddressClampedSum
        (if major = index.major then index.minor else 0) cfg.minor) table) := by
  rw [fillAccounts, fillAccounts, List.foldl_cons]

section Filling

variable {table : PublicKey → Option SubaddressIndex} (hkey : Function.Injective cfg.key)
include hkey

theorem fillAccount_known {index : SubaddressIndex} (major first last : UInt32)
    (h : Known cfg table index) : Known cfg (fillAccount cfg major first last table) index :=
  fill_known hkey _ h

theorem fillAccount_new {index : SubaddressIndex} {first last : UInt32}
    (hfirst : first.toNat ≤ index.minor.toNat) (hlast : index.minor.toNat < last.toNat) :
    Known cfg (fillAccount cfg index.major first last table) index := by
  apply fill_mem hkey
  exact List.mem_map.mpr ⟨index.minor, mem_countUp.mpr ⟨hfirst, hlast⟩, rfl⟩

theorem fillAccounts_known {index : SubaddressIndex} (created : SubaddressIndex)
    (majors : List UInt32) (h : Known cfg table index) :
    Known cfg (fillAccounts cfg created majors table) index := by
  induction majors generalizing table with
  | nil => exact h
  | cons major majors ih =>
      rw [fillAccounts_cons]
      exact ih (fillAccount_known hkey major _ _ h)

theorem fillAccounts_new {index created : SubaddressIndex} {majors : List UInt32}
    (hmajor : index.major ∈ majors)
    (hminor : index.minor.toNat <
      (getSubaddressClampedSum (if index.major = created.major then created.minor else 0)
        cfg.minor).toNat) :
    Known cfg (fillAccounts cfg created majors table) index := by
  induction majors generalizing table with
  | nil => cases hmajor
  | cons major majors ih =>
      rw [fillAccounts_cons]
      rcases List.mem_cons.mp hmajor with heq | hmem
      · subst heq
        exact fillAccounts_known hkey created majors
          (fillAccount_new hkey (Nat.zero_le _) hminor)
      · exact ih hmem

end Filling

theorem next_toNat {i : UInt32} (h : i.toNat < 2 ^ 32 - 1) : (i + 1).toNat = i.toNat + 1 := by
  rw [UInt32.toNat_add]
  exact Nat.mod_eq_of_lt (by simp only [UInt32.toNat_one]; omega)

theorem labelCount_modify (labels : List (List String)) (f : List String → List String)
    (subaddresses : PublicKey → Option SubaddressIndex) {created : UInt32} (major : UInt32)
    (hcreated : created.toNat < labels.length) :
    labelCount ⟨labels.modify created.toNat f, subaddresses⟩ major =
      if major = created then (f (labels.getD created.toNat [])).length
      else (labels.getD major.toNat []).length := by
  simp only [labelCount, List.getD_eq_getElem?_getD, List.getElem?_modify]
  by_cases h : major = created
  · subst h
    simp [List.getElem?_eq_getElem hcreated]
  · have hne : ¬created.toNat = major.toNat := fun heq => h (UInt32.toNat_inj.mp heq).symm
    simp [h, hne]

theorem resize_labelCount {labels : List (List String)} {n : ℕ} (hn : labels.length ≤ n) (i : ℕ) :
    ((resize n ["Untitled account"] labels).getD i []).length =
      if i < labels.length then (labels.getD i []).length else if i < n then 1 else 0 := by
  rw [List.getD_eq_getElem?_getD, resize_getElem? _ hn, List.getD_eq_getElem?_getD]
  split
  · rfl
  · split <;> rfl

section Expanding

variable (hkey : Function.Injective cfg.key) (hmajor : 0 < cfg.major) (hminor : 0 < cfg.minor)
include hkey

/-- Accounts that are new, those between them and the old ones, and those looked ahead at. -/
theorem expand_accounts {created : SubaddressIndex} (hknown : book.AccountsLookAhead cfg)
    (hinner : Inner created) (hnew : book.labels.length ≤ created.major.toNat) :
    ∃ book', book.expandSubaddresses cfg created = .ok book' ∧ book'.LooksAhead cfg := by
  rw [expandSubaddresses, if_pos hnew]
  refine ⟨_, rfl, ?_⟩
  intro index hindex hnear
  have hlength : (created.major + 1).toNat = created.major.toNat + 1 := next_toNat hinner.1
  have hresize : (resize (created.major + 1).toNat ["Untitled account"] book.labels).length =
      created.major.toNat + 1 := by rw [resize_length, hlength]
  simp only [List.length_modify, hresize] at hindex
  rw [NearMinor, labelCount_modify _ _ _ _ (by omega), resize_length, next_toNat hinner.2,
    resize_labelCount (by omega), hlength] at hnear
  by_cases hold : index.major.toNat < book.labels.length
  · -- an old account has the labels it had
    have hne : index.major ≠ created.major := by
      rintro heq
      rw [heq] at hold
      omega
    rw [if_neg hne, if_pos hold] at hnear
    exact fillAccounts_known hkey created _ (hknown index hold hnear)
  · refine fillAccounts_new hkey (mem_countUp.mpr ⟨?_, ?_⟩) ?_
    · have hlt : book.labels.length < 2 ^ 32 := hnew.trans_lt created.major.toNat_lt
      rw [UInt32.toNat_ofNat_of_lt' hlt]
      omega
    · rw [getSubaddressClampedSum_toNat]
      omega
    · rw [getSubaddressClampedSum_toNat]
      by_cases heq : index.major = created.major
      · rw [if_pos heq] at hnear ⊢
        omega
      · -- an account in the gap has one label, and one further on has none
        rw [if_neg heq, if_neg hold] at hnear
        rw [if_neg heq, UInt32.toNat_zero]
        split at hnear <;> omega

include hminor

theorem expand_addresses {created : SubaddressIndex} (hknown : book.LooksAhead cfg)
    (hinner : Inner created) (hold : created.major.toNat < book.labels.length)
    (hnew : book.labelCount created.major ≤ created.minor.toNat) :
    ∃ book', book.expandSubaddresses cfg created = .ok book' ∧ book'.LooksAhead cfg := by
  have hpos : 0 < cfg.minor.toNat := UInt32.lt_iff_toNat_lt.mp hminor
  have hfirst : (UInt32.ofNat (book.labels.getD created.major.toNat []).length).toNat =
      book.labelCount created.major := by
    have := created.minor.toNat_lt
    exact UInt32.toNat_ofNat_of_lt' (Nat.lt_of_le_of_lt hnew this)
  have hlast := getSubaddressClampedSum_toNat created.minor cfg.minor
  have hinner' := hinner.2
  have horder : ¬getSubaddressClampedSum created.minor cfg.minor <
      UInt32.ofNat (book.labels.getD created.major.toNat []).length := by
    rw [UInt32.lt_iff_toNat_lt, hfirst, hlast]
    omega
  rw [expandSubaddresses, if_neg (Nat.not_le.mpr hold)]
  simp only [labelCount] at hnew
  simp only [if_pos hnew, if_neg horder]
  refine ⟨_, rfl, ?_⟩
  intro index hindex hnear
  rw [List.length_modify] at hindex
  rw [NearMinor, labelCount_modify _ _ _ _ hold, resize_length,
    next_toNat hinner.2] at hnear
  by_cases heq : index.major = created.major
  · rw [if_pos heq] at hnear
    by_cases hbefore : index.minor.toNat < book.labelCount created.major
    · refine fillAccount_known hkey _ _ _ (hknown index hindex ?_)
      rw [NearMinor, heq]
      omega
    · have hfill := @fillAccount_new cfg book.subaddresses hkey index
        (UInt32.ofNat (book.labels.getD created.major.toNat []).length)
        (getSubaddressClampedSum created.minor cfg.minor)
        (by rw [hfirst]; omega) (by rw [hlast]; omega)
      rw [heq] at hfill
      exact hfill
  · rw [if_neg heq] at hnear
    exact fillAccount_known hkey _ _ _ (hknown index hindex hnear)

include hmajor

theorem expand_looksAhead {index : SubaddressIndex} (hknown : book.LooksAhead cfg)
    (hinner : Inner index) :
    ∃ book', book.expandSubaddresses cfg index = .ok book' ∧ book'.LooksAhead cfg := by
  have hpos : 0 < cfg.major.toNat := UInt32.lt_iff_toNat_lt.mp hmajor
  by_cases haccounts : book.labels.length ≤ index.major.toNat
  · refine expand_accounts hkey ?_ hinner haccounts
    intro index' hindex' hnear
    apply hknown index' _ hnear
    have := hinner.1
    omega
  · by_cases haddresses : book.labelCount index.major ≤ index.minor.toNat
    · exact expand_addresses hkey hminor hknown hinner (Nat.not_le.mp haccounts) haddresses
    · refine ⟨book, ?_, hknown⟩
      rw [expandSubaddresses, if_neg haccounts]
      exact if_neg haddresses

end Expanding

/-- A label is replaced, and no vector gets longer. -/
theorem setLabel_looksAhead (index : SubaddressIndex) (label : String)
    (h : book.LooksAhead cfg) : (book.setLabel index label).LooksAhead cfg := by
  have hcount (major : UInt32) :
      (book.setLabel index label).labelCount major = book.labelCount major := by
    simp only [labelCount, setLabel, List.getD_eq_getElem?_getD, List.getElem?_modify]
    cases book.labels[major.toNat]? with
    | none => rfl
    | some labels =>
        rw [Option.map_eq_map, Option.map_some]
        split
        · exact List.length_set
        · rfl
  intro index' hindex' hnear
  rw [setLabel, List.length_modify] at hindex'
  rw [NearMinor, hcount] at hnear
  exact h index' hindex' hnear

theorem zero_inner : (0 : UInt32).toNat < 2 ^ 32 - 1 := by decide

section Running

variable (hkey : Function.Injective cfg.key) (hmajor : 0 < cfg.major) (hminor : 0 < cfg.minor)
include hkey hmajor hminor

theorem step_looksAhead {op : Op} (hknown : book.LooksAhead cfg) (hinner : op.Inner book) :
    (book.step cfg op).LooksAhead cfg := by
  cases op with
  | expandSubaddresses index =>
      obtain ⟨book', hbook', hlooks⟩ := expand_looksAhead hkey hmajor hminor hknown hinner
      rw [step, Op.call, hbook']
      exact hlooks
  | addSubaddressAccount label =>
      have hlength : (UInt32.ofNat book.labels.length).toNat = book.labels.length :=
        UInt32.toNat_ofNat_of_lt' (lt_of_lt_of_le hinner (by decide))
      have hindex : Inner ⟨UInt32.ofNat book.labels.length, 0⟩ :=
        ⟨hlength.trans_lt hinner, zero_inner⟩
      obtain ⟨book', hbook', hlooks⟩ := expand_looksAhead hkey hmajor hminor hknown hindex
      simp only [step, Op.call, addSubaddressAccount, hbook']
      exact setLabel_looksAhead _ _ hlooks
  | addSubaddress indexMajor label =>
      rw [step, Op.call, addSubaddress]
      by_cases hbound : book.labels.length ≤ indexMajor.toNat
      · -- the account does not exist, and the call throws
        rw [if_pos hbound]
        exact hknown
      · have hcount : (UInt32.ofNat (book.labels.getD indexMajor.toNat []).length).toNat =
            book.labelCount indexMajor :=
          UInt32.toNat_ofNat_of_lt' (lt_of_lt_of_le hinner.2 (by decide))
        have hindex : Inner
            ⟨indexMajor, UInt32.ofNat (book.labels.getD indexMajor.toNat []).length⟩ :=
          ⟨hinner.1, hcount.trans_lt hinner.2⟩
        obtain ⟨book', hbook', hlooks⟩ := expand_looksAhead hkey hmajor hminor hknown hindex
        rw [if_neg hbound]
        simp only [hbook']
        exact setLabel_looksAhead _ _ hlooks

end Running

variable (cfg) in
/-- A wallet for which `expand_subaddresses` was called with the first address of the first
account. -/
def initialised : SubaddressBook := empty.step cfg (.expandSubaddresses ⟨0, 0⟩)

theorem initialised_looksAhead (hkey : Function.Injective cfg.key) :
    (initialised cfg).LooksAhead cfg := by
  have hnone : empty.AccountsLookAhead cfg := fun _ h => by cases h
  obtain ⟨book', hbook', hlooks⟩ :=
    @expand_accounts cfg empty hkey ⟨0, 0⟩ hnone ⟨zero_inner, zero_inner⟩ (Nat.le_refl 0)
  rw [initialised, step, Op.call, hbook']
  exact hlooks

/-- After any run the table holds each subaddress within the look-ahead of the accounts and
addresses that there are. -/
theorem lookAhead_run (cfg : Settings) (hkey : Function.Injective cfg.key)
    (hmajor : 0 < cfg.major) (hminor : 0 < cfg.minor) (ops : List Op)
    (hops : Throughout (step cfg) Op.Inner (initialised cfg) ops) :
    (run (step cfg) (initialised cfg) ops).LooksAhead cfg :=
  hops.invariant (step cfg) (initialised_looksAhead hkey)
    fun _ _ _ hknown hinner => step_looksAhead hkey hmajor hminor hknown hinner

/-- Keys that spell their index, with look-aheads of two accounts and three addresses. -/
def spelledKeys : Settings where
  major := 2
  minor := 3
  key index := ⟨leBytes 32 (index.major.toNat * 2 ^ 32 + index.minor.toNat), leBytes_length 32 _⟩

theorem spelledKeys_injective : Function.Injective spelledKeys.key := by
  intro index index' h
  have hlt (i : SubaddressIndex) : i.major.toNat * 2 ^ 32 + i.minor.toNat < 256 ^ 32 := by
    have hmajor := i.major.toNat_lt
    have hminor := i.minor.toNat_lt
    omega
  have hvalue := congrArg leValue (congrArg Subtype.val h)
  simp only [spelledKeys, leValue_leBytes (hlt _)] at hvalue
  have hminor := index.minor.toNat_lt
  have hminor' := index'.minor.toNat_lt
  have hmajors : index.major = index'.major := UInt32.toNat_inj.mp (by omega)
  have hminors : index.minor = index'.minor := UInt32.toNat_inj.mp (by omega)
  cases index
  cases index'
  simp_all

theorem lookAhead_spelledKeys :
    (run (step spelledKeys) (initialised spelledKeys)
      [.expandSubaddresses ⟨2, 1⟩, .addSubaddress 0 "change", .addSubaddressAccount "savings",
        .addSubaddress 9 "nowhere"]).LooksAhead spelledKeys :=
  lookAhead_run spelledKeys spelledKeys_injective (by decide) (by decide) _ (by
    refine ⟨?_, ?_, ?_, ?_, trivial⟩
    · exact ⟨by decide, by decide⟩
    · exact ⟨by decide, by decide⟩
    · show List.length _ < _
      decide
    · exact ⟨by decide, by decide⟩)

end SubaddressBook

end XrCoin.Wallet
