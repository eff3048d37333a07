import Mathlib
import XrCoin.Data.WeakOrder
import XrCoin.TxPool.Containers

/-!
The order of the sorted container, `txCompare`.

The greatest fee rate comes first, then the oldest. Two entries with the same rate and time and
different ids both come before the other.
-/

namespace XrCoin.TxPool

open Cryptonote Data

variable {ρ : Type} (fr : FeeRate ρ)

def findTxInSortedContainer (id : Hash) (sorted : List (SortedEntry ρ)) : Option (SortedEntry ρ) :=
  sorted.find? fun e => e.id = id

def emplaceAll (es : List (SortedEntry ρ)) : List (SortedEntry ρ) :=
  es.foldl (fun sorted e => emplace fr e sorted) []

/-- On these entries the order is one that a set can be kept in, and what is erased by its id takes
nothing else along. -/
structure OrderedOn (S : Set (SortedEntry ρ)) : Prop where
  order : IsStrictWeakOrder S fun a b => txCompare fr a b = true
  reachable : ∀ es : List (SortedEntry ρ), (∀ e ∈ es, e ∈ S) → (es.map SortedEntry.id).Nodup →
    ∀ id, ∀ e ∈ es, e.id ≠ id →
      findTxInSortedContainer e.id (eraseId id (emplaceAll fr es)) = some e

/-- Neither has the greater rate or the earlier time. -/
def Tied (a b : SortedEntry ρ) : Prop :=
  fr.lt a.rate b.rate = false ∧ fr.lt b.rate a.rate = false ∧ a.receiveTime = b.receiveTime

def rateThenTime : SortedEntry ρ → SortedEntry ρ → Prop :=
  ThenBy (fun a b => fr.lt b.rate a.rate = true) fun a b => a.receiveTime < b.receiveTime

variable {fr}

theorem isStrictWeakOrder_rateThenTime
    (hrate : IsStrictWeakOrder ρ fun a b => fr.lt a b = true) :
    IsStrictWeakOrder (SortedEntry ρ) (rateThenTime fr) := by
  have hgreater : IsStrictWeakOrder ρ (Function.swap fun a b => fr.lt a b = true) := inferInstance
  have htime : IsStrictWeakOrder ℕ (· < ·) := isStrictWeakOrder_of_isOrderConnected
  have hrates : IsStrictWeakOrder (SortedEntry ρ) fun a b => fr.lt b.rate a.rate = true :=
    Order.Preimage.instIsStrictWeakOrder (r := Function.swap fun a b => fr.lt a b = true)
      (f := SortedEntry.rate)
  have htimes : IsStrictWeakOrder (SortedEntry ρ) fun a b => a.receiveTime < b.receiveTime :=
    Order.Preimage.instIsStrictWeakOrder (r := fun m n : ℕ => m < n)
      (f := fun e : SortedEntry ρ => e.receiveTime.toNat)
  exact isStrictWeakOrder_thenBy hrates htimes

theorem txCompare_iff {a b : SortedEntry ρ} : txCompare fr a b = true ↔
    rateThenTime fr a b ∨ Tied fr a b ∧ a.id ≠ b.id := by
  simp only [txCompare, rateThenTime, ThenBy, Tied]
  cases fr.lt b.rate a.rate with
  | true => simp
  | false =>
      cases fr.lt a.rate b.rate with
      | true => simp
      | false =>
          simp only [Bool.false_eq_true, if_false, not_false_eq_true, true_and, false_or,
            UInt64.lt_iff_toNat_lt, ← UInt64.toNat_inj]
          split_ifs with hless hmore
          · simp [hless]
          · simp only [hless, false_or, false_iff, not_and]
            intro heq
            omega
          · have heq : a.receiveTime.toNat = b.receiveTime.toNat := by omega
            simp [heq]

theorem isStrictWeakOrder_txCompare (hrate : IsStrictWeakOrder ρ fun a b => fr.lt a b = true)
    {S : Set (SortedEntry ρ)} (hties : ∀ a ∈ S, ∀ b ∈ S, Tied fr a b → a.id = b.id) :
    IsStrictWeakOrder S fun a b => txCompare fr a b = true := by
  have hsame : (fun a b : S => txCompare fr a b = true) = fun a b : S =>
      rateThenTime fr a.1 b.1 := by
    funext a b
    apply propext
    rw [txCompare_iff]
    constructor
    · rintro (h | ⟨htied, hne⟩)
      · exact h
      · exact absurd (hties a a.2 b b.2 htied) hne
    · exact .inl
  rw [hsame]
  have hentries := isStrictWeakOrder_rateThenTime hrate
  exact Order.Preimage.instIsStrictWeakOrder (r := rateThenTime fr) (f := Subtype.val)

theorem Tied.txCompare_both {a b : SortedEntry ρ} (h : Tied fr a b) (hne : a.id ≠ b.id) :
    txCompare fr a b = true ∧ txCompare fr b a = true :=
  ⟨txCompare_iff.mpr (.inr ⟨h, hne⟩), txCompare_iff.mpr (.inr ⟨⟨h.2.1, h.1, h.2.2.symm⟩, hne.symm⟩)⟩

/-! ### What is in the container -/

theorem emplaceAll_perm {es : List (SortedEntry ρ)} (hnodup : (es.map SortedEntry.id).Nodup) :
    (emplaceAll fr es).Perm es := by
  induction es using List.reverseRecOn with
  | nil => exact List.Perm.refl _
  | append_singleton es e ih =>
      rw [List.map_append, List.map_singleton, List.nodup_append] at hnodup
      have hperm := ih hnodup.1
      have hfresh : e.id ∉ (emplaceAll fr es).map SortedEntry.id := by
        rw [(hperm.map SortedEntry.id).mem_iff]
        intro hmem
        exact hnodup.2.2 _ hmem _ (List.mem_singleton_self _) rfl
      rw [emplaceAll, List.foldl_append, List.foldl_cons, List.foldl_nil]
      exact ((emplace_perm fr hfresh).trans (hperm.cons e)).trans
        (List.perm_append_singleton e es).symm

theorem findTxInSortedContainer_of_mem {sorted : List (SortedEntry ρ)} {e : SortedEntry ρ}
    (hnodup : (sorted.map SortedEntry.id).Nodup) (he : e ∈ sorted) :
    findTxInSortedContainer e.id sorted = some e := by
  induction sorted with
  | nil => cases he
  | cons x sorted ih =>
      rw [List.map_cons, List.nodup_cons] at hnodup
      rw [findTxInSortedContainer, List.find?_cons]
      rcases List.mem_cons.mp he with rfl | he
      · simp
      · have hne : x.id ≠ e.id := fun heq => hnodup.1 (heq ▸ List.mem_map_of_mem he)
        rw [decide_eq_false hne]
        exact ih hnodup.2 he

theorem reachable_of_nodup {es : List (SortedEntry ρ)} (hnodup : (es.map SortedEntry.id).Nodup)
    (id : Hash) {e : SortedEntry ρ} (he : e ∈ es) (hne : e.id ≠ id) :
    findTxInSortedContainer e.id (eraseId id (emplaceAll fr es)) = some e := by
  have hperm := @emplaceAll_perm _ fr _ hnodup
  have hids : ((emplaceAll fr es).map SortedEntry.id).Nodup :=
    ((hperm.map SortedEntry.id).nodup_iff).mpr hnodup
  apply findTxInSortedContainer_of_mem
  · rw [eraseId_ids]
    exact hids.erase id
  · exact (List.mem_eraseP_of_neg (by simpa using hne)).mpr (hperm.mem_iff.mpr he)

/-- A set can be kept in the order of `txCompare` exactly when no two of its entries with different
ids have the same rate and time. -/
theorem orderedOn_iff (hrate : IsStrictWeakOrder ρ fun a b => fr.lt a b = true)
    (S : Set (SortedEntry ρ)) :
    OrderedOn fr S ↔ ∀ a ∈ S, ∀ b ∈ S, Tied fr a b → a.id = b.id := by
  constructor
  · intro hordered a ha b hb htied
    by_contra hne
    obtain ⟨hab, hba⟩ := htied.txCompare_both hne
    have haa := hordered.order.trans ⟨a, ha⟩ ⟨b, hb⟩ ⟨a, ha⟩ hab hba
    exact hordered.order.irrefl ⟨a, ha⟩ haa
  · intro hties
    exact ⟨isStrictWeakOrder_txCompare hrate hties, fun es _ hnodup id e he hne =>
      reachable_of_nodup hnodup id he hne⟩

/-! ### Two payments at the same time -/

/-- Two transactions with the same fee, weight and time. -/
def tiedEntries : Set (SortedEntry ℕ) :=
  {⟨7, 1540000000, List.Vector.replicate 32 1⟩, ⟨7, 1540000000, List.Vector.replicate 32 2⟩}

def numberRate : FeeRate ℕ := ⟨fun fee weight => fee.toNat / weight.toNat, fun a b => a < b⟩

theorem isStrictWeakOrder_numberRate :
    IsStrictWeakOrder ℕ fun a b => numberRate.lt a b = true := by
  have hlt : IsStrictWeakOrder ℕ (· < ·) := isStrictWeakOrder_of_isOrderConnected
  have hsame : (fun a b => numberRate.lt a b = true) = fun a b : ℕ => a < b := by
    funext a b
    exact propext decide_eq_true_iff
  rwa [hsame]

theorem tiedEntries_not_orderedOn : ¬OrderedOn numberRate tiedEntries := by
  intro hordered
  have hfirst : (⟨7, 1540000000, List.Vector.replicate 32 1⟩ : SortedEntry ℕ) ∈ tiedEntries :=
    .inl rfl
  have hsecond : (⟨7, 1540000000, List.Vector.replicate 32 2⟩ : SortedEntry ℕ) ∈ tiedEntries :=
    .inr rfl
  have htied : Tied numberRate ⟨7, 1540000000, List.Vector.replicate 32 1⟩
      ⟨7, 1540000000, List.Vector.replicate 32 2⟩ := ⟨by decide, by decide, rfl⟩
  obtain ⟨hbefore, hafter⟩ := htied.txCompare_both (by decide)
  exact hordered.order.irrefl _
    (hordered.order.trans ⟨_, hfirst⟩ ⟨_, hsecond⟩ ⟨_, hfirst⟩ hbefore hafter)

theorem twoSeconds_orderedOn :
    OrderedOn numberRate {⟨7, 1540000000, List.Vector.replicate 32 1⟩,
      ⟨7, 1540000001, List.Vector.replicate 32 2⟩} := by
  refine (orderedOn_iff isStrictWeakOrder_numberRate _).mpr ?_
  rintro a (rfl | rfl) b (rfl | rfl) htied
  · rfl
  · exact absurd htied.2.2 (by decide)
  · exact absurd htied.2.2 (by decide)
  · rfl

end XrCoin.TxPool
