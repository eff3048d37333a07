import XrCoin.Data.Multimap
import XrCoin.TxPool.Pool

/-!
The three containers of the pool by themselves: what removing, inserting and
erasing do to the rows of the tables, to the ids of the sorted container and to
the relation between key images and ids.
-/

namespace XrCoin.TxPool

open Archive Cryptonote Data

/-! ### The tables -/

namespace Txpool

variable {t : Txpool} {row row' : PoolRow} {id : Hash}

theorem eq_of_txid (hrow : row ∈ t.rows) (hrow' : row' ∈ t.rows) (h : row.txid = row'.txid) :
    row = row' :=
  List.inj_on_of_nodup_map t.ids_nodup hrow hrow' h

theorem find_eq_some (h : t.find id = some row) : row ∈ t.rows ∧ row.txid = id := by
  refine ⟨List.mem_of_find?_eq_some h, ?_⟩
  simpa using List.find?_some h

theorem find_of_mem (h : row ∈ t.rows) : t.find row.txid = some row := by
  cases hfind : t.find row.txid with
  | none =>
      have hne := List.find?_eq_none.mp hfind row h
      simp at hne
  | some found =>
      obtain ⟨hmem, htxid⟩ := find_eq_some hfind
      rw [eq_of_txid hmem h htxid]

theorem mem_remove : row ∈ (t.remove id).rows ↔ row ∈ t.rows ∧ row.txid ≠ id := by
  rw [remove, List.mem_filter, decide_eq_true_eq]

theorem remove_ids : (t.remove id).rows.map PoolRow.txid = (t.rows.map PoolRow.txid).erase id := by
  rw [t.ids_nodup.erase_eq_filter, List.filter_map]
  refine congrArg (List.map PoolRow.txid) (List.filter_congr fun row _ => ?_)
  by_cases hid : row.txid = id
  · simp [hid]
  · simp [hid, bne]

theorem remove_eq_self (h : id ∉ t.rows.map PoolRow.txid) : t.remove id = t := by
  ext1
  refine List.filter_eq_self.mpr fun row hrow => ?_
  rw [decide_eq_true_eq]
  rintro rfl
  exact h (List.mem_map_of_mem hrow)

theorem put_rows (h : row.txid ∉ t.rows.map PoolRow.txid) : (t.put row).rows = t.rows ++ [row] := by
  show (t.remove row.txid).rows ++ [row] = t.rows ++ [row]
  rw [remove_eq_self h]

end Txpool

theorem totalWeight_cons (row : PoolRow) (rows : List PoolRow) :
    totalWeight (row :: rows) = row.info.weight + totalWeight rows :=
  List.sum_cons

theorem totalWeight_filter {rows : List PoolRow} {row : PoolRow}
    (hnodup : (rows.map PoolRow.txid).Nodup) (hrow : row ∈ rows) :
    totalWeight (rows.filter fun r => r.txid ≠ row.txid) = totalWeight rows - row.info.weight := by
  induction rows with
  | nil => exact absurd hrow (by simp)
  | cons head rows ih =>
      rw [List.map_cons, List.nodup_cons] at hnodup
      rcases List.mem_cons.mp hrow with rfl | hmem
      · have hrest : rows.filter (fun r => r.txid ≠ row.txid) = rows := by
          refine List.filter_eq_self.mpr fun r hr => ?_
          rw [decide_eq_true_eq]
          intro heq
          exact hnodup.1 (heq ▸ List.mem_map_of_mem hr)
        rw [List.filter_cons_of_neg (by simp), hrest, totalWeight_cons, UInt64.add_comm,
          UInt64.add_sub_cancel]
      · have hne : head.txid ≠ row.txid := by
          intro heq
          exact hnodup.1 (heq ▸ List.mem_map_of_mem hmem)
        rw [List.filter_cons_of_pos (by simpa using hne), totalWeight_cons, totalWeight_cons,
          ih hnodup.2 hmem,
          UInt64.sub_eq_add_neg, UInt64.sub_eq_add_neg, UInt64.add_assoc]

/-! ### The sorted container -/

section Sorted

variable {ρ : Type} (fr : FeeRate ρ) {sorted : List (SortedEntry ρ)}

theorem id_eq_of_txCompare {a b : SortedEntry ρ} (hab : txCompare fr a b = false)
    (hba : txCompare fr b a = false) : a.id = b.id := by
  simp only [txCompare] at hab hba
  split at hab
  · exact absurd hab (by simp)
  · rename_i h1
    rw [if_neg h1] at hba
    split at hab
    · rename_i h2
      rw [if_pos h2] at hba
      exact absurd hba (by simp)
    · split at hab
      · exact absurd hab (by simp)
      · rename_i h3
        rw [if_neg h3] at hba
        split at hab
        · rename_i h2 h4
          rw [if_neg h2, if_pos h4] at hba
          exact absurd hba (by simp)
        · simpa using hab

/-- An entry with a new id is inserted, wherever it goes. -/
theorem emplace_perm {e : SortedEntry ρ} (h : e.id ∉ sorted.map SortedEntry.id) :
    (emplace fr e sorted).Perm (e :: sorted) := by
  induction sorted with
  | nil => exact List.Perm.refl _
  | cons x xs ih =>
      rw [List.map_cons, List.mem_cons, not_or] at h
      rw [emplace]
      split
      · exact List.Perm.refl _
      · split
        · exact ((ih h.2).cons x).trans (List.Perm.swap e x xs)
        · rename_i hex hxe
          rw [Bool.not_eq_true] at hex hxe
          exact absurd (id_eq_of_txCompare fr hex hxe) h.1

theorem eraseId_ids (id : Hash) :
    (eraseId id sorted).map SortedEntry.id = (sorted.map SortedEntry.id).erase id := by
  induction sorted with
  | nil => rfl
  | cons x xs ih =>
      rw [eraseId, List.eraseP_cons, List.map_cons, List.erase_cons]
      by_cases hx : x.id = id
      · simp [hx]
      · have hx' : ¬(x.id == id) = true := by simpa using hx
        simp only [hx, decide_false, hx', Bool.false_eq_true, if_false]
        rw [← ih]
        rfl

theorem erase_eq_eraseId [DecidableEq ρ] {s : SortedEntry ρ}
    (hnodup : (sorted.map SortedEntry.id).Nodup) (hs : s ∈ sorted) :
    sorted.erase s = eraseId s.id sorted := by
  induction sorted with
  | nil => exact absurd hs (by simp)
  | cons x xs ih =>
      rw [List.map_cons, List.nodup_cons] at hnodup
      rw [eraseId, List.eraseP_cons]
      rcases List.mem_cons.mp hs with rfl | hmem
      · simp
      · have hid : x.id ≠ s.id := fun heq => hnodup.1 (heq ▸ List.mem_map_of_mem hmem)
        have hne : ¬(x == s) = true := by
          rw [beq_iff_eq]
          rintro rfl
          exact hid rfl
        rw [List.erase_cons_tail hne, ih hnodup.2 hmem]
        simp [hid, eraseId]

end Sorted

/-! ### Spent key images -/

section Images

variable {images : KeyImagesContainer} {R : KeyImage → Hash → Prop}

theorem keyImages_cons (amount : UInt64) (keyOffsets : StdVector UInt64) (kImage : KeyImage)
    (vin : List Txin) :
    keyImages (.toKey amount keyOffsets kImage :: vin) = kImage :: keyImages vin :=
  List.filterMap_cons_some rfl

def ToKeyInputs (vin : List Txin) : Prop :=
  (∀ txin ∈ vin, txin.keyImage.isSome = true) ∧ (keyImages vin).Nodup

theorem ToKeyInputs.tail {txin : Txin} {vin : List Txin} (h : ToKeyInputs (txin :: vin)) :
    ∃ amount keyOffsets kImage, txin = .toKey amount keyOffsets kImage ∧
      kImage ∉ keyImages vin ∧ ToKeyInputs vin := by
  obtain ⟨htoKey, hnodup⟩ := h
  have hhead := htoKey txin (by simp)
  cases txin with
  | gen height => exact absurd hhead (by simp [Txin.keyImage])
  | toScript prev prevout sigset => exact absurd hhead (by simp [Txin.keyImage])
  | toScriptHash prev prevout script sigset => exact absurd hhead (by simp [Txin.keyImage])
  | toKey amount keyOffsets kImage =>
      rw [keyImages_cons, List.nodup_cons] at hnodup
      exact ⟨amount, keyOffsets, kImage, rfl, hnodup.1,
        fun txin htxin => htoKey txin (List.mem_cons_of_mem _ htxin), hnodup.2⟩

theorem insertKeyImages_spec (id : Hash) (keptByBlock : Bool) {vin : List Txin}
    (h : Represents images R) (hvin : ToKeyInputs vin) (hfresh : ∀ ki ∈ keyImages vin, ¬R ki id)
    (hfree : keptByBlock = false → ∀ ki ∈ keyImages vin, ∀ i, ¬R ki i) :
    (insertKeyImages id keptByBlock vin images).1 = true ∧
      Represents (insertKeyImages id keptByBlock vin images).2
        fun ki i => R ki i ∨ ki ∈ keyImages vin ∧ i = id := by
  induction vin generalizing images R with
  | nil =>
      refine ⟨rfl, h.congr fun ki i => ?_⟩
      simp [keyImages]
  | cons txin vin ih =>
      obtain ⟨amount, keyOffsets, kImage, rfl, hnot, htail⟩ := hvin.tail
      rw [keyImages_cons] at hfresh hfree ⊢
      have hmiss : id ∉ (images kImage).getD ∅ :=
        fun hmem => hfresh kImage (by simp) ((h.mem_iff kImage id).mp hmem)
      have hempty : keptByBlock = false → (images kImage).getD ∅ = ∅ := by
        intro hkept
        refine Finset.eq_empty_of_forall_notMem fun i hi => ?_
        exact hfree hkept kImage (by simp) i ((h.mem_iff kImage i).mp hi)
      have hpass : ¬(keptByBlock = false ∧ (images kImage).getD ∅ ≠ ∅ ∨
          id ∈ (images kImage).getD ∅) := by
        rintro (⟨hkept, hne⟩ | hmem)
        · exact hne (hempty hkept)
        · exact hmiss hmem
      -- the rest of the inputs has other key images, so the new member is not seen there
      have hne : ∀ ki ∈ keyImages vin, ki ≠ kImage := by
        rintro ki hki rfl
        exact hnot hki
      obtain ⟨hok, hrep⟩ := ih (h.insertMember kImage id) htail
        (fun ki hki hR => hR.elim (hfresh ki (List.mem_cons_of_mem _ hki))
          fun heq => hne ki hki heq.1)
        (fun hkept ki hki i hR => hR.elim (hfree hkept ki (List.mem_cons_of_mem _ hki) i)
          fun heq => hne ki hki heq.1)
      have hstep : insertKeyImages id keptByBlock (.toKey amount keyOffsets kImage :: vin) images =
          insertKeyImages id keptByBlock vin (insertMember images kImage id) := by
        rw [insertKeyImages]
        exact if_neg hpass
      rw [hstep]
      refine ⟨hok, hrep.congr fun ki i => ?_⟩
      rw [List.mem_cons, or_and_right, or_assoc]

theorem toKeyInputs_of_insertKeyImages {id : Hash} {keptByBlock : Bool} {vin : List Txin}
    (h : (insertKeyImages id keptByBlock vin images).1 = true) :
    ToKeyInputs vin ∧ ∀ ki ∈ keyImages vin, id ∉ (images ki).getD ∅ := by
  induction vin generalizing images with
  | nil => exact ⟨⟨by simp, by simp [keyImages]⟩, by simp [keyImages]⟩
  | cons txin vin ih =>
      cases txin with
      | gen height => exact absurd h (by simp [insertKeyImages])
      | toScript prev prevout sigset => exact absurd h (by simp [insertKeyImages])
      | toScriptHash prev prevout script sigset => exact absurd h (by simp [insertKeyImages])
      | toKey amount keyOffsets kImage =>
          rw [insertKeyImages] at h
          split at h
          · exact absurd h (by simp)
          · rename_i hpass
            obtain ⟨⟨htoKey, hnodup⟩, hfresh⟩ := ih h
            have hmiss : id ∉ (images kImage).getD ∅ := fun hmem => hpass (.inr hmem)
            -- the id is a member at this key image now, so it does not come again
            have hnot : kImage ∉ keyImages vin := by
              intro hmem
              have hin := hfresh kImage hmem
              rw [Function.update_self, Option.getD_some] at hin
              exact hin (Finset.mem_insert_self _ _)
            rw [ToKeyInputs, keyImages_cons, List.nodup_cons, List.forall_mem_cons,
              List.forall_mem_cons]
            refine ⟨⟨⟨rfl, htoKey⟩, hnot, hnodup⟩, hmiss, fun ki hki => ?_⟩
            have hin := hfresh ki hki
            rwa [Function.update_of_ne (by rintro rfl; exact hnot hki)] at hin

theorem removeTransactionKeyimages_spec {id : Hash} {vin : List Txin}
    (h : Represents images R) (hvin : ToKeyInputs vin) (hthere : ∀ ki ∈ keyImages vin, R ki id) :
    (removeTransactionKeyimages id vin images).1 = true ∧
      Represents (removeTransactionKeyimages id vin images).2
        fun ki i => R ki i ∧ ¬(ki ∈ keyImages vin ∧ i = id) := by
  induction vin generalizing images R with
  | nil =>
      refine ⟨rfl, h.congr fun ki i => ?_⟩
      simp [keyImages]
  | cons txin vin ih =>
      obtain ⟨amount, keyOffsets, kImage, rfl, hnot, htail⟩ := hvin.tail
      rw [keyImages_cons] at hthere ⊢
      obtain ⟨set, hset, hmem⟩ := h.exists_entry (hthere kImage (by simp))
      have hne : ∀ ki ∈ keyImages vin, ki ≠ kImage := by
        rintro ki hki rfl
        exact hnot hki
      obtain ⟨hok, hrep⟩ := ih (h.eraseMember hset id) htail
        (fun ki hki => ⟨hthere ki (List.mem_cons_of_mem _ hki), fun heq => hne ki hki heq.1⟩)
      have hstep : removeTransactionKeyimages id (.toKey amount keyOffsets kImage :: vin) images =
          removeTransactionKeyimages id vin (eraseMember images kImage set id) := by
        rw [removeTransactionKeyimages, hset]
        exact if_pos hmem
      rw [hstep]
      refine ⟨hok, hrep.congr fun ki i => ?_⟩
      rw [List.mem_cons, or_and_right, not_or, and_assoc]

end Images

end XrCoin.TxPool
