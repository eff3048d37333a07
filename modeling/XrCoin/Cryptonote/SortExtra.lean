import XrCoin.Cryptonote.ExtraFields
import XrCoin.Data.Buckets

/-!
`sort_tx_extra`. The fields are read into values and written again, so that bytes are only
moved where each field was written the way it is written again.
-/

namespace XrCoin.Cryptonote

open Archive Data

/-! ### The function -/

/-- The loop over the fields, with the position behind the last one, and whether all of them
loaded. -/
def sortTxExtraLoop (size : ℕ) : ℕ → InStream → ℕ → List TxExtraField × ℕ × Bool
  | 0, _, processed => ([], processed, true)
  | rounds + 1, s, processed =>
      match loadTxExtraField s with
      | none => ([], processed, false)
      | some (field, s') =>
          let processed := size - s'.rest.length
          if s'.rest = [] then ([field], processed, true)
          else
            let rest := sortTxExtraLoop size rounds s' processed
            (field :: rest.1, rest.2)

def pick (fields : List TxExtraField) (rank : ℕ) : List UInt8 :=
  (fields.filter fun field => field.rank = rank).flatMap TxExtraField.save

def sortTxExtraWith (allowPartial : Bool) (extra : List UInt8) : Option (List UInt8) :=
  if extra = [] then some []
  else
    let loaded := sortTxExtraLoop extra.length extra.length (.ofBytes extra) 0
    if loaded.2.2 = false ∧ allowPartial = false then none
    else
      let oss := (List.range 6).flatMap (pick loaded.1)
      if allowPartial = true ∧ loaded.2.1 < extra.length then
        some (oss ++ extra.drop loaded.2.1)
      else some oss

variable {allowPartial : Bool} {o : Occupied} {os : List Occupied}
  {bytes rest left extra out : List UInt8}

theorem rank_lt (field : TxExtraField) : field.rank < 6 := by
  cases field <;> simp [TxExtraField.rank]

/-! ### The order -/

def inOrder (os : List Occupied) : List Occupied := inBuckets (fun o => o.field.rank) 6 os

theorem mem_inOrder : o ∈ inOrder os ↔ o ∈ os := by
  rw [inOrder, mem_inBuckets]
  exact and_iff_left (rank_lt _)

theorem inOrder_perm (os : List Occupied) : (inOrder os).Perm os :=
  inBuckets_perm fun o _ => rank_lt o.field

theorem inOrder_inOrder (os : List Occupied) : inOrder (inOrder os) = inOrder os :=
  inBuckets_inBuckets 6 os

theorem flatMap_pick (os : List Occupied) :
    (List.range 6).flatMap (pick (os.map Occupied.field)) =
      (inOrder os).flatMap fun o => o.field.save := by
  have hfields : (inOrder os).map Occupied.field =
      inBuckets TxExtraField.rank 6 (os.map Occupied.field) := map_inBuckets _ 6 os
  have hwritten : (inOrder os).flatMap (fun o => o.field.save) =
      ((inOrder os).map Occupied.field).flatMap TxExtraField.save := by rw [List.flatMap_map]
  rw [hwritten, hfields, inBuckets, List.flatMap_assoc]
  rfl

theorem Fields.sortTxExtraLoop (h : Fields bytes os left) {size rounds processed : ℕ}
    {s : InStream} (hs : s.rest = bytes) (hne : bytes ≠ []) (hrounds : bytes.length ≤ rounds)
    (hsize : bytes.length ≤ size) (hprocessed : processed = size - bytes.length) :
    sortTxExtraLoop size rounds s processed =
      (os.map Occupied.field, size - left.length, decide (left = [])) := by
  induction h generalizing rounds s processed with
  | done => exact absurd rfl hne
  | stop hne hnone =>
      obtain ⟨rounds, rfl⟩ := Nat.exists_eq_add_one_of_ne_zero
        (Nat.lt_of_lt_of_le (List.length_pos_iff.mpr hne) hrounds).ne'
      rw [Cryptonote.sortTxExtraLoop]
      split
      · simp [hne, hprocessed]
      · rename_i field s' hload
        obtain ⟨o, -, hfront, hat⟩ := loadTxExtraField_iff.mp (.of_eq hload)
        exact absurd hat (hnone o _ (hs.symm.trans hfront))
  | @field o rest left os hat hrest ih =>
      obtain ⟨rounds, rfl⟩ := Nat.exists_eq_add_one_of_ne_zero
        (Nat.lt_of_lt_of_le (List.length_pos_iff.mpr hne) hrounds).ne'
      obtain ⟨s', hload, hrest'⟩ := loadTxExtraField_iff.mpr ⟨o, rfl, hs, hat⟩
      rw [Cryptonote.sortTxExtraLoop, hload]
      by_cases hnil : rest = []
      · obtain ⟨rfl, rfl⟩ := hrest.nil_iff.mp hnil
        simp [hrest', hnil]
      · have hpos := List.length_pos_iff.mpr hat.bytes_ne_nil
        rw [List.length_append] at hrounds hsize
        have hloop := ih hrest' hnil (show rest.length ≤ rounds by omega)
          (show rest.length ≤ size by omega) rfl
        simp [hrest', hnil, hloop]

theorem Fields.sortTxExtraWith (h : Fields extra os left) :
    sortTxExtraWith allowPartial extra =
      if left ≠ [] ∧ allowPartial = false then none
      else some (((inOrder os).flatMap fun o => o.field.save) ++ left) := by
  rw [Cryptonote.sortTxExtraWith]
  by_cases hnil : extra = []
  · obtain ⟨rfl, rfl⟩ := h.nil_iff.mp hnil
    simp [hnil, inOrder, inBuckets]
  · rw [if_neg hnil, h.sortTxExtraLoop rfl hnil le_rfl le_rfl (by simp)]
    have hlength := congrArg List.length h.split
    rw [List.length_append] at hlength
    have hdrop : extra.drop (extra.length - left.length) = left := by
      rw [hlength, Nat.add_sub_cancel]
      nth_rewrite 1 [h.split]
      exact List.drop_left
    by_cases hleft : left = []
    · simp [hleft, flatMap_pick]
    · have hpos := List.length_pos_iff.mpr hleft
      have hlt : extra.length - left.length < extra.length := by omega
      cases allowPartial <;> simp [hleft, flatMap_pick, hdrop, hlt]

theorem sortTxExtra_eq (extra : List UInt8) :
    sortTxExtra extra = sortTxExtraWith false extra := by
  obtain ⟨os, left, h⟩ := exists_fields extra
  rw [h.sortTxExtraWith, sortTxExtra]
  by_cases hnil : extra = []
  · obtain ⟨rfl, rfl⟩ := h.nil_iff.mp hnil
    simp [hnil, inOrder, inBuckets]
  · rw [if_neg hnil, h.parse]
    by_cases hleft : left = []
    · simp [hleft, ← flatMap_pick]
      rfl
    · simp [hleft]

/-! ### Bytes that are written as they were -/

theorem Fields.at_mem (h : Fields bytes os left) (hmem : o ∈ os) : ∃ rest, FieldAt o rest := by
  induction h with
  | done => cases hmem
  | stop => cases hmem
  | field hat hrest ih =>
      rcases List.mem_cons.mp hmem with rfl | hmem
      · exact ⟨_, hat⟩
      · exact ih hmem

theorem Fields.at_left (h : Fields bytes os left) : Fields left [] left := by
  induction h with
  | done => exact .done
  | stop hne hnone => exact .stop hne hnone
  | field hat hrest ih => exact ih

theorem Delimited.rank_ne (h : Delimited o) : o.field.rank ≠ 5 := by
  have hat := h [0]
  cases hat <;> simp [TxExtraField.rank]

theorem CutOff.rank_ne (hat : FieldAt o rest) (h : CutOff o) : o.field.rank ≠ 5 := by
  obtain ⟨tag, k, -, hbytes, -, htag⟩ := h
  cases hat <;> simp [TxExtraField.rank]
  have hzero : tag = 0 := (List.cons.inj hbytes).1.symm
  rcases htag with rfl | rfl | rfl <;> cases hzero

theorem FieldAt.isPadding_of_zero {tail : List UInt8} (hat : FieldAt o rest)
    (h : o.bytes = 0 :: tail) : IsPadding o := by
  cases hat with
  | padding hmax => exact ⟨_, rfl⟩
  | pubKey => cases h
  | nonce => cases h
  | mergeMiningTag => cases h
  | additionalPubKeys => cases h
  | mysteriousMinergate => cases h

/-- Two series of the same fields are the same bytes only where each field is: the first
difference could only be a size that is cut off, and then there would have to be padding. -/
theorem bytes_eq_save_of_flatMap_eq (hat : ∀ o ∈ os, ∃ rest, FieldAt o rest)
    (hcut : ∀ o ∈ os, ¬Delimited o → CutOff o → ∀ o' ∈ os, ¬IsPadding o')
    (heq : os.flatMap Occupied.bytes = os.flatMap fun o => o.field.save) :
    ∀ o ∈ os, o.bytes = o.field.save := by
  induction os with
  | nil => simp
  | cons o os ih =>
      rw [List.forall_mem_cons] at hat
      obtain ⟨⟨rest, hfirst⟩, hat⟩ := hat
      have hcut' : ∀ o ∈ os, ¬Delimited o → CutOff o → ∀ o' ∈ os, ¬IsPadding o' :=
        fun o ho hopen hc o' ho' =>
          hcut o (List.mem_cons_of_mem _ ho) hopen hc o' (List.mem_cons_of_mem _ ho')
      rw [List.flatMap_cons, List.flatMap_cons] at heq
      have hsame : o.bytes = o.field.save := by
        by_cases hdel : Delimited o
        · rcases hfirst.written with ⟨varints, hwritten⟩ | hpad
          · have hunique := (hdel (os.flatMap Occupied.bytes)).unique (hwritten _) heq
            exact congrArg Occupied.bytes hunique.1
          · exact hpad.save
        rcases hfirst.delimited_or with hdel' | ⟨-, hpad | hopen⟩
        · exact absurd hdel' hdel
        · exact hpad.save
        · obtain ⟨tag, k, -, hbytes, hsave, -⟩ := id hopen
          rw [hbytes, hsave, List.cons_append, List.cons_append] at heq
          have htail := (List.cons.inj heq).2
          cases k with
          | succ k => cases (List.cons.inj htail).1
          | zero =>
              cases os with
              | nil => cases htail
              | cons o' os =>
                  obtain ⟨⟨rest', hnext⟩, -⟩ := List.forall_mem_cons.mp hat
                  obtain ⟨byte, tail, hbytes'⟩ := List.exists_cons_of_ne_nil hnext.bytes_ne_nil
                  rw [List.flatMap_cons, hbytes'] at htail
                  have hzero : byte = 0 := (List.cons.inj htail).1
                  rw [hzero] at hbytes'
                  exact absurd (hnext.isPadding_of_zero hbytes')
                    (hcut o (by simp) hdel hopen o' (by simp))
      rw [hsame] at heq
      exact List.forall_mem_cons.mpr ⟨hsame, ih hat hcut' (List.append_cancel_left heq)⟩

/-! ### The order only -/

/-- The output holds the bytes of the fields in order, and behind them what is no field. So it is
as long as the input, holds its fields, and is sorted already. -/
structure OnlyReorders (allowPartial : Bool) (extra out : List UInt8) (os : List Occupied)
    (left : List UInt8) : Prop where
  ranges : out = (inOrder os).flatMap Occupied.bytes ++ left
  length : out.length = extra.length
  fields : (parseTxExtra out).1.Perm (parseTxExtra extra).1
  twice : sortTxExtraWith allowPartial out = some out

/-- Among fields that are written as they are no size is cut off. -/
theorem Fields.delimited_or_padding (h : Fields extra os left)
    (hsave : ∀ o ∈ os, o.bytes = o.field.save) :
    (∀ o ∈ os, Delimited o) ∨ left = [] ∧ ∃ front last, os = front ++ [last] ∧
      (∀ o ∈ front, Delimited o) ∧ FieldAt last [] ∧ IsPadding last := by
  rcases h.delimited_or with hall | ⟨hleft, front, last, rfl, hfront, hat, hpad | hcut⟩
  · exact .inl hall
  · exact .inr ⟨hleft, front, last, rfl, hfront, hat, hpad⟩
  · obtain ⟨tag, k, -, hbytes, hwritten, -⟩ := hcut
    have hsame := hsave last (by simp)
    rw [hbytes, hwritten] at hsame
    cases k with
    | zero => cases hsame
    | succ k => cases (List.cons.inj (List.cons.inj hsame).2).1

theorem inOrder_eq (os : List Occupied) : inOrder os =
    inBuckets (fun o => o.field.rank) 5 os ++ os.filter fun o => o.field.rank = 5 :=
  inBuckets_succ 5 os

theorem filter_rank_of_delimited (h : ∀ o ∈ os, Delimited o) :
    os.filter (fun o => o.field.rank = 5) = [] := by
  rw [List.filter_eq_nil_iff]
  intro o ho
  simpa using (h o ho).rank_ne

theorem fields_inOrder (h : Fields extra os left) (hsave : ∀ o ∈ os, o.bytes = o.field.save) :
    Fields ((inOrder os).flatMap Occupied.bytes ++ left) (inOrder os) left := by
  rcases h.delimited_or_padding hsave with hall | ⟨rfl, front, last, rfl, hfront, hat, hpad⟩
  · have hsorted := Fields.prepend (fun o ho => hall o (mem_inOrder.mp ho)) h.at_left
    rwa [List.append_nil] at hsorted
  · have hlow : ∀ o ∈ inBuckets (fun o => o.field.rank) 5 (front ++ [last]), Delimited o := by
      intro o ho
      obtain ⟨hmem, hrank⟩ := mem_inBuckets.mp ho
      rcases List.mem_append.mp hmem with hmem | hmem
      · exact hfront o hmem
      · obtain rfl := List.mem_singleton.mp hmem
        obtain ⟨n, rfl⟩ := hpad
        simp [TxExtraField.rank] at hrank
    have hlast : (front ++ [last]).filter (fun o => o.field.rank = 5) = [last] := by
      obtain ⟨n, rfl⟩ := hpad
      rw [List.filter_append, filter_rank_of_delimited hfront]
      simp [TxExtraField.rank]
    have hsorted := Fields.prepend hlow (.field hat .done)
    rw [inOrder_eq, hlast]
    simpa using hsorted

theorem Fields.cutOff_alone (h : Fields extra os left) :
    ∀ o ∈ os, ¬Delimited o → CutOff o → ∀ o' ∈ os, ¬IsPadding o' := by
  intro o ho hdel hcut o' ho' hpad
  rcases h.delimited_or with hall | ⟨-, front, last, rfl, hfront, hat, -⟩
  · exact hdel (hall o ho)
  have hlast : ∀ o ∈ front ++ [last], ¬Delimited o → o = last := by
    intro o ho hdel
    rcases List.mem_append.mp ho with hmem | hmem
    · exact absurd (hfront o hmem) hdel
    · exact List.mem_singleton.mp hmem
  obtain ⟨n, rfl⟩ := hpad
  have hpad := hlast _ ho' fun hdel' => hdel'.rank_ne rfl
  obtain rfl := hlast o ho hdel
  exact hcut.rank_ne hat (hpad ▸ rfl)

/-- Where sorting succeeds, it only reorders exactly when all varints of the fields are well
formed. -/
theorem onlyReorders_iff (allowPartial : Bool) (extra out : List UInt8)
    (h : sortTxExtraWith allowPartial extra = some out) :
    ∃ os left, Fields extra os left ∧ (allowPartial = false → left = []) ∧
      (OnlyReorders allowPartial extra out os left ↔
        ∀ o ∈ os, ∀ varint ∈ o.varints, VarintWellFormed 64 varint) := by
  obtain ⟨os, left, hfields⟩ := exists_fields extra
  rw [hfields.sortTxExtraWith] at h
  split at h
  · cases h
  rename_i hallowed
  have hout := Option.some.inj h
  have hwellFormed : (∀ o ∈ os, ∀ varint ∈ o.varints, VarintWellFormed 64 varint) ↔
      ∀ o ∈ os, o.bytes = o.field.save := by
    refine forall₂_congr fun o ho => ?_
    obtain ⟨rest, hat⟩ := hfields.at_mem ho
    exact hat.save_iff.symm
  refine ⟨os, left, hfields, fun hnot => ?_, ?_⟩
  · by_contra hleft
    exact hallowed ⟨hleft, hnot⟩
  rw [hwellFormed]
  constructor
  · intro honly
    have heq := List.append_cancel_right (honly.ranges.symm.trans hout.symm)
    have hsame := bytes_eq_save_of_flatMap_eq
      (fun o ho => hfields.at_mem (mem_inOrder.mp ho))
      (fun o ho hdel hcut o' ho' =>
        hfields.cutOff_alone o (mem_inOrder.mp ho) hdel hcut o' (mem_inOrder.mp ho')) heq
    exact fun o ho => hsame o (mem_inOrder.mpr ho)
  · intro hsave
    have hwritten : ((inOrder os).flatMap fun o => o.field.save) =
        (inOrder os).flatMap Occupied.bytes :=
      List.flatMap_congr fun o ho => (hsave o (mem_inOrder.mp ho)).symm
    have hranges : out = (inOrder os).flatMap Occupied.bytes ++ left := by
      rw [← hout, hwritten]
    have hsorted : Fields out (inOrder os) left := hranges ▸ fields_inOrder hfields hsave
    refine ⟨hranges, ?_, ?_, ?_⟩
    · have hperm := (inOrder_perm os).flatMap_right Occupied.bytes
      rw [hranges, hfields.split, List.length_append, hperm.length_eq, List.length_append]
    · rw [hsorted.parse, hfields.parse]
      exact (inOrder_perm os).map Occupied.field
    · rw [hsorted.sortTxExtraWith, if_neg hallowed, inOrder_inOrder]
      exact congrArg some hout

/-! ### A size in two bytes -/

def looseNonce : List UInt8 := [0x02, 0x80, 0x00]

theorem looseNonce_shortened :
    sortTxExtraWith false looseNonce = some [0x02, 0x00] ∧
      ∀ os left, ¬OnlyReorders false looseNonce [0x02, 0x00] os left := by
  refine ⟨by decide, fun os left honly => ?_⟩
  cases honly.length

theorem onlyReorders_iff_looseNonce :
    ∃ os left, Fields looseNonce os left ∧ ((false : Bool) = false → left = []) ∧
      (OnlyReorders false looseNonce [0x02, 0x00] os left ↔
        ∀ o ∈ os, ∀ varint ∈ o.varints, VarintWellFormed 64 varint) :=
  onlyReorders_iff false looseNonce [0x02, 0x00] (by decide)

end XrCoin.Cryptonote
