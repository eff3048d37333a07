import XrCoin.Cryptonote.ExtraFields

/-!
`remove_field_from_tx_extra`, which writes the fields that stay while it reads.
-/

namespace XrCoin.Cryptonote

open Archive

inductive TxExtraKind
  | padding
  | pubKey
  | nonce
  | mergeMiningTag
  | additionalPubKeys
  | mysteriousMinergate
  deriving DecidableEq

def TxExtraField.kind : TxExtraField → TxExtraKind
  | .padding _ => .padding
  | .pubKey _ => .pubKey
  | .nonce _ => .nonce
  | .mergeMiningTag _ _ => .mergeMiningTag
  | .additionalPubKeys _ => .additionalPubKeys
  | .mysteriousMinergate _ => .mysteriousMinergate

def removeFieldLoop (type : TxExtraKind) : ℕ → InStream → Option (List UInt8)
  | 0, _ => some []
  | rounds + 1, s =>
      match loadTxExtraField s with
      | none => none
      | some (field, s') =>
          let kept := if field.kind = type then [] else field.save
          if s'.rest = [] then some kept
          else (removeFieldLoop type rounds s').map (kept ++ ·)

/-- `remove_field_from_tx_extra`, with the extra bytes after it. -/
def removeFieldFromTxExtra (extra : List UInt8) (type : TxExtraKind) : Bool × List UInt8 :=
  if extra = [] then (true, extra)
  else
    match removeFieldLoop type extra.length (.ofBytes extra) with
    | none => (false, extra)
    | some s => (true, s)

def without (type : TxExtraKind) (fields : List TxExtraField) : List TxExtraField :=
  fields.filter fun field => field.kind ≠ type

variable {type : TxExtraKind} {bytes left : List UInt8} {os : List Occupied}

theorem Fields.removeFieldLoop (h : Fields bytes os left) {rounds : ℕ} {s : InStream}
    (hs : s.rest = bytes) (hne : bytes ≠ []) (hrounds : bytes.length ≤ rounds) :
    removeFieldLoop type rounds s =
      if left = [] then some ((without type (os.map Occupied.field)).flatMap TxExtraField.save)
      else none := by
  induction h generalizing rounds s with
  | done => exact absurd rfl hne
  | stop hne hnone =>
      obtain ⟨rounds, rfl⟩ := Nat.exists_eq_add_one_of_ne_zero
        (Nat.lt_of_lt_of_le (List.length_pos_iff.mpr hne) hrounds).ne'
      rw [Cryptonote.removeFieldLoop, if_neg hne]
      split
      · rfl
      · rename_i field s' hload
        obtain ⟨o, -, hfront, hat⟩ := loadTxExtraField_iff.mp (.of_eq hload)
        exact absurd hat (hnone o _ (hs.symm.trans hfront))
  | @field o rest left os hat hrest ih =>
      obtain ⟨rounds, rfl⟩ := Nat.exists_eq_add_one_of_ne_zero
        (Nat.lt_of_lt_of_le (List.length_pos_iff.mpr hne) hrounds).ne'
      obtain ⟨s', hload, hrest'⟩ := loadTxExtraField_iff.mpr ⟨o, rfl, hs, hat⟩
      have hkept : ∀ fields, (without type (o.field :: fields)).flatMap TxExtraField.save =
          (if o.field.kind = type then [] else o.field.save) ++
            (without type fields).flatMap TxExtraField.save := by
        intro fields
        by_cases hkind : o.field.kind = type <;> simp [without, hkind]
      rw [Cryptonote.removeFieldLoop, hload, List.map_cons, hkept]
      by_cases hnil : rest = []
      · obtain ⟨rfl, rfl⟩ := hrest.nil_iff.mp hnil
        simp [hrest', hnil, without]
      · have hpos := List.length_pos_iff.mpr hat.bytes_ne_nil
        rw [List.length_append] at hrounds
        have hloop := ih hrest' hnil (show rest.length ≤ rounds by omega)
        simp only [hrest', hnil, if_false, hloop]
        by_cases hleft : left = [] <;> simp [hleft]

theorem Fields.removeField (h : Fields bytes os left) :
    removeFieldFromTxExtra bytes type =
      if left = [] then
        (true, (without type (os.map Occupied.field)).flatMap TxExtraField.save)
      else (false, bytes) := by
  rw [removeFieldFromTxExtra]
  by_cases hnil : bytes = []
  · obtain ⟨rfl, rfl⟩ := h.nil_iff.mp hnil
    simp [hnil, without]
  · rw [if_neg hnil, h.removeFieldLoop rfl hnil le_rfl]
    by_cases hleft : left = [] <;> simp [hleft]

theorem Fields.without_written (h : Fields bytes os left) (hleft : left = []) :
    ∃ os', os'.map Occupied.field = without type (os.map Occupied.field) ∧
      Fields ((without type (os.map Occupied.field)).flatMap TxExtraField.save) os' [] := by
  induction h with
  | done => exact ⟨[], rfl, .done⟩
  | stop hne => exact absurd hleft hne
  | @field o rest left os hat hrest ih =>
      obtain ⟨os', hos', hfields⟩ := ih hleft
      by_cases hkind : o.field.kind = type
      · have hdrop : without type (o.field :: os.map Occupied.field) =
            without type (os.map Occupied.field) := by simp [without, hkind]
        rw [List.map_cons, hdrop]
        exact ⟨os', hos', hfields⟩
      · have hkeep : without type (o.field :: os.map Occupied.field) =
            o.field :: without type (os.map Occupied.field) := by simp [without, hkind]
        rw [List.map_cons, hkeep, List.flatMap_cons]
        rcases hat.written with ⟨varints, hdel⟩ | hpad
        · exact ⟨⟨o.field, varints, o.field.save⟩ :: os', by simp [hos'], .field (hdel _) hfields⟩
        · -- padding takes all bytes, so nothing comes after it
          obtain ⟨n, rfl⟩ := hpad
          cases hat with
          | padding hmax =>
              obtain ⟨rfl, rfl⟩ := hrest.nil_iff.mp rfl
              exact ⟨[_], rfl, .field (.padding hmax) .done⟩

theorem parseTxExtraLoop_of_le {extra : List UInt8} (hne : extra ≠ []) {rounds : ℕ}
    (hrounds : extra.length ≤ rounds) :
    parseTxExtraLoop rounds (.ofBytes extra) = parseTxExtra extra := by
  obtain ⟨os, left, h⟩ := exists_fields extra
  rw [h.parse, h.parseTxExtraLoop rfl hne hrounds]

/-- The function returns `true` when the extra bytes parse. Then the new ones parse as the fields
of other types; else they are the old ones. Any number of rounds from the number of bytes on
gives the parse. -/
theorem removeField_spec (extra : List UInt8) (type : TxExtraKind) :
    (removeFieldFromTxExtra extra type).1 = (parseTxExtra extra).2 ∧
    ((removeFieldFromTxExtra extra type).1 = true →
      parseTxExtra (removeFieldFromTxExtra extra type).2 =
        (without type (parseTxExtra extra).1, true)) ∧
    ((removeFieldFromTxExtra extra type).1 = false →
      (removeFieldFromTxExtra extra type).2 = extra) ∧
    (∀ s field s', loadTxExtraField s = some (field, s') → s'.rest.length < s.rest.length) ∧
    (extra ≠ [] → ∀ rounds, extra.length ≤ rounds →
      parseTxExtraLoop rounds (.ofBytes extra) = parseTxExtra extra) := by
  obtain ⟨os, left, h⟩ := exists_fields extra
  refine ⟨?_, ?_, ?_, fun s field s' hload => ?_, fun hne rounds => parseTxExtraLoop_of_le hne⟩
  · rw [h.removeField, h.parse]
    split <;> simp_all
  · rw [h.removeField, h.parse]
    split
    · rename_i hleft
      obtain ⟨os', hos', hfields⟩ := h.without_written hleft
      intro _
      simp only
      rw [hfields.parse, hos']
      rfl
    · intro hfalse
      cases hfalse
  · rw [h.removeField]
    split
    · intro htrue
      cases htrue
    · exact fun _ => rfl
  · obtain ⟨o, -, hfront, hat⟩ := loadTxExtraField_iff.mp (.of_eq hload)
    have hpos := List.length_pos_iff.mpr hat.bytes_ne_nil
    rw [hfront, List.length_append]
    omega

end XrCoin.Cryptonote
