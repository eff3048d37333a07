import Mathlib
import XrCoin.Cryptonote.Difficulty
import XrCoin.Blockchain.Checkpoints
import XrCoin.Data.OrderedMap

/-!
`add_checkpoint`: the two maps of the checkpoints, for the hashes and for the difficulties.

The hash is stored before the difficulty is parsed and held against the one that is stored. A
difficulty that is refused leaves the hash behind where the height was new.
-/

namespace XrCoin.Checkpoints

open Archive Cryptonote Blockchain Data

/-! ### Hexadecimal strings -/

def hexDigit (c : UInt8) : Option UInt8 :=
  if 48 ≤ c ∧ c ≤ 57 then some (c - 48)
  else if 97 ≤ c ∧ c ≤ 102 then some (c - 87)
  else if 65 ≤ c ∧ c ≤ 70 then some (c - 55)
  else none

def skipped (c : UInt8) : Bool := 9 ≤ c ∧ c ≤ 13 ∨ c = 32 ∨ c = 43

/-- `strtoul` of two characters, where it reads both of them and gives no more than a byte. Of the
negative numbers only zero is none. -/
def strtoul2 (c d : UInt8) : Option UInt8 :=
  match hexDigit c, hexDigit d with
  | some high, some low => some (high * 16 + low)
  | none, some low => if skipped c then some low else if c = 45 ∧ low = 0 then some 0 else none
  | _, none => none

def parseHexstrToBinbuff : List UInt8 → Option (List UInt8)
  | [] => some []
  | [_] => none
  | c :: d :: s => (strtoul2 c d).bind fun v => (parseHexstrToBinbuff s).map (v :: ·)

def parseTpodFromHexString (s : List UInt8) : Option Hash :=
  (parseHexstrToBinbuff s).bind fun buf =>
    if h : buf.length = 32 then some ⟨buf, h⟩ else none

/-! ### The maps -/

abbrev DifficultyPoints : Type := OrderedMap UInt64.toNat Difficulty

structure CheckpointMaps where
  points : Checkpoints
  difficultyPoints : DifficultyPoints

namespace CheckpointMaps

def setPoint (m : CheckpointMaps) (height : UInt64) (h : Hash) : CheckpointMaps :=
  ⟨OrderedMap.assign m.points height h, m.difficultyPoints⟩

def setDifficulty (m : CheckpointMaps) (height : UInt64) (d : Difficulty) : CheckpointMaps :=
  ⟨m.points, OrderedMap.assign m.difficultyPoints height d⟩

def point (m : CheckpointMaps) (height : UInt64) : Option Hash := OrderedMap.find m.points height

def difficultyPoint (m : CheckpointMaps) (height : UInt64) : Option Difficulty :=
  OrderedMap.find m.difficultyPoints height

end CheckpointMaps

/-- `add_checkpoint`. The conversion of a string to a difficulty is a parameter. -/
def addCheckpoint (parseDifficulty : List UInt8 → Option Difficulty) (height : UInt64)
    (hashStr difficultyStr : List UInt8) (m : CheckpointMaps) : Bool × CheckpointMaps :=
  match parseTpodFromHexString hashStr with
  | none => (false, m)
  | some h =>
      if (m.point height).any fun stored => h ≠ stored then (false, m)
      else
        let m := m.setPoint height h
        if difficultyStr = [] then (true, m)
        else
          match parseDifficulty difficultyStr with
          | none => (false, m)
          | some difficulty =>
              if (m.difficultyPoint height).any fun stored => difficulty ≠ stored then (false, m)
              else (true, m.setDifficulty height difficulty)

/-! ### All or nothing -/

section

variable {parseDifficulty : List UInt8 → Option Difficulty} {height : UInt64}
  {hashStr difficultyStr : List UInt8} {m : CheckpointMaps}

namespace CheckpointMaps

@[simp] theorem difficultyPoint_setPoint (m : CheckpointMaps) (height other : UInt64) (h : Hash) :
    (m.setPoint height h).difficultyPoint other = m.difficultyPoint other := rfl

@[simp] theorem point_setDifficulty (m : CheckpointMaps) (height other : UInt64) (d : Difficulty) :
    (m.setDifficulty height d).point other = m.point other := rfl

theorem toNat_injective : Function.Injective UInt64.toNat := fun _ _ => UInt64.toNat.inj

theorem point_setPoint (m : CheckpointMaps) (height other : UInt64) (h : Hash) :
    (m.setPoint height h).point other = if other = height then some h else m.point other :=
  OrderedMap.find_assign toNat_injective m.points height other h

theorem difficultyPoint_setDifficulty (m : CheckpointMaps) (height other : UInt64)
    (d : Difficulty) :
    (m.setDifficulty height d).difficultyPoint other =
      if other = height then some d else m.difficultyPoint other :=
  OrderedMap.find_assign toNat_injective m.difficultyPoints height other d

/-- A hash that is stored already changes nothing, and another one does. -/
theorem setPoint_eq_self_iff (m : CheckpointMaps) (height : UInt64) (h : Hash) :
    m.setPoint height h = m ↔ m.point height = some h := by
  constructor
  · intro heq
    rw [← heq, point_setPoint, if_pos rfl]
  · intro hpoint
    rw [setPoint, OrderedMap.assign_of_find toNat_injective hpoint]

end CheckpointMaps

structure Atomic (parseDifficulty : List UInt8 → Option Difficulty) (height : UInt64)
    (hashStr difficultyStr : List UInt8) (m : CheckpointMaps) : Prop where
  unchanged : (addCheckpoint parseDifficulty height hashStr difficultyStr m).1 = false →
    (addCheckpoint parseDifficulty height hashStr difficultyStr m).2 = m
  stored : ∀ m', addCheckpoint parseDifficulty height hashStr difficultyStr m = (true, m') →
    (∃ h, parseTpodFromHexString hashStr = some h ∧ m'.point height = some h) ∧
      (difficultyStr ≠ [] → ∃ difficulty, parseDifficulty difficultyStr = some difficulty ∧
        m'.difficultyPoint height = some difficulty) ∧
      ∀ other, (other ≠ height → m'.point other = m.point other) ∧
        (other ≠ height ∨ difficultyStr = [] → m'.difficultyPoint other = m.difficultyPoint other)

/-- The difficulty is not parsed, or another one is stored. -/
def DifficultyRefused (parseDifficulty : List UInt8 → Option Difficulty) (height : UInt64)
    (difficultyStr : List UInt8) (m : CheckpointMaps) : Prop :=
  ∀ difficulty, parseDifficulty difficultyStr = some difficulty →
    ∃ stored, m.difficultyPoint height = some stored ∧ stored ≠ difficulty

/-- What a call does: the hash is refused, the difficulty is refused behind the hash, or both are
stored. -/
theorem addCheckpoint_cases (parseDifficulty : List UInt8 → Option Difficulty) (height : UInt64)
    (hashStr difficultyStr : List UInt8) (m : CheckpointMaps) :
    (addCheckpoint parseDifficulty height hashStr difficultyStr m = (false, m) ∧
        ∀ h, parseTpodFromHexString hashStr = some h →
          ∃ stored, m.point height = some stored ∧ stored ≠ h) ∨
      ∃ h, parseTpodFromHexString hashStr = some h ∧ (∀ stored ∈ m.point height, stored = h) ∧
        ((difficultyStr = [] ∧
            addCheckpoint parseDifficulty height hashStr difficultyStr m =
              (true, m.setPoint height h)) ∨
          (difficultyStr ≠ [] ∧ DifficultyRefused parseDifficulty height difficultyStr m ∧
            addCheckpoint parseDifficulty height hashStr difficultyStr m =
              (false, m.setPoint height h)) ∨
          (difficultyStr ≠ [] ∧ ∃ difficulty, parseDifficulty difficultyStr = some difficulty ∧
            (∀ stored ∈ m.difficultyPoint height, stored = difficulty) ∧
            addCheckpoint parseDifficulty height hashStr difficultyStr m =
              (true, (m.setPoint height h).setDifficulty height difficulty))) := by
  rw [addCheckpoint]
  cases hhash : parseTpodFromHexString hashStr with
  | none => exact .inl ⟨rfl, fun h hh => by cases hh⟩
  | some h =>
      simp only [Option.any_eq_true, decide_eq_true_eq, CheckpointMaps.difficultyPoint_setPoint]
      by_cases hother : ∃ stored, m.point height = some stored ∧ h ≠ stored
      · rw [if_pos hother]
        refine .inl ⟨rfl, fun h' hh' => ?_⟩
        obtain rfl := Option.some.inj hh'
        obtain ⟨stored, hstored, hne⟩ := hother
        exact ⟨stored, hstored, hne.symm⟩
      rw [if_neg hother]
      have hsame : ∀ stored ∈ m.point height, stored = h := by
        intro stored hstored
        by_contra hne
        exact hother ⟨stored, hstored, Ne.symm hne⟩
      refine .inr ⟨h, rfl, hsame, ?_⟩
      by_cases hempty : difficultyStr = []
      · exact .inl ⟨hempty, if_pos hempty⟩
      rw [if_neg hempty]
      cases hdifficulty : parseDifficulty difficultyStr with
      | none =>
          refine .inr (.inl ⟨hempty, fun difficulty hd => ?_, rfl⟩)
          rw [hdifficulty] at hd
          cases hd
      | some difficulty =>
          simp only
          by_cases hconflict : ∃ stored, m.difficultyPoint height = some stored ∧
              difficulty ≠ stored
          · rw [if_pos hconflict]
            refine .inr (.inl ⟨hempty, fun d hd => ?_, rfl⟩)
            obtain rfl := Option.some.inj (hdifficulty.symm.trans hd)
            obtain ⟨stored, hstored, hne⟩ := hconflict
            exact ⟨stored, hstored, hne.symm⟩
          · rw [if_neg hconflict]
            refine .inr (.inr ⟨hempty, difficulty, rfl, fun stored hstored => ?_, rfl⟩)
            by_contra hne
            exact hconflict ⟨stored, hstored, Ne.symm hne⟩

/-- A call is atomic unless a hash for a new height is stored and the difficulty is refused behind
it. -/
theorem atomic_iff (parseDifficulty : List UInt8 → Option Difficulty) (height : UInt64)
    (hashStr difficultyStr : List UInt8) (m : CheckpointMaps) :
    Atomic parseDifficulty height hashStr difficultyStr m ↔
      ¬((parseTpodFromHexString hashStr).isSome = true ∧ m.point height = none ∧
        difficultyStr ≠ [] ∧ DifficultyRefused parseDifficulty height difficultyStr m) := by
  rcases addCheckpoint_cases parseDifficulty height hashStr difficultyStr m with
    ⟨heq, hrefused⟩ | ⟨h, hhash, hsame, hcases⟩
  · -- nothing was stored
    refine iff_of_true ⟨fun _ => congrArg Prod.snd heq, fun m' hm' => ?_⟩ ?_
    · rw [heq] at hm'
      cases congrArg Prod.fst hm'
    · rintro ⟨hparsed, hnone, -⟩
      obtain ⟨h, hhash⟩ := Option.isSome_iff_exists.mp hparsed
      obtain ⟨stored, hstored, -⟩ := hrefused h hhash
      rw [hnone] at hstored
      cases hstored
  rcases hcases with ⟨hempty, heq⟩ | ⟨hnonempty, hrefused, heq⟩ |
    ⟨hnonempty, difficulty, hdifficulty, hstored, heq⟩
  · refine iff_of_true ⟨fun hfalse => ?_, fun m' hm' => ?_⟩ fun hbad => hbad.2.2.1 hempty
    · rw [heq] at hfalse
      cases hfalse
    · rw [heq] at hm'
      obtain rfl := (Prod.mk.inj hm').2
      refine ⟨⟨h, hhash, ?_⟩, fun hne => absurd hempty hne, fun other => ⟨fun hne => ?_, fun _ => rfl⟩⟩
      · rw [CheckpointMaps.point_setPoint, if_pos rfl]
      · rw [CheckpointMaps.point_setPoint, if_neg hne]
  · -- the hash stays behind
    constructor
    · rintro hatomic ⟨-, hnone, -⟩
      have hunchanged := hatomic.unchanged (by rw [heq])
      rw [heq] at hunchanged
      rw [(m.setPoint_eq_self_iff height h).mp hunchanged] at hnone
      cases hnone
    · intro hgood
      have hpoint : m.point height = some h := by
        cases hpoint : m.point height with
        | none => exact absurd ⟨by rw [hhash]; rfl, hpoint, hnonempty, hrefused⟩ hgood
        | some stored => rw [hsame stored hpoint]
      refine ⟨fun _ => ?_, fun m' hm' => ?_⟩
      · rw [heq]
        exact (m.setPoint_eq_self_iff height h).mpr hpoint
      · rw [heq] at hm'
        cases congrArg Prod.fst hm'
  · refine iff_of_true ⟨fun hfalse => ?_, fun m' hm' => ?_⟩ ?_
    · rw [heq] at hfalse
      cases hfalse
    · rw [heq] at hm'
      obtain rfl := (Prod.mk.inj hm').2
      refine ⟨⟨h, hhash, ?_⟩, fun _ => ⟨difficulty, hdifficulty, ?_⟩,
        fun other => ⟨fun hne => ?_, fun hne => ?_⟩⟩
      · rw [CheckpointMaps.point_setDifficulty, CheckpointMaps.point_setPoint, if_pos rfl]
      · rw [CheckpointMaps.difficultyPoint_setDifficulty, if_pos rfl]
      · rw [CheckpointMaps.point_setDifficulty, CheckpointMaps.point_setPoint, if_neg hne]
      · rw [CheckpointMaps.difficultyPoint_setDifficulty, if_neg (hne.resolve_right hnonempty)]
        rfl
    · rintro ⟨-, -, -, hrefused⟩
      obtain ⟨stored, hconflict, hne⟩ := hrefused difficulty hdifficulty
      exact hne (hstored stored hconflict)

/-- Sixty-four zeros and a letter for a difficulty: the hash of the new height is stored, and the
call fails. -/
theorem addCheckpoint_not_atomic :
    ¬Atomic (fun _ => none) 50000 (List.replicate 64 48) [120] ⟨∅, ∅⟩ := by
  intro hatomic
  have hunchanged := hatomic.unchanged (by decide)
  have hpoint : (⟨∅, ∅⟩ : CheckpointMaps).point 50000 = some nullHash := by
    rw [← hunchanged]
    decide
  cases hpoint

end

end XrCoin.Checkpoints
