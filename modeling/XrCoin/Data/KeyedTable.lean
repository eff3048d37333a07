import Mathlib

/-!
Tables whose keys are compared by an equivalence, which may look at a part of a key only.

Two keys that compare as the same have the same entry, and a change of one entry leaves the others.
-/

namespace XrCoin.Data

variable {κ β : Type} (same : κ → κ → Prop) [DecidableRel same]

abbrev KeyedTable (κ β : Type) : Type := List (κ × β)

namespace KeyedTable

def get (t : KeyedTable κ β) (key : κ) : Option β :=
  (t.find? fun entry => same entry.1 key).map Prod.snd

def del (t : KeyedTable κ β) (key : κ) : KeyedTable κ β := t.filter fun entry => ¬same entry.1 key

def put (t : KeyedTable κ β) (key : κ) (b : β) : KeyedTable κ β := (key, b) :: del same t key

@[simp] theorem get_nil (key : κ) : get same ([] : KeyedTable κ β) key = none := rfl

variable {same}

theorem get_del_of_same (h : Equivalence same) {t : KeyedTable κ β} {key key' : κ}
    (hkey : same key key') : get same (del same t key) key' = none := by
  rw [get, Option.map_eq_none_iff, List.find?_eq_none]
  intro entry hentry
  have hother := of_decide_eq_true (List.mem_filter.mp hentry).2
  rw [decide_eq_true_iff]
  exact fun hsame => hother (h.trans hsame (h.symm hkey))

theorem get_del_of_not_same (h : Equivalence same) {t : KeyedTable κ β} {key key' : κ}
    (hkey : ¬same key key') : get same (del same t key) key' = get same t key' := by
  rw [get, get, del, List.find?_filter]
  congr 2
  ext entry
  -- an entry of the one key is not one of the other
  have hother : same entry.1 key' → ¬same entry.1 key := fun hsame hsame' =>
    hkey (h.trans (h.symm hsame') hsame)
  by_cases hsame : same entry.1 key'
  · simp [hsame, hother hsame]
  · simp [hsame]

theorem get_put_of_same {t : KeyedTable κ β} {key key' : κ} (hkey : same key key') (b : β) :
    get same (put same t key b) key' = some b := by
  simp [get, put, hkey]

theorem get_put_of_not_same (h : Equivalence same) {t : KeyedTable κ β} {key key' : κ}
    (hkey : ¬same key key') (b : β) : get same (put same t key b) key' = get same t key' := by
  have hrest : get same (put same t key b) key' = get same (del same t key) key' := by
    simp [get, put, hkey]
  rw [hrest, get_del_of_not_same h hkey]

end KeyedTable

end XrCoin.Data
