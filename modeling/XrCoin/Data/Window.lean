import Mathlib

/-!
A sliding window of the last items of a stream, with a 32-bit counter for each
value. Items go in at the back and leave at the front; the counters follow them
and so count the window, up to their width.
-/

namespace XrCoin.Data

structure Window (α : Type) where
  items : List α
  counts : α → UInt32

namespace Window

variable {α : Type}

def empty : Window α := ⟨[], fun _ => 0⟩

variable [DecidableEq α]

def push (a : α) (w : Window α) : Window α :=
  ⟨w.items ++ [a], Function.update w.counts a (w.counts a + 1)⟩

/-- Take items off the front while there are `n` or more. -/
def trimItems (n : ℕ) : List α → (α → UInt32) → Window α
  | [], counts => ⟨[], counts⟩
  | a :: items, counts =>
      if n ≤ (a :: items).length then
        trimItems n items (Function.update counts a (counts a - 1))
      else ⟨a :: items, counts⟩

def trim (n : ℕ) (w : Window α) : Window α := trimItems n w.items w.counts

/-- Fill a window from nothing. -/
def ofList (items : List α) : Window α := items.foldl (fun w a => w.push a) empty

def Counted (w : Window α) : Prop := ∀ a, w.counts a = UInt32.ofNat (w.items.count a)

omit [DecidableEq α] in
@[ext] theorem ext {w w' : Window α} (hitems : w.items = w'.items)
    (hcounts : w.counts = w'.counts) : w = w' := by
  cases w
  cases w'
  rw [mk.injEq]
  exact ⟨hitems, hcounts⟩

theorem Counted.ext {w w' : Window α} (h : w.Counted) (h' : w'.Counted)
    (hitems : w.items = w'.items) : w = w' := by
  apply Window.ext hitems
  funext a
  rw [h a, h' a, hitems]

theorem counted_empty : (empty : Window α).Counted := by
  intro a
  rfl

theorem Counted.push {w : Window α} (h : w.Counted) (a : α) : (w.push a).Counted := by
  intro b
  show Function.update w.counts a (w.counts a + 1) b = UInt32.ofNat ((w.items ++ [a]).count b)
  rw [List.count_append, UInt32.ofNat_add, ← h b]
  by_cases hb : b = a
  · rw [hb, Function.update_self, List.count_singleton_self]
    rfl
  · rw [Function.update_of_ne hb, List.count_singleton]
    have hne : (a == b) = false := beq_false_of_ne (Ne.symm hb)
    rw [hne]
    show w.counts b = w.counts b + 0
    rw [UInt32.add_zero]

theorem counted_trimItems (n : ℕ) {items : List α} {counts : α → UInt32}
    (h : (⟨items, counts⟩ : Window α).Counted) : (trimItems n items counts).Counted := by
  induction items generalizing counts with
  | nil => exact h
  | cons a items ih =>
      rw [trimItems]
      split
      · apply ih
        intro b
        have hb : counts b = UInt32.ofNat ((a :: items).count b) := h b
        show Function.update counts a (counts a - 1) b = UInt32.ofNat (items.count b)
        by_cases heq : b = a
        · rw [heq, Function.update_self, ← heq, hb, heq, List.count_cons_self, UInt32.ofNat_add]
          exact UInt32.add_sub_cancel _ _
        · rw [Function.update_of_ne heq, hb, List.count_cons_of_ne (Ne.symm heq)]
      · exact h

theorem Counted.trim {w : Window α} (h : w.Counted) (n : ℕ) : (w.trim n).Counted :=
  counted_trimItems n h

theorem trimItems_items (n : ℕ) (items : List α) (counts : α → UInt32) :
    (trimItems (n + 1) items counts).items = items.rtake n := by
  induction items generalizing counts with
  | nil => simp [trimItems]
  | cons a items ih =>
      rw [trimItems]
      split
      · rename_i hlen
        rw [List.length_cons] at hlen
        rw [ih, List.rtake, List.rtake, List.length_cons,
          show items.length + 1 - n = items.length - n + 1 by omega, List.drop_succ_cons]
      · rename_i hlen
        rw [List.rtake, show (a :: items).length - n = 0 by omega, List.drop_zero]

theorem slide_items {n : ℕ} (hn : 0 < n) (a : α) {w : Window α} {items : List α}
    (h : w.items = items.rtake n) : ((w.trim n).push a).items = (items ++ [a]).rtake n := by
  obtain ⟨m, rfl⟩ : ∃ m, n = m + 1 := ⟨n - 1, by omega⟩
  show (trimItems (m + 1) w.items w.counts).items ++ [a] = (items ++ [a]).rtake (m + 1)
  rw [trimItems_items, h, List.rtake_concat_succ]
  congr 1
  rw [List.rtake, List.rtake, List.rtake, List.length_drop, List.drop_drop]
  congr 1
  omega

theorem foldl_push_items (items : List α) (w : Window α) :
    (items.foldl (fun w a => w.push a) w).items = w.items ++ items := by
  induction items generalizing w with
  | nil => rw [List.foldl_nil, List.append_nil]
  | cons a items ih =>
      rw [List.foldl_cons, ih, Window.push, List.append_assoc, List.singleton_append]

theorem foldl_push_counted (items : List α) {w : Window α} (h : w.Counted) :
    (items.foldl (fun w a => w.push a) w).Counted := by
  induction items generalizing w with
  | nil => exact h
  | cons a items ih => exact ih (h.push a)

@[simp] theorem ofList_items (items : List α) : (ofList items).items = items :=
  foldl_push_items items empty

theorem counted_ofList (items : List α) : (ofList items).Counted :=
  foldl_push_counted items counted_empty

end Window

end XrCoin.Data
