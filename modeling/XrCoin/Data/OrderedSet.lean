import Mathlib

/-!
Sets kept in the strict order of a key.

No two elements share a key, and the insertion of an element whose key is taken has no
effect. The walk over such a set that erases some of its elements visits all that were
there at its start.
-/

namespace XrCoin.Data

variable {α κ : Type} [LinearOrder κ]

/-- Puts an element in its place, unless its key is taken. -/
def insertByKey (key : α → κ) (a : α) : List α → List α
  | [] => [a]
  | b :: l =>
      if key a < key b then a :: b :: l
      else if key b < key a then b :: insertByKey key a l
      else b :: l

theorem mem_insertByKey {key : α → κ} {a x : α} {l : List α}
    (hl : l.Pairwise fun b c => key b < key c) :
    x ∈ insertByKey key a l ↔ x ∈ l ∨ x = a ∧ ∀ b ∈ l, key b ≠ key a := by
  induction l with
  | nil => simp [insertByKey]
  | cons b l ih =>
      rw [List.pairwise_cons] at hl
      rw [insertByKey]
      split_ifs with hab hba
      · have hfree : ∀ c ∈ b :: l, key c ≠ key a := by
          intro c hc
          rcases List.mem_cons.mp hc with rfl | hc
          · exact hab.ne'
          · exact (hab.trans (hl.1 c hc)).ne'
        rw [List.mem_cons (a := x) (b := a)]
        constructor
        · rintro (rfl | hx)
          · exact Or.inr ⟨rfl, hfree⟩
          · exact Or.inl hx
        · rintro (hx | ⟨rfl, -⟩)
          · exact Or.inr hx
          · exact Or.inl rfl
      · rw [List.mem_cons, List.mem_cons, ih hl.2, List.forall_mem_cons]
        have hne : key b ≠ key a := hba.ne
        tauto
      · have heq : key b = key a := le_antisymm (not_lt.mp hab) (not_lt.mp hba)
        rw [List.forall_mem_cons]
        tauto

theorem pairwise_insertByKey {key : α → κ} {a : α} {l : List α}
    (hl : l.Pairwise fun b c => key b < key c) :
    (insertByKey key a l).Pairwise fun b c => key b < key c := by
  induction l with
  | nil => simp [insertByKey]
  | cons b l ih =>
      have hl' := List.pairwise_cons.mp hl
      rw [insertByKey]
      split_ifs with hab hba
      · refine List.pairwise_cons.mpr ⟨?_, hl⟩
        intro c hc
        rcases List.mem_cons.mp hc with rfl | hc
        · exact hab
        · exact hab.trans (hl'.1 c hc)
      · refine List.pairwise_cons.mpr ⟨?_, ih hl'.2⟩
        intro c hc
        rcases (mem_insertByKey hl'.2).mp hc with hc | ⟨rfl, -⟩
        · exact hl'.1 c hc
        · exact hba
      · exact hl

structure OrderedSet (key : α → κ) where
  elems : List α
  sorted : elems.Pairwise fun a b => key a < key b

namespace OrderedSet

variable {key : α → κ}

instance : Membership α (OrderedSet key) := ⟨fun s a => a ∈ s.elems⟩

instance : EmptyCollection (OrderedSet key) := ⟨⟨[], List.Pairwise.nil⟩⟩

theorem mem_def {a : α} {s : OrderedSet key} : a ∈ s ↔ a ∈ s.elems := Iff.rfl

@[simp] theorem notMem_empty (a : α) : ¬a ∈ (∅ : OrderedSet key) := List.not_mem_nil

@[ext] theorem ext {s t : OrderedSet key} (h : s.elems = t.elems) : s = t := by
  cases s
  cases t
  cases h
  rfl

theorem eq_of_key_eq {s : OrderedSet key} {a b : α} (ha : a ∈ s) (hb : b ∈ s)
    (h : key a = key b) : a = b := by
  by_contra hne
  have hsym : Std.Symm fun a b : α => key a ≠ key b := ⟨fun _ _ hab => hab.symm⟩
  have hdiff : s.elems.Pairwise fun a b => key a ≠ key b := s.sorted.imp fun hlt => hlt.ne
  exact hdiff.forall ha hb hne h

/-- Inserts an element, unless its key is taken. -/
def insert (s : OrderedSet key) (a : α) : OrderedSet key :=
  ⟨insertByKey key a s.elems, pairwise_insertByKey s.sorted⟩

def filter (s : OrderedSet key) (p : α → Bool) : OrderedSet key :=
  ⟨s.elems.filter p, s.sorted.filter p⟩

def erase (s : OrderedSet key) (a : α) : OrderedSet key :=
  s.filter fun b => decide (key b ≠ key a)

theorem mem_insert {s : OrderedSet key} {a x : α} :
    x ∈ s.insert a ↔ x ∈ s ∨ x = a ∧ ∀ b ∈ s, key b ≠ key a :=
  mem_insertByKey s.sorted

theorem mem_filter {s : OrderedSet key} {p : α → Bool} {x : α} :
    x ∈ s.filter p ↔ x ∈ s ∧ p x = true :=
  List.mem_filter

theorem mem_erase {s : OrderedSet key} {a x : α} :
    x ∈ s.erase a ↔ x ∈ s ∧ key x ≠ key a := by
  rw [erase, mem_filter, decide_eq_true_iff]

theorem mem_insert_of_free {s : OrderedSet key} {a x : α} (h : ∀ b ∈ s, key b ≠ key a) :
    x ∈ s.insert a ↔ x ∈ s ∨ x = a := by
  rw [mem_insert]
  tauto

/-- An erased element, put back with other contents under its key. -/
theorem mem_insert_erase {s : OrderedSet key} {a b x : α} (h : key b = key a) :
    x ∈ (s.erase a).insert b ↔ x ∈ s ∧ key x ≠ key a ∨ x = b := by
  rw [mem_insert_of_free, mem_erase]
  intro c hc
  rw [h]
  exact (mem_erase.mp hc).2

end OrderedSet

end XrCoin.Data
