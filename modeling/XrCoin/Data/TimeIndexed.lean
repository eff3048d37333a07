import Mathlib

/-!
Containers with two indices: by a key that is unique, and by a time that is not.

The elements stand in the order of the index by time. A new element goes behind those of
the same time. One that is replaced stays where it is if the order allows it, and is put
in like a new one otherwise. Trimming takes elements off the front, the oldest ones first.
-/

namespace XrCoin.Data

variable {α κ τ : Type} [LinearOrder τ]

def insertByTime (time : α → τ) (a : α) : List α → List α
  | [] => [a]
  | b :: l => if time a < time b then a :: b :: l else b :: insertByTime time a l

theorem insertByTime_perm (time : α → τ) (a : α) (l : List α) :
    (insertByTime time a l).Perm (a :: l) := by
  induction l with
  | nil => exact List.Perm.refl _
  | cons b l ih =>
      rw [insertByTime]
      split_ifs
      · exact List.Perm.refl _
      · exact (ih.cons b).trans (List.Perm.swap a b l)

theorem pairwise_insertByTime {time : α → τ} {a : α} {l : List α}
    (hl : l.Pairwise fun b c => time b ≤ time c) :
    (insertByTime time a l).Pairwise fun b c => time b ≤ time c := by
  induction l with
  | nil => exact List.pairwise_singleton _ _
  | cons b l ih =>
      have hl' := List.pairwise_cons.mp hl
      rw [insertByTime]
      split_ifs with hab
      · refine List.pairwise_cons.mpr ⟨?_, hl⟩
        intro c hc
        rcases List.mem_cons.mp hc with rfl | hc
        · exact hab.le
        · exact hab.le.trans (hl'.1 c hc)
      · refine List.pairwise_cons.mpr ⟨?_, ih hl'.2⟩
        intro c hc
        rcases List.mem_cons.mp ((insertByTime_perm time a l).mem_iff.mp hc) with rfl | hc
        · exact not_lt.mp hab
        · exact hl'.1 c hc

/-- Takes elements off the front while there are too many. -/
def trimFront (limit : ℕ) : List α → List α
  | [] => []
  | a :: l => if limit < (a :: l).length then trimFront limit l else a :: l

theorem trimFront_suffix (limit : ℕ) (l : List α) : trimFront limit l <:+ l := by
  induction l with
  | nil => exact List.suffix_refl _
  | cons a l ih =>
      rw [trimFront]
      split_ifs
      · exact ih.trans (List.suffix_cons a l)
      · exact List.suffix_refl _

theorem length_trimFront_le (limit : ℕ) (l : List α) : (trimFront limit l).length ≤ limit := by
  induction l with
  | nil => exact Nat.zero_le _
  | cons a l ih =>
      rw [trimFront]
      split_ifs with hlt
      · exact ih
      · exact Nat.not_lt.mp hlt

structure TimeIndexed (key : α → κ) (time : α → τ) where
  elems : List α
  unique : (elems.map key).Nodup
  sorted : elems.Pairwise fun a b => time a ≤ time b

namespace TimeIndexed

variable {key : α → κ} {time : α → τ}

instance : Membership α (TimeIndexed key time) := ⟨fun s a => a ∈ s.elems⟩

instance : EmptyCollection (TimeIndexed key time) :=
  ⟨⟨[], List.nodup_nil, List.Pairwise.nil⟩⟩

@[simp] theorem notMem_empty (a : α) : ¬a ∈ (∅ : TimeIndexed key time) := List.not_mem_nil

def size (s : TimeIndexed key time) : ℕ := s.elems.length

def trim (s : TimeIndexed key time) (limit : ℕ) : TimeIndexed key time where
  elems := trimFront limit s.elems
  unique := s.unique.sublist ((trimFront_suffix limit s.elems).sublist.map key)
  sorted := s.sorted.sublist (trimFront_suffix limit s.elems).sublist

theorem mem_of_mem_trim {s : TimeIndexed key time} {limit : ℕ} {a : α} (h : a ∈ s.trim limit) :
    a ∈ s :=
  (trimFront_suffix limit s.elems).subset h

theorem size_trim_le (s : TimeIndexed key time) (limit : ℕ) : (s.trim limit).size ≤ limit :=
  length_trimFront_le limit s.elems

theorem time_le_of_trimmed {s : TimeIndexed key time} {limit : ℕ} {a b : α} (ha : a ∈ s)
    (hgone : ¬a ∈ s.trim limit) (hb : b ∈ s.trim limit) : time a ≤ time b := by
  obtain ⟨front, hfront⟩ := trimFront_suffix limit s.elems
  have hsorted := s.sorted
  rw [← hfront, List.pairwise_append] at hsorted
  have ha' : a ∈ front ++ trimFront limit s.elems := by
    rw [hfront]
    exact ha
  exact hsorted.2.2 a ((List.mem_append.mp ha').resolve_right hgone) b hb

variable [DecidableEq κ]

def find (s : TimeIndexed key time) (k : κ) : Option α :=
  s.elems.find? fun a => decide (key a = k)

theorem find_eq_none_iff {s : TimeIndexed key time} {k : κ} :
    s.find k = none ↔ ∀ a ∈ s, key a ≠ k := by
  rw [find, List.find?_eq_none]
  simp only [decide_eq_true_iff]
  rfl

def erase (s : TimeIndexed key time) (k : κ) : TimeIndexed key time where
  elems := s.elems.filter fun a => decide (key a ≠ k)
  unique := s.unique.sublist (List.filter_sublist.map key)
  sorted := s.sorted.filter _

theorem mem_erase {s : TimeIndexed key time} {k : κ} {a : α} :
    a ∈ s.erase k ↔ a ∈ s ∧ key a ≠ k := by
  change a ∈ s.elems.filter _ ↔ _
  rw [List.mem_filter, decide_eq_true_iff]
  rfl

theorem size_erase_le (s : TimeIndexed key time) (k : κ) : (s.erase k).size ≤ s.size :=
  List.length_filter_le _ _

def link (s : TimeIndexed key time) (a : α) (h : ∀ b ∈ s, key b ≠ key a) :
    TimeIndexed key time where
  elems := insertByTime time a s.elems
  unique := by
    rw [((insertByTime_perm time a s.elems).map key).nodup_iff, List.map_cons, List.nodup_cons]
    refine ⟨fun hmem => ?_, s.unique⟩
    obtain ⟨b, hb, hkey⟩ := List.mem_map.mp hmem
    exact h b hb hkey
  sorted := pairwise_insertByTime s.sorted

/-- Inserts an element, unless its key is taken. -/
def insert (s : TimeIndexed key time) (a : α) : TimeIndexed key time :=
  if h : ∀ b ∈ s.elems, key b ≠ key a then s.link a h else s

theorem mem_insert {s : TimeIndexed key time} {a x : α} :
    x ∈ s.insert a ↔ x ∈ s ∨ x = a ∧ ∀ b ∈ s, key b ≠ key a := by
  rw [insert]
  split_ifs with h
  · change x ∈ insertByTime time a s.elems ↔ _
    rw [(insertByTime_perm time a s.elems).mem_iff, List.mem_cons]
    change x = a ∨ x ∈ s ↔ _
    have h' : ∀ b ∈ s, key b ≠ key a := h
    tauto
  · have h' : ¬∀ b ∈ s, key b ≠ key a := h
    tauto

def substitute (s : TimeIndexed key time) (a : α) : List α :=
  s.elems.map fun b => if key b = key a then a else b

theorem map_key_substitute (s : TimeIndexed key time) (a : α) :
    (s.substitute a).map key = s.elems.map key := by
  rw [substitute, List.map_map]
  apply List.map_congr_left
  intro b _
  rw [Function.comp_apply]
  split_ifs with hb
  · exact hb.symm
  · rfl

def replace (s : TimeIndexed key time) (a : α) : TimeIndexed key time :=
  if h : (s.substitute a).Pairwise fun b c => time b ≤ time c then
    ⟨s.substitute a, by rw [map_key_substitute]; exact s.unique, h⟩
  else (s.erase (key a)).link a fun _ hb => (mem_erase.mp hb).2

/-- The key of the new element being in use, it takes the place of that element. -/
theorem mem_replace {s : TimeIndexed key time} {a b x : α} (hb : b ∈ s) (hkey : key b = key a) :
    x ∈ s.replace a ↔ x ∈ s ∧ key x ≠ key a ∨ x = a := by
  rw [replace]
  split_ifs with h
  · change x ∈ s.substitute a ↔ _
    rw [substitute, List.mem_map]
    constructor
    · rintro ⟨c, hc, rfl⟩
      split_ifs with hca
      · exact Or.inr rfl
      · exact Or.inl ⟨hc, hca⟩
    · rintro (⟨hx, hne⟩ | rfl)
      · exact ⟨x, hx, if_neg hne⟩
      · exact ⟨b, hb, if_pos hkey⟩
  · change x ∈ insertByTime time a (s.erase (key a)).elems ↔ _
    rw [(insertByTime_perm time a _).mem_iff, List.mem_cons]
    change x = a ∨ x ∈ s.erase (key a) ↔ _
    rw [mem_erase, or_comm]

theorem size_replace_le {s : TimeIndexed key time} {a b : α} (hb : b ∈ s)
    (hkey : key b = key a) : (s.replace a).size ≤ s.size := by
  rw [replace]
  split_ifs with h
  · exact Nat.le_of_eq (List.length_map _)
  · change (insertByTime time a (s.erase (key a)).elems).length ≤ s.elems.length
    rw [(insertByTime_perm time a _).length_eq, List.length_cons, Nat.succ_le_iff]
    apply List.length_filter_lt_length_iff_exists.mpr
    exact ⟨b, hb, by simp [hkey]⟩

end TimeIndexed

end XrCoin.Data
