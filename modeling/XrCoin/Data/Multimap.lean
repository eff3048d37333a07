import Mathlib

/-!
Multimaps that hold no empty entry, as relations.

A container that keeps for each key a finite set represents a relation between
keys and members. Inserting a member and erasing one, with the entry when it was
the last, act on the relation as expected.
-/

namespace XrCoin.Data

variable {α β : Type}

/-- The container holds exactly the pairs of the relation, and no empty set. -/
structure Represents (m : α → Option (Finset β)) (R : α → β → Prop) : Prop where
  mem_iff : ∀ a b, b ∈ (m a).getD ∅ ↔ R a b
  ne_empty : ∀ a, m a ≠ some ∅

section Operations

variable [DecidableEq α] [DecidableEq β]

def eraseMember (m : α → Option (Finset β)) (a : α) (s : Finset β) (b : β) :
    α → Option (Finset β) :=
  Function.update m a (if s.erase b = ∅ then none else some (s.erase b))

def insertMember (m : α → Option (Finset β)) (a : α) (b : β) : α → Option (Finset β) :=
  Function.update m a (some (insert b ((m a).getD ∅)))

end Operations

namespace Represents

variable {m : α → Option (Finset β)} {R R' : α → β → Prop}

theorem empty : Represents (fun _ : α => (none : Option (Finset β))) fun _ _ => False :=
  ⟨by simp, by simp⟩

theorem congr (h : Represents m R) (hR : ∀ a b, R a b ↔ R' a b) : Represents m R' :=
  ⟨fun a b => (h.mem_iff a b).trans (hR a b), h.ne_empty⟩

theorem unique {m' : α → Option (Finset β)} (h : Represents m R) (h' : Represents m' R) :
    m = m' := by
  have hset : ∀ a, (m a).getD ∅ = (m' a).getD ∅ := by
    intro a
    ext b
    rw [h.mem_iff, h'.mem_iff]
  funext a
  have ha := hset a
  have hne := h.ne_empty a
  have hne' := h'.ne_empty a
  cases hm : m a <;> cases hm' : m' a <;> simp_all

/-- An entry is the non-empty set of the members of its key. -/
theorem of_eq_some (h : Represents m R) {a : α} {s : Finset β} (hs : m a = some s) :
    s.Nonempty ∧ ∀ b, b ∈ s ↔ R a b := by
  constructor
  · rw [Finset.nonempty_iff_ne_empty]
    rintro rfl
    exact h.ne_empty a hs
  · intro b
    rw [← h.mem_iff, hs, Option.getD_some]

theorem exists_entry (h : Represents m R) {a : α} {b : β} (hR : R a b) :
    ∃ s, m a = some s ∧ b ∈ s := by
  have hmem := (h.mem_iff a b).mpr hR
  cases hm : m a with
  | none => simp [hm] at hmem
  | some s => exact ⟨s, rfl, by simpa [hm] using hmem⟩

/-- There is an entry exactly for the keys with a member. -/
theorem isSome_iff (h : Represents m R) (a : α) : (m a).isSome = true ↔ ∃ b, R a b := by
  constructor
  · intro hsome
    obtain ⟨s, hs⟩ := Option.isSome_iff_exists.mp hsome
    obtain ⟨⟨b, hb⟩, hmem⟩ := h.of_eq_some hs
    exact ⟨b, (hmem b).mp hb⟩
  · rintro ⟨b, hb⟩
    obtain ⟨s, hs, -⟩ := h.exists_entry hb
    rw [hs, Option.isSome_some]

variable [DecidableEq α] [DecidableEq β]

theorem insertMember (h : Represents m R) (a : α) (b : β) :
    Represents (insertMember m a b) fun x y => R x y ∨ x = a ∧ y = b := by
  constructor
  · intro x y
    by_cases hx : x = a
    · subst hx
      rw [Data.insertMember, Function.update_self, Option.getD_some, Finset.mem_insert,
        h.mem_iff]
      tauto
    · rw [Data.insertMember, Function.update_of_ne hx, h.mem_iff]
      tauto
  · intro x
    by_cases hx : x = a
    · subst hx
      rw [Data.insertMember, Function.update_self]
      simp
    · rw [Data.insertMember, Function.update_of_ne hx]
      exact h.ne_empty x

theorem eraseMember (h : Represents m R) {a : α} {s : Finset β} (hs : m a = some s) (b : β) :
    Represents (eraseMember m a s b) fun x y => R x y ∧ ¬(x = a ∧ y = b) := by
  constructor
  · intro x y
    by_cases hx : x = a
    · subst hx
      have hmem : y ∈ (if s.erase b = ∅ then none else some (s.erase b)).getD ∅ ↔
          y ∈ s.erase b := by
        split
        · rename_i hempty
          simp [hempty]
        · rfl
      rw [Data.eraseMember, Function.update_self, hmem, Finset.mem_erase,
        (h.of_eq_some hs).2]
      tauto
    · rw [Data.eraseMember, Function.update_of_ne hx, h.mem_iff]
      tauto
  · intro x
    by_cases hx : x = a
    · subst hx
      rw [Data.eraseMember, Function.update_self]
      split
      · simp
      · rename_i hne
        exact fun heq => hne (Option.some.inj heq)
    · rw [Data.eraseMember, Function.update_of_ne hx]
      exact h.ne_empty x

end Represents

/-- The entries of two tables, each in an order of its own: they are the same exactly when the
keys are, with their values. -/
theorem entries_perm_iff {order order' : List α} (h : order.Nodup) (h' : order'.Nodup)
    {f f' : α → β} :
    (order.map fun a => (a, f a)).Perm (order'.map fun a => (a, f' a)) ↔
      ∀ a, (a ∈ order ↔ a ∈ order') ∧ (a ∈ order → f a = f' a) := by
  have hinj (g : α → β) : Function.Injective fun a => (a, g a) := fun a b hab => congrArg Prod.fst hab
  rw [List.perm_ext_iff_of_nodup (h.map (hinj f)) (h'.map (hinj f'))]
  simp only [List.mem_map, Prod.forall, Prod.mk.injEq]
  constructor
  · intro hall a
    have hto : a ∈ order → a ∈ order' ∧ f a = f' a := by
      intro ha
      obtain ⟨a', ha', rfl, hvalue⟩ := (hall a (f a)).mp ⟨a, ha, rfl, rfl⟩
      exact ⟨ha', hvalue.symm⟩
    have hfrom : a ∈ order' → a ∈ order := by
      intro ha
      obtain ⟨a', ha', rfl, -⟩ := (hall a (f' a)).mpr ⟨a, ha, rfl, rfl⟩
      exact ha'
    exact ⟨⟨fun ha => (hto ha).1, hfrom⟩, fun ha => (hto ha).2⟩
  · intro hall a b
    constructor
    · rintro ⟨a', ha', rfl, rfl⟩
      exact ⟨a', (hall a').1.mp ha', rfl, ((hall a').2 ha').symm⟩
    · rintro ⟨a', ha', rfl, rfl⟩
      have ha := (hall a').1.mpr ha'
      exact ⟨a', ha, rfl, (hall a').2 ha⟩

end XrCoin.Data
