import Mathlib.Data.List.Basic

/-!
Chains of challenges. A challenge and a response give a commitment, where they give one, and a
commitment gives the challenge for the next place.

A chain can be entered at any place with a commitment that was made there. Whoever knows how to
answer the challenge that comes round to that place closes it.

The last part is about what is computed for each of several rings, where each may fail.
-/

namespace XrCoin.Data

variable {χ κ ρ : Type} (commit : χ → ρ → Option κ) (challenge : ℕ → κ → χ)

def links (j : ℕ) (ch : χ) : List ρ → Option χ
  | [] => some ch
  | r :: rs => do
      let l ← commit ch r
      links (j + 1) (challenge j l) rs

/-- The last commitment, from the one at a place and the responses after it. -/
def finish (j : ℕ) (l : κ) : List ρ → Option κ
  | [] => some l
  | r :: rs => do
      let l' ← commit (challenge j l) r
      finish (j + 1) l' rs

/-- The last commitment, from a challenge. Where there are no responses there is none to make. -/
def ends (empty : κ) (j : ℕ) (ch : χ) : List ρ → Option κ
  | [] => some empty
  | r :: rs => do
      let l ← commit ch r
      finish commit challenge j l rs

variable {commit challenge} {j : ℕ} {ch ch' : χ} {r : ρ} {rs before after : List ρ} {l : κ}

theorem links_append :
    links commit challenge j ch (before ++ after) = (links commit challenge j ch before).bind
      fun ch' => links commit challenge (j + before.length) ch' after := by
  induction before generalizing j ch with
  | nil => rfl
  | cons r before ih =>
      rw [List.cons_append, links, links]
      cases commit ch r with
      | none => rfl
      | some l =>
          change links commit challenge (j + 1) (challenge j l) (before ++ after) =
            (links commit challenge (j + 1) (challenge j l) before).bind _
          rw [ih, List.length_cons, Nat.add_assoc, Nat.add_comm 1]

/-- A chain up to a place, the answer there, and the rest. -/
theorem links_append_cons (hbefore : links commit challenge j ch before = some ch')
    (hcommit : commit ch' r = some l) :
    links commit challenge j ch (before ++ r :: after) =
      links commit challenge (j + before.length + 1) (challenge (j + before.length) l) after := by
  rw [links_append, hbefore, Option.bind_some, links, hcommit]
  rfl

theorem finish_append_cons (hbefore : links commit challenge (j + 1) (challenge j l) before =
      some ch') {l' : κ} (hcommit : commit ch' r = some l') :
    finish commit challenge j l (before ++ r :: after) =
      finish commit challenge (j + 1 + before.length) l' after := by
  induction before generalizing j l with
  | nil =>
      obtain rfl := Option.some.inj hbefore
      rw [List.nil_append, finish, hcommit]
      rfl
  | cons r' before ih =>
      rw [links] at hbefore
      obtain ⟨l₁, hl₁, hrest⟩ := Option.bind_eq_some_iff.mp hbefore
      rw [List.cons_append, finish, hl₁]
      change finish commit challenge (j + 1) l₁ (before ++ r :: after) = _
      rw [ih hrest, List.length_cons, Nat.add_right_comm (j + 1), Nat.add_assoc (j + 1)]

theorem ends_append_cons {empty : κ} (hbefore : links commit challenge j ch before = some ch')
    (hcommit : commit ch' r = some l) :
    ends commit challenge empty j ch (before ++ r :: after) =
      finish commit challenge (j + before.length) l after := by
  cases before with
  | nil =>
      obtain rfl := Option.some.inj hbefore
      rw [List.nil_append, ends, hcommit]
      rfl
  | cons r' before =>
      rw [links] at hbefore
      obtain ⟨l₁, hl₁, hrest⟩ := Option.bind_eq_some_iff.mp hbefore
      rw [List.cons_append, ends, hl₁]
      change finish commit challenge j l₁ (before ++ r :: after) = _
      rw [finish_append_cons hrest hcommit, List.length_cons, Nat.add_assoc j, Nat.add_comm 1]

theorem links_isSome (h : ∀ ch, ∀ r ∈ rs, (commit ch r).isSome) :
    (links commit challenge j ch rs).isSome := by
  induction rs generalizing j ch with
  | nil => rfl
  | cons r rs ih =>
      obtain ⟨l, hl⟩ := Option.isSome_iff_exists.mp (h ch r List.mem_cons_self)
      rw [links, hl]
      exact ih fun ch r hr => h ch r (List.mem_cons_of_mem _ hr)

theorem finish_isSome (h : ∀ ch, ∀ r ∈ rs, (commit ch r).isSome) :
    (finish commit challenge j l rs).isSome := by
  induction rs generalizing j l with
  | nil => rfl
  | cons r rs ih =>
      obtain ⟨l', hl'⟩ := Option.isSome_iff_exists.mp (h (challenge j l) r List.mem_cons_self)
      rw [finish, hl']
      exact ih fun ch r hr => h ch r (List.mem_cons_of_mem _ hr)

theorem links_holds (p : χ → Prop) (hch : p ch) (hchallenge : ∀ j l, p (challenge j l))
    (h : links commit challenge j ch rs = some ch') : p ch' := by
  induction rs generalizing j ch with
  | nil => exact Option.some.inj h ▸ hch
  | cons r rs ih =>
      rw [links] at h
      obtain ⟨l, -, h⟩ := Option.bind_eq_some_iff.mp h
      exact ih (hchallenge j l) h

theorem links_congr {commit' : χ → ρ → Option κ}
    (h : ∀ ch, ∀ r ∈ rs, commit ch r = commit' ch r) :
    links commit challenge j ch rs = links commit' challenge j ch rs := by
  induction rs generalizing j ch with
  | nil => rfl
  | cons r rs ih =>
      rw [links, links, h ch r List.mem_cons_self]
      exact bind_congr fun l => ih fun ch r hr => h ch r (List.mem_cons_of_mem _ hr)

/-- A chain that goes round: entered at a place with a commitment, and answered when the challenge
comes back to it. -/
theorem links_closed {cc : χ}
    (hafter : links commit challenge (before.length + 1) (challenge before.length l) after =
      some cc)
    (hbefore : links commit challenge 0 cc before = some ch') (hcommit : commit ch' r = some l) :
    links commit challenge 0 cc (before ++ r :: after) = some cc := by
  rw [links_append_cons hbefore hcommit, Nat.zero_add]
  exact hafter

/-! ### Results for all rings -/

theorem mapM_eq_map {α β : Type} {f : α → Option β} {g : α → β} {as : List α}
    (h : ∀ a ∈ as, f a = some (g a)) : as.mapM f = some (as.map g) := by
  induction as with
  | nil => rfl
  | cons a as ih =>
      rw [List.mapM_cons, h a List.mem_cons_self,
        ih fun a' ha' => h a' (List.mem_cons_of_mem _ ha')]
      rfl

theorem mapM_congr_left {α β : Type} {f g : α → Option β} {as : List α}
    (h : ∀ a ∈ as, f a = g a) : as.mapM f = as.mapM g := by
  induction as with
  | nil => rfl
  | cons a as ih =>
      rw [List.mapM_cons, List.mapM_cons, h a List.mem_cons_self,
        ih fun a' ha' => h a' (List.mem_cons_of_mem _ ha')]

theorem mapM_isSome {α β : Type} {f : α → Option β} {as : List α}
    (h : ∀ a ∈ as, (f a).isSome) : (as.mapM f).isSome := by
  induction as with
  | nil => rfl
  | cons a as ih =>
      obtain ⟨b, hb⟩ := Option.isSome_iff_exists.mp (h a List.mem_cons_self)
      obtain ⟨bs, hbs⟩ := Option.isSome_iff_exists.mp
        (ih fun a' ha' => h a' (List.mem_cons_of_mem _ ha'))
      rw [List.mapM_cons, hb, hbs]
      rfl

/-- A list of pairs from its parts, with another second part at one place. -/
theorem zip_set {α β : Type} {l : List (α × β)} {i : ℕ} {a : α} {b b' : β}
    (h : l[i]? = some (a, b)) :
    (l.map Prod.fst).zip ((l.map Prod.snd).set i b') = l.take i ++ (a, b') :: l.drop (i + 1) := by
  obtain ⟨hlt, hget⟩ := List.getElem?_eq_some_iff.mp h
  have hset : l.set i (a, b') = l.take i ++ (a, b') :: l.drop (i + 1) := by
    rw [List.set_eq_take_append_cons_drop, if_pos hlt]
  have hmap : i < (l.map Prod.fst).length := by rwa [List.length_map]
  have hfst : (l.map Prod.fst)[i] = a := by rw [List.getElem_map, hget]
  rw [← hset]
  refine (List.zip_of_prod ?_ ?_).symm
  · rw [List.map_set, ← hfst, List.set_getElem_self]
  · rw [List.map_set]

theorem mapM_range_isSome {β : Type} {f : ℕ → Option β} {n : ℕ} (h : ∀ i < n, (f i).isSome) :
    ∃ ys, (List.range n).mapM f = some ys ∧ ys.length = n ∧ ∀ i < n, f i = ys[i]? := by
  induction n with
  | zero => exact ⟨[], rfl, rfl, fun i hi => absurd hi (Nat.not_lt_zero i)⟩
  | succ n ih =>
      obtain ⟨ys, hys, hlen, hget⟩ := ih fun i hi => h i (Nat.lt_succ_of_lt hi)
      obtain ⟨y, hy⟩ := Option.isSome_iff_exists.mp (h n (Nat.lt_succ_self n))
      refine ⟨ys ++ [y], ?_, by rw [List.length_append, hlen]; rfl, fun i hi => ?_⟩
      · rw [List.range_succ, List.mapM_append, hys]
        simp [hy]
      · rcases Nat.lt_succ_iff_lt_or_eq.mp hi with hi | rfl
        · rw [List.getElem?_append_left (hlen ▸ hi), hget i hi]
        · rw [← hlen, List.getElem?_concat_length, hlen, hy]

theorem mapM_range_congr {β : Type} {f : ℕ → Option β} {ys : List β}
    (h : ∀ i < ys.length, f i = ys[i]?) : (List.range ys.length).mapM f = some ys := by
  have hsome : ∀ i < ys.length, (f i).isSome := by
    intro i hi
    rw [h i hi, List.getElem?_eq_getElem hi]
    rfl
  obtain ⟨zs, hzs, hlen, hget⟩ := mapM_range_isSome hsome
  rw [hzs]
  refine congrArg some (List.ext_getElem? fun i => ?_)
  by_cases hi : i < ys.length
  · rw [← hget i hi, h i hi]
  · rw [List.getElem?_eq_none (by omega), List.getElem?_eq_none (by omega)]

def gather {β : Type} {n : ℕ} (f : Fin n → Option β) : Option (Fin n → β) :=
  if h : ∀ i, (f i).isSome then some fun i => (f i).get (h i) else none

theorem gather_eq_some_iff {β : Type} {n : ℕ} {f : Fin n → Option β} {g : Fin n → β} :
    gather f = some g ↔ ∀ i, f i = some (g i) := by
  rw [gather]
  constructor
  · intro h i
    split at h
    · rename_i hsome
      rw [← Option.some.inj h]
      exact (Option.some_get (hsome i)).symm
    · cases h
  · intro h
    have hsome : ∀ i, (f i).isSome := by
      intro i
      rw [h i]
      rfl
    rw [dif_pos hsome]
    refine congrArg some (funext fun i => ?_)
    exact Option.some.inj ((Option.some_get (hsome i)).trans (h i))

end XrCoin.Data
