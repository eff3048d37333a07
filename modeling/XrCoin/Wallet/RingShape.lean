import XrCoin.Wallet.GetOuts
import XrCoin.Wallet.Payments

/-!
The members of the rings that `get_outs` returns: when they are distinct, and when they contain
those of a known ring.
-/

namespace XrCoin.Wallet

open Archive Cryptonote Data

namespace OutsEnv

variable (env : OutsEnv)

/-! ### One ring -/

def ownEntry (td : TransferDetails) : OutsEntry :=
  ⟨td.globalOutputIndex, td.publicKey?.getD nullPkey, env.ownMask td⟩

def usableEntries (realIndex : UInt64) (answers : List Answer) : List OutsEntry :=
  (answers.filter fun a => a.unlocked ∧ a.index ≠ realIndex).map Answer.entry

def knownAnswers (tds : List TransferDetails) (td : TransferDetails) (answers : List Answer) :
    List Answer :=
  (((env.knownRing td).getD []).filter fun out =>
    out < (env.listedOuts tds td).1 ∧ out ≠ td.globalOutputIndex).filterMap fun out =>
      answers.find? fun a => a.index = out

def knownEntries (tds : List TransferDetails) (td : TransferDetails) (answers : List Answer) :
    List OutsEntry :=
  usableEntries td.globalOutputIndex (env.knownAnswers tds td answers)

def filledRing (tds : List TransferDetails) (td : TransferDetails) (answers shuffled : List Answer) :
    List OutsEntry :=
  fillUp (env.fakeOutputsCount + 1) (usableEntries td.globalOutputIndex shuffled)
    ((env.knownEntries tds td answers).foldl addNew [env.ownEntry td])

structure Answered (tds : List TransferDetails) (td : TransferDetails) (answers : List Answer) :
    Prop where
  key : td.publicKey? ≠ none
  real : ∃ a ∈ answers, a.entry = env.ownEntry td
  ring : ∀ out ∈ (env.knownRing td).getD [], out < (env.listedOuts tds td).1 →
    out ≠ td.globalOutputIndex → ∃ a ∈ answers, a.index = out

structure Completes (tds : List TransferDetails) (td : TransferDetails) (answers : List Answer) :
    Prop extends Answered env tds td answers where
  enough : env.fakeOutputsCount ≤ (usableEntries td.globalOutputIndex answers).toFinset.card

theorem mem_usableEntries {realIndex : UInt64} {answers : List Answer} {e : OutsEntry} :
    e ∈ usableEntries realIndex answers ↔
      ∃ a ∈ answers, a.unlocked = true ∧ a.index ≠ realIndex ∧ a.entry = e := by
  simp [usableEntries, and_assoc]

theorem usableEntries_cons (realIndex : UInt64) (a : Answer) (answers : List Answer) :
    usableEntries realIndex (a :: answers) =
      if a.unlocked = true ∧ a.index ≠ realIndex then
        a.entry :: usableEntries realIndex answers
      else
        usableEntries realIndex answers := by
  unfold usableEntries
  by_cases h : a.unlocked = true ∧ a.index ≠ realIndex <;> simp [h]

theorem txAddFakeOutput_eq (realIndex : UInt64) (ring : List OutsEntry) (a : Answer) :
    txAddFakeOutput realIndex ring a =
      if a.unlocked = true ∧ a.index ≠ realIndex then addNew ring a.entry else ring := by
  unfold txAddFakeOutput
  by_cases hunlocked : a.unlocked = true <;> by_cases hreal : a.index = realIndex <;>
    simp [hunlocked, hreal]

theorem addFakeOutputs_eq (realIndex : UInt64) (answers : List Answer) (ring : List OutsEntry) :
    env.addFakeOutputs realIndex answers ring =
      fillUp (env.fakeOutputsCount + 1) (usableEntries realIndex answers) ring := by
  induction answers generalizing ring with
  | nil => rfl
  | cons a answers ih =>
      rw [addFakeOutputs, usableEntries_cons, txAddFakeOutput_eq]
      by_cases hroom : ring.length < env.fakeOutputsCount + 1
      · rw [if_pos hroom]
        split
        · rw [ih, fillUp, if_pos hroom]
        · exact ih ring
      · rw [if_neg hroom, fillUp_of_full (Nat.not_lt.mp hroom)]

theorem find?_index_eq_some {answers : List Answer} {out : UInt64} {a : Answer}
    (h : (answers.find? fun a => a.index = out) = some a) : a ∈ answers ∧ a.index = out :=
  ⟨List.mem_of_find?_eq_some h, by simpa using List.find?_some h⟩

theorem addKnownRing_eq_ok {td : TransferDetails} {numOuts : UInt64} {answers : List Answer}
    {outs : List UInt64} {ring ring' : List OutsEntry} :
    addKnownRing td numOuts answers outs ring = .ok ring' ↔
      (∀ out ∈ outs, out < numOuts → out ≠ td.globalOutputIndex → ∃ a ∈ answers, a.index = out) ∧
        (usableEntries td.globalOutputIndex ((outs.filter fun out =>
          out < numOuts ∧ out ≠ td.globalOutputIndex).filterMap fun out =>
            answers.find? fun a => a.index = out)).foldl addNew ring = ring' := by
  induction outs generalizing ring with
  | nil =>
      rw [addKnownRing, Except.ok.injEq]
      simp [usableEntries]
  | cons out outs ih =>
      rw [addKnownRing]
      by_cases hlisted : out < numOuts ∧ out ≠ td.globalOutputIndex
      · rw [if_pos hlisted, bind_eq_ok, List.filter_cons_of_pos (by simpa using hlisted)]
        cases hfind : answers.find? fun a => a.index = out with
        | none =>
            refine iff_of_false (by simp [orThrow]) ?_
            rintro ⟨hall, -⟩
            obtain ⟨a, hmem, hindex⟩ := hall out List.mem_cons_self hlisted.1 hlisted.2
            exact absurd hindex (by simpa using List.find?_eq_none.mp hfind a hmem)
        | some a =>
            obtain ⟨hmem, hindex⟩ := find?_index_eq_some hfind
            have hrest : ∀ ring, addKnownRing td numOuts answers outs ring = .ok ring' ↔ _ :=
              fun ring => ih
            simp only [orThrow_eq_ok, Option.some.injEq, exists_eq_left', hrest, hfind,
              List.filterMap_cons_some, usableEntries_cons, txAddFakeOutput_eq, List.forall_mem_cons]
            refine and_congr ?_ ?_
            · exact (and_iff_right fun _ _ => ⟨a, hmem, hindex⟩).symm
            · split <;> rfl
      · rw [if_neg hlisted, ih, List.filter_cons_of_neg (by simpa using hlisted)]
        refine and_congr_left fun _ => ?_
        rw [List.forall_mem_cons]
        exact (and_iff_right fun hlt hne => absurd ⟨hlt, hne⟩ hlisted).symm

theorem ringOf_eq_ok {tds : List TransferDetails} {td : TransferDetails}
    {answers shuffled : List Answer} {ring : List OutsEntry} :
    env.ringOf tds td answers shuffled = .ok ring ↔
      env.Answered tds td answers ∧ env.filledRing tds td answers shuffled = ring := by
  rw [ringOf, bind_eq_ok]
  cases hkey : td.publicKey? with
  | none =>
      refine iff_of_false (by simp [orThrow]) ?_
      rintro ⟨hanswered, -⟩
      exact hanswered.key hkey
  | some key =>
      have hown : env.ownEntry td = ⟨td.globalOutputIndex, key, env.ownMask td⟩ := by
        rw [ownEntry, hkey, Option.getD_some]
      simp only [orThrow_eq_ok, Option.some.injEq, exists_eq_left', ← hown, bind_eq_ok,
        throwIf_eq_ok, addKnownRing_eq_ok, not_not]
      constructor
      · rintro ⟨-, hreal, ring₀, ⟨hring, rfl⟩, hfilled⟩
        refine ⟨⟨by simp [hkey], hreal, hring⟩, ?_⟩
        rw [← Except.ok.inj hfilled, addFakeOutputs_eq]
        rfl
      · rintro ⟨hanswered, rfl⟩
        refine ⟨(), hanswered.real, _, ⟨hanswered.ring, rfl⟩, ?_⟩
        rw [addFakeOutputs_eq]
        rfl

theorem ringsOf_eq_ok {tds : List TransferDetails} {shuffle : Shuffle} {n : ℕ}
    {parts : List (TransferDetails × List Answer)} {rings : List (List OutsEntry)} :
    env.ringsOf tds shuffle n parts = .ok rings ↔
      (∀ p ∈ parts, env.Answered tds p.1 p.2) ∧
        (parts.mapIdx fun i p => env.filledRing tds p.1 p.2 (shuffle.run (n + i) p.2)) = rings := by
  induction parts generalizing n rings with
  | nil => simp [ringsOf]
  | cons p parts ih =>
      rw [ringsOf, bind_eq_ok]
      simp only [ringOf_eq_ok, bind_eq_ok, ih, List.forall_mem_cons, List.mapIdx_cons]
      constructor
      · rintro ⟨ring, ⟨hanswered, rfl⟩, rings', ⟨hall, rfl⟩, hrings⟩
        refine ⟨⟨hanswered, hall⟩, ?_⟩
        rw [← Except.ok.inj hrings]
        simp only [Nat.add_zero, Nat.add_right_comm, Nat.add_assoc]
      · rintro ⟨⟨hanswered, hall⟩, rfl⟩
        refine ⟨_, ⟨hanswered, rfl⟩, _, ⟨hall, rfl⟩, ?_⟩
        simp only [Nat.add_zero, Nat.add_right_comm, Nat.add_assoc]
        rfl

/-! ### What a ring is made of -/

section Members

variable {env} {tds : List TransferDetails} {td : TransferDetails} {answers shuffled : List Answer}

/-- The known ring is not too large, and it contains the real output. -/
def RingFits (env : OutsEnv) (td : TransferDetails) : Prop :=
  ∀ ring, env.knownRing td = some ring →
    ring.length ≤ env.fakeOutputsCount + 1 ∧ td.globalOutputIndex ∈ ring

theorem index_ne_of_mem_usable {realIndex : UInt64} {e : OutsEntry}
    (h : e ∈ usableEntries realIndex answers) : e.index ≠ realIndex := by
  obtain ⟨a, -, -, hne, rfl⟩ := mem_usableEntries.mp h
  exact hne

theorem own_notMem_usable : env.ownEntry td ∉ usableEntries td.globalOutputIndex answers :=
  fun h => index_ne_of_mem_usable h rfl

theorem mem_knownEntries {e : OutsEntry} :
    e ∈ env.knownEntries tds td answers ↔
      ∃ out ∈ (env.knownRing td).getD [], out < (env.listedOuts tds td).1 ∧
        out ≠ td.globalOutputIndex ∧ ∃ a, (answers.find? fun a => a.index = out) = some a ∧
          a.unlocked = true ∧ a.entry = e := by
  simp only [knownEntries, mem_usableEntries, knownAnswers, List.mem_filterMap, List.mem_filter,
    decide_eq_true_eq]
  constructor
  · rintro ⟨a, ⟨out, ⟨hmem, hlt, hne⟩, hfind⟩, hunlocked, -, hentry⟩
    exact ⟨out, hmem, hlt, hne, a, hfind, hunlocked, hentry⟩
  · rintro ⟨out, hmem, hlt, hne, a, hfind, hunlocked, hentry⟩
    refine ⟨a, ⟨out, ⟨hmem, hlt, hne⟩, hfind⟩, hunlocked, ?_, hentry⟩
    rwa [(find?_index_eq_some hfind).2]

theorem known_subset_usable {e : OutsEntry} (h : e ∈ env.knownEntries tds td answers) :
    e ∈ usableEntries td.globalOutputIndex answers := by
  obtain ⟨out, -, -, hne, a, hfind, hunlocked, hentry⟩ := mem_knownEntries.mp h
  obtain ⟨hmem, hindex⟩ := find?_index_eq_some hfind
  exact mem_usableEntries.mpr ⟨a, hmem, hunlocked, by rwa [hindex], hentry⟩

/-- A member of the known ring is added only once: it is the first answer for it each time. -/
theorem known_index_inj {e e' : OutsEntry} (h : e ∈ env.knownEntries tds td answers)
    (h' : e' ∈ env.knownEntries tds td answers) (hindex : e.index = e'.index) : e = e' := by
  obtain ⟨out, -, -, -, a, hfind, -, rfl⟩ := mem_knownEntries.mp h
  obtain ⟨out', -, -, -, a', hfind', -, rfl⟩ := mem_knownEntries.mp h'
  have hout : out = out' := by
    rw [← (find?_index_eq_some hfind).2, ← (find?_index_eq_some hfind').2]
    exact hindex
  subst hout
  rw [Option.some.inj (hfind.symm.trans hfind')]

theorem card_known_le (hfits : env.RingFits td) :
    (env.knownEntries tds td answers).toFinset.card ≤ env.fakeOutputsCount := by
  have hlen : (env.knownEntries tds td answers).length ≤
      (((env.knownRing td).getD []).filter fun out =>
        out < (env.listedOuts tds td).1 ∧ out ≠ td.globalOutputIndex).length := by
    rw [knownEntries, usableEntries, List.length_map]
    exact (List.length_filter_le _ _).trans (List.length_filterMap_le _ _)
  refine (List.toFinset_card_le _).trans (hlen.trans ?_)
  cases hring : env.knownRing td with
  | none => simp
  | some ring =>
      obtain ⟨hsize, hreal⟩ := hfits ring hring
      -- The real output itself is left out.
      have hlt : (ring.filter fun out =>
          out < (env.listedOuts tds td).1 ∧ out ≠ td.globalOutputIndex).length < ring.length :=
        List.length_filter_lt_length_iff_exists.mpr ⟨_, hreal, by simp⟩
      rw [Option.getD_some]
      omega

def startRing (env : OutsEnv) (tds : List TransferDetails) (td : TransferDetails)
    (answers : List Answer) : List OutsEntry :=
  (env.knownEntries tds td answers).foldl addNew [env.ownEntry td]

theorem filledRing_eq :
    env.filledRing tds td answers shuffled =
      fillUp (env.fakeOutputsCount + 1) (usableEntries td.globalOutputIndex shuffled)
        (env.startRing tds td answers) := rfl

theorem startRing_nodup : (env.startRing tds td answers).Nodup :=
  foldl_addNew_nodup _ (List.nodup_singleton _)

theorem mem_startRing {e : OutsEntry} :
    e ∈ env.startRing tds td answers ↔ e = env.ownEntry td ∨ e ∈ env.knownEntries tds td answers := by
  rw [← List.mem_toFinset, startRing, toFinset_foldl_addNew]
  simp

theorem length_startRing :
    (env.startRing tds td answers).length =
      (env.knownEntries tds td answers).toFinset.card + 1 := by
  rw [← List.toFinset_card_of_nodup startRing_nodup, startRing, toFinset_foldl_addNew,
    List.toFinset_cons, List.toFinset_nil, insert_empty_eq, ← Finset.insert_eq,
    Finset.card_insert_of_notMem]
  rw [List.mem_toFinset]
  exact fun h => own_notMem_usable (known_subset_usable h)

theorem usable_perm (hperm : shuffled.Perm answers) (realIndex : UInt64) :
    (usableEntries realIndex shuffled).Perm (usableEntries realIndex answers) :=
  (hperm.filter _).map _

theorem mem_filledRing_sub (hperm : shuffled.Perm answers) {e : OutsEntry}
    (h : e ∈ env.filledRing tds td answers shuffled) :
    e = env.ownEntry td ∨ e ∈ usableEntries td.globalOutputIndex answers := by
  rcases mem_of_mem_fillUp h with hstart | husable
  · rcases mem_startRing.mp hstart with hown | hknown
    · exact Or.inl hown
    · exact Or.inr (known_subset_usable hknown)
  · exact Or.inr ((usable_perm hperm _).mem_iff.mp husable)

theorem filledRing_nodup : (env.filledRing tds td answers shuffled).Nodup :=
  fillUp_nodup startRing_nodup _

/-- The ring is full unless there are not enough answers, in whatever order they come. -/
theorem length_filledRing (hfits : env.RingFits td) (hperm : shuffled.Perm answers) :
    (env.filledRing tds td answers shuffled).length =
      min (env.fakeOutputsCount + 1)
        ((usableEntries td.globalOutputIndex answers).toFinset.card + 1) := by
  have hcard : (env.knownEntries tds td answers).toFinset.card ≤ env.fakeOutputsCount :=
    card_known_le hfits
  have hall : (env.startRing tds td answers).toFinset ∪
      (usableEntries td.globalOutputIndex shuffled).toFinset =
        insert (env.ownEntry td) (usableEntries td.globalOutputIndex answers).toFinset := by
    ext e
    simp only [Finset.mem_union, List.mem_toFinset, mem_startRing, Finset.mem_insert,
      (usable_perm hperm td.globalOutputIndex).mem_iff]
    constructor
    · rintro ((hown | hknown) | husable)
      · exact Or.inl hown
      · exact Or.inr (known_subset_usable hknown)
      · exact Or.inr husable
    · rintro (hown | husable)
      · exact Or.inl (Or.inl hown)
      · exact Or.inr husable
  rw [filledRing_eq, length_fillUp startRing_nodup (by rw [length_startRing]; omega), hall,
    Finset.card_insert_of_notMem]
  rw [List.mem_toFinset]
  exact own_notMem_usable

end Members

/-! ### The whole call -/

section Call

variable {env} {tds : List TransferDetails} {draws : ℕ → List (List PickJob.Draw)}

theorem requestOne_ringFits {td : TransferDetails} {turns : List (List PickJob.Draw)}
    {outs : List UInt64} (h : env.requestOne tds td turns = .ok outs) : env.RingFits td := by
  rw [requestOne] at h
  obtain ⟨counts, -, hrest⟩ := bind_eq_ok.mp h
  obtain ⟨used, hused, -⟩ := bind_eq_ok.mp hrest
  intro ring hring
  rw [ringOutputs, hring] at hused
  obtain ⟨_, hsize, hused⟩ := bind_eq_ok.mp hused
  obtain ⟨_, hown, -⟩ := bind_eq_ok.mp hused
  rw [throwIf_eq_ok] at hsize hown
  exact ⟨Nat.not_lt.mp hsize, List.mem_of_mem_filter (not_not.mp hown)⟩

theorem requestAll_ringFits {n : ℕ} {rest : List TransferDetails} {request : List (UInt64 × UInt64)}
    (h : env.requestAll tds draws n rest = .ok request) : ∀ td ∈ rest, env.RingFits td := by
  induction rest generalizing n request with
  | nil => simp
  | cons td rest ih =>
      rw [requestAll] at h
      obtain ⟨outs, hone, hrest⟩ := bind_eq_ok.mp h
      obtain ⟨request', hall, -⟩ := bind_eq_ok.mp hrest
      exact List.forall_mem_cons.mpr ⟨requestOne_ringFits hone, ih hall⟩

theorem map_fst_parts (answers : List Answer) : (env.parts tds answers).map Prod.fst = tds := by
  induction tds generalizing answers with
  | nil => rfl
  | cons td rest ih => rw [parts, List.map_cons, ih]

theorem askDaemon_parts {parts : List (TransferDetails × List Answer)}
    (h : env.askDaemon tds draws = .ok parts) :
    parts.map Prod.fst = tds ∧ ∀ p ∈ parts, env.RingFits p.1 := by
  rw [askDaemon] at h
  obtain ⟨-, -, hrest⟩ := bind_eq_ok.mp h
  obtain ⟨request, hrequest, hrest⟩ := bind_eq_ok.mp hrest
  obtain ⟨outs, -, hrest⟩ := bind_eq_ok.mp hrest
  obtain ⟨-, -, hparts⟩ := bind_eq_ok.mp hrest
  have hfst : parts.map Prod.fst = tds := by
    rw [← Except.ok.inj hparts]
    exact map_fst_parts _
  refine ⟨hfst, fun p hp => requestAll_ringFits hrequest p.1 ?_⟩
  rw [← hfst]
  exact List.mem_map_of_mem hp

theorem map_mapIdx {α β γ : Type} (f : ℕ → α → β) (g : β → γ) (l : List α) :
    (l.mapIdx f).map g = l.mapIdx fun i a => g (f i a) := by
  rw [List.mapIdx_eq_zipIdx_map, List.mapIdx_eq_zipIdx_map, List.map_map]
  rfl

def sortedRing (ring : List OutsEntry) : List OutsEntry :=
  ring.insertionSort fun a b => a.index ≤ b.index

/-- The call returns exactly when the answers are enough for each of the rings. -/
theorem getOuts_eq_ok {shuffle : Shuffle} {outs : List (List OutsEntry)}
    (hfake : 0 < env.fakeOutputsCount) :
    env.getOuts tds draws shuffle = .ok outs ↔
      ∃ parts, env.askDaemon tds draws = .ok parts ∧ (∀ p ∈ parts, env.Completes tds p.1 p.2) ∧
        (parts.mapIdx fun i p =>
          sortedRing (env.filledRing tds p.1 p.2 (shuffle.run i p.2))) = outs := by
  rw [getOuts, if_neg (Nat.pos_iff_ne_zero.mp hfake)]
  rw [bind_eq_ok]
  refine exists_congr fun parts => and_congr_right fun hparts => ?_
  have hfits := (askDaemon_parts hparts).2
  have hlength : ∀ i (hi : i < parts.length),
      (env.filledRing tds parts[i].1 parts[i].2 (shuffle.run i parts[i].2)).length =
        min (env.fakeOutputsCount + 1)
          ((usableEntries parts[i].1.globalOutputIndex parts[i].2).toFinset.card + 1) :=
    fun i hi => length_filledRing (hfits _ (List.getElem_mem hi)) (shuffle.perm i _)
  simp only [bind_eq_ok, ringsOf_eq_ok, throwIf_eq_ok, Nat.zero_add]
  constructor
  · rintro ⟨rings, ⟨hanswered, rfl⟩, -, henough, houts⟩
    refine ⟨fun p hp => ⟨hanswered p hp, ?_⟩, ?_⟩
    · obtain ⟨i, hi, rfl⟩ := List.mem_iff_getElem.mp hp
      have := hlength i hi
      have hfull := henough
      simp only [not_exists, not_and, Nat.not_lt] at hfull
      have := hfull _ (List.mem_mapIdx.mpr ⟨i, hi, rfl⟩)
      omega
    · rw [← Except.ok.inj houts, map_mapIdx]
      rfl
  · rintro ⟨hcompletes, rfl⟩
    refine ⟨_, ⟨fun p hp => (hcompletes p hp).toAnswered, rfl⟩, (), ?_, ?_⟩
    · rintro ⟨ring, hring, hshort⟩
      obtain ⟨i, hi, rfl⟩ := List.mem_mapIdx.mp hring
      have := hlength i hi
      have := (hcompletes _ (List.getElem_mem hi)).enough
      omega
    · rw [map_mapIdx]
      rfl

end Call

/-! ### Distinct members -/

section Distinct

variable {env} {tds : List TransferDetails} {td : TransferDetails} {answers : List Answer}

/-- No two entries of a ring are for one output. -/
def Distinct (ring : List OutsEntry) : Prop :=
  ∀ e ∈ ring, ∀ e' ∈ ring, e.index = e'.index → e = e'

/-- The answers give no two entries for one output, or the known ring leaves no room for a second
one of two. -/
def Clear (env : OutsEnv) (tds : List TransferDetails) (td : TransferDetails)
    (answers : List Answer) : Prop :=
  env.fakeOutputsCount ≤ (env.knownEntries tds td answers).toFinset.card ∨
    ((env.knownEntries tds td answers).toFinset.card + 1 = env.fakeOutputsCount ∧
      ∀ k ∈ env.knownEntries tds td answers,
        ∀ u ∈ usableEntries td.globalOutputIndex answers, u.index = k.index → u = k) ∨
    Distinct (usableEntries td.globalOutputIndex answers)

theorem startRing_distinct : Distinct (env.startRing tds td answers) := by
  intro e he e' he' hindex
  rcases mem_startRing.mp he with rfl | hknown <;> rcases mem_startRing.mp he' with rfl | hknown'
  · rfl
  · exact absurd hindex.symm (index_ne_of_mem_usable (known_subset_usable hknown'))
  · exact absurd hindex (index_ne_of_mem_usable (known_subset_usable hknown))
  · exact known_index_inj hknown hknown' hindex

theorem length_filledRing_le (shuffled : List Answer) (hfits : env.RingFits td) :
    (env.filledRing tds td answers shuffled).length ≤ env.fakeOutputsCount + 1 := by
  have hcard : (env.knownEntries tds td answers).toFinset.card ≤ env.fakeOutputsCount :=
    card_known_le hfits
  rw [filledRing_eq, length_fillUp startRing_nodup (by rw [length_startRing]; omega)]
  exact min_le_left _ _

theorem filledRing_distinct (hfits : env.RingFits td) (hclear : env.Clear tds td answers)
    {shuffled : List Answer} (hperm : shuffled.Perm answers) :
    Distinct (env.filledRing tds td answers shuffled) := by
  have hlength : (env.filledRing tds td answers shuffled).length ≤ env.fakeOutputsCount + 1 :=
    length_filledRing_le shuffled hfits
  have hstart : (env.startRing tds td answers).length =
      (env.knownEntries tds td answers).toFinset.card + 1 := length_startRing
  rcases hclear with hfull | ⟨hone, hknown⟩ | hdistinct
  · rw [filledRing_eq, fillUp_of_full (by omega)]
    exact startRing_distinct
  · -- At most one entry is added to those of the known ring.
    obtain ⟨added, hadded⟩ : env.startRing tds td answers <+: env.filledRing tds td answers shuffled :=
      prefix_fillUp _ _
    have hnodup : (env.startRing tds td answers ++ added).Nodup := by
      rw [hadded]
      exact filledRing_nodup
    have hshort : added.length ≤ 1 := by
      rw [← hadded, List.length_append] at hlength
      omega
    have hcross : ∀ e ∈ env.startRing tds td answers, ∀ u ∈ added, u.index ≠ e.index := by
      intro e he u hu hindex
      have hne : u ≠ e := fun heq => List.disjoint_of_nodup_append hnodup he (heq ▸ hu)
      have hmem : u ∈ env.filledRing tds td answers shuffled := by
        rw [← hadded]
        exact List.mem_append_right _ hu
      rcases mem_filledRing_sub hperm hmem with rfl | husable
      · exact List.disjoint_of_nodup_append hnodup (mem_startRing.mpr (Or.inl rfl)) hu
      · rcases mem_startRing.mp he with rfl | hk
        · exact index_ne_of_mem_usable husable hindex
        · exact hne (hknown e hk u husable hindex)
    intro e he e' he' hindex
    rw [← hadded] at he he'
    rcases List.mem_append.mp he with hs | ha <;> rcases List.mem_append.mp he' with hs' | ha'
    · exact startRing_distinct e hs e' hs' hindex
    · exact absurd hindex.symm (hcross e hs e' ha')
    · exact absurd hindex (hcross e' hs' e ha)
    · obtain ⟨x, rfl⟩ := List.length_eq_one_iff.mp
        (le_antisymm hshort (List.length_pos_of_mem ha))
      rw [List.mem_singleton.mp ha, List.mem_singleton.mp ha']
  · intro e he e' he' hindex
    rcases mem_filledRing_sub hperm he with rfl | hu <;>
      rcases mem_filledRing_sub hperm he' with rfl | hu'
    · rfl
    · exact absurd hindex.symm (index_ne_of_mem_usable hu')
    · exact absurd hindex (index_ne_of_mem_usable hu)
    · exact hdistinct e hu e' hu' hindex

theorem exists_shuffle_first {e : OutsEntry} {realIndex : UInt64}
    (h : e ∈ usableEntries realIndex answers) :
    ∃ a rest, (a :: rest).Perm answers ∧
      ∀ others, usableEntries realIndex (a :: others) = e :: usableEntries realIndex others := by
  obtain ⟨a, hmem, hunlocked, hne, rfl⟩ := mem_usableEntries.mp h
  obtain ⟨before, behind, rfl⟩ := List.append_of_mem hmem
  refine ⟨a, before ++ behind, List.perm_middle.symm, fun others => ?_⟩
  rw [usableEntries_cons, if_pos ⟨hunlocked, hne⟩]

theorem clear_of_distinct (hdistinct : ∀ shuffled, shuffled.Perm answers →
    Distinct (env.filledRing tds td answers shuffled)) : env.Clear tds td answers := by
  have hstart : (env.startRing tds td answers).length =
      (env.knownEntries tds td answers).toFinset.card + 1 := length_startRing
  rcases Nat.lt_or_ge (env.knownEntries tds td answers).toFinset.card env.fakeOutputsCount with
    hroom | hfull
  · have hknown : ∀ k ∈ env.knownEntries tds td answers,
        ∀ u ∈ usableEntries td.globalOutputIndex answers, u.index = k.index → u = k := by
      intro k hk u hu hindex
      obtain ⟨a, rest, hperm, hfirst⟩ := exists_shuffle_first hu
      refine hdistinct _ hperm u ?_ k ?_ hindex
      · rw [filledRing_eq, hfirst]
        exact mem_fillUp_cons (by omega) _
      · exact (prefix_fillUp _ _).subset (mem_startRing.mpr (Or.inr hk))
    rcases Nat.lt_or_ge ((env.knownEntries tds td answers).toFinset.card + 1)
      env.fakeOutputsCount with htwo | hone
    · refine Or.inr (Or.inr fun u hu v hv hindex => ?_)
      by_contra hne
      obtain ⟨a, rest, hperm, hfirst⟩ := exists_shuffle_first hu
      have hv' : v ∈ usableEntries td.globalOutputIndex rest := by
        have := (usable_perm hperm td.globalOutputIndex).mem_iff.mpr hv
        rw [hfirst] at this
        exact List.mem_of_ne_of_mem (Ne.symm hne) this
      obtain ⟨b, rest', hperm', hsecond⟩ := exists_shuffle_first hv'
      have hspace : (env.startRing tds td answers).length + 1 < env.fakeOutputsCount + 1 := by
        omega
      obtain ⟨hu', hv''⟩ := mem_fillUp_cons_cons (a := u) (b := v) hspace
        (usableEntries td.globalOutputIndex rest')
      refine hne (hdistinct _ ((hperm'.cons a).trans hperm) u ?_ v ?_ hindex)
      · rwa [filledRing_eq, hfirst, hsecond]
      · rwa [filledRing_eq, hfirst, hsecond]
    · exact Or.inr (Or.inl ⟨by omega, hknown⟩)
  · exact Or.inl hfull

end Distinct

/-! ### The shape of the rings -/

section Shape

variable {env} {tds : List TransferDetails} {td : TransferDetails} {answers : List Answer}
  {draws : ℕ → List (List PickJob.Draw)}

/-- What is expected of a ring: its size, the order of its members, and the real output as the only
entry at its index. -/
structure RingShape (env : OutsEnv) (td : TransferDetails) (ring : List OutsEntry) : Prop where
  size : ring.length = env.fakeOutputsCount + 1
  increasing : (ring.map OutsEntry.index).Pairwise (· < ·)
  real : ∃ key, td.publicKey? = some key ∧
    (ring.filter fun e => e.index = td.globalOutputIndex) =
      [⟨td.globalOutputIndex, key, env.ownMask td⟩]

theorem sortedRing_perm (ring : List OutsEntry) : (sortedRing ring).Perm ring :=
  List.perm_insertionSort _ ring

theorem own_mem_filledRing (shuffled : List Answer) :
    env.ownEntry td ∈ env.filledRing tds td answers shuffled :=
  (prefix_fillUp _ _).subset (mem_startRing.mpr (Or.inl rfl))

theorem sortedRing_increasing {ring : List OutsEntry} (hnodup : ring.Nodup) (h : Distinct ring) :
    ((sortedRing ring).map OutsEntry.index).Pairwise (· < ·) := by
  have hsorted : (sortedRing ring).Pairwise fun a b => a.index ≤ b.index :=
    List.pairwise_insertionSort (fun a b : OutsEntry => a.index ≤ b.index) ring
  have hne : (sortedRing ring).Nodup := (sortedRing_perm ring).nodup_iff.mpr hnodup
  rw [List.pairwise_map]
  refine (hsorted.and hne).imp_of_mem ?_
  rintro a b ha hb ⟨hle, hab⟩
  refine UInt64.lt_of_le_of_ne hle fun hindex => hab ?_
  exact h a ((sortedRing_perm ring).mem_iff.mp ha) b ((sortedRing_perm ring).mem_iff.mp hb) hindex

theorem distinct_of_increasing {ring : List OutsEntry}
    (h : ((sortedRing ring).map OutsEntry.index).Pairwise (· < ·)) : Distinct ring := by
  have hnodup : ((sortedRing ring).map OutsEntry.index).Nodup :=
    h.imp fun hlt => UInt64.ne_of_lt hlt
  intro e he e' he' hindex
  exact List.inj_on_of_nodup_map hnodup ((sortedRing_perm ring).mem_iff.mpr he)
    ((sortedRing_perm ring).mem_iff.mpr he') hindex

theorem ringShape_of_distinct (hfits : env.RingFits td) (hcompletes : env.Completes tds td answers)
    {shuffled : List Answer} (hperm : shuffled.Perm answers)
    (hdistinct : Distinct (env.filledRing tds td answers shuffled)) :
    env.RingShape td (sortedRing (env.filledRing tds td answers shuffled)) where
  size := by
    have henough := hcompletes.enough
    rw [(sortedRing_perm _).length_eq, length_filledRing hfits hperm]
    omega
  increasing := sortedRing_increasing filledRing_nodup hdistinct
  real := by
    obtain ⟨key, hkey⟩ := Option.ne_none_iff_exists'.mp hcompletes.key
    refine ⟨key, hkey, ?_⟩
    have hown : env.ownEntry td = ⟨td.globalOutputIndex, key, env.ownMask td⟩ := by
      rw [ownEntry, hkey, Option.getD_some]
    rw [← hown, ← List.perm_singleton]
    refine ((sortedRing_perm _).filter _).trans ?_
    refine (List.perm_ext_iff_of_nodup (filledRing_nodup.filter _) (List.nodup_singleton _)).mpr ?_
    intro e
    rw [List.mem_filter, List.mem_singleton, decide_eq_true_eq]
    constructor
    · rintro ⟨hmem, hindex⟩
      exact hdistinct e hmem _ (own_mem_filledRing shuffled) hindex
    · rintro rfl
      exact ⟨own_mem_filledRing shuffled, rfl⟩

/-- A shuffle that gives a certain order to one of the transfers. -/
theorem exists_shuffle (i : ℕ) {shuffled : List Answer} (hperm : shuffled.Perm answers) :
    ∃ shuffle : Shuffle, shuffle.run i answers = shuffled := by
  classical
  refine ⟨⟨fun n l => if n = i ∧ l = answers then shuffled else l, fun n l => ?_⟩, ?_⟩
  · split
    · next h => exact h.2 ▸ hperm
    · exact List.Perm.refl l
  · exact if_pos ⟨rfl, rfl⟩

/-- Whatever is drawn for the order, the rings have the expected shape exactly where the answers are
clear, unless they are not enough for some ring at all. -/
theorem getOuts_ringShape_iff (hfake : 0 < env.fakeOutputsCount) :
    (∀ shuffle outs, env.getOuts tds draws shuffle = .ok outs →
      List.Forall₂ env.RingShape tds outs) ↔
      ∀ parts, env.askDaemon tds draws = .ok parts →
        (∀ p ∈ parts, env.Completes tds p.1 p.2) → ∀ p ∈ parts, env.Clear tds p.1 p.2 := by
  constructor
  · intro hshape parts hparts hcompletes p hp
    refine clear_of_distinct fun shuffled hperm => ?_
    obtain ⟨i, hi, rfl⟩ := List.mem_iff_getElem.mp hp
    obtain ⟨shuffle, hrun⟩ := exists_shuffle i hperm
    have hrings := hshape shuffle _ ((getOuts_eq_ok hfake).mpr ⟨parts, hparts, hcompletes, rfl⟩)
    have hring := (List.forall₂_iff_get.mp hrings).2 i
      (by rw [← (askDaemon_parts hparts).1, List.length_map]; exact hi) (by simpa using hi)
    simp only [List.get_eq_getElem, List.getElem_mapIdx, hrun] at hring
    exact distinct_of_increasing hring.increasing
  · intro hclear shuffle outs hok
    obtain ⟨parts, hparts, hcompletes, rfl⟩ := (getOuts_eq_ok hfake).mp hok
    obtain ⟨hfst, hfits⟩ := askDaemon_parts hparts
    have hrings : List.Forall₂ env.RingShape (parts.map Prod.fst) (parts.mapIdx fun i p =>
        sortedRing (env.filledRing tds p.1 p.2 (shuffle.run i p.2))) := by
      rw [List.forall₂_map_left_iff, List.forall₂_iff_get]
      refine ⟨by simp, fun i hi hi' => ?_⟩
      simp only [List.get_eq_getElem, List.getElem_mapIdx]
      have hmem := List.getElem_mem hi
      exact ringShape_of_distinct (hfits _ hmem) (hcompletes _ hmem) (shuffle.perm i _)
        (filledRing_distinct (hfits _ hmem) (hclear parts hparts hcompletes _ hmem)
          (shuffle.perm i _))
    rwa [hfst] at hrings

/-- A daemon with two outputs of an amount. Each time that the second one is asked for, it answers
with another key. -/
def twoOutputs : OutsEnv where
  isAfterSegregationFork := false
  segregationForkHeight := 0
  segregatePreForkOutputs := false
  keyReuseMitigation2 := false
  segregationLimit := fun _ => (0, 0)
  forkShares := fun _ _ => (0, 0)
  rctDistribution := none
  nonrctDistribution := fun _ => [1, 2]
  outputHistogram := fun amounts => amounts.map fun amount => ⟨amount, 2, 1⟩
  lastBlockReward := 0
  ring := fun _ => none
  blackballed := fun _ => false
  getOutsBin := fun request => .ok <| request.mapIdx fun i asked =>
    if asked.2 = 0 then ⟨sampleKey 0, sampleKey 0, true⟩ else ⟨sampleKey i, sampleKey 0, true⟩
  commit := fun _ _ => sampleKey 0
  zeroCommit := fun _ => sampleKey 0
  fakeOutputsCount := 2

def inOrder : Shuffle := ⟨fun _ answers => answers, fun _ answers => List.Perm.refl answers⟩

/-- Five outputs are asked for and the second one makes up for the shortfall, so the ring has it
twice. -/
theorem twoOutputs_not_ringShape :
    ¬∀ shuffle outs,
      twoOutputs.getOuts [sampleTransfer 0 1] (fun _ => []) shuffle = .ok outs →
        List.Forall₂ twoOutputs.RingShape [sampleTransfer 0 1] outs := by
  intro h
  have hrings := h inOrder
    [[⟨0, sampleKey 0, sampleKey 0⟩, ⟨1, sampleKey 1, sampleKey 0⟩, ⟨1, sampleKey 2, sampleKey 0⟩]]
    (by rfl)
  cases hrings with
  | cons hring _ => exact absurd hring.increasing (by decide)

theorem getOuts_ringShape_iff_twoOutputs :
    (∀ shuffle outs, twoOutputs.getOuts [sampleTransfer 0 1] (fun _ => []) shuffle = .ok outs →
      List.Forall₂ twoOutputs.RingShape [sampleTransfer 0 1] outs) ↔
      ∀ parts, twoOutputs.askDaemon [sampleTransfer 0 1] (fun _ => []) = .ok parts →
        (∀ p ∈ parts, twoOutputs.Completes [sampleTransfer 0 1] p.1 p.2) →
          ∀ p ∈ parts, twoOutputs.Clear [sampleTransfer 0 1] p.1 p.2 :=
  getOuts_ringShape_iff (by decide)

end Shape

end OutsEnv

end XrCoin.Wallet
