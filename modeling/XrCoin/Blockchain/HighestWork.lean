import XrCoin.Blockchain.Store
import XrCoin.Blockchain.SwitchForks

/-!
The store of alternative blocks in every run of `add_new_block`, and the rule of the highest
work: as long as no checkpoint asks for a switch, and each switch that fails gives the main
chain back, what comes into the store has no more work than the main chain.
-/

namespace XrCoin.Blockchain

open Archive Cryptonote Forks TxPool

variable {ρ : Type} [DecidableEq ρ] {w : Setting ρ} {s s' : ChainState ρ} {b : Block}

/-! ### Work -/

/-- No block takes the cumulative difficulty beyond its 128 bits. -/
def Setting.NoWrap (w : Setting ρ) : Prop :=
  ∀ id ancestors, Ancestry w id ancestors → topCumulativeDifficulty ancestors ≤
    topCumulativeDifficulty ancestors + w.difficultyAfter ancestors

def work (s : ChainState ρ) : Difficulty := topCumulativeDifficulty (infos s.chain)

omit [DecidableEq ρ] in
theorem topCumulativeDifficulty_infos_concat (chain : List MainBlock) (e : MainBlock) :
    topCumulativeDifficulty (infos (chain ++ [e])) = e.cumulativeDifficulty := by
  rw [infos, List.map_append, List.map_singleton, topCumulativeDifficulty_concat]
  rfl

omit [DecidableEq ρ] in
/-- No block of the main chain has more work than the top. -/
theorem FromGenesis.cumulativeDifficulty_le (hwrap : w.NoWrap) {chain : List MainBlock}
    (h : FromGenesis w chain) : ∀ e ∈ chain,
      e.cumulativeDifficulty ≤ topCumulativeDifficulty (infos chain) := by
  induction h with
  | genesis =>
      intro e he
      rw [List.mem_singleton.mp he]
      exact BitVec.le_refl _
  | @block chain e h hb hnew hprev hcum ih =>
      intro e' he'
      rw [topCumulativeDifficulty_infos_concat, hcum]
      have hmore := hwrap _ _ h.ancestry
      rcases List.mem_append.mp he' with hold | htop
      · exact BitVec.le_trans (ih e' hold) hmore
      · rw [List.mem_singleton.mp htop, hcum]
        exact BitVec.le_refl _

omit [DecidableEq ρ] in
theorem minerHeight_of_prevalidated {env : ChainEnv ρ} {height : ℕ}
    (h : prevalidateMinerTransaction env b height = true) : (minerHeight b).toNat = height := by
  rw [prevalidateMinerTransaction] at h
  rw [minerHeight]
  split at h
  · rw [decide_eq_true_eq] at h
    exact h.1
  · exact absurd h (by simp)

omit [DecidableEq ρ] in
/-- The alternative chain of a block that gets an entry leaves the main chain. -/
theorem Enters.front_mem {env : ChainEnv ρ} {altChain : List AltEntry} {bei : BlockExtendedInfo}
    (h : Enters env b s altChain bei) (hbl : bei.bl = b) {front : AltEntry} {rest : List AltEntry}
    (hfront : altChain ++ [(env.id b, bei)] = front :: rest) :
    front.2.bl.prevId ∈ blockIds env s.chain := by
  cases altChain with
  | nil =>
      obtain ⟨rfl, -⟩ := List.cons.inj hfront
      have hparent := not_not.mp fun hnot => h.parent ⟨rfl, hnot⟩
      show bei.bl.prevId ∈ _
      rw [hbl]
      exact hparent
  | cons front' rest' =>
      obtain ⟨rfl, -⟩ := List.cons.inj hfront
      have hconnects := (alternativeInfo_eq_some h.info).1
      rw [connectsToMain, decide_eq_true_eq] at hconnects
      exact List.mem_of_getElem? hconnects.2

/-! ### Handing the old blocks back -/

/-- What the switch to a heavier chain knows of the old blocks: they are lighter than the new
top, and a checkpoint among them is inside the new chain. -/
structure Outdone (w : Setting ρ) (limit : Difficulty) (t : ChainState ρ) (b : Block) : Prop where
  given : Given w b
  lighter : ∀ ancestors, Ancestry w (w.env.id b) ancestors →
    topCumulativeDifficulty ancestors ≤ limit
  below : ∀ ancestors, Ancestry w (w.env.id b) ancestors → ∀ point ∈ w.env.points,
    point.1 + 1 = ancestors.length → point.1 ≤ t.chain.length

/-- A block that its chain does not win for gets an entry at most. -/
theorem handleAlternativeBlock_outdone {limit : Difficulty} {t : ChainState ρ} (h : Kept w t)
    (hlimit : limit < work t) (hb : Outdone w limit t b) (depth : ℕ) :
    (handleAlternativeBlock w.env depth b t).2 = t ∨
      ∃ bei, (handleAlternativeBlock w.env depth b t).2 = insertEntry (w.env.id b, bei) t ∧
        bei.cumulativeDifficulty ≤ limit := by
  cases depth with
  | zero => exact .inl rfl
  | succ depth =>
      rcases alternativeStep_cases w.env (fun b s => (handleAlternativeBlock w.env depth b s).2) b t
        with ⟨-, hsame⟩ | ⟨altChain, bei, henters, hcases⟩
      · exact .inl hsame
      · obtain ⟨hstored, -, -⟩ := h.enters hb.given henters
        obtain ⟨ancestors, hprev, -⟩ := hstored.linked
        obtain ⟨hancestry, hheight⟩ := hstored.ancestry hprev
        have hlight := hb.lighter _ hancestry
        rw [topCumulativeDifficulty_concat] at hlight
        rcases hcases with ⟨heq, -⟩ | ⟨checkpoint, -, hpoint, hmore⟩
        · refine .inr ⟨bei, ?_, hlight⟩
          show (alternativeStep w.env _ b t).2 = _
          rw [heq]
        · exfalso
          cases checkpoint with
          | false =>
              have hheavy := hmore rfl
              have hlight' : bei.cumulativeDifficulty ≤ limit := hlight
              rw [work] at hlimit
              bv_omega
          | true =>
              -- the checkpoint is inside the chain, and the block is not above it
              obtain ⟨expected, hlookup⟩ := Option.isSome_iff_exists.mp (hpoint rfl)
              obtain ⟨before, after, hpoints, -⟩ := List.lookup_eq_some_iff.mp hlookup
              have hin : (bei.height, expected) ∈ w.env.points := by
                rw [hpoints]
                exact List.mem_append_right _ List.mem_cons_self
              have hbelow := hb.below _ hancestry _ hin (by
                rw [List.length_append, List.length_singleton]
                show bei.height + 1 = _
                rw [← hheight])
              have hallowed := henters.allowed
              rw [isAlternativeBlockAllowed, decide_eq_true_eq] at hallowed
              have habove := hallowed.2 _ hin hbelow
              rw [minerHeight_of_prevalidated (alternativeInfo_eq_some henters.info).2.1] at habove
              exact absurd habove (lt_irrefl _)

/-- The loop over the old blocks adds light entries. -/
theorem foldl_outdone {limit : Difficulty} {bs : List Block} {t : ChainState ρ} (h : Kept w t)
    (hlimit : limit < work t) (hbs : ∀ b ∈ bs, Outdone w limit t b) (depth : ℕ) :
    (bs.foldl (fun s b => (handleAlternativeBlock w.env depth b s).2) t).chain = t.chain ∧
      ∀ entry ∈ (bs.foldl (fun s b => (handleAlternativeBlock w.env depth b s).2)
        t).alternativeChains,
        entry ∈ t.alternativeChains ∨ entry.2.cumulativeDifficulty ≤ limit := by
  induction bs generalizing t with
  | nil => exact ⟨rfl, fun _ => .inl⟩
  | cons b bs ih =>
      rw [List.forall_mem_cons] at hbs
      rw [List.foldl_cons]
      have hkept := (pushesBack_handleAlternativeBlock w depth b t hbs.1.given h).kept
      rcases handleAlternativeBlock_outdone h hlimit hbs.1 depth with hsame | ⟨bei, heq, hlight⟩
      · rw [hsame]
        exact ih h hlimit hbs.2
      · simp only at hkept
        rw [heq] at hkept ⊢
        obtain ⟨hchain, hentries⟩ := ih (t := insertEntry (w.env.id b, bei) t) hkept hlimit
          fun b' hb' => ⟨(hbs.2 b' hb').given, (hbs.2 b' hb').lighter, (hbs.2 b' hb').below⟩
        refine ⟨hchain, fun entry hentry => ?_⟩
        rcases hentries entry hentry with hin | hlight'
        · rcases List.mem_append.mp hin with hold | hnew
          · exact .inl hold
          · rw [List.mem_singleton.mp hnew]
            exact .inr hlight
        · exact .inr hlight'

/-! ### One call -/

/-- No checkpoint switch is made, and a switch that fails leaves the main chain as it was. -/
def Calm (env : ChainEnv ρ) (depth : ℕ) (b : Block) (s : ChainState ρ) : Prop :=
  match (addNewBlock env depth b s).1 with
  | .alternative (.switched true true) => False
  | .alternative (.switched _ false) => (addNewBlock env depth b s).2.chain = s.chain
  | _ => True

theorem Calm.of_result {env : ChainEnv ρ} {depth : ℕ} {result : AddResult}
    (h : (addNewBlock env depth b s).1 = result)
    (hresult : ∀ checkpoint done, result = .alternative (.switched checkpoint done) →
      checkpoint = false ∧ done = true) : Calm env depth b s := by
  rw [Calm, h]
  split
  · exact absurd (hresult true true rfl).1 (by simp)
  · rename_i checkpoint
    exact absurd (hresult checkpoint false rfl).2 (by simp)
  · trivial

/-- The main chain has not lost work, and what is new in the store has no more of it. -/
structure Heaviest (s s' : ChainState ρ) : Prop where
  work_le : work s ≤ work s'
  light : ∀ entry ∈ s'.alternativeChains,
    entry ∈ s.alternativeChains ∨ entry.2.cumulativeDifficulty ≤ work s'

omit [DecidableEq ρ] in
theorem Heaviest.of_subset (hchain : s'.chain = s.chain)
    (hstore : ∀ entry ∈ s'.alternativeChains, entry ∈ s.alternativeChains) : Heaviest s s' := by
  refine ⟨?_, fun entry hentry => .inl (hstore entry hentry)⟩
  rw [work, work, hchain]
  exact BitVec.le_refl _

/-- A failed switch takes the new entry away. -/
theorem heaviest_failed {pushBack : Block → ChainState ρ → ChainState ρ} {altChain : List AltEntry}
    {bei : BlockExtendedInfo} {discard : Bool} (henters : Enters w.env b s altChain bei)
    (hbl : bei.bl = b)
    (hfailed : (switchToAlternativeBlockchain w.env pushBack (altChain ++ [(w.env.id b, bei)])
      discard (insertEntry (w.env.id b, bei) s)).1 = false)
    (hchain : (switchToAlternativeBlockchain w.env pushBack (altChain ++ [(w.env.id b, bei)])
      discard (insertEntry (w.env.id b, bei) s)).2.chain = s.chain) :
    Heaviest s (switchToAlternativeBlockchain w.env pushBack (altChain ++ [(w.env.id b, bei)])
      discard (insertEntry (w.env.id b, bei) s)).2 := by
  obtain ⟨front, rest, hfront⟩ := List.exists_cons_of_ne_nil
    (List.concat_ne_nil (w.env.id b, bei) altChain)
  have hmem := henters.front_mem hbl hfront
  refine Heaviest.of_subset hchain fun entry hentry => ?_
  rw [hfront] at hfailed hentry
  obtain ⟨refused, orphans, hrefused, -, hstore, -⟩ :=
    switch_failed_spec (s := insertEntry (w.env.id b, bei) s) hmem hfailed
  obtain ⟨alts, hconnected⟩ := connectChain_spec w.env (front :: rest) (popTimes w.env
    (chainAbove w.env front.2.bl.prevId (insertEntry (w.env.id b, bei) s).chain).length
    (insertEntry (w.env.id b, bei) s))
  obtain ⟨done, hdone, -⟩ := hconnected.entries
  rw [hrefused] at hdone
  rw [hstore, List.mem_filter] at hentry
  rcases List.mem_append.mp hentry.1 with hold | hnew
  · exact hold
  · -- it is the last of the chain, so it is the refused one or behind it
    have hlast : (refused :: orphans).getLast? = some (w.env.id b, bei) := by
      have hall := congrArg List.getLast? hfront
      rw [hdone, List.getLast?_concat, List.getLast?_append] at hall
      cases hcase : (refused :: orphans).getLast? with
      | none => exact absurd (List.getLast?_eq_none_iff.mp hcase) (by simp)
      | some last =>
          rw [hcase] at hall
          exact hall.symm
    have hin : w.env.id b ∈ (refused :: orphans).map Prod.fst :=
      List.mem_map_of_mem (f := Prod.fst) (List.mem_of_getLast? hlast)
    have hout := hentry.2
    rw [List.mem_singleton.mp hnew, decide_eq_true_eq] at hout
    exact absurd hin hout

omit [DecidableEq ρ] in
theorem ConnectedAll.work_eq {altChain : List AltEntry} {base alts : List MainBlock}
    {connected : ChainState ρ} {bei : BlockExtendedInfo}
    (h : ConnectedAll w (altChain ++ [(w.env.id b, bei)]) base alts s connected)
    (hstored : Stored w (w.env.id b, bei)) :
    work connected = bei.cumulativeDifficulty ∧ connected.chain.length = bei.height + 1 := by
  rcases List.eq_nil_or_concat alts with rfl | ⟨front, top, rfl⟩
  · exact absurd h.keys (by simp [blockIds])
  · have hkeys := h.keys
    rw [List.concat_eq_append, blockIds_append, List.map_append] at hkeys
    have htop := (List.append_inj' hkeys rfl).2
    have hid : w.env.id top.block = w.env.id b := (List.cons.inj htop).1
    have hancestry := h.kept.chain.ancestry
    rw [h.chain, List.concat_eq_append, ← List.append_assoc, getTailId_concat, hid,
      List.append_assoc, ← List.concat_eq_append, ← h.chain] at hancestry
    obtain ⟨hlength, hcum⟩ := hstored.of_ancestry hancestry
    rw [infos_length] at hlength
    exact ⟨hcum, hlength⟩

omit [DecidableEq ρ] in
/-- The old blocks are lighter than a heavier chain, and the checkpoints among them are below
its top. -/
theorem Kept.outdone (hwrap : w.NoWrap) (h : Kept w s) {id : Hash}
    (hmem : id ∈ blockIds w.env s.chain) {altChain : List AltEntry} {bei : BlockExtendedInfo}
    (henters : Enters w.env b s altChain bei) {t : ChainState ρ}
    (hlength : t.chain.length = bei.height + 1) :
    ∀ b' ∈ (chainAbove w.env id s.chain).map MainBlock.block, Outdone w (work s) t b' := by
  intro b' hb'
  have hgiven := h.above_given hmem b' hb'
  obtain ⟨e, he, rfl⟩ := List.mem_map.mp hb'
  have hin : e ∈ s.chain := by
    rw [← chainTo_append_above w.env id s.chain]
    exact List.mem_append_right _ he
  obtain ⟨n, hn⟩ := List.getElem?_of_mem hin
  have hlt := (List.getElem?_eq_some_iff.mp hn).1
  have hancestry := h.chain.ancestry_getElem hn
  refine ⟨hgiven, ?_, ?_⟩
  · intro ancestors hid
    rw [hid.unique hancestry, List.take_add_one, hn, Option.toList_some,
      topCumulativeDifficulty_infos_concat]
    exact h.chain.cumulativeDifficulty_le hwrap e hin
  · intro ancestors hid point hpoint hheight
    rw [h.chain.height_eq hn hid] at hheight
    have hallowed := henters.allowed
    rw [isAlternativeBlockAllowed, decide_eq_true_eq] at hallowed
    have hbelow := hallowed.2 point hpoint (by omega)
    rw [minerHeight_of_prevalidated (alternativeInfo_eq_some henters.info).2.1] at hbelow
    omega

/-- A switch to a heavier chain leaves lighter entries. -/
theorem heaviest_made (hwrap : w.NoWrap) (h : Kept w s) (hb : Given w b)
    {altChain : List AltEntry} {bei : BlockExtendedInfo}
    (henters : Enters w.env b s altChain bei) (hmore : work s < bei.cumulativeDifficulty)
    {depth : ℕ} (hmade : (switchToAlternativeBlockchain w.env
      (fun b s => (handleAlternativeBlock w.env depth b s).2) (altChain ++ [(w.env.id b, bei)])
      false (insertEntry (w.env.id b, bei) s)).1 = true) :
    Heaviest s (switchToAlternativeBlockchain w.env
      (fun b s => (handleAlternativeBlock w.env depth b s).2) (altChain ++ [(w.env.id b, bei)])
      false (insertEntry (w.env.id b, bei) s)).2 := by
  obtain ⟨hstored, hbl, hentries⟩ := h.enters hb henters
  have hinserted := (h.insertEntry hstored).kept
  obtain ⟨front, rest, hfront⟩ := List.exists_cons_of_ne_nil
    (List.concat_ne_nil (w.env.id b, bei) altChain)
  have hmem := henters.front_mem hbl hfront
  rw [hfront] at hentries hmade ⊢
  obtain ⟨-, alts, connected, hconnected, heq⟩ := hinserted.connectedAll hentries hmade
  rw [← hfront] at hconnected
  obtain ⟨hwork, hlength⟩ := hconnected.work_eq hstored
  have hlimit : work s < work connected := by rwa [hwork]
  obtain ⟨hchain, hlight⟩ := foldl_outdone hconnected.kept hlimit
    (h.outdone hwrap hmem henters hlength) depth
  have hpushed : (if (false : Bool) = true then connected else ((chainAbove w.env front.2.bl.prevId
      (insertEntry (w.env.id b, bei) s).chain).map MainBlock.block).foldl
        (fun s b => (handleAlternativeBlock w.env depth b s).2) connected) =
      ((chainAbove w.env front.2.bl.prevId s.chain).map MainBlock.block).foldl
        (fun s b => (handleAlternativeBlock w.env depth b s).2) connected := if_neg (by simp)
  rw [heq, hpushed]
  generalize ((chainAbove w.env front.2.bl.prevId s.chain).map MainBlock.block).foldl
    (fun s b => (handleAlternativeBlock w.env depth b s).2) connected = pushed at hchain hlight ⊢
  obtain ⟨hf, versions, hreorganize⟩ := reorganizeHardfork_eq w.env
    (chainTo w.env front.2.bl.prevId (insertEntry (w.env.id b, bei) s).chain).length
    ((front :: rest).foldl (fun s entry => eraseEntry entry.1 s) pushed)
  rw [hreorganize, foldl_eraseEntry]
  have hfinal : work pushed = bei.cumulativeDifficulty := by rw [work, hchain, ← work, hwork]
  refine ⟨?_, fun entry hentry => ?_⟩
  · show work s ≤ work pushed
    rw [hfinal]
    exact BitVec.le_of_lt hmore
  · show entry ∈ s.alternativeChains ∨ entry.2.cumulativeDifficulty ≤ work pushed
    rw [hfinal]
    rcases hlight entry (List.mem_of_mem_filter hentry) with hin | hless
    · rw [hconnected.store] at hin
      rcases List.mem_append.mp hin with hold | hnew
      · exact .inl hold
      · rw [List.mem_singleton.mp hnew]
        exact .inr (BitVec.le_refl _)
    · exact .inr (BitVec.le_trans hless (BitVec.le_of_lt hmore))

/-- A block on top of the main chain adds to the work. -/
theorem heaviest_main (hwrap : w.NoWrap) (h : Kept w s) :
    Heaviest s (handleBlockToMainChain w.env b s).2 := by
  rcases handleBlockToMainChain_cases w.env b s with
    ⟨p, l, t, i, hrefused, -⟩ | ⟨fast, acc, p, e, -, -, hcomplete, hadded⟩
  · rw [hrefused]
    exact Heaviest.of_subset rfl fun _ => id
  · rw [hadded]
    refine ⟨?_, fun entry hentry => .inl hentry⟩
    have hcum : e.cumulativeDifficulty =
        w.difficultyAfter (infos s.chain) + topCumulativeDifficulty (infos s.chain) := by
      rw [← h.fork.difficulty]
      exact (completeBlock_eq w.env hcomplete).2.2
    show work s ≤ topCumulativeDifficulty (infos (s.chain ++ [e]))
    rw [topCumulativeDifficulty_infos_concat, hcum, BitVec.add_comm]
    exact hwrap _ _ h.chain.ancestry

/-- An alternative block, when it does not lead to a checkpoint switch or to a chain that is
not given back. -/
theorem heaviest_alternative (hwrap : w.NoWrap) (h : Kept w s) (hb : Given w b) {depth : ℕ}
    (hcheckpoint : (handleAlternativeBlock w.env depth b s).1 ≠ .switched true true)
    (hback : ∀ checkpoint, (handleAlternativeBlock w.env depth b s).1 = .switched checkpoint false →
      (handleAlternativeBlock w.env depth b s).2.chain = s.chain) :
    Heaviest s (handleAlternativeBlock w.env depth b s).2 := by
  cases depth with
  | zero => exact Heaviest.of_subset rfl fun _ => id
  | succ depth =>
      rw [handleAlternativeBlock] at hcheckpoint hback ⊢
      rcases alternativeStep_cases w.env (fun b s => (handleAlternativeBlock w.env depth b s).2) b s
        with ⟨-, hsame⟩ | ⟨altChain, bei, henters, hcases⟩
      · rw [hsame]
        exact Heaviest.of_subset rfl fun _ => id
      · obtain ⟨-, hbl, -⟩ := h.enters hb henters
        rcases hcases with ⟨heq, -, hless⟩ | ⟨checkpoint, heq, hpoint, hmore⟩
        · rw [heq]
          refine ⟨BitVec.le_refl _, fun entry hentry => ?_⟩
          rcases List.mem_append.mp hentry with hold | hnew
          · exact .inl hold
          · rw [List.mem_singleton.mp hnew]
            exact .inr (BitVec.not_lt.mp hless)
        · rw [heq] at hcheckpoint hback ⊢
          simp only at hcheckpoint hback ⊢
          cases hresult : (switchToAlternativeBlockchain w.env
            (fun b s => (handleAlternativeBlock w.env depth b s).2)
            (altChain ++ [(w.env.id b, bei)]) checkpoint (insertEntry (w.env.id b, bei) s)).1 with
          | false =>
              rw [hresult] at hback
              exact heaviest_failed henters hbl hresult (hback checkpoint rfl)
          | true =>
              cases checkpoint with
              | true => exact absurd (by rw [hresult]) hcheckpoint
              | false => exact heaviest_made hwrap h hb henters (hmore rfl) hresult

/-- A calm call keeps the main chain the heaviest. -/
theorem heaviest_addNewBlock (hwrap : w.NoWrap) (h : Kept w s) (hb : b ∈ w.blocks) {depth : ℕ}
    (hcalm : Calm w.env depth b s) : Heaviest s (addNewBlock w.env depth b s).2 := by
  rw [Calm] at hcalm
  rw [addNewBlock] at hcalm ⊢
  split
  · exact Heaviest.of_subset rfl fun _ => id
  · rename_i hhave
    obtain ⟨hgiven, -, -⟩ := h.given hb ((Bool.not_eq_true _).mp hhave)
    rw [if_neg hhave] at hcalm
    split
    · rename_i hprev
      rw [if_pos hprev] at hcalm
      simp only at hcalm
      have hheaviest : Heaviest s (handleAlternativeBlock w.env depth b s).2 := by
        apply heaviest_alternative hwrap h hgiven
        · intro hswitched
          rw [hswitched] at hcalm
          exact hcalm
        · intro checkpoint hswitched
          rw [hswitched] at hcalm
          cases checkpoint <;> exact hcalm
      exact ⟨hheaviest.work_le, hheaviest.light⟩
    · exact heaviest_main hwrap h

/-! ### Runs -/

inductive Stretch (w : Setting ρ) (s₀ : ChainState ρ) : ChainState ρ → Prop
  | start : Stretch w s₀ s₀
  | addNewBlock {s : ChainState ρ} (h : Stretch w s₀ s) (depth : ℕ) {b : Block} (hb : b ∈ w.blocks)
      (hcalm : Calm w.env depth b s) : Stretch w s₀ (addNewBlock w.env depth b s).2
  | between {s s' : ChainState ρ} (h : Stretch w s₀ s) (hsame : SameStores s s') : Stretch w s₀ s'

variable {s₀ : ChainState ρ}

theorem Stretch.run (h : Stretch w s₀ s) (hrun : Run w s₀) : Run w s := by
  induction h with
  | start => exact hrun
  | addNewBlock h depth hb hcalm ih => exact ih.addNewBlock depth hb
  | between h hsame ih => exact ih.between hsame

theorem Stretch.heaviest (hwrap : w.NoWrap) (h : Stretch w s₀ s) (hrun : Run w s₀) :
    Heaviest s₀ s := by
  induction h with
  | start => exact Heaviest.of_subset rfl fun _ => id
  | addNewBlock h depth hb hcalm ih =>
      have hstep := heaviest_addNewBlock hwrap (h.run hrun).kept.1 hb hcalm
      refine ⟨BitVec.le_trans ih.work_le hstep.work_le, fun entry hentry => ?_⟩
      rcases hstep.light entry hentry with hold | hlight
      · exact (ih.light entry hold).imp_right fun hless => BitVec.le_trans hless hstep.work_le
      · exact .inr hlight
  | @between s s' h hsame ih =>
      have hwork : work s' = work s := by rw [work, work, hsame.chain]
      refine ⟨?_, ?_⟩
      · rw [hwork]
        exact ih.work_le
      · rw [hwork, hsame.alternativeChains]
        exact ih.light

/-- The state of the stores: no block is in both, the keys are the ids, and an entry is one
above its parent, with the difficulty of its block added, wherever the parent is. -/
structure StoresLinked (w : Setting ρ) (s : ChainState ρ) : Prop where
  disjoint : ∀ entry ∈ s.alternativeChains, entry.1 ∉ blockIds w.env s.chain
  key : ∀ entry ∈ s.alternativeChains, entry.1 = w.env.id entry.2.bl
  linked : ∀ entry ∈ s.alternativeChains, ∃ ancestors, Ancestry w entry.2.bl.prevId ancestors ∧
    (∀ n e, s.chain[n]? = some e → w.env.id e.block = entry.2.bl.prevId →
      entry.2.height = n + 1 ∧ entry.2.cumulativeDifficulty =
        e.cumulativeDifficulty + w.difficultyAfter ancestors) ∧
    ∀ parent ∈ s.alternativeChains, parent.1 = entry.2.bl.prevId →
      entry.2.height = parent.2.height + 1 ∧ entry.2.cumulativeDifficulty =
        parent.2.cumulativeDifficulty + w.difficultyAfter ancestors

omit [DecidableEq ρ] in
theorem Kept.storesLinked (h : Kept w s) (hapart : SharedIn w ∅ s) : StoresLinked w s where
  disjoint entry hentry hin := hapart entry.1 (List.mem_map_of_mem hentry) hin
  key entry hentry := (h.stored entry hentry).key
  linked entry hentry := by
    obtain ⟨ancestors, hprev, hheight, hcum⟩ := (h.stored entry hentry).linked
    refine ⟨ancestors, hprev, ?_, ?_⟩
    · intro n e he hid
      rw [← hid] at hprev
      refine ⟨hheight.trans (h.chain.height_eq he hprev), ?_⟩
      rw [hcum, hprev.unique (h.chain.ancestry_getElem he), List.take_add_one, he,
        Option.toList_some, topCumulativeDifficulty_infos_concat]
    · intro parent hparent hid
      rw [← hid] at hprev
      obtain ⟨hlength, htop⟩ := (h.stored parent hparent).of_ancestry hprev
      rw [hheight, hlength, hcum, htop]
      exact ⟨rfl, rfl⟩

/-- In every run the stores are linked. From any state of it on, as long as no checkpoint
switch is made and failed switches give the main chain back, what comes into the store has no
more work than the main chain, if no sum of difficulties wraps. -/
theorem stretch_storesLinked_and_light (hrun : Run w s₀) (hstretch : Stretch w s₀ s) :
    StoresLinked w s ∧ (w.NoWrap → ∀ entry ∈ s.alternativeChains,
      entry ∈ s₀.alternativeChains ∨ entry.2.cumulativeDifficulty ≤ work s) := by
  obtain ⟨hkept, hapart⟩ := (hstretch.run hrun).kept
  exact ⟨hkept.storesLinked hapart, fun hwrap => (hstretch.heaviest hwrap hrun).light⟩

/-! ### A race -/

def hashedAt (height timestamp : UInt64) (prevId : Hash) (miner id blob : ℕ) : HashedBlock :=
  ⟨plainBlock 1 height timestamp prevId, hashOfNat miner, hashOfNat id, hashOfNat blob⟩

/-- Two blocks that follow in a second each. The third block of their chain is hard. -/
def quickSecond : HashedBlock :=
  hashedAt 2 241 mainFirst.id
    0x6b57c3207986f38d1741e991af07c6e36c7e2ea1183b811dd51957567e7f54a5
    0x2f0a0a6aa51333921add8088808be5e623e9630a59b0c8583cd169f3c7a81fc4
    0x0fe9dc6bf27c65ea07034a9e499190d4b754a5c5b85058cb28c0d7928501abf6

def quickThird : HashedBlock :=
  hashedAt 3 242 quickSecond.id
    0x7b4c68b4cd77826931513918abff9f16867ae9d382df773af1b5651a827c25cc
    0x51197a91f2ff930300e4b68d69f125bfc816a873aab8764b7064d6bf25fb6199
    0xe556be9cb34b3c2777a29d23f8e9fe5fb16a89b4337d4e41f64f4acfe1912aa4

def sideSecond : HashedBlock :=
  hashedAt 2 242 mainFirst.id
    0x6b57c3207986f38d1741e991af07c6e36c7e2ea1183b811dd51957567e7f54a5
    0x9e17f4f8be3bf45837c8db330c1281e197982ada669ae14ea4bef52e3b01707b
    0x573ec8047b3f553940d37bc9299c73d1e92c126e605f59b08c964c86475fa9f7

def sideThird : HashedBlock :=
  hashedAt 3 243 sideSecond.id
    0x7b4c68b4cd77826931513918abff9f16867ae9d382df773af1b5651a827c25cc
    0xeeb7065069816339d43b4cdf24d95a5f0bb29c94dc79b06d11492bea23bac072
    0xfc9cdaef2e4b64e185e18f24dfa9bdc872d1302c002441ded18394faf17ccab8

def slowSecond : HashedBlock :=
  hashedAt 2 480 mainFirst.id
    0x6b57c3207986f38d1741e991af07c6e36c7e2ea1183b811dd51957567e7f54a5
    0x567d92bbbc7678b930ae1359737f7c54dc14cc01fef23aa7a77aafbfded820f7
    0x0c2bb8d8ad100d6038851cee56d1bfe9a7ba5adc524ef3a3e7afda7d4ff5e725

def slowThird : HashedBlock :=
  hashedAt 3 720 slowSecond.id
    0x7b4c68b4cd77826931513918abff9f16867ae9d382df773af1b5651a827c25cc
    0xad3ff58187f7409f88c2048cdb28b2a7de7653ad6b30ed9b3cbd1dd182302dfe
    0xdb111676726009e1b2d38ede1ab76623fe39a06848d8cd1d95973acd880aa381

def slowFourth : HashedBlock :=
  hashedAt 4 960 slowThird.id
    0x0f176a1e7c4ca4489635621fc78601c036a1efeb364ca414e718299a939a5897
    0x6bd48bf9dce81522d7698d6faa473133e89a4cf6ba121d72697f27c4a7e816fa
    0x25a21535e5208408bf31f64423765cbf83bbd740fbea69c06a4b2a10e52ee529

def slowFifth : HashedBlock :=
  hashedAt 5 1200 slowFourth.id
    0xaf81c2f9073ac5004029e0896c12dcafea2dc2f86ab3eb9666572f82daab58a2
    0x0bd460f0403aa7a430119342173e33b2c1b5e61b038051ba07817cbc99777ee1
    0x5dce09f4ba81abb72b10ebe28d822ed4e274d900fc28af37de9fda38f808bb6c

def slowSixth : HashedBlock :=
  hashedAt 6 1440 slowFifth.id
    0x1f18fdd7a9e2b6c2baac0cae3f916821b2a78bf17267354bfdf9db52dd324964
    0x2e0fba3073b5a684eecc41b88bba9e4cdc9cb90d81ba74c648833b7fd42ffa03
    0xc93d577c103e8d0af708bbca9e2b922675b4f0646244fe9354154dc28acd32cc

def raceBlocks : List HashedBlock :=
  [mainFirst, quickSecond, quickThird, sideSecond, sideThird, slowSecond, slowThird, slowFourth,
    slowFifth, slowSixth]

def raceEnv : ChainEnv (ℕ × ℕ) := plainEnv (genesisBlock :: raceBlocks) [(5, slowFifth.id)]

def raceSetting : Setting (ℕ × ℕ) where
  env := raceEnv
  params := ⟨1, 0, 0, 1, 0⟩
  genesis := plainMain genesisBlock 1
  blocks := {b | b ∈ raceBlocks.map HashedBlock.block}
  original := rfl
  header_eq := by
    have hall : ∀ b ∈ raceBlocks.map HashedBlock.block,
        ∀ b' ∈ raceBlocks.map HashedBlock.block, raceEnv.id b = raceEnv.id b' →
          b.toBlockHeader = b'.toBlockHeader := by decide
    exact hall

def raceStart : ChainState (ℕ × ℕ) := plainState (singleFork 1) [plainMain genesisBlock 1]

theorem fresh_raceStart : Fresh raceSetting raceStart := ⟨⟨rfl, rfl⟩, .genesis, rfl⟩

def afterBlocks (bs : List HashedBlock) : ChainState (ℕ × ℕ) :=
  bs.foldl (fun s b => (addNewBlock raceEnv 2 b.block s).2) raceStart

theorem run_afterBlocks {bs : List HashedBlock} (hbs : ∀ b ∈ bs, b ∈ raceBlocks) :
    Run raceSetting (afterBlocks bs) := by
  rw [afterBlocks]
  induction bs using List.reverseRecOn with
  | nil => exact .fresh fresh_raceStart
  | append_singleton bs b ih =>
      rw [List.foldl_append]
      have hb : b ∈ raceBlocks := hbs b (List.mem_append_right _ (List.mem_singleton_self b))
      exact (ih fun b' hb' => hbs b' (List.mem_append_left _ hb')).addNewBlock 2
        (List.mem_map_of_mem hb : b.block ∈ raceBlocks.map HashedBlock.block)

def raced : ChainState (ℕ × ℕ) := afterBlocks (raceBlocks.take 9)

/-- The checkpoint brought the slow chain to the top, and an alternative chain with much more
work stays in the store. The next block goes on top of the main chain. -/
theorem sideThird_outweighs_main :
    Run raceSetting raced ∧ (addNewBlock raceEnv 2 slowSixth.block raced).1 = .main true ∧
      (addNewBlock raceEnv 2 slowSixth.block raced).2.invalidBlocks = [] ∧
      altChainTo (addNewBlock raceEnv 2 slowSixth.block raced).2.alternativeChains 2 sideThird.id =
        [(sideSecond.id, ⟨sideSecond.block, 2, 3⟩), (sideThird.id, ⟨sideThird.block, 3, 123⟩)] ∧
      sideSecond.block.prevId ∈ blockIds raceEnv
        (addNewBlock raceEnv 2 slowSixth.block raced).2.chain ∧
      work (addNewBlock raceEnv 2 slowSixth.block raced).2 = 7 := by
  refine ⟨run_afterBlocks fun b hb => List.mem_of_mem_take hb, ?_⟩
  decide +kernel

/-- The ancestors of the blocks that are given, in an order in which parents come first. -/
def raceAncestries : List (Hash × List BlockInfo) :=
  raceBlocks.foldl (fun known b =>
    match known.lookup b.block.prevId with
    | none => known
    | some ancestors => known ++ [(raceEnv.id b.block, ancestors ++ [⟨b.block.toBlockHeader,
        topCumulativeDifficulty ancestors + raceSetting.difficultyAfter ancestors⟩])])
    [(raceEnv.id genesisBlock.block, [(plainMain genesisBlock 1).info])]

theorem noWrap_raceSetting : raceSetting.NoWrap := by
  have hclosed : ∀ b ∈ raceBlocks.map HashedBlock.block, ∀ known ∈ raceAncestries,
      b.prevId = known.1 → (raceEnv.id b, known.2 ++ [⟨b.toBlockHeader, topCumulativeDifficulty
        known.2 + raceSetting.difficultyAfter known.2⟩]) ∈ raceAncestries := by decide
  have hfits : ∀ known ∈ raceAncestries, topCumulativeDifficulty known.2 ≤
      topCumulativeDifficulty known.2 + raceSetting.difficultyAfter known.2 := by decide
  have hall : ∀ id ancestors, Ancestry raceSetting id ancestors →
      (id, ancestors) ∈ raceAncestries := by
    intro id ancestors h
    induction h with
    | genesis =>
        have hfirst : (raceSetting.genesisId, [raceSetting.genesis.info]) ∈ raceAncestries := by
          decide
        exact hfirst
    | block hb hnew h ih => exact hclosed _ hb _ ih rfl
  exact fun id ancestors h => hfits _ (hall id ancestors h)

/-- The calls of a stretch without a failed switch or a checkpoint. -/
theorem stretch_afterBlocks (bs : List HashedBlock) (b : HashedBlock) (result : AddResult)
    (h : Stretch raceSetting raceStart (afterBlocks bs)) (hb : b ∈ raceBlocks)
    (hcall : (addNewBlock raceEnv 2 b.block (afterBlocks bs)).1 = result)
    (hresult : ∀ checkpoint done, result = .alternative (.switched checkpoint done) →
      checkpoint = false ∧ done = true) :
    Stretch raceSetting raceStart (afterBlocks (bs ++ [b])) := by
  rw [afterBlocks, List.foldl_append]
  exact h.addNewBlock 2 (List.mem_map_of_mem hb : b.block ∈ raceBlocks.map HashedBlock.block)
    (Calm.of_result hcall hresult)

/-- The switch to the quick blocks pushes the block beside them back. -/
theorem stretch_storesLinked_and_light_quick :
    (afterBlocks [mainFirst, sideSecond, quickSecond, quickThird]).alternativeChains =
        [(sideSecond.id, ⟨sideSecond.block, 2, 3⟩)] ∧
      StoresLinked raceSetting (afterBlocks [mainFirst, sideSecond, quickSecond, quickThird]) ∧
      (raceSetting.NoWrap ∧ ∀ entry ∈
        (afterBlocks [mainFirst, sideSecond, quickSecond, quickThird]).alternativeChains,
        entry.2.cumulativeDifficulty ≤
          work (afterBlocks [mainFirst, sideSecond, quickSecond, quickThird])) := by
  have hfirst := stretch_afterBlocks [] mainFirst (.main true) .start (by simp [raceBlocks])
    (by decide) (by decide)
  have hsecond := stretch_afterBlocks [mainFirst] sideSecond (.main true) hfirst
    (by simp [raceBlocks]) (by decide) (by decide)
  have hthird := stretch_afterBlocks [mainFirst, sideSecond] quickSecond (.alternative .stored)
    hsecond (by simp [raceBlocks]) (by decide) (by decide)
  have hstretch := stretch_afterBlocks [mainFirst, sideSecond, quickSecond] quickThird
    (.alternative (.switched false true)) hthird (by simp [raceBlocks]) (by decide)
    (by decide)
  obtain ⟨hlinked, hlight⟩ := stretch_storesLinked_and_light (.fresh fresh_raceStart) hstretch
  refine ⟨by decide, hlinked, noWrap_raceSetting, fun entry hentry => ?_⟩
  exact (hlight noWrap_raceSetting entry hentry).resolve_left (by simp [raceStart, plainState])

end XrCoin.Blockchain
