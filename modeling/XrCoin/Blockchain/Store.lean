import XrCoin.Blockchain.Ancestry

/-!
The stores of blocks through the calls of `add_new_block`: the main chain is one from the
genesis block, the entries of `m_alternative_chains` have the height and the cumulative
difficulty that their ancestors give, and no block is in both.

While a switch hands the old blocks back, those that it connected are in both. So the blocks
in both are followed through the calls as those inside a given set.
-/

namespace XrCoin.Blockchain

open Archive Cryptonote Forks TxPool

variable {ρ : Type} [DecidableEq ρ] (w : Setting ρ)

/-! ### What the calls keep -/

structure Kept (s : ChainState ρ) : Prop where
  fork : OneFork w s.hardfork
  chain : FromGenesis w s.chain
  stored : ∀ entry ∈ s.alternativeChains, Stored w entry

/-- The block of the id is in the main chain or has an entry. -/
def Known (s : ChainState ρ) (id : Hash) : Prop :=
  id ∈ blockIds w.env s.chain ∨ id ∈ s.alternativeChains.map Prod.fst

/-- The blocks that are in both are among these. -/
def SharedIn (shared : Set Hash) (s : ChainState ρ) : Prop :=
  ∀ id ∈ s.alternativeChains.map Prod.fst, id ∈ blockIds w.env s.chain → id ∈ shared

structure Moves (s s' : ChainState ρ) : Prop where
  kept : Kept w s'
  known : ∀ id, Known w s' id → Known w s id
  shared : ∀ shared, SharedIn w shared s → SharedIn w shared s'

structure Pushes (b : Block) (s s' : ChainState ρ) : Prop where
  kept : Kept w s'
  known : ∀ id, Known w s' id → Known w s id ∨ id = w.env.id b
  shared : ∀ shared, SharedIn w shared s →
    (w.env.id b ∈ shared ∨ w.env.id b ∉ blockIds w.env s.chain) → SharedIn w shared s'

structure Given (b : Block) : Prop where
  mem : b ∈ w.blocks
  new : w.env.id b ≠ w.genesisId

/-- What a switch needs of the function that it hands the old blocks to. -/
def PushesBack (pushBack : Block → ChainState ρ → ChainState ρ) : Prop :=
  ∀ b s, Given w b → Kept w s → Pushes w b s (pushBack b s)

variable {w} {s s' s'' : ChainState ρ} {b : Block}

omit [DecidableEq ρ] in
theorem Kept.refl_moves (h : Kept w s) : Moves w s s := ⟨h, fun _ hid => hid, fun _ hs => hs⟩

omit [DecidableEq ρ] in
theorem Kept.refl_pushes (h : Kept w s) : Pushes w b s s :=
  ⟨h, fun _ hid => .inl hid, fun _ hs _ => hs⟩

omit [DecidableEq ρ] in
theorem Pushes.moves (h : Pushes w b s s') (h' : Moves w s' s'') : Pushes w b s s'' where
  kept := h'.kept
  known id hid := h.known id (h'.known id hid)
  shared shared hs hb := h'.shared shared (h.shared shared hs hb)

omit [DecidableEq ρ] in
theorem Kept.insertEntry (h : Kept w s) {bei : BlockExtendedInfo}
    (hstored : Stored w (w.env.id b, bei)) : Pushes w b s (insertEntry (w.env.id b, bei) s) := by
  have hkeys : ∀ id, id ∈ (Blockchain.insertEntry (w.env.id b, bei) s).alternativeChains.map
      Prod.fst ↔ id ∈ s.alternativeChains.map Prod.fst ∨ id = w.env.id b := by
    intro id
    rw [Blockchain.insertEntry, List.map_append, List.mem_append, List.map_singleton,
      List.mem_singleton]
  refine ⟨⟨h.fork, h.chain, ?_⟩, ?_, ?_⟩
  · intro entry hentry
    rcases List.mem_append.mp hentry with hold | hnew
    · exact h.stored entry hold
    · rw [List.mem_singleton.mp hnew]
      exact hstored
  · rintro id (hmain | halt)
    · exact .inl (.inl hmain)
    · exact ((hkeys id).mp halt).imp_left .inr
  · intro shared hs hb id hid hmain
    rcases (hkeys id).mp hid with hold | rfl
    · exact hs id hold hmain
    · exact hb.resolve_right (not_not.mpr hmain)

/-! ### Adding and popping blocks -/

omit [DecidableEq ρ] in
/-- The states have the same fork object, the same chain and the same entries. -/
theorem Kept.congr (h : Kept w s) (hfork : s'.hardfork = s.hardfork) (hchain : s'.chain = s.chain)
    (hstore : s'.alternativeChains = s.alternativeChains) : Kept w s' := by
  refine ⟨?_, ?_, ?_⟩
  · rw [hfork]
    exact h.fork
  · rw [hchain]
    exact h.chain
  · rw [hstore]
    exact h.stored

theorem Kept.handleBlock (h : Kept w s) (hb : Given w b) :
    Kept w (handleBlockToMainChain w.env b s).2 := by
  rcases handleBlockToMainChain_cases w.env b s with
    ⟨p, l, t, i, hrefused, -⟩ | ⟨fast, acc, p, e, hheader, -, hcomplete, hadded⟩
  · rw [hrefused]
    exact h.congr rfl rfl rfl
  · rw [hadded]
    obtain ⟨hblock, -, hcum⟩ := completeBlock_eq w.env hcomplete
    have hprev := ((checkHeader_eq_some w.env).mp hheader).1
    refine ⟨h.fork.add _ _ _ _, ?_, h.stored⟩
    refine .block h.chain ?_ ?_ ?_ ?_
    · rw [hblock]
      exact hb.mem
    · rw [hblock]
      exact hb.new
    · rw [hblock]
      exact hprev
    · rw [hcum, BitVec.add_comm]
      exact congrArg _ (h.fork.difficulty (infos s.chain))

theorem Kept.popTimes (h : Kept w s) {n : ℕ} (hn : n < s.chain.length) :
    Kept w (popTimes w.env n s) := by
  obtain ⟨hrest, hchain⟩ := popTimes_spec w.env n s
  refine ⟨?_, ?_, ?_⟩
  · rw [hrest.hardfork]
    exact h.fork
  · rw [hchain]
    exact h.chain.take (by omega)
  · rw [hrest.alternativeChains]
    exact h.stored

omit [DecidableEq ρ] in
theorem Kept.reorganizeHardfork (h : Kept w s) (height : ℕ) :
    Kept w (reorganizeHardfork w.env height s) := by
  have hfork := h.fork.reorganizeHardfork height
  obtain ⟨hf, versions, heq⟩ := reorganizeHardfork_eq w.env height s
  rw [heq] at hfork ⊢
  exact ⟨hfork, h.chain, h.stored⟩

omit [DecidableEq ρ] in
theorem Stored.given {entry : AltEntry} (h : Stored w entry) : Given w entry.2.bl :=
  ⟨h.mem, h.key ▸ h.new⟩

theorem Kept.connectChain {altChain : List AltEntry} (h : Kept w s)
    (hentries : ∀ entry ∈ altChain, Stored w entry) : Kept w (connectChain w.env altChain s).2 := by
  induction altChain generalizing s with
  | nil => exact h
  | cons entry rest ih =>
      rw [List.forall_mem_cons] at hentries
      have hfirst := h.handleBlock hentries.1.given
      rw [connectChain_cons]
      split
      · exact ih hfirst hentries.2
      · exact hfirst

theorem Kept.addAgain {bs : List Block} (h : Kept w s) (hbs : ∀ b ∈ bs, Given w b) :
    Kept w (addAgain w.env bs s).2 := by
  induction bs generalizing s with
  | nil => exact h
  | cons b bs ih =>
      rw [List.forall_mem_cons] at hbs
      have hfirst := h.handleBlock hbs.1
      rw [addAgain_cons]
      split
      · exact ih hfirst hbs.2
      · exact hfirst

theorem Kept.rollback {original : List Block} {height : ℕ} (h : Kept w s) (hpos : 0 < height)
    (hle : height ≤ s.chain.length) (hbs : ∀ b ∈ original, Given w b) :
    Kept w (rollbackBlockchainSwitching w.env original height s).2 := by
  rw [rollbackBlockchainSwitching, if_neg (not_lt.mpr hle),
    popToHeight_eq (n := s.chain.length - height) hpos (by omega) (Nat.sub_le _ _)]
  simp only
  have hpopped := (h.popTimes (n := s.chain.length - height) (by omega)).reorganizeHardfork height
  have hadded := hpopped.addAgain hbs
  obtain ⟨⟨done, t⟩, hrun⟩ : ∃ r, Blockchain.addAgain w.env original (Blockchain.reorganizeHardfork
    w.env height (Blockchain.popTimes w.env (s.chain.length - height) s)) = r := ⟨_, rfl⟩
  rw [hrun] at hadded ⊢
  cases done with
  | false => exact hadded
  | true => exact hadded.reorganizeHardfork height

/-! ### Switching -/

omit [DecidableEq ρ] in
theorem blockIds_append (env : ChainEnv ρ) (base above : List MainBlock) :
    blockIds env (base ++ above) = blockIds env base ++ blockIds env above := List.map_append

omit [DecidableEq ρ] in
theorem Kept.above_given (h : Kept w s) {id : Hash} (hmem : id ∈ blockIds w.env s.chain) :
    ∀ b ∈ (chainAbove w.env id s.chain).map MainBlock.block, Given w b := by
  have hchain := h.chain
  rw [← chainTo_append_above w.env id s.chain] at hchain
  intro b hb
  obtain ⟨e, he, rfl⟩ := List.mem_map.mp hb
  obtain ⟨hin, hnew⟩ := (hchain.of_append (chainTo_ne_nil hmem)).2 e he
  exact ⟨hin, hnew⟩

/-- The state that a switch connects the alternative chain to. -/
theorem Kept.popped (h : Kept w s) {id : Hash} (hmem : id ∈ blockIds w.env s.chain) :
    Kept w (Blockchain.popTimes w.env (chainAbove w.env id s.chain).length s) ∧
      (Blockchain.popTimes w.env (chainAbove w.env id s.chain).length s).chain =
        chainTo w.env id s.chain := by
  have hlength := congrArg List.length (chainTo_append_above w.env id s.chain)
  have hpos := List.length_pos_of_ne_nil (chainTo_ne_nil hmem)
  rw [List.length_append] at hlength
  refine ⟨h.popTimes (by omega), ?_⟩
  have hpopped := (popToParent_spec hmem).2
  rwa [popToParent_eq hmem le_rfl] at hpopped

theorem rollback_chain (env : ChainEnv ρ) (original : List Block) {height : ℕ} {s : ChainState ρ}
    (hpos : 0 < height) (hle : height ≤ s.chain.length) :
    ∃ again, (rollbackBlockchainSwitching env original height s).2.chain =
      s.chain.take height ++ again ∧ again.map MainBlock.block <+: original := by
  obtain ⟨-, hf, versions, heq⟩ := rollbackBlockchainSwitching_eq env original hpos hle
  obtain ⟨hf', versions', heq'⟩ := reorganizeHardfork_eq env height
    (popTimes env (s.chain.length - height) s)
  obtain ⟨again, hagain, hfront⟩ := addAgain_chain env original (reorganizeHardfork env height
    (popTimes env (s.chain.length - height) s))
  refine ⟨again, ?_, hfront⟩
  rw [heq]
  show (addAgain env original (reorganizeHardfork env height
    (popTimes env (s.chain.length - height) s))).2.chain = _
  rw [hagain, heq']
  simp only
  rw [(popTimes_spec env _ s).2, Nat.sub_sub_self hle]

/-- A failed switch puts back blocks of the old chain and erases entries. -/
theorem Kept.moves_failed (h : Kept w s) {pushBack : Block → ChainState ρ → ChainState ρ}
    {front : AltEntry} {rest : List AltEntry} {discard : Bool}
    (hentries : ∀ entry ∈ front :: rest, Stored w entry)
    (hmem : front.2.bl.prevId ∈ blockIds w.env s.chain)
    (hfailed : (switchToAlternativeBlockchain w.env pushBack (front :: rest) discard s).1 = false) :
    Moves w s (switchToAlternativeBlockchain w.env pushBack (front :: rest) discard s).2 := by
  obtain ⟨refused, orphans, -, hsame, hstore, -⟩ := switch_failed_spec hmem hfailed
  obtain ⟨hpopped, hbase⟩ := h.popped hmem
  obtain ⟨alts, hconnected⟩ := connectChain_spec w.env (front :: rest) (Blockchain.popTimes w.env
    (chainAbove w.env front.2.bl.prevId s.chain).length s)
  have hkept := hpopped.connectChain hentries
  have hchain := hconnected.chain
  rw [hbase] at hchain
  generalize (Blockchain.connectChain w.env (front :: rest) (Blockchain.popTimes w.env
    (chainAbove w.env front.2.bl.prevId s.chain).length s)).2 = connected at hkept hchain hsame
  have hpos := List.length_pos_of_ne_nil (chainTo_ne_nil hmem)
  have hlength := congrArg List.length hchain
  rw [List.length_append] at hlength
  have hback := hkept.rollback hpos (by omega) (h.above_given hmem)
  -- the ids of the chain are some of the old ones
  have hids : ∀ id, id ∈ blockIds w.env
      (switchToAlternativeBlockchain w.env pushBack (front :: rest) discard s).2.chain →
      id ∈ blockIds w.env s.chain := by
    obtain ⟨again, hagain, hfront⟩ := rollback_chain w.env
      ((chainAbove w.env front.2.bl.prevId s.chain).map MainBlock.block) hpos
      (Nat.le.intro hlength.symm)
    intro id hid
    rw [hsame.chain, hagain, hchain, List.take_left, blockIds_append, List.mem_append] at hid
    rw [← chainTo_append_above w.env front.2.bl.prevId s.chain, blockIds_append, List.mem_append]
    refine hid.imp_right fun hid => ?_
    obtain ⟨e, he, rfl⟩ := List.mem_map.mp hid
    obtain ⟨e', he', heq⟩ := List.mem_map.mp (hfront.subset (List.mem_map_of_mem he))
    rw [← heq]
    exact List.mem_map_of_mem he'
  have hkeys : ∀ id, id ∈ (switchToAlternativeBlockchain w.env pushBack (front :: rest) discard
      s).2.alternativeChains.map Prod.fst → id ∈ s.alternativeChains.map Prod.fst := by
    intro id hid
    rw [hstore] at hid
    exact List.map_subset _ (List.filter_subset_self _) hid
  refine ⟨⟨?_, ?_, ?_⟩, ?_, ?_⟩
  · rw [hsame.hardfork]
    exact hback.fork
  · rw [hsame.chain]
    exact hback.chain
  · rw [hstore]
    exact fun entry hentry => h.stored entry (List.mem_of_mem_filter hentry)
  · exact fun id => Or.imp (hids id) (hkeys id)
  · exact fun shared hs id hid hmain => hs id (hkeys id hid) (hids id hmain)

omit [DecidableEq ρ] in
/-- Handing back blocks of which none is known, up to those that are shared anyway. -/
theorem PushesBack.foldl {pushBack : Block → ChainState ρ → ChainState ρ}
    (hpush : PushesBack w pushBack) {bs : List Block} (h : Kept w s) (hbs : ∀ b ∈ bs, Given w b)
    (hnodup : (bs.map w.env.id).Nodup) :
    Kept w (bs.foldl (fun s b => pushBack b s) s) ∧
      (∀ id, Known w (bs.foldl (fun s b => pushBack b s) s) id →
        Known w s id ∨ id ∈ bs.map w.env.id) ∧
      ∀ shared, SharedIn w shared s → (∀ b ∈ bs, w.env.id b ∈ shared ∨ ¬Known w s (w.env.id b)) →
        SharedIn w shared (bs.foldl (fun s b => pushBack b s) s) := by
  induction bs generalizing s with
  | nil => exact ⟨h, fun _ => .inl, fun _ hs _ => hs⟩
  | cons b bs ih =>
      rw [List.forall_mem_cons] at hbs
      rw [List.map_cons, List.nodup_cons] at hnodup
      have hfirst := hpush b s hbs.1 h
      obtain ⟨hkept, hknown, hshared⟩ := ih hfirst.kept hbs.2 hnodup.2
      refine ⟨hkept, ?_, ?_⟩
      · intro id hid
        rw [List.map_cons, List.mem_cons]
        rcases hknown id hid with hid | hid
        · exact (hfirst.known id hid).imp_right .inl
        · exact .inr (.inr hid)
      · intro shared hs hout
        rw [List.forall_mem_cons] at hout
        refine hshared shared (hfirst.shared shared hs ?_) ?_
        · exact hout.1.imp_right fun hnot hmain => hnot (.inl hmain)
        · intro b' hb'
          refine (hout.2 b' hb').imp_right fun hnot hknown' => ?_
          rcases hfirst.known _ hknown' with hold | heq
          · exact hnot hold
          · exact hnodup.1 (heq ▸ List.mem_map_of_mem hb')

structure ConnectedAll (w : Setting ρ) (altChain : List AltEntry) (base alts : List MainBlock)
    (s connected : ChainState ρ) : Prop where
  kept : Kept w connected
  chain : connected.chain = base ++ alts
  blocks : alts.map MainBlock.block = altChain.map fun entry => entry.2.bl
  keys : blockIds w.env alts = altChain.map Prod.fst
  store : connected.alternativeChains = s.alternativeChains

theorem Kept.connectedAll (h : Kept w s) {pushBack : Block → ChainState ρ → ChainState ρ}
    {front : AltEntry} {rest : List AltEntry} {discard : Bool}
    (hentries : ∀ entry ∈ front :: rest, entry ∈ s.alternativeChains)
    (hmade : (switchToAlternativeBlockchain w.env pushBack (front :: rest) discard s).1 = true) :
    front.2.bl.prevId ∈ blockIds w.env s.chain ∧ ∃ alts connected,
      ConnectedAll w (front :: rest) (chainTo w.env front.2.bl.prevId s.chain) alts s connected ∧
      (switchToAlternativeBlockchain w.env pushBack (front :: rest) discard s).2 =
        Blockchain.reorganizeHardfork w.env (chainTo w.env front.2.bl.prevId s.chain).length
          ((front :: rest).foldl (fun s entry => eraseEntry entry.1 s)
            (if discard then connected
              else ((chainAbove w.env front.2.bl.prevId s.chain).map MainBlock.block).foldl
                (fun s b => pushBack b s) connected)) := by
  obtain ⟨hmem, hall, heq⟩ := switch_eq_true hmade
  obtain ⟨hpopped, hbase⟩ := h.popped hmem
  have hstored : ∀ entry ∈ front :: rest, Stored w entry := fun entry hentry =>
    h.stored entry (hentries entry hentry)
  obtain ⟨alts, hconnected⟩ := connectChain_spec w.env (front :: rest) (Blockchain.popTimes w.env
    (chainAbove w.env front.2.bl.prevId s.chain).length s)
  obtain ⟨done, hdone, hblocks⟩ := hconnected.entries
  rw [hall, List.append_nil] at hdone
  rw [← hdone] at hblocks
  refine ⟨hmem, alts, _, ⟨hpopped.connectChain hstored, ?_, hblocks, ?_, ?_⟩, heq⟩
  · rw [hconnected.chain, hbase]
  · have hids : blockIds w.env alts = (alts.map MainBlock.block).map w.env.id := by
      rw [List.map_map]
      rfl
    rw [hids, hblocks, List.map_map]
    exact List.map_congr_left fun entry hentry => (hstored entry hentry).key.symm
  · exact hconnected.alternativeChains.trans (popTimes_spec w.env
      (chainAbove w.env front.2.bl.prevId s.chain).length s).1.alternativeChains

omit [DecidableEq ρ] in
/-- Erasing the entries of the connected blocks takes them out of the shared ones. -/
theorem Moves.of_erased {altChain : List AltEntry} {pushed : ChainState ρ} (hkept : Kept w pushed)
    (hknown : ∀ id, Known w pushed id → Known w s id)
    (hshared : ∀ shared, SharedIn w shared s →
      SharedIn w (shared ∪ {id | id ∈ altChain.map Prod.fst}) pushed) (height : ℕ) :
    Moves w s (reorganizeHardfork w.env height
      (altChain.foldl (fun s entry => eraseEntry entry.1 s) pushed)) := by
  rw [foldl_eraseEntry]
  have herased : Kept w { pushed with
      alternativeChains := pushed.alternativeChains.filter
        fun entry => entry.1 ∉ altChain.map Prod.fst } :=
    ⟨hkept.fork, hkept.chain, fun entry hentry =>
      hkept.stored entry (List.mem_of_mem_filter hentry)⟩
  have hfork := herased.reorganizeHardfork height
  obtain ⟨hf, versions, heq⟩ := reorganizeHardfork_eq w.env height { pushed with
    alternativeChains := pushed.alternativeChains.filter
      fun entry => entry.1 ∉ altChain.map Prod.fst }
  rw [heq] at hfork ⊢
  refine ⟨hfork, ?_, ?_⟩
  · rintro id (hid | hid)
    · exact hknown id (.inl hid)
    · exact hknown id (.inr (List.map_subset _ (List.filter_subset_self _) hid))
  · intro shared hs id hid hmain
    obtain ⟨entry, hentry, rfl⟩ := List.mem_map.mp hid
    obtain ⟨hentry, hkey⟩ := List.mem_filter.mp hentry
    have hin := hshared shared hs entry.1 (List.mem_map_of_mem hentry) hmain
    exact hin.resolve_right (by simpa using hkey)

theorem Kept.moves_made (h : Kept w s) {pushBack : Block → ChainState ρ → ChainState ρ}
    (hpush : PushesBack w pushBack) {front : AltEntry} {rest : List AltEntry} {discard : Bool}
    (hentries : ∀ entry ∈ front :: rest, entry ∈ s.alternativeChains)
    (hmade : (switchToAlternativeBlockchain w.env pushBack (front :: rest) discard s).1 = true) :
    Moves w s (switchToAlternativeBlockchain w.env pushBack (front :: rest) discard s).2 := by
  obtain ⟨hmem, alts, connected, hconnected, heq⟩ := h.connectedAll hentries hmade
  have hgiven := h.above_given hmem
  have hsplit := chainTo_append_above w.env front.2.bl.prevId s.chain
  have hnodup := h.chain.blockIds_nodup
  rw [heq]
  generalize chainTo w.env front.2.bl.prevId s.chain = base at hconnected hsplit ⊢
  generalize chainAbove w.env front.2.bl.prevId s.chain = above at hsplit hgiven ⊢
  rw [← hsplit, blockIds_append, List.nodup_append] at hnodup
  obtain ⟨-, hnodupAbove, hapart⟩ := hnodup
  have hmain : ∀ id, id ∈ blockIds w.env s.chain ↔
      id ∈ blockIds w.env base ∨ id ∈ blockIds w.env above := by
    intro id
    rw [← hsplit, blockIds_append, List.mem_append]
  have hconnectedMain : ∀ id, id ∈ blockIds w.env connected.chain ↔
      id ∈ blockIds w.env base ∨ id ∈ (front :: rest).map Prod.fst := by
    intro id
    rw [hconnected.chain, blockIds_append, List.mem_append, hconnected.keys]
  have hkeys : ∀ id, id ∈ (front :: rest).map Prod.fst →
      id ∈ s.alternativeChains.map Prod.fst := by
    intro id hid
    obtain ⟨entry, hentry, rfl⟩ := List.mem_map.mp hid
    exact List.mem_map_of_mem (hentries entry hentry)
  have hknown : ∀ id, Known w connected id → Known w s id := by
    rintro id (hid | hid)
    · rcases (hconnectedMain id).mp hid with hid | hid
      · exact .inl ((hmain id).mpr (.inl hid))
      · exact .inr (hkeys id hid)
    · rw [hconnected.store] at hid
      exact .inr hid
  have hshared : ∀ shared, SharedIn w shared s →
      SharedIn w (shared ∪ {id | id ∈ (front :: rest).map Prod.fst}) connected := by
    intro shared hs id hid hin
    rw [hconnected.store] at hid
    exact ((hconnectedMain id).mp hin).imp_left fun hbase => hs id hid ((hmain id).mpr (.inl hbase))
  have hids : ∀ b ∈ above.map MainBlock.block, w.env.id b ∈ blockIds w.env above := by
    intro b hb
    obtain ⟨e, he, rfl⟩ := List.mem_map.mp hb
    exact List.mem_map_of_mem he
  cases discard with
  | true => exact Moves.of_erased hconnected.kept hknown hshared _
  | false =>
      have hnodup' : ((above.map MainBlock.block).map w.env.id).Nodup := by
        rw [List.map_map]
        exact hnodupAbove
      obtain ⟨hkept, hknown', hshared'⟩ := hpush.foldl hconnected.kept hgiven hnodup'
      refine Moves.of_erased hkept ?_ ?_ _
      · intro id hid
        rcases hknown' id hid with hid | hid
        · exact hknown id hid
        · obtain ⟨b, hb, rfl⟩ := List.mem_map.mp hid
          exact .inl ((hmain _).mpr (.inr (hids b hb)))
      · intro shared hs
        refine hshared' _ (hshared shared hs) fun b hb => ?_
        -- an old block that is known has an entry, and so was shared before
        by_cases hknownb : Known w connected (w.env.id b)
        · left
          have hb' := hids b hb
          rcases hknownb with hin | hin
          · rcases (hconnectedMain _).mp hin with hbase | hkey
            · exact absurd rfl (hapart _ hbase _ hb')
            · exact .inr hkey
          · rw [hconnected.store] at hin
            exact .inl (hs _ hin ((hmain _).mpr (.inr hb')))
        · exact .inr hknownb

theorem Kept.moves_switch (h : Kept w s) {pushBack : Block → ChainState ρ → ChainState ρ}
    (hpush : PushesBack w pushBack) {altChain : List AltEntry} {discard : Bool}
    (hentries : ∀ entry ∈ altChain, entry ∈ s.alternativeChains) :
    Moves w s (switchToAlternativeBlockchain w.env pushBack altChain discard s).2 := by
  cases altChain with
  | nil => exact h.refl_moves
  | cons front rest =>
      cases hresult : (switchToAlternativeBlockchain w.env pushBack (front :: rest) discard s).1 with
      | true => exact h.moves_made hpush hentries hresult
      | false =>
          by_cases hmem : front.2.bl.prevId ∈ blockIds w.env s.chain
          · exact h.moves_failed (fun entry hentry => h.stored entry (hentries entry hentry)) hmem
              hresult
          · rw [switchToAlternativeBlockchain, if_pos hmem]
            exact h.refl_moves

/-! ### Calls -/

omit [DecidableEq ρ] in
/-- What is known of a block that gets an entry. -/
theorem Kept.enters (h : Kept w s) (hb : Given w b) {altChain : List AltEntry}
    {bei : BlockExtendedInfo} (henters : Enters w.env b s altChain bei) :
    Stored w (w.env.id b, bei) ∧ bei.bl = b ∧
      ∀ entry ∈ altChain ++ [(w.env.id b, bei)],
        entry ∈ (Blockchain.insertEntry (w.env.id b, bei) s).alternativeChains := by
  have hparent := henters.parent
  have hinfo := henters.info
  rw [henters.altChain_eq] at hparent hinfo
  obtain ⟨hstored, hbl⟩ := stored_alternativeInfo h.fork h.chain h.stored hb.mem hb.new hparent hinfo
  refine ⟨hstored, hbl, fun entry hentry => ?_⟩
  rcases List.mem_append.mp hentry with hin | hlast
  · refine List.mem_append_left _ ?_
    cases hchain : altChain with
    | nil =>
        rw [hchain] at hin
        exact absurd hin (by simp)
    | cons front rest =>
        rw [hchain] at hin
        exact (altChainTo_spec h.stored (henters.altChain_eq.symm.trans hchain)).1 entry hin
  · exact List.mem_append_right _ hlast

theorem pushesBack_handleAlternativeBlock (w : Setting ρ) (depth : ℕ) :
    PushesBack w fun b s => (handleAlternativeBlock w.env depth b s).2 := by
  induction depth with
  | zero => exact fun b s _ h => h.refl_pushes
  | succ depth ih =>
      intro b s hb h
      rcases alternativeStep_cases w.env (fun b s => (handleAlternativeBlock w.env depth b s).2) b s
        with ⟨-, hsame⟩ | ⟨altChain, bei, henters, hcases⟩
      · show Pushes w b s (alternativeStep w.env _ b s).2
        rw [hsame]
        exact h.refl_pushes
      · obtain ⟨hstored, -, hentries⟩ := h.enters hb henters
        have hinserted := h.insertEntry hstored
        show Pushes w b s (alternativeStep w.env _ b s).2
        rcases hcases with ⟨heq, -⟩ | ⟨checkpoint, heq, -⟩
        · rw [heq]
          exact hinserted
        · rw [heq]
          exact hinserted.moves (hinserted.kept.moves_switch ih hentries)

omit [DecidableEq ρ] in
theorem FromGenesis.genesisId_mem {chain : List MainBlock} (h : FromGenesis w chain) :
    w.genesisId ∈ blockIds w.env chain := by
  induction h with
  | genesis => exact List.mem_singleton_self _
  | block h hb hnew hprev hcum ih =>
      rw [blockIds_append]
      exact List.mem_append_left _ ih

omit [DecidableEq ρ] in
theorem Kept.given (h : Kept w s) (hb : b ∈ w.blocks)
    (hnew : haveBlock w.env s (w.env.id b) = false) :
    Given w b ∧ w.env.id b ∉ blockIds w.env s.chain ∧
      w.env.id b ∉ s.alternativeChains.map Prod.fst := by
  rw [haveBlock, decide_eq_false_iff_not, not_or, not_or] at hnew
  refine ⟨⟨hb, fun heq => hnew.1 ?_⟩, hnew.1, hnew.2.1⟩
  rw [heq]
  exact h.chain.genesisId_mem

/-- A call keeps the stores apart. -/
theorem Kept.addNewBlock (h : Kept w s) (hapart : SharedIn w ∅ s) (hb : b ∈ w.blocks) (depth : ℕ) :
    Kept w (addNewBlock w.env depth b s).2 ∧ SharedIn w ∅ (addNewBlock w.env depth b s).2 := by
  rw [Blockchain.addNewBlock]
  split
  · exact ⟨h.congr rfl rfl rfl, hapart⟩
  · rename_i hhave
    obtain ⟨hgiven, hmain, halt⟩ := h.given hb ((Bool.not_eq_true _).mp hhave)
    split
    · have hpushes := pushesBack_handleAlternativeBlock w depth b s hgiven h
      exact ⟨hpushes.kept.congr rfl rfl rfl, hpushes.shared ∅ hapart (.inr hmain)⟩
    · refine ⟨h.handleBlock hgiven, ?_⟩
      rcases handleBlockToMainChain_cases w.env b s with
        ⟨p, l, t, i, hrefused, -⟩ | ⟨fast, acc, p, e, -, -, hcomplete, hadded⟩
      · rw [hrefused]
        exact hapart
      · rw [hadded]
        intro id hid hin
        -- the new block has no entry
        have hchain : blockIds w.env (storeBlock w.env { s with txPool := p, blocksTxsCheck := [] }
            e).chain = blockIds w.env s.chain ++ [w.env.id b] := by
          rw [storeBlock, blockIds_append, blockIds, blockIds, List.map_singleton,
            (completeBlock_eq w.env hcomplete).1]
        simp only at hin
        rw [hchain, List.mem_append, List.mem_singleton] at hin
        rcases hin with hold | rfl
        · exact hapart id hid hold
        · exact absurd hid halt

/-! ### Runs -/

/-- Between two calls of `add_new_block` the node may change all but the chain, the fork
object and the entries. -/
structure SameStores (s s' : ChainState ρ) : Prop where
  chain : s'.chain = s.chain
  hardfork : s'.hardfork = s.hardfork
  alternativeChains : s'.alternativeChains = s.alternativeChains

/-- A node that starts: it has a main chain, which may be the genesis block alone, and no
alternative block. -/
structure Fresh (w : Setting ρ) (s : ChainState ρ) : Prop where
  fork : OneFork w s.hardfork
  chain : FromGenesis w s.chain
  alternativeChains : s.alternativeChains = []

/-- The states that calls of `add_new_block` lead to, with blocks in any order and with calls
inside them to any depth. -/
inductive Run (w : Setting ρ) : ChainState ρ → Prop
  | fresh {s : ChainState ρ} (h : Fresh w s) : Run w s
  | addNewBlock {s : ChainState ρ} (h : Run w s) (depth : ℕ) {b : Block} (hb : b ∈ w.blocks) :
      Run w (addNewBlock w.env depth b s).2
  | between {s s' : ChainState ρ} (h : Run w s) (hsame : SameStores s s') : Run w s'

theorem Run.kept (h : Run w s) : Kept w s ∧ SharedIn w ∅ s := by
  induction h with
  | fresh h =>
      refine ⟨⟨h.fork, h.chain, ?_⟩, ?_⟩
      · rw [h.alternativeChains]
        simp
      · rw [SharedIn, h.alternativeChains]
        simp
  | addNewBlock h depth hb ih => exact ih.1.addNewBlock ih.2 hb depth
  | between h hsame ih =>
      refine ⟨ih.1.congr hsame.hardfork hsame.chain hsame.alternativeChains, ?_⟩
      rw [SharedIn, hsame.chain, hsame.alternativeChains]
      exact ih.2

end XrCoin.Blockchain
