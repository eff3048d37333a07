import XrCoin.Crypto.Borromean
import XrCoin.Ringct.Mlsag
import XrCoin.Wallet.MultisigSign

/-!
The shares that `rct::signMultisig` adds for the wallet are those of the other signers of a ring
signature.

The wallet signs vectors, with an arithmetic of scalars that is a parameter. Over the scalars of a
curve its two equations are `Crypto.Curve.signMultisig`, with the same checks, and
`Ringct.addShareMg` for every ring signature of a transaction.
-/

namespace XrCoin.Wallet

open Archive Cryptonote

/-! ### Vectors that are changed row by row -/

section Rows

variable {α ρ : Type}

theorem getElem?_foldl_modifyVector (f : ρ → α → α) (rows : List ρ) (m : ℕ) (v : StdVector α)
    (n : ℕ) :
    ((rows.zipIdx m).foldl (fun v p => modifyVector v p.2 (f p.1)) v).toList[n]? =
      v.toList[n]?.map fun x => if m ≤ n then rows[n - m]?.elim x fun row => f row x else x := by
  induction rows generalizing m v with
  | nil =>
      have hid : (fun x : α => if m ≤ n then ([] : List ρ)[n - m]?.elim x fun row => f row x
          else x) = id := by
        funext x
        simp
      rw [hid, Option.map_id]
      rfl
  | cons row rows ih =>
      rw [List.zipIdx_cons, List.foldl_cons, ih, modifyVector, List.getElem?_modify,
        Option.map_eq_map, Option.map_map]
      refine congrArg (v.toList[n]?.map ·) (funext fun x => ?_)
      simp only [Function.comp_apply]
      rcases lt_trichotomy m n with hlt | rfl | hgt
      · have hstep : n - m = n - (m + 1) + 1 := by omega
        rw [if_pos (Nat.succ_le_of_lt hlt), if_pos hlt.le, if_neg hlt.ne, hstep,
          List.getElem?_cons_succ]
      · rw [if_neg (Nat.not_succ_le_self m), if_pos le_rfl, if_pos rfl, Nat.sub_self,
          List.getElem?_cons_zero]
        rfl
      · rw [if_neg (by omega), if_neg (Nat.not_le_of_lt hgt), if_neg hgt.ne']

theorem getElem?_signRows {indices : List ℕ} {k ch : List Key} (hk : indices.length = k.length)
    (hch : k.length = ch.length) {n : ℕ} (hn : n < indices.length) (zero : Key) :
    (signRows indices k ch)[n]? =
      some ⟨indices.getD n 0, k.getD n zero, ch.getD n zero⟩ := by
  have hn' : n < k.length := hk ▸ hn
  have hn'' : n < ch.length := hch ▸ hn'
  simp [signRows, hn, hn', hn'']

theorem toList_foldl_signRows (f : SignRow → α → α) {indices : List ℕ} {k ch : List Key}
    {v : StdVector α} (hk : indices.length = k.length) (hch : k.length = ch.length)
    (hv : k.length = v.toList.length) (zero : Key) :
    ((signRows indices k ch).zipIdx.foldl (fun v p => modifyVector v p.2 (f p.1)) v).toList =
      v.toList.mapIdx fun n x => f ⟨indices.getD n 0, k.getD n zero, ch.getD n zero⟩ x := by
  apply List.ext_getElem?
  intro n
  rw [getElem?_foldl_modifyVector, List.getElem?_mapIdx]
  by_cases hn : n < v.toList.length
  · have hrow := getElem?_signRows hk hch (hk.trans hv ▸ hn) zero
    simp only [Nat.zero_le, if_true, Nat.sub_zero, hrow, Option.elim_some]
  · rw [List.getElem?_eq_none (Nat.le_of_not_lt hn)]
    rfl

theorem modify_eq_set_getD (l : List α) (i : ℕ) (f : α → α) (d : α) :
    l.modify i f = l.set i (f (l.getD i d)) := by
  rw [List.getD_eq_getElem?_getD]
  exact @List.modify_eq_set α ⟨d⟩ f i l

theorem map_modify {β : Type} {g : α → β} {f : α → α} {f' : β → β} (h : ∀ x, g (f x) = f' (g x))
    {l : List α} {i : ℕ} : (l.modify i f).map g = (l.map g).modify i f' := by
  apply List.ext_getElem?
  intro n
  simp only [List.getElem?_map, List.getElem?_modify, Option.map_eq_map, Option.map_map]
  refine congrArg (l[n]?.map ·) (funext fun x => ?_)
  simp only [Function.comp_apply]
  split_ifs
  · exact h x
  · rfl

end Rows

/-! ### The scalars of a curve -/

variable {δ : Type} {ops : MultisigOps δ} {c : Crypto.Curve} {indices : List ℕ}
  {k ch : List Key} {skey : Key}

/-- The arithmetic of the wallet is that of the curve. -/
structure ScalarsOf (c : Crypto.Curve) (ops : MultisigOps δ) : Prop where
  scAdd : ops.scAdd = c.scAdd
  scMulsub : ops.scMulsub = c.scMulsub

theorem ScalarsOf.addShare (h : ScalarsOf c ops) (row : SignRow) (i : ℕ) (line : List Key) :
    line.modify i (fun s => ops.scAdd s (row.diff ops skey)) =
      c.addShare row.c skey row.k i line := by
  rw [modify_eq_set_getD _ _ _ Crypto.Curve.scZero, Crypto.Curve.addShare, SignRow.diff, h.scAdd,
    h.scMulsub]

def borromeanOf (bsig : BorromeanSignature) : Crypto.BorromeanSignature :=
  ⟨bsig.c, bsig.r.toList.map StdVector.toList⟩

/-- The checks of the indices are the same, and so is what a call returns. -/
theorem signMultisigBorromean_curve (h : ScalarsOf c ops) (bsig : BorromeanSignature) :
    (signMultisigBorromean ops bsig indices k ch skey).map borromeanOf =
      c.signMultisig (borromeanOf bsig) indices k ch skey := by
  have hchecks : (indices.length = k.length ∧ k.length = bsig.r.toList.length ∧
        k.length = ch.length ∧ ∀ p ∈ indices.zip bsig.r.toList, p.1 < p.2.toList.length) ↔
      (indices.length = k.length ∧ k.length = (borromeanOf bsig).r.length ∧ k.length = ch.length ∧
        ∀ n < indices.length, indices.getD n 0 < ((borromeanOf bsig).r.getD n []).length) := by
    rw [borromeanOf, List.length_map]
    refine and_congr_right fun hk => and_congr_right fun hr => and_congr_right fun _ => ?_
    constructor
    · intro hall n hn
      have hn' : n < bsig.r.toList.length := by omega
      have hlt := hall (indices[n], bsig.r.toList[n]) (List.mem_iff_getElem.mpr
        ⟨n, by rw [List.length_zip]; omega, List.getElem_zip⟩)
      simpa [List.getD_eq_getElem?_getD, hn, hn'] using hlt
    · intro hall p hp
      obtain ⟨n, hn, rfl⟩ := List.mem_iff_getElem.mp hp
      rw [List.length_zip, lt_min_iff] at hn
      have hlt := hall n hn.1
      simpa [List.getD_eq_getElem?_getD, hn.1, hn.2] using hlt
  rw [signMultisigBorromean, Crypto.Curve.signMultisig]
  by_cases hok : indices.length = k.length ∧ k.length = bsig.r.toList.length ∧
      k.length = ch.length ∧ ∀ p ∈ indices.zip bsig.r.toList, p.1 < p.2.toList.length
  · rw [if_pos hok, if_pos (hchecks.mp hok), Option.map_some, borromeanOf, borromeanOf]
    simp only
    rw [toList_foldl_signRows (fun row line => modifyVector line row.index fun s =>
        ops.scAdd s (row.diff ops skey)) hok.1 hok.2.2.1 hok.2.1 Crypto.Curve.scZero]
    refine congrArg (fun r => some (⟨bsig.c, r⟩ : Crypto.BorromeanSignature)) ?_
    apply List.ext_getElem?
    intro n
    simp only [List.getElem?_map, List.getElem?_mapIdx, Option.map_map]
    refine congrArg (bsig.r.toList[n]?.map ·) (funext fun line => ?_)
    exact h.addShare _ _ _
  · rw [if_neg hok, if_neg (hchecks.not.mp hok)]
    rfl

def mlsagOf (images : List Key) (mg : MgSig) : Ringct.MgSig :=
  ⟨mg.ss.toList.map StdVector.toList, mg.cc, images⟩

/-- A signer adds its share to every ring signature of a transaction, each with its own challenge
and nonce. -/
theorem signMultisigRct_curve (h : ScalarsOf c ops) {rv rv' : RctSig} (images : List Key)
    (hsigned : signMultisigRct ops rv indices k ch skey = some rv') :
    rv'.p.mgs.toList.map (mlsagOf images) =
      rv.p.mgs.toList.mapIdx fun n mg => Ringct.addShareMg c (indices.getD n 0)
        (ch.getD n Crypto.Curve.scZero) skey (k.getD n Crypto.Curve.scZero) (mlsagOf images mg) := by
  rw [signMultisigRct] at hsigned
  split_ifs at hsigned with hok
  obtain ⟨-, hk, hmgs, hch, -⟩ := hok
  obtain rfl := Option.some.inj hsigned
  simp only
  rw [toList_foldl_signRows (fun row mg =>
      { mg with ss := modifyVector mg.ss row.index fun line =>
          modifyVector line 0 fun s => ops.scAdd s (row.diff ops skey) }) hk hch hmgs
    Crypto.Curve.scZero]
  apply List.ext_getElem?
  intro n
  simp only [List.getElem?_map, List.getElem?_mapIdx, Option.map_map]
  refine congrArg (rv.p.mgs.toList[n]?.map ·) (funext fun mg => ?_)
  simp only [Function.comp_apply, mlsagOf, Ringct.addShareMg, Ringct.MgSig.mk.injEq, and_true]
  rw [modifyVector, ← modify_eq_set_getD _ _ (c.addShare _ skey _ 0)]
  exact map_modify fun line => h.addShare ⟨indices.getD n 0, _, _⟩ 0 line.toList

end XrCoin.Wallet
