import Mathlib
import XrCoin.Cryptonote.Hashes
import XrCoin.Data.Firsts
import XrCoin.Data.Throwing
import XrCoin.Epee.UrlFormat

/-!
`import_multisig`: the infos that the other signers exported are put into the transfers.

Of the files of one signer, by their headers, the first is taken. The infos are sorted by the
signers in their bodies. The transfers that are detached after that are found again by the rescan,
which puts the same infos into them; neither is modelled.
-/

namespace XrCoin.Wallet

open Archive Cryptonote Data Epee

structure LR where
  l : Key
  r : Key
  deriving DecidableEq

structure MultisigInfo where
  signer : PublicKey
  lr : List LR
  partialKeyImages : List KeyImage
  deriving DecidableEq

structure MultisigTransfer where
  keyImage : KeyImage
  keyImageKnown : Bool
  keyImagePartial : Bool
  multisigInfo : List MultisigInfo
  deriving DecidableEq

structure MultisigImporter where
  multisig : Bool
  signers : List PublicKey
  threshold : ℕ
  signer : PublicKey
  spendPublicKey : PublicKey
  viewPublicKey : PublicKey
  transfers : List MultisigTransfer

/-! ### Sorting -/

structure StrictWeakOn {α : Type} (less : α → α → Prop) (as : List α) : Prop where
  irrefl : ∀ a ∈ as, ¬less a a
  trans : ∀ a ∈ as, ∀ b ∈ as, ∀ c ∈ as, less a b → less b c → less a c
  incompTrans : ∀ a ∈ as, ∀ b ∈ as, ∀ c ∈ as, ¬less a b ∧ ¬less b a → ¬less b c ∧ ¬less c b →
    ¬less a c ∧ ¬less c a

structure StdSort {α : Type} (less : α → α → Prop) where
  sort : List α → List α
  sorts : ∀ as, StrictWeakOn less as →
    (sort as).Perm as ∧ (sort as).Pairwise fun a b => ¬less b a

def memcmp (a b : PublicKey) : Ordering := compareOfLessAndEq a.toList b.toList

def firstSigner (pi : List MultisigInfo) : Option PublicKey := pi.head?.map MultisigInfo.signer

/-- The comparison of the infos: the result of `memcmp` as a truth value. -/
def lessInfo (i0 i1 : List MultisigInfo) : Prop :=
  ∃ a b, firstSigner i0 = some a ∧ firstSigner i1 = some b ∧ memcmp a b ≠ .eq

/-- What the import takes from elsewhere. The composite key image is a sum over the partial images
that differ. -/
structure ImportOps where
  decryptWithViewSecretKey : List UInt8 → Except String (List UInt8)
  /-- The archive of a body. -/
  parseInfos : List UInt8 → Except String (List MultisigInfo)
  compositeKeyImage : ℕ → Finset KeyImage → Except String KeyImage
  sorting : StdSort lessInfo

variable (ops : ImportOps) (w : MultisigImporter)

/-! ### The files -/

def multisigExportFileMagic : List UInt8 := ascii "Aeon multisig export" ++ [1]

def publicKeyAt (bytes : List UInt8) (i : ℕ) : PublicKey :=
  List.Vector.ofFn fun j => bytes.getD (i + j) 0

def openFile (data : List UInt8) : Except String (PublicKey × List UInt8) := do
  throwIf (data.take multisigExportFileMagic.length ≠ multisigExportFileMagic)
    "Bad multisig info file magic in "
  let data ← ops.decryptWithViewSecretKey (data.drop multisigExportFileMagic.length)
  throwIf (data.length < 96) "Bad data size"
  throwIf (publicKeyAt data 0 ≠ w.spendPublicKey ∨ publicKeyAt data 32 ≠ w.viewPublicKey)
    "Multisig info is for a different account"
  return (publicKeyAt data 64, data.drop 96)

def gather (seen : List PublicKey) : List (List UInt8) → Except String (List (List MultisigInfo))
  | [] => .ok []
  | blob :: blobs => do
      let (signer, body) ← openFile ops w blob
      if w.signer = signer then gather seen blobs
      else if signer ∈ seen then gather seen blobs
      else do
        let i ← ops.parseInfos body
        let info ← gather (signer :: seen) blobs
        return i :: info

/-! ### The transfers -/

def nOutputs (info : List (List MultisigInfo)) : ℕ :=
  info.foldl (fun n pi => if pi.length < n then pi.length else n) w.transfers.length

def checkSigners (n : ℕ) (pi : List MultisigInfo) : Except String Unit := do
  let first ← orThrow pi.head? "undefined"
  throwIf (first.signer ∉ w.signers) "Signer is not a member of this multisig wallet"
  throwIf (∃ i ∈ (pi.take n).tail, i.signer ≠ first.signer)
    "Mismatched signers in imported multisig info"

def updateMultisigRescanInfo (info : List (List MultisigInfo)) (n : ℕ) (td : MultisigTransfer) :
    Except String MultisigTransfer := do
  let entries ← info.mapM fun pi => orThrow pi[n]? "Bad pi size"
  let keyImage ← ops.compositeKeyImage n (entries.flatMap MultisigInfo.partialKeyImages).toFinset
  return { td with
    keyImage := keyImage, keyImageKnown := true, keyImagePartial := false, multisigInfo := entries }

def RightNumber (n : ℕ) : Prop := n + 1 ≤ w.signers.length ∧ w.threshold ≤ n + 1

instance (n : ℕ) : Decidable (RightNumber w n) := inferInstanceAs (Decidable (_ ∧ _))

/-- The part behind the loop over the files: the number of transfers that are updated, and all
transfers. -/
def putInfos (info : List (List MultisigInfo)) : Except String (ℕ × List MultisigTransfer) := do
  throwIf (¬RightNumber w info.length) "Wrong number of multisig sources"
  let n := nOutputs w info
  if n = 0 then return (0, w.transfers)
  else do
    let _ ← info.mapM (checkSigners w n)
    let trimmed := info.map (List.take n)
    let sorted := if trimmed = [] then [] else ops.sorting.sort trimmed
    let transfers ← w.transfers.zipIdx.mapM fun p =>
      if p.2 < n then updateMultisigRescanInfo ops sorted p.2 p.1 else return p.1
    return (n, transfers)

def importMultisig (blobs : List (List UInt8)) : Except String (ℕ × List MultisigTransfer) := do
  throwIf (w.multisig = false) "Wallet is not multisig"
  let info ← gather ops w [] blobs
  putInfos ops w info

/-! ### What an import should do -/

/-- The infos of a transfer are sorted by signer, with one at most for each, and none of the
wallet's own. -/
def SortedBySigner (entries : List MultisigInfo) : Prop :=
  (entries.Pairwise fun a b => memcmp a.signer b.signer = .lt) ∧
    ∀ entry ∈ entries, entry.signer ≠ w.signer

/-- An import is accepted with given infos of the transfers. Those it puts in are sorted, by a
comparison that is a strict weak order. -/
def ImportsAs (blobs : List (List UInt8)) (result : List (List MultisigInfo)) : Prop :=
  ∃ n transfers, importMultisig ops w blobs = .ok (n, transfers) ∧
    transfers.map MultisigTransfer.multisigInfo = result ∧
    (∀ entries ∈ result.take n, SortedBySigner w entries) ∧
    ∀ info, gather ops w [] blobs = .ok info → 0 < n →
      StrictWeakOn lessInfo (info.map (List.take n))

def ImportsInAnyOrder (blobs : List (List UInt8)) (result : List (List MultisigInfo)) : Prop :=
  ∀ blobs', blobs'.Perm blobs → ImportsAs ops w blobs' result

/-! ### When it does -/

def foreignFiles (blobs : List (List UInt8)) : List (PublicKey × List UInt8) :=
  (blobs.filterMap fun blob => (openFile ops w blob).toOption).filter fun f => w.signer ≠ f.1

def coveredBy (pi : List MultisigInfo) : ℕ := min w.transfers.length pi.length

def entriesOf (pi : List MultisigInfo) : List (List MultisigInfo) :=
  (pi.take (coveredBy w pi)).map (fun i => [i]) ++
    (w.transfers.drop (coveredBy w pi)).map MultisigTransfer.multisigInfo

/-- The infos of a file are those of one signer, which is a member but not the wallet itself, and
give key images. -/
structure Fits (pi : List MultisigInfo) : Prop where
  member : ∀ i ∈ pi.take (coveredBy w pi), i.signer ∈ w.signers ∧ i.signer ≠ w.signer
  one : ∀ i ∈ pi.take (coveredBy w pi), ∀ j ∈ pi.take (coveredBy w pi), i.signer = j.signer
  images : ∀ n i, (pi.take (coveredBy w pi))[n]? = some i →
    ∃ image, ops.compositeKeyImage n i.partialKeyImages.toFinset = .ok image

/-- All files of the others are of one signer by their headers, and fit, and put in the same. -/
structure OneSource (files : List (PublicKey × List UInt8)) : Prop where
  header : ∀ f ∈ files, ∀ g ∈ files, f.1 = g.1
  fits : ∀ f ∈ files, ∀ i, ops.parseInfos f.2 = .ok i → Fits ops w i
  same : ∀ f ∈ files, ∀ g ∈ files, ∀ i j, ops.parseInfos f.2 = .ok i →
    ops.parseInfos g.2 = .ok j → entriesOf w i = entriesOf w j

def HasEmptySource (files : List (PublicKey × List UInt8)) : Prop :=
  ∃ f ∈ files, ∀ g ∈ files, g.1 = f.1 → ops.parseInfos g.2 = .ok []

/-! ### Sorting by a comparison that is none -/

variable {ops w}

theorem memcmp_eq_iff {a b : PublicKey} : memcmp a b = .eq ↔ a = b := by
  rw [memcmp, compareOfLessAndEq, ← List.Vector.toList_injective.eq_iff]
  split_ifs with hlt heq
  · simp only [false_iff]
    exact fun heq => List.lt_irrefl _ (heq ▸ hlt)
  · simp [heq]
  · simp [heq]

theorem lessInfo_comm {i0 i1 : List MultisigInfo} (h : lessInfo i0 i1) : lessInfo i1 i0 := by
  obtain ⟨a, b, ha, hb, hne⟩ := h
  exact ⟨b, a, hb, ha, fun heq => hne (memcmp_eq_iff.mpr (memcmp_eq_iff.mp heq).symm)⟩

theorem StrictWeakOn.firstSigner_eq {info : List (List MultisigInfo)}
    (h : StrictWeakOn lessInfo info) {i0 i1 : List MultisigInfo} (h0 : i0 ∈ info)
    (h1 : i1 ∈ info) {a b : PublicKey} (ha : firstSigner i0 = some a)
    (hb : firstSigner i1 = some b) : a = b := by
  by_contra hne
  have hless : lessInfo i0 i1 := ⟨a, b, ha, hb, fun heq => hne (memcmp_eq_iff.mp heq)⟩
  exact h.irrefl i0 h0 (h.trans i0 h0 i1 h1 i0 h0 hless (lessInfo_comm hless))

/-- One list of infos is compared with nothing but itself. -/
theorem strictWeakOn_singleton (i : List MultisigInfo) : StrictWeakOn lessInfo [i] := by
  have hirrefl : ¬lessInfo i i := by
    rintro ⟨a, b, ha, hb, hne⟩
    exact hne (memcmp_eq_iff.mpr (Option.some.inj (ha.symm.trans hb)))
  constructor
  · rintro a (_ | ⟨_, ⟨⟩⟩)
    exact hirrefl
  · rintro a (_ | ⟨_, ⟨⟩⟩) b (_ | ⟨_, ⟨⟩⟩) c (_ | ⟨_, ⟨⟩⟩) hab -
    exact hab
  · rintro a (_ | ⟨_, ⟨⟩⟩) b (_ | ⟨_, ⟨⟩⟩) c (_ | ⟨_, ⟨⟩⟩) - -
    exact ⟨hirrefl, hirrefl⟩

theorem sort_singleton (i : List MultisigInfo) : ops.sorting.sort [i] = [i] :=
  List.perm_singleton.mp (ops.sorting.sorts [i] (strictWeakOn_singleton i)).1

/-! ### The files that are taken -/

theorem foreignFiles_cons_own {blob : List UInt8} {blobs : List (List UInt8)}
    {f : PublicKey × List UInt8} (hopen : openFile ops w blob = .ok f) (hown : w.signer = f.1) :
    foreignFiles ops w (blob :: blobs) = foreignFiles ops w blobs := by
  rw [foreignFiles, List.filterMap_cons, hopen]
  simp [foreignFiles, Except.toOption, hown]

theorem foreignFiles_cons {blob : List UInt8} {blobs : List (List UInt8)}
    {f : PublicKey × List UInt8} (hopen : openFile ops w blob = .ok f) (hother : w.signer ≠ f.1) :
    foreignFiles ops w (blob :: blobs) = f :: foreignFiles ops w blobs := by
  rw [foreignFiles, List.filterMap_cons, hopen]
  simp [foreignFiles, Except.toOption, hother]

/-- All files are opened, and the bodies are those of the first files of the others. -/
theorem gather_eq_ok {seen : List PublicKey} {blobs : List (List UInt8)}
    {info : List (List MultisigInfo)} :
    gather ops w seen blobs = .ok info ↔
      (∀ blob ∈ blobs, ∃ f, openFile ops w blob = .ok f) ∧
        List.Forall₂ (fun f i => ops.parseInfos f.2 = .ok i)
          (firstsBy Prod.fst seen (foreignFiles ops w blobs)) info := by
  induction blobs generalizing seen info with
  | nil => simp [gather, foreignFiles, firstsBy, eq_comm]
  | cons blob blobs ih =>
      rw [gather, bind_eq_ok, List.forall_mem_cons]
      cases hopen : openFile ops w blob with
      | error e => simp
      | ok f =>
          obtain ⟨signer, body⟩ := f
          simp only [Except.ok.injEq, exists_eq_left']
          by_cases hown : w.signer = signer
          · rw [if_pos hown, ih, foreignFiles_cons_own hopen hown]
            simp
          · rw [if_neg hown, foreignFiles_cons hopen hown, firstsBy]
            by_cases hseen : signer ∈ seen
            · rw [if_pos hseen, if_pos hseen, ih]
              simp
            · rw [if_neg hseen, if_neg hseen, bind_eq_ok]
              simp only [bind_eq_ok, ih]
              constructor
              · rintro ⟨i, hparse, rest, ⟨hopens, hrest⟩, h⟩
                obtain rfl := Except.ok.inj h
                exact ⟨⟨by simp, hopens⟩, .cons hparse hrest⟩
              · rintro ⟨⟨-, hopens⟩, hall⟩
                obtain ⟨i, rest, hparse, hrest, rfl⟩ := List.forall₂_cons_left_iff.mp hall
                exact ⟨i, hparse, rest, ⟨hopens, hrest⟩, rfl⟩

theorem foreignFiles_perm {blobs blobs' : List (List UInt8)} (h : blobs'.Perm blobs) :
    (foreignFiles ops w blobs').Perm (foreignFiles ops w blobs) :=
  (h.filterMap _).filter _

theorem exists_perm_first {blobs : List (List UInt8)} {f : PublicKey × List UInt8}
    (h : f ∈ foreignFiles ops w blobs) :
    ∃ blobs' files, blobs'.Perm blobs ∧ foreignFiles ops w blobs' = f :: files := by
  obtain ⟨hmem, hother⟩ := List.mem_filter.mp h
  obtain ⟨blob, hblob, hopen⟩ := List.mem_filterMap.mp hmem
  refine ⟨blob :: blobs.erase blob, foreignFiles ops w (blobs.erase blob),
    (List.perm_cons_erase hblob).symm, foreignFiles_cons ?_ (by simpa using hother)⟩
  cases hfile : openFile ops w blob with
  | error e => simp [hfile, Except.toOption] at hopen
  | ok g =>
      rw [hfile] at hopen
      obtain rfl := Option.some.inj hopen
      rfl

/-! ### The infos of some files -/

theorem foldl_min_eq_zero_iff {n : ℕ} {info : List (List MultisigInfo)} :
    info.foldl (fun n pi => if pi.length < n then pi.length else n) n = 0 ↔
      n = 0 ∨ [] ∈ info := by
  induction info generalizing n with
  | nil => simp
  | cons pi info ih =>
      rw [List.foldl_cons, ih, List.mem_cons]
      by_cases hpi : pi = []
      · subst hpi
        simp
      · have hlength := List.length_pos_iff.mpr hpi
        have hstep : (if pi.length < n then pi.length else n) = 0 ↔ n = 0 := by
          split_ifs <;> omega
        rw [hstep]
        simp [Ne.symm hpi]

theorem nOutputs_eq_zero_iff {info : List (List MultisigInfo)} :
    nOutputs w info = 0 ↔ w.transfers = [] ∨ [] ∈ info := by
  rw [nOutputs, foldl_min_eq_zero_iff, List.length_eq_zero_iff]

theorem nOutputs_singleton (i : List MultisigInfo) : nOutputs w [i] = coveredBy w i := by
  rw [nOutputs, coveredBy, List.foldl_cons, List.foldl_nil]
  split_ifs <;> omega

theorem putInfos_of_zero {info : List (List MultisigInfo)}
    (hnumber : RightNumber w info.length) (hzero : nOutputs w info = 0) :
    putInfos ops w info = .ok (0, w.transfers) := by
  rw [putInfos]
  refine bind_eq_ok.mpr ⟨(), throwIf_eq_ok.mpr (not_not.mpr hnumber), ?_⟩
  dsimp only
  rw [if_pos hzero]
  rfl

theorem rightNumber_of_putInfos {info : List (List MultisigInfo)}
    {p : ℕ × List MultisigTransfer} (h : putInfos ops w info = .ok p) :
    RightNumber w info.length := by
  obtain ⟨_, hnumber, -⟩ := bind_eq_ok.mp h
  exact not_not.mp (throwIf_eq_ok.mp hnumber)

def sortedInfos (ops : ImportOps) (n : ℕ) (info : List (List MultisigInfo)) :
    List (List MultisigInfo) :=
  if info.map (List.take n) = [] then [] else ops.sorting.sort (info.map (List.take n))

theorem putInfos_of_pos {info : List (List MultisigInfo)} {p : ℕ × List MultisigTransfer}
    (hpos : nOutputs w info ≠ 0) :
    putInfos ops w info = .ok p ↔
      RightNumber w info.length ∧
        (∃ u, info.mapM (checkSigners w (nOutputs w info)) = .ok u) ∧
        p.1 = nOutputs w info ∧
        (w.transfers.zipIdx.mapM fun q =>
          if q.2 < nOutputs w info then
            updateMultisigRescanInfo ops (sortedInfos ops (nOutputs w info) info) q.2 q.1
          else return q.1) = .ok p.2 := by
  rw [putInfos, bind_eq_ok]
  simp only [throwIf_eq_ok, if_neg hpos, bind_eq_ok, sortedInfos, not_not]
  constructor
  · rintro ⟨_, hnumber, u, hcheck, transfers, htransfers, h⟩
    obtain rfl := Except.ok.inj h
    exact ⟨hnumber, ⟨u, hcheck⟩, rfl, htransfers⟩
  · rintro ⟨hnumber, ⟨u, hcheck⟩, hn, htransfers⟩
    exact ⟨(), hnumber, u, hcheck, p.2, htransfers, by rw [← hn]; rfl⟩

/-! ### One source -/

theorem checkSigners_eq_ok {n : ℕ} {pi : List MultisigInfo} (hn : 0 < n) (hpi : pi ≠ []) :
    (∃ u, checkSigners w n pi = .ok u) ↔
      (∀ i ∈ pi.take n, i.signer ∈ w.signers) ∧
        ∀ i ∈ pi.take n, ∀ j ∈ pi.take n, i.signer = j.signer := by
  cases pi with
  | nil => exact absurd rfl hpi
  | cons first rest =>
      obtain ⟨n, rfl⟩ := Nat.exists_eq_succ_of_ne_zero hn.ne'
      have hcheck : (∃ u, checkSigners w (n + 1) (first :: rest) = .ok u) ↔
          first.signer ∈ w.signers ∧ ∀ i ∈ rest.take n, i.signer = first.signer := by
        constructor
        · rintro ⟨_, h⟩
          obtain ⟨first', hfirst, h⟩ := bind_eq_ok.mp h
          obtain rfl := Option.some.inj (orThrow_eq_ok.mp hfirst)
          obtain ⟨_, hmember, h⟩ := bind_eq_ok.mp h
          have hsame := throwIf_eq_ok.mp h
          exact ⟨not_not.mp (throwIf_eq_ok.mp hmember),
            fun i hi => not_not.mp fun hne => hsame ⟨i, hi, hne⟩⟩
        · rintro ⟨hmember, hsame⟩
          refine ⟨(), bind_eq_ok.mpr ⟨first, rfl, bind_eq_ok.mpr
            ⟨(), throwIf_eq_ok.mpr (not_not.mpr hmember), throwIf_eq_ok.mpr ?_⟩⟩⟩
          rintro ⟨i, hi, hne⟩
          exact hne (hsame i hi)
      rw [Nat.succ_eq_add_one, hcheck, List.take_succ_cons]
      simp only [List.forall_mem_cons]
      constructor
      · rintro ⟨hmember, hsame⟩
        refine ⟨⟨hmember, fun i hi => hsame i hi ▸ hmember⟩, ⟨trivial, fun i hi => (hsame i hi).symm⟩,
          fun i hi => ⟨hsame i hi, fun j hj => (hsame i hi).trans (hsame j hj).symm⟩⟩
      · rintro ⟨⟨hmember, -⟩, -, hsame⟩
        exact ⟨hmember, fun i hi => (hsame i hi).1⟩

theorem coveredBy_le (pi : List MultisigInfo) :
    coveredBy w pi ≤ w.transfers.length ∧ coveredBy w pi ≤ pi.length :=
  ⟨min_le_left _ _, min_le_right _ _⟩

theorem updateMultisigRescanInfo_eq_ok {pi : List MultisigInfo} {n : ℕ}
    {td td' : MultisigTransfer} :
    updateMultisigRescanInfo ops [pi] n td = .ok td' ↔
      ∃ i image, pi[n]? = some i ∧
        ops.compositeKeyImage n i.partialKeyImages.toFinset = .ok image ∧
        td' = ⟨image, true, false, [i]⟩ := by
  rw [updateMultisigRescanInfo, bind_eq_ok]
  simp only [bind_eq_ok, mapM_eq_ok, List.forall₂_cons_left_iff, List.forall₂_nil_left_iff,
    orThrow_eq_ok]
  constructor
  · rintro ⟨_, ⟨i, _, hi, rfl, rfl⟩, image, himage, h⟩
    obtain rfl := Except.ok.inj h
    exact ⟨i, image, hi, by simpa using himage, rfl⟩
  · rintro ⟨i, image, hi, himage, rfl⟩
    exact ⟨[i], ⟨i, [], hi, rfl, rfl⟩, image, by simpa using himage, rfl⟩

theorem sortedInfos_singleton (n : ℕ) (pi : List MultisigInfo) :
    sortedInfos ops n [pi] = [pi.take n] := by
  rw [sortedInfos, List.map_singleton, if_neg (List.cons_ne_nil _ _), sort_singleton]

def putOne (ops : ImportOps) (w : MultisigImporter) (pi : List MultisigInfo)
    (q : MultisigTransfer × ℕ) : Except String MultisigTransfer :=
  if q.2 < coveredBy w pi then
    updateMultisigRescanInfo ops [pi.take (coveredBy w pi)] q.2 q.1
  else .ok q.1

theorem putInfos_singleton {pi : List MultisigInfo} {p : ℕ × List MultisigTransfer}
    (hpos : coveredBy w pi ≠ 0) :
    putInfos ops w [pi] = .ok p ↔
      RightNumber w 1 ∧
        ((∀ i ∈ pi.take (coveredBy w pi), i.signer ∈ w.signers) ∧
          ∀ i ∈ pi.take (coveredBy w pi), ∀ j ∈ pi.take (coveredBy w pi), i.signer = j.signer) ∧
        p.1 = coveredBy w pi ∧ w.transfers.zipIdx.mapM (putOne ops w pi) = .ok p.2 := by
  have hpi : pi ≠ [] := by
    rintro rfl
    simp [coveredBy] at hpos
  rw [putInfos_of_pos (by rwa [nOutputs_singleton]), nOutputs_singleton, sortedInfos_singleton,
    ← checkSigners_eq_ok (Nat.pos_of_ne_zero hpos) hpi, exists_mapM_eq_ok]
  simp only [List.length_singleton, List.mem_singleton, forall_eq]
  rfl

/-- The images of the infos are what a file has to give for the transfers it covers. -/
theorem exists_putOne_iff (pi : List MultisigInfo) :
    (∃ transfers, w.transfers.zipIdx.mapM (putOne ops w pi) = .ok transfers) ↔
      ∀ n i, (pi.take (coveredBy w pi))[n]? = some i →
        ∃ image, ops.compositeKeyImage n i.partialKeyImages.toFinset = .ok image := by
  rw [exists_mapM_eq_ok]
  constructor
  · intro h n i hi
    have hn : n < coveredBy w pi := by
      have hlt := (List.getElem?_eq_some_iff.mp hi).1
      rw [List.length_take] at hlt
      omega
    have hlength : n < w.transfers.length := hn.trans_le (coveredBy_le pi).1
    obtain ⟨td', htd'⟩ := h (w.transfers[n], n)
      (List.mem_zipIdx_iff_getElem?.mpr (List.getElem?_eq_getElem hlength))
    rw [putOne, if_pos hn, updateMultisigRescanInfo_eq_ok] at htd'
    obtain ⟨i', image, hi', himage, -⟩ := htd'
    obtain rfl := Option.some.inj (hi.symm.trans hi')
    exact ⟨image, himage⟩
  · rintro h ⟨td, n⟩ -
    rw [putOne]
    split_ifs with hn
    · have hlength : n < (pi.take (coveredBy w pi)).length := by
        rw [List.length_take]
        exact lt_min hn (hn.trans_le (coveredBy_le pi).2)
      obtain ⟨image, himage⟩ := h n _ (List.getElem?_eq_getElem hlength)
      exact ⟨_, updateMultisigRescanInfo_eq_ok.mpr
        ⟨_, image, List.getElem?_eq_getElem hlength, himage, rfl⟩⟩
    · exact ⟨td, rfl⟩

/-- The infos of the transfers are then those of the file, and the old ones behind them. -/
theorem map_putOne {pi : List MultisigInfo} {transfers : List MultisigTransfer}
    (h : w.transfers.zipIdx.mapM (putOne ops w pi) = .ok transfers) :
    transfers.map MultisigTransfer.multisigInfo = entriesOf w pi := by
  have hall := List.forall₂_iff_get.mp (mapM_eq_ok.mp h)
  obtain ⟨hlength, hget⟩ := hall
  rw [List.length_zipIdx] at hlength
  have hcovered : (pi.take (coveredBy w pi)).length = coveredBy w pi := by
    rw [List.length_take, min_eq_left (coveredBy_le pi).2]
  apply List.ext_getElem
  · rw [entriesOf, List.length_map, List.length_append, List.length_map, List.length_map, hcovered,
      List.length_drop, ← hlength]
    have hle := (coveredBy_le (w := w) pi).1
    omega
  · intro n hn hn'
    rw [List.length_map] at hn
    have hplace : n < w.transfers.length := hlength ▸ hn
    have hput := hget n (by rwa [List.length_zipIdx]) hn
    simp only [List.get_eq_getElem, List.getElem_zipIdx, Nat.zero_add, putOne] at hput
    simp only [List.getElem_map, entriesOf]
    split_ifs at hput with hcover
    · obtain ⟨i, image, hi, -, htd⟩ := updateMultisigRescanInfo_eq_ok.mp hput
      have hi' := (List.getElem?_eq_some_iff.mp hi).2
      rw [List.getElem_append_left (by rw [List.length_map, hcovered]; exact hcover),
        List.getElem_map, hi', htd]
    · rw [List.getElem_append_right (by rw [List.length_map, hcovered]; omega), List.getElem_map,
        List.getElem_drop, ← Except.ok.inj hput]
      congr 2
      rw [List.length_map, hcovered]
      omega

theorem importMultisig_eq_ok {blobs : List (List UInt8)} {p : ℕ × List MultisigTransfer} :
    importMultisig ops w blobs = .ok p ↔
      w.multisig = true ∧ ∃ info, gather ops w [] blobs = .ok info ∧
        putInfos ops w info = .ok p := by
  rw [importMultisig, bind_eq_ok]
  simp only [throwIf_eq_ok, bind_eq_ok]
  constructor
  · rintro ⟨_, hmultisig, info, hinfo⟩
    exact ⟨by simpa using hmultisig, info, hinfo⟩
  · rintro ⟨hmultisig, info, hinfo⟩
    exact ⟨(), by simp [hmultisig], info, hinfo⟩

theorem importsAs_of_fits {blobs : List (List UInt8)} {i : List MultisigInfo}
    (hmultisig : w.multisig = true) (hnumber : RightNumber w 1)
    (hgather : gather ops w [] blobs = .ok [i]) (hfits : Fits ops w i) :
    ImportsAs ops w blobs (entriesOf w i) := by
  have hweak (n : ℕ) (info : List (List MultisigInfo)) (hinfo : gather ops w [] blobs = .ok info) :
      StrictWeakOn lessInfo (info.map (List.take n)) := by
    obtain rfl := Except.ok.inj (hgather.symm.trans hinfo)
    exact strictWeakOn_singleton _
  by_cases hzero : coveredBy w i = 0
  · have hput := @putInfos_of_zero ops w [i] hnumber (by rwa [nOutputs_singleton])
    refine ⟨0, w.transfers, importMultisig_eq_ok.mpr ⟨hmultisig, [i], hgather, hput⟩, ?_, by simp,
      fun info hinfo _ => hweak 0 info hinfo⟩
    simp [entriesOf, hzero]
  · obtain ⟨transfers, htransfers⟩ := (exists_putOne_iff i).mpr hfits.images
    have hput : putInfos ops w [i] = .ok (coveredBy w i, transfers) :=
      (putInfos_singleton hzero).mpr
        ⟨hnumber, ⟨fun j hj => (hfits.member j hj).1, hfits.one⟩, rfl, htransfers⟩
    refine ⟨coveredBy w i, transfers,
      importMultisig_eq_ok.mpr ⟨hmultisig, [i], hgather, hput⟩, map_putOne htransfers, ?_,
      fun info hinfo _ => hweak _ info hinfo⟩
    intro entries hentries
    have hcovered : (i.take (coveredBy w i)).length = coveredBy w i := by
      rw [List.length_take, min_eq_left (coveredBy_le i).2]
    rw [entriesOf, List.take_left' (by rw [List.length_map, hcovered])] at hentries
    obtain ⟨j, hj, rfl⟩ := List.mem_map.mp hentries
    refine ⟨List.pairwise_singleton _ _, fun entry hentry => ?_⟩
    obtain rfl := List.mem_singleton.mp hentry
    exact (hfits.member entry hj).2

theorem fits_of_importsAs {blobs : List (List UInt8)} {i : List MultisigInfo}
    {result : List (List MultisigInfo)} (hgather : gather ops w [] blobs = .ok [i])
    (h : ImportsAs ops w blobs result) : Fits ops w i ∧ entriesOf w i = result := by
  obtain ⟨n, transfers, himport, rfl, hsorted, -⟩ := h
  obtain ⟨-, info, hinfo, hput⟩ := importMultisig_eq_ok.mp himport
  obtain rfl := Except.ok.inj (hgather.symm.trans hinfo)
  by_cases hzero : coveredBy w i = 0
  · have hnone := @putInfos_of_zero ops w [i] (rightNumber_of_putInfos hput)
      (by rwa [nOutputs_singleton])
    obtain ⟨-, rfl⟩ := Prod.mk.inj (Except.ok.inj (hput.symm.trans hnone))
    constructor
    · constructor <;> simp [hzero]
    · simp [entriesOf, hzero]
  · obtain ⟨-, ⟨hmember, hone⟩, rfl, htransfers⟩ := (putInfos_singleton hzero).mp hput
    have hentries := map_putOne htransfers
    refine ⟨⟨fun j hj => ⟨hmember j hj, ?_⟩, hone, ?_⟩, hentries.symm⟩
    · have hcovered : (i.take (coveredBy w i)).length = coveredBy w i := by
        rw [List.length_take, min_eq_left (coveredBy_le i).2]
      rw [hentries, entriesOf, List.take_left' (by rw [List.length_map, hcovered])] at hsorted
      exact (hsorted [j] (List.mem_map_of_mem hj)).2 j (List.mem_singleton_self j)
    · exact (exists_putOne_iff i).mp ⟨transfers, htransfers⟩

/-! ### Several sources -/

theorem not_importsAs_of_two {blobs : List (List UInt8)} {info : List (List MultisigInfo)}
    {result : List (List MultisigInfo)} (hgather : gather ops w [] blobs = .ok info)
    (htransfers : w.transfers ≠ []) (hfull : [] ∉ info) (htwo : 2 ≤ info.length) :
    ¬ImportsAs ops w blobs result := by
  rintro ⟨n, transfers, himport, rfl, hsorted, hweak⟩
  obtain ⟨-, info', hinfo, hput⟩ := importMultisig_eq_ok.mp himport
  obtain rfl := Except.ok.inj (hgather.symm.trans hinfo)
  have hpos : nOutputs w info ≠ 0 := by
    rw [ne_eq, nOutputs_eq_zero_iff, not_or]
    exact ⟨htransfers, hfull⟩
  obtain ⟨-, -, rfl, hupdate⟩ := (putInfos_of_pos hpos).mp hput
  have horder := hweak info hgather (Nat.pos_of_ne_zero hpos)
  -- the infos of the first transfer
  obtain ⟨td, tds, htds⟩ := List.exists_cons_of_ne_nil htransfers
  rw [htds, List.zipIdx_cons, mapM_eq_ok, List.forall₂_cons_left_iff] at hupdate
  obtain ⟨td', tds', htd', -, rfl⟩ := hupdate
  rw [if_pos (Nat.pos_of_ne_zero hpos), updateMultisigRescanInfo, bind_eq_ok] at htd'
  obtain ⟨entries, hentries, htd'⟩ := htd'
  obtain ⟨_, -, htd'⟩ := bind_eq_ok.mp htd'
  obtain rfl := Except.ok.inj htd'
  rw [mapM_eq_ok] at hentries
  have hfirst : SortedBySigner w entries := by
    apply hsorted
    obtain ⟨k, hk⟩ := Nat.exists_eq_succ_of_ne_zero hpos
    rw [hk]
    exact List.mem_cons_self
  -- as many as there are sources
  have htrimmed : info.map (List.take (nOutputs w info)) ≠ [] := by
    rw [ne_eq, List.map_eq_nil_iff]
    rintro rfl
    simp at htwo
  have hperm : (sortedInfos ops (nOutputs w info) info).Perm
      (info.map (List.take (nOutputs w info))) := by
    rw [sortedInfos, if_neg htrimmed]
    exact (ops.sorting.sorts _ horder).1
  have hlength : 2 ≤ (sortedInfos ops (nOutputs w info) info).length := by
    rwa [hperm.length_eq, List.length_map]
  rcases hsortedInfos : sortedInfos ops (nOutputs w info) info with _ | ⟨i0, _ | ⟨i1, rest⟩⟩
  · rw [hsortedInfos] at hlength
    simp at hlength
  · rw [hsortedInfos] at hlength
    simp at hlength
  · rw [hsortedInfos] at hentries hperm
    obtain ⟨e0, entries, he0, hbehind, rfl⟩ := List.forall₂_cons_left_iff.mp hentries
    obtain ⟨e1, entries, he1, -, rfl⟩ := List.forall₂_cons_left_iff.mp hbehind
    have hsigner {i : List MultisigInfo} {e : MultisigInfo}
        (he : orThrow i[0]? "Bad pi size" = .ok e) : firstSigner i = some e.signer := by
      rw [firstSigner, List.head?_eq_getElem?, orThrow_eq_ok.mp he, Option.map_some]
    have hsame := horder.firstSigner_eq (hperm.subset List.mem_cons_self)
      (hperm.subset (List.mem_cons_of_mem _ List.mem_cons_self)) (hsigner he0) (hsigner he1)
    have hlt := List.rel_of_pairwise_cons hfirst.1 List.mem_cons_self
    rw [memcmp_eq_iff.mpr hsame] at hlt
    cases hlt

theorem mem_foreignFiles {blobs : List (List UInt8)} {f : PublicKey × List UInt8} :
    f ∈ foreignFiles ops w blobs ↔
      (∃ blob ∈ blobs, openFile ops w blob = .ok f) ∧ w.signer ≠ f.1 := by
  rw [foreignFiles, List.mem_filter, List.mem_filterMap, decide_eq_true_eq]
  have hopen (blob : List UInt8) :
      (openFile ops w blob).toOption = some f ↔ openFile ops w blob = .ok f := by
    cases openFile ops w blob <;> simp [Except.toOption]
  simp only [hopen]

open Classical in
/-- The files with infos can be in front of the others. -/
theorem exists_perm_full {blobs : List (List UInt8)}
    (hempty : ¬HasEmptySource ops (foreignFiles ops w blobs)) :
    ∃ blobs', blobs'.Perm blobs ∧
      ∀ f ∈ firstsBy Prod.fst [] (foreignFiles ops w blobs'), ops.parseInfos f.2 ≠ .ok [] := by
  let full (blob : List UInt8) : Prop :=
    ∃ f, openFile ops w blob = .ok f ∧ ops.parseInfos f.2 ≠ .ok []
  have hperm := List.filter_append_perm (fun blob => decide (full blob)) blobs
  refine ⟨_, hperm, ?_⟩
  have happend : foreignFiles ops w (blobs.filter (fun blob => decide (full blob)) ++
      blobs.filter fun blob => !decide (full blob)) =
        foreignFiles ops w (blobs.filter fun blob => decide (full blob)) ++
          foreignFiles ops w (blobs.filter fun blob => !decide (full blob)) := by
    rw [foreignFiles, List.filterMap_append, List.filter_append]
    rfl
  rw [happend, firstsBy_append]
  · intro f hf
    obtain ⟨⟨blob, hblob, hopen⟩, -⟩ := mem_foreignFiles.mp ((firstsBy_sublist _ _).subset hf)
    obtain ⟨g, hg, hfull⟩ := of_decide_eq_true (List.mem_filter.mp hblob).2
    obtain rfl := Except.ok.inj (hopen.symm.trans hg)
    exact hfull
  · intro f hf
    right
    -- the signer of the file has one with infos
    obtain ⟨⟨blob, hblob, hopen⟩, hother⟩ := mem_foreignFiles.mp hf
    have hmem : f ∈ foreignFiles ops w blobs :=
      mem_foreignFiles.mpr ⟨⟨blob, List.mem_of_mem_filter hblob, hopen⟩, hother⟩
    have hsome : ∃ g ∈ foreignFiles ops w blobs, g.1 = f.1 ∧ ops.parseInfos g.2 ≠ .ok [] := by
      by_contra hnone
      push Not at hnone
      exact hempty ⟨f, hmem, hnone⟩
    obtain ⟨g, hg, hheader, hfull⟩ := hsome
    obtain ⟨⟨blob', hblob', hopen'⟩, hother'⟩ := mem_foreignFiles.mp hg
    refine List.mem_map.mpr ⟨g, mem_foreignFiles.mpr ⟨⟨blob', ?_, hopen'⟩, hother'⟩, hheader⟩
    exact List.mem_filter.mpr ⟨hblob', decide_eq_true ⟨g, hopen', hfull⟩⟩

/-! ### The order of the files -/

theorem firstsBy_of_one {f : PublicKey × List UInt8} {files : List (PublicKey × List UInt8)}
    (h : ∀ g ∈ files, g.1 = f.1) : firstsBy Prod.fst [] (f :: files) = [f] := by
  rw [firstsBy, if_neg List.not_mem_nil]
  have hnothing := @firstsBy_append _ _ _ Prod.fst [f.1] [] files
    fun g hg => .inl (List.mem_singleton.mpr (h g hg))
  rw [List.nil_append] at hnothing
  rw [hnothing]
  rfl

theorem gather_first {blobs : List (List UInt8)} {f : PublicKey × List UInt8}
    {files : List (PublicKey × List UInt8)} {info : List (List MultisigInfo)}
    (hfiles : foreignFiles ops w blobs = f :: files) (h : gather ops w [] blobs = .ok info) :
    ∃ i, ops.parseInfos f.2 = .ok i := by
  have hall := (gather_eq_ok.mp h).2
  rw [hfiles, firstsBy, if_neg List.not_mem_nil] at hall
  obtain ⟨i, _, hparse, -, -⟩ := List.forall₂_cons_left_iff.mp hall
  exact ⟨i, hparse⟩

theorem gather_one {blobs : List (List UInt8)} {f : PublicKey × List UInt8}
    {files : List (PublicKey × List UInt8)} {i : List MultisigInfo}
    (hopen : ∀ blob ∈ blobs, ∃ f, openFile ops w blob = .ok f)
    (hfiles : foreignFiles ops w blobs = f :: files) (hheader : ∀ g ∈ files, g.1 = f.1)
    (hparse : ops.parseInfos f.2 = .ok i) : gather ops w [] blobs = .ok [i] := by
  refine gather_eq_ok.mpr ⟨hopen, ?_⟩
  rw [hfiles, firstsBy_of_one hheader]
  exact .cons hparse .nil

theorem one_lt_length_of_ne {l : List PublicKey} {a b : PublicKey} (ha : a ∈ l) (hb : b ∈ l)
    (hne : a ≠ b) : 2 ≤ l.length := by
  have hcard : 1 < l.toFinset.card :=
    Finset.one_lt_card.mpr ⟨a, List.mem_toFinset.mpr ha, b, List.mem_toFinset.mpr hb, hne⟩
  exact hcard.trans_le l.toFinset_card_le

theorem putInfos_nil {n : ℕ} {transfers : List MultisigTransfer}
    (h : putInfos ops w [] = .ok (n, transfers)) :
    ∀ entries ∈ (transfers.map MultisigTransfer.multisigInfo).take n, entries = [] := by
  by_cases hzero : nOutputs w [] = 0
  · have hput := @putInfos_of_zero ops w [] (rightNumber_of_putInfos h) hzero
    obtain ⟨rfl, -⟩ := Prod.mk.inj (Except.ok.inj (h.symm.trans hput))
    simp
  · obtain ⟨-, -, -, hupdate⟩ := (putInfos_of_pos hzero).mp h
    intro entries hentries
    obtain ⟨td, htd, rfl⟩ := List.mem_map.mp (List.mem_of_mem_take hentries)
    obtain ⟨k, hk⟩ := List.mem_iff_get.mp htd
    obtain ⟨hlength, hget⟩ := List.forall₂_iff_get.mp (mapM_eq_ok.mp hupdate)
    have hplace : k.val < w.transfers.zipIdx.length := by
      rw [hlength]
      exact k.isLt
    have hput := hget k.val hplace k.isLt
    have hcover : k.val < nOutputs w [] := by
      rw [List.length_zipIdx] at hplace
      exact hplace
    simp only [List.get_eq_getElem, List.getElem_zipIdx, Nat.zero_add, if_pos hcover] at hput
    obtain ⟨entries, hentries', hput⟩ := bind_eq_ok.mp hput
    obtain ⟨image, -, hput⟩ := bind_eq_ok.mp hput
    rw [← hk, List.get_eq_getElem, ← Except.ok.inj hput]
    exact (Except.ok.inj hentries').symm

/-- The files can be imported in every order. -/
theorem exists_gather {blobs blobs' : List (List UInt8)} {info : List (List MultisigInfo)}
    (hperm : blobs'.Perm blobs) (h : gather ops w [] blobs = .ok info)
    (hparse : ∀ f ∈ foreignFiles ops w blobs, ∃ i, ops.parseInfos f.2 = .ok i) :
    ∃ info', gather ops w [] blobs' = .ok info' ∧ info'.length = info.length := by
  obtain ⟨hopen, hall⟩ := gather_eq_ok.mp h
  have hfiles := @foreignFiles_perm ops w _ _ hperm
  obtain ⟨info', hinfo'⟩ := exists_mapM_eq_ok.mpr
    fun f hf => hparse f (hfiles.subset ((@firstsBy_sublist _ _ _ Prod.fst [] _).subset hf))
  have hall' := mapM_eq_ok.mp hinfo'
  refine ⟨info', gather_eq_ok.mpr ⟨fun blob hblob => hopen blob (hperm.subset hblob), hall'⟩, ?_⟩
  rw [← hall'.length_eq, ← hall.length_eq]
  exact length_firstsBy_perm hfiles

theorem exists_of_mem_left {α β : Type} {r : α → β → Prop} {as : List α} {bs : List β}
    (h : List.Forall₂ r as bs) {a : α} (ha : a ∈ as) : ∃ b ∈ bs, r a b := by
  induction h with
  | nil => cases ha
  | cons hr _ ih =>
      rcases List.mem_cons.mp ha with rfl | ha
      · exact ⟨_, List.mem_cons_self, hr⟩
      · obtain ⟨b, hb, hrb⟩ := ih ha
        exact ⟨b, List.mem_cons_of_mem _ hb, hrb⟩

theorem mem_gathered {blobs : List (List UInt8)} {info : List (List MultisigInfo)}
    (h : gather ops w [] blobs = .ok info)
    (hempty : HasEmptySource ops (foreignFiles ops w blobs)) : [] ∈ info := by
  obtain ⟨f, hf, hnone⟩ := hempty
  have hmem : f.1 ∈ (firstsBy Prod.fst [] (foreignFiles ops w blobs)).map Prod.fst :=
    mem_map_firstsBy.mpr ⟨List.mem_map_of_mem hf, List.not_mem_nil⟩
  obtain ⟨g, hg, hheader⟩ := List.mem_map.mp hmem
  obtain ⟨i, hi, hparse⟩ := exists_of_mem_left (gather_eq_ok.mp h).2 hg
  have hnil := hnone g ((firstsBy_sublist _ _).subset hg) hheader
  exact Except.ok.inj (hparse.symm.trans hnil) ▸ hi

theorem importsAs_of_zero {blobs' : List (List UInt8)} {info info' : List (List MultisigInfo)}
    {n : ℕ} {transfers : List MultisigTransfer} (hmultisig : w.multisig = true)
    (hput : putInfos ops w info = .ok (n, transfers))
    (hgather' : gather ops w [] blobs' = .ok info') (hlength : info'.length = info.length)
    (hzero : nOutputs w info = 0) (hzero' : nOutputs w info' = 0) :
    ImportsAs ops w blobs' (transfers.map MultisigTransfer.multisigInfo) := by
  have hnumber := rightNumber_of_putInfos hput
  have hput' := @putInfos_of_zero ops w info' (hlength ▸ hnumber) hzero'
  obtain ⟨rfl, rfl⟩ := Prod.mk.inj
    (Except.ok.inj (hput.symm.trans (putInfos_of_zero hnumber hzero)))
  exact ⟨0, w.transfers, importMultisig_eq_ok.mpr ⟨hmultisig, info', hgather', hput'⟩, rfl,
    by simp, fun _ _ hpos => absurd hpos (lt_irrefl 0)⟩

theorem header_of_anyOrder {blobs : List (List UInt8)} {info : List (List MultisigInfo)}
    {result : List (List MultisigInfo)} (hany : ImportsInAnyOrder ops w blobs result)
    (hgather : gather ops w [] blobs = .ok info)
    (hparse : ∀ f ∈ foreignFiles ops w blobs, ∃ i, ops.parseInfos f.2 = .ok i)
    (htransfers : w.transfers ≠ []) (hempty : ¬HasEmptySource ops (foreignFiles ops w blobs)) :
    ∀ f ∈ foreignFiles ops w blobs, ∀ g ∈ foreignFiles ops w blobs, f.1 = g.1 := by
  intro f hf g hg
  by_contra hne
  -- two signers, each with infos in front of its empty files
  obtain ⟨blobs', hperm, hfull⟩ := exists_perm_full hempty
  obtain ⟨info', hgather', -⟩ := exists_gather hperm hgather hparse
  have hall := (gather_eq_ok.mp hgather').2
  have hmem : ∀ k ∈ foreignFiles ops w blobs,
      k.1 ∈ (firstsBy Prod.fst [] (foreignFiles ops w blobs')).map Prod.fst := fun k hk =>
    mem_map_firstsBy.mpr
      ⟨List.mem_map_of_mem ((foreignFiles_perm hperm).symm.subset hk), List.not_mem_nil⟩
  have htwo := one_lt_length_of_ne (hmem f hf) (hmem g hg) hne
  rw [List.length_map, hall.length_eq] at htwo
  refine not_importsAs_of_two hgather' htransfers ?_ htwo (hany blobs' hperm)
  intro hnil
  obtain ⟨k, hk, hkparse⟩ := exists_of_mem_left hall.flip hnil
  exact hfull k hk hkparse

theorem oneSource_of_anyOrder {blobs : List (List UInt8)} {info : List (List MultisigInfo)}
    {result : List (List MultisigInfo)} (hany : ImportsInAnyOrder ops w blobs result)
    (hgather : gather ops w [] blobs = .ok info)
    (hheader : ∀ f ∈ foreignFiles ops w blobs, ∀ g ∈ foreignFiles ops w blobs, f.1 = g.1) :
    OneSource ops w (foreignFiles ops w blobs) := by
  have hopen := (gather_eq_ok.mp hgather).1
  -- each file is imported alone in an order that begins with it
  have hfits : ∀ f ∈ foreignFiles ops w blobs, ∀ i, ops.parseInfos f.2 = .ok i →
      Fits ops w i ∧ entriesOf w i = result := by
    intro f hf i hi
    obtain ⟨blobs', files, hperm, hfiles⟩ := exists_perm_first hf
    refine fits_of_importsAs (gather_one (fun blob hblob => hopen blob (hperm.subset hblob))
      hfiles (fun g hg => ?_) hi) (hany blobs' hperm)
    have hmem : g ∈ foreignFiles ops w blobs :=
      (foreignFiles_perm hperm).subset (hfiles ▸ List.mem_cons_of_mem f hg)
    exact hheader g hmem f hf
  exact ⟨hheader, fun f hf i hi => (hfits f hf i hi).1,
    fun f hf g hg i j hi hj => (hfits f hf i hi).2.trans (hfits g hg j hj).2.symm⟩

/-- Without files of others nothing is put in, in every order. -/
theorem importsAs_of_none {blobs blobs' : List (List UInt8)} {n : ℕ}
    {transfers : List MultisigTransfer} (h : importMultisig ops w blobs = .ok (n, transfers))
    (hperm : blobs'.Perm blobs) (hfiles : foreignFiles ops w blobs = []) :
    ImportsAs ops w blobs' (transfers.map MultisigTransfer.multisigInfo) := by
  obtain ⟨hmultisig, info, hgather, hput⟩ := importMultisig_eq_ok.mp h
  obtain ⟨hopen, hall⟩ := gather_eq_ok.mp hgather
  have hfiles' : foreignFiles ops w blobs' = [] :=
    List.perm_nil.mp (hfiles ▸ foreignFiles_perm hperm)
  rw [hfiles] at hall
  obtain rfl := List.forall₂_nil_left_iff.mp hall
  have hgather' : gather ops w [] blobs' = .ok [] := by
    refine gather_eq_ok.mpr ⟨fun blob hblob => hopen blob (hperm.subset hblob), ?_⟩
    rw [hfiles']
    exact .nil
  refine ⟨n, transfers, importMultisig_eq_ok.mpr ⟨hmultisig, [], hgather', hput⟩, rfl,
    fun entries hentries => ?_, fun info hinfo _ => ?_⟩
  · rw [putInfos_nil hput entries hentries]
    exact ⟨.nil, by simp⟩
  · obtain rfl := Except.ok.inj (hgather'.symm.trans hinfo)
    constructor <;> simp

theorem importsAs_of_oneSource {blobs blobs' : List (List UInt8)} {n : ℕ}
    {transfers : List MultisigTransfer} (h : importMultisig ops w blobs = .ok (n, transfers))
    (hperm : blobs'.Perm blobs) {g : PublicKey × List UInt8}
    {files : List (PublicKey × List UInt8)} (hfiles : foreignFiles ops w blobs = g :: files)
    (hparse : ∀ f ∈ foreignFiles ops w blobs, ∃ i, ops.parseInfos f.2 = .ok i)
    (hone : OneSource ops w (foreignFiles ops w blobs)) :
    ImportsAs ops w blobs' (transfers.map MultisigTransfer.multisigInfo) := by
  obtain ⟨hmultisig, info, hgather, hput⟩ := importMultisig_eq_ok.mp h
  have hopen := (gather_eq_ok.mp hgather).1
  have hg : g ∈ foreignFiles ops w blobs := hfiles ▸ List.mem_cons_self
  obtain ⟨j, hj⟩ := hparse g hg
  have hgathered := gather_one hopen hfiles
    (fun f hf => hone.header f (hfiles ▸ List.mem_cons_of_mem g hf) g hg) hj
  obtain rfl := Except.ok.inj (hgather.symm.trans hgathered)
  -- the file that is taken in the other order
  obtain ⟨f, files', hfiles'⟩ : ∃ f files', foreignFiles ops w blobs' = f :: files' := by
    apply List.exists_cons_of_ne_nil
    intro hnil
    have hnone := @foreignFiles_perm ops w _ _ hperm
    rw [hnil, hfiles] at hnone
    exact List.cons_ne_nil _ _ (List.nil_perm.mp hnone)
  have hmem : ∀ k ∈ f :: files', k ∈ foreignFiles ops w blobs := fun k hk =>
    (foreignFiles_perm hperm).subset (hfiles' ▸ hk)
  have hf := hmem f List.mem_cons_self
  obtain ⟨i, hi⟩ := hparse f hf
  have hgathered' := gather_one (fun blob hblob => hopen blob (hperm.subset hblob)) hfiles'
    (fun k hk => hone.header k (hmem k (List.mem_cons_of_mem _ hk)) f hf) hi
  have hnumber := rightNumber_of_putInfos hput
  have hresult : entriesOf w j = transfers.map MultisigTransfer.multisigInfo := by
    by_cases hzero : coveredBy w j = 0
    · have hput' := @putInfos_of_zero ops w [j] hnumber (by rwa [nOutputs_singleton])
      obtain ⟨-, rfl⟩ := Prod.mk.inj (Except.ok.inj (hput.symm.trans hput'))
      simp [entriesOf, hzero]
    · exact (map_putOne ((putInfos_singleton hzero).mp hput).2.2.2).symm
  rw [← hresult, hone.same g hg f hf j i hj hi]
  exact importsAs_of_fits hmultisig hnumber hgathered' (hone.fits f hf i hi)

/-- Files that were accepted are imported alike in every order exactly if all bodies of the
others can be read, and the wallet has no transfers, or all files of some other signer are empty,
or all files of the others are of one signer and put in the same infos of one other member. -/
theorem importMultisig_iff {blobs : List (List UInt8)} {n : ℕ}
    {transfers : List MultisigTransfer} (h : importMultisig ops w blobs = .ok (n, transfers)) :
    ImportsInAnyOrder ops w blobs (transfers.map MultisigTransfer.multisigInfo) ↔
      (∀ f ∈ foreignFiles ops w blobs, ∃ i, ops.parseInfos f.2 = .ok i) ∧
        (w.transfers = [] ∨ HasEmptySource ops (foreignFiles ops w blobs) ∨
          OneSource ops w (foreignFiles ops w blobs)) := by
  obtain ⟨hmultisig, info, hgather, hput⟩ := importMultisig_eq_ok.mp h
  constructor
  · intro hany
    have hparse : ∀ f ∈ foreignFiles ops w blobs, ∃ i, ops.parseInfos f.2 = .ok i := by
      intro f hf
      obtain ⟨blobs', files, hperm, hfiles⟩ := exists_perm_first hf
      obtain ⟨_, _, himport, -⟩ := hany blobs' hperm
      obtain ⟨-, info', hgather', -⟩ := importMultisig_eq_ok.mp himport
      exact gather_first hfiles hgather'
    refine ⟨hparse, ?_⟩
    by_contra hnone
    obtain ⟨htransfers, hnone⟩ := not_or.mp hnone
    obtain ⟨hempty, hnone⟩ := not_or.mp hnone
    exact hnone (oneSource_of_anyOrder hany hgather
      (header_of_anyOrder hany hgather hparse htransfers hempty))
  · rintro ⟨hparse, hcondition⟩ blobs' hperm
    obtain ⟨info', hgather', hlength⟩ := exists_gather hperm hgather hparse
    rcases hcondition with htransfers | hempty | hone
    · exact importsAs_of_zero hmultisig hput hgather' hlength
        (nOutputs_eq_zero_iff.mpr (.inl htransfers)) (nOutputs_eq_zero_iff.mpr (.inl htransfers))
    · have hempty' : HasEmptySource ops (foreignFiles ops w blobs') := by
        obtain ⟨f, hf, hnone⟩ := hempty
        exact ⟨f, (foreignFiles_perm hperm).symm.subset hf,
          fun g hg => hnone g ((foreignFiles_perm hperm).subset hg)⟩
      exact importsAs_of_zero hmultisig hput hgather' hlength
        (nOutputs_eq_zero_iff.mpr (.inr (mem_gathered hgather hempty)))
        (nOutputs_eq_zero_iff.mpr (.inr (mem_gathered hgather' hempty')))
    · rcases hfiles : foreignFiles ops w blobs with _ | ⟨g, files⟩
      · exact importsAs_of_none h hperm hfiles
      · exact importsAs_of_oneSource h hperm hfiles hparse hone

/-! ### Two other signers -/

/-- The two signers are sorted apart in the order opposite to that of the files. -/
def sampleImportOps : ImportOps where
  decryptWithViewSecretKey := .ok
  parseInfos body := .ok (body.map fun b => ⟨List.Vector.replicate 32 b, [], []⟩)
  compositeKeyImage _ _ := .ok (List.Vector.replicate 32 0)
  sorting :=
    { sort := List.reverse
      sorts := fun as h => by
        refine ⟨as.reverse_perm, ?_⟩
        rw [List.pairwise_reverse]
        refine List.pairwise_of_forall_mem_list fun i hi j hj hless => ?_
        exact h.irrefl i hi (h.trans i hi j hj i hi hless (lessInfo_comm hless)) }

def sampleImporter : MultisigImporter where
  multisig := true
  signers := [List.Vector.replicate 32 1, List.Vector.replicate 32 2, List.Vector.replicate 32 3]
  threshold := 2
  signer := List.Vector.replicate 32 1
  spendPublicKey := List.Vector.replicate 32 0
  viewPublicKey := List.Vector.replicate 32 0
  transfers := [⟨List.Vector.replicate 32 0, false, true, []⟩]

def sampleFile (signer : UInt8) : List UInt8 :=
  multisigExportFileMagic ++ List.replicate 64 0 ++ List.replicate 32 signer ++ [signer]

def sampleImported (signers : List UInt8) : List MultisigTransfer :=
  [⟨List.Vector.replicate 32 0, true, false,
    signers.map fun b => ⟨List.Vector.replicate 32 b, [], []⟩⟩]

theorem foreignFiles_own :
    foreignFiles sampleImportOps sampleImporter [sampleFile 2, sampleFile 1] =
      [(List.Vector.replicate 32 2, [2])] := rfl

theorem foreignFiles_two :
    foreignFiles sampleImportOps sampleImporter [sampleFile 2, sampleFile 3] =
      [(List.Vector.replicate 32 2, [2]), (List.Vector.replicate 32 3, [3])] := rfl

theorem oneSource_own : OneSource sampleImportOps sampleImporter
    [(List.Vector.replicate 32 2, [2])] where
  header f hf g hg := by rw [List.mem_singleton.mp hf, List.mem_singleton.mp hg]
  fits f hf i hi := by
    obtain rfl := List.mem_singleton.mp hf
    obtain rfl := Except.ok.inj hi
    exact ⟨by decide, by decide, fun n i _ => ⟨_, rfl⟩⟩
  same f hf g hg i j hi hj := by
    rw [List.mem_singleton.mp hf] at hi
    rw [List.mem_singleton.mp hg, hi] at hj
    rw [Except.ok.inj hj]

/-- The file of another signer beside the own one, and the files of two others. -/
theorem importMultisig_iff_sample :
    ImportsInAnyOrder sampleImportOps sampleImporter [sampleFile 2, sampleFile 1]
        ((sampleImported [2]).map MultisigTransfer.multisigInfo) ∧
      ¬ImportsInAnyOrder sampleImportOps sampleImporter [sampleFile 2, sampleFile 3]
        ((sampleImported [3, 2]).map MultisigTransfer.multisigInfo) := by
  have hown : importMultisig sampleImportOps sampleImporter [sampleFile 2, sampleFile 1] =
      .ok (1, sampleImported [2]) := rfl
  have htwo : importMultisig sampleImportOps sampleImporter [sampleFile 2, sampleFile 3] =
      .ok (1, sampleImported [3, 2]) := rfl
  refine ⟨(importMultisig_iff hown).mpr ?_, (importMultisig_iff htwo).not.mpr ?_⟩
  · rw [foreignFiles_own]
    exact ⟨fun f hf => ⟨_, rfl⟩, .inr (.inr oneSource_own)⟩
  · rw [foreignFiles_two]
    rintro ⟨-, htransfers | ⟨f, hf, hempty⟩ | hone⟩
    · cases htransfers
    · have hparse := Except.ok.inj (hempty f hf rfl)
      rcases List.mem_pair.mp hf with rfl | rfl <;> cases hparse
    · exact absurd (hone.header _ (List.mem_cons_self ..) _
        (List.mem_cons_of_mem _ (List.mem_singleton_self _))) (by decide)

/-- With two the infos are in another order after an import in another order. -/
theorem importMultisig_two :
    importMultisig sampleImportOps sampleImporter [sampleFile 2, sampleFile 3] =
        .ok (1, sampleImported [3, 2]) ∧
      ¬ImportsInAnyOrder sampleImportOps sampleImporter [sampleFile 2, sampleFile 3]
        ((sampleImported [3, 2]).map MultisigTransfer.multisigInfo) := by
  refine ⟨rfl, fun hany => ?_⟩
  obtain ⟨n, transfers, himport, hresult, -⟩ :=
    hany _ (List.Perm.swap (sampleFile 2) (sampleFile 3) [])
  have hother : importMultisig sampleImportOps sampleImporter [sampleFile 3, sampleFile 2] =
      .ok (1, sampleImported [2, 3]) := rfl
  obtain ⟨-, rfl⟩ := Prod.mk.inj (Except.ok.inj (hother.symm.trans himport))
  exact absurd hresult (by decide)

end XrCoin.Wallet
