import Mathlib
import XrCoin.Data.TimeIndexed
import XrCoin.Data.Runs

/-!
The lists of known peers: `peerlist_manager`.

Peers that answered are in the white list, those known by hearsay in the gray one, and
those to connect to first after a restart are the anchors. Saving and loading the lists,
and the methods that only read them, are left out, and so is the lock.
-/

namespace XrCoin.P2p

open Data

/-! ### Addresses -/

inductive NetworkAddress
  | none
  | ipv4 (ip : UInt32) (port : UInt16)
  deriving DecidableEq

namespace NetworkAddress

def isIpLoopback (ip : UInt32) : Bool := ip ||| 0xffffff00 == 0xffffff7f

def isIpLocal (ip : UInt32) : Bool :=
  ip ||| 0xffffff00 == 0xffffff0a ||
    ip ||| 0xffff0000 == 0xffffa8c0 ||
    (ip ||| 0xffffff00 == 0xffffffac &&
      let secondNum := (ip >>> 8) &&& 0xff
      decide (16 ≤ secondNum) && decide (secondNum ≤ 31))

def isLoopback : NetworkAddress → Bool
  | none => false
  | ipv4 ip _ => isIpLoopback ip

def isLocal : NetworkAddress → Bool
  | none => false
  | ipv4 ip _ => isIpLocal ip

def less : NetworkAddress → NetworkAddress → Bool
  | none, none => false
  | none, ipv4 .. => true
  | ipv4 .., none => false
  | ipv4 ip port, ipv4 ip' port' => if ip = ip' then decide (port < port') else decide (ip < ip')

/-- Equivalent addresses are equal, so that the index finds an address by equality. -/
theorem less_equivalent_iff (a b : NetworkAddress) :
    less a b = false ∧ less b a = false ↔ a = b := by
  cases a with
  | none => cases b <;> simp [less]
  | ipv4 ip port =>
      cases b with
      | none => simp [less]
      | ipv4 ip' port' =>
          rw [less, less, ipv4.injEq]
          by_cases hip : ip = ip'
          · subst hip
            simp only [if_true, decide_eq_false_iff_not, UInt16.not_lt, true_and]
            exact ⟨fun h => UInt16.le_antisymm h.2 h.1, fun h => by simp [h]⟩
          · simp only [hip, Ne.symm hip, if_false, decide_eq_false_iff_not, UInt32.not_lt,
              false_and, iff_false, not_and]
            exact fun hge hle => hip (UInt32.le_antisymm hle hge)

end NetworkAddress

/-! ### The lists -/

structure PeerlistEntry where
  adr : NetworkAddress
  id : UInt64
  lastSeen : ℤ
  deriving DecidableEq

structure AnchorPeerlistEntry where
  adr : NetworkAddress
  id : UInt64
  firstSeen : ℤ
  deriving DecidableEq

abbrev PeersIndexed : Type := TimeIndexed PeerlistEntry.adr PeerlistEntry.lastSeen

abbrev AnchorPeersIndexed : Type :=
  TimeIndexed AnchorPeerlistEntry.adr AnchorPeerlistEntry.firstSeen

structure PeerlistConfig where
  /-- `P2P_LOCAL_WHITE_PEERLIST_LIMIT`. -/
  whiteLimit : ℕ
  /-- `P2P_LOCAL_GRAY_PEERLIST_LIMIT`. -/
  grayLimit : ℕ
  allowLocalIp : Bool

structure PeerlistManager where
  peersGray : PeersIndexed
  peersWhite : PeersIndexed
  peersAnchor : AnchorPeersIndexed

namespace PeerlistManager

variable (cfg : PeerlistConfig)

def empty : PeerlistManager := ⟨∅, ∅, ∅⟩

def isHostAllowed (address : NetworkAddress) : Bool :=
  if address.isLoopback then false
  else if !cfg.allowLocalIp && address.isLocal then false
  else true

def trimGrayPeerlist (m : PeerlistManager) : PeerlistManager :=
  { m with peersGray := m.peersGray.trim cfg.grayLimit }

def trimWhitePeerlist (m : PeerlistManager) : PeerlistManager :=
  { m with peersWhite := m.peersWhite.trim cfg.whiteLimit }

def appendWithPeerWhite (m : PeerlistManager) (ple : PeerlistEntry) : PeerlistManager :=
  if !isHostAllowed cfg ple.adr then m
  else
    let m := match m.peersWhite.find ple.adr with
      | none => trimWhitePeerlist cfg { m with peersWhite := m.peersWhite.insert ple }
      | some _ => { m with peersWhite := m.peersWhite.replace ple }
    match m.peersGray.find ple.adr with
    | none => m
    | some _ => { m with peersGray := m.peersGray.erase ple.adr }

def appendWithPeerGray (m : PeerlistManager) (ple : PeerlistEntry) : PeerlistManager :=
  if !isHostAllowed cfg ple.adr then m
  else
    match m.peersWhite.find ple.adr with
    | some _ => m
    | none =>
        match m.peersGray.find ple.adr with
        | none => trimGrayPeerlist cfg { m with peersGray := m.peersGray.insert ple }
        | some _ => { m with peersGray := m.peersGray.replace ple }

def appendWithPeerAnchor (m : PeerlistManager) (ple : AnchorPeerlistEntry) : PeerlistManager :=
  match m.peersAnchor.find ple.adr with
  | none => { m with peersAnchor := m.peersAnchor.insert ple }
  | some _ => m

def mergePeerlist (m : PeerlistManager) (outerBs : List PeerlistEntry) : PeerlistManager :=
  trimGrayPeerlist cfg (outerBs.foldl (appendWithPeerGray cfg) m)

def setPeerJustSeen (m : PeerlistManager) (peer : UInt64) (addr : NetworkAddress) (now : ℤ) :
    PeerlistManager :=
  appendWithPeerWhite cfg m ⟨addr, peer, now⟩

def removeFromPeerGray (m : PeerlistManager) (pe : PeerlistEntry) : PeerlistManager :=
  match m.peersGray.find pe.adr with
  | some _ => { m with peersGray := m.peersGray.erase pe.adr }
  | none => m

def getAndEmptyAnchorPeerlist (m : PeerlistManager) :
    List AnchorPeerlistEntry × PeerlistManager :=
  (m.peersAnchor.elems, { m with peersAnchor := ∅ })

def removeFromPeerAnchor (m : PeerlistManager) (addr : NetworkAddress) : PeerlistManager :=
  match m.peersAnchor.find addr with
  | some _ => { m with peersAnchor := m.peersAnchor.erase addr }
  | none => m

/-! ### What the operations keep -/

/-- The lists are disjoint and within their limits, and have only hosts that are allowed. -/
structure Sound (m : PeerlistManager) : Prop where
  disjoint : ∀ w ∈ m.peersWhite, ∀ g ∈ m.peersGray, w.adr ≠ g.adr
  white_size : m.peersWhite.size ≤ cfg.whiteLimit
  gray_size : m.peersGray.size ≤ cfg.grayLimit
  white_allowed : ∀ e ∈ m.peersWhite, isHostAllowed cfg e.adr = true
  gray_allowed : ∀ e ∈ m.peersGray, isHostAllowed cfg e.adr = true

variable {cfg}

theorem sound_empty : Sound cfg empty where
  disjoint _ hw := absurd hw (TimeIndexed.notMem_empty _)
  white_size := Nat.zero_le _
  gray_size := Nat.zero_le _
  white_allowed _ he := absurd he (TimeIndexed.notMem_empty _)
  gray_allowed _ he := absurd he (TimeIndexed.notMem_empty _)

theorem Sound.of_gray {m : PeerlistManager} (hm : Sound cfg m) {gray : PeersIndexed}
    (hsubset : ∀ e ∈ gray, e ∈ m.peersGray) (hsize : gray.size ≤ cfg.grayLimit) :
    Sound cfg { m with peersGray := gray } where
  disjoint w hw g hg := hm.disjoint w hw g (hsubset g hg)
  white_size := hm.white_size
  gray_size := hsize
  white_allowed := hm.white_allowed
  gray_allowed e he := hm.gray_allowed e (hsubset e he)

/-- One list with a new peer put in and cut to its limit, or with the peer's entry renewed:
the part that `append_with_peer_white` and `append_with_peer_gray` share. -/
theorem appended_spec {s : PeersIndexed} {limit : ℕ} (hsize : s.size ≤ limit)
    (ple : PeerlistEntry) :
    let s' := match s.find ple.adr with
      | none => (s.insert ple).trim limit
      | some _ => s.replace ple
    s'.size ≤ limit ∧ ∀ e ∈ s', e ∈ s ∨ e = ple := by
  cases hfind : s.find ple.adr with
  | none =>
      refine ⟨TimeIndexed.size_trim_le _ _, fun e he => ?_⟩
      rcases TimeIndexed.mem_insert.mp (TimeIndexed.mem_of_mem_trim he) with he | ⟨he, -⟩
      · exact Or.inl he
      · exact Or.inr he
  | some old =>
      have hold : old ∈ s := List.mem_of_find?_eq_some hfind
      have hadr : old.adr = ple.adr := by simpa using List.find?_some hfind
      refine ⟨(TimeIndexed.size_replace_le hold hadr).trans hsize, fun e he => ?_⟩
      rcases (TimeIndexed.mem_replace hold hadr).mp he with ⟨he, -⟩ | he
      · exact Or.inl he
      · exact Or.inr he

/-- Erasing what is not there changes nothing, so the search before it makes no difference. -/
theorem mem_erased_gray {s : PeersIndexed} {adr : NetworkAddress} {e : PeerlistEntry} :
    e ∈ (match s.find adr with
      | none => s
      | some _ => s.erase adr) ↔ e ∈ s ∧ e.adr ≠ adr := by
  cases hfind : s.find adr with
  | none =>
      have hfree := TimeIndexed.find_eq_none_iff.mp hfind
      exact ⟨fun he => ⟨he, hfree e he⟩, And.left⟩
  | some old => exact TimeIndexed.mem_erase

theorem appendWithPeerWhite_of_allowed {m : PeerlistManager} {ple : PeerlistEntry}
    (hallowed : isHostAllowed cfg ple.adr = true) :
    appendWithPeerWhite cfg m ple =
      ⟨match m.peersGray.find ple.adr with
        | none => m.peersGray
        | some _ => m.peersGray.erase ple.adr,
      match m.peersWhite.find ple.adr with
        | none => (m.peersWhite.insert ple).trim cfg.whiteLimit
        | some _ => m.peersWhite.replace ple,
      m.peersAnchor⟩ := by
  rw [appendWithPeerWhite, hallowed]
  cases m.peersWhite.find ple.adr <;> cases hgray : m.peersGray.find ple.adr <;>
    simp [trimWhitePeerlist, hgray]

theorem Sound.appendWithPeerWhite {m : PeerlistManager} (hm : Sound cfg m) (ple : PeerlistEntry) :
    Sound cfg (appendWithPeerWhite cfg m ple) := by
  cases hallowed : isHostAllowed cfg ple.adr with
  | false =>
      rw [PeerlistManager.appendWithPeerWhite, hallowed]
      exact hm
  | true =>
      rw [appendWithPeerWhite_of_allowed hallowed]
      obtain ⟨hsize, hmem⟩ := appended_spec hm.white_size ple
      constructor
      · intro w hw g hg
        obtain ⟨hg, hother⟩ := mem_erased_gray.mp hg
        rcases hmem w hw with hw | rfl
        · exact hm.disjoint w hw g hg
        · exact hother.symm
      · exact hsize
      · dsimp only
        split
        · exact hm.gray_size
        · exact (TimeIndexed.size_erase_le _ _).trans hm.gray_size
      · intro e he
        rcases hmem e he with he | rfl
        · exact hm.white_allowed e he
        · exact hallowed
      · intro e he
        exact hm.gray_allowed e (mem_erased_gray.mp he).1

theorem Sound.appendWithPeerGray {m : PeerlistManager} (hm : Sound cfg m) (ple : PeerlistEntry) :
    Sound cfg (appendWithPeerGray cfg m ple) := by
  rw [PeerlistManager.appendWithPeerGray]
  cases hallowed : isHostAllowed cfg ple.adr with
  | false => exact hm
  | true =>
      cases hwhite : m.peersWhite.find ple.adr with
      | some w => exact hm
      | none =>
          have hfree := TimeIndexed.find_eq_none_iff.mp hwhite
          obtain ⟨hsize, hmem⟩ := appended_spec hm.gray_size ple
          have hcomes : Sound cfg { m with peersGray := match m.peersGray.find ple.adr with
              | none => (m.peersGray.insert ple).trim cfg.grayLimit
              | some _ => m.peersGray.replace ple } := by
            constructor
            · intro w hw g hg
              rcases hmem g hg with hg | rfl
              · exact hm.disjoint w hw g hg
              · exact hfree w hw
            · exact hm.white_size
            · exact hsize
            · exact hm.white_allowed
            · intro e he
              rcases hmem e he with he | rfl
              · exact hm.gray_allowed e he
              · exact hallowed
          cases hgray : m.peersGray.find ple.adr with
          | none =>
              rw [hgray] at hcomes
              exact hcomes
          | some old =>
              rw [hgray] at hcomes
              exact hcomes

theorem Sound.mergePeerlist {m : PeerlistManager} (hm : Sound cfg m)
    (outerBs : List PeerlistEntry) : Sound cfg (mergePeerlist cfg m outerBs) := by
  have hmerged : Sound cfg (outerBs.foldl (PeerlistManager.appendWithPeerGray cfg) m) := by
    induction outerBs generalizing m with
    | nil => exact hm
    | cons be outerBs ih => exact ih (hm.appendWithPeerGray be)
  exact hmerged.of_gray (fun _ he => TimeIndexed.mem_of_mem_trim he)
    (TimeIndexed.size_trim_le _ _)

theorem Sound.removeFromPeerGray {m : PeerlistManager} (hm : Sound cfg m) (pe : PeerlistEntry) :
    Sound cfg (removeFromPeerGray m pe) := by
  rw [PeerlistManager.removeFromPeerGray]
  split
  · exact hm.of_gray (fun _ he => (TimeIndexed.mem_erase.mp he).1)
      ((TimeIndexed.size_erase_le _ _).trans hm.gray_size)
  · exact hm

theorem Sound.of_anchor {m : PeerlistManager} (hm : Sound cfg m) (anchor : AnchorPeersIndexed) :
    Sound cfg { m with peersAnchor := anchor } :=
  ⟨hm.disjoint, hm.white_size, hm.gray_size, hm.white_allowed, hm.gray_allowed⟩

theorem appendWithPeerGray_peersWhite (m : PeerlistManager) (ple : PeerlistEntry) :
    (appendWithPeerGray cfg m ple).peersWhite = m.peersWhite := by
  rw [PeerlistManager.appendWithPeerGray]
  split
  · rfl
  · split
    · rfl
    · split
      · rfl
      · rfl

theorem mergePeerlist_peersWhite (m : PeerlistManager) (outerBs : List PeerlistEntry) :
    (mergePeerlist cfg m outerBs).peersWhite = m.peersWhite := by
  change (outerBs.foldl (appendWithPeerGray cfg) m).peersWhite = m.peersWhite
  induction outerBs generalizing m with
  | nil => rfl
  | cons be outerBs ih => rw [List.foldl_cons, ih, appendWithPeerGray_peersWhite]

/-! ### Runs -/

inductive PeerlistOp
  | appendWithPeerWhite (ple : PeerlistEntry)
  | appendWithPeerGray (ple : PeerlistEntry)
  | appendWithPeerAnchor (ple : AnchorPeerlistEntry)
  | mergePeerlist (outerBs : List PeerlistEntry)
  | setPeerJustSeen (peer : UInt64) (addr : NetworkAddress) (now : ℤ)
  | removeFromPeerGray (pe : PeerlistEntry)
  | getAndEmptyAnchorPeerlist
  | removeFromPeerAnchor (addr : NetworkAddress)

variable (cfg) in
def step (m : PeerlistManager) : PeerlistOp → PeerlistManager
  | .appendWithPeerWhite ple => appendWithPeerWhite cfg m ple
  | .appendWithPeerGray ple => appendWithPeerGray cfg m ple
  | .appendWithPeerAnchor ple => appendWithPeerAnchor m ple
  | .mergePeerlist outerBs => mergePeerlist cfg m outerBs
  | .setPeerJustSeen peer addr now => setPeerJustSeen cfg m peer addr now
  | .removeFromPeerGray pe => removeFromPeerGray m pe
  | .getAndEmptyAnchorPeerlist => (getAndEmptyAnchorPeerlist m).2
  | .removeFromPeerAnchor addr => removeFromPeerAnchor m addr

theorem Sound.step {m : PeerlistManager} (op : PeerlistOp) (hm : Sound cfg m) :
    Sound cfg (step cfg m op) := by
  cases op with
  | appendWithPeerWhite ple => exact hm.appendWithPeerWhite ple
  | appendWithPeerGray ple => exact hm.appendWithPeerGray ple
  | appendWithPeerAnchor ple =>
      rw [PeerlistManager.step, PeerlistManager.appendWithPeerAnchor]
      split
      · exact hm.of_anchor _
      · exact hm
  | mergePeerlist outerBs => exact hm.mergePeerlist outerBs
  | setPeerJustSeen peer addr now => exact hm.appendWithPeerWhite ⟨addr, peer, now⟩
  | removeFromPeerGray pe => exact hm.removeFromPeerGray pe
  | getAndEmptyAnchorPeerlist => exact hm.of_anchor ∅
  | removeFromPeerAnchor addr =>
      rw [PeerlistManager.step, PeerlistManager.removeFromPeerAnchor]
      split
      · exact hm.of_anchor _
      · exact hm

/-- What a trim drops was seen no later than what it keeps. -/
def TrimsOldest (before after : PeersIndexed) : Prop :=
  ∀ gone ∈ before, ¬gone ∈ after → ∀ kept ∈ after, gone.lastSeen ≤ kept.lastSeen

/-- After any run from empty lists: the white and the gray list share no address, no list has
an address twice, they keep their limits and have only allowed hosts, gossip leaves the white
list alone, and the trims drop the peers seen longest ago. -/
theorem run_peerlists (ops : List PeerlistOp) :
    let m := run (step cfg) empty ops
    Sound cfg m ∧
      (m.peersWhite.elems.map PeerlistEntry.adr).Nodup ∧
      (m.peersGray.elems.map PeerlistEntry.adr).Nodup ∧
      (m.peersAnchor.elems.map AnchorPeerlistEntry.adr).Nodup ∧
      (∀ outerBs, (mergePeerlist cfg m outerBs).peersWhite = m.peersWhite) ∧
      (∀ m : PeerlistManager, TrimsOldest m.peersWhite (trimWhitePeerlist cfg m).peersWhite) ∧
      ∀ m : PeerlistManager, TrimsOldest m.peersGray (trimGrayPeerlist cfg m).peersGray := by
  intro m
  have hsound : Sound cfg m :=
    run_invariant (step cfg) sound_empty (fun _ op hm => Sound.step op hm) ops
  refine ⟨hsound, m.peersWhite.unique, m.peersGray.unique, m.peersAnchor.unique,
    mergePeerlist_peersWhite m, ?_, ?_⟩
  · intro m gone hgone hdropped kept hkept
    exact TimeIndexed.time_le_of_trimmed hgone hdropped hkept
  · intro m gone hgone hdropped kept hkept
    exact TimeIndexed.time_le_of_trimmed hgone hdropped hkept

end PeerlistManager

end XrCoin.P2p
