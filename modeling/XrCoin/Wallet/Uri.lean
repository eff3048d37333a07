import XrCoin.Checkpoints.AddCheckpoint
import XrCoin.Common.AddressCodec
import XrCoin.Cryptonote.Amounts
import XrCoin.Epee.UrlFormat
import XrCoin.Wallet.ReserveProof

/-!
Payment URIs: `make_uri` and `parse_uri`.

A string is a list of bytes. The hash under the checksum of an address and the test of a key are
parameters.
-/

namespace XrCoin.Wallet

open Archive Checkpoints Common Cryptonote Data Epee

/-! ### Addresses -/

structure AddressConfig where
  cnFastHash : List UInt8 → Hash
  checkKey : PublicKey → Bool
  publicAddressBase58Prefix : UInt64
  publicIntegratedAddressBase58Prefix : UInt64
  publicSubaddressBase58Prefix : UInt64
  /-- `default_decimal_point` -/
  decimalPoint : ℕ

structure AddressParseInfo where
  address : AccountPublicAddress
  isSubaddress : Bool
  hasPaymentId : Bool
  paymentId : Pod 8
  deriving DecidableEq

def parseKeys (data : List UInt8) : Option AccountPublicAddress :=
  if h : data.length = 64 then
    some ⟨⟨data.take 32, by rw [List.length_take]; omega⟩, ⟨data.drop 32, by rw [List.length_drop]; omega⟩⟩
  else
    none

def parseIntegrated (data : List UInt8) : Option (AccountPublicAddress × Pod 8) :=
  if h : data.length = 72 then
    (parseKeys (data.take 64)).map fun address =>
      (address, ⟨data.drop 64, by rw [List.length_drop]; omega⟩)
  else
    none

def noPaymentId : Pod 8 := List.Vector.replicate 8 0

section Codec

variable (cfg : AddressConfig)

def addressFromBase58 (str : List UInt8) : Option AddressParseInfo :=
  match decodeAddr cfg.cnFastHash str with
  | none => none
  | some (addressPrefix, data) =>
      let info : Option AddressParseInfo :=
        if cfg.publicIntegratedAddressBase58Prefix = addressPrefix then
          (parseIntegrated data).map fun iadr => ⟨iadr.1, false, true, iadr.2⟩
        else if cfg.publicAddressBase58Prefix = addressPrefix then
          (parseKeys data).map fun address => ⟨address, false, false, noPaymentId⟩
        else if cfg.publicSubaddressBase58Prefix = addressPrefix then
          (parseKeys data).map fun address => ⟨address, true, false, noPaymentId⟩
        else
          none
      info.filter fun info =>
        cfg.checkKey info.address.spendPublicKey && cfg.checkKey info.address.viewPublicKey

/-- The size of `public_address_outer_blob`: a version, the address and a checksum. -/
def outerBlobSize : ℕ := 66

def addressFromHex (str : List UInt8) : Option AddressParseInfo :=
  match parseHexstrToBinbuff str with
  | none => none
  | some buff =>
      if buff.length ≠ outerBlobSize then none
      else if 0 < buff.headD 0 then none
      else if buff.getLastD 0 ≠ buff.dropLast.sum then none
      else (parseKeys (buff.tail.take 64)).map fun address => ⟨address, false, false, noPaymentId⟩

def getAccountAddressFromStr (str : List UInt8) : Option AddressParseInfo :=
  if 2 * outerBlobSize ≠ str.length then addressFromBase58 cfg str else addressFromHex str

/-! ### Writing and reading -/

structure UriFields where
  address : List UInt8
  paymentId : List UInt8
  amount : UInt64
  txDescription : List UInt8
  recipientName : List UInt8
  deriving DecidableEq

structure ParsedUri extends UriFields where
  unknownParameters : List (List UInt8)
  deriving DecidableEq

def isPaymentId (paymentId : List UInt8) : Bool :=
  match parseHexstrToBinbuff paymentId with
  | none => false
  | some data => data.length = 32 ∨ data.length = 8

def scheme : List UInt8 := ascii "aeon:"

def addField (uri : List UInt8 × ℕ) (name value : List UInt8) : List UInt8 × ℕ :=
  (uri.1 ++ (if uri.2 ≠ 0 then ascii "&" else ascii "?") ++ (name ++ 61 :: value), uri.2 + 1)

def makeUri (f : UriFields) : Except String (List UInt8) := do
  let info ← orThrow (getAccountAddressFromStr cfg f.address) "wrong address"
  throwIf (info.hasPaymentId ∧ f.paymentId ≠ []) "A single payment id is allowed"
  throwIf (f.paymentId ≠ [] ∧ ¬isPaymentId f.paymentId) "Invalid payment id"
  let uri := (scheme ++ f.address, 0)
  let uri := if f.paymentId ≠ [] then addField uri (ascii "tx_payment_id") f.paymentId else uri
  let uri := if 0 < f.amount then
      addField uri (ascii "tx_amount")
        ((printMoney f.amount cfg.decimalPoint).map fun c => c.toNat.toUInt8)
    else uri
  let uri := if f.recipientName ≠ [] then
      addField uri (ascii "recipient_name") (converToUrlFormat f.recipientName)
    else uri
  let uri := if f.txDescription ≠ [] then
      addField uri (ascii "tx_description") (converToUrlFormat f.txDescription)
    else uri
  return uri.1

def strchr (s : List UInt8) (c : UInt8) : Option ℕ :=
  if c ∈ s.takeWhile (· ≠ 0) then some ((s.takeWhile (· ≠ 0)).idxOf c) else none

def parseArgument (info : AddressParseInfo) (haveArg : List (List UInt8)) (p : ParsedUri)
    (arg : List UInt8) : Except String (List (List UInt8) × ParsedUri) :=
  match arg.splitOn 61 with
  | [key, value] => do
      throwIf (key ∈ haveArg) "URI has more than one instance of a parameter"
      if key = ascii "tx_amount" then
        let amount ← orThrow (parseAmount cfg.decimalPoint (value.map fun b => Char.ofNat b.toNat))
          "URI has invalid amount"
        return (key :: haveArg, { p with amount })
      else if key = ascii "tx_payment_id" then
        throwIf info.hasPaymentId "Separate payment id given with an integrated address"
        throwIf (¬isPaymentId value) "Invalid payment id"
        return (key :: haveArg, { p with paymentId := value })
      else if key = ascii "recipient_name" then
        return (key :: haveArg, { p with recipientName := convertFromUrlFormat value })
      else if key = ascii "tx_description" then
        return (key :: haveArg, { p with txDescription := convertFromUrlFormat value })
      else
        return (key :: haveArg, { p with unknownParameters := p.unknownParameters ++ [arg] })
  | _ => .error "URI has wrong parameter"

def parseArguments (info : AddressParseInfo) :
    List (List UInt8) → List (List UInt8) → ParsedUri → Except String ParsedUri
  | [], _, p => .ok p
  | arg :: args, haveArg, p => do
      let (haveArg, p) ← parseArgument cfg info haveArg p arg
      parseArguments info args haveArg p

def parseUri (uri : List UInt8) : Except String ParsedUri := do
  throwIf (uri.take 5 ≠ scheme) "URI has wrong scheme (expected \"aeon:\")"
  let remainder := uri.drop 5
  let address := match strchr remainder 63 with
    | some i => remainder.take i
    | none => remainder
  let info ← orThrow (getAccountAddressFromStr cfg address) "URI has wrong address"
  let p : ParsedUri := ⟨⟨address, [], 0, [], []⟩, []⟩
  if strchr remainder 63 = none then
    return p
  let body := remainder.drop (address.length + 1)
  if body = [] then
    return p
  parseArguments cfg info (body.splitOn 38) [] p

/-! ### What the text is made of -/

/-- A byte that does not separate anything. -/
def Plain (c : UInt8) : Prop := c ≠ 0 ∧ c ≠ 38 ∧ c ≠ 61 ∧ c ≠ 63

theorem plain_of_hexDigit {c v : UInt8} (h : hexDigit c = some v) : Plain c := by
  refine ⟨?_, ?_, ?_, ?_⟩ <;> rintro rfl <;> simp [hexDigit] at h

theorem plain_of_strtoul2 {c d v : UInt8} (h : strtoul2 c d = some v) : Plain c ∧ Plain d := by
  unfold strtoul2 at h
  split at h
  · next hc hd => exact ⟨plain_of_hexDigit hc, plain_of_hexDigit hd⟩
  · next hd =>
      refine ⟨?_, plain_of_hexDigit hd⟩
      refine ⟨?_, ?_, ?_, ?_⟩ <;> rintro rfl <;> simp [skipped] at h
  · cases h

theorem plain_of_parseHexstr {s buff : List UInt8} (h : parseHexstrToBinbuff s = some buff) :
    ∀ c ∈ s, Plain c := by
  induction s using parseHexstrToBinbuff.induct generalizing buff with
  | case1 => simp
  | case2 c => cases h
  | case3 c d s ih =>
      rw [parseHexstrToBinbuff] at h
      obtain ⟨v, hv, h⟩ := Option.bind_eq_some_iff.mp h
      obtain ⟨rest, hrest, -⟩ := Option.map_eq_some_iff.mp h
      obtain ⟨hc, hd⟩ := plain_of_strtoul2 hv
      exact List.forall_mem_cons.mpr ⟨hc, List.forall_mem_cons.mpr ⟨hd, ih hrest⟩⟩

theorem plain_of_decode {enc data : List UInt8} (h : decode enc = .ok data) :
    ∀ c ∈ enc, Plain c := by
  intro c hc
  obtain ⟨i, hi, hblock⟩ := mem_blockAt hc
  obtain ⟨bytes, hbytes⟩ := decodeBlock_blockAt_of_decode h hi
  obtain ⟨-, -, -, -, hletters, -⟩ := (decodeBlock_eq_ok (length_blockAt enc i)).mp hbytes
  have hletter := hletters c hblock
  rw [alphabet_eq] at hletter
  refine ⟨?_, ?_, ?_, ?_⟩ <;> rintro rfl <;> simp at hletter

/-- An address has nothing in it that would separate it from the rest. -/
theorem plain_of_address {str : List UInt8} {info : AddressParseInfo}
    (h : getAccountAddressFromStr cfg str = some info) : ∀ c ∈ str, Plain c := by
  unfold getAccountAddressFromStr at h
  split at h
  · unfold addressFromBase58 at h
    split at h
    · cases h
    · next hdecode =>
        obtain ⟨payload, hdecode, -⟩ := (decodeAddr_eq_some _).mp hdecode
        exact plain_of_decode hdecode
  · unfold addressFromHex at h
    split at h
    · cases h
    · next hhex => exact plain_of_parseHexstr hhex

theorem plain_of_paymentId {paymentId : List UInt8} (h : isPaymentId paymentId = true) :
    ∀ c ∈ paymentId, Plain c := by
  unfold isPaymentId at h
  split at h
  · cases h
  · next hhex => exact plain_of_parseHexstr hhex

theorem mem_printMoney {amount : UInt64} {decimalPoint : ℕ} {c : Char}
    (h : c ∈ printMoney amount decimalPoint) : c = '.' ∨ c.isDigit = true := by
  rw [printMoney_eq] at h
  split at h
  · rcases (List.mem_insertIdx (by omega)).mp h with rfl | hdigit
    · exact Or.inl rfl
    · exact Or.inr (isDigit_paddedDigits amount decimalPoint c hdigit)
  · exact Or.inr (isDigit_paddedDigits amount decimalPoint c h)

/-! ### The arguments -/

def argument (field : List UInt8 × List UInt8) : List UInt8 := field.1 ++ 61 :: field.2

def optionalField (c : Prop) [Decidable c] (name value : List UInt8) :
    List (List UInt8 × List UInt8) := if c then [(name, value)] else []

def amountText (amount : UInt64) : List UInt8 :=
  (printMoney amount cfg.decimalPoint).map fun c => c.toNat.toUInt8

def writtenFields (f : UriFields) : List (List UInt8 × List UInt8) :=
  optionalField (f.paymentId ≠ []) (ascii "tx_payment_id") f.paymentId ++
    (optionalField (0 < f.amount) (ascii "tx_amount") (amountText cfg f.amount) ++
      (optionalField (f.recipientName ≠ []) (ascii "recipient_name")
          (converToUrlFormat f.recipientName) ++
        optionalField (f.txDescription ≠ []) (ascii "tx_description")
          (converToUrlFormat f.txDescription)))

def moreFields (fields : List (List UInt8 × List UInt8)) : List UInt8 :=
  fields.flatMap fun field => 38 :: argument field

theorem foldl_addField {uri : List UInt8} {n : ℕ} (hn : n ≠ 0)
    (fields : List (List UInt8 × List UInt8)) :
    (fields.foldl (fun uri field => addField uri field.1 field.2) (uri, n)).1 =
      uri ++ moreFields fields := by
  induction fields generalizing uri n with
  | nil => simp [moreFields]
  | cons field fields ih =>
      rw [List.foldl_cons, addField, if_pos hn, ih (Nat.succ_ne_zero n), moreFields, moreFields,
        List.flatMap_cons]
      simp [argument, ascii]

def query : List (List UInt8 × List UInt8) → List UInt8
  | [] => []
  | field :: fields => 63 :: (argument field ++ moreFields fields)

theorem foldl_optionalField (c : Prop) [Decidable c] (name value : List UInt8)
    (uri : List UInt8 × ℕ) :
    (optionalField c name value).foldl (fun uri field => addField uri field.1 field.2) uri =
      if c then addField uri name value else uri := by
  unfold optionalField
  split <;> rfl

theorem makeUri_eq_ok {f : UriFields} {uri : List UInt8} :
    makeUri cfg f = .ok uri ↔ (∃ info, getAccountAddressFromStr cfg f.address = some info ∧
      ¬(info.hasPaymentId = true ∧ f.paymentId ≠ [])) ∧
        (f.paymentId ≠ [] → isPaymentId f.paymentId = true) ∧
          scheme ++ f.address ++ query (writtenFields cfg f) = uri := by
  have hwritten : ((writtenFields cfg f).foldl (fun uri field => addField uri field.1 field.2)
      (scheme ++ f.address, 0)).1 = scheme ++ f.address ++ query (writtenFields cfg f) := by
    cases hfields : writtenFields cfg f with
    | nil => simp [query]
    | cons field fields =>
        rw [List.foldl_cons, addField, if_neg (by simp), foldl_addField (by simp), query]
        simp [argument, ascii]
  rw [← hwritten, writtenFields, List.foldl_append, List.foldl_append, List.foldl_append,
    foldl_optionalField, foldl_optionalField, foldl_optionalField, foldl_optionalField, makeUri,
    bind_eq_ok]
  simp only [orThrow_eq_ok, bind_eq_ok, throwIf_eq_ok]
  constructor
  · rintro ⟨info, hinfo, -, hone, -, hid, huri⟩
    refine ⟨⟨info, hinfo, hone⟩, ?_, Except.ok.inj huri⟩
    simpa using hid
  · rintro ⟨⟨info, hinfo, hone⟩, hid, huri⟩
    exact ⟨info, hinfo, (), hone, (), by simpa using hid, congrArg Except.ok huri⟩

/-! ### Reading the arguments -/

theorem splitOn_moreFields {field : List UInt8 × List UInt8}
    {fields : List (List UInt8 × List UInt8)}
    (h : ∀ field' ∈ field :: fields, (38 : UInt8) ∉ argument field') :
    (argument field ++ moreFields fields).splitOn 38 = (field :: fields).map argument := by
  induction fields generalizing field with
  | nil =>
      rw [moreFields, List.flatMap_nil, List.append_nil]
      exact List.splitOn_eq_singleton (h field List.mem_cons_self)
  | cons field' fields ih =>
      rw [List.forall_mem_cons] at h
      rw [moreFields, List.flatMap_cons, List.cons_append,
        List.splitOn_append_cons_self_of_not_mem h.1, ← moreFields, ih h.2]
      rfl

theorem splitOn_argument {name value : List UInt8} (hname : (61 : UInt8) ∉ name) :
    (argument (name, value)).splitOn 61 = name :: value.splitOn 61 :=
  List.splitOn_append_cons_self_of_not_mem hname value

/-- An equals sign in the value makes a third part. -/
theorem parseArgument_of_equals {info : AddressParseInfo} {haveArg : List (List UInt8)}
    {p : ParsedUri} {name value : List UInt8} (hname : (61 : UInt8) ∉ name)
    (hvalue : (61 : UInt8) ∈ value) :
    parseArgument cfg info haveArg p (argument (name, value)) =
      .error "URI has wrong parameter" := by
  obtain ⟨front, back, rfl⟩ := List.append_of_mem hvalue
  rw [parseArgument, splitOn_argument hname, List.splitOn_append_cons_self]
  have hfront := List.splitOn_ne_nil 61 front
  have hback := List.splitOn_ne_nil 61 back
  cases hf : front.splitOn 61 with
  | nil => exact absurd hf hfront
  | cons a as =>
      cases hb : back.splitOn 61 with
      | nil => exact absurd hb hback
      | cons b bs =>
          cases as with
          | nil => rfl
          | cons => rfl

theorem splitOn_argument_pair {name value : List UInt8} (hname : (61 : UInt8) ∉ name)
    (hvalue : (61 : UInt8) ∉ value) : (argument (name, value)).splitOn 61 = [name, value] := by
  rw [splitOn_argument hname, List.splitOn_eq_singleton hvalue]

/-- An argument that may be left out: it sets what is not set yet, and its name is recorded. -/
theorem parseArguments_optional {info : AddressParseInfo} {c : Prop} [Decidable c]
    {name value : List UInt8} {rest : List (List UInt8 × List UInt8)}
    {haveArg names : List (List UInt8)} {p p' : ParsedUri} (hhave : haveArg ⊆ names)
    (hset : c → parseArgument cfg info haveArg p (argument (name, value)) =
      .ok (name :: haveArg, p')) (hskip : ¬c → p = p') :
    ∃ haveArg', haveArg' ⊆ name :: names ∧
      parseArguments cfg info ((optionalField c name value ++ rest).map argument) haveArg p =
        parseArguments cfg info (rest.map argument) haveArg' p' := by
  by_cases hc : c
  · refine ⟨name :: haveArg, List.cons_subset_cons name hhave, ?_⟩
    rw [optionalField, if_pos hc, List.singleton_append, List.map_cons, parseArguments, hset hc]
    rfl
  · refine ⟨haveArg, List.Subset.trans hhave (List.subset_cons_self _ _), ?_⟩
    rw [optionalField, if_neg hc, List.nil_append, hskip hc]

section Fields

variable {cfg} {info : AddressParseInfo} {haveArg : List (List UInt8)} {p : ParsedUri}

theorem parseArgument_paymentId {value : List UInt8} (hid : isPaymentId value = true)
    (hone : ¬info.hasPaymentId = true) (hnew : ascii "tx_payment_id" ∉ haveArg) :
    parseArgument cfg info haveArg p (argument (ascii "tx_payment_id", value)) =
      .ok (ascii "tx_payment_id" :: haveArg, { p with paymentId := value }) := by
  have hplain : (61 : UInt8) ∉ value := fun h => (plain_of_paymentId hid 61 h).2.2.1 rfl
  rw [parseArgument, splitOn_argument_pair (by decide) hplain]
  dsimp only
  have hvalid : ¬¬isPaymentId value = true := not_not.mpr hid
  rw [throwIf, if_neg hnew, throwIf, if_neg hone, throwIf, if_neg hvalid]
  rfl

theorem toNat_of_mem_printMoney {amount : UInt64} {decimalPoint : ℕ} {c : Char}
    (h : c ∈ printMoney amount decimalPoint) : 46 ≤ c.toNat ∧ c.toNat ≤ 57 := by
  rcases mem_printMoney h with rfl | hdigit
  · decide
  · obtain ⟨hlow, hhigh⟩ := Char.isDigit_iff_toNat.mp hdigit
    exact ⟨le_trans (by decide) hlow, hhigh⟩

theorem toNat_toUInt8_of_mem {amount : UInt64} {decimalPoint : ℕ} {c : Char}
    (h : c ∈ printMoney amount decimalPoint) : c.toNat.toUInt8.toNat = c.toNat := by
  have hbounds := toNat_of_mem_printMoney h
  rw [Nat.toUInt8_eq, UInt8.toNat_ofNat']
  exact Nat.mod_eq_of_lt (by omega)

theorem plain_of_mem_amountText {amount : UInt64} {b : UInt8} (h : b ∈ amountText cfg amount) :
    b ≠ 38 ∧ b ≠ 61 := by
  obtain ⟨c, hc, rfl⟩ := List.mem_map.mp h
  have hbounds := toNat_of_mem_printMoney hc
  have hbyte := toNat_toUInt8_of_mem hc
  constructor
  · intro heq
    rw [heq] at hbyte
    have : (38 : UInt8).toNat = 38 := rfl
    omega
  · intro heq
    rw [heq] at hbyte
    have : (61 : UInt8).toNat = 61 := rfl
    omega

theorem chars_amountText (amount : UInt64) :
    (amountText cfg amount).map (fun b => Char.ofNat b.toNat) =
      printMoney amount cfg.decimalPoint := by
  rw [amountText, List.map_map]
  refine (List.map_congr_left fun c hc => ?_).trans (List.map_id _)
  rw [Function.comp_apply, toNat_toUInt8_of_mem hc, Char.ofNat_toNat]
  rfl

theorem parseArgument_amount {amount : UInt64} (hnew : ascii "tx_amount" ∉ haveArg) :
    parseArgument cfg info haveArg p (argument (ascii "tx_amount", amountText cfg amount)) =
      .ok (ascii "tx_amount" :: haveArg, { p with amount }) := by
  have hplain : (61 : UInt8) ∉ amountText cfg amount := fun h => (plain_of_mem_amountText h).2 rfl
  rw [parseArgument, splitOn_argument_pair (by decide) hplain]
  dsimp only
  rw [throwIf, if_neg hnew, chars_amountText, parseAmount_printMoney]
  rfl

/-- Both texts are written without an equals sign only where they have none. -/
theorem equals_mem_converToUrlFormat {text : List UInt8} :
    61 ∈ converToUrlFormat text ↔ 61 ∈ text := by
  rw [mem_converToUrlFormat (by decide)]
  exact and_iff_left (by decide)

theorem ampersand_notMem_converToUrlFormat (text : List UInt8) :
    38 ∉ converToUrlFormat text := by
  rw [mem_converToUrlFormat (by decide)]
  exact fun h => absurd h.2 (by decide)

theorem parseArgument_recipientName {text : List UInt8} (htext : 61 ∉ text)
    (hnew : ascii "recipient_name" ∉ haveArg) :
    parseArgument cfg info haveArg p
      (argument (ascii "recipient_name", converToUrlFormat text)) =
        .ok (ascii "recipient_name" :: haveArg, { p with recipientName := text }) := by
  rw [parseArgument, splitOn_argument_pair (by decide)
    (equals_mem_converToUrlFormat.not.mpr htext)]
  dsimp only
  rw [throwIf, if_neg hnew, convertFromUrlFormat_converToUrlFormat]
  rfl

theorem parseArgument_txDescription {text : List UInt8} (htext : 61 ∉ text)
    (hnew : ascii "tx_description" ∉ haveArg) :
    parseArgument cfg info haveArg p
      (argument (ascii "tx_description", converToUrlFormat text)) =
        .ok (ascii "tx_description" :: haveArg, { p with txDescription := text }) := by
  rw [parseArgument, splitOn_argument_pair (by decide)
    (equals_mem_converToUrlFormat.not.mpr htext)]
  dsimp only
  rw [throwIf, if_neg hnew, convertFromUrlFormat_converToUrlFormat]
  rfl

/-! ### There and back -/

theorem notMem_argument {name value : List UInt8} (hname : (38 : UInt8) ∉ name)
    (hvalue : (38 : UInt8) ∉ value) : (38 : UInt8) ∉ argument (name, value) := by
  rw [argument, List.mem_append, List.mem_cons]
  rintro (h | h | h)
  · exact hname h
  · exact absurd h (by decide)
  · exact hvalue h

theorem mem_optionalField {c : Prop} [Decidable c] {name value : List UInt8}
    {field : List UInt8 × List UInt8} (h : field ∈ optionalField c name value) :
    c ∧ field = (name, value) := by
  unfold optionalField at h
  split at h
  · next hc => exact ⟨hc, List.mem_singleton.mp h⟩
  · cases h

theorem ampersand_notMem_writtenFields {f : UriFields}
    (hid : f.paymentId ≠ [] → isPaymentId f.paymentId = true) :
    ∀ field ∈ writtenFields cfg f, (38 : UInt8) ∉ argument field := by
  intro field hfield
  simp only [writtenFields, List.mem_append] at hfield
  rcases hfield with h | h | h | h
  · obtain ⟨hne, rfl⟩ := mem_optionalField h
    exact notMem_argument (by decide) fun hmem => (plain_of_paymentId (hid hne) 38 hmem).2.1 rfl
  · obtain ⟨-, rfl⟩ := mem_optionalField h
    exact notMem_argument (by decide) fun hmem => (plain_of_mem_amountText hmem).1 rfl
  · obtain ⟨-, rfl⟩ := mem_optionalField h
    exact notMem_argument (by decide) (ampersand_notMem_converToUrlFormat _)
  · obtain ⟨-, rfl⟩ := mem_optionalField h
    exact notMem_argument (by decide) (ampersand_notMem_converToUrlFormat _)

/-- The address and what follows it are found again. -/
theorem parseUri_query {address : List UInt8} {fields : List (List UInt8 × List UInt8)}
    (hinfo : getAccountAddressFromStr cfg address = some info)
    (hfields : ∀ field ∈ fields, (38 : UInt8) ∉ argument field) :
    parseUri cfg (scheme ++ address ++ query fields) =
      parseArguments cfg info (fields.map argument) [] ⟨⟨address, [], 0, [], []⟩, []⟩ := by
  have hplain := plain_of_address cfg hinfo
  have hzero : (address.takeWhile (· ≠ 0)) = address :=
    List.takeWhile_eq_self_iff.mpr fun c hc => by simpa using (hplain c hc).1
  have hmark : (63 : UInt8) ∉ address := fun h => (hplain 63 h).2.2.2 rfl
  have htake : (scheme ++ address ++ query fields).take 5 = scheme := by
    rw [List.append_assoc]
    exact List.take_left' (by decide)
  have hdrop : (scheme ++ address ++ query fields).drop 5 = address ++ query fields := by
    rw [List.append_assoc]
    exact List.drop_left' (by decide)
  cases fields with
  | nil =>
      have hstrchr : strchr (address ++ query []) 63 = none := by
        rw [query, List.append_nil, strchr, hzero, if_neg hmark]
      rw [parseUri, throwIf, if_neg (not_not.mpr htake), hdrop]
      dsimp only
      rw [hstrchr]
      dsimp only
      rw [query, List.append_nil, hinfo]
      rfl
  | cons field fields =>
      have htext : (address ++ query (field :: fields)).takeWhile (· ≠ 0) =
          address ++ 63 :: (argument field ++ moreFields fields).takeWhile (· ≠ 0) := by
        rw [List.takeWhile_append_of_pos fun c hc => by simpa using (hplain c hc).1, query,
          List.takeWhile_cons_of_pos (by decide)]
      have hstrchr : strchr (address ++ query (field :: fields)) 63 = some address.length := by
        rw [strchr, htext, if_pos (by simp), List.idxOf_append_of_notMem hmark,
          List.idxOf_cons_self, Nat.add_zero]
      have hbody : (address ++ query (field :: fields)).drop (address.length + 1) =
          argument field ++ moreFields fields := by
        rw [List.drop_append, List.drop_of_length_le (by omega), List.nil_append, query,
          Nat.add_sub_cancel_left, List.drop_one, List.tail_cons]
      have hne : ¬argument field ++ moreFields fields = [] := by simp [argument]
      rw [parseUri, throwIf, if_neg (not_not.mpr htake), hdrop]
      dsimp only
      rw [hstrchr]
      dsimp only
      simp only [List.take_left, hinfo, hbody, reduceCtorEq, if_false, if_neg hne,
        splitOn_moreFields hfields]
      rfl

theorem parseArguments_of_equals {name text : List UInt8}
    (hname : (61 : UInt8) ∉ name) (htext : 61 ∈ text)
    (rest : List (List UInt8 × List UInt8)) :
    parseArguments cfg info
      ((optionalField (text ≠ []) name (converToUrlFormat text) ++ rest).map argument) haveArg p =
        .error "URI has wrong parameter" := by
  rw [optionalField, if_pos (List.ne_nil_of_mem htext), List.singleton_append, List.map_cons,
    parseArguments,
    parseArgument_of_equals cfg hname (equals_mem_converToUrlFormat.mpr htext)]
  rfl

/-- The payment id and the amount are read in any case. -/
theorem parseArguments_first {f : UriFields} (rest : List (List UInt8 × List UInt8))
    (hone : ¬(info.hasPaymentId = true ∧ f.paymentId ≠ []))
    (hid : f.paymentId ≠ [] → isPaymentId f.paymentId = true) :
    ∃ haveArg, haveArg ⊆ [ascii "tx_amount", ascii "tx_payment_id"] ∧
      parseArguments cfg info ((optionalField (f.paymentId ≠ []) (ascii "tx_payment_id") f.paymentId ++
        (optionalField (0 < f.amount) (ascii "tx_amount") (amountText cfg f.amount) ++ rest)).map
          argument) [] ⟨⟨f.address, [], 0, [], []⟩, []⟩ =
        parseArguments cfg info (rest.map argument) haveArg
          ⟨⟨f.address, f.paymentId, f.amount, [], []⟩, []⟩ := by
  have hpaymentId : ∀ rest, ∃ haveArg, haveArg ⊆ [ascii "tx_payment_id"] ∧
      parseArguments cfg info ((optionalField (f.paymentId ≠ []) (ascii "tx_payment_id")
        f.paymentId ++ rest).map argument) [] ⟨⟨f.address, [], 0, [], []⟩, []⟩ =
        parseArguments cfg info (rest.map argument) haveArg
          ⟨⟨f.address, f.paymentId, 0, [], []⟩, []⟩ := fun rest =>
    parseArguments_optional cfg (List.Subset.refl [])
      (fun hc => parseArgument_paymentId (hid hc) (fun hhas => hone ⟨hhas, hc⟩) (by simp))
      fun hc => by rw [not_not.mp hc]
  obtain ⟨have₁, hsub₁, hread₁⟩ := hpaymentId
    (optionalField (0 < f.amount) (ascii "tx_amount") (amountText cfg f.amount) ++ rest)
  have hamount : ∃ haveArg, haveArg ⊆ [ascii "tx_amount", ascii "tx_payment_id"] ∧
      parseArguments cfg info ((optionalField (0 < f.amount) (ascii "tx_amount")
        (amountText cfg f.amount) ++ rest).map argument) have₁
          ⟨⟨f.address, f.paymentId, 0, [], []⟩, []⟩ =
        parseArguments cfg info (rest.map argument) haveArg
          ⟨⟨f.address, f.paymentId, f.amount, [], []⟩, []⟩ :=
    parseArguments_optional cfg hsub₁
      (fun _ => parseArgument_amount fun hmem => absurd (hsub₁ hmem) (by decide))
      fun hc => by rw [UInt64.le_zero_iff.mp (UInt64.not_lt.mp hc)]
  obtain ⟨have₂, hsub₂, hread₂⟩ := hamount
  exact ⟨have₂, hsub₂, hread₁.trans hread₂⟩

/-- What is written is read again exactly where neither of the texts has an equals sign in it. -/
theorem parseUri_makeUri_iff {f : UriFields} {uri : List UInt8} (h : makeUri cfg f = .ok uri) :
    parseUri cfg uri = .ok ⟨f, []⟩ ↔ 61 ∉ f.recipientName ∧ 61 ∉ f.txDescription := by
  obtain ⟨⟨info, hinfo, hone⟩, hid, rfl⟩ := (makeUri_eq_ok cfg).mp h
  obtain ⟨haveArg, hsub, hfirst⟩ := @parseArguments_first cfg info f
    (optionalField (f.recipientName ≠ []) (ascii "recipient_name")
        (converToUrlFormat f.recipientName) ++
      optionalField (f.txDescription ≠ []) (ascii "tx_description")
        (converToUrlFormat f.txDescription)) hone hid
  rw [parseUri_query hinfo (ampersand_notMem_writtenFields hid), writtenFields, hfirst]
  by_cases hname : 61 ∈ f.recipientName
  · rw [parseArguments_of_equals (by decide) hname]
    exact iff_of_false (by simp) fun hnone => hnone.1 hname
  · obtain ⟨haveArg', hsub', hread⟩ : ∃ haveArg', haveArg' ⊆ ascii "recipient_name" ::
        [ascii "tx_amount", ascii "tx_payment_id"] ∧
        parseArguments cfg info ((optionalField (f.recipientName ≠ []) (ascii "recipient_name")
            (converToUrlFormat f.recipientName) ++
          optionalField (f.txDescription ≠ []) (ascii "tx_description")
            (converToUrlFormat f.txDescription)).map argument) haveArg
              ⟨⟨f.address, f.paymentId, f.amount, [], []⟩, []⟩ =
          parseArguments cfg info ((optionalField (f.txDescription ≠ []) (ascii "tx_description")
            (converToUrlFormat f.txDescription)).map argument) haveArg'
              ⟨⟨f.address, f.paymentId, f.amount, [], f.recipientName⟩, []⟩ :=
      parseArguments_optional cfg hsub
        (fun _ => parseArgument_recipientName hname fun hmem => absurd (hsub hmem) (by decide))
        fun hc => by rw [not_not.mp hc]
    rw [hread, ← List.append_nil (optionalField (f.txDescription ≠ []) _ _)]
    by_cases hdescription : 61 ∈ f.txDescription
    · rw [parseArguments_of_equals (by decide) hdescription]
      exact iff_of_false (by simp) fun hnone => hnone.2 hdescription
    · obtain ⟨haveArg'', -, hread'⟩ : ∃ haveArg'', haveArg'' ⊆ ascii "tx_description" ::
          ascii "recipient_name" :: [ascii "tx_amount", ascii "tx_payment_id"] ∧
          parseArguments cfg info ((optionalField (f.txDescription ≠ []) (ascii "tx_description")
            (converToUrlFormat f.txDescription) ++ []).map argument) haveArg'
              ⟨⟨f.address, f.paymentId, f.amount, [], f.recipientName⟩, []⟩ =
            parseArguments cfg info ([].map argument) haveArg''
              ⟨⟨f.address, f.paymentId, f.amount, f.txDescription, f.recipientName⟩, []⟩ :=
        parseArguments_optional cfg hsub'
          (fun _ => parseArgument_txDescription hdescription
            fun hmem => absurd (hsub' hmem) (by decide))
          fun hc => by rw [not_not.mp hc]
      rw [hread']
      exact iff_of_true rfl ⟨hname, hdescription⟩

end Fields

end Codec

def hexConfig : AddressConfig := ⟨fun _ => nullHash, fun _ => true, 0, 0, 0, 12⟩

def equalsRecipient : UriFields := ⟨List.replicate 132 48, [], 0, [], [61]⟩

set_option maxRecDepth 8000 in
theorem makeUri_equalsRecipient :
    makeUri hexConfig equalsRecipient =
      .ok (scheme ++ List.replicate 132 48 ++ ascii "?recipient_name==") := by rfl

set_option maxRecDepth 8000 in
theorem equalsRecipient_not_restored :
    makeUri hexConfig equalsRecipient =
      .ok (scheme ++ List.replicate 132 48 ++ ascii "?recipient_name==") ∧
      parseUri hexConfig (scheme ++ List.replicate 132 48 ++ ascii "?recipient_name==") ≠
        .ok ⟨equalsRecipient, []⟩ := by
  refine ⟨makeUri_equalsRecipient, ?_⟩
  have hrejected : parseUri hexConfig
      (scheme ++ List.replicate 132 48 ++ ascii "?recipient_name==") =
        .error "URI has wrong parameter" := by rfl
  rw [hrejected]
  simp

theorem parseUri_makeUri_iff_equalsRecipient :
    parseUri hexConfig (scheme ++ List.replicate 132 48 ++ ascii "?recipient_name==") =
      .ok ⟨equalsRecipient, []⟩ ↔ (61 : UInt8) ∉ [(61 : UInt8)] ∧ (61 : UInt8) ∉ ([] : List UInt8) :=
  parseUri_makeUri_iff makeUri_equalsRecipient

end XrCoin.Wallet
