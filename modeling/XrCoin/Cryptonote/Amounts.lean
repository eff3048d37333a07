import Mathlib

/-!
Amounts as text: `print_money` and `parse_amount`.

A string is a list of characters. `boost::lexical_cast` reads the digits of a number, and fails
when the number does not fit.
-/

namespace XrCoin.Cryptonote

def decimalPoints : List ℕ := [12, 9, 6, 3, 0]

def isSpace (c : Char) : Bool := [' ', '\t', '\n', '\x0b', '\x0c', '\r'].contains c

def trim (s : List Char) : List Char := (s.rdropWhile isSpace).dropWhile isSpace

def lexicalCast (s : List Char) : Option UInt64 :=
  if s ≠ [] ∧ Nat.ofDigitChars 10 s 0 < 2 ^ 64 then
    some (UInt64.ofNat (Nat.ofDigitChars 10 s 0))
  else none

def getXtypeFromString (s : List Char) : Option UInt64 :=
  if s.all Char.isDigit then lexicalCast s else none

/-- The loop that erases the last zeros of a fraction that is too long. -/
def eraseZeros (decimalPoint : ℕ) : ℕ → List Char → ℕ × List Char
  | 0, s => (0, s)
  | fractionSize + 1, s =>
      if decimalPoint < fractionSize + 1 ∧ s.getLast? = some '0' then
        eraseZeros decimalPoint fractionSize s.dropLast
      else (fractionSize + 1, s)

def parseDigits (decimalPoint fractionSize : ℕ) (s : List Char) : Option UInt64 :=
  if s = [] then none
  else if fractionSize < decimalPoint then
    getXtypeFromString (s ++ List.replicate (decimalPoint - fractionSize) '0')
  else getXtypeFromString s

def parseAmount (decimalPoint : ℕ) (strAmount : List Char) : Option UInt64 :=
  let s := trim strAmount
  if '.' ∈ s then
    let pointIndex := s.idxOf '.'
    let erased := eraseZeros decimalPoint (s.length - pointIndex - 1) s
    if decimalPoint < erased.1 then none
    else parseDigits decimalPoint erased.1 (erased.2.eraseIdx pointIndex)
  else parseDigits decimalPoint 0 s

def printMoney (amount : UInt64) (decimalPoint : ℕ) : List Char :=
  let s := Nat.toDigits 10 amount.toNat
  let s := if s.length < decimalPoint + 1 then
    List.replicate (decimalPoint + 1 - s.length) '0' ++ s else s
  if 0 < decimalPoint then s.insertIdx (s.length - decimalPoint) '.' else s

/-! ### The digits of a number -/

theorem lexicalCast_eq_some {s : List Char} {v : UInt64} :
    lexicalCast s = some v ↔ s ≠ [] ∧ Nat.ofDigitChars 10 s 0 = v.toNat := by
  rw [lexicalCast]
  constructor
  · intro h
    by_cases hfits : s ≠ [] ∧ Nat.ofDigitChars 10 s 0 < 2 ^ 64
    · rw [if_pos hfits, Option.some.injEq] at h
      rw [← h, UInt64.toNat_ofNat_of_lt' hfits.2]
      exact ⟨hfits.1, rfl⟩
    · rw [if_neg hfits] at h
      cases h
  · rintro ⟨hs, hv⟩
    have hlt := v.toNat_lt
    rw [hv, if_pos ⟨hs, hlt⟩, UInt64.ofNat_toNat]

theorem getXtypeFromString_eq_some {s : List Char} {v : UInt64} :
    getXtypeFromString s = some v ↔
      s ≠ [] ∧ (∀ c ∈ s, c.isDigit) ∧ Nat.ofDigitChars 10 s 0 = v.toNat := by
  rw [getXtypeFromString]
  by_cases hdigits : s.all Char.isDigit = true
  · rw [if_pos hdigits, lexicalCast_eq_some]
    rw [List.all_eq_true] at hdigits
    simp only [and_congr_right_iff]
    intro _
    exact (and_iff_right hdigits).symm
  · rw [if_neg hdigits]
    rw [List.all_eq_true] at hdigits
    simp [hdigits]

theorem parseDigits_eq_some {decimalPoint n : ℕ} {s : List Char} {v : UInt64} :
    parseDigits decimalPoint n s = some v ↔
      s ≠ [] ∧ (∀ c ∈ s, c.isDigit) ∧
        Nat.ofDigitChars 10 s 0 * 10 ^ (decimalPoint - n) = v.toNat := by
  rw [parseDigits]
  by_cases hs : s = []
  · simp [hs]
  rw [if_neg hs]
  by_cases hn : n < decimalPoint
  · have hzeros : (∀ c ∈ s ++ List.replicate (decimalPoint - n) '0', c.isDigit = true) ↔
        ∀ c ∈ s, c.isDigit = true := by
      constructor
      · intro h c hc
        exact h c (List.mem_append_left _ hc)
      · intro h c hc
        rcases List.mem_append.mp hc with hc | hc
        · exact h c hc
        · rw [(List.mem_replicate.mp hc).2]
          rfl
    rw [if_pos hn, getXtypeFromString_eq_some, hzeros, Nat.ofDigitChars_append,
      Nat.ofDigitChars_replicate_zero, Nat.mul_comm]
    simp [hs]
  · rw [if_neg hn, getXtypeFromString_eq_some, Nat.sub_eq_zero_of_le (by omega), Nat.pow_zero,
      Nat.mul_one]

/-! ### The fraction -/

/-- How the characters of an amount are written: the digits before the point, those after it
that count, and the zeros that are dropped since there are too many digits. -/
structure Written (decimalPoint : ℕ) (t whole fraction zeros : List Char) : Prop where
  text : t = whole ++ '.' :: (fraction ++ zeros) ∨ t = whole ∧ fraction = [] ∧ zeros = []
  digits : ∀ c ∈ whole ++ fraction, c.isDigit
  onlyZeros : ∀ c ∈ zeros, c = '0'
  fits : fraction.length ≤ decimalPoint
  dropped : zeros ≠ [] → fraction.length = decimalPoint

theorem eraseZeros_spec (decimalPoint : ℕ) (front fraction : List Char) :
    ∃ kept zeros, fraction = kept ++ zeros ∧
      eraseZeros decimalPoint fraction.length (front ++ fraction) = (kept.length, front ++ kept) ∧
      (∀ c ∈ zeros, c = '0') ∧ (zeros ≠ [] → decimalPoint ≤ kept.length) ∧
      (decimalPoint < kept.length → kept.getLast? ≠ some '0') := by
  induction fraction using List.reverseRecOn with
  | nil => exact ⟨[], [], rfl, by simp [eraseZeros], by simp, by simp, by simp⟩
  | append_singleton fraction c ih =>
      rw [List.length_append, List.length_singleton, eraseZeros, ← List.append_assoc,
        List.getLast?_concat, List.dropLast_concat]
      by_cases herase : decimalPoint < fraction.length + 1 ∧ some c = some '0'
      · obtain ⟨kept, zeros, hfraction, heq, hzeros, hlong, hlast⟩ := ih
        rw [if_pos herase, heq]
        refine ⟨kept, zeros ++ [c], by rw [hfraction, List.append_assoc], rfl, ?_, ?_, hlast⟩
        · intro d hd
          rcases List.mem_append.mp hd with hd | hd
          · exact hzeros d hd
          · rw [List.mem_singleton.mp hd]
            exact Option.some.inj herase.2
        · intro _
          by_cases hnil : zeros = []
          · rw [hnil, List.append_nil] at hfraction
            rw [← hfraction]
            omega
          · exact hlong hnil
      · rw [if_neg herase]
        refine ⟨fraction ++ [c], [], by simp, by simp, by simp, by simp, ?_⟩
        intro hlt hlast
        rw [List.length_append, List.length_singleton] at hlt
        rw [List.getLast?_concat] at hlast
        exact herase ⟨hlt, hlast⟩

def scaledValue (decimalPoint : ℕ) (whole fraction : List Char) : ℕ :=
  Nat.ofDigitChars 10 (whole ++ fraction) 0 * 10 ^ (decimalPoint - fraction.length)

theorem not_mem_of_digits {s : List Char} (h : ∀ c ∈ s, c.isDigit) : '.' ∉ s := by
  intro hmem
  have hdigit := h '.' hmem
  revert hdigit
  decide

theorem eq_of_first_point {front front' rest rest' : List Char} (hfront : '.' ∉ front)
    (hfront' : '.' ∉ front') (h : front ++ '.' :: rest = front' ++ '.' :: rest') :
    front = front' ∧ rest = rest' := by
  rcases List.append_eq_append_iff.mp h with ⟨a, rfl, ha⟩ | ⟨a, rfl, ha⟩
  · cases a with
    | nil => exact ⟨(List.append_nil _).symm, (List.cons.inj ha).2⟩
    | cons c a =>
        rw [← (List.cons.inj ha).1] at hfront'
        simp at hfront'
  · cases a with
    | nil => exact ⟨List.append_nil _, (List.cons.inj ha).2.symm⟩
    | cons c a =>
        rw [← (List.cons.inj ha).1] at hfront
        simp at hfront

/-- What the loop keeps is the fraction, however the amount is read. -/
theorem Written.unique {decimalPoint : ℕ} {front kept dropped whole fraction zeros : List Char}
    (h : Written decimalPoint (front ++ '.' :: (kept ++ dropped)) whole fraction zeros)
    (hfront : '.' ∉ front) (hlong : dropped ≠ [] → decimalPoint ≤ kept.length)
    (hlast : decimalPoint < kept.length → kept.getLast? ≠ some '0') :
    kept.length ≤ decimalPoint ∧ whole = front ∧ fraction = kept := by
  have hwhole : '.' ∉ whole :=
    not_mem_of_digits fun c hc => h.digits c (List.mem_append_left _ hc)
  have hfits := h.fits
  rcases h.text with htext | ⟨htext, -, -⟩
  · obtain ⟨rfl, hrest⟩ := eq_of_first_point hfront hwhole htext
    rcases List.append_eq_append_iff.mp hrest with ⟨a, rfl, rfl⟩ | ⟨a, rfl, rfl⟩
    · -- the fraction has what is kept and some of the zeros
      by_cases ha : a = []
      · rw [ha, List.append_nil] at hfits
        exact ⟨hfits, rfl, by rw [ha, List.append_nil]⟩
      · have hlength := hlong (by simp [ha])
        have hpos := List.length_pos_iff.mpr ha
        rw [List.length_append] at hfits
        omega
    · by_cases ha : a = []
      · rw [ha, List.append_nil]
        exact ⟨hfits, rfl, rfl⟩
      · -- the loop would have gone on
        exfalso
        have hsize := h.dropped (by simp [ha])
        have hpos := List.length_pos_iff.mpr ha
        apply hlast
        · rw [List.length_append]
          omega
        · rw [List.getLast?_append_of_ne_nil _ ha, List.getLast?_eq_some_getLast ha]
          congr 1
          exact h.onlyZeros _ (List.mem_append_left _ (List.getLast_mem ha))
  · exfalso
    apply hwhole
    rw [← htext]
    simp

theorem parseAmount_eq_some {decimalPoint : ℕ} {s : List Char} {v : UInt64} :
    parseAmount decimalPoint s = some v ↔
      ∃ whole fraction zeros, Written decimalPoint (trim s) whole fraction zeros ∧
        whole ++ fraction ≠ [] ∧ scaledValue decimalPoint whole fraction = v.toNat := by
  rw [parseAmount]
  generalize trim s = t
  by_cases hpoint : '.' ∈ t
  · obtain ⟨whole, rest, rfl, hwhole⟩ := List.eq_append_cons_of_mem hpoint
    have hindex : (whole ++ '.' :: rest).idxOf '.' = whole.length := by
      rw [List.idxOf_append_of_notMem hwhole, List.idxOf_cons_self, Nat.add_zero]
    have hsize : (whole ++ '.' :: rest).length - whole.length - 1 = rest.length := by
      rw [List.length_append, List.length_cons]
      omega
    obtain ⟨kept, zeros, hrest, heq, hzeros, hlong, hlast⟩ :=
      eraseZeros_spec decimalPoint (whole ++ ['.']) rest
    rw [List.append_assoc, List.append_assoc, List.singleton_append, List.singleton_append] at heq
    have herase : (whole ++ '.' :: kept).eraseIdx whole.length = whole ++ kept := by
      rw [List.eraseIdx_append_of_length_le (Nat.le_refl _), Nat.sub_self]
      rfl
    simp only [if_pos hpoint, hindex, hsize, heq, herase]
    constructor
    · intro h
      by_cases hfits : decimalPoint < kept.length
      · rw [if_pos hfits] at h
        cases h
      rw [if_neg hfits, parseDigits_eq_some] at h
      obtain ⟨hnil, hdigits, hvalue⟩ := h
      refine ⟨whole, kept, zeros, ⟨.inl (by rw [hrest]), hdigits, hzeros, by omega, ?_⟩, hnil,
        hvalue⟩
      intro hne
      have hle := hlong hne
      omega
    · rintro ⟨whole', fraction, zeros', hwritten, hnil, hvalue⟩
      rw [hrest] at hwritten
      obtain ⟨hfits, rfl, rfl⟩ := hwritten.unique hwhole hlong hlast
      rw [if_neg (Nat.not_lt.mpr hfits), parseDigits_eq_some]
      exact ⟨hnil, hwritten.digits, hvalue⟩
  · simp only [if_neg hpoint]
    rw [parseDigits_eq_some]
    constructor
    · rintro ⟨hnil, hdigits, hvalue⟩
      refine ⟨t, [], [], ⟨.inr ⟨rfl, rfl, rfl⟩, ?_, by simp, by simp, by simp⟩, ?_, ?_⟩
      · rw [List.append_nil]
        exact hdigits
      · rw [List.append_nil]
        exact hnil
      · rw [scaledValue, List.append_nil]
        exact hvalue
    · rintro ⟨whole, fraction, zeros, hwritten, hnil, hvalue⟩
      have hdigits := hwritten.digits
      rcases hwritten.text with rfl | ⟨rfl, rfl, -⟩
      · simp at hpoint
      · rw [scaledValue, List.append_nil] at hvalue
        rw [List.append_nil] at hnil hdigits
        exact ⟨hnil, hdigits, hvalue⟩

/-! ### What is printed -/

theorem trim_of_digits {s : List Char} (h : ∀ c ∈ s, isSpace c = false) : trim s = s := by
  have hright : s.rdropWhile isSpace = s := by
    rw [List.rdropWhile_eq_self_iff]
    intro hs hspace
    rw [h _ (List.getLast_mem hs)] at hspace
    cases hspace
  rw [trim, hright, List.dropWhile_eq_self_iff]
  intro hs hspace
  rw [h _ (List.getElem_mem hs)] at hspace
  cases hspace

/-- The digits of an amount, with zeros before them up to one digit before the point. -/
def paddedDigits (amount : UInt64) (decimalPoint : ℕ) : List Char :=
  List.replicate (decimalPoint + 1 - (Nat.toDigits 10 amount.toNat).length) '0' ++
    Nat.toDigits 10 amount.toNat

theorem length_paddedDigits (amount : UInt64) (decimalPoint : ℕ) :
    decimalPoint + 1 ≤ (paddedDigits amount decimalPoint).length := by
  rw [paddedDigits, List.length_append, List.length_replicate]
  omega

theorem isDigit_paddedDigits (amount : UInt64) (decimalPoint : ℕ) :
    ∀ c ∈ paddedDigits amount decimalPoint, c.isDigit := by
  intro c hc
  rcases List.mem_append.mp hc with hc | hc
  · rw [(List.mem_replicate.mp hc).2]
    rfl
  · exact Nat.isDigit_of_mem_toDigits (by decide) (Nat.le_refl 10) hc

theorem ofDigitChars_paddedDigits (amount : UInt64) (decimalPoint : ℕ) :
    Nat.ofDigitChars 10 (paddedDigits amount decimalPoint) 0 = amount.toNat := by
  rw [paddedDigits, Nat.ofDigitChars_append, Nat.ofDigitChars_replicate_zero, Nat.mul_zero,
    Nat.ofDigitChars_ten_toDigits]

theorem printMoney_eq (amount : UInt64) (decimalPoint : ℕ) :
    printMoney amount decimalPoint =
      if 0 < decimalPoint then
        (paddedDigits amount decimalPoint).insertIdx
          ((paddedDigits amount decimalPoint).length - decimalPoint) '.'
      else paddedDigits amount decimalPoint := by
  have hpadded : (if (Nat.toDigits 10 amount.toNat).length < decimalPoint + 1 then
      List.replicate (decimalPoint + 1 - (Nat.toDigits 10 amount.toNat).length) '0' ++
        Nat.toDigits 10 amount.toNat else Nat.toDigits 10 amount.toNat) =
      paddedDigits amount decimalPoint := by
    rw [paddedDigits]
    split
    · rfl
    · rw [Nat.sub_eq_zero_of_le (by omega)]
      rfl
  simp only [printMoney, hpadded]

theorem insertIdx_append {α : Type} (l l' : List α) (a : α) :
    (l ++ l').insertIdx l.length a = l ++ a :: l' := by
  induction l with
  | nil => rfl
  | cons b l ih => simp [ih]

theorem isSpace_of_isDigit {c : Char} (h : c.isDigit) : isSpace c = false := by
  rw [isSpace, Bool.eq_false_iff]
  intro hspace
  rw [List.contains_iff_mem] at hspace
  simp only [List.mem_cons, List.not_mem_nil, or_false] at hspace
  rcases hspace with rfl | rfl | rfl | rfl | rfl | rfl <;> revert h <;> decide

theorem parseAmount_printMoney (amount : UInt64) (decimalPoint : ℕ) :
    parseAmount decimalPoint (printMoney amount decimalPoint) = some amount := by
  have hdigits := isDigit_paddedDigits amount decimalPoint
  have hvalue := ofDigitChars_paddedDigits amount decimalPoint
  have hlength := length_paddedDigits amount decimalPoint
  rw [parseAmount_eq_some, printMoney_eq]
  generalize paddedDigits amount decimalPoint = s at hdigits hvalue hlength ⊢
  by_cases hpoint : 0 < decimalPoint
  · rw [if_pos hpoint]
    obtain ⟨whole, fraction, rfl, hfraction⟩ : ∃ whole fraction, s = whole ++ fraction ∧
        fraction.length = decimalPoint := by
      refine ⟨s.take (s.length - decimalPoint), s.drop (s.length - decimalPoint),
        (List.take_append_drop _ s).symm, ?_⟩
      rw [List.length_drop]
      omega
    have hindex : (whole ++ fraction).length - decimalPoint = whole.length := by
      rw [List.length_append, hfraction, Nat.add_sub_cancel]
    have hprinted : trim (whole ++ '.' :: fraction) = whole ++ '.' :: fraction := by
      apply trim_of_digits
      intro c hc
      rcases List.mem_append.mp hc with hc | hc
      · exact isSpace_of_isDigit (hdigits c (List.mem_append_left _ hc))
      rcases List.mem_cons.mp hc with rfl | hc
      · rfl
      · exact isSpace_of_isDigit (hdigits c (List.mem_append_right _ hc))
    rw [hindex, insertIdx_append, hprinted]
    refine ⟨whole, fraction, [], ⟨.inl (by rw [List.append_nil]), hdigits, by simp,
      hfraction.le, by simp⟩, ?_, ?_⟩
    · exact List.length_pos_iff.mp (by omega)
    · rw [scaledValue, hvalue, hfraction, Nat.sub_self, Nat.pow_zero, Nat.mul_one]
  · rw [if_neg hpoint, trim_of_digits (fun c hc => isSpace_of_isDigit (hdigits c hc))]
    obtain rfl : decimalPoint = 0 := by omega
    refine ⟨s, [], [], ⟨.inr ⟨rfl, rfl, rfl⟩, ?_, by simp, by simp, by simp⟩, ?_, ?_⟩
    · rw [List.append_nil]
      exact hdigits
    · exact List.length_pos_iff.mp (by rw [List.append_nil]; omega)
    · rw [scaledValue, List.append_nil, hvalue]
      simp

/-- The amounts that are accepted if a digit before the zeros are dropped is enough. -/
def AcceptsAnyDigit (decimalPoint : ℕ) (s : List Char) : Prop :=
  ∀ v : UInt64, parseAmount decimalPoint s = some v ↔
    ∃ whole fraction zeros, Written decimalPoint (trim s) whole fraction zeros ∧
      whole ++ fraction ++ zeros ≠ [] ∧ scaledValue decimalPoint whole fraction = v.toNat

/-- What is printed is parsed again, and an amount is parsed exactly when it is a number of
this form. A digit has to be left when the zeros are dropped. -/
theorem amount_codec :
    (∀ decimalPoint amount,
      parseAmount decimalPoint (printMoney amount decimalPoint) = some amount) ∧
    ∀ decimalPoint s v, parseAmount decimalPoint s = some v ↔
      ∃ whole fraction zeros, Written decimalPoint (trim s) whole fraction zeros ∧
        whole ++ fraction ≠ [] ∧ scaledValue decimalPoint whole fraction = v.toNat :=
  ⟨fun decimalPoint amount => parseAmount_printMoney amount decimalPoint,
    fun _ _ _ => parseAmount_eq_some⟩

example : parseAmount 12 " 100.0001 ".toList = some 100000100000000 := by decide
example : printMoney 100000100000000 12 = "100.000100000000".toList := by decide

/-- `.0` has a digit, but it is dropped if there are no decimals. -/
theorem pointZero_refused : 0 ∈ decimalPoints ∧ ¬AcceptsAnyDigit 0 ['.', '0'] := by
  refine ⟨by decide, ?_⟩
  intro h
  have hrefused : parseAmount 0 ['.', '0'] = none := by decide
  have haccepted := (h 0).mpr ⟨[], [], ['0'], ⟨.inl (by decide), by simp, by simp, by simp,
    by simp⟩, by simp, by decide⟩
  rw [hrefused] at haccepted
  cases haccepted

end XrCoin.Cryptonote
