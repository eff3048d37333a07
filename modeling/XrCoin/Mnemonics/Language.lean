import Mathlib

/-!
The word lists of mnemonic seeds.

A language finds a word by the first characters that tell it from the other words. Its maps are
filled from the list, and a list with two words of one prefix is refused unless a flag allows it.
-/

namespace XrCoin.Mnemonics

abbrev Word : Type := List UInt8

def text (s : String) : Word := s.toUTF8.toList

/-- A byte that goes on with a character, so that no character starts with it. -/
def continuesCharacter (c : UInt8) : Bool := c &&& 0xc0 = 0x80

def utf8Prefix : Word → ℕ → Word
  | _, 0 => []
  | [], _ + 1 => []
  | c :: s, count + 1 =>
      c :: s.takeWhile continuesCharacter ++ utf8Prefix (s.dropWhile continuesCharacter) count

def trimWord (uniquePrefixLength : ℕ) (word : Word) : Word :=
  if uniquePrefixLength < word.length then utf8Prefix word uniquePrefixLength else word

def allowShortWords : UInt32 := 1

def allowDuplicatePrefixes : UInt32 := 2

def nwords : ℕ := 1626

/-- `Language::Base`. In its maps the entry that was added last stands first. -/
structure Language where
  wordList : List Word
  wordMap : List (Word × UInt32)
  trimmedWordMap : List (Word × UInt32)
  languageName : Word
  englishLanguageName : Word
  uniquePrefixLength : ℕ

def populateWord (flags : UInt32) (lang : Language) (word : Word) (ii : ℕ) :
    Except Word Language :=
  let trimmed := trimWord lang.uniquePrefixLength word
  if word.length < lang.uniquePrefixLength ∧ flags &&& allowShortWords = 0 then
    .error (text "Too short word in " ++ lang.languageName ++ text " word list: " ++ word)
  else if (lang.trimmedWordMap.lookup trimmed).isSome ∧ flags &&& allowDuplicatePrefixes = 0 then
    .error (text "Duplicate prefix in " ++ lang.languageName ++ text " word list: " ++ trimmed)
  else
    .ok { lang with
      wordMap := (word, ii.toUInt32) :: lang.wordMap
      trimmedWordMap := (trimmed, ii.toUInt32) :: lang.trimmedWordMap }

def populateLoop (flags : UInt32) : List Word → ℕ → Language → Except Word Language
  | [], _, lang => .ok lang
  | word :: words, ii, lang =>
      match populateWord flags lang word ii with
      | .error e => .error e
      | .ok lang => populateLoop flags words (ii + 1) lang

def populateMaps (flags : UInt32) (lang : Language) : Except Word Language :=
  if lang.wordList.length ≠ nwords then
    .error (text "Wrong word list length for " ++ lang.languageName)
  else populateLoop flags lang.wordList 0 lang

def makeLanguage (languageName englishLanguageName : Word) (words : List Word) (prefixLength : ℕ)
    (flags : UInt32) : Except Word Language :=
  populateMaps flags
    { wordList := words
      wordMap := []
      trimmedWordMap := []
      languageName := languageName
      englishLanguageName := englishLanguageName
      uniquePrefixLength := prefixLength }

/-! ### Prefixes -/

theorem utf8Prefix_of_length_le {word : Word} {count : ℕ} (h : word.length ≤ count) :
    utf8Prefix word count = word := by
  induction count generalizing word with
  | zero =>
      rw [List.eq_nil_of_length_eq_zero (Nat.le_zero.mp h)]
      rfl
  | succ count ih =>
      cases word with
      | nil => rfl
      | cons c s =>
          have hrest : (s.dropWhile continuesCharacter).length ≤ count :=
            Nat.le_trans (List.dropWhile_sublist _).length_le (Nat.le_of_succ_le_succ h)
          rw [utf8Prefix, ih hrest, List.cons_append, List.takeWhile_append_dropWhile]

theorem trimWord_eq (uniquePrefixLength : ℕ) (word : Word) :
    trimWord uniquePrefixLength word = utf8Prefix word uniquePrefixLength := by
  rw [trimWord]
  split
  · rfl
  · rename_i h
    rw [utf8Prefix_of_length_le (Nat.not_lt.mp h)]

/-! ### Maps -/

def mapEntries (key : Word → Word) (words : List Word) (ii : ℕ) : List (Word × UInt32) :=
  ((words.zipIdx ii).map fun entry => (key entry.1, entry.2.toUInt32)).reverse

theorem mapEntries_cons (key : Word → Word) (word : Word) (words : List Word) (ii : ℕ) :
    mapEntries key (word :: words) ii = mapEntries key words (ii + 1) ++ [(key word, ii.toUInt32)] := by
  simp [mapEntries]

theorem populateLoop_eq_ok {flags : UInt32} {words : List Word} {ii : ℕ} {lang lang' : Language}
    (h : populateLoop flags words ii lang = .ok lang') :
    lang' = { lang with
      wordMap := mapEntries id words ii ++ lang.wordMap
      trimmedWordMap := mapEntries (trimWord lang.uniquePrefixLength) words ii ++
        lang.trimmedWordMap } := by
  induction words generalizing ii lang with
  | nil => exact (Except.ok.inj h).symm
  | cons word words ih =>
      rw [populateLoop] at h
      split at h
      · cases h
      · rename_i middle hword
        rw [ih h]
        simp only [populateWord] at hword
        split at hword
        · cases hword
        · split at hword
          · cases hword
          · rw [← Except.ok.inj hword]
            simp [mapEntries_cons]

theorem lookup_of_mem {entries : List (Word × UInt32)} (hkeys : (entries.map Prod.fst).Nodup)
    {word : Word} {i : UInt32} (h : (word, i) ∈ entries) : entries.lookup word = some i := by
  induction entries with
  | nil => cases h
  | cons entry entries ih =>
      obtain ⟨word', i'⟩ := entry
      rw [List.map_cons, List.nodup_cons] at hkeys
      rcases List.mem_cons.mp h with h | h
      · obtain ⟨rfl, rfl⟩ := Prod.mk.inj h
        exact List.lookup_cons_self
      · have hne : word ≠ word' := by
          intro hsame
          have hkey : word ∈ entries.map Prod.fst := List.mem_map.mpr ⟨_, h, rfl⟩
          exact hkeys.1 (hsame ▸ hkey)
        have hbeq : (word == word') = false := beq_eq_false_iff_ne.mpr hne
        rw [List.lookup_cons, hbeq]
        exact ih hkeys.2 h

/-- The entry of a word whose key no other word has. -/
theorem lookup_mapEntries {key : Word → Word} {words : List Word} (hkeys : (words.map key).Nodup)
    {i : ℕ} (hi : i < words.length) :
    (mapEntries key words 0).lookup (key words[i]) = some i.toUInt32 := by
  refine lookup_of_mem ?_ ?_
  · have hfst : (mapEntries key words 0).map Prod.fst = (words.map key).reverse := by
      rw [mapEntries, List.map_reverse, List.map_map]
      congr 1
      calc (words.zipIdx 0).map (Prod.fst ∘ fun entry => (key entry.1, entry.2.toUInt32))
          = ((words.zipIdx 0).map Prod.fst).map key := by rw [List.map_map]; rfl
        _ = words.map key := by rw [List.zipIdx_map_fst]
    rw [hfst]
    exact List.nodup_reverse.mpr hkeys
  · rw [mapEntries, List.mem_reverse]
    refine List.mem_map.mpr ⟨(words[i], i), ?_, rfl⟩
    rw [List.mem_zipIdx_iff_getElem?]
    exact List.getElem?_eq_getElem hi

/-- A language that was made from some words finds each of them by its prefix. -/
theorem makeLanguage_spec {languageName englishLanguageName : Word} {words : List Word}
    {prefixLength : ℕ} {flags : UInt32} {lang : Language}
    (h : makeLanguage languageName englishLanguageName words prefixLength flags = .ok lang)
    (hprefixes : (words.map fun word => utf8Prefix word prefixLength).Nodup) :
    lang.wordList = words ∧ lang.uniquePrefixLength = prefixLength ∧
      lang.languageName = languageName ∧ lang.englishLanguageName = englishLanguageName ∧
      words.length = nwords ∧ ∀ i (hi : i < words.length),
        lang.trimmedWordMap.lookup (utf8Prefix words[i] prefixLength) = some i.toUInt32 := by
  rw [makeLanguage, populateMaps] at h
  split at h
  · cases h
  · rename_i hlength
    rw [populateLoop_eq_ok h]
    refine ⟨rfl, rfl, rfl, rfl, not_not.mp hlength, fun i hi => ?_⟩
    have htrim : trimWord prefixLength = fun word => utf8Prefix word prefixLength :=
      funext (trimWord_eq prefixLength)
    simp only [htrim, List.append_nil]
    exact lookup_mapEntries hprefixes hi

theorem makeLanguage_wordMap {languageName englishLanguageName : Word} {words : List Word}
    {prefixLength : ℕ} {flags : UInt32} {lang : Language}
    (h : makeLanguage languageName englishLanguageName words prefixLength flags = .ok lang)
    (hwords : words.Nodup) {i : ℕ} (hi : i < words.length) :
    lang.wordMap.lookup words[i] = some i.toUInt32 := by
  rw [makeLanguage, populateMaps] at h
  split at h
  · cases h
  · rw [populateLoop_eq_ok h]
    have hkeys : (words.map id).Nodup := by rwa [List.map_id]
    simpa using lookup_mapEntries hkeys hi

/-- Words with prefixes of their own are accepted if they are long enough, whatever the flags. -/
theorem populateLoop_total {flags : UInt32} {words : List Word} {ii : ℕ} {lang : Language}
    (hlong : ∀ word ∈ words, lang.uniquePrefixLength ≤ word.length)
    (hprefixes : (words.map (trimWord lang.uniquePrefixLength)).Nodup)
    (hfresh : ∀ word ∈ words, lang.trimmedWordMap.lookup (trimWord lang.uniquePrefixLength word) =
      none) :
    ∃ lang', populateLoop flags words ii lang = .ok lang' := by
  induction words generalizing ii lang with
  | nil => exact ⟨lang, rfl⟩
  | cons word words ih =>
      have hshort : ¬word.length < lang.uniquePrefixLength :=
        Nat.not_lt.mpr (hlong word List.mem_cons_self)
      have hword : populateWord flags lang word ii = .ok { lang with
          wordMap := (word, ii.toUInt32) :: lang.wordMap
          trimmedWordMap := (trimWord lang.uniquePrefixLength word, ii.toUInt32) ::
            lang.trimmedWordMap } := by
        simp [populateWord, hshort, hfresh word List.mem_cons_self]
      rw [List.map_cons, List.nodup_cons] at hprefixes
      rw [populateLoop, hword]
      refine ih (fun w hw => hlong w (List.mem_cons_of_mem _ hw)) hprefixes.2 fun w hw => ?_
      have hne : trimWord lang.uniquePrefixLength w ≠ trimWord lang.uniquePrefixLength word := by
        intro hsame
        exact hprefixes.1 (hsame ▸ List.mem_map_of_mem hw)
      simp only
      rw [List.lookup_cons, beq_eq_false_iff_ne.mpr hne]
      exact hfresh w (List.mem_cons_of_mem _ hw)

theorem makeLanguage_total (languageName englishLanguageName : Word) {words : List Word}
    {prefixLength : ℕ} (flags : UInt32) (hlength : words.length = nwords)
    (hlong : ∀ word ∈ words, prefixLength ≤ word.length)
    (hprefixes : (words.map fun word => utf8Prefix word prefixLength).Nodup) :
    ∃ lang, makeLanguage languageName englishLanguageName words prefixLength flags = .ok lang := by
  have htrim : trimWord prefixLength = fun word => utf8Prefix word prefixLength :=
    funext (trimWord_eq prefixLength)
  rw [makeLanguage, populateMaps, if_neg (not_not.mpr hlength)]
  exact populateLoop_total hlong (htrim ▸ hprefixes) fun _ _ => rfl

end XrCoin.Mnemonics
