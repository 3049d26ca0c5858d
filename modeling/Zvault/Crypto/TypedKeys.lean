import Mathlib.Logic.Relation
import Zvault.Text.AsciiCase
import Zvault.Text.Chunks
import Zvault.Text.Regex

/-!
# Keys that are typed

`secret_key.rs`, and the text of `recovery.rs`: what is printed is read back however
it is typed, and two texts that are read mean the same key exactly when they are
spellings of one. The code reads bytes; those of a character beyond ASCII are never
in the alphabet.
-/

namespace Zvault.Crypto

open Relation (ReflTransGen)
open Text (chunks Regex)

/-- `ALPHABET`: Crockford base32, without I, L, O and U. -/
def crockford : List Char := "0123456789ABCDEFGHJKMNPQRSTVWXYZ".toList

/-- Characters of the alphabet. -/
structure Symbols (n : ℕ) where
  chars : List Char
  length_eq : chars.length = n
  isSymbol : ∀ c ∈ chars, c ∈ crockford
  deriving DecidableEq, Repr

/-- `fill_alphabet`, with the bytes that are drawn. -/
def Symbols.fill {n : ℕ} (random : Fin n → UInt8) : Symbols n where
  chars := List.ofFn fun i => crockford.getD (random i &&& 0x1f).toNat '0'
  length_eq := List.length_ofFn
  isSymbol c hc := by
    obtain ⟨i, rfl⟩ := List.mem_ofFn.mp hc
    have hsymbol : ∀ d < 32, crockford.getD d '0' ∈ crockford := by decide
    refine hsymbol _ ?_
    rw [UInt8.toNat_and]
    exact Nat.lt_of_le_of_lt Nat.and_le_right (by decide)

def Symbols.ofChars (n : ℕ) (chars : List Char) : Option (Symbols n) :=
  if h : chars.length = n ∧ (chars.all fun c => decide (c ∈ crockford)) = true then
    some ⟨chars, h.1, Text.forall_mem_of_all h.2⟩
  else none

def Symbols.take {n : ℕ} (s : Symbols n) (m : ℕ) : Symbols (min m n) where
  chars := s.chars.take m
  length_eq := by rw [List.length_take, s.length_eq]
  isSymbol c hc := s.isSymbol c (List.mem_of_mem_take hc)

def Symbols.drop {n : ℕ} (s : Symbols n) (m : ℕ) : Symbols (n - m) where
  chars := s.chars.drop m
  length_eq := by rw [List.length_drop, s.length_eq]
  isSymbol c hc := s.isSymbol c (List.mem_of_mem_drop hc)

/-- What a typed character is read as: its upper case, and O, I and L as the digits they
look like. -/
def readAs (c : Char) : Char :=
  if c.toUpper = 'O' then '0'
  else if c.toUpper = 'I' ∨ c.toUpper = 'L' then '1'
  else c.toUpper

/-- A typed text as it is read, without separators. -/
def normalized (separators typed : List Char) : List Char :=
  (typed.filter fun c => c ∉ separators).map readAs

/-- What `parse` of a Secret Key and of a recovery code have in common: the characters behind the
version. -/
def parseTyped (version separators : List Char) (n : ℕ) (typed : List Char) : Option (Symbols n) :=
  let chars := normalized separators typed
  if version.isPrefixOf chars then Symbols.ofChars n (chars.drop version.length) else none

/-- The groups of a displayed code, each behind a dash. -/
def dashed (chars : List Char) : List Char := (chunks 5 chars).flatMap ('-' :: ·)

/-- `SecretKey`. -/
structure SecretKey where
  id : Symbols 6
  secret : Symbols 25
  deriving DecidableEq, Repr

namespace SecretKey

/-- `VERSION`. -/
def version : List Char := "Z1".toList

/-- What `parse` ignores. -/
def separators : List Char := ['-', ' ', '\t']

/-- `generate`, with the bytes that are drawn. -/
def generate (id : Fin 6 → UInt8) (secret : Fin 25 → UInt8) : SecretKey :=
  ⟨.fill id, .fill secret⟩

def parse (typed : List Char) : Option SecretKey :=
  (parseTyped version separators (6 + 25) typed).map fun s => ⟨s.take 6, s.drop 6⟩

/-- `to_display_string`. -/
def toDisplayString (key : SecretKey) : List Char :=
  version ++ '-' :: key.id.chars ++ dashed key.secret.chars

end SecretKey

/-- `RecoveryCode`. -/
structure RecoveryCode where
  symbols : Symbols 30
  deriving DecidableEq, Repr

namespace RecoveryCode

/-- `VERSION`. -/
def version : List Char := "R1".toList

/-- What `parse` ignores. -/
def separators : List Char := ['-', ' ', '\t', '\n', '\r']

/-- `generate`, with the bytes that are drawn. -/
def generate (random : Fin 30 → UInt8) : RecoveryCode := ⟨.fill random⟩

def parse (typed : List Char) : Option RecoveryCode :=
  (parseTyped version separators 30 typed).map RecoveryCode.mk

/-- `to_display_string`. -/
def toDisplayString (code : RecoveryCode) : List Char := version ++ dashed code.symbols.chars

end RecoveryCode

/-- A character class of `SECRET_KEY_PATTERN`: `[0-9A-HJKMNP-TV-Z]`. -/
def isPatternChar (c : Char) : Bool :=
  ('0' ≤ c && c ≤ '9') || ('A' ≤ c && c ≤ 'H') || c == 'J' || c == 'K' || c == 'M' || c == 'N' ||
    ('P' ≤ c && c ≤ 'T') || ('V' ≤ c && c ≤ 'Z')

/-- `SECRET_KEY_PATTERN` of the shared schema. -/
def secretKeyPattern : Regex Char :=
  .seq (.lit ['Z', '1', '-']) (.seq (.times 6 (.char isPatternChar))
    (.times 5 (.seq (.lit ['-']) (.times 5 (.char isPatternChar)))))

/-- The characters that are read as a digit they look like. -/
def lookAlikes : List (Char × Char) :=
  [('0', 'O'), ('0', 'o'), ('1', 'I'), ('1', 'i'), ('1', 'L'), ('1', 'l')]

/-- One change to how a key is typed. -/
inductive Respelled (separators : List Char) : List Char → List Char → Prop
  | letterCase (before after : List Char) {c d : Char} (h : c.toUpper = d.toUpper) :
      Respelled separators (before ++ c :: after) (before ++ d :: after)
  | insert (before after : List Char) {c : Char} (h : c ∈ separators) :
      Respelled separators (before ++ after) (before ++ c :: after)
  | remove (before after : List Char) {c : Char} (h : c ∈ separators) :
      Respelled separators (before ++ c :: after) (before ++ after)
  | lookAlike (before after : List Char) {c d : Char} (h : (c, d) ∈ lookAlikes) :
      Respelled separators (before ++ c :: after) (before ++ d :: after)

section Spelling

variable {separators : List Char}

@[simp] theorem normalized_nil : normalized separators [] = [] := rfl

theorem normalized_append (typed typed' : List Char) :
    normalized separators (typed ++ typed') =
      normalized separators typed ++ normalized separators typed' := by
  rw [normalized, List.filter_append, List.map_append, normalized, normalized]

theorem normalized_cons (c : Char) (typed : List Char) :
    normalized separators (c :: typed) =
      if c ∈ separators then normalized separators typed
      else readAs c :: normalized separators typed := by
  by_cases hc : c ∈ separators
  · rw [if_pos hc, normalized, List.filter_cons_of_neg (by simpa using hc), normalized]
  · rw [if_neg hc, normalized, List.filter_cons_of_pos (by simpa using hc), List.map_cons, normalized]

/-- A character that is not a separator and is read as it is. -/
def IsPlain (separators : List Char) (c : Char) : Prop := c ∉ separators ∧ readAs c = c

theorem normalized_of_isPlain {typed : List Char} (h : ∀ c ∈ typed, IsPlain separators c) :
    normalized separators typed = typed := by
  induction typed with
  | nil => rfl
  | cons c typed ih =>
    obtain ⟨hc, hread⟩ := h c List.mem_cons_self
    rw [normalized_cons, if_neg hc, hread, ih fun c hc => h c (List.mem_cons_of_mem _ hc)]

/-- However a text is spelled, it is read in one way. -/
theorem Respelled.normalized_eq {typed typed' : List Char} (h : Respelled separators typed typed')
    (hletters : ∀ c ∈ separators, c.isAlphanum = false) :
    normalized separators typed' = normalized separators typed := by
  have hseparator {c d : Char} (hsame : c.toUpper = d.toUpper) (hc : c ∈ separators) : c = d := by
    have halpha : c.isAlpha = false := (Bool.or_eq_false_iff.mp (hletters c hc)).1
    rw [(Text.toUpper_eq_iff halpha).mpr rfl] at hsame
    exact ((Text.toUpper_eq_iff halpha).mp hsame.symm).symm
  cases h with
  | @letterCase before after c d hsame =>
    rw [normalized_append, normalized_append, normalized_cons, normalized_cons]
    by_cases hc : c ∈ separators
    · rw [hseparator hsame hc]
    · have hd : d ∉ separators := fun hd => hc (hseparator hsame.symm hd ▸ hd)
      rw [if_neg hc, if_neg hd, readAs, readAs, hsame]
  | insert before after hc =>
    rw [normalized_append, normalized_append, normalized_cons, if_pos hc]
  | remove before after hc =>
    rw [normalized_append, normalized_append, normalized_cons, if_pos hc]
  | @lookAlike before after c d hlook =>
    have hspec : ∀ pair ∈ lookAlikes, pair.1.isAlphanum = true ∧ pair.2.isAlphanum = true ∧
        readAs pair.1 = readAs pair.2 := by decide
    obtain ⟨hc, hd, hread⟩ := hspec _ hlook
    have hnot {e : Char} (he : e.isAlphanum = true) : e ∉ separators := fun hmem => by
      rw [hletters e hmem] at he
      cases he
    rw [normalized_append, normalized_append, normalized_cons, normalized_cons, if_neg (hnot hc),
      if_neg (hnot hd), hread]

theorem normalized_eq_of_respelled {typed typed' : List Char}
    (h : ReflTransGen (Respelled separators) typed typed')
    (hletters : ∀ c ∈ separators, c.isAlphanum = false) :
    normalized separators typed' = normalized separators typed := by
  induction h with
  | refl => rfl
  | tail _ hstep ih => rw [hstep.normalized_eq hletters, ih]

end Spelling

section Parsing

variable {version separators : List Char} {n : ℕ}

theorem Symbols.ofChars_eq_some_iff {chars : List Char} {s : Symbols n} :
    Symbols.ofChars n chars = some s ↔ chars = s.chars := by
  unfold ofChars
  constructor
  · intro h
    split_ifs at h
    exact congrArg Symbols.chars (Option.some_inj.mp h)
  · rintro rfl
    exact dif_pos ⟨s.length_eq, List.all_eq_true.mpr fun c hc => decide_eq_true (s.isSymbol c hc)⟩

/-- A text is read as the characters that it has behind the version. -/
theorem parseTyped_eq_some_iff {typed : List Char} {s : Symbols n} :
    parseTyped version separators n typed = some s ↔
      normalized separators typed = version ++ s.chars := by
  simp only [parseTyped]
  constructor
  · intro h
    split_ifs at h with hversion
    obtain ⟨rest, hnormalized⟩ := List.isPrefixOf_iff_prefix.mp hversion
    rw [← hnormalized, List.drop_left, Symbols.ofChars_eq_some_iff] at h
    rw [← hnormalized, h]
  · intro h
    rw [h, if_pos (List.isPrefixOf_iff_prefix.mpr (List.prefix_append _ _)), List.drop_left]
    exact Symbols.ofChars_eq_some_iff.mpr rfl

theorem normalized_dashed (hdash : '-' ∈ separators) {chars : List Char}
    (h : ∀ c ∈ chars, IsPlain separators c) : normalized separators (dashed chars) = chars := by
  rw [dashed]
  induction chars using Text.chunks_induction (n := 5) (by decide) with
  | nil => rfl
  | step chars hne ih =>
    rw [Text.chunks_eq_cons (by decide) hne, List.flatMap_cons, List.cons_append, normalized_cons,
      if_pos hdash, normalized_append, ih fun c hc => h c (List.mem_of_mem_drop hc),
      normalized_of_isPlain fun c hc => h c (List.mem_of_mem_take hc), List.take_append_drop]

end Parsing

section Keys

theorem crockford_isPlain {c : Char} (hc : c ∈ crockford) :
    IsPlain SecretKey.separators c ∧ IsPlain RecoveryCode.separators c ∧ isPatternChar c = true := by
  have hspec : ∀ c ∈ crockford, (c ∉ SecretKey.separators ∧ readAs c = c) ∧
      (c ∉ RecoveryCode.separators ∧ readAs c = c) ∧ isPatternChar c = true :=
    Text.forall_mem_of_all (by decide)
  exact hspec c hc

/-- What is displayed of a Secret Key is its characters behind the version. -/
theorem SecretKey.normalized_toDisplayString (key : SecretKey) :
    normalized separators key.toDisplayString = version ++ (key.id.chars ++ key.secret.chars) := by
  have hversion : normalized separators version = version := by decide
  have hdash : '-' ∈ separators := List.mem_cons_self
  rw [toDisplayString, List.append_assoc, List.cons_append, normalized_append, normalized_cons,
    if_pos hdash, normalized_append, hversion,
    normalized_of_isPlain fun c hc => (crockford_isPlain (key.id.isSymbol c hc)).1,
    normalized_dashed hdash fun c hc => (crockford_isPlain (key.secret.isSymbol c hc)).1]

theorem RecoveryCode.normalized_toDisplayString (code : RecoveryCode) :
    normalized separators code.toDisplayString = version ++ code.symbols.chars := by
  have hversion : normalized separators version = version := by decide
  have hdash : '-' ∈ separators := List.mem_cons_self
  rw [toDisplayString, normalized_append, hversion,
    normalized_dashed hdash fun c hc => (crockford_isPlain (code.symbols.isSymbol c hc)).2.1]

theorem Symbols.ext {n : ℕ} {s s' : Symbols n} (h : s.chars = s'.chars) : s = s' := by
  cases s
  cases s'
  cases h
  rfl

/-- A typed text is a Secret Key when its characters behind the version are those of the key. -/
theorem SecretKey.parse_eq_some_iff {typed : List Char} {key : SecretKey} :
    parse typed = some key ↔
      normalized separators typed = version ++ (key.id.chars ++ key.secret.chars) := by
  unfold parse
  rw [Option.map_eq_some_iff]
  constructor
  · rintro ⟨s, hs, rfl⟩
    rw [parseTyped_eq_some_iff.mp hs]
    exact congrArg _ (List.take_append_drop 6 s.chars).symm
  · intro h
    have hlength : (key.id.chars ++ key.secret.chars).length = 6 + 25 := by
      rw [List.length_append, key.id.length_eq, key.secret.length_eq]
    have hsymbol : ∀ c ∈ key.id.chars ++ key.secret.chars, c ∈ crockford := fun c hc =>
      (List.mem_append.mp hc).elim (key.id.isSymbol c) (key.secret.isSymbol c)
    refine ⟨⟨_, hlength, hsymbol⟩, parseTyped_eq_some_iff.mpr h, ?_⟩
    have htake : (key.id.chars ++ key.secret.chars).take 6 = key.id.chars :=
      List.take_left' key.id.length_eq
    have hdrop : (key.id.chars ++ key.secret.chars).drop 6 = key.secret.chars :=
      List.drop_left' key.id.length_eq
    cases key
    exact congrArg₂ SecretKey.mk (Symbols.ext htake) (Symbols.ext hdrop)

theorem RecoveryCode.parse_eq_some_iff {typed : List Char} {code : RecoveryCode} :
    parse typed = some code ↔ normalized separators typed = version ++ code.symbols.chars := by
  unfold parse
  rw [Option.map_eq_some_iff]
  constructor
  · rintro ⟨s, hs, rfl⟩
    exact parseTyped_eq_some_iff.mp hs
  · exact fun h => ⟨code.symbols, parseTyped_eq_some_iff.mpr h, rfl⟩

theorem SecretKey.isAlphanum_separator : ∀ c ∈ separators, c.isAlphanum = false :=
  Text.forall_mem_of_all (by decide)

theorem RecoveryCode.isAlphanum_separator : ∀ c ∈ separators, c.isAlphanum = false :=
  Text.forall_mem_of_all (by decide)

/-- A displayed Secret Key matches the pattern of the schema. -/
theorem SecretKey.fullMatch_toDisplayString (key : SecretKey) :
    (secretKeyPattern.fullMatch key.toDisplayString).isSome = true := by
  have hchar {n : ℕ} (s : Symbols n) {part : List Char} (hpart : ∀ c ∈ part, c ∈ s.chars) :
      ∀ c ∈ part, isPatternChar c = true :=
    fun c hc => (crockford_isPlain (s.isSymbol c (hpart c hc))).2.2
  have hid : Regex.Matches (.times key.id.chars.length (.char isPatternChar)) (fun _ => none)
      key.id.chars fun _ => none := Regex.matches_times_char (hchar key.id fun _ hc => hc)
  rw [key.id.length_eq] at hid
  have hgroup : ∀ part ∈ (chunks 5 key.secret.chars).map ('-' :: ·),
      Regex.Matches (.seq (.lit ['-']) (.times 5 (.char isPatternChar))) (fun _ => none) part
        fun _ => none := by
    intro part hpart
    obtain ⟨chars, hchars, rfl⟩ := List.mem_map.mp hpart
    have hlength : chars.length = 5 := Text.length_of_mem_chunks (by decide)
      (by rw [key.secret.length_eq]; decide) hchars
    have hmatch : Regex.Matches (.times chars.length (.char isPatternChar)) (fun _ => none) chars
        fun _ => none := Regex.matches_times_char
      (hchar key.secret fun c hc => Text.subset_of_mem_chunks (by decide) hchars hc)
    rw [hlength] at hmatch
    exact (Regex.matches_lit.mpr ⟨rfl, rfl⟩).seq hmatch
  have hgroups := Regex.matches_times hgroup
  have hcount : ((chunks 5 key.secret.chars).map ('-' :: ·)).length = 5 := by
    rw [List.length_map, Text.length_chunks, key.secret.length_eq]
  rw [hcount, ← List.flatMap_def] at hgroups
  refine (Regex.fullMatch_isSome_iff _ _).mpr ⟨fun _ => none, ?_⟩
  have hversion : Regex.Matches (.lit ['Z', '1', '-']) (fun _ => none) ['Z', '1', '-'] fun _ => none :=
    Regex.matches_lit.mpr ⟨rfl, rfl⟩
  have htext : key.toDisplayString =
      ['Z', '1', '-'] ++ (key.id.chars ++ dashed key.secret.chars) := rfl
  rw [htext]
  exact hversion.seq (hid.seq hgroups)

/-- **Typed keys mean what was printed.** However a displayed Secret Key or recovery code is typed,
it is read back; two texts that are read mean the same key exactly when they are read in one way;
and a displayed Secret Key matches the pattern of the schema. -/
theorem typed_keys :
    (∀ (key : SecretKey) typed,
      ReflTransGen (Respelled SecretKey.separators) key.toDisplayString typed →
        SecretKey.parse typed = some key) ∧
    (∀ (code : RecoveryCode) typed,
      ReflTransGen (Respelled RecoveryCode.separators) code.toDisplayString typed →
        RecoveryCode.parse typed = some code) ∧
    (∀ typed typed' key key', SecretKey.parse typed = some key →
      SecretKey.parse typed' = some key' →
        (key = key' ↔ normalized SecretKey.separators typed =
          normalized SecretKey.separators typed')) ∧
    (∀ typed typed' code code', RecoveryCode.parse typed = some code →
      RecoveryCode.parse typed' = some code' →
        (code = code' ↔ normalized RecoveryCode.separators typed =
          normalized RecoveryCode.separators typed')) ∧
    ∀ key : SecretKey, (secretKeyPattern.fullMatch key.toDisplayString).isSome = true := by
  refine ⟨fun key typed h => ?_, fun code typed h => ?_, ?_, ?_,
    SecretKey.fullMatch_toDisplayString⟩
  · rw [SecretKey.parse_eq_some_iff, normalized_eq_of_respelled h SecretKey.isAlphanum_separator]
    exact key.normalized_toDisplayString
  · rw [RecoveryCode.parse_eq_some_iff,
      normalized_eq_of_respelled h RecoveryCode.isAlphanum_separator]
    exact code.normalized_toDisplayString
  · intro typed typed' key key' h h'
    rw [SecretKey.parse_eq_some_iff] at h
    constructor
    · rintro rfl
      rw [h, SecretKey.parse_eq_some_iff.mp h']
    · intro hsame
      rw [hsame, ← SecretKey.parse_eq_some_iff, h'] at h
      exact (Option.some_inj.mp h).symm
  · intro typed typed' code code' h h'
    rw [RecoveryCode.parse_eq_some_iff] at h
    constructor
    · rintro rfl
      rw [h, RecoveryCode.parse_eq_some_iff.mp h']
    · intro hsame
      rw [hsame, ← RecoveryCode.parse_eq_some_iff, h'] at h
      exact (Option.some_inj.mp h).symm

/-- The key of all zeros, with a letter for the first of them. -/
theorem typed_keys_zeros :
    SecretKey.parse "Z1-O00000-00000-00000-00000-00000-00000".toList =
      some (SecretKey.generate (fun _ => 0) fun _ => 0) :=
  typed_keys.1 _ _ (.single (.lookAlike ['Z', '1', '-'] _ (by decide)))

end Keys

end Zvault.Crypto
