import Mathlib.Tactic.NormNum
import Zvault.Otp.Totp

/-!
# Setups that are parsed again

What `parse` makes of the URI that `to_uri` wrote. A setup comes back unless its
label is cut at a colon of the issuer or of an account without an issuer, or its
URI is longer than the input may be.
-/

namespace Zvault.Otp

open Text (trimmed splitOnce isWhitespace)

namespace Totp

/-- Only what `new` is given is in the result. -/
theorem new_eq_ok {secret : List UInt8} {algorithm : Algorithm} {digits period : ℕ}
    {issuer account : List Char} {t : Totp} :
    new secret algorithm digits period issuer account = .ok t ↔
      t.secret = secret ∧ t.algorithm = algorithm ∧ t.digits = digits ∧ t.period = period ∧
        t.issuer = issuer ∧ t.account = account := by
  constructor
  · intro h
    unfold new at h
    split_ifs at h
    cases h
    exact ⟨rfl, rfl, rfl, rfl, rfl, rfl⟩
  · rintro ⟨rfl, rfl, rfl, rfl, rfl, rfl⟩
    unfold new
    rw [dif_pos t.secret_length.1, dif_pos t.secret_length.2, dif_pos t.settings, dif_pos t.labels]

end Totp

/-- An issuer that was read has no white space around it. -/
def Params.Trimmed (s : Params) : Prop := ∀ issuer ∈ s.issuer, trimmed issuer = issuer

theorem Params.trimmed_set {s s' : Params} {k v : List Char} (hs : s.Trimmed)
    (h : s.set k v = .ok s') : s'.Trimmed := by
  unfold Params.set at h
  dsimp only at h
  split_ifs at h
  · obtain ⟨secret, -, h⟩ := Fallible.bind_eq_ok.mp h
    cases h
    exact hs
  · cases h
    intro issuer hissuer
    cases hissuer
    exact Text.trimmed_trimmed v
  · obtain ⟨algorithm, -, h⟩ := Fallible.bind_eq_ok.mp h
    cases h
    exact hs
  · obtain ⟨digits, -, h⟩ := Fallible.bind_eq_ok.mp h
    cases h
    exact hs
  · obtain ⟨period, -, h⟩ := Fallible.bind_eq_ok.mp h
    cases h
    exact hs
  · cases h
    exact hs

theorem Params.trimmed_foldlM {pairs : List (List Char)} {s s' : Params} (hs : s.Trimmed)
    (h : pairs.foldlM Params.read s = .ok s') : s'.Trimmed := by
  induction pairs generalizing s with
  | nil =>
    cases h
    exact hs
  | cons pair pairs ih =>
    rw [List.foldlM_cons] at h
    obtain ⟨s₁, hread, h⟩ := Fallible.bind_eq_ok.mp h
    obtain ⟨v, -, hset⟩ := Fallible.bind_eq_ok.mp hread
    exact ih (trimmed_set hs hset) h

theorem trimmed_splitLabel (label : List Char) :
    trimmed (splitLabel label).1 = (splitLabel label).1 ∧
      trimmed (splitLabel label).2 = (splitLabel label).2 := by
  unfold splitLabel
  split
  · exact ⟨Text.trimmed_trimmed _, Text.trimmed_trimmed _⟩
  · exact ⟨rfl, Text.trimmed_trimmed _⟩

namespace Totp

/-- The names of a setup that was accepted have no white space around them. -/
theorem trimmed_of_parse {input : List Char} {t : Totp} (h : parse input = .ok t) :
    trimmed t.issuer = t.issuer ∧ trimmed t.account = t.account := by
  unfold parse at h
  dsimp only at h
  split_ifs at h
  · obtain ⟨⟨kind, rest⟩, -, h⟩ := Fallible.bind_eq_ok.mp h
    dsimp only at h
    split_ifs at h
    obtain ⟨label, -, h⟩ := Fallible.bind_eq_ok.mp h
    obtain ⟨params, hparams, h⟩ := Fallible.bind_eq_ok.mp h
    obtain ⟨secret, -, h⟩ := Fallible.bind_eq_ok.mp h
    obtain ⟨-, -, -, -, hissuer, haccount⟩ := new_eq_ok.mp h
    obtain ⟨hlabelIssuer, hlabelAccount⟩ := trimmed_splitLabel label
    rw [hissuer, haccount]
    refine ⟨?_, hlabelAccount⟩
    have hread := Params.trimmed_foldlM (s := Params.start) nofun hparams
    cases hfilter : params.issuer.filter (· ≠ []) with
    | none => exact hlabelIssuer
    | some issuer => exact hread issuer (Option.filter_eq_some_iff.mp hfilter).1
  · obtain ⟨secret, -, h⟩ := Fallible.bind_eq_ok.mp h
    obtain ⟨-, -, -, -, hissuer, haccount⟩ := new_eq_ok.mp h
    rw [hissuer, haccount]
    exact ⟨rfl, rfl⟩

end Totp

theorem isAlphanum_of_mem_toDigits {n : ℕ} {c : Char} (hc : c ∈ Nat.toDigits 10 n) :
    c.isAlphanum = true := by
  have hdigit := Nat.isDigit_of_mem_toDigits (by decide) (by decide) hc
  rw [Text.isAlphanum_iff]
  rw [Text.isDigit_iff] at hdigit
  omega

/-- A number that is written is parsed. -/
theorem parseUnsigned_toDigits {n bound : ℕ} (hn : n < bound) :
    parseUnsigned bound (Nat.toDigits 10 n) = some n := by
  have hdigits : ∀ c ∈ Nat.toDigits 10 n, c.isDigit = true :=
    fun c hc => Nat.isDigit_of_mem_toDigits (by decide) (by decide) hc
  have hhead : (Nat.toDigits 10 n).head? ≠ some '+' := fun h =>
    absurd (hdigits '+' (List.mem_of_mem_head? h)) (by decide)
  unfold parseUnsigned
  dsimp only
  rw [if_neg hhead, Nat.ofDigitChars_ten_toDigits,
    if_pos ⟨Nat.toDigits_ne_nil, List.all_eq_true.mpr hdigits, hn⟩]

/-- One parameter is read whose value is decoded. -/
theorem Params.read_pair {s : Params} {name value text : List Char} (hname : '=' ∉ name)
    (hvalue : percentDecode value = some text) :
    s.read (name ++ '=' :: value) = s.set name text := by
  rw [read, Text.splitOnce_append_cons hname]
  simp only [Option.getD_some, hvalue]
  rfl

theorem percentDecode_of_isAlphanum {s : List Char} (hs : ∀ c ∈ s, c.isAlphanum = true) :
    percentDecode s = some s := by
  have hdecode := percentDecode_percentEncode s
  rwa [percentEncode_of_isAlphanum hs] at hdecode

namespace Totp

variable (t : Totp)

/-- A parameter that is written unless it is as usual, as a list of at most one. -/
def pair (usual : Bool) (name value : List Char) : List (List Char) :=
  if usual then [] else [name ++ '=' :: value]

/-- The parameters of `to_uri` after the secret, one by one. -/
def pairs : List (List Char) :=
  pair (t.issuer = []) "issuer".toList (percentEncode t.issuer) ++
    (pair (t.algorithm = .sha1) "algorithm".toList t.algorithm.name ++
      (pair (t.digits = 6) "digits".toList (Nat.toDigits 10 t.digits) ++
        pair (t.period = 30) "period".toList (Nat.toDigits 10 t.period)))

theorem param_eq (usual : Bool) (name value : List Char) :
    param usual name value = (pair usual name value).flatMap ('&' :: ·) := by
  cases usual with
  | true => rfl
  | false => simp [param, pair]

theorem params_eq : t.params = t.pairs.flatMap ('&' :: ·) := by
  simp only [params, pairs, param_eq, List.flatMap_append]

theorem isAlphanum_name (a : Algorithm) : ∀ c ∈ a.name, c.isAlphanum = true := by
  cases a <;> exact Text.forall_mem_of_all (by decide)

/-- Characters of the values that are written. -/
theorem isEncoded_of_isAlphanum {c : Char} (h : c.isAlphanum = true) : isEncoded c = true := by
  rw [isEncoded, h, Bool.true_or]

theorem mem_pair {usual : Bool} {name value : List Char} {part : List Char}
    (h : part ∈ pair usual name value) : part = name ++ '=' :: value := by
  unfold pair at h
  split at h
  · cases h
  · exact List.mem_singleton.mp h

/-- A parameter is a name and a value of plain characters. -/
theorem exists_of_mem_pairs {part : List Char} (h : part ∈ t.pairs) :
    ∃ name value, part = name ++ '=' :: value ∧ (∀ c ∈ name, c.isAlphanum = true) ∧
      ∀ c ∈ value, isEncoded c = true := by
  simp only [pairs, List.mem_append] at h
  rcases h with h | h | h | h
  · exact ⟨_, _, mem_pair h, Text.forall_mem_of_all (by decide),
      fun c hc => (isEncoded_of_mem_percentEncode hc).1⟩
  · exact ⟨_, _, mem_pair h, Text.forall_mem_of_all (by decide),
      fun c hc => isEncoded_of_isAlphanum (isAlphanum_name _ c hc)⟩
  · exact ⟨_, _, mem_pair h, Text.forall_mem_of_all (by decide),
      fun c hc => isEncoded_of_isAlphanum (isAlphanum_of_mem_toDigits hc)⟩
  · exact ⟨_, _, mem_pair h, Text.forall_mem_of_all (by decide),
      fun c hc => isEncoded_of_isAlphanum (isAlphanum_of_mem_toDigits hc)⟩

/-- The pair of the secret. -/
def secretPair : List Char := "secret".toList ++ '=' :: base32Encode t.secret

theorem secretPair_eq : t.secretPair = "secret".toList ++ '=' :: base32Encode t.secret := by
  unfold secretPair
  rfl

/-- The query of a URI is cut into its parameters. -/
theorem splitOn_query :
    ((t.secretPair ++ t.params).splitOn '&').filter (· ≠ []) = t.secretPair :: t.pairs := by
  have hmem : ∀ part ∈ t.secretPair :: t.pairs, '&' ∉ part ∧ part ≠ [] := by
    have hparts : ∀ {part name value : List Char}, part = name ++ '=' :: value →
        (∀ c ∈ name, c.isAlphanum = true) → (∀ c ∈ value, isEncoded c = true) →
        '&' ∉ part ∧ part ≠ [] := by
      rintro part name value rfl hname hvalue
      refine ⟨fun hmem => ?_, by simp⟩
      rcases List.mem_append.mp hmem with h | h
      · exact absurd (hname _ h) (by decide)
      · rcases List.mem_cons.mp h with h | h
        · exact absurd h (by decide)
        · exact absurd (hvalue _ h) (by decide)
    have hname : ∀ c ∈ "secret".toList, c.isAlphanum = true := Text.forall_mem_of_all (by decide)
    refine List.forall_mem_cons.mpr ⟨hparts rfl hname fun c hc =>
      isEncoded_of_isAlphanum (isAlphanum_of_mem_base32Encode hc), fun part hpart => ?_⟩
    obtain ⟨name, value, hpart, hname, hvalue⟩ := t.exists_of_mem_pairs hpart
    exact hparts hpart hname hvalue
  rw [params_eq, Text.splitOn_append_flatMap fun part hpart => (hmem part hpart).1,
    List.filter_eq_self]
  exact fun part hpart => by simpa using (hmem part hpart).2

/-- What is read of the parameters of a URI. -/
def written : Params :=
  ⟨some t.secret, if t.issuer = [] then none else some t.issuer, t.algorithm, t.digits, t.period⟩

theorem foldlM_pair {s s' : Params} {usual : Bool} {name value : List Char}
    (husual : usual = true → s' = s) (h : usual = false → s.read (name ++ '=' :: value) = .ok s') :
    (pair usual name value).foldlM Params.read s = .ok s' := by
  cases usual with
  | true => rw [husual rfl]; rfl
  | false =>
    change ([name ++ '=' :: value].foldlM Params.read s) = .ok s'
    rw [List.foldlM_cons, h rfl]
    rfl

theorem parseAlgorithm_name (a : Algorithm) : parseAlgorithm a.name = some a := by
  cases a <;> decide

/-- The parameters of a URI are read as they were written. -/
theorem foldlM_query (htrimmed : trimmed t.issuer = t.issuer) :
    (t.secretPair :: t.pairs).foldlM Params.read Params.start = .ok t.written := by
  let s₁ : Params := ⟨some t.secret, none, .sha1, 6, 30⟩
  let s₂ : Params := { s₁ with issuer := t.written.issuer }
  let s₃ : Params := { s₂ with algorithm := t.algorithm }
  let s₄ : Params := { s₃ with digits := t.digits }
  have hsecret : Params.start.read t.secretPair = .ok s₁ := by
    change Params.start.read ("secret".toList ++ '=' :: base32Encode t.secret) = .ok s₁
    rw [Params.read_pair (by decide)
      (percentDecode_of_isAlphanum fun c => isAlphanum_of_mem_base32Encode)]
    unfold Params.set
    rw [base32Decode_base32Encode]
    rfl
  have hissuer : (pair (t.issuer = []) "issuer".toList (percentEncode t.issuer)).foldlM
      Params.read s₁ = .ok s₂ := by
    refine foldlM_pair (fun h => ?_) fun h => ?_
    · simp only [decide_eq_true_eq] at h
      simp only [s₂, s₁, written, if_pos h]
    · simp only [decide_eq_false_iff_not] at h
      rw [Params.read_pair (by decide) (percentDecode_percentEncode _)]
      unfold Params.set
      simp only [s₂, s₁, written, if_neg h, htrimmed]
      rfl
  have halgorithm : (pair (t.algorithm = .sha1) "algorithm".toList t.algorithm.name).foldlM
      Params.read s₂ = .ok s₃ := by
    refine foldlM_pair (fun h => ?_) fun h => ?_
    · simp only [decide_eq_true_eq] at h
      simp only [s₃, s₂, s₁, h]
    · rw [Params.read_pair (by decide) (percentDecode_of_isAlphanum (isAlphanum_name _))]
      unfold Params.set
      rw [parseAlgorithm_name]
      rfl
  have hdigits : (pair (t.digits = 6) "digits".toList (Nat.toDigits 10 t.digits)).foldlM
      Params.read s₃ = .ok s₄ := by
    refine foldlM_pair (fun h => ?_) fun h => ?_
    · simp only [decide_eq_true_eq] at h
      simp only [s₄, s₃, s₂, s₁, h]
    · rw [Params.read_pair (by decide)
        (percentDecode_of_isAlphanum fun c => isAlphanum_of_mem_toDigits)]
      have hbound := t.settings.1.2
      unfold Params.set
      rw [parseUnsigned_toDigits (show t.digits < 2 ^ 32 by omega)]
      rfl
  have hperiod : (pair (t.period = 30) "period".toList (Nat.toDigits 10 t.period)).foldlM
      Params.read s₄ = .ok t.written := by
    refine foldlM_pair (fun h => ?_) fun h => ?_
    · simp only [decide_eq_true_eq] at h
      simp only [written, s₄, s₃, s₂, s₁, h]
    · rw [Params.read_pair (by decide)
        (percentDecode_of_isAlphanum fun c => isAlphanum_of_mem_toDigits)]
      have hbound := t.settings.2.2
      unfold Params.set
      rw [parseUnsigned_toDigits (show t.period < 2 ^ 64 by omega)]
      rfl
  rw [List.foldlM_cons, hsecret]
  change (t.pairs.foldlM Params.read s₁) = _
  rw [pairs, List.foldlM_append, hissuer]
  change ((_ ++ _ : List (List Char)).foldlM Params.read s₂) = _
  rw [List.foldlM_append, halgorithm]
  change ((_ ++ _ : List (List Char)).foldlM Params.read s₃) = _
  rw [List.foldlM_append, hdigits]
  exact hperiod

/-- Characters of a URI. -/
def isUriChar (c : Char) : Bool := isEncoded c || ['/', ':', '?', '=', '&'].contains c

theorem isUriChar_of_isEncoded {c : Char} (h : isEncoded c = true) : isUriChar c = true := by
  rw [isUriChar, h, Bool.true_or]

theorem isUriChar_of_mem_params {c : Char} (hc : c ∈ t.params) : isUriChar c = true := by
  rw [params_eq] at hc
  obtain ⟨part, hpart, hc⟩ := List.mem_flatMap.mp hc
  obtain ⟨name, value, rfl, hname, hvalue⟩ := t.exists_of_mem_pairs hpart
  simp only [List.mem_cons, List.mem_append] at hc
  rcases hc with rfl | hc | rfl | hc
  · decide
  · exact isUriChar_of_isEncoded (isEncoded_of_isAlphanum (hname c hc))
  · decide
  · exact isUriChar_of_isEncoded (hvalue c hc)

theorem isUriChar_of_mem_label {c : Char} (hc : c ∈ t.label) : isUriChar c = true ∧ c ≠ '?' := by
  have hencoded : ∀ {s : List Char}, c ∈ percentEncode s → isUriChar c = true ∧ c ≠ '?' := by
    intro s hs
    have hc := (isEncoded_of_mem_percentEncode hs).1
    refine ⟨isUriChar_of_isEncoded hc, ?_⟩
    rintro rfl
    exact absurd hc (by decide)
  rcases List.mem_append.mp hc with hc | hc
  · split_ifs at hc
    · cases hc
    · rcases List.mem_append.mp hc with hc | hc
      · exact hencoded hc
      · rw [List.mem_singleton.mp hc]
        decide
  · exact hencoded hc

theorem isUriChar_of_mem_toUri {c : Char} (hc : c ∈ t.toUri) : isUriChar c = true := by
  have hplain : ∀ {s : List Char}, (∀ c ∈ s, isUriChar c = true) → c ∈ s → isUriChar c = true :=
    fun h hc => h c hc
  simp only [toUri, List.mem_append, List.mem_cons] at hc
  rcases hc with hc | hc | rfl | hc | rfl | hc | rfl | hc | hc
  · exact hplain (Text.forall_mem_of_all (by decide)) hc
  · exact hplain (Text.forall_mem_of_all (by decide)) hc
  · decide
  · exact (t.isUriChar_of_mem_label hc).1
  · decide
  · exact hplain (Text.forall_mem_of_all (by decide)) hc
  · decide
  · exact isUriChar_of_isEncoded (isEncoded_of_isAlphanum (isAlphanum_of_mem_base32Encode hc))
  · exact t.isUriChar_of_mem_params hc

theorem isUriChar_range {c : Char} (h : isUriChar c = true) : 33 ≤ c.toNat ∧ c.toNat < 127 := by
  simp only [isUriChar, isEncoded, Bool.or_eq_true, List.contains_iff_mem, List.mem_cons,
    List.not_mem_nil, or_false] at h
  rcases h with (h | h) | h
  · have := (Text.isAlphanum_iff c).mp h
    omega
  · rcases h with rfl | rfl | rfl | rfl | rfl | rfl <;> decide
  · rcases h with rfl | rfl | rfl | rfl | rfl <;> decide

/-- A character of a URI is one byte, and no white space. -/
theorem isUriChar_plain {c : Char} (h : isUriChar c = true) :
    isWhitespace c = false ∧ (utf8 [c]).length = 1 := by
  have hrange := isUriChar_range h
  refine ⟨Text.isWhitespace_eq_false hrange.1 hrange.2, ?_⟩
  have hsize : c.utf8Size = 1 := Char.utf8Size_eq_one_iff.mpr (by
    have := hrange.2
    change c.toNat ≤ 127
    omega)
  rw [utf8, List.flatMap_singleton, String.length_utf8EncodeChar, hsize]

theorem length_utf8_toUri : (utf8 t.toUri).length = t.toUri.length := by
  have hall : ∀ s : List Char, (∀ c ∈ s, isUriChar c = true) → (utf8 s).length = s.length := by
    intro s hs
    induction s with
    | nil => rfl
    | cons c s ih =>
      obtain ⟨hc, hs⟩ := List.forall_mem_cons.mp hs
      rw [← List.singleton_append, utf8_append, List.length_append, List.length_append,
        (isUriChar_plain hc).2, ih hs]
      rfl
  exact hall _ fun c => t.isUriChar_of_mem_toUri

theorem trimmed_toUri : trimmed t.toUri = t.toUri :=
  Text.trimmed_eq_self
    (fun _ hc => (isUriChar_plain (t.isUriChar_of_mem_toUri (List.mem_of_mem_head? hc))).1)
    fun _ hc => (isUriChar_plain (t.isUriChar_of_mem_toUri (List.mem_of_mem_getLast? hc))).1

/-- The label that a URI stands for. -/
def plainLabel : List Char := if t.issuer = [] then t.account else t.issuer ++ ':' :: t.account

theorem percentDecode_label : percentDecode t.label = some t.plainLabel := by
  unfold label plainLabel
  split_ifs
  · exact percentDecode_percentEncode t.account
  · rw [List.append_assoc, List.singleton_append]
    exact percentDecode_append_cons (by decide) (by decide) (by decide) _ _

/-- What a URI gives whose parts can be read. -/
theorem fromUri_eq {label query plain : List Char} {params : Params} {secret : List UInt8}
    (hlabel : '?' ∉ label) (hdecode : percentDecode label = some plain)
    (hparams : ((query.splitOn '&').filter (· ≠ [])).foldlM Params.read Params.start = .ok params)
    (hsecret : params.secret = some secret) :
    fromUri ("totp".toList ++ '/' :: (label ++ '?' :: query)) =
      new secret params.algorithm params.digits params.period
        ((params.issuer.filter (· ≠ [])).getD (splitLabel plain).1) (splitLabel plain).2 := by
  have hok : ∀ {α β : Type} (a : α) (f : α → Except OtpError β), (Except.ok a >>= f) = f a :=
    fun _ _ => rfl
  have htotp : "totp".toList.map Char.toLower = "totp".toList := by decide
  simp only [fromUri, Text.splitOnce_append_cons (show '/' ∉ "totp".toList by decide),
    Text.splitOnce_append_cons hlabel, okOr, Option.elim, Option.getD_some, hok, htotp, if_true,
    hdecode, hparams, hsecret]

/-- What `parse` makes of a URI that is not too long: the names are the ones its label is cut into. -/
theorem parse_toUri (htrimmed : trimmed t.issuer = t.issuer)
    (hlength : t.toUri.length ≤ maxInputBytes) :
    parse t.toUri = new t.secret t.algorithm t.digits t.period
      (if t.issuer = [] then (splitLabel t.plainLabel).1 else t.issuer)
      (splitLabel t.plainLabel).2 := by
  have hquestion : '?' ∉ t.label := fun h => (t.isUriChar_of_mem_label h).2 rfl
  have hparams := t.foldlM_query htrimmed
  rw [← splitOn_query] at hparams
  have hquery : "secret".toList ++ '=' :: (base32Encode t.secret ++ t.params) =
      t.secretPair ++ t.params :=
    (List.append_assoc "secret".toList ('=' :: base32Encode t.secret) t.params).symm
  have hscheme : (t.toUri.take 10).map Char.toLower = scheme := by
    rw [toUri, List.take_left' (by decide)]
    decide
  unfold parse
  dsimp only
  rw [trimmed_toUri, length_utf8_toUri, if_neg (Nat.not_lt.mpr hlength), if_pos hscheme, toUri,
    List.drop_left' (by decide), hquery, fromUri_eq hquestion t.percentDecode_label hparams rfl]
  congr 1
  unfold written
  split_ifs with hissuer
  · rfl
  · rw [Option.filter_some, if_pos (by simpa using hissuer), Option.getD_some]

end Totp

end Zvault.Otp
