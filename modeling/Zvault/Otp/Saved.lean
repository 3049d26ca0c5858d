import Zvault.Otp.Reparsed
import Zvault.Vault.Items

/-!
# Setups that are saved again and again

An item's setup is written as its URI at every save. When a setup is accepted, the
URI gives the same setup exactly when no colon cuts the label elsewhere and the URI
is short enough; then every later save keeps it.
-/

namespace Zvault.Otp

open Text (trimmed splitOnce)
open Vault (Crates normalizeTotp)

/-- What is added before a colon makes a name longer that has no white space around it. -/
theorem length_lt_trimmed (before : List Char) {text : List Char} (htext : trimmed text = text) :
    text.length < (trimmed (before ++ ':' :: text)).length := by
  have hlast : ∀ c ∈ (':' :: text).getLast?, Text.isWhitespace c = false := by
    cases text with
    | nil => simp; decide
    | cons d text =>
      rw [List.getLast?_cons_cons, ← htext]
      exact Text.getLast?_trimmed _
  obtain ⟨kept, hkept⟩ := Text.exists_trimmed_append before (by decide) hlast
  rw [hkept, List.length_append, List.length_cons]
  omega

theorem length_trimmed_le (cs : List Char) : (trimmed cs).length ≤ cs.length := by
  obtain ⟨before, after, hcs, -, -⟩ := Text.exists_append_trimmed cs
  have hlength := congrArg List.length hcs
  rw [List.length_append, List.length_append] at hlength
  omega

namespace Totp

/-- The label of a setup is cut into its names unless a colon of theirs comes first. -/
theorem splitLabel_plainLabel (t : Totp) (hissuer : trimmed t.issuer = t.issuer)
    (haccount : trimmed t.account = t.account) :
    (t.issuer = (if t.issuer = [] then (splitLabel t.plainLabel).1 else t.issuer) ∧
        t.account = (splitLabel t.plainLabel).2) ↔
      ':' ∉ t.issuer ∧ (t.issuer = [] → ':' ∉ t.account) := by
  unfold plainLabel
  split_ifs with hnone
  · rw [hnone]
    by_cases hcolon : ':' ∈ t.account
    · obtain ⟨first, rest, hsplit, hfirst⟩ := List.eq_append_cons_of_mem hcolon
      refine iff_of_false (fun h => ?_) fun h => h.2 rfl hcolon
      have hcut : (splitLabel t.account).2 = trimmed rest := by
        rw [splitLabel, hsplit, Text.splitOnce_append_cons hfirst]
      have hlength := congrArg List.length (h.2.trans hcut)
      have hrest := length_trimmed_le rest
      rw [← hlength, hsplit, List.length_append, List.length_cons] at hrest
      omega
    · simp [splitLabel, Text.splitOnce_of_not_mem hcolon, haccount, hcolon]
  · by_cases hcolon : ':' ∈ t.issuer
    · obtain ⟨first, rest, hsplit, hfirst⟩ := List.eq_append_cons_of_mem hcolon
      refine iff_of_false (fun h => ?_) fun h => h.1 hcolon
      have hcut : (splitLabel (t.issuer ++ ':' :: t.account)).2 =
          trimmed (rest ++ ':' :: t.account) := by
        rw [splitLabel, hsplit, List.append_assoc, List.cons_append,
          Text.splitOnce_append_cons hfirst]
      have hlength := congrArg List.length (h.2.trans hcut)
      have hlonger := length_lt_trimmed rest haccount
      omega
    · simp [splitLabel, Text.splitOnce_append_cons hcolon, hissuer, haccount, hcolon, hnone]

/-- What the URI of a setup takes: names that are encoded, five bits of the secret a character, and
the settings that are not as usual. -/
def uriLength (t : Totp) : ℕ :=
  15 + (if t.issuer = [] then 0 else encodedLength t.issuer + 1) + encodedLength t.account + 8 +
    (8 * t.secret.length + 4) / 5 + (if t.issuer = [] then 0 else 8 + encodedLength t.issuer) +
    (if t.algorithm = .sha1 then 0 else 11 + t.algorithm.name.length) +
    (if t.digits = 6 then 0 else 9) +
    if t.period = 30 then 0 else 8 + (Nat.toDigits 10 t.period).length

theorem length_param (usual : Prop) [Decidable usual] (name value : List Char) :
    (param usual name value).length = if usual then 0 else name.length + (value.length + 2) := by
  by_cases husual : usual
  · simp [param, husual]
  · simp [param, husual]
    omega

theorem length_label (t : Totp) :
    t.label.length =
      (if t.issuer = [] then 0 else encodedLength t.issuer + 1) + encodedLength t.account := by
  rw [label, List.length_append, length_percentEncode]
  split_ifs
  · rfl
  · rw [List.length_append, length_percentEncode, List.length_singleton]

theorem length_params (t : Totp) :
    t.params.length = (if t.issuer = [] then 0 else 8 + encodedLength t.issuer) +
      ((if t.algorithm = .sha1 then 0 else 11 + t.algorithm.name.length) +
        ((if t.digits = 6 then 0 else 9) +
          if t.period = 30 then 0 else 8 + (Nat.toDigits 10 t.period).length)) := by
  have hdigits : (Nat.toDigits 10 t.digits).length = 1 := by
    rw [Nat.toDigits_of_lt_base (by have := t.settings.1.2; omega)]
    rfl
  have hissuer : "issuer".toList.length = 6 := by decide
  have halgorithm : "algorithm".toList.length = 9 := by decide
  have hsix : "digits".toList.length = 6 := by decide
  have hperiod : "period".toList.length = 6 := by decide
  rw [params, List.length_append, List.length_append, List.length_append, length_param, length_param,
    length_param, length_param, length_percentEncode, hdigits, hissuer, halgorithm, hsix, hperiod]
  split_ifs <;> omega

theorem length_toUri (t : Totp) : t.toUri.length = t.uriLength := by
  have hscheme : scheme.length = 10 := by decide
  have htotp : "totp".toList.length = 4 := by decide
  have hsecret : "secret".toList.length = 6 := by decide
  rw [toUri, List.length_append, List.length_append, List.length_cons, List.length_append,
    List.length_cons, List.length_append, List.length_cons, List.length_append, length_label,
    length_params, length_base32Encode, hscheme, htotp, hsecret, uriLength]
  omega

/-- The setup is the same when its URI is parsed. -/
def IsStable (t : Totp) : Prop :=
  ':' ∉ t.issuer ∧ (t.issuer = [] → ':' ∉ t.account) ∧ t.uriLength ≤ maxInputBytes

instance (t : Totp) : Decidable t.IsStable := inferInstanceAs (Decidable (_ ∧ _ ∧ _))

/-- A setup that was accepted comes back from its URI exactly when it is stable. -/
theorem parse_toUri_eq_ok_iff {input : List Char} {t : Totp} (h : parse input = .ok t) :
    parse t.toUri = .ok t ↔ t.IsStable := by
  obtain ⟨hissuer, haccount⟩ := trimmed_of_parse h
  by_cases hlength : t.uriLength ≤ maxInputBytes
  · rw [t.parse_toUri hissuer (t.length_toUri.trans_le hlength), new_eq_ok]
    simp only [true_and, t.splitLabel_plainLabel hissuer haccount, IsStable, hlength, and_true]
  · refine iff_of_false (fun hsame => ?_) fun hstable => hlength hstable.2.2
    unfold parse at hsame
    dsimp only at hsame
    rw [trimmed_toUri, length_utf8_toUri, length_toUri, if_pos (Nat.lt_of_not_le hlength)] at hsame
    cases hsame

end Totp

/-- `Totp::parse`, and `to_uri` of the result, of a text. -/
def totpUri (setup : String) : Option String :=
  match Totp.parse setup.toList with
  | .ok t => some (String.ofList t.toUri)
  | .error _ => none

/-- The crates, with `zvault-otp` for the one-time passwords. -/
def withTotp (crates : Crates) : Crates := { crates with totpUri }

/-- The setup of an item after it was saved for the first time, and `n` times more. -/
def saved (crates : Crates) (setup : String) : ℕ → Option String
  | 0 => normalizeTotp (withTotp crates) setup
  | n + 1 => (saved crates setup n).bind (normalizeTotp (withTotp crates))

theorem normalizeTotp_of_parse (crates : Crates) {setup : String} {t : Totp}
    (h : Totp.parse setup.toList = .ok t) :
    normalizeTotp (withTotp crates) setup = some (String.ofList t.toUri) := by
  have hblank : (Text.trim setup).isEmpty = false := by
    cases hempty : (Text.trim setup).isEmpty with
    | false => rfl
    | true =>
      have htrimmed : trimmed setup.toList = [] := by
        have := String.isEmpty_iff.mp hempty
        simpa [Text.trim] using this
      have herror : Totp.parse setup.toList = .error .tooShort := by
        rw [Totp.parse, htrimmed]
        decide
      rw [herror] at h
      cases h
  rw [normalizeTotp, hblank]
  simp only [withTotp, totpUri, h, Bool.false_eq_true, if_false]

/-- A setup that is accepted is kept by every later save exactly when its names are cut apart where
they were joined, and its URI is not too long. -/
theorem setup_kept_iff (crates : Crates) {setup : String} {t : Totp}
    (h : Totp.parse setup.toList = .ok t) :
    (Totp.parse t.toUri = .ok t ∧ ∀ n, saved crates setup n = some (String.ofList t.toUri)) ↔
      t.IsStable := by
  rw [← Totp.parse_toUri_eq_ok_iff h]
  refine ⟨And.left, fun hsame => ⟨hsame, fun n => ?_⟩⟩
  induction n with
  | zero => exact normalizeTotp_of_parse crates h
  | succ n ih =>
    have huri : Totp.parse (String.ofList t.toUri).toList = .ok t := by rwa [String.toList_ofList]
    rw [saved, ih, Option.bind_some, normalizeTotp_of_parse crates huri]

/-- The bytes of the key `JBSWY3DPEHPK3PXP`. -/
def exampleSecret : List UInt8 := [72, 101, 108, 108, 111, 33, 222, 173, 190, 239]

/-- A setup as many sites give it. -/
def exampleTotp : Totp :=
  ⟨exampleSecret, .sha1, 6, 30, "A B".toList, "c".toList, by decide, by decide, by decide⟩

theorem setup_kept_example :
    Totp.parse exampleTotp.toUri = .ok exampleTotp ∧
      ∀ n, saved Vault.plainCrates "otpauth://totp/A%20B:c?secret=JBSWY3DPEHPK3PXP" n =
        some (String.ofList exampleTotp.toUri) :=
  (setup_kept_iff Vault.plainCrates (t := exampleTotp) (by decide +kernel)).mpr (by decide)

/-- An issuer with a colon: a part of it is moved to the account at every save. -/
theorem account_drifts :
    ∃ t t', Totp.parse "otpauth://totp/x?secret=JBSWY3DPEHPK3PXP&issuer=A:B".toList = .ok t ∧
      Totp.parse t.toUri = .ok t' ∧ t.account = "x".toList ∧ t'.account = "B:x".toList :=
  ⟨⟨exampleSecret, .sha1, 6, 30, "A:B".toList, "x".toList, by decide, by decide, by decide⟩,
    ⟨exampleSecret, .sha1, 6, 30, "A:B".toList, "B:x".toList, by decide, by decide, by decide⟩,
    by decide +kernel, by decide +kernel, rfl, rfl⟩

end Zvault.Otp
