import Zvault.Js.Numerals
import Zvault.Otp.Totp
import Zvault.Otp.Saved
import Zvault.ShareWeb.Params
import Zvault.Text.Regex
import Zvault.Otp.Base32
import Zvault.Text.Trim

/-!
# Codes on the share page

What the share page makes of a setup that it was sent.
-/

/-! ### Base32 on the share page

`base32Decode` of the share page, which keeps 16 bits and cuts the byte out of them
where `zvault-otp` keeps the bits that are left. It reads what `zvault-otp` writes. -/

namespace Zvault.ShareWeb

open Otp (base32 symbol base32Encode)
open Regroup (Holds)
open Text (isJsWhitespace)

structure Decoder where
  out : List UInt8
  buffer : ℕ
  bits : ℕ

/-- The five bits of one character. -/
def Decoder.push (s : Decoder) (v : ℕ) : Decoder :=
  let buffer := ((s.buffer <<< 5) ||| v) &&& 0xffff
  let bits := s.bits + 5
  if 8 ≤ bits then
    let bits := bits - 8
    ⟨s.out ++ [UInt8.ofNat ((buffer >>> bits) &&& 0xff)], buffer, bits⟩
  else ⟨s.out, buffer, bits⟩

def Decoder.read (s : Decoder) (c : Char) : Option Decoder := (base32.idxOf? c).map s.push

/-- Characters that `/[\s=-]/g` takes away. -/
def isSkipped (c : Char) : Bool := isJsWhitespace c || c == '=' || c == '-'

section Decode

variable (upper : Char → List Char)

/-- `base32Decode`. -/
def base32Decode (input : List Char) : Option (List UInt8) := do
  let clean := (input.flatMap upper).filter (! isSkipped ·)
  let s ← clean.foldlM Decoder.read ⟨[], 0, 0⟩
  if s.out = [] then none else some s.out

end Decode

/-- A character is read: the buffer ends with the bits that are left. -/
theorem Decoder.holds_push {s : Decoder} {read : List ℕ} {v : ℕ}
    (h : Holds 5 8 read (s.out.map UInt8.toNat) (s.buffer % 2 ^ s.bits) s.bits) (hbits : s.bits < 8)
    (hv : v < 32) :
    Holds 5 8 (read ++ [v]) ((s.push v).out.map UInt8.toNat)
      ((s.push v).buffer % 2 ^ (s.push v).bits) (s.push v).bits ∧ (s.push v).bits < 8 := by
  have hor : (s.buffer <<< 5) ||| v = s.buffer * 2 ^ 5 + v := by
    rw [← Nat.shiftLeft_add_eq_or_of_lt hv, Nat.shiftLeft_eq]
  have hmask : (0xffff : ℕ) = 2 ^ 16 - 1 := rfl
  have hbyte : (0xff : ℕ) = 2 ^ 8 - 1 := rfl
  have htake := h.take_mod hv (show s.bits + 5 ≤ 16 by omega)
  simp only [push, hor, hmask, hbyte, Nat.and_two_pow_sub_one_eq_mod, Nat.shiftRight_eq_div_pow]
  split
  · rename_i hfull
    obtain ⟨bits, hsum⟩ := Nat.exists_eq_add_of_le' hfull
    rw [hsum] at htake ⊢
    rw [Nat.add_sub_cancel, List.map_append, List.map_singleton,
      UInt8.toNat_ofNat_of_lt' (Nat.mod_lt _ (by decide))]
    exact ⟨htake.emit_mod, by change bits < 8; omega⟩
  · exact ⟨htake, by change s.bits + 5 < 8; omega⟩

theorem Decoder.read_symbol (s : Decoder) {d : ℕ} (hd : d < 32) :
    s.read (symbol d) = some (s.push d) := by
  have hall : ∀ d : Fin 32, base32.idxOf? (symbol d) = some d.val := by decide
  rw [read, hall ⟨d, hd⟩, Option.map_some]

/-- Written characters are all read. -/
theorem Decoder.holds_foldlM (digits : List ℕ) (hdigits : ∀ d ∈ digits, d < 32) :
    ∃ s, (digits.map symbol).foldlM Decoder.read ⟨[], 0, 0⟩ = some s ∧
      Holds 5 8 digits (s.out.map UInt8.toNat) (s.buffer % 2 ^ s.bits) s.bits ∧ s.bits < 8 := by
  rw [List.foldlM_map]
  refine Regroup.exists_foldlM (P := (· < 32))
    (I := fun digits (s : Decoder) =>
      Holds 5 8 digits (s.out.map UInt8.toNat) (s.buffer % 2 ^ s.bits) s.bits ∧ s.bits < 8)
    ⟨[], 0, 0⟩ ⟨Holds.start 5 8, by decide⟩ ?_ hdigits
  intro digits s d hs hd
  exact ⟨s.push d, s.read_symbol hd, holds_push hs.1 hs.2 hd⟩

theorem isSkipped_of_isAlphanum {c : Char} (h : c.isAlphanum = true) : isSkipped c = false := by
  have hrange := (Text.isAlphanum_iff c).mp h
  have hwhite : Text.isWhitespace c = false := Text.isWhitespace_eq_false (by omega) (by omega)
  have hne : ∀ {d : Char}, d.isAlphanum = false → c ≠ d := by
    rintro d hd rfl
    rw [hd] at h
    cases h
  rw [isSkipped, isJsWhitespace, hwhite, Bool.false_and, Bool.or_false, beq_eq_false_iff_ne.mpr
    (by omega), beq_eq_false_iff_ne.mpr (hne (by decide)),
    beq_eq_false_iff_ne.mpr (hne (by decide))]
  rfl

/-- Upper case of ASCII is as usual. -/
def OnAscii (upper : Char → List Char) : Prop := ∀ c, c.toNat < 128 → upper c = [c.toUpper]

/-- Text of ASCII that is in upper case. -/
theorem flatMap_upper {upper : Char → List Char} (hupper : OnAscii upper) {cs : List Char}
    (hcs : ∀ c ∈ cs, c.toNat < 128 ∧ c.toUpper = c) : cs.flatMap upper = cs := by
  induction cs with
  | nil => rfl
  | cons c cs ih =>
    obtain ⟨⟨hascii, hc⟩, hcs⟩ := List.forall_mem_cons.mp hcs
    rw [List.flatMap_cons, hupper c hascii, hc, ih hcs]
    rfl

theorem symbol_upper {d : ℕ} (hd : d < 32) :
    (symbol d).toNat < 128 ∧ (symbol d).toUpper = symbol d := by
  have hall : ∀ d : Fin 32, (symbol d).toNat < 128 ∧ (symbol d).toUpper = symbol d := by decide
  exact hall ⟨d, hd⟩

/-- A key that `zvault-otp` wrote is read on the share page. -/
theorem base32Decode_base32Encode {upper : Char → List Char} (hupper : OnAscii upper)
    {bytes : List UInt8} (hbytes : bytes ≠ []) :
    base32Decode upper (base32Encode bytes) = some bytes := by
  have hdigits := Otp.Encoder.finish_lt bytes
  obtain ⟨s, hs, hholds, hbits⟩ := Decoder.holds_foldlM _ hdigits
  have hread := Otp.out_eq_of_holds hholds hbits
  have hplain : (base32Encode bytes).flatMap upper = base32Encode bytes := by
    refine flatMap_upper hupper fun c hc => ?_
    obtain ⟨d, hd, rfl⟩ := List.mem_map.mp hc
    exact symbol_upper (hdigits d hd)
  have hclean : (base32Encode bytes).filter (! isSkipped ·) = base32Encode bytes :=
    List.filter_eq_self.mpr fun c hc => by
      rw [isSkipped_of_isAlphanum (Otp.isAlphanum_of_mem_base32Encode hc), Bool.not_false]
  unfold base32Decode
  dsimp only
  rw [hplain, hclean, base32Encode, hs]
  simp only [Option.bind_eq_bind, Option.bind_some, hread, if_neg hbytes]

end Zvault.ShareWeb

/-! ### Codes

`parseTotp` and `codeAt` of the share page. What `zvault-otp` writes is parsed to the
same settings, and both show the same code at every second below `2 ^ 53`. Beyond it
the quotient of the time may be rounded up to the next period. -/

namespace Zvault.ShareWeb

open Otp (Algorithm Code Hmac counterBytes percentEncode base32Encode)
open Text (Regex jsTrimmed splitOnce)

/-- `Totp` of the share page. -/
structure Totp where
  secret : List UInt8
  algorithm : Algorithm
  digits : ℕ
  period : ℕ
  issuer : List Char
  account : List Char
  deriving DecidableEq

/-- What `.` does not match. -/
def isLineTerminator (c : Char) : Bool :=
  c == '\n' || c == '\r' || c.toNat == 0x2028 || c.toNat == 0x2029

/-- `/^otpauth:\/\/totp\/([^?]*)(?:\?(.*))?$/i`. -/
def uriPattern : Regex Char :=
  .seq (.litOn Char.toUpper "otpauth://totp/".toList)
    (.seq (.group 1 (.star (.char fun c => c != '?')))
      (.opt (.seq (.char fun c => c == '?') (.group 2 (.star (.char fun c => ! isLineTerminator c))))))

/-- `algorithm in HASHES`. -/
def algorithmIn (name : List Char) : Option Algorithm :=
  [.sha1, .sha256, .sha512].find? fun a => a.name = name

/-- `Number` of a parameter, where it is a whole number. -/
def wholeParam (param : Option (List Char)) (usual : ℕ) : Option ℕ :=
  match param with
  | none => some usual
  | some text => (Js.toNumber text).bind Js.toWhole

section Parse

variable (upper : Char → List Char)

/-- `parseTotp`. -/
def parseTotp (uri : List Char) : Option Totp := do
  let groups ← uriPattern.fullMatch (jsTrimmed uri)
  let label ← decodeURIComponent ((groups 1).getD [])
  let (issuer, account) := (splitOnce ':' label).getD ([], label)
  let params := searchParams ((groups 2).getD [])
  let secret ← base32Decode upper ((getParam params "secret".toList).getD [])
  let algorithm ← algorithmIn
    (((getParam params "algorithm".toList).getD "SHA1".toList).flatMap upper)
  let digits ← wholeParam (getParam params "digits".toList) 6
  let period ← wholeParam (getParam params "period".toList) 30
  if digits < 6 ∨ 8 < digits ∨ period < 1 ∨ 300 < period then none
  else some { secret, algorithm, digits, period
              issuer := jsTrimmed ((getParam params "issuer".toList).getD issuer)
              account := jsTrimmed account }

end Parse

/-- The four bytes of a code, without the sign. -/
def truncated (digest : List UInt8) : ℕ :=
  let offset := (digest.getD (digest.length - 1) 0).toNat &&& 0x0f
  (((digest.getD offset 0).toNat &&& 0x7f) <<< 24) ||| ((digest.getD (offset + 1) 0).toNat <<< 16) |||
    ((digest.getD (offset + 2) 0).toNat <<< 8) ||| (digest.getD (offset + 3) 0).toNat

/-- `codeAt`, at a whole second that is a JavaScript number. -/
def Totp.codeAt (t : Totp) (hmac : Hmac) (unixSecs : ℕ) : Code :=
  let counter := ⌊Js.kept ((unixSecs : ℚ) / t.period)⌋.toNat
  let value := truncated (hmac.digest t.algorithm t.secret (counterBytes counter))
  { code := List.leftpad t.digits '0' (Nat.toDigits 10 (value % 10 ^ t.digits))
    period := t.period
    remaining := t.period - unixSecs % t.period }

/-- A byte that is put behind a number does not overlap it, so that `|` adds it. -/
theorem shiftLeft_or_shiftLeft {b : ℕ} (hb : b < 2 ^ 8) (n k : ℕ) :
    n <<< (8 + k) ||| b <<< k = (n * 2 ^ 8 + b) <<< k := by
  rw [Nat.shiftLeft_add, ← Nat.shiftLeft_or_distrib, ← Nat.shiftLeft_add_eq_or_of_lt hb,
    Nat.shiftLeft_eq n 8]

/-- The page and the crate cut the same number out of a digest. -/
theorem truncated_digest (hmac : Hmac) (algorithm : Algorithm) (secret : List UInt8) (counter : ℕ) :
    truncated (hmac.digest algorithm secret (counterBytes counter)) =
      Otp.hotp hmac algorithm secret counter := by
  generalize hdigest : hmac.digest algorithm secret (counterBytes counter) = digest
  have hbyte : ∀ i, (digest.getD i 0).toNat < 2 ^ 8 := fun i => (digest.getD i 0).toNat_lt
  simp only [truncated, Otp.hotp, hdigest, Otp.offset, Crypto.fromBeBytes, List.foldl_cons,
    List.foldl_nil]
  generalize (digest.getD (digest.length - 1) 0).toNat &&& 0x0f = offset
  have h₁ := hbyte (offset + 1)
  have h₂ := hbyte (offset + 2)
  have h₃ := hbyte (offset + 3)
  have h₀ := hbyte offset
  generalize (digest.getD offset 0).toNat = a at h₀ ⊢
  generalize (digest.getD (offset + 1) 0).toNat = b at h₁ ⊢
  generalize (digest.getD (offset + 2) 0).toNat = c at h₂ ⊢
  generalize (digest.getD (offset + 3) 0).toNat = d at h₃ ⊢
  have hsign : a &&& 0x7f = a % 2 ^ 7 := Nat.and_two_pow_sub_one_eq_mod a 7
  have hmask : ∀ n : ℕ, n &&& 0x7fffffff = n % 2 ^ 31 := fun n =>
    Nat.and_two_pow_sub_one_eq_mod n 31
  rw [hsign, shiftLeft_or_shiftLeft h₁ _ 16, shiftLeft_or_shiftLeft h₂ _ 8,
    ← Nat.shiftLeft_add_eq_or_of_lt h₃, Nat.shiftLeft_eq, hmask]
  omega

/-- At the same settings both show the same at every second below `2 ^ 53`. -/
theorem Totp.codeAt_eq {t' : Totp} {t : Otp.Totp} (hsecret : t'.secret = t.secret)
    (halgorithm : t'.algorithm = t.algorithm) (hdigits : t'.digits = t.digits)
    (hperiod : t'.period = t.period) (hmac : Hmac) {now : ℕ} (hnow : now < 2 ^ 53) :
    t'.codeAt hmac now = t.codeAt hmac now := by
  have hcounter : ⌊Js.kept ((now : ℚ) / t.period)⌋.toNat = now / t.period := by
    rw [Js.floor_kept_div hnow t.settings.2.1, Int.toNat_natCast]
  simp only [Totp.codeAt, Otp.Totp.codeAt, hsecret, halgorithm, hdigits, hperiod, hcounter,
    truncated_digest]

/-- A URI is matched in one way. -/
theorem fullMatch_uriPattern {label query : List Char} (hlabel : '?' ∉ label)
    (hquery : ∀ c ∈ query, isLineTerminator c = false) :
    uriPattern.fullMatch ("otpauth://totp/".toList ++ (label ++ '?' :: query)) =
      some (Function.update (Function.update (fun _ => none) 1 (some label)) 2 (some query)) := by
  refine Regex.fullMatch_eq_some ?_ fun groups hgroups => ?_
  · have hfirst : Regex.Matches (.star (.char fun c => c != '?')) (fun _ => none) label
        fun _ => none := by
      refine Regex.matches_star_char.mpr ⟨fun c hc => ?_, rfl⟩
      rw [bne_iff_ne]
      rintro rfl
      exact hlabel hc
    have hsecond : ∀ groups, Regex.Matches (.star (.char fun c => ! isLineTerminator c)) groups query
        groups := fun groups => by
      refine Regex.matches_star_char.mpr ⟨fun c hc => ?_, rfl⟩
      rw [hquery c hc, Bool.not_false]
    refine (Regex.matches_litOn.mpr ⟨rfl, rfl⟩).seq (hfirst.group.seq (Regex.matches_opt.mpr ?_))
    exact .inl (Regex.Matches.seq (.char (c := '?') rfl) (hsecond _).group)
  · obtain ⟨start, rest, between, htext, hstart, hrest⟩ := Regex.matches_seq.mp hgroups
    obtain ⟨hsame, rfl⟩ := Regex.matches_litOn.mp hstart
    have hlength : start.length = "otpauth://totp/".toList.length := by
      simpa using congrArg List.length hsame
    obtain ⟨-, rfl⟩ := List.append_inj htext hlength.symm
    obtain ⟨first, second, between', hcut, hfirst, hsecond⟩ := Regex.matches_seq.mp hrest
    obtain ⟨between'', hstar, rfl⟩ := Regex.matches_group.mp hfirst
    obtain ⟨hplain, rfl⟩ := Regex.matches_star_char.mp hstar
    have hnot : '?' ∉ first := fun hmem => by simpa using hplain _ hmem
    rcases Regex.matches_opt.mp hsecond with hquestion | ⟨rfl, -⟩
    · obtain ⟨mark, rest', between, rfl, hmark, hgroup⟩ := Regex.matches_seq.mp hquestion
      cases hmark with
      | @char _ c _ hc =>
        rw [beq_iff_eq] at hc
        obtain ⟨between', hstar, rfl⟩ := Regex.matches_group.mp hgroup
        obtain ⟨-, rfl⟩ := Regex.matches_star_char.mp hstar
        rw [hc, List.singleton_append] at hcut
        have hsplit := Text.splitOnce_append_cons hnot rest'
        rw [← hcut, Text.splitOnce_append_cons hlabel, Option.some_inj, Prod.mk.injEq] at hsplit
        rw [hsplit.1, hsplit.2]
    · rw [List.append_nil] at hcut
      exact absurd (hcut ▸ List.mem_append_right label List.mem_cons_self) hnot

section Query

variable (t : Otp.Totp)

/-- A parameter that is there unless it is as usual. -/
def optional (usual : Bool) (name value : List Char) : List (List Char × List Char) :=
  if usual then [] else [(name, value)]

theorem map_pair {usual : Bool} {name value text : List Char}
    (hname : ∀ c ∈ name, c.isAlphanum = true) (hvalue : formDecode value = text) :
    (Otp.Totp.pair usual name value).map decodeParam = optional usual name text := by
  cases usual with
  | true => rfl
  | false => exact congrArg (fun param => [param]) (decodeParam_eq hname hvalue)

theorem getParam_optional {usual : Bool} {name value : List Char}
    (params : List (List Char × List Char)) (asked : List Char) :
    getParam (optional usual name value ++ params) asked =
      if usual = false ∧ name = asked then some value else getParam params asked := by
  cases usual with
  | true => rfl
  | false =>
    change getParam ((name, value) :: params) asked = _
    rw [getParam_cons]
    simp only [true_and]

/-- The parameters of a URI are as they were written. -/
theorem searchParams_query :
    searchParams (t.secretPair ++ t.params) = ("secret".toList, base32Encode t.secret) ::
      (optional (t.issuer = []) "issuer".toList t.issuer ++
        (optional (t.algorithm = .sha1) "algorithm".toList t.algorithm.name ++
          (optional (t.digits = 6) "digits".toList (Nat.toDigits 10 t.digits) ++
            (optional (t.period = 30) "period".toList (Nat.toDigits 10 t.period) ++ [])))) := by
  have hhead : (t.secretPair ++ t.params).head? ≠ some '?' := by
    have hsecret : "secret".toList = 's' :: "ecret".toList := by decide
    rw [t.secretPair_eq, hsecret]
    exact fun h => absurd (Option.some_inj.mp h) (by decide)
  have hname : ∀ {name : List Char}, (name.all Char.isAlphanum) = true →
      ∀ c ∈ name, c.isAlphanum = true := fun h => List.all_eq_true.mp h
  unfold searchParams
  dsimp only
  rw [if_neg hhead, t.splitOn_query, List.map_cons, t.secretPair_eq, decodeParam_eq
    (hname (by decide)) (formDecode_of_isAlphanum fun c => Otp.isAlphanum_of_mem_base32Encode),
    Otp.Totp.pairs, List.map_append, List.map_append, List.map_append,
    map_pair (hname (by decide)) (formDecode_percentEncode t.issuer),
    map_pair (hname (by decide)) (formDecode_of_isAlphanum (Otp.Totp.isAlphanum_name _)),
    map_pair (hname (by decide)) (formDecode_of_isAlphanum fun c => Otp.isAlphanum_of_mem_toDigits),
    map_pair (hname (by decide)) (formDecode_of_isAlphanum fun c => Otp.isAlphanum_of_mem_toDigits),
    List.append_nil]

/-- What the share page makes of a setup. -/
def ofSetup : Totp :=
  let (issuer, account) := (splitOnce ':' t.plainLabel).getD ([], t.plainLabel)
  { secret := t.secret
    algorithm := t.algorithm
    digits := t.digits
    period := t.period
    issuer := jsTrimmed (if t.issuer = [] then issuer else t.issuer)
    account := jsTrimmed account }

theorem wholeParam_toDigits {n usual : ℕ} (hn : n < 2 ^ 53) :
    wholeParam (if n = usual then none else some (Nat.toDigits 10 n)) usual = some n := by
  by_cases husual : n = usual
  · rw [if_pos husual, husual]
    rfl
  · rw [if_neg husual]
    change (Js.toNumber (Nat.toDigits 10 n)).bind Js.toWhole = some n
    rw [Js.toNumber_toDigits hn, Option.bind_some, Js.toWhole_natCast]

theorem algorithmIn_name {upper : Char → List Char} (hupper : OnAscii upper) (a : Algorithm) :
    algorithmIn (((if a = .sha1 then none else some a.name).getD "SHA1".toList).flatMap upper) =
      some a := by
  have hname : (if a = .sha1 then none else some a.name).getD "SHA1".toList = a.name := by
    cases a <;> rfl
  have hplain : ∀ c ∈ a.name, c.toNat < 128 ∧ c.toUpper = c := by
    cases a <;> exact Text.forall_mem_of_all (by decide)
  rw [hname, flatMap_upper hupper hplain]
  cases a <;> decide

/-- The parameters that are written are found, and no others. -/
theorem getParam_query :
    let params := searchParams (t.secretPair ++ t.params)
    getParam params "secret".toList = some (base32Encode t.secret) ∧
      getParam params "issuer".toList = (if t.issuer = [] then none else some t.issuer) ∧
      getParam params "algorithm".toList =
        (if t.algorithm = .sha1 then none else some t.algorithm.name) ∧
      getParam params "digits".toList =
        (if t.digits = 6 then none else some (Nat.toDigits 10 t.digits)) ∧
      getParam params "period".toList =
        if t.period = 30 then none else some (Nat.toDigits 10 t.period) := by
  intro params
  have hparams : params = _ := searchParams_query t
  have hnone : ∀ name, getParam [] name = none := fun _ => rfl
  rw [hparams]
  simp only [getParam_cons, getParam_optional, hnone, String.toList_inj, decide_eq_false_iff_not,
    String.reduceEq, and_true, and_false, if_true, if_false, ite_not]

theorem isUriChar_seen {c : Char} (h : Otp.Totp.isUriChar c = true) :
    Text.isJsWhitespace c = false ∧ isLineTerminator c = false := by
  obtain ⟨hlow, hhigh⟩ := Otp.Totp.isUriChar_range h
  have hcontrol : ∀ {d : Char}, d.toNat < 33 → c ≠ d := by
    rintro d hd rfl
    omega
  rw [Text.isJsWhitespace, Text.isWhitespace_eq_false hlow hhigh, isLineTerminator,
    beq_eq_false_iff_ne.mpr (show c.toNat ≠ 0xFEFF by omega),
    beq_eq_false_iff_ne.mpr (hcontrol (d := '\n') (by decide)),
    beq_eq_false_iff_ne.mpr (hcontrol (d := '\r') (by decide)),
    beq_eq_false_iff_ne.mpr (show c.toNat ≠ 0x2028 by omega),
    beq_eq_false_iff_ne.mpr (show c.toNat ≠ 0x2029 by omega)]
  exact ⟨rfl, rfl⟩

theorem decodeURIComponent_label : decodeURIComponent t.label = some t.plainLabel := by
  unfold Otp.Totp.label Otp.Totp.plainLabel
  split_ifs
  · exact decodeURIComponent_percentEncode t.account
  · rw [List.append_assoc, List.singleton_append]
    exact decodeURIComponent_append_cons (by decide) (by decide) _ _

/-- A URI is parsed to the setup it was written from. -/
theorem parseTotp_toUri {upper : Char → List Char} (hupper : OnAscii upper) :
    parseTotp upper t.toUri = some (ofSetup t) := by
  obtain ⟨hsecret, hissuer, halgorithm, hdigits, hperiod⟩ := getParam_query t
  have hplain : ∀ c ∈ t.toUri, Text.isJsWhitespace c = false ∧ isLineTerminator c = false :=
    fun c hc => isUriChar_seen (t.isUriChar_of_mem_toUri hc)
  have htrim : jsTrimmed t.toUri = t.toUri :=
    Text.jsTrimmed_eq_self (fun c hc => (hplain c (List.mem_of_mem_head? hc)).1)
      fun c hc => (hplain c (List.mem_of_mem_getLast? hc)).1
  have huri : t.toUri =
      "otpauth://totp/".toList ++ (t.label ++ '?' :: (t.secretPair ++ t.params)) := by
    have hscheme : "otpauth://totp/".toList = Otp.Totp.scheme ++ ("totp".toList ++ ['/']) := by decide
    rw [hscheme, Otp.Totp.toUri, t.secretPair_eq]
    simp only [List.append_assoc, List.cons_append, List.nil_append]
  have hquestion : '?' ∉ t.label := fun hmem => (t.isUriChar_of_mem_label hmem).2 rfl
  have hquery : ∀ c ∈ t.secretPair ++ t.params, isLineTerminator c = false := fun c hc =>
    (hplain c (huri ▸ List.mem_append_right _
      (List.mem_append_right _ (List.mem_cons_of_mem _ hc)))).2
  have hbytes : t.secret ≠ [] := List.ne_nil_of_length_pos
    (Nat.lt_of_lt_of_le (by decide) t.secret_length.1)
  obtain ⟨⟨hlow, hhigh⟩, hpos, hlong⟩ := t.settings
  unfold parseTotp
  rw [htrim, huri, fullMatch_uriPattern hquestion hquery]
  simp only [Option.bind_eq_bind, Option.bind_some, Function.update_self,
    Function.update_of_ne (show (1 : ℕ) ≠ 2 by decide), Option.getD_some, decodeURIComponent_label,
    hsecret, hissuer, halgorithm, hdigits, hperiod, base32Decode_base32Encode hupper hbytes,
    algorithmIn_name hupper, wholeParam_toDigits (show t.digits < 2 ^ 53 by omega),
    wholeParam_toDigits (show t.period < 2 ^ 53 by omega)]
  rw [if_neg (by omega), ofSetup]
  by_cases hnone : t.issuer = []
  · simp only [if_pos hnone, Option.getD_none]
  · simp only [if_neg hnone, Option.getD_some]

end Query

/-- The share page parses what `zvault-otp` writes to the same settings, and shows the same codes at
every second that JavaScript numbers tell from the next. -/
theorem same_codes (hmac : Hmac) {upper : Char → List Char} (hupper : OnAscii upper)
    (t : Otp.Totp) :
    ∃ t', parseTotp upper t.toUri = some t' ∧ t'.secret = t.secret ∧ t'.algorithm = t.algorithm ∧
      t'.digits = t.digits ∧ t'.period = t.period ∧
      ∀ now < 2 ^ 53, t'.codeAt hmac now = t.codeAt hmac now ∧
        1 ≤ (t'.codeAt hmac now).remaining ∧ (t'.codeAt hmac now).remaining ≤ t.period := by
  refine ⟨ofSetup t, parseTotp_toUri t hupper, rfl, rfl, rfl, rfl, fun now hnow => ?_⟩
  have hsame : (ofSetup t).codeAt hmac now = t.codeAt hmac now :=
    Totp.codeAt_eq rfl rfl rfl rfl hmac hnow
  rw [hsame]
  exact ⟨rfl, t.remaining_codeAt hmac now⟩

/-- Digests that are all zero but for what is known of HMAC-SHA-1 under the example's key. -/
def exampleHmac : Hmac where
  digest a key message :=
    if a = .sha1 ∧ key = Otp.exampleSecret ∧ message = counterBytes 1 then
      [133, 63, 121, 182, 101, 10, 158, 60, 90, 129, 241, 121, 162, 9, 37, 59, 203, 190, 116, 2]
    else List.replicate a.digestLength 0
  length_digest a key message := by
    split
    · rename_i h
      rw [h.1]
      rfl
    · exact List.length_replicate

/-- Upper case of ASCII. -/
def asciiUpper (c : Char) : List Char := [c.toUpper]

theorem same_codes_example :
    (∃ t', parseTotp asciiUpper Otp.exampleTotp.toUri = some t' ∧
      t'.secret = Otp.exampleTotp.secret ∧ t'.algorithm = Otp.exampleTotp.algorithm ∧
      t'.digits = Otp.exampleTotp.digits ∧ t'.period = Otp.exampleTotp.period ∧
      ∀ now < 2 ^ 53, t'.codeAt exampleHmac now = Otp.exampleTotp.codeAt exampleHmac now ∧
        1 ≤ (t'.codeAt exampleHmac now).remaining ∧
        (t'.codeAt exampleHmac now).remaining ≤ Otp.exampleTotp.period) ∧
      Otp.exampleTotp.codeAt exampleHmac 59 = ⟨"996554".toList, 30, 1⟩ :=
  ⟨same_codes exampleHmac (fun _ _ => rfl) Otp.exampleTotp, by decide⟩

/-- Digests that show the low bytes of the counter. -/
def counterHmac : Hmac where
  digest a _ message := message.takeD 8 0 ++ List.replicate (a.digestLength - 9) 0 ++ [4]
  length_digest a _ message := by
    have hlength : 9 ≤ a.digestLength := by cases a <;> decide
    rw [List.length_append, List.length_append, List.takeD_length, List.length_replicate,
      List.length_singleton]
    omega

/-- A setup whose codes change every three seconds. -/
def shortTotp : Otp.Totp :=
  { Otp.exampleTotp with
    period := 3
    issuer := []
    account := "x".toList
    settings := by decide
    labels := by decide }

/-- The quotient of a time of 54 bits is rounded up to the next period. -/
theorem floor_kept_short :
    ⌊Js.kept (((2 ^ 54 - 2 : ℕ) : ℚ) / (3 : ℕ))⌋.toNat = 6004799503160661 := by
  have hquot : (((2 ^ 54 - 2 : ℕ) : ℚ) / (3 : ℕ)) = 6004799503160660 + 2 / 3 := by norm_num
  have hbit : Js.lastBit (6004799503160660 + 2 / 3) = 1 := by
    rw [Js.lastBit_of_log (e := 52) (by norm_num) (by norm_num)]
    norm_num
  have hfloor : ⌊(6004799503160660 + 2 / 3 : ℚ)⌋ = 6004799503160660 := by
    norm_num [Int.floor_eq_iff]
  have hkept : Js.kept (6004799503160660 + 2 / 3) = ((6004799503160661 : ℤ) : ℚ) := by
    rw [Js.kept, hbit, div_one, mul_one, Js.roundEven, hfloor]
    norm_num
  rw [hquot, hkept, Int.floor_intCast]
  rfl

theorem kept_short : Js.kept ((2 ^ 54 - 2 : ℕ) : ℚ) = ((2 ^ 54 - 2 : ℕ) : ℚ) := by
  have hbit : Js.lastBit ((2 ^ 54 - 2 : ℕ) : ℚ) = 2 := by
    rw [Js.lastBit_of_log (e := 53) (by norm_num) (by norm_num)]
    norm_num
  have hquot : (((2 ^ 54 - 2 : ℕ) : ℚ) / 2) = ((2 ^ 53 - 1 : ℤ) : ℚ) := by norm_num
  rw [Js.kept, hbit, hquot, Js.roundEven_intCast]
  norm_num

/-- A time that JavaScript numbers hold at which the share page is one period ahead. -/
theorem codes_differ :
    Otp.Totp.parse "otpauth://totp/x?secret=JBSWY3DPEHPK3PXP&period=3".toList = .ok shortTotp ∧
      Js.kept ((2 ^ 54 - 2 : ℕ) : ℚ) = ((2 ^ 54 - 2 : ℕ) : ℚ) ∧
      ∃ t', parseTotp asciiUpper shortTotp.toUri = some t' ∧
        (t'.codeAt counterHmac (2 ^ 54 - 2)).code = "655765".toList ∧
        (shortTotp.codeAt counterHmac (2 ^ 54 - 2)).code = "655764".toList := by
  refine ⟨by decide +kernel, kept_short, ofSetup shortTotp,
    parseTotp_toUri _ fun _ _ => rfl, ?_, by decide⟩
  have hcounter : ⌊Js.kept (((2 ^ 54 - 2 : ℕ) : ℚ) / ((ofSetup shortTotp).period : ℕ))⌋.toNat =
      6004799503160661 := floor_kept_short
  rw [Totp.codeAt]
  dsimp only
  rw [hcounter]
  decide

end Zvault.ShareWeb
