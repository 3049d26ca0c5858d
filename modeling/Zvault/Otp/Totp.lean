import Zvault.Fallible.Steps
import Zvault.Otp.Base32
import Zvault.Otp.Percent
import Zvault.Text.Separated
import Zvault.Text.Trim
import Zvault.Crypto.Sealing

/-!
# Setups of one-time passwords

`Totp::parse` and `to_uri` of `zvault-otp`. Texts are lists of characters.
-/

namespace Zvault.Otp

open Text (trimmed splitOnce)

inductive Algorithm where
  | sha1
  | sha256
  | sha512
  deriving DecidableEq, Repr

def Algorithm.name : Algorithm → List Char
  | .sha1 => "SHA1".toList
  | .sha256 => "SHA256".toList
  | .sha512 => "SHA512".toList

inductive OtpError where
  /-- `That isn't a valid one-time password setup key or otpauth:// link.` -/
  | invalid
  /-- `Only time-based (TOTP) codes are supported, not counter-based (HOTP) ones.` -/
  | hotp
  /-- `The setup key is too short to be secure.` -/
  | tooShort
  /-- `Unsupported one-time password settings.` -/
  | unsupported
  deriving DecidableEq, Repr

def minSecretBytes : ℕ := 10

def maxSecretBytes : ℕ := 128

def maxLabelChars : ℕ := 256

def maxInputBytes : ℕ := 4096

/-- A generator of codes, with what `Totp::new` checks. -/
structure Totp where
  secret : List UInt8
  algorithm : Algorithm
  digits : ℕ
  period : ℕ
  issuer : List Char
  account : List Char
  secret_length : minSecretBytes ≤ secret.length ∧ secret.length ≤ maxSecretBytes
  settings : (6 ≤ digits ∧ digits ≤ 8) ∧ 1 ≤ period ∧ period ≤ 300
  labels : issuer.length ≤ maxLabelChars ∧ account.length ≤ maxLabelChars
  deriving DecidableEq

/-- `ok_or`. -/
def okOr {α ε : Type} (e : ε) (x : Option α) : Except ε α := x.elim (.error e) .ok

namespace Totp

/-- `Totp::new`. -/
def new (secret : List UInt8) (algorithm : Algorithm) (digits period : ℕ)
    (issuer account : List Char) : Except OtpError Totp :=
  if hmin : minSecretBytes ≤ secret.length then
    if hmax : secret.length ≤ maxSecretBytes then
      if hset : (6 ≤ digits ∧ digits ≤ 8) ∧ 1 ≤ period ∧ period ≤ 300 then
        if hlabels : issuer.length ≤ maxLabelChars ∧ account.length ≤ maxLabelChars then
          .ok ⟨secret, algorithm, digits, period, issuer, account, ⟨hmin, hmax⟩, hset, hlabels⟩
        else .error .invalid
      else .error .unsupported
    else .error .invalid
  else .error .tooShort

/-- `from_key`: the usual settings. -/
def fromKey (key issuer account : List Char) : Except OtpError Totp := do
  let secret ← okOr .invalid (base32Decode key)
  new secret .sha1 6 30 issuer account

end Totp

/-- `parse` of an unsigned integer below `bound`. One sign `+` may come first. -/
def parseUnsigned (bound : ℕ) (v : List Char) : Option ℕ :=
  let digits := if v.head? = some '+' then v.tail else v
  let n := Nat.ofDigitChars 10 digits 0
  if digits ≠ [] ∧ digits.all Char.isDigit ∧ n < bound then some n else none

/-- What the parameters of a URI have been so far. -/
structure Params where
  secret : Option (List UInt8)
  issuer : Option (List Char)
  algorithm : Algorithm
  digits : ℕ
  period : ℕ

def Params.start : Params := ⟨none, none, .sha1, 6, 30⟩

def parseAlgorithm (v : List Char) : Option Algorithm :=
  let v := v.map Char.toUpper
  if v = "SHA1".toList then some .sha1
  else if v = "SHA256".toList then some .sha256
  else if v = "SHA512".toList then some .sha512
  else none

/-- One round of the loop over the parameters, of a pair that is split and decoded. -/
def Params.set (s : Params) (k v : List Char) : Except OtpError Params :=
  let k := k.map Char.toLower
  if k = "secret".toList then do
    let secret ← okOr .invalid (base32Decode v)
    return { s with secret := some secret }
  else if k = "issuer".toList then .ok { s with issuer := some (trimmed v) }
  else if k = "algorithm".toList then do
    let algorithm ← okOr .unsupported (parseAlgorithm v)
    return { s with algorithm }
  else if k = "digits".toList then do
    let digits ← okOr .unsupported (parseUnsigned (2 ^ 32) v)
    return { s with digits }
  else if k = "period".toList then do
    let period ← okOr .unsupported (parseUnsigned (2 ^ 64) v)
    return { s with period }
  else .ok s

def Params.read (s : Params) (pair : List Char) : Except OtpError Params := do
  let (k, v) := (splitOnce '=' pair).getD (pair, [])
  let v ← okOr .invalid (percentDecode v)
  s.set k v

/-- The issuer and the account of a label. -/
def splitLabel (label : List Char) : List Char × List Char :=
  match splitOnce ':' label with
  | some (issuer, account) => (trimmed issuer, trimmed account)
  | none => ([], trimmed label)

namespace Totp

/-- `from_uri`, of what comes after `otpauth://`. -/
def fromUri (rest : List Char) : Except OtpError Totp := do
  let (kind, rest) ← okOr .invalid (splitOnce '/' rest)
  if kind.map Char.toLower = "totp".toList then
    let (label, query) := (splitOnce '?' rest).getD (rest, [])
    let label ← okOr .invalid (percentDecode label)
    let (labelIssuer, account) := splitLabel label
    let params ← ((query.splitOn '&').filter (· ≠ [])).foldlM Params.read Params.start
    let secret ← okOr .invalid params.secret
    let issuer := (params.issuer.filter (· ≠ [])).getD labelIssuer
    new secret params.algorithm params.digits params.period issuer account
  else if kind.map Char.toLower = "hotp".toList then .error .hotp
  else .error .invalid

def scheme : List Char := "otpauth://".toList

/-- `Totp::parse`. -/
def parse (input : List Char) : Except OtpError Totp :=
  let input := trimmed input
  if maxInputBytes < (utf8 input).length then .error .invalid
  else if (input.take 10).map Char.toLower = scheme then fromUri (input.drop 10)
  else fromKey input [] []

variable (t : Totp)

/-- The label of `to_uri`. -/
def label : List Char :=
  (if t.issuer = [] then [] else percentEncode t.issuer ++ [':']) ++ percentEncode t.account

/-- A parameter that is written unless it is as usual. -/
def param (usual : Bool) (name value : List Char) : List Char :=
  if usual then [] else '&' :: (name ++ '=' :: value)

/-- The parameters of `to_uri` after the secret. -/
def params : List Char :=
  param (t.issuer = []) "issuer".toList (percentEncode t.issuer) ++
    (param (t.algorithm = .sha1) "algorithm".toList t.algorithm.name ++
      (param (t.digits = 6) "digits".toList (Nat.toDigits 10 t.digits) ++
        param (t.period = 30) "period".toList (Nat.toDigits 10 t.period)))

/-- `to_uri`. -/
def toUri : List Char :=
  scheme ++ ("totp".toList ++ '/' :: (t.label ++ '?' :: ("secret".toList ++
    '=' :: (base32Encode t.secret ++ t.params))))

end Totp

/-! ### Codes

`code_at` of `zvault-otp`. HMAC is left open but for the length of its digests. -/

open Crypto (fromBeBytes)

/-- The bytes of a digest. -/
def Algorithm.digestLength : Algorithm → ℕ
  | .sha1 => 20
  | .sha256 => 32
  | .sha512 => 64

/-- HMAC of a message under a key. -/
structure Hmac where
  digest : Algorithm → List UInt8 → List UInt8 → List UInt8
  length_digest : ∀ a key message, (digest a key message).length = a.digestLength

/-- `u64::to_be_bytes`. -/
def counterBytes (counter : ℕ) : List UInt8 :=
  [.ofNat (counter / 2 ^ 56), .ofNat (counter / 2 ^ 48), .ofNat (counter / 2 ^ 40),
    .ofNat (counter / 2 ^ 32), .ofNat (counter / 2 ^ 24), .ofNat (counter / 2 ^ 16),
    .ofNat (counter / 2 ^ 8), .ofNat counter]

/-- A code and when it ends. -/
structure Code where
  code : List Char
  period : ℕ
  remaining : ℕ
  deriving DecidableEq, Repr

/-- The low bits of the last byte of a digest. -/
def offset (digest : List UInt8) : ℕ := (digest.getD (digest.length - 1) 0).toNat &&& 0x0f

/-- `hotp`. -/
def hotp (hmac : Hmac) (algorithm : Algorithm) (secret : List UInt8) (counter : ℕ) : ℕ :=
  let digest := hmac.digest algorithm secret (counterBytes counter)
  let offset := offset digest
  fromBeBytes [digest.getD offset 0, digest.getD (offset + 1) 0, digest.getD (offset + 2) 0,
    digest.getD (offset + 3) 0] &&& 0x7fffffff

/-- `code_at`. -/
def Totp.codeAt (t : Totp) (hmac : Hmac) (unixSecs : ℕ) : Code :=
  let value := hotp hmac t.algorithm t.secret (unixSecs / t.period)
  { code := List.leftpad t.digits '0' (Nat.toDigits 10 (value % 10 ^ t.digits))
    period := t.period
    remaining := t.period - unixSecs % t.period }

/-- The four bytes of a code are in the digest. -/
theorem offset_lt (hmac : Hmac) (algorithm : Algorithm) (key message : List UInt8) :
    offset (hmac.digest algorithm key message) + 3 <
      (hmac.digest algorithm key message).length := by
  have hoffset : offset (hmac.digest algorithm key message) < 16 :=
    Nat.lt_of_le_of_lt Nat.and_le_right (by decide)
  have hlength : 20 ≤ algorithm.digestLength := by cases algorithm <;> decide
  rw [hmac.length_digest]
  omega

theorem Totp.remaining_codeAt (t : Totp) (hmac : Hmac) (unixSecs : ℕ) :
    1 ≤ (t.codeAt hmac unixSecs).remaining ∧ (t.codeAt hmac unixSecs).remaining ≤ t.period := by
  have hpos : 0 < t.period := t.settings.2.1
  have hrest := Nat.mod_lt unixSecs hpos
  change 1 ≤ t.period - unixSecs % t.period ∧ t.period - unixSecs % t.period ≤ t.period
  omega

end Zvault.Otp
