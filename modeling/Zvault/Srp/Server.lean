import Zvault.Bytes.Radix

/-!
# SRP

Both halves of the protocol that passwords are proved with.
-/

/-! ### The SRP client

`crates/zvault-crypto/src/srp.rs`. The hash is a parameter with results of 32
bytes; a byte string is a list of bytes. `modpow` of the big-number crate is
exponentiation modulo the modulus. -/

namespace Zvault

/-- A byte string. -/
abbrev Bytes := List UInt8

/-- SHA-256: any function whose results are 32 bytes long. -/
abbrev Sha256 := Bytes → Vector UInt8 32

/-- A digit as a byte. -/
def byteOf (digit : ℕ) : UInt8 := UInt8.ofNat digit

/-- `SRP_LEN` and `SRP_GROUP_BYTES`: length of N and of every padded group element. -/
def srpLen : ℕ := 384

namespace SrpClient

/-- `N_HEX`: the RFC 5054 3072-bit group. -/
def n : ℕ := 0xFFFFFFFFFFFFFFFFC90FDAA22168C234C4C6628B80DC1CD129024E088A67CC74020BBEA63B139B22514A08798E3404DDEF9519B3CD3A431B302B0A6DF25F14374FE1356D6D51C245E485B576625E7EC6F44C42E9A637ED6B0BFF5CB6F406B7EDEE386BFB5A899FA5AE9F24117C4B1FE649286651ECE45B3DC2007CB8A163BF0598DA48361C55D39A69163FA8FD24CF5F83655D23DCA3AD961C62F356208552BB9ED529077096966D670C354E4ABC9804F1746C08CA18217C32905E462E36CE3BE39E772C180E86039B2783A2EC07A28FB5C55DF06F4C52C9DE2BCBF6955817183995497CEA956AE515D2261898FA051015728E5A8AAAC42DAD33170D04507A33A85521ABDF1CBA64ECFB850458DBEF0A8AEA71575D060C7DB3970F85A6E1E4C7ABF5AE8CDB0933D71E8C94E04A25619DCEE3D2261AD2EE6BF12FFA06D98A0864D87602733EC86A64521F2B18177B200CBBE117577A615D6C770988C0BAD946E208E24FA074E5AB3143DB5BFCE0FD108E4B82D120A93AD2CAFFFFFFFFFFFFFFFF

/-- `G`. -/
def g : ℕ := 5

/-- `modpow` of `BigUint`. -/
def modpow (base exponent modulus : ℕ) : ℕ := base ^ exponent % modulus

/-- `hash` of several parts, one after another. -/
def hash (sha : Sha256) (parts : List Bytes) : Bytes := (sha parts.flatten).toList

/-- `int`: `from_bytes_be`. -/
def int (bytes : Bytes) : ℕ := Radix.value 256 (bytes.map UInt8.toNat)

/-- `to_bytes_be`. -/
def toBytesBe (m : ℕ) : Bytes := (Radix.digits 256 m).map byteOf

/-- `pad`. A number that is too long keeps its length. -/
def pad (m : ℕ) : Bytes :=
  let bytes := toBytesBe m
  List.replicate (srpLen - bytes.length) 0 ++ bytes

/-- `k` of the group. -/
def k (sha : Sha256) : ℕ := int (hash sha [pad n, pad g])

/-- `verifier`: the `v = g^x` the server stores in place of a password hash. -/
def verifier (srpX : Vector UInt8 32) : Bytes := pad (modpow g (int srpX.toList) n)

/-- `ClientSession`: a client's half of one SRP login. -/
structure ClientSession where
  publicA : Bytes
  m1 : Bytes
  m2 : Bytes
  key : Bytes
  deriving DecidableEq

/-- `proof`: the client's proof `M1`. -/
def proof (sha : Sha256) (identity : String) (salt aPub bPub key : Bytes) : Bytes :=
  let hng := List.zipWith (· ^^^ ·) (hash sha [pad n]) (hash sha [[byteOf g]])
  let hi := hash sha [identity.toUTF8.toList]
  hash sha [hng, hi, salt, aPub, bPub, key]

/-- `with_secret`. `none` is `Error::Srp`. -/
def withSecret (sha : Sha256) (a : ℕ) (identity : String) (salt : Bytes) (srpX : Vector UInt8 32)
    (publicB : Bytes) : Option ClientSession :=
  if publicB.length ≠ srpLen then none
  else
    let bPub := int publicB
    if bPub % n = 0 then none
    else
      let aPub := pad (modpow g a n)
      let u := int (hash sha [aPub, publicB])
      if u = 0 then none
      else
        let x := int srpX.toList
        let kv := k sha * modpow g x n % n
        let base := (bPub % n + n - kv) % n
        let s := modpow base (a + u * x) n
        let key := hash sha [pad s]
        let m1 := proof sha identity salt aPub publicB key
        let m2 := hash sha [aPub, m1, key]
        some { publicA := aPub, m1, m2, key }

/-- `new`, with the 32 random bytes it draws for `a`. -/
def new (sha : Sha256) (a : Vector UInt8 32) (identity : String) (salt : Bytes)
    (srpX : Vector UInt8 32) (publicB : Bytes) : Option ClientSession :=
  withSecret sha (int a.toList) identity salt srpX publicB

/-- `verify_server`: checks the server's `M2`. -/
def ClientSession.verifyServer (session : ClientSession) (m2 : Bytes) : Bool := session.m2 = m2

end SrpClient

end Zvault

/-! ### The SRP server

`apps/api/src/auth/srp.ts`. Numbers go to bytes and back through their
hexadecimal text, most significant digit first. `pad` throws when a number is
longer than the group. -/

namespace Zvault

namespace SrpServer

/-- `N`: the RFC 5054 3072-bit group. -/
def n : ℕ := 0xFFFFFFFFFFFFFFFFC90FDAA22168C234C4C6628B80DC1CD129024E088A67CC74020BBEA63B139B22514A08798E3404DDEF9519B3CD3A431B302B0A6DF25F14374FE1356D6D51C245E485B576625E7EC6F44C42E9A637ED6B0BFF5CB6F406B7EDEE386BFB5A899FA5AE9F24117C4B1FE649286651ECE45B3DC2007CB8A163BF0598DA48361C55D39A69163FA8FD24CF5F83655D23DCA3AD961C62F356208552BB9ED529077096966D670C354E4ABC9804F1746C08CA18217C32905E462E36CE3BE39E772C180E86039B2783A2EC07A28FB5C55DF06F4C52C9DE2BCBF6955817183995497CEA956AE515D2261898FA051015728E5A8AAAC42DAD33170D04507A33A85521ABDF1CBA64ECFB850458DBEF0A8AEA71575D060C7DB3970F85A6E1E4C7ABF5AE8CDB0933D71E8C94E04A25619DCEE3D2261AD2EE6BF12FFA06D98A0864D87602733EC86A64521F2B18177B200CBBE117577A615D6C770988C0BAD946E208E24FA074E5AB3143DB5BFCE0FD108E4B82D120A93AD2CAFFFFFFFFFFFFFFFF

/-- `G`. -/
def g : ℕ := 5

/-- `hash` of several parts, one after another. -/
def hash (sha : Sha256) (parts : List Bytes) : Bytes := (sha parts.flatten).toList

/-- `Buffer.from(bytes).toString('hex')`, as digits. -/
def toHex (bytes : Bytes) : List ℕ := Radix.unpairs 16 (bytes.map UInt8.toNat)

/-- `Buffer.from(hex, 'hex')`. -/
def ofHex (hex : List ℕ) : Bytes := (Radix.pairs 16 hex).map byteOf

/-- `toInt`. -/
def toInt (bytes : Bytes) : ℕ :=
  if bytes.length = 0 then 0 else Radix.value 16 (toHex bytes)

/-- `pad`. `none` is the thrown `RangeError`. -/
def pad (m : ℕ) : Option Bytes :=
  let hex := Radix.padStart (srpLen * 2) (Radix.digits 16 m)
  if srpLen * 2 < hex.length then none else some (ofHex hex)

/-- The loop of `modPow`. -/
def modPowLoop (modulus : ℕ) (result base exponent : ℕ) : ℕ :=
  if 0 < exponent then
    modPowLoop modulus (if exponent &&& 1 ≠ 0 then result * base % modulus else result)
      (base * base % modulus) (exponent >>> 1)
  else result
termination_by exponent
decreasing_by
  rw [Nat.shiftRight_eq_div_pow]
  omega

/-- `modPow`. -/
def modPow (base exponent modulus : ℕ) : ℕ := modPowLoop modulus 1 (base % modulus) exponent

/-- `K`. -/
def k (sha : Sha256) : Option ℕ := do
  let paddedN ← pad n
  let paddedG ← pad g
  return toInt (hash sha [paddedN, paddedG])

/-- `H_N_XOR_H_G`. -/
def hNXorHG (sha : Sha256) : Option Bytes := do
  let paddedN ← pad n
  let hn := hash sha [paddedN]
  let hg := hash sha [[byteOf g]]
  return List.zipWith (· ^^^ ·) hn hg

/-- `isValidVerifier`. -/
def isValidVerifier (v : Bytes) : Bool := v.length = srpLen ∧ 1 < toInt v ∧ toInt v < n

/-- `ServerChallenge`. -/
structure ServerChallenge where
  secretB : Bytes
  publicB : Bytes
  deriving DecidableEq

/-- `createChallenge`. The login service lets it draw 32 random bytes for `secretB`. -/
def createChallenge (sha : Sha256) (verifier secretB : Bytes) : Option ServerChallenge := do
  let k ← k sha
  let b := toInt secretB
  let publicB ← pad ((k * toInt verifier + modPow g b n) % n)
  return { secretB, publicB }

/-- `VerifiedLogin`. -/
structure VerifiedLogin where
  serverProof : Bytes
  sessionKey : Bytes
  deriving DecidableEq

/-- The answer once `u` is known, after the checks of `verifyClient`. -/
def checkProof (sha : Sha256) (identity : String) (salt verifier : Bytes)
    (challenge : ServerChallenge) (publicA clientProof : Bytes) (u : ℕ) :
    Option (Option VerifiedLogin) := do
  let s := modPow (toInt publicA * modPow (toInt verifier) u n % n) (toInt challenge.secretB) n
  let sessionKey := hash sha [← pad s]
  let expected := hash sha [← hNXorHG sha, hash sha [identity.toUTF8.toList], salt, publicA,
    challenge.publicB, sessionKey]
  if clientProof.length ≠ expected.length ∨ clientProof ≠ expected then return none
  return some { serverProof := hash sha [publicA, expected, sessionKey], sessionKey }

/-- `verifyClient`: checks the client's proof. The outer `none` is a thrown error, the inner
one the `null` it returns on any failure. -/
def verifyClient (sha : Sha256) (identity : String) (salt verifier : Bytes)
    (challenge : ServerChallenge) (publicA clientProof : Bytes) : Option (Option VerifiedLogin) :=
  if publicA.length ≠ srpLen then some none
  else if toInt publicA % n = 0 then some none
  else
    let u := toInt (hash sha [publicA, challenge.publicB])
    if u = 0 then some none
    else checkProof sha identity salt verifier challenge publicA clientProof u

end SrpServer

end Zvault
