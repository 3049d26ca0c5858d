import Zvault.Srp.Server
import Mathlib.Data.Nat.ModEq
import Mathlib.Tactic.NormNum.GCD

/-!
# The SRP client and server agree

Both sides write a number that fits the group to the same 384 bytes and read it
back. The server's `modPow` is exponentiation modulo the modulus. What is left
is the identity `(B - kv)^(a + ux) = (A v^u)^b` of the two sides' secrets.
-/

namespace Zvault

open SrpClient

theorem toNat_byteOf {d : ℕ} (h : d < 256) : (byteOf d).toNat = d :=
  UInt8.toNat_ofNat_of_lt h

theorem map_toNat_byteOf {ds : List ℕ} (h : ∀ d ∈ ds, d < 256) :
    (ds.map byteOf).map UInt8.toNat = ds := by
  rw [List.map_map]
  conv_rhs => rw [← List.map_id ds]
  exact List.map_congr_left fun d hd => toNat_byteOf (h d hd)

section Padding

variable {m : ℕ}

/-- The client's padding, digit by digit. -/
theorem pad_eq (m : ℕ) : pad m = (Radix.padStart srpLen (Radix.digits 256 m)).map byteOf := by
  simp only [pad, toBytesBe, Radix.padStart, List.map_append, List.map_replicate, List.length_map]
  rfl

theorem length_digits (hm : m < 256 ^ srpLen) : (Radix.digits 256 m).length ≤ srpLen :=
  Radix.length_digits_le (by norm_num) (by decide) hm

/-- A padded number is as long as the group. -/
theorem length_pad (hm : m < 256 ^ srpLen) : (pad m).length = srpLen := by
  rw [pad_eq, List.length_map, Radix.length_padStart (length_digits hm)]

/-- A padded number reads back. -/
theorem int_pad (m : ℕ) : int (pad m) = m := by
  have hlt : ∀ d ∈ Radix.padStart srpLen (Radix.digits 256 m), d < 256 := fun d hd =>
    Radix.lt_of_mem_padStart (by norm_num) (fun d hd => Radix.lt_of_mem_digits (by norm_num) hd) hd
  rw [int, pad_eq, map_toNat_byteOf hlt, Radix.value_padStart, Radix.value_digits]

/-- The server pads a number that fits to the client's bytes. -/
theorem server_pad (hm : m < 256 ^ srpLen) : SrpServer.pad m = some (pad m) := by
  have hpow : m < 16 ^ (srpLen * 2) := by
    calc m < 256 ^ srpLen := hm
      _ = (16 ^ 2) ^ srpLen := by norm_num
      _ = 16 ^ (srpLen * 2) := by rw [Nat.mul_comm, pow_mul]
  have hhex := Radix.length_padStart (Radix.length_digits_le (by norm_num) (by decide) hpow)
  have hlt16 : ∀ d ∈ Radix.padStart (srpLen * 2) (Radix.digits 16 m), d < 16 := fun d hd =>
    Radix.lt_of_mem_padStart (by norm_num) (fun d hd => Radix.lt_of_mem_digits (by norm_num) hd) hd
  have hlt256 : ∀ d ∈ Radix.padStart srpLen (Radix.digits 256 m), d < 256 := fun d hd =>
    Radix.lt_of_mem_padStart (by norm_num) (fun d hd => Radix.lt_of_mem_digits (by norm_num) hd) hd
  have hpairs : Radix.pairs 16 (Radix.padStart (srpLen * 2) (Radix.digits 16 m)) =
      Radix.padStart srpLen (Radix.digits 256 m) := by
    refine Radix.eq_of_value_eq (b := 256) (by norm_num) ?_ ?_ hlt256 ?_
    · rw [Radix.length_pairs, hhex, Radix.length_padStart (length_digits hm)]
      rfl
    · exact fun d hd => Radix.lt_of_mem_pairs hlt16 hd
    · rw [show 256 = 16 * 16 from rfl, Radix.value_pairs _ (by rw [hhex]; rfl), Radix.value_padStart,
        Radix.value_padStart, Radix.value_digits, Radix.value_digits]
  rw [SrpServer.pad, if_neg (by omega), SrpServer.ofHex, hpairs, pad_eq]

/-- Both sides read the same number. -/
theorem server_toInt (bytes : Bytes) : SrpServer.toInt bytes = int bytes := by
  unfold SrpServer.toInt
  split
  · rename_i hlength
    rw [List.length_eq_zero_iff.mp hlength]
    rfl
  · exact Radix.value_unpairs _

end Padding

section Group

theorem n_lt : n < 256 ^ srpLen := by
  rw [show srpLen = 192 * 2 from rfl, pow_mul]
  norm_num [n]

theorem one_lt_n : 1 < n := by norm_num [n]

theorem coprime_n_g : n.Coprime g := by norm_num [n, g]

/-- Both sides use the same group. -/
theorem server_n : SrpServer.n = n := rfl

/-- A remainder of the modulus fits the group. -/
theorem mod_n_lt (m : ℕ) : m % n < 256 ^ srpLen :=
  (Nat.mod_lt m (Nat.zero_lt_of_lt one_lt_n)).trans n_lt

/-- A power of the generator is not zero in the group. -/
theorem modpow_g_ne_zero (e : ℕ) : modpow g e n ≠ 0 := by
  intro hzero
  have hdvd : n ∣ g ^ e := Nat.dvd_of_mod_eq_zero hzero
  have hone := (coprime_n_g.pow_right e).eq_one_of_dvd hdvd
  exact absurd hone one_lt_n.ne'

/-- One power after another. -/
theorem modpow_congr {x y : ℕ} (e : ℕ) (h : x ≡ y [MOD n]) : modpow x e n = modpow y e n :=
  h.pow e

end Group

section ModPow

variable {modulus : ℕ}

/-- What the loop has left to multiply. -/
theorem modPowLoop_eq (hmodulus : 1 < modulus) {result : ℕ} (hresult : result < modulus)
    (base exponent : ℕ) : SrpServer.modPowLoop modulus result base exponent =
      result * base ^ exponent % modulus := by
  induction exponent using Nat.strong_induction_on generalizing result base with
  | _ exponent ih =>
    rw [SrpServer.modPowLoop]
    split
    · rename_i hpos
      have hhalf : exponent >>> 1 = exponent / 2 := by
        rw [Nat.shiftRight_eq_div_pow, pow_one]
      have hsplit := Nat.div_add_mod exponent 2
      rw [hhalf]
      split
      · rename_i hodd
        rw [Nat.and_one_is_mod] at hodd
        have hmod : exponent % 2 = 1 := by omega
        rw [ih _ (by omega) (Nat.mod_lt _ (by omega))]
        have hpow : result * base * (base * base) ^ (exponent / 2) = result * base ^ exponent := by
          conv_rhs => rw [← hsplit, hmod, pow_succ, pow_mul, pow_two]
          ring
        rw [← hpow]
        exact (Nat.mod_modEq _ _).mul ((Nat.mod_modEq _ _).pow _)
      · rename_i heven
        rw [Nat.and_one_is_mod] at heven
        have hmod : exponent % 2 = 0 := by omega
        rw [ih _ (by omega) hresult]
        have hpow : result * (base * base) ^ (exponent / 2) = result * base ^ exponent := by
          conv_rhs => rw [← hsplit, hmod, Nat.add_zero, pow_mul, pow_two]
        rw [← hpow]
        exact ((Nat.mod_modEq _ _).pow _).mul_left _
    · rename_i hpos
      have hzero : exponent = 0 := by omega
      rw [hzero, pow_zero, Nat.mul_one, Nat.mod_eq_of_lt hresult]

/-- The server's `modPow` is exponentiation modulo the modulus. -/
theorem modPow_eq (hmodulus : 1 < modulus) (base exponent : ℕ) :
    SrpServer.modPow base exponent modulus = base ^ exponent % modulus := by
  rw [SrpServer.modPow, modPowLoop_eq hmodulus hmodulus, Nat.one_mul]
  exact (Nat.mod_modEq _ _).pow _

end ModPow

section Login

variable (sha : Sha256) (identity : String) (salt : Bytes) (srpX : Vector UInt8 32) (a : ℕ)
  (secretB : Bytes)

/-- Both sides have the same `k`. -/
theorem server_k : SrpServer.k sha = some (k sha) := by
  have hn : SrpServer.pad SrpServer.n = some (pad n) := server_pad n_lt
  have hg : SrpServer.pad SrpServer.g = some (pad g) :=
    server_pad (lt_of_lt_of_le (by decide : g < 256) (Nat.le_self_pow (by decide) 256))
  rw [SrpServer.k, hn, hg]
  exact congrArg some (server_toInt _)

/-- What both sides mix into the proof for the group. -/
theorem server_hNXorHG : SrpServer.hNXorHG sha =
    some (List.zipWith (· ^^^ ·) (hash sha [pad n]) (hash sha [[byteOf g]])) := by
  have hn : SrpServer.pad SrpServer.n = some (pad n) := server_pad n_lt
  rw [SrpServer.hNXorHG, hn]
  rfl

theorem int_verifier : int (verifier srpX) = modpow g (int srpX.toList) n := int_pad _

/-- The number `B` of a challenge. -/
def challengeB : ℕ :=
  (k sha * modpow g (int srpX.toList) n + modpow g (int secretB) n) % n

/-- A challenge for a verifier is never refused. -/
theorem createChallenge_eq : SrpServer.createChallenge sha (verifier srpX) secretB =
    some { secretB, publicB := pad (challengeB sha srpX secretB) } := by
  have hpow := modPow_eq one_lt_n SrpServer.g (int secretB)
  have hpad := server_pad (mod_n_lt (k sha * modpow g (int srpX.toList) n +
    SrpServer.g ^ int secretB % n))
  simp only [SrpServer.createChallenge, server_k, server_toInt, int_verifier, server_n, hpow, hpad,
    Option.bind_eq_bind, Option.bind_some]
  rfl

/-- The client's base is `g^b`, although `kv` may be larger than `B`. -/
theorem base_modEq : (challengeB sha srpX secretB % n + n -
    k sha * modpow g (int srpX.toList) n % n) % n ≡ g ^ int secretB [MOD n] := by
  have hpos : 0 < n := Nat.zero_lt_of_lt one_lt_n
  set kv := k sha * modpow g (int srpX.toList) n with hkv
  have hle : kv % n ≤ challengeB sha srpX secretB % n + n :=
    (Nat.mod_lt kv hpos).le.trans (Nat.le_add_left _ _)
  refine Nat.ModEq.add_right_cancel' (kv % n) ?_
  calc (challengeB sha srpX secretB % n + n - kv % n) % n + kv % n
      ≡ challengeB sha srpX secretB % n + n - kv % n + kv % n [MOD n] :=
        (Nat.mod_modEq _ _).add_right _
    _ = challengeB sha srpX secretB % n + n := Nat.sub_add_cancel hle
    _ ≡ challengeB sha srpX secretB [MOD n] := by
        rw [Nat.ModEq, Nat.add_mod_right, Nat.mod_mod]
    _ ≡ kv + modpow g (int secretB) n [MOD n] := Nat.mod_modEq _ _
    _ ≡ g ^ int secretB + kv % n [MOD n] := by
        rw [Nat.add_comm]
        exact (Nat.mod_modEq _ _).add (Nat.mod_modEq _ _).symm

/-- The secret of the login, as the client computes it. -/
def clientSecret (u : ℕ) : ℕ :=
  modpow ((challengeB sha srpX secretB % n + n -
    k sha * modpow g (int srpX.toList) n % n) % n) (a + u * int srpX.toList) n

/-- The server computes the same secret. -/
theorem serverSecret_eq (u : ℕ) :
    SrpServer.modPow (modpow g a n *
      SrpServer.modPow (modpow g (int srpX.toList) n) u n % n) (int secretB) n =
    clientSecret sha srpX a secretB u := by
  rw [clientSecret, modpow_congr _ (base_modEq sha srpX secretB), modPow_eq one_lt_n,
    modPow_eq one_lt_n]
  have hpair : modpow g a n * (modpow g (int srpX.toList) n ^ u % n) % n ≡
      g ^ a * (g ^ int srpX.toList) ^ u [MOD n] :=
    (Nat.mod_modEq _ _).trans ((Nat.mod_modEq _ _).mul
      ((Nat.mod_modEq _ _).trans ((Nat.mod_modEq _ _).pow u)))
  have hpow : (g ^ int secretB) ^ (a + u * int srpX.toList) =
      (g ^ a * (g ^ int srpX.toList) ^ u) ^ int secretB := by
    rw [← pow_mul, ← pow_mul, ← pow_add, ← pow_mul]
    ring_nf
  change _ = (g ^ int secretB) ^ (a + u * int srpX.toList) % n
  rw [hpow]
  exact hpair.pow (int secretB)

/-- The key both sides derive from the secret. -/
def sharedKey (u : ℕ) : Bytes := hash sha [pad (clientSecret sha srpX a secretB u)]

/-- The session of a client that ends with a key. -/
def sessionWith (aPub bPub key : Bytes) : ClientSession where
  publicA := aPub
  m1 := proof sha identity salt aPub bPub key
  m2 := hash sha [aPub, proof sha identity salt aPub bPub key, key]
  key

variable {a} {u : ℕ}

/-- The client refuses nothing but a zero `B` or `u`. -/
theorem withSecret_eq (hB : challengeB sha srpX secretB % n ≠ 0)
    (hu : int (hash sha [pad (modpow g a n), pad (challengeB sha srpX secretB)]) = u)
    (hpos : u ≠ 0) :
    withSecret sha a identity salt srpX (pad (challengeB sha srpX secretB)) =
      some (sessionWith sha identity salt (pad (modpow g a n)) (pad (challengeB sha srpX secretB))
        (sharedKey sha srpX a secretB u)) := by
  have hlength : (pad (challengeB sha srpX secretB)).length = srpLen := length_pad (mod_n_lt _)
  simp only [withSecret, hlength, ne_eq, not_true, if_false, int_pad, hB, hu, hpos]
  rfl

/-- The server's check accepts the proof made with the shared key. -/
theorem checkProof_eq (aPub bPub : Bytes) (ha : int aPub = modpow g a n) :
    SrpServer.checkProof sha identity salt (verifier srpX) { secretB, publicB := bPub } aPub
      (proof sha identity salt aPub bPub (sharedKey sha srpX a secretB u)) u =
    some (some {
      serverProof := (sessionWith sha identity salt aPub bPub
        (sharedKey sha srpX a secretB u)).m2
      sessionKey := sharedKey sha srpX a secretB u }) := by
  have hpad : SrpServer.pad (clientSecret sha srpX a secretB u) =
      some (pad (clientSecret sha srpX a secretB u)) := server_pad (mod_n_lt _)
  have hsecret := serverSecret_eq sha srpX a secretB u
  simp only [SrpServer.checkProof, server_toInt, ha, int_verifier, server_n, hsecret, hpad,
    server_hNXorHG, Option.bind_eq_bind, Option.bind_some]
  refine if_neg ?_
  rintro (hlength | hproof)
  · exact hlength rfl
  · exact hproof rfl

/-- The server accepts the session made with the shared key. -/
theorem verifyClient_eq
    (hu : int (hash sha [pad (modpow g a n), pad (challengeB sha srpX secretB)]) = u)
    (hpos : u ≠ 0) :
    SrpServer.verifyClient sha identity salt (verifier srpX)
      { secretB, publicB := pad (challengeB sha srpX secretB) } (pad (modpow g a n))
      (proof sha identity salt (pad (modpow g a n)) (pad (challengeB sha srpX secretB))
        (sharedKey sha srpX a secretB u)) =
    some (some {
      serverProof := (sessionWith sha identity salt (pad (modpow g a n))
        (pad (challengeB sha srpX secretB)) (sharedKey sha srpX a secretB u)).m2
      sessionKey := sharedKey sha srpX a secretB u }) := by
  have hlength : (pad (modpow g a n)).length = srpLen := length_pad (mod_n_lt _)
  have hA : int (pad (modpow g a n)) % SrpServer.n ≠ 0 := by
    rw [int_pad, server_n, modpow, Nat.mod_mod]
    exact modpow_g_ne_zero a
  have hu' : SrpServer.toInt (SrpServer.hash sha [pad (modpow g a n),
      pad (challengeB sha srpX secretB)]) = u := (server_toInt _).trans hu
  rw [SrpServer.verifyClient, if_neg (not_not.mpr hlength), server_toInt, if_neg hA]
  simp only [hu', hpos, if_false]
  exact checkProof_eq sha identity salt srpX secretB _ _ (int_pad _)

variable (a)

/-- The two sides of one login agree. The client's checks on `B` and on `u` are the hypotheses;
the server's own check on `A` never fails. -/
theorem srp_agree :
    (∃ challenge, SrpServer.createChallenge sha (verifier srpX) secretB = some challenge ∧
      (int challenge.publicB % n ≠ 0 →
        int (hash sha [pad (modpow g a n), challenge.publicB]) ≠ 0 →
        ∃ session login, withSecret sha a identity salt srpX challenge.publicB = some session ∧
          SrpServer.verifyClient sha identity salt (verifier srpX) challenge session.publicA
            session.m1 = some (some login) ∧
          session.verifyServer login.serverProof ∧
          login.sessionKey = session.key)) ∧
    (∀ m ≤ n, SrpServer.pad m = some (pad m)) ∧
    ∀ base exponent modulus, 1 < modulus →
      SrpServer.modPow base exponent modulus = base ^ exponent % modulus := by
  refine ⟨⟨_, createChallenge_eq sha srpX secretB, fun hB hu => ?_⟩,
    fun m hm => server_pad (hm.trans_lt n_lt), fun base exponent _ hmodulus =>
      modPow_eq hmodulus base exponent⟩
  rw [int_pad] at hB
  exact ⟨_, _, withSecret_eq sha identity salt srpX secretB hB rfl hu,
    verifyClient_eq sha identity salt srpX secretB rfl hu, decide_eq_true rfl, rfl⟩

end Login

/-- A hash with one result. -/
def onesHash : Sha256 := fun _ => Vector.replicate 32 1

/-- A login that passes the client's checks: with the secrets zero, `B` is `k + 1`. -/
theorem srp_agree_ones :
    ∃ challenge session login,
      SrpServer.createChallenge onesHash (verifier (Vector.replicate 32 0)) [] = some challenge ∧
      withSecret onesHash 0 "user" [] (Vector.replicate 32 0) challenge.publicB = some session ∧
      SrpServer.verifyClient onesHash "user" [] (verifier (Vector.replicate 32 0)) challenge
        session.publicA session.m1 = some (some login) ∧ login.sessionKey = session.key := by
  obtain ⟨challenge, hchallenge, hagree⟩ :=
    (srp_agree onesHash "user" [] (Vector.replicate 32 0) 0 []).1
  have hB : int challenge.publicB % n ≠ 0 := by
    obtain rfl := Option.some_inj.mp ((createChallenge_eq _ _ _).symm.trans hchallenge)
    rw [int_pad]
    decide
  have hu : int (hash onesHash [pad (modpow g 0 n), challenge.publicB]) ≠ 0 := by
    change int (Vector.replicate 32 1).toList ≠ 0
    decide
  obtain ⟨session, login, hsession, hlogin, -, hkey⟩ := hagree hB hu
  exact ⟨challenge, session, login, hchallenge, hsession, hlogin, hkey⟩

end Zvault
