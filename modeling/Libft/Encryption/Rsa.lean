import Mathlib.FieldTheory.Finite.Basic

/-!
# Key pairs of RSA

`rsa_generate_key_pair`, `rsa_encrypt` and `rsa_decrypt` (`Encryption_rsa.cpp`). What the random generator gives is a list of numbers;
without a result the code does not return with it, or returns `FT_ERR_INVALID_STATE`. Null pointers and the switch that forces this
error are left out. A key pair of at most 32 bits has primes of at most `2 ^ 16`, so that only products in `rsa_mod_pow` and
coefficients in `rsa_mod_inverse` come near the width of their types; these are cut to it. The primes are primes
(`prime_of_rsaIsPrime`), the exponents inverse to each other (`rsaModInverse_spec`), and a message comes back
(`rsaDecrypt_rsaEncrypt`).
-/

namespace Libft.Encryption

open Nat

/-- `rsa_gcd`. -/
def rsaGcd (first second : ℕ) : ℕ :=
  if second = 0 then first else rsaGcd second (first % second)
termination_by second
decreasing_by exact mod_lt _ (by omega)

/-- What an `int64_t` holds. -/
def int64 (x : ℤ) : ℤ := x.bmod (2 ^ 64)

/-- The loop of `rsa_mod_inverse` over the coefficients and the remainders, which are not negative. -/
def inverseLoop (c c' : ℤ) (r r' : ℕ) : ℤ × ℕ :=
  if r' = 0 then (c, r) else inverseLoop c' (int64 (c - int64 ((r / r' : ℕ) * c'))) r' (r - r / r' * r')
termination_by r'
decreasing_by exact mod_eq_sub_div_mul ▸ mod_lt _ (by omega)

/-- `rsa_mod_inverse`. -/
def rsaModInverse (value modulus : ℕ) : Option ℕ :=
  let (c, r) := inverseLoop 0 1 modulus value
  if 1 < r then none else some (if c < 0 then int64 (c + modulus) else c).toNat

/-- The loop of `rsa_is_prime`. -/
def primeLoop (value divisor : ℕ) : Bool :=
  if divisor * divisor ≤ value then if value % divisor = 0 then false else primeLoop value (divisor + 1) else true
termination_by value + 1 - divisor
decreasing_by have := le_mul_self divisor; omega

/-- `rsa_is_prime`. -/
def rsaIsPrime (value : ℕ) : Bool :=
  if value < 2 then false else primeLoop value 2

/-- The number that `rsa_generate_prime` makes of a random one. -/
def primeCandidate (limit n : ℕ) : ℕ :=
  if n % limit &&& 1 = 0 then n % limit + 1 else n % limit

/-- `rsa_generate_prime`, called again while it gives `other`: the prime and the random numbers that are left. -/
def rsaGeneratePrime (limit other : ℕ) : List ℕ → Option (ℕ × List ℕ)
  | [] => none
  | n :: ns =>
    let p := primeCandidate limit n
    if p < 2 ∨ rsaIsPrime p = false ∨ p = other then rsaGeneratePrime limit other ns else some (p, ns)

/-- The loop for an exponent that is not 65537, for a number of rounds at most. -/
def exponentLoop (phi : ℕ) : ℕ → ℕ → Option ℕ
  | 0, _ => none
  | n + 1, e => if rsaGcd e phi = 1 then some e else exponentLoop phi n (e + 2)

/-- The public exponent. -/
def publicExponent (phi rounds : ℕ) : Option ℕ :=
  if rsaGcd 65537 phi = 1 then some 65537 else exponentLoop phi rounds 3

/-- What `rsa_generate_key_pair` writes: the two exponents and the modulus. -/
structure KeyPair where
  publicKey : ℕ
  privateKey : ℕ
  modulus : ℕ
  deriving DecidableEq

/-- `rsa_generate_key_pair`. -/
def rsaGenerateKeyPair (bitSize : ℕ) (random : List ℕ) (rounds : ℕ) : Option KeyPair := do
  let limit := 1 <<< (bitSize / 2)
  let (p, random) ← rsaGeneratePrime limit 0 random
  let (q, _) ← rsaGeneratePrime limit p random
  let phi := (p - 1) * (q - 1)
  let e ← publicExponent phi rounds
  let d ← rsaModInverse e phi
  return ⟨e, d, p * q⟩

/-- The loop of `rsa_mod_pow`. -/
def powLoop (modulus result base exponent : ℕ) : ℕ :=
  if exponent = 0 then result
  else
    powLoop modulus (if exponent &&& 1 = 1 then result * base % 2 ^ 64 % modulus else result) (base * base % 2 ^ 64 % modulus)
      (exponent >>> 1)
termination_by exponent
decreasing_by rw [shiftRight_one]; omega

/-- `rsa_mod_pow`. -/
def rsaModPow (base exponent modulus : ℕ) : ℕ := powLoop modulus 1 (base % modulus) exponent

/-- `rsa_encrypt`. -/
def rsaEncrypt (message publicKey modulus : ℕ) : ℕ := rsaModPow message publicKey modulus

/-- `rsa_decrypt`. -/
def rsaDecrypt (cipher privateKey modulus : ℕ) : ℕ := rsaModPow cipher privateKey modulus

/-! ## The primes -/

/-- The loop finds no divisor up to the root, from the one it begins with. -/
theorem primeLoop_iff (v d : ℕ) : primeLoop v d = true ↔ ∀ k, d ≤ k → k * k ≤ v → ¬k ∣ v := by
  fun_induction primeLoop v d with
  | case1 d h hd => exact iff_of_false nofun fun hk => hk d le_rfl h (dvd_of_mod_eq_zero hd)
  | case2 d h hd ih =>
    rw [ih]
    refine ⟨fun hk k hle => ?_, fun hk k hle => hk k (by omega)⟩
    rcases hle.eq_or_lt with rfl | hlt
    · exact fun _ hdv => hd (mod_eq_zero_of_dvd hdv)
    · exact hk k hlt
  | case3 d h => exact iff_of_true rfl fun k hle hk => absurd ((Nat.mul_le_mul hle hle).trans hk) h

theorem prime_of_rsaIsPrime {v : ℕ} (h : rsaIsPrime v = true) : v.Prime := by
  unfold rsaIsPrime at h
  split at h
  · cases h
  · refine prime_def_le_sqrt.mpr ⟨by omega, fun k hk hs => (primeLoop_iff v 2).mp h k hk (le_sqrt.mp hs)⟩

/-- What is generated is an odd prime up to the limit, and not the other one. -/
theorem rsaGeneratePrime_spec {limit other p : ℕ} {ns ns' : List ℕ} (hl : 0 < limit)
    (h : rsaGeneratePrime limit other ns = some (p, ns')) : p.Prime ∧ 2 < p ∧ p ≤ limit ∧ p ≠ other := by
  induction ns with
  | nil => cases h
  | cons n ns ih =>
    rw [rsaGeneratePrime] at h
    split at h
    · exact ih h
    · rename_i hc
      simp only [not_or, Bool.not_eq_false] at hc
      cases h
      have hr := mod_lt n hl
      have hodd : primeCandidate limit n % 2 = 1 ∧ primeCandidate limit n ≤ limit := by
        unfold primeCandidate
        rw [and_one_is_mod]
        split <;> omega
      exact ⟨prime_of_rsaIsPrime hc.2.1, by omega, hodd.2, hc.2.2⟩

/-! ## The inverse -/

/-- A number of fewer than 64 bits is not cut. -/
theorem int64_eq {x : ℤ} (h : |x| < 2 ^ 63) : int64 x = x := by
  have := abs_lt.mp h
  exact Int.bmod_eq_of_le (by omega) (by omega)

/-- The coefficients of the extended algorithm, which stay below the modulus. -/
structure Bezout (m v : ℕ) (c c' : ℤ) (r r' : ℕ) : Prop where
  pos : 0 < r
  old : (c * v : ZMod m) = r
  new : (c' * v : ZMod m) = r'
  le : |c| ≤ m
  room : |c| * r' + |c'| * r ≤ m

variable {m v r r' : ℕ} {c c' : ℤ}

/-- A round of the loop. No product and no difference leaves the width of the type. -/
theorem Bezout.step (h : Bezout m v c c' r r') (hm : m < 2 ^ 63) (hr : 0 < r') :
    Bezout m v c' (int64 (c - int64 ((r / r' : ℕ) * c'))) r' (r - r / r' * r') := by
  have hle : r / r' * r' ≤ r := div_mul_le_self r r'
  generalize r / r' = q at hle
  have hz : (q * r' : ℤ) ≤ r := by exact_mod_cast hle
  have hr : (1 : ℤ) ≤ r' := by exact_mod_cast hr
  have hq : |q * c'| = q * |c'| := by rw [abs_mul, abs_cast]
  have hab := abs_sub c (q * c')
  have hroom : |c'| * (r - q * r' : ℤ) + |c - q * c'| * r' ≤ m := by nlinarith [h.room]
  have hnew : |c'| ≤ m := by nlinarith [h.room, abs_nonneg c, abs_nonneg c', h.pos]
  have hx : |c - q * c'| ≤ m := by nlinarith [abs_nonneg c', abs_nonneg (c - q * c')]
  have hqc : |q * c'| ≤ m := by nlinarith [h.room, abs_nonneg c, abs_nonneg c']
  rw [int64_eq (x := q * c') (by omega), int64_eq (by omega)]
  refine ⟨by omega, h.new, ?_, hnew, by push_cast [cast_sub hle]; exact hroom⟩
  push_cast [cast_sub hle]
  linear_combination h.old - q * h.new

/-- All rounds: the coefficient that is left makes the value the remainder that is left. -/
theorem Bezout.loop (h : Bezout m v c c' r r') (hm : m < 2 ^ 63) :
    let (x, k) := inverseLoop c c' r r'
    0 < k ∧ (x * v : ZMod m) = k ∧ |x| ≤ m := by
  fun_induction inverseLoop c c' r r' with
  | case1 => exact ⟨h.pos, h.old, h.le⟩
  | case2 c c' r r' hr ih => exact ih (h.step hm (pos_of_ne_zero hr))

/-- What is reported as the inverse is one. -/
theorem rsaModInverse_spec {d : ℕ} (hm : 0 < m) (hb : m < 2 ^ 63) (h : rsaModInverse v m = some d) : v * d ≡ 1 [MOD m] := by
  have hl : Bezout m v 0 1 m v := ⟨hm, by simp, by simp, by simp, by simp⟩
  obtain ⟨hk, hx, hle⟩ := hl.loop hb
  unfold rsaModInverse at h
  obtain ⟨hlt, ⟨⟩⟩ := Option.ite_none_left_eq_some.mp h
  rw [show (inverseLoop 0 1 m v).2 = 1 by omega] at hx
  generalize (inverseLoop 0 1 m v).1 = x at *
  have hy : 0 ≤ (if x < 0 then int64 (x + m) else x) ∧ ((if x < 0 then int64 (x + m) else x : ℤ) : ZMod m) = x := by
    have := abs_le.mp hle
    split
    · rw [int64_eq (abs_lt.mpr ⟨by omega, by omega⟩)]
      exact ⟨by omega, by simp⟩
    · exact ⟨by omega, rfl⟩
  obtain ⟨n, hn⟩ := Int.eq_ofNat_of_zero_le hy.1
  rw [hn] at hy ⊢
  refine (ZMod.natCast_eq_natCast_iff _ _ _).mp ?_
  rw [Int.toNat_natCast, cast_mul, mul_comm, ← Int.cast_natCast n, hy.2, hx, cast_one]

/-! ## Powers -/

/-- Square and multiply, with all factors below the modulus, so that products fit into 64 bits. -/
theorem powLoop_spec {b e : ℕ} (hm : m ≤ 2 ^ 32) (hr : r < m) (hb : b < m) :
    powLoop m r b e < m ∧ (powLoop m r b e : ZMod m) = r * b ^ e := by
  have hp {a b : ℕ} (ha : a < m) (hb : b < m) : a * b % 2 ^ 64 % m < m ∧ ((a * b % 2 ^ 64 % m : ℕ) : ZMod m) = a * b := by
    have hab : a * b < 2 ^ 64 := (Nat.mul_lt_mul'' (ha.trans_le hm) (hb.trans_le hm)).trans_eq (by norm_num)
    rw [mod_eq_of_lt hab, ZMod.natCast_mod, cast_mul]
    exact ⟨mod_lt _ (by omega), rfl⟩
  fun_induction powLoop m r b e with
  | case1 => exact ⟨hr, by simp⟩
  | case2 r b e he ih =>
    have hbb := hp hb hb
    have hr' : (if e &&& 1 = 1 then r * b % 2 ^ 64 % m else r) < m ∧
        ((if e &&& 1 = 1 then r * b % 2 ^ 64 % m else r : ℕ) : ZMod m) = r * b ^ (e % 2) := by
      rw [and_one_is_mod]
      rcases mod_two_eq_zero_or_one e with ho | ho
      · simp [ho, hr]
      · simpa [ho] using hp hr hb
    obtain ⟨hlt, heq⟩ := ih hr'.1 hbb.1
    refine ⟨hlt, heq.trans ?_⟩
    rw [dite_eq_ite, hr'.2, hbb.2, ← pow_two, ← pow_mul, mul_assoc, ← pow_add, shiftRight_one, mod_add_div]

theorem rsaModPow_spec {b e : ℕ} (hm : m ≤ 2 ^ 32) (h1 : 1 < m) :
    rsaModPow b e m < m ∧ (rsaModPow b e m : ZMod m) = b ^ e := by
  obtain ⟨hlt, heq⟩ := powLoop_spec (e := e) hm h1 (mod_lt b (by omega))
  exact ⟨hlt, by rw [rsaModPow, heq]; simp⟩

/-- Fermat, also for a message that the prime divides. -/
theorem pow_modEq_self {p x k : ℕ} (hp : p.Prime) (h2 : 2 < p) (h : k ≡ 1 [MOD p - 1]) : x ^ k ≡ x [MOD p] := by
  have := Fact.mk hp
  refine (ZMod.natCast_eq_natCast_iff _ _ _).mp ?_
  rw [cast_pow]
  by_cases hx : (x : ZMod p) = 0
  · have hk : k ≠ 0 := by
      rintro rfl
      exact absurd ((modEq_iff_dvd' (by omega)).mp h) fun hd => by have := le_of_dvd one_pos hd; omega
    rw [hx, zero_pow hk]
  · exact (pow_eq_pow_of_modEq h (ZMod.pow_card_sub_one_eq_one hx)).trans (pow_one _)

/-- For a key pair of at most 32 bits, whatever the random numbers were: what is encrypted with the one key is decrypted with the other. -/
theorem rsaDecrypt_rsaEncrypt (bitSize rounds : ℕ) (random : List ℕ) (key : KeyPair) (hb : bitSize ≤ 32)
    (h : rsaGenerateKeyPair bitSize random rounds = some key) (message : ℕ) (hx : message < key.modulus) :
    rsaDecrypt (rsaEncrypt message key.publicKey key.modulus) key.privateKey key.modulus = message := by
  simp only [rsaGenerateKeyPair, Option.bind_eq_bind, Option.bind_eq_some_iff, Prod.exists, Option.pure_def] at h
  obtain ⟨p, ns, hp, q, _, hq, e, -, d, hd, ⟨⟩⟩ := h
  have hl : 1 <<< (bitSize / 2) ≤ 2 ^ 16 := by
    rw [one_shiftLeft]
    exact Nat.pow_le_pow_right two_pos (by omega)
  have hpos : 0 < 1 <<< (bitSize / 2) := by
    rw [one_shiftLeft]
    exact Nat.two_pow_pos _
  obtain ⟨hp, hp2, hpl, -⟩ := rsaGeneratePrime_spec hpos hp
  obtain ⟨hq, hq2, hql, hne⟩ := rsaGeneratePrime_spec hpos hq
  have hn : p * q ≤ 2 ^ 32 := (Nat.mul_le_mul (hpl.trans hl) (hql.trans hl)).trans_eq (by norm_num)
  have h1 : 1 < p * q := by nlinarith
  have hphi : (p - 1) * (q - 1) ≤ p * q := Nat.mul_le_mul (sub_le ..) (sub_le ..)
  have hed := rsaModInverse_spec (mul_pos (by omega) (by omega)) (by omega) hd
  have hself : message ^ (e * d) ≡ message [MOD p * q] :=
    (modEq_and_modEq_iff_modEq_mul ((coprime_primes hp hq).mpr hne.symm)).mp
      ⟨pow_modEq_self hp hp2 (hed.of_mul_right _), pow_modEq_self hq hq2 (hed.of_mul_left _)⟩
  obtain ⟨hlt, hdec⟩ := rsaModPow_spec (b := rsaModPow message e (p * q)) (e := d) hn h1
  refine ModEq.eq_of_lt_of_lt (.trans ((ZMod.natCast_eq_natCast_iff _ _ _).mp ?_) hself) hlt hx
  rw [rsaDecrypt, rsaEncrypt, hdec, (rsaModPow_spec hn h1).2, ← pow_mul, cast_pow]

/-- The primes 11 and 13: the second 10 gives 11 again, and the 8 gives 9. -/
theorem rsaDecrypt_rsaEncrypt_eight :
    rsaGenerateKeyPair 8 [10, 10, 8, 12] 0 = some ⟨65537, 113, 143⟩ ∧
      rsaDecrypt (rsaEncrypt 66 65537 143) 113 143 = 66 :=
  have h : rsaGenerateKeyPair 8 [10, 10, 8, 12] 0 = some ⟨65537, 113, 143⟩ := by decide +kernel
  ⟨h, rsaDecrypt_rsaEncrypt 8 0 [10, 10, 8, 12] ⟨65537, 113, 143⟩ (by decide) h 66 (by decide)⟩

end Libft.Encryption
