/-
# Scalars modulo the ed25519 group order: `curve25519::CSC25519`

`src/crypto/curve25519/sc25519.cpp`.  A scalar is `uint64_t value[4]`, a number below `2^256`
read little-endian (`limbs`).  The helpers of `base25519.h` that the scalar code calls
(`Add32`, `Sub32`, `Multiply32_32`, `Multiply16_8`, `Copy32`) add, subtract and multiply such
numbers, modulo `2^256` where they drop the carry, and the model writes them as that
arithmetic; the reductions `Reduce()`, `Reduce(carry)` and `BarrettReduce` and the operators
are followed step by step.  The limb-wise partial products in `BarrettReduce` are the number
`q3 * prime % 2^254` that they sum.

`Represents v z` says that `v` is a reduced scalar standing for `z : ZMod prime`.  Each
operator takes representatives to a representative of the field operation
(`add_represents`, `mul_represents`, ...): this is the simulation of the field by the
scalar code that its callers use.  `prime_prime` certifies the order prime.
-/
import MetabaseNet.Lib.ModArith
import Mathlib.Tactic.NormNum.Prime

namespace MetabaseNet.CSC25519

/-! ## Constants -/

/-- Four little-endian 64-bit limbs read as one number, as `uint64_t value[4]`. -/
def limbs (v0 v1 v2 v3 : ℕ) : ℕ := v0 + 2 ^ 64 * v1 + 2 ^ 128 * v2 + 2 ^ 192 * v3

/-- `CSC25519::prime`, `2^252 + 27742317777372353535851937790883648493`. -/
def prime : ℕ := limbs 0x5812631a5cf5d3ed 0x14def9dea2f79cd6 0 0x1000000000000000

/-- `reminder` of `Reduce(carry)`: `2^252 % prime = -reminder`. -/
def reminder : ℕ := limbs 0x5812631a5cf5d3ed 0x14def9dea2f79cd6 0 0

/-- `reminders` of `Reduce(carry)`: `prime - t * reminder` for `t` in `[1, 15]`. -/
def reminders : List ℕ :=
  [limbs 0 0 0 0,
    limbs 0 0 0 0x1000000000000000,
    limbs 0xa7ed9ce5a30a2c13 0xeb2106215d086329 0xffffffffffffffff 0x0fffffffffffffff,
    limbs 0x4fdb39cb46145826 0xd6420c42ba10c653 0xffffffffffffffff 0x0fffffffffffffff,
    limbs 0xf7c8d6b0e91e8439 0xc16312641719297c 0xffffffffffffffff 0x0fffffffffffffff,
    limbs 0x9fb673968c28b04c 0xac84188574218ca6 0xffffffffffffffff 0x0fffffffffffffff,
    limbs 0x47a4107c2f32dc5f 0x97a51ea6d129efd0 0xffffffffffffffff 0x0fffffffffffffff,
    limbs 0xef91ad61d23d0872 0x82c624c82e3252f9 0xffffffffffffffff 0x0fffffffffffffff,
    limbs 0x977f4a4775473485 0x6de72ae98b3ab623 0xffffffffffffffff 0x0fffffffffffffff,
    limbs 0x3f6ce72d18516098 0x5908310ae843194d 0xffffffffffffffff 0x0fffffffffffffff,
    limbs 0xe75a8412bb5b8cab 0x4429372c454b7c76 0xffffffffffffffff 0x0fffffffffffffff,
    limbs 0x8f4820f85e65b8be 0x2f4a3d4da253dfa0 0xffffffffffffffff 0x0fffffffffffffff,
    limbs 0x3735bdde016fe4d1 0x1a6b436eff5c42ca 0xffffffffffffffff 0x0fffffffffffffff,
    limbs 0xdf235ac3a47a10e4 0x058c49905c64a5f3 0xffffffffffffffff 0x0fffffffffffffff,
    limbs 0x8710f7a947843cf7 0xf0ad4fb1b96d091d 0xfffffffffffffffe 0x0fffffffffffffff,
    limbs 0x2efe948eea8e690a 0xdbce55d316756c47 0xfffffffffffffffe 0x0fffffffffffffff]

/-- `mu` of `BarrettReduce`: `2^506 / prime`. -/
def mu : ℕ := limbs 0x9fb673968c28b04c 0xac84188574218ca6 0xffffffffffffffff 0x3fffffffffffffff

theorem prime_val :
    prime = 7237005577332262213973186563042994240857116359379907606001950938285454250989 := by
  decide

theorem reminder_val : reminder = 27742317777372353535851937790883648493 := by decide

theorem prime_eq_add : prime = 2 ^ 252 + reminder := by decide

theorem mu_eq : mu = 2 ^ 252 * 2 ^ 254 / prime := by decide

theorem reminders_getD : ∀ t < 16, 1 ≤ t → reminders.getD t 0 = prime - t * reminder := by
  decide

theorem reminders_getD_val {t : ℕ} (h16 : t < 16) (h1 : 1 ≤ t) :
    reminders.getD t 0 =
      7237005577332262213973186563042994240857116359379907606001950938285454250989 -
        t * 27742317777372353535851937790883648493 := by
  rw [reminders_getD t h16 h1, prime_val, reminder_val]

/-! ## The operations -/

/-- `Reduce()`: one conditional subtraction of `prime`. -/
def reduce (v : ℕ) : ℕ := if v ≥ prime then v - prime else v

/-- The `t ≠ 1` branch of `Reduce(0)`: the top nibble `t = ((uint8_t*)value)[31] >> 4` is
cleared and `reminders[t]` added. -/
def foldNibble (v : ℕ) : ℕ := (v % 2 ^ 252 + reminders.getD (v / 2 ^ 252) 0) % 2 ^ 256

/-- The `carry ≠ 0` branch of `Reduce(carry)`: `c = (carry << 4) + (value[3] >> 60)`, the
product `reminder * c` subtracted from `prime`, and the low 252 bits added. -/
def foldCarry (carry v : ℕ) : ℕ :=
  ((prime + 2 ^ 256 - reminder * (carry * 2 ^ 4 + v / 2 ^ 252)) % 2 ^ 256 + v % 2 ^ 252) % 2 ^ 256

/-- `Reduce(carry)`, for the value `v` of the limbs and the bits above them in `carry`.  The
comparison and subtraction after `foldNibble` are those of `Reduce()`. -/
def reduceCarry (carry v : ℕ) : ℕ :=
  if carry = 0 then
    if v ≥ prime then
      if v / 2 ^ 252 = 1 then v - prime else reduce (foldNibble v)
    else v
  else reduce (foldCarry carry v)

/-- `q3` of `BarrettReduce`: `⌊⌊m / 2^252⌋ · mu / 2^254⌋`, each on 256-bit limbs. -/
def barrettQuotient (m : ℕ) : ℕ := m / 2 ^ 252 % 2 ^ 256 * mu / 2 ^ 254 % 2 ^ 256

/-- `Sub32(value, r1, r2)` of `BarrettReduce`, after setting bit 254 of `r1` when `r1 < r2`. -/
def barrettRemainder (r1 r2 : ℕ) : ℕ :=
  ((if r1 < r2 then r1 + 2 ^ 254 else r1) + 2 ^ 256 - r2) % 2 ^ 256

/-- `BarrettReduce(m)` for a product `m` of two scalars: `r1 = m % 2^254`,
`r2 = q3 * prime % 2^254`, then `Reduce(0)` of their difference. -/
def barrettReduce (m : ℕ) : ℕ :=
  reduceCarry 0 (barrettRemainder (m % 2 ^ 254) (barrettQuotient m * prime % 2 ^ 254))

/-- `operator+=`: `Add32`, then `Reduce()`. -/
def add (a b : ℕ) : ℕ := reduce ((a + b) % 2 ^ 256)

/-- `operator-=`: `Sub32`, and `prime` added back on a borrow. -/
def sub (a b : ℕ) : ℕ := if a < b then (a + 2 ^ 256 - b + prime) % 2 ^ 256 else a - b

/-- `operator*=(const CSC25519&)`: `Multiply32_32`, then `BarrettReduce`. -/
def mul (a b : ℕ) : ℕ := barrettReduce (a * b)

/-- `operator*=(const uint32_t&)`: the product with a 32-bit number, the bits above 256 being
the carry of `Reduce(carry)`. -/
def mulU32 (a n : ℕ) : ℕ := reduceCarry (a * n / 2 ^ 256) (a * n % 2 ^ 256)

/-- `Negative()`: `Sub32(value, prime, value)`, with no reduction. -/
def negative (v : ℕ) : ℕ := (prime + 2 ^ 256 - v) % 2 ^ 256

/-- `CSC25519(const uint8_t* md32)`: `Copy32`, then `Reduce(0)`. -/
def ofBytes (v : ℕ) : ℕ := reduceCarry 0 v

/-- `operator-()`: `CSC25519() -= *this`. -/
def neg (v : ℕ) : ℕ := sub 0 v

/-- `CSC25519::Reduce64(m)`, for the 64 bytes `m` read little-endian.  When the top byte has a
bit above its two lowest (`m[63] & 0xFC`), the high 32 bytes are unpacked, which reduces them
by `Reduce(0)`, and packed back above the low 32 bytes before `BarrettReduce`. -/
def reduce64 (m : ℕ) : ℕ :=
  if m / 2 ^ 504 % 256 &&& 0xFC ≠ 0 then
    barrettReduce (m % 2 ^ 256 + 2 ^ 256 * ofBytes (m / 2 ^ 256))
  else barrettReduce m

/-! ## Each operation simulates the field -/

theorem prime_lt : prime < 2 ^ 253 := by rw [prime_val]; omega

theorem prime_gt : 2 ^ 252 < prime := by rw [prime_val]; omega

/-- `v` is a reduced scalar standing for `z`. -/
def Represents (v : ℕ) (z : ZMod prime) : Prop := v < prime ∧ (v : ZMod prime) = z

theorem represents_natCast {v : ℕ} (hv : v < prime) : Represents v v := ⟨hv, rfl⟩

theorem Represents.congr {v : ℕ} {z z' : ZMod prime} (h : Represents v z) (hz : z = z') :
    Represents v z' := hz ▸ h

theorem Represents.val_eq {v : ℕ} {z : ZMod prime} (h : Represents v z) : z.val = v := by
  rw [← h.2, ZMod.val_natCast, Nat.mod_eq_of_lt h.1]

theorem Represents.pos {v : ℕ} {z : ZMod prime} (h : Represents v z) (hz : z ≠ 0) : 0 < v := by
  rcases Nat.eq_zero_or_pos v with rfl | hv
  · exact absurd (h.2.symm.trans Nat.cast_zero) hz
  · exact hv

/-- Adding multiples of `prime` does not change the residue. -/
theorem cast_eq_of_add_mul {r v k j : ℕ} (h : r + k * prime = v + j * prime) :
    (r : ZMod prime) = v := by
  have h' := congrArg (fun n : ℕ => (n : ZMod prime)) h
  simpa only [Nat.cast_add, Nat.cast_mul, ZMod.natCast_self, mul_zero, add_zero] using h'

theorem reduce_represents {v : ℕ} (hv : v < 2 * prime) : Represents (reduce v) v := by
  unfold reduce
  split_ifs with hge
  · refine ⟨by omega, ?_⟩
    rw [Nat.cast_sub hge, ZMod.natCast_self, sub_zero]
  · exact represents_natCast (by omega)

/-- Folding the top nibble `t` of `v` back as `reminders[t] = prime - t * reminder` leaves a
number below `2 prime` with the residue of `v`. -/
theorem foldNibble_spec {v : ℕ} (hv : v < 2 ^ 256) (h1 : 1 ≤ v / 2 ^ 252) :
    (foldNibble v : ZMod prime) = v ∧ foldNibble v < 2 * prime := by
  unfold foldNibble
  obtain ⟨t, ht⟩ : ∃ t, t = v / 2 ^ 252 := ⟨_, rfl⟩
  rw [← ht] at h1 ⊢
  have h16 : t < 16 := by omega
  have hsum : v % 2 ^ 252 + reminders.getD t 0 < 2 ^ 256 := by
    rw [reminders_getD_val h16 h1]
    omega
  rw [Nat.mod_eq_of_lt hsum]
  -- `t 2^252 = t prime - t reminder`
  refine ⟨cast_eq_of_add_mul (k := t) (j := 1) ?_, ?_⟩
  · rw [reminders_getD_val h16 h1, prime_val]
    omega
  · rw [reminders_getD_val h16 h1, prime_val]
    omega

/-- `Reduce(0)` reduces every 256-bit value. -/
theorem reduceCarry_zero_represents {v : ℕ} (hv : v < 2 ^ 256) :
    Represents (reduceCarry 0 v) v := by
  have hp := prime_lt
  have hp' := prime_gt
  rw [reduceCarry, if_pos rfl]
  split_ifs with hge ht
  · -- the top nibble is one: a single subtraction
    refine ⟨by omega, ?_⟩
    rw [Nat.cast_sub hge, ZMod.natCast_self, sub_zero]
  · -- otherwise the nibble is folded back, then `Reduce()`
    obtain ⟨hcast, hlt⟩ := foldNibble_spec hv (by omega)
    exact (reduce_represents hlt).congr hcast
  · exact represents_natCast (by omega)

/-- Folding the bits of a product from 252 up back as `prime - c * reminder` leaves a number
below `2 prime` with the residue of the product. -/
theorem foldCarry_spec {N : ℕ} (hN : N < prime * 2 ^ 32) :
    (foldCarry (N / 2 ^ 256) (N % 2 ^ 256) : ZMod prime) = N ∧
      foldCarry (N / 2 ^ 256) (N % 2 ^ 256) < 2 * prime := by
  have hp := prime_val
  have hr := reminder_val
  rw [hp] at hN
  unfold foldCarry
  have hc : N / 2 ^ 256 * 2 ^ 4 + N % 2 ^ 256 / 2 ^ 252 = N / 2 ^ 252 := by omega
  have hmod : N % 2 ^ 256 % 2 ^ 252 = N % 2 ^ 252 := by omega
  obtain ⟨c, hc'⟩ : ∃ c, c = N / 2 ^ 252 := ⟨_, rfl⟩
  obtain ⟨R, hR⟩ : ∃ R, R = reminder * c := ⟨_, rfl⟩
  have hRle : R ≤ prime := by rw [hR, hr, hp]; omega
  -- `c prime = c 2^252 + c reminder`, as `prime = 2^252 + reminder`
  have hcp : c * prime = c * 2 ^ 252 + R := by rw [hR, prime_eq_add]; ring
  rw [hc, hmod, ← hc', ← hR, show prime + 2 ^ 256 - R = prime - R + 2 ^ 256 by omega,
    Nat.add_mod_right, Nat.mod_eq_of_lt (by omega : prime - R < 2 ^ 256),
    Nat.mod_eq_of_lt (by omega : prime - R + N % 2 ^ 252 < 2 ^ 256)]
  exact ⟨cast_eq_of_add_mul (k := c) (j := 1) (by omega), by omega⟩

/-- `BarrettReduce` on its whole domain `m < 2^506` (`mu` is `2^506 / prime`): Barrett's
estimate leaves less than `2 prime + 2^252 < 2^254` to subtract, which the two 254-bit
remainders recover exactly. -/
theorem barrettReduce_represents {m : ℕ} (hm : m < 2 ^ 506) :
    Represents (barrettReduce m) m := by
  have hp := prime_lt
  have hp' := prime_gt
  have hq1 : m / 2 ^ 252 < 2 ^ 254 := by omega
  obtain ⟨hle, hlt⟩ := ModArith.barrett_quotient (p := prime) (B := 2 ^ 252) (W := 2 ^ 254)
    (by omega) (by norm_num) (by norm_num) hq1
  rw [← mu_eq] at hle hlt
  obtain ⟨q, hq⟩ : ∃ q, q = m / 2 ^ 252 * mu / 2 ^ 254 := ⟨_, rfl⟩
  rw [← hq] at hle hlt
  have hqp : q < 2 ^ 254 := by
    by_contra hq
    have h506 : 2 ^ 254 * 2 ^ 252 ≤ q * prime := Nat.mul_le_mul (by omega) hp'.le
    omega
  -- the estimate fits the limbs, so the truncations of the source change nothing
  have hq3 : barrettQuotient m = q := by
    rw [barrettQuotient, Nat.mod_eq_of_lt (by omega : m / 2 ^ 252 < 2 ^ 256), ← hq]
    exact Nat.mod_eq_of_lt (by omega)
  obtain ⟨X, hX⟩ : ∃ X, X = q * prime := ⟨_, rfl⟩
  rw [← hX] at hle hlt
  have hd : barrettRemainder (m % 2 ^ 254) (X % 2 ^ 254) = m - X := by
    have hpv := prime_val
    unfold barrettRemainder
    split_ifs with hr
    · rw [show m % 2 ^ 254 + 2 ^ 254 + 2 ^ 256 - X % 2 ^ 254 =
          m % 2 ^ 254 + 2 ^ 254 - X % 2 ^ 254 + 2 ^ 256 by omega, Nat.add_mod_right,
        Nat.mod_eq_of_lt (by omega)]
      omega
    · rw [show m % 2 ^ 254 + 2 ^ 256 - X % 2 ^ 254 = m % 2 ^ 254 - X % 2 ^ 254 + 2 ^ 256 by omega,
        Nat.add_mod_right, Nat.mod_eq_of_lt (by omega)]
      omega
  rw [barrettReduce, hq3, ← hX, hd]
  refine (reduceCarry_zero_represents (by omega)).congr ?_
  rw [Nat.cast_sub hle, hX, Nat.cast_mul, ZMod.natCast_self, mul_zero, sub_zero]

theorem add_represents {a b : ℕ} {za zb : ZMod prime} (ha : Represents a za)
    (hb : Represents b zb) : Represents (add a b) (za + zb) := by
  have hp := prime_lt
  have ha' := ha.1
  have hb' := hb.1
  have hab : (a + b) % 2 ^ 256 = a + b := Nat.mod_eq_of_lt (by omega)
  rw [add, hab]
  refine (reduce_represents (by omega)).congr ?_
  rw [Nat.cast_add, ha.2, hb.2]

theorem sub_represents {a b : ℕ} {za zb : ZMod prime} (ha : Represents a za)
    (hb : Represents b zb) : Represents (sub a b) (za - zb) := by
  have hp := prime_lt
  have ha' := ha.1
  have hb' := hb.1
  rw [← ha.2, ← hb.2]
  unfold sub
  split_ifs with hab
  · -- a borrow: `prime` is added back
    have hr : (a + 2 ^ 256 - b + prime) % 2 ^ 256 = a + prime - b := by omega
    rw [hr]
    refine ⟨by omega, ?_⟩
    rw [Nat.cast_sub (by omega), Nat.cast_add, ZMod.natCast_self, add_zero]
  · exact ⟨by omega, Nat.cast_sub (by omega)⟩

theorem mul_represents {a b : ℕ} {za zb : ZMod prime} (ha : Represents a za)
    (hb : Represents b zb) : Represents (mul a b) (za * zb) := by
  have hab : a * b < 2 ^ 506 :=
    calc a * b < prime * prime := Nat.mul_lt_mul'' ha.1 hb.1
      _ < 2 ^ 253 * 2 ^ 253 := Nat.mul_lt_mul'' prime_lt prime_lt
      _ = 2 ^ 506 := by rw [← pow_add]
  refine (barrettReduce_represents hab).congr ?_
  rw [Nat.cast_mul, ha.2, hb.2]

/-- The product with a 32-bit number: either it fits the limbs, or its bits from 252 up
are folded back (`foldCarry_spec`). -/
theorem mulU32_represents {a n : ℕ} {za : ZMod prime} (ha : Represents a za) (hn : n < 2 ^ 32) :
    Represents (mulU32 a n) (za * n) := by
  have hp := prime_lt
  obtain ⟨N, hN⟩ : ∃ N, N = a * n := ⟨_, rfl⟩
  have hNlt : N < prime * 2 ^ 32 := hN ▸ Nat.mul_lt_mul'' ha.1 hn
  have hcast : (N : ZMod prime) = za * n := by rw [hN, Nat.cast_mul, ha.2]
  rw [mulU32, ← hN]
  by_cases hc : N / 2 ^ 256 = 0
  · have hN256 : N < 2 ^ 256 := by
      rcases Nat.div_eq_zero_iff.mp hc with h | h
      · exact absurd h (by norm_num)
      · exact h
    rw [hc, Nat.mod_eq_of_lt hN256]
    exact (reduceCarry_zero_represents hN256).congr hcast
  · rw [reduceCarry, if_neg hc]
    obtain ⟨hfold, hlt⟩ := foldCarry_spec hNlt
    exact (reduce_represents hlt).congr (hfold.trans hcast)

theorem negative_represents {v : ℕ} {z : ZMod prime} (h : Represents v z) (hz : z ≠ 0) :
    Represents (negative v) (-z) := by
  have hp := prime_lt
  have hv := h.1
  have hpos := h.pos hz
  have hr : negative v = prime - v := by
    rw [negative]
    omega
  rw [hr, ← h.2]
  refine ⟨by omega, ?_⟩
  rw [Nat.cast_sub (by omega), ZMod.natCast_self, zero_sub]

theorem ofBytes_represents {v : ℕ} (hv : v < 2 ^ 256) : Represents (ofBytes v) v :=
  reduceCarry_zero_represents hv

/-- `operator-()` is canonical also at zero, where `Negative()` is not. -/
theorem neg_represents {v : ℕ} {z : ZMod prime} (h : Represents v z) : Represents (neg v) (-z) :=
  (sub_represents ((represents_natCast (by rw [prime_val]; omega)).congr Nat.cast_zero) h).congr
    (zero_sub z)

/-- Below `2^506` the top byte is at most `3`, and `Reduce64` is `BarrettReduce`. -/
theorem reduce64_represents_of_lt {m : ℕ} (hm : m < 2 ^ 506) : Represents (reduce64 m) m := by
  have htop : m / 2 ^ 504 % 256 < 4 := by omega
  have hmask : ∀ x < 4, x &&& 0xFC = 0 := by decide
  rw [reduce64, if_neg (not_not.mpr (hmask _ htop))]
  exact barrettReduce_represents hm

/-- A 64-byte value with the top byte `3`, the largest top byte `Reduce64` reduces right. -/
theorem reduce64_represents_of_lt_topThree :
    3 * 2 ^ 504 < 2 ^ 506 ∧ Represents (reduce64 (3 * 2 ^ 504)) (3 * 2 ^ 504 : ℕ) :=
  have hm : 3 * 2 ^ 504 < 2 ^ 506 := by
    have h : 2 ^ 506 = 2 ^ 2 * 2 ^ 504 := by rw [← pow_add]
    have hpos : 0 < 2 ^ 504 := Nat.two_pow_pos 504
    omega
  ⟨hm, reduce64_represents_of_lt hm⟩

/-- **Two inputs the scalar code gets wrong.**  `Reduce64` of `2^508`, the 64 bytes that are zero
but for a top byte `0x10`, is `0`, while `2^508` is not a multiple of the group order: the high
half `2^252` is below the order and comes back unchanged, so `BarrettReduce` gets `2^508`,
beyond its domain, and its quotient estimate `m / 2^252 = 2^256` wraps to `0`.  And
`Negative()` of the canonical zero is the order itself, which is not canonical. -/
theorem reduce64_negative_noncanonical :
    reduce64 (2 ^ 508) = 0 ∧ 2 ^ 508 % prime ≠ 0 ∧ negative 0 = prime ∧ ¬ negative 0 < prime := by
  decide +kernel

/-! ## The order is prime

Lucas certificates for `prime` and for the large primes of the factorizations below it, all
checked by one evaluation; the primes under `10^7` are left to `norm_num`. -/

/-- Certificates `(p, a, fs)`: `a` is a witness of Lucas's test for `p`, and `fs` lists the
primes of `p - 1` with multiplicity. -/
def lucasCertificates : List (ℕ × ℕ × List ℕ) :=
  [(14741173, 2, [2, 2, 3, 3, 409477]),
   (58964693, 2, [2, 2, 14741173]),
   (3044861653679985063343, 5, [2, 3, 11, 30703, 82163, 132667, 137849]),
   (198211423230930754013084525763697, 5,
     [2, 2, 2, 2, 3, 23, 58964693, 3044861653679985063343]),
   (292386187, 2, [2, 3, 3, 3, 3, 307, 5879]),
   (213441916511, 13, [2, 5, 73, 292386187]),
   (1257559732178653, 2, [2, 2, 3, 7, 23, 531581, 1224481]),
   (4434155615661930479, 17, [2, 41, 43, 1257559732178653]),
   (172054593956031949258510691, 2, [2, 5, 1361, 2851, 4434155615661930479]),
   (19757330305831588566944191468367130476339, 2,
     [2, 269, 213441916511, 172054593956031949258510691]),
   (276602624281642239937218680557139826668747, 2,
     [2, 7, 19757330305831588566944191468367130476339]),
   (7237005577332262213973186563042994240857116359379907606001950938285454250989, 2,
     [2, 2, 3, 11, 198211423230930754013084525763697,
       276602624281642239937218680557139826668747])]

theorem lucasCertificates_check :
    lucasCertificates.all (fun c => ModArith.lucasCheck c.1 c.2.1 c.2.2) = true := by
  decide +kernel

/-- A number with a certificate in the table is prime once the primes of its `p - 1` are. -/
theorem prime_of_certificate (p a : ℕ) (fs : List ℕ) (hc : (p, a, fs) ∈ lucasCertificates)
    (hfs : fs.Forall Nat.Prime) : p.Prime :=
  ModArith.prime_of_lucasCheck (List.all_eq_true.mp lucasCertificates_check _ hc) hfs

theorem nat_prime_14741173 : Nat.Prime 14741173 :=
  prime_of_certificate _ 2 [2, 2, 3, 3, 409477] (by simp [lucasCertificates])
    (by simp only [List.Forall]; exact ⟨Nat.prime_two, Nat.prime_two, Nat.prime_three, Nat.prime_three, by norm_num⟩)

theorem nat_prime_58964693 : Nat.Prime 58964693 :=
  prime_of_certificate _ 2 [2, 2, 14741173] (by simp [lucasCertificates])
    (by simp only [List.Forall]; exact ⟨Nat.prime_two, Nat.prime_two, nat_prime_14741173⟩)

theorem nat_prime_3044861653679985063343 : Nat.Prime 3044861653679985063343 :=
  prime_of_certificate _ 5 [2, 3, 11, 30703, 82163, 132667, 137849] (by simp [lucasCertificates])
    (by simp only [List.Forall]; exact ⟨Nat.prime_two, Nat.prime_three, by norm_num, by norm_num, by norm_num, by norm_num, by norm_num⟩)

theorem nat_prime_198211423230930754013084525763697 : Nat.Prime 198211423230930754013084525763697 :=
  prime_of_certificate _ 5 [2, 2, 2, 2, 3, 23, 58964693, 3044861653679985063343]
    (by simp [lucasCertificates])
    (by simp only [List.Forall]; exact ⟨Nat.prime_two, Nat.prime_two, Nat.prime_two, Nat.prime_two, Nat.prime_three, by norm_num, nat_prime_58964693, nat_prime_3044861653679985063343⟩)

theorem nat_prime_292386187 : Nat.Prime 292386187 :=
  prime_of_certificate _ 2 [2, 3, 3, 3, 3, 307, 5879] (by simp [lucasCertificates])
    (by simp only [List.Forall]; exact ⟨Nat.prime_two, Nat.prime_three, Nat.prime_three, Nat.prime_three, Nat.prime_three, by norm_num, by norm_num⟩)

theorem nat_prime_213441916511 : Nat.Prime 213441916511 :=
  prime_of_certificate _ 13 [2, 5, 73, 292386187] (by simp [lucasCertificates])
    (by simp only [List.Forall]; exact ⟨Nat.prime_two, Nat.prime_five, by norm_num, nat_prime_292386187⟩)

theorem nat_prime_1257559732178653 : Nat.Prime 1257559732178653 :=
  prime_of_certificate _ 2 [2, 2, 3, 7, 23, 531581, 1224481] (by simp [lucasCertificates])
    (by simp only [List.Forall]; exact ⟨Nat.prime_two, Nat.prime_two, Nat.prime_three, by norm_num, by norm_num, by norm_num, by norm_num⟩)

theorem nat_prime_4434155615661930479 : Nat.Prime 4434155615661930479 :=
  prime_of_certificate _ 17 [2, 41, 43, 1257559732178653] (by simp [lucasCertificates])
    (by simp only [List.Forall]; exact ⟨Nat.prime_two, by norm_num, by norm_num, nat_prime_1257559732178653⟩)

theorem nat_prime_172054593956031949258510691 : Nat.Prime 172054593956031949258510691 :=
  prime_of_certificate _ 2 [2, 5, 1361, 2851, 4434155615661930479] (by simp [lucasCertificates])
    (by simp only [List.Forall]; exact ⟨Nat.prime_two, Nat.prime_five, by norm_num, by norm_num, nat_prime_4434155615661930479⟩)

theorem nat_prime_19757330305831588566944191468367130476339 :
    Nat.Prime 19757330305831588566944191468367130476339 :=
  prime_of_certificate _ 2 [2, 269, 213441916511, 172054593956031949258510691]
    (by simp [lucasCertificates])
    (by simp only [List.Forall]; exact ⟨Nat.prime_two, by norm_num, nat_prime_213441916511, nat_prime_172054593956031949258510691⟩)

theorem nat_prime_276602624281642239937218680557139826668747 :
    Nat.Prime 276602624281642239937218680557139826668747 :=
  prime_of_certificate _ 2 [2, 7, 19757330305831588566944191468367130476339]
    (by simp [lucasCertificates])
    (by simp only [List.Forall]; exact ⟨Nat.prime_two, by norm_num, nat_prime_19757330305831588566944191468367130476339⟩)

theorem prime_prime : Nat.Prime prime := by
  rw [prime_val]
  exact prime_of_certificate _ 2
    [2, 2, 3, 11, 198211423230930754013084525763697, 276602624281642239937218680557139826668747]
    (by simp [lucasCertificates])
    (by simp only [List.Forall]; exact ⟨Nat.prime_two, Nat.prime_two, Nat.prime_three, by norm_num, nat_prime_198211423230930754013084525763697, nat_prime_276602624281642239937218680557139826668747⟩)

instance : Fact (Nat.Prime prime) := ⟨prime_prime⟩

end MetabaseNet.CSC25519
