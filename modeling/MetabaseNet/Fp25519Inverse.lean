/-
# Inversion in the field of curve25519: `CFP25519::Inverse`

`src/crypto/curve25519/fp25519.cpp`.  `Inverse()` is the binary extended gcd: from
`u = prime`, `v = a`, `B = 0`, `D = 1`, it halves `u` (and `v`) while they are even, halving `B`
(and `D`) modulo `prime` alongside, subtracts the smaller of `u` and `v` from the larger, and
stops when `v` is `1`; then `D` is the inverse.  `B` and `D` are 256-bit two's complement words,
and the helpers of `base25519.h` that work on them are written as the word arithmetic they do
(`signed`, `halfSigned32`, `sub32`, `add32`, `reduceSigned32`, and `compareSigned32` of the
`DEFINED_INT128` build).

The loops are `while` and `do ... while` loops whose exit depends on the data (the halving loop
never ends on a zero), so they take an explicit `fuel` and return `none` when it runs out.
What is proved: the invariant of the outer loop (`LoopInv`: `gcd (u, v) = 1`, `u = B a` and
`v = D a` modulo `prime`, and `B`, `D` reduced), that each pass keeps it and makes `u + v`
smaller while the halving loop keeps the signed accumulator in `[-prime, prime)`, and from
these that `Inverse` ends, with any fuel from `3 prime + 1` on, on the inverse
(`inverse_terminates_correct`).
-/
import MetabaseNet.Fp25519

namespace MetabaseNet.CFP25519

open ModArith (Represents)

/-! ## Words -/

/-- `halfPrime`, `(prime - 1) / 2`. -/
def halfPrime : ℕ :=
  CSC25519.limbs 0xFFFFFFFFFFFFFFF6 0xFFFFFFFFFFFFFFFF 0xFFFFFFFFFFFFFFFF 0x3FFFFFFFFFFFFFFF

theorem halfPrime_val : halfPrime = (prime - 1) / 2 := by decide

/-- A `w`-bit word read as a two's complement number: `(int128_t)` for `w = 128`,
`int(n[0, 31])` for `w = 256`. -/
def signed (w n : ℕ) : ℤ := if n < 2 ^ (w - 1) then n else (n : ℤ) - 2 ^ w

/-- `Add32`: addition modulo `2^256`. -/
def add32 (a b : ℕ) : ℕ := (a + b) % 2 ^ 256

/-- `Sub32` on words: subtraction modulo `2^256`. -/
def sub32 (a b : ℕ) : ℕ := (a + 2 ^ 256 - b) % 2 ^ 256

/-- `HalfSigned32`: the word shifted right by one, bit 255 kept. -/
def halfSigned32 (n : ℕ) : ℕ := n / 2 + n / 2 ^ 255 % 2 * 2 ^ 255

/-- `CompareSigned32` of the `DEFINED_INT128` build: the high 128-bit halves compared as signed
numbers, then the low halves as unsigned ones. -/
def compareSigned32 (lhs rhs : ℕ) : ℤ :=
  if signed 128 (lhs / 2 ^ 128) > signed 128 (rhs / 2 ^ 128) then 1
  else if signed 128 (lhs / 2 ^ 128) < signed 128 (rhs / 2 ^ 128) then -1
  else if lhs % 2 ^ 128 > rhs % 2 ^ 128 then 1
  else if lhs % 2 ^ 128 < rhs % 2 ^ 128 then -1
  else 0

/-- `ReduceSigned32(n, n, prime)`: `prime` added to a negative `n` (bit 255 set), subtracted
from an `n` of at least `prime`, and `n` left as it is otherwise. -/
def reduceSigned32 (n : ℕ) : ℕ :=
  if n / 2 ^ 255 % 2 = 1 then add32 n prime
  else if prime ≤ n then sub32 n prime
  else n

/-! ## `Inverse` -/

/-- The accumulator step of the halving loop: `HalfSigned32`, then `Sub32` of `halfPrime` when
the accumulator was odd, so that an odd `B` becomes `(B - prime) / 2`. -/
def halveAcc (acc : ℕ) : ℕ :=
  if acc % 2 = 0 then halfSigned32 acc else sub32 (halfSigned32 acc) halfPrime

/-- `do { HalfSigned32(x); ... } while (IsEven(x))`, with at most `fuel` passes. -/
def halveLoop : ℕ → ℕ → ℕ → Option (ℕ × ℕ)
  | 0, _, _ => none
  | fuel + 1, x, acc =>
    if halfSigned32 x % 2 = 0 then halveLoop fuel (halfSigned32 x) (halveAcc acc)
    else some (halfSigned32 x, halveAcc acc)

/-- `if (IsEven(x)) { do ... while (IsEven(x)); ReduceSigned32(acc, acc, prime); }` -/
def halveStep (fuel x acc : ℕ) : Option (ℕ × ℕ) :=
  if x % 2 = 0 then (halveLoop fuel x acc).map fun r => (r.1, reduceSigned32 r.2)
  else some (x, acc)

/-- The words of `Inverse`. -/
structure InvState where
  u : ℕ
  v : ℕ
  B : ℕ
  D : ℕ

/-- One pass of the loop of `Inverse`: the halvings of `u` and of `v`, then the subtraction of
the smaller from the larger, with `ReduceSigned32` of the accumulator that changed. -/
def inverseStep (fuel : ℕ) (s : InvState) : Option InvState := do
  let (u, B) ← halveStep fuel s.u s.B
  let (v, D) ← halveStep fuel s.v s.D
  if compareSigned32 u v ≥ 0 then some ⟨sub32 u v, v, reduceSigned32 (sub32 B D), D⟩
  else some ⟨u, sub32 v u, B, reduceSigned32 (sub32 D B)⟩

/-- `while (!IsOne32(v)) { ... }`, with at most `fuel` passes; the halving loops of a pass get
the fuel that is left. -/
def inverseLoop : ℕ → InvState → Option InvState
  | 0, _ => none
  | fuel + 1, s => if s.v = 1 then some s else (inverseStep fuel s).bind (inverseLoop fuel)

/-- `Inverse()`: zero for zero; otherwise the loop from `u = prime`, `v = a`, `B = 0`, `D = 1`,
then `ReduceSigned32(D)` read back by the byte constructor. -/
def inverse (fuel a : ℕ) : Option ℕ :=
  if a = 0 then some 0
  else (inverseLoop fuel ⟨prime, a, 0, 1⟩).map fun s => ofBytes (reduceSigned32 s.D)

/-- `operator/`: `*this * b.Inverse()`. -/
def div (fuel a b : ℕ) : Option ℕ := (inverse fuel b).map (mul a)

/-! ## Word arithmetic

Each helper does on the signed reading of the words what its name says, as long as the result
stays in the range of 256-bit two's complement numbers. -/

theorem signed_256 (n : ℕ) : signed 256 n = if n < 2 ^ 255 then (n : ℤ) else n - 2 ^ 256 := rfl

theorem signed_of_lt {n : ℕ} (hn : n < 2 ^ 255) : signed 256 n = n := by
  rw [signed_256, if_pos hn]

theorem halfSigned32_lt {n : ℕ} (hn : n < 2 ^ 256) : halfSigned32 n < 2 ^ 256 := by
  unfold halfSigned32
  omega

/-- `HalfSigned32` halves the signed number, rounding down. -/
theorem signed_halfSigned32 {n : ℕ} (hn : n < 2 ^ 256) :
    signed 256 (halfSigned32 n) = signed 256 n / 2 := by
  unfold halfSigned32
  rw [signed_256, signed_256]
  split_ifs <;> omega

theorem sub32_lt (a b : ℕ) : sub32 a b < 2 ^ 256 := Nat.mod_lt _ (by norm_num)

/-- `Sub32` subtracts the signed numbers when the difference has a signed reading. -/
theorem signed_sub32 {a b : ℕ} (ha : a < 2 ^ 256) (hb : b < 2 ^ 256)
    (hlo : -2 ^ 255 ≤ signed 256 a - signed 256 b) (hhi : signed 256 a - signed 256 b < 2 ^ 255) :
    signed 256 (sub32 a b) = signed 256 a - signed 256 b := by
  unfold sub32
  rw [signed_256, signed_256, signed_256] at *
  split_ifs at * <;> omega

/-- `ReduceSigned32` of a signed number in `[-prime, prime)` is its reduced representative. -/
theorem reduceSigned32_represents {n : ℕ} (hn : n < 2 ^ 256) (hlo : -(prime : ℤ) ≤ signed 256 n)
    (hhi : signed 256 n < prime) :
    Represents prime (reduceSigned32 n) (signed 256 n : ZMod prime) := by
  have hp := prime_val
  -- the representative, as an integer
  have hval : (reduceSigned32 n : ℤ) = signed 256 n + if signed 256 n < 0 then prime else 0 := by
    unfold reduceSigned32 add32 sub32
    rw [signed_256] at *
    split_ifs at * <;> omega
  refine ⟨by split_ifs at hval <;> omega, ?_⟩
  rw [← Int.cast_natCast, hval]
  split_ifs <;> simp

/-- `IsEven` of a word is the parity of its signed reading. -/
theorem signed_emod_two (n : ℕ) : signed 256 n % 2 = n % 2 := by
  rw [signed_256]
  split_ifs <;> omega

/-- `CompareSigned32` of two non-negative words compares them. -/
theorem compareSigned32_nonneg_iff {a b : ℕ} (ha : a < 2 ^ 255) (hb : b < 2 ^ 255) :
    0 ≤ compareSigned32 a b ↔ b ≤ a := by
  have hha : signed 128 (a / 2 ^ 128) = (a / 2 ^ 128 : ℕ) :=
    if_pos (Nat.div_lt_of_lt_mul (by omega))
  have hhb : signed 128 (b / 2 ^ 128) = (b / 2 ^ 128 : ℕ) :=
    if_pos (Nat.div_lt_of_lt_mul (by omega))
  unfold compareSigned32
  rw [hha, hhb]
  split_ifs <;> omega

theorem halfSigned32_of_lt {n : ℕ} (hn : n < 2 ^ 255) : halfSigned32 n = n / 2 := by
  unfold halfSigned32
  omega

/-- `2` is a unit modulo `prime`, so halving modulo `prime` is well defined. -/
theorem two_ne_zero_mod : (2 : ZMod prime) ≠ 0 := by
  rw [← Nat.cast_two, Ne, ZMod.natCast_eq_zero_iff]
  intro h
  have := Nat.le_of_dvd (by norm_num) h
  rw [prime_val] at this
  omega

/-! ## The halving loop -/

/-- `halveAcc` halves the signed accumulator modulo `prime` and keeps it in `[-prime, prime)`:
twice the result is the accumulator, or the accumulator less `prime` when it was odd. -/
theorem halveAcc_spec {acc : ℕ} (hacc : acc < 2 ^ 256) (hlo : -(prime : ℤ) ≤ signed 256 acc)
    (hhi : signed 256 acc < prime) :
    halveAcc acc < 2 ^ 256 ∧ -(prime : ℤ) ≤ signed 256 (halveAcc acc) ∧
      signed 256 (halveAcc acc) < prime ∧
      (2 * signed 256 (halveAcc acc) = signed 256 acc ∨
        2 * signed 256 (halveAcc acc) = signed 256 acc - prime) := by
  have hhalf := signed_halfSigned32 hacc
  have hpar := signed_emod_two acc
  have hh := halfSigned32_lt hacc
  unfold halveAcc
  split_ifs with heven
  · exact ⟨hh, by omega, by omega, Or.inl (by omega)⟩
  · -- an odd accumulator: `(B - 1) / 2 - halfPrime` is `(B - prime) / 2`, as `prime` is odd
    have hodd : (prime : ℤ) % 2 = 1 := by rw [prime_val]; norm_num
    have hplt : (prime : ℤ) < 2 ^ 255 := by exact_mod_cast prime_lt
    have hhp : (halfPrime : ℤ) = (prime - 1) / 2 := by
      rw [halfPrime_val, prime_val]
      norm_num
    have hhp' : halfPrime < 2 ^ 255 := by
      rw [halfPrime_val, prime_val]
      norm_num
    have hsub : signed 256 (sub32 (halfSigned32 acc) halfPrime) =
        signed 256 (halfSigned32 acc) - halfPrime := by
      rw [← signed_of_lt hhp']
      apply signed_sub32 hh (by omega) <;> rw [signed_of_lt hhp'] <;> omega
    rw [hsub, hhalf, hhp]
    clear hsub hhalf hhp hhp' hh hacc
    generalize signed 256 acc = z at *
    generalize (prime : ℤ) = P at *
    exact ⟨sub32_lt _ _, by omega, by omega, Or.inr (by omega)⟩

/-- The invariant of the halving loop of `x` against the other number `y`, for the input `a`:
`x` is positive, at most `prime` and coprime to `y`, and `x = acc · a` modulo `prime` with the
signed accumulator in `[-prime, prime)`. -/
structure HalveInv (a y x acc : ℕ) : Prop where
  x_pos : 0 < x
  x_le : x ≤ prime
  coprime : Nat.Coprime x y
  acc_lt : acc < 2 ^ 256
  acc_ge : -(prime : ℤ) ≤ signed 256 acc
  acc_lt_prime : signed 256 acc < prime
  x_eq : (x : ZMod prime) = signed 256 acc * a

/-- One pass of the halving loop keeps its invariant. -/
theorem HalveInv.step {a y x acc : ℕ} (h : HalveInv a y x acc) (heven : x % 2 = 0) :
    HalveInv a y (halfSigned32 x) (halveAcc acc) := by
  have hx := h.x_le
  have hx0 := h.x_pos
  have hx2 : x / 2 * 2 = x := Nat.div_mul_cancel (Nat.dvd_of_mod_eq_zero heven)
  rw [halfSigned32_of_lt (lt_of_le_of_lt hx prime_lt)]
  obtain ⟨hlt, hge, hltp, hor⟩ := halveAcc_spec h.acc_lt h.acc_ge h.acc_lt_prime
  -- the halved accumulator doubles back to the old one modulo `prime`
  have hcong : ((signed 256 acc : ℤ) : ZMod prime) =
      2 * ((signed 256 (halveAcc acc) : ℤ) : ZMod prime) := by
    rcases hor with h2 | h2
    · rw [← h2, Int.cast_mul, Int.cast_ofNat]
    · rw [show signed 256 acc = 2 * signed 256 (halveAcc acc) + prime by omega, Int.cast_add,
        Int.cast_mul, Int.cast_ofNat, Int.cast_natCast, ZMod.natCast_self, add_zero]
  refine ⟨by omega, by omega, Nat.Coprime.coprime_dvd_left (Nat.div_dvd_of_dvd
    (Nat.dvd_of_mod_eq_zero heven)) h.coprime, hlt, hge, hltp, ?_⟩
  apply mul_left_cancel₀ two_ne_zero_mod
  have hcast : (2 : ZMod prime) * ((x / 2 : ℕ) : ZMod prime) = x := by
    rw [← Nat.cast_two, ← Nat.cast_mul, Nat.mul_comm, hx2]
  rw [hcast, h.x_eq, hcong, mul_assoc]

/-- **The halving loop.**  From an even `x` with enough fuel, the loop ends on an odd `x'`
smaller than `x`, with its invariant. -/
theorem halveLoop_spec {a y : ℕ} : ∀ (fuel x acc : ℕ), x ≤ fuel → x % 2 = 0 →
    HalveInv a y x acc →
    ∃ x' acc', halveLoop fuel x acc = some (x', acc') ∧ x' % 2 = 1 ∧ x' < x ∧ HalveInv a y x' acc'
  | 0, x, acc, hfuel, _, h => absurd h.x_pos (by omega)
  | fuel + 1, x, acc, hfuel, heven, h => by
    have hstep := h.step heven
    have hhalf : halfSigned32 x = x / 2 := halfSigned32_of_lt (lt_of_le_of_lt h.x_le prime_lt)
    have hx0 := h.x_pos
    rw [halveLoop]
    split_ifs with heven'
    · -- `x / 2` is even again: the loop goes on
      obtain ⟨x', acc', hrun, hodd, hlt, h'⟩ :=
        halveLoop_spec fuel _ _ (by omega) heven' hstep
      exact ⟨x', acc', hrun, hodd, by omega, h'⟩
    · exact ⟨_, _, rfl, by omega, by omega, hstep⟩

/-- The halvings at the top of a pass: an even `x` is halved until it is odd and its
accumulator reduced; an odd one is left as it is. -/
theorem halveStep_spec {a y fuel x acc : ℕ} (hfuel : x ≤ fuel) (hx : 0 < x) (hxle : x ≤ prime)
    (hco : Nat.Coprime x y) (hacc : acc < prime) (heq : (x : ZMod prime) = acc * a) :
    ∃ x' acc', halveStep fuel x acc = some (x', acc') ∧ x' % 2 = 1 ∧ 0 < x' ∧ x' ≤ x ∧
      Nat.Coprime x' y ∧ acc' < prime ∧ (x' : ZMod prime) = acc' * a := by
  have hp := prime_lt
  unfold halveStep
  split_ifs with heven
  · have hsacc : signed 256 acc = acc := signed_of_lt (by omega)
    have hinv : HalveInv a y x acc :=
      ⟨hx, hxle, hco, by omega, by omega, by omega, by rw [hsacc, Int.cast_natCast]; exact heq⟩
    obtain ⟨x', acc', hrun, hodd, hlt, h'⟩ := halveLoop_spec fuel x acc hfuel heven hinv
    have hred := reduceSigned32_represents h'.acc_lt h'.acc_ge h'.acc_lt_prime
    refine ⟨x', reduceSigned32 acc', by rw [hrun]; rfl, hodd, h'.x_pos, by omega, h'.coprime,
      hred.1, ?_⟩
    rw [h'.x_eq, hred.2]
  · exact ⟨x, acc, rfl, by omega, hx, le_refl x, hco, hacc, heq⟩

/-! ## The loop of `Inverse` -/

/-- The invariant of the loop of `Inverse` for the input `a`: `u` and `v` are coprime, at most
`prime`, `v` positive, `B` and `D` reduced, and `u = B a`, `v = D a` modulo `prime`. -/
structure LoopInv (a : ℕ) (s : InvState) : Prop where
  u_le : s.u ≤ prime
  v_pos : 0 < s.v
  v_le : s.v ≤ prime
  B_lt : s.B < prime
  D_lt : s.D < prime
  coprime : Nat.Coprime s.u s.v
  u_eq : (s.u : ZMod prime) = s.B * a
  v_eq : (s.v : ZMod prime) = s.D * a

theorem loopInv_init {a : ℕ} (ha : a < prime) (ha0 : a ≠ 0) : LoopInv a ⟨prime, a, 0, 1⟩ := by
  have hp := prime_val
  refine ⟨le_refl prime, show 0 < a by omega, ha.le, show 0 < prime by omega,
    show 1 < prime by omega, ?_, ?_, ?_⟩
  · -- `prime` is prime and does not divide `a`
    apply (Nat.Prime.coprime_iff_not_dvd prime_prime).mpr
    intro hdvd
    have := Nat.le_of_dvd (show 0 < a by omega) hdvd
    omega
  · show (prime : ZMod prime) = ((0 : ℕ) : ZMod prime) * a
    rw [ZMod.natCast_self, Nat.cast_zero, zero_mul]
  · show (a : ZMod prime) = ((1 : ℕ) : ZMod prime) * a
    rw [Nat.cast_one, one_mul]

theorem sub32_of_le {a b : ℕ} (hab : b ≤ a) (ha : a < 2 ^ 256) : sub32 a b = a - b := by
  unfold sub32
  omega

/-- The subtraction of the accumulators: `B - D`, reduced, represents `B - D`. -/
theorem reduceSigned32_sub32 {B D : ℕ} (hB : B < prime) (hD : D < prime) :
    Represents prime (reduceSigned32 (sub32 B D)) ((B : ZMod prime) - D) := by
  have hp := prime_lt
  have hsub : signed 256 (sub32 B D) = (B : ℤ) - D := by
    rw [signed_sub32 (by omega) (by omega), signed_of_lt (by omega), signed_of_lt (by omega)] <;>
      rw [signed_of_lt (by omega), signed_of_lt (by omega)] <;> omega
  have hred := reduceSigned32_represents (sub32_lt B D) (by omega) (by omega)
  rw [hsub] at hred
  exact hred.congr (by push_cast; rfl)

/-- **One pass of the loop.**  From a state with the invariant and `v ≠ 1`, with fuel enough for
the halvings, the pass ends on a state with the invariant and a smaller `u + v`. -/
theorem inverseStep_spec {a fuel : ℕ} {s : InvState} (h : LoopInv a s) (hv : s.v ≠ 1)
    (hfuel : prime ≤ fuel) :
    ∃ s', inverseStep fuel s = some s' ∧ LoopInv a s' ∧ s'.u + s'.v < s.u + s.v := by
  have hp := prime_lt
  have hule := h.u_le
  have hvle := h.v_le
  -- `u` is not zero: `gcd (0, v) = v`, which is not `1`
  have hu0 : 0 < s.u := by
    rcases Nat.eq_zero_or_pos s.u with h0 | h0
    · have hco := h.coprime
      rw [h0] at hco
      exact absurd (Nat.coprime_zero_left _ |>.mp hco) hv
    · exact h0
  obtain ⟨u, B, hurun, -, hupos, hu, hco, hB, hBeq⟩ :=
    halveStep_spec (show s.u ≤ fuel by omega) hu0 h.u_le h.coprime h.B_lt h.u_eq
  obtain ⟨v, D, hvrun, -, hvpos, hv', hco', hD, hDeq⟩ :=
    halveStep_spec (show s.v ≤ fuel by omega) h.v_pos h.v_le hco.symm h.D_lt h.v_eq
  have hcmp := compareSigned32_nonneg_iff (a := u) (b := v) (by omega) (by omega)
  simp only [inverseStep, hurun, hvrun, Option.bind_eq_bind, Option.bind_some]
  split_ifs with hge
  · -- `u ≥ v`: `u -= v`, `B -= D`
    have hle : v ≤ u := hcmp.mp hge
    have hsub : sub32 u v = u - v := sub32_of_le hle (by omega)
    have hred := reduceSigned32_sub32 hB hD
    refine ⟨⟨sub32 u v, v, reduceSigned32 (sub32 B D), D⟩, rfl, ?_,
      show sub32 u v + v < s.u + s.v by omega⟩
    rw [hsub]
    exact ⟨show u - v ≤ prime by omega, hvpos, show v ≤ prime by omega, hred.1, hD,
      (Nat.coprime_sub_self_left hle).mpr hco'.symm,
      show ((u - v : ℕ) : ZMod prime) = reduceSigned32 (sub32 B D) * a by
        rw [Nat.cast_sub hle, hred.2, hBeq, hDeq, sub_mul],
      hDeq⟩
  · -- `u < v`: `v -= u`, `D -= B`
    have hlt : u < v := by have := hcmp.not.mp hge; omega
    have hle : u ≤ v := hlt.le
    have hsub : sub32 v u = v - u := sub32_of_le hle (by omega)
    have hred := reduceSigned32_sub32 hD hB
    refine ⟨⟨u, sub32 v u, B, reduceSigned32 (sub32 D B)⟩, rfl, ?_,
      show u + sub32 v u < s.u + s.v by omega⟩
    rw [hsub]
    exact ⟨show u ≤ prime by omega, show 0 < v - u by omega, show v - u ≤ prime by omega, hB,
      hred.1, (Nat.coprime_sub_self_right hle).mpr hco'.symm, hBeq,
      show ((v - u : ℕ) : ZMod prime) = reduceSigned32 (sub32 D B) * a by
        rw [Nat.cast_sub hle, hred.2, hBeq, hDeq, sub_mul]⟩

/-- **The loop ends.**  With fuel above `u + v + prime`, the loop ends with its invariant and
`v = 1`: each pass lowers `u + v`, and the halvings need at most `prime` passes. -/
theorem inverseLoop_spec {a : ℕ} : ∀ (fuel : ℕ) (s : InvState), LoopInv a s →
    s.u + s.v + prime < fuel → ∃ s', inverseLoop fuel s = some s' ∧ LoopInv a s' ∧ s'.v = 1
  | 0, _, _, hfuel => absurd hfuel (by omega)
  | fuel + 1, s, h, hfuel => by
    rw [inverseLoop]
    split_ifs with hv
    · exact ⟨s, rfl, h, hv⟩
    · obtain ⟨s', hstep, h', hlt⟩ := inverseStep_spec h hv (show prime ≤ fuel by omega)
      rw [hstep, Option.bind_some]
      exact inverseLoop_spec fuel s' h' (by omega)

/-- A reduced `D` is read back unchanged: `ReduceSigned32` leaves it, and so does the byte
constructor. -/
theorem ofBytes_reduceSigned32_of_lt {D : ℕ} (hD : D < prime) :
    ofBytes (reduceSigned32 D) = D := by
  have hp := prime_lt
  have hred : reduceSigned32 D = D := by
    unfold reduceSigned32
    rw [if_neg (by omega), if_neg (by omega)]
  rw [hred, ofBytes_eq, Nat.mod_eq_of_lt (show D < 2 ^ 255 by omega), Nat.mod_eq_of_lt hD]

/-- **`Inverse` ends on the inverse.**  For a reduced nonzero `a`: the start state has the loop
invariant; every pass from a state with the invariant and `v ≠ 1` ends, keeps the invariant and
lowers `u + v`; the halving loop keeps its invariant, with the signed accumulator in
`[-prime, prime)`, so that the words never wrap; and with any fuel above `3 prime`, `Inverse`
returns the reduced inverse of `a`. -/
theorem inverse_terminates_correct (a : ℕ) (ha : a < prime) (ha0 : a ≠ 0) :
    LoopInv a ⟨prime, a, 0, 1⟩ ∧
    (∀ fuel s, LoopInv a s → s.v ≠ 1 → prime ≤ fuel →
      ∃ s', inverseStep fuel s = some s' ∧ LoopInv a s' ∧ s'.u + s'.v < s.u + s.v) ∧
    (∀ fuel x acc y, x ≤ fuel → x % 2 = 0 → HalveInv a y x acc →
      ∃ x' acc', halveLoop fuel x acc = some (x', acc') ∧ x' % 2 = 1 ∧ HalveInv a y x' acc') ∧
    ∀ fuel, 3 * prime < fuel →
      ∃ b, inverse fuel a = some b ∧ Represents prime b ((a : ZMod prime)⁻¹) := by
  refine ⟨loopInv_init ha ha0, fun _ _ h hv hfuel => inverseStep_spec h hv hfuel,
    fun fuel x acc y hfuel heven h => ?_, fun fuel hfuel => ?_⟩
  · obtain ⟨x', acc', hrun, hodd, -, h'⟩ := halveLoop_spec fuel x acc hfuel heven h
    exact ⟨x', acc', hrun, hodd, h'⟩
  · obtain ⟨s, hrun, h, hv⟩ :=
      inverseLoop_spec fuel _ (loopInv_init ha ha0) (show prime + a + prime < fuel by omega)
    refine ⟨s.D, ?_, h.D_lt, ?_⟩
    · rw [inverse, if_neg ha0, hrun, Option.map_some, ofBytes_reduceSigned32_of_lt h.D_lt]
    · -- the loop ends on `v = 1`, and `v = D a`
      apply eq_inv_of_mul_eq_one_left
      rw [← h.v_eq, hv, Nat.cast_one]

theorem inverse_terminates_correct_two :
    (2 : ℕ) < prime ∧ (2 : ℕ) ≠ 0 ∧ 3 * prime < 3 * prime + 1 ∧
      ∃ b, inverse (3 * prime + 1) 2 = some b ∧
        Represents prime b (((2 : ℕ) : ZMod prime)⁻¹) := by
  have h2 : (2 : ℕ) < prime := by rw [prime_val]; norm_num
  exact ⟨h2, two_ne_zero, Nat.lt_succ_self _,
    (inverse_terminates_correct 2 h2 two_ne_zero).2.2.2 _ (Nat.lt_succ_self _)⟩

end MetabaseNet.CFP25519
