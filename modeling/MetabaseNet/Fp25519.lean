/-
# The field of curve25519: `curve25519::CFP25519`

`src/crypto/curve25519/fp25519.cpp`.  An element is `uint64_t value[4]`, a number below `2^256`
read little-endian (`CSC25519.limbs`), kept below `prime = 2^255 - 19`.  The helpers of
`base25519.h` that the field code calls are written as the arithmetic they do: `Add32` and
`Sub32` modulo `2^256`, and `Mul32` of the `DEFINED_INT128` build, whose column `t` is the
128-bit sum of the low halves of the limb products at position `t` and the high halves of those
at `t - 1` (`Limbs.column`).

Two loops have exits that are not obvious.  `Reduce()` subtracts `prime` while the value is at
least `prime`; `Range(carry)` folds the bits from 255 up back in as `19` times their value
(`2^255 = 19` modulo `prime`) until nothing is carried.  Both are defined by well-founded
recursion, `Range` on the number `carry · 2^256 + value` that it stands for, which each pass
makes smaller: that the definitions are accepted is the proof that the loops end, for every
carry and value.

Each operation takes reduced representatives to the representative of the field operation
(`ModArith.Represents`; `add_represents`, `mul_represents`, `power_represents`), `Pack` of a
value below `2^255` is its remainder (`pack_eq_mod`), and `prime_prime` certifies the prime.
-/
import MetabaseNet.Scalar25519
import MetabaseNet.Lib.Limbs
import MetabaseNet.Lib.Loop
import Mathlib.Data.List.GetD

namespace MetabaseNet.CFP25519

open ModArith (Represents)

/-! ## Constants -/

/-- `CFP25519::prime`, `2^255 - 19`. -/
def prime : ℕ :=
  CSC25519.limbs 0xFFFFFFFFFFFFFFED 0xFFFFFFFFFFFFFFFF 0xFFFFFFFFFFFFFFFF 0x7FFFFFFFFFFFFFFF

theorem prime_val : prime = 2 ^ 255 - 19 := by decide

theorem prime_pos : 0 < prime := by rw [prime_val]; omega

theorem prime_lt : prime < 2 ^ 255 := by rw [prime_val]; omega

/-! ## The operations -/

/-- `Reduce()`: `prime` is subtracted while the value is at least `prime`. -/
def reduce (v : ℕ) : ℕ :=
  if prime ≤ v then reduce (v - prime) else v
termination_by v
decreasing_by have := prime_pos; omega

/-- `CFP25519(const uint8_t* md32)`: the 32 bytes read little-endian into `s`, bit 255 cleared
(`value[3] &= 0x7FFFFFFFFFFFFFFF`), then `Reduce()`. -/
def ofBytes (s : ℕ) : ℕ := reduce (s % 2 ^ 255)

/-- `operator+=`: `Add32`, which drops the carry out of bit 255, then `Reduce()`. -/
def add (a b : ℕ) : ℕ := reduce ((a + b) % 2 ^ 256)

/-- `operator-=`: `Sub32`, and `Add32` of `prime` on a borrow. -/
def sub (a b : ℕ) : ℕ := if a < b then (a + 2 ^ 256 - b + prime) % 2 ^ 256 else a - b

/-- `operator-()`: `0 - a`. -/
def neg (a : ℕ) : ℕ := sub 0 a

/-- Limb `i` of a value, `value[i]`. -/
def limb (v i : ℕ) : ℕ := v / (2 ^ 64) ^ i % 2 ^ 64

/-- `Mul32` of the `DEFINED_INT128` build: column `t` of the product, the 128-bit `m[t]`. -/
def mul32 (a b : ℕ) (t : ℕ) : ℕ := Limbs.column (2 ^ 64) 4 (limb a) (limb b) t

/-- A pass of `Range` makes the number `carry · 2^256 + value` smaller: the `c` it adds back is
at most `19` times the bits it folds, each of which is worth `2^255`. -/
theorem range_measure_lt {carry v : ℕ}
    (hc : ¬ (carry * 2 % 2 ^ 32 + v / 2 ^ 255 % 2) * 19 % 2 ^ 32 = 0) :
    (v % 2 ^ 255 + (carry * 2 % 2 ^ 32 + v / 2 ^ 255 % 2) * 19 % 2 ^ 32) / 2 ^ 256 * 2 ^ 256 +
      (v % 2 ^ 255 + (carry * 2 % 2 ^ 32 + v / 2 ^ 255 % 2) * 19 % 2 ^ 32) % 2 ^ 256 <
    carry * 2 ^ 256 + v := by
  rw [Nat.div_add_mod']
  have hx : carry * 2 % 2 ^ 32 ≤ carry * 2 := Nat.mod_le _ _
  have hcle := Nat.mod_le ((carry * 2 % 2 ^ 32 + v / 2 ^ 255 % 2) * 19) (2 ^ 32)
  -- bit 255 of `v` is worth `2^255` in `v`
  have hbit : v / 2 ^ 255 % 2 * 2 ^ 255 ≤ v / 2 ^ 255 * 2 ^ 255 :=
    Nat.mul_le_mul_right _ (Nat.mod_le _ _)
  have hv := Nat.div_add_mod' v (2 ^ 255)
  generalize carry * 2 % 2 ^ 32 = x at *
  generalize v / 2 ^ 255 % 2 = b at *
  generalize v / 2 ^ 255 = q at *
  omega

/-- `Range(carry)`: while `c = ((carry << 1) + (value[3] >> 63)) * 19`, a `uint32_t`, is not
zero, bit 255 is cleared and `c` added in, the carry out of bit 255 becoming the next `carry`;
then `Reduce()`. -/
def range (carry v : ℕ) : ℕ :=
  let c := (carry * 2 % 2 ^ 32 + v / 2 ^ 255 % 2) * 19 % 2 ^ 32
  if hc : c = 0 then reduce v
  else range ((v % 2 ^ 255 + c) / 2 ^ 256) ((v % 2 ^ 255 + c) % 2 ^ 256)
termination_by carry * 2 ^ 256 + v
decreasing_by exact range_measure_lt hc

/-- One pass of the fold of `operator*=`, at column `i`: `m[i] += carry + m[i + 4] * 38`, the low
64 bits of `m[i]` become `value[i]` and the rest is the next carry.  The 128-bit sums do not
wrap: the columns are below `2^69` (`Limbs.column_lt`). -/
def foldColumn (m : ℕ → ℕ) (acc : ℕ × ℕ) (i : ℕ) : ℕ × ℕ :=
  let s := m i + acc.2 + m (i + 4) * 38
  (acc.1 + (2 ^ 64) ^ i * (s % 2 ^ 64), s / 2 ^ 64)

/-- The value and the carry after the fold of `operator*=` over the four low columns. -/
def foldColumns (a b : ℕ) : ℕ × ℕ := (List.range 4).foldl (foldColumn (mul32 a b)) (0, 0)

/-- `operator*=`: `Mul32`, the fold of the high columns onto the low ones with `2^256 = 38`
modulo `prime`, and `Range` of the carry, which is passed as a `uint32_t`. -/
def mul (a b : ℕ) : ℕ := range ((foldColumns a b).2 % 2 ^ 32) (foldColumns a b).1

/-- `Square()`: `*this *= *this`. -/
def square (a : ℕ) : ℕ := mul a a

/-- The table of `Power`: `pre[0] = 1`, `pre[1] = x`, and for `i = 2, 4, ..., 14`,
`pre[i]` the square of `pre[i >> 1]` and `pre[i + 1] = pre[i] * x`. -/
def powerTable (x : ℕ) : List ℕ :=
  (List.range 7).foldl (fun pre k =>
    let sq := square (pre.getD (k + 1) 0)
    pre ++ [sq, mul sq x]) [1, x]

/-- Half a round of `Power`: four squarings of `r`, then `r *= pre[nibble]`. -/
def powerWindow (pre : List ℕ) (r nibble : ℕ) : ℕ :=
  mul (square (square (square (square r)))) (pre.getD nibble 0)

/-- `Power(md32)`: for the bytes of the exponent `e` from the last to the first, a window with
the high nibble of the byte, then one with the low nibble. -/
def power (x e : ℕ) : ℕ :=
  (List.range 32).foldl (fun r k =>
    let byte := e / 256 ^ (31 - k) % 256
    powerWindow (powerTable x) (powerWindow (powerTable x) r (byte / 16)) (byte % 16)) 1

/-- `Pack(md32)`: the value's bytes, less `prime` when its limbs show a value in
`[prime, 2^255)`. -/
def pack (v : ℕ) : ℕ :=
  if limb v 3 = 0x7FFFFFFFFFFFFFFF ∧ limb v 2 = 0xFFFFFFFFFFFFFFFF ∧
      limb v 1 = 0xFFFFFFFFFFFFFFFF ∧ 0xFFFFFFFFFFFFFFED ≤ limb v 0 then
    limb v 0 - 0xFFFFFFFFFFFFFFED
  else v

/-! ## Each operation simulates the field -/

theorem reduce_eq_mod (v : ℕ) : reduce v = v % prime := by
  induction v using reduce.induct with
  | case1 v h ih => rw [reduce, if_pos h, ih, ← Nat.mod_eq_sub_mod h]
  | case2 v h => rw [reduce, if_neg h, Nat.mod_eq_of_lt (Nat.lt_of_not_le h)]

theorem reduce_represents (v : ℕ) : Represents prime (reduce v) v := by
  rw [reduce_eq_mod]
  exact ModArith.represents_mod prime_pos v

theorem ofBytes_eq (s : ℕ) : ofBytes s = s % 2 ^ 255 % prime := reduce_eq_mod _

/-- While the carry is below `2^26`, the `c` of `Range` does not wrap. -/
theorem range_c_eq {carry v : ℕ} (hcarry : carry < 2 ^ 26) :
    (carry * 2 % 2 ^ 32 + v / 2 ^ 255 % 2) * 19 % 2 ^ 32 = (carry * 2 + v / 2 ^ 255 % 2) * 19 := by
  have h2 : carry * 2 % 2 ^ 32 = carry * 2 := Nat.mod_eq_of_lt (by omega)
  have hb : v / 2 ^ 255 % 2 < 2 := Nat.mod_lt _ (by norm_num)
  rw [h2]
  exact Nat.mod_eq_of_lt (by omega)

/-- `Range` leaves the reduced representative of the number `carry · 2^256 + value` it stands
for, from a value below `2^256` and a carry small enough that its first `c` does not wrap. -/
theorem range_represents {carry v : ℕ} (hcarry : carry < 2 ^ 26) (hv : v < 2 ^ 256) :
    Represents prime (range carry v) (carry * 2 ^ 256 + v : ℕ) := by
  induction carry, v using range.induct with
  | case1 carry v c hc =>
    have hr : range carry v = reduce v := by rw [range]; exact dif_pos hc
    -- nothing is folded: the carry is zero and bit 255 is clear
    have hc' : (carry * 2 % 2 ^ 32 + v / 2 ^ 255 % 2) * 19 % 2 ^ 32 = 0 := hc
    clear hc c
    rw [range_c_eq hcarry] at hc'
    have hcarry0 : carry = 0 := by omega
    rw [hr, hcarry0, Nat.zero_mul, Nat.zero_add]
    exact reduce_represents v
  | case2 carry v c hc ih =>
    have hr : range carry v =
        range ((v % 2 ^ 255 + c) / 2 ^ 256) ((v % 2 ^ 255 + c) % 2 ^ 256) := by
      rw [range]; exact dif_neg hc
    have hc' : c = (carry * 2 + v / 2 ^ 255 % 2) * 19 := range_c_eq hcarry
    clear_value c
    -- `v` is its bit 255 and the bits below
    have hsplit : v / 2 ^ 255 % 2 * 2 ^ 255 + v % 2 ^ 255 = v := by
      rw [Nat.mod_eq_of_lt (Nat.div_lt_of_lt_mul (by omega))]
      exact Nat.div_add_mod' v _
    have hr255 := Nat.mod_lt v (show 2 ^ 255 > 0 by norm_num)
    -- the next carry is at most `1`
    have hnext : (v % 2 ^ 255 + c) / 2 ^ 256 < 2 ^ 26 := by
      have hb : v / 2 ^ 255 % 2 < 2 := Nat.mod_lt _ (by norm_num)
      clear hsplit
      generalize v / 2 ^ 255 % 2 = b at *
      generalize v % 2 ^ 255 = r at *
      omega
    rw [hr]
    refine (ih hnext (Nat.mod_lt _ (by norm_num))).congr ?_
    -- `2^255 = prime + 19`: the bits folded back as `c` differ from it by multiples of `prime`
    apply ModArith.cast_eq_of_add_mul (k := carry * 2 + v / 2 ^ 255 % 2) (j := 0)
    rw [Nat.div_add_mod', prime_val]
    generalize v / 2 ^ 255 % 2 = b at *
    generalize v % 2 ^ 255 = r at *
    subst hc'
    omega

theorem limb_lt (v i : ℕ) : limb v i < 2 ^ 64 := Nat.mod_lt _ (by norm_num)

/-- A value below `2^256` is the sum of its limbs at their places. -/
theorem sum_limb {v : ℕ} (hv : v < 2 ^ 256) : ∑ i ∈ Finset.range 4, limb v i * (2 ^ 64) ^ i = v := by
  simp only [Finset.sum_range_succ, Finset.sum_range_zero, limb]
  norm_num
  omega

/-- A column of `Mul32` is below `2^69`: `4 · 4` limb products, each adding a low and a high
half below `2^64`. -/
theorem mul32_le (a b t : ℕ) : mul32 a b t ≤ 2 ^ 69 :=
  Limbs.column_lt (limb_lt a) (limb_lt b) t

/-- One pass of the fold keeps `value + carry · 2^(64 k)` equal to the first `k` low columns
with the high ones added in as `38` times their value, and the value below `2^(64 k)`. -/
theorem foldColumn_spec (m : ℕ → ℕ) {k : ℕ} {acc : ℕ × ℕ} (hlt : acc.1 < (2 ^ 64) ^ k)
    (heq : acc.1 + acc.2 * (2 ^ 64) ^ k =
      ∑ i ∈ Finset.range k, (m i + m (i + 4) * 38) * (2 ^ 64) ^ i) :
    (foldColumn m acc k).1 < (2 ^ 64) ^ (k + 1) ∧
    (foldColumn m acc k).1 + (foldColumn m acc k).2 * (2 ^ 64) ^ (k + 1) =
      ∑ i ∈ Finset.range (k + 1), (m i + m (i + 4) * 38) * (2 ^ 64) ^ i := by
  obtain ⟨x, c⟩ := acc
  simp only [foldColumn, -Nat.reducePow] at hlt heq ⊢
  -- `s = m[k] + carry + 38 m[k + 4]` is its low 64 bits and its carry
  have hs := Nat.mod_add_div (m k + c + m (k + 4) * 38) (2 ^ 64)
  have hlow : (m k + c + m (k + 4) * 38) % 2 ^ 64 < 2 ^ 64 := Nat.mod_lt _ (by norm_num)
  generalize (m k + c + m (k + 4) * 38) % 2 ^ 64 = lo at hs hlow ⊢
  generalize (m k + c + m (k + 4) * 38) / 2 ^ 64 = hi at hs ⊢
  rw [pow_succ (2 ^ 64) k, Finset.sum_range_succ, ← heq]
  generalize (2 ^ 64) ^ k = W at hlt ⊢
  constructor
  · calc x + W * lo < W * (lo + 1) := by rw [Nat.mul_succ]; omega
      _ ≤ W * 2 ^ 64 := Nat.mul_le_mul_left W hlow
  · calc x + W * lo + hi * (W * 2 ^ 64) = x + W * (lo + 2 ^ 64 * hi) := by ring
      _ = x + W * (m k + c + m (k + 4) * 38) := by rw [hs]
      _ = x + c * W + (m k + m (k + 4) * 38) * W := by ring

/-- **The fold of `operator*=`.**  The value is below `2^256`, and with the carry above it, it is
the low columns plus `38` times the high ones. -/
theorem foldColumns_spec (a b : ℕ) :
    (foldColumns a b).1 < 2 ^ 256 ∧
    (foldColumns a b).1 + (foldColumns a b).2 * 2 ^ 256 =
      ∑ i ∈ Finset.range 4, (mul32 a b i + mul32 a b (i + 4) * 38) * (2 ^ 64) ^ i :=
  Loop.foldl_range_inv (foldColumn (mul32 a b))
    (fun k acc => acc.1 < (2 ^ 64) ^ k ∧ acc.1 + acc.2 * (2 ^ 64) ^ k =
      ∑ i ∈ Finset.range k, (mul32 a b i + mul32 a b (i + 4) * 38) * (2 ^ 64) ^ i)
    (by simp) (fun _ _ _ h => foldColumn_spec _ h.1 h.2)

/-- Folding the high columns in as `38` times their value keeps the product modulo `prime`:
`2^256 = 38 + 2 prime`. -/
theorem fold_cast {a b : ℕ} (ha : a < 2 ^ 256) (hb : b < 2 ^ 256) :
    ((∑ i ∈ Finset.range 4, (mul32 a b i + mul32 a b (i + 4) * 38) * (2 ^ 64) ^ i : ℕ) :
      ZMod prime) = (a * b : ℕ) := by
  have hcols : ∑ t ∈ Finset.range (2 * 4), mul32 a b t * (2 ^ 64) ^ t = a * b := by
    have h := Limbs.sum_column (2 ^ 64) 4 (limb a) (limb b)
    rw [sum_limb ha, sum_limb hb] at h
    exact h
  apply ModArith.cast_eq_of_add_mul
    (k := 2 * ∑ i ∈ Finset.range 4, mul32 a b (i + 4) * (2 ^ 64) ^ i) (j := 0)
  rw [← hcols, prime_val]
  simp only [Finset.sum_range_succ, Finset.sum_range_zero]
  norm_num
  ring

/-- The carry that the fold passes to `Range` is below `2^14`: the folded columns are below
`39 · 2^69` at each of four places. -/
theorem foldColumns_carry_lt (a b : ℕ) : (foldColumns a b).2 < 2 ^ 14 := by
  obtain ⟨-, heq⟩ := foldColumns_spec a b
  have h0 := mul32_le a b 0
  have h1 := mul32_le a b 1
  have h2 := mul32_le a b 2
  have h3 := mul32_le a b 3
  have h4 := mul32_le a b 4
  have h5 := mul32_le a b 5
  have h6 := mul32_le a b 6
  have h7 := mul32_le a b 7
  simp only [Finset.sum_range_succ, Finset.sum_range_zero] at heq
  norm_num at heq h0 h1 h2 h3 h4 h5 h6 h7
  omega

/-- `operator*=` on values below `2^256` leaves the reduced representative of the product. -/
theorem mul_represents_of_lt {a b : ℕ} (ha : a < 2 ^ 256) (hb : b < 2 ^ 256) :
    Represents prime (mul a b) (a * b : ℕ) := by
  obtain ⟨hlt, heq⟩ := foldColumns_spec a b
  have hcarry := foldColumns_carry_lt a b
  rw [mul, Nat.mod_eq_of_lt (by omega : (foldColumns a b).2 < 2 ^ 32)]
  refine (range_represents (by omega) hlt).congr ?_
  rw [← fold_cast ha hb, ← heq, Nat.add_comm]

section Represented

variable {a b : ℕ} {za zb : ZMod prime}

theorem lt_two_pow_of_represents (ha : Represents prime a za) : a < 2 ^ 255 :=
  lt_trans ha.1 prime_lt

theorem add_represents (ha : Represents prime a za) (hb : Represents prime b zb) :
    Represents prime (add a b) (za + zb) := by
  have ha' := lt_two_pow_of_represents ha
  have hb' := lt_two_pow_of_represents hb
  rw [add, Nat.mod_eq_of_lt (by omega)]
  refine (reduce_represents (a + b)).congr ?_
  rw [Nat.cast_add, ha.2, hb.2]

theorem sub_represents (ha : Represents prime a za) (hb : Represents prime b zb) :
    Represents prime (sub a b) (za - zb) := by
  have hp := prime_lt
  have ha' := ha.1
  have hb' := hb.1
  rw [← ha.2, ← hb.2]
  unfold sub
  split_ifs with hab
  · -- a borrow: `prime` is added back
    have hr : (a + 2 ^ 256 - b + prime) % 2 ^ 256 = a + prime - b := by omega
    rw [hr]
    refine ⟨by omega, ?_⟩
    rw [Nat.cast_sub (by omega), Nat.cast_add, ZMod.natCast_self, add_zero]
  · exact ⟨by omega, Nat.cast_sub (by omega)⟩

theorem neg_represents (ha : Represents prime a za) : Represents prime (neg a) (-za) :=
  (sub_represents ((Represents.natCast prime_pos).congr Nat.cast_zero) ha).congr (zero_sub za)

theorem mul_represents (ha : Represents prime a za) (hb : Represents prime b zb) :
    Represents prime (mul a b) (za * zb) := by
  have ha' := lt_two_pow_of_represents ha
  have hb' := lt_two_pow_of_represents hb
  refine (mul_represents_of_lt (by omega) (by omega)).congr ?_
  rw [Nat.cast_mul, ha.2, hb.2]

theorem square_represents (ha : Represents prime a za) : Represents prime (square a) (za ^ 2) :=
  (mul_represents ha ha).congr (sq za).symm

end Represented

/-- Four squarings and a multiplication by a table entry: `r ↦ r^16 · pre[n]`. -/
theorem powerWindow_represents {pre : List ℕ} {r n : ℕ} {zr zn : ZMod prime}
    (hr : Represents prime r zr) (hn : Represents prime (pre.getD n 0) zn) :
    Represents prime (powerWindow pre r n) (zr ^ 16 * zn) := by
  have h := mul_represents (square_represents (square_represents (square_represents
    (square_represents hr)))) hn
  refine h.congr ?_
  ring

/-- The table of `Power` holds the powers `x^i` for `i < 16`. -/
theorem powerTable_represents {x : ℕ} {z : ZMod prime} (hx : Represents prime x z) :
    ∀ i < 16, Represents prime ((powerTable x).getD i 0) (z ^ i) := by
  -- after `k` rounds the table holds `x^i` for `i < 2 k + 2`
  have key := Loop.foldl_range_inv
    (fun pre k => let sq := square (pre.getD (k + 1) 0); pre ++ [sq, mul sq x])
    (fun k pre => pre.length = 2 * k + 2 ∧
      ∀ i < 2 * k + 2, Represents prime (pre.getD i 0) (z ^ i)) (b := [1, x]) ?init (n := 7) ?step
  · exact key.2
  case init =>
    refine ⟨rfl, fun i hi => ?_⟩
    rcases (by omega : i = 0 ∨ i = 1) with rfl | rfl
    · show Represents prime 1 (z ^ 0)
      exact (Represents.natCast (by rw [prime_val]; omega)).congr (by simp)
    · exact hx.congr (pow_one z).symm
  case step =>
    rintro k - pre ⟨hlen, hpre⟩
    -- the two new entries: `x^(k+1)` squared, and that times `x`
    have e2 : (z ^ (k + 1)) ^ 2 = z ^ (2 * k + 2) := by rw [← pow_mul, Nat.mul_comm, Nat.mul_succ]
    have hsq := (square_represents (hpre (k + 1) (by omega))).congr e2
    have hmul := (mul_represents hsq hx).congr (pow_succ z (2 * k + 2)).symm
    generalize square (pre.getD (k + 1) 0) = sq at hsq hmul ⊢
    refine ⟨by simp [hlen]; omega, fun i hi => ?_⟩
    rcases (by omega : i < 2 * k + 2 ∨ i = 2 * k + 2 ∨ i = 2 * k + 3) with hi' | rfl | rfl
    · rw [List.getD_append _ _ _ _ (by omega)]
      exact hpre i hi'
    · rw [List.getD_append_right _ _ _ _ (by omega), hlen, Nat.sub_self, List.getD_cons_zero]
      exact hsq
    · rw [List.getD_append_right _ _ _ _ (by omega), hlen,
        show 2 * k + 3 - (2 * k + 2) = 0 + 1 by omega, List.getD_cons_succ, List.getD_cons_zero]
      exact hmul

/-- The exponent read down to byte `j`: the bytes above, shifted up a byte, and byte `j`. -/
theorem div_pow_byte (e j : ℕ) :
    e / 256 ^ j = e / 256 ^ (j + 1) * 256 + e / 256 ^ j % 256 / 16 * 16 + e / 256 ^ j % 256 % 16 := by
  rw [pow_succ, ← Nat.div_div_eq_div_mul]
  omega

/-- **`Power` is exponentiation.**  After the bytes from the last down to byte `32 - k`, `r`
stands for `x` raised to the exponent those bytes make, `e / 256^(32 - k)`. -/
theorem power_represents {x e : ℕ} {z : ZMod prime} (hx : Represents prime x z)
    (he : e < 2 ^ 256) : Represents prime (power x e) (z ^ e) := by
  have hpre := powerTable_represents hx
  have key := Loop.foldl_range_inv
    (fun r k => let byte := e / 256 ^ (31 - k) % 256
      powerWindow (powerTable x) (powerWindow (powerTable x) r (byte / 16)) (byte % 16))
    (fun k r => Represents prime r (z ^ (e / 256 ^ (32 - k)))) (b := 1) ?init (n := 32) ?step
  · rwa [Nat.sub_self, pow_zero, Nat.div_one] at key
  case init =>
    rw [Nat.sub_zero, Nat.div_eq_of_lt (by omega), pow_zero]
    exact (Represents.natCast (by rw [prime_val]; omega)).congr Nat.cast_one
  case step =>
    intro k hk r hr
    have hbyte : e / 256 ^ (31 - k) % 256 < 256 := Nat.mod_lt _ (by norm_num)
    have hhi := hpre _ (by omega : e / 256 ^ (31 - k) % 256 / 16 < 16)
    have hlo := hpre _ (by omega : e / 256 ^ (31 - k) % 256 % 16 < 16)
    dsimp only
    refine (powerWindow_represents (powerWindow_represents hr hhi) hlo).congr ?_
    have hexp := div_pow_byte e (31 - k)
    rw [show 31 - k + 1 = 32 - k by omega] at hexp
    rw [show 32 - (k + 1) = 31 - k by omega]
    generalize e / 256 ^ (31 - k) = B at hexp ⊢
    generalize e / 256 ^ (32 - k) = E at hexp ⊢
    conv_rhs => rw [hexp]
    ring

/-- `Pack` of a value below `2^255` is its remainder: the limb test catches exactly the values
in `[prime, 2^255)`. -/
theorem pack_eq_mod {v : ℕ} (hv : v < 2 ^ 255) : pack v = v % prime := by
  unfold pack limb
  rw [prime_val]
  norm_num
  split_ifs <;> omega

/-! ## The prime is prime

Lucas certificates for `prime` and for the large primes of the factorizations below it, all
checked by one evaluation; the primes under `10^7` are left to `norm_num`. -/

/-- Certificates `(p, a, fs)`: `a` is a witness of Lucas's test for `p`, and `fs` lists the
primes of `p - 1` with multiplicity. -/
def lucasCertificates : List (ℕ × ℕ × List ℕ) :=
  [(2773320623, 5, [2, 2437, 569003]),
   (72106336199, 7, [2, 13, 2773320623]),
   (1919519569386763, 2, [2, 3, 7, 19, 47, 47, 127, 8574133]),
   (31757755568855353, 10, [2, 2, 2, 3, 31, 107, 223, 4153, 430751]),
   (75445702479781427272750846543864801, 7,
     [2, 2, 2, 2, 2, 3, 3, 5, 5, 75707, 72106336199, 1919519569386763]),
   (74058212732561358302231226437062788676166966415465897661863160754340907, 2,
     [2, 3, 353, 57467, 132049, 1923133, 31757755568855353,
       75445702479781427272750846543864801]),
   (57896044618658097711785492504343953926634992332820282019728792003956564819949, 2,
     [2, 2, 3, 65147, 74058212732561358302231226437062788676166966415465897661863160754340907])]

theorem lucasCertificates_check :
    lucasCertificates.all (fun c => ModArith.lucasCheck c.1 c.2.1 c.2.2) = true := by
  decide +kernel

/-- A number with a certificate in the table is prime once the primes of its `p - 1` are. -/
theorem prime_of_certificate (p a : ℕ) (fs : List ℕ) (hc : (p, a, fs) ∈ lucasCertificates)
    (hfs : fs.Forall Nat.Prime) : p.Prime :=
  ModArith.prime_of_lucasCheck (List.all_eq_true.mp lucasCertificates_check _ hc) hfs

theorem nat_prime_2773320623 : Nat.Prime 2773320623 :=
  prime_of_certificate _ 5 [2, 2437, 569003] (by simp [lucasCertificates])
    (by simp only [List.Forall]; exact ⟨Nat.prime_two, by norm_num, by norm_num⟩)

theorem nat_prime_72106336199 : Nat.Prime 72106336199 :=
  prime_of_certificate _ 7 [2, 13, 2773320623] (by simp [lucasCertificates])
    (by simp only [List.Forall]; exact ⟨Nat.prime_two, by norm_num, nat_prime_2773320623⟩)

theorem nat_prime_1919519569386763 : Nat.Prime 1919519569386763 :=
  prime_of_certificate _ 2 [2, 3, 7, 19, 47, 47, 127, 8574133] (by simp [lucasCertificates])
    (by simp only [List.Forall]; exact ⟨Nat.prime_two, Nat.prime_three, by norm_num, by norm_num,
      by norm_num, by norm_num, by norm_num, by norm_num⟩)

theorem nat_prime_31757755568855353 : Nat.Prime 31757755568855353 :=
  prime_of_certificate _ 10 [2, 2, 2, 3, 31, 107, 223, 4153, 430751] (by simp [lucasCertificates])
    (by simp only [List.Forall]; exact ⟨Nat.prime_two, Nat.prime_two, Nat.prime_two,
      Nat.prime_three, by norm_num, by norm_num, by norm_num, by norm_num, by norm_num⟩)

theorem nat_prime_75445702479781427272750846543864801 :
    Nat.Prime 75445702479781427272750846543864801 :=
  prime_of_certificate _ 7 [2, 2, 2, 2, 2, 3, 3, 5, 5, 75707, 72106336199, 1919519569386763]
    (by simp [lucasCertificates])
    (by simp only [List.Forall]; exact ⟨Nat.prime_two, Nat.prime_two, Nat.prime_two, Nat.prime_two,
      Nat.prime_two, Nat.prime_three, Nat.prime_three, Nat.prime_five, Nat.prime_five, by norm_num,
      nat_prime_72106336199, nat_prime_1919519569386763⟩)

theorem nat_prime_74058212732561358302231226437062788676166966415465897661863160754340907 :
    Nat.Prime 74058212732561358302231226437062788676166966415465897661863160754340907 :=
  prime_of_certificate _ 2
    [2, 3, 353, 57467, 132049, 1923133, 31757755568855353, 75445702479781427272750846543864801]
    (by simp [lucasCertificates])
    (by simp only [List.Forall]; exact ⟨Nat.prime_two, Nat.prime_three, by norm_num, by norm_num,
      by norm_num, by norm_num, nat_prime_31757755568855353,
      nat_prime_75445702479781427272750846543864801⟩)

theorem prime_prime : Nat.Prime prime := by
  rw [prime_val]
  exact prime_of_certificate _ 2
    [2, 2, 3, 65147, 74058212732561358302231226437062788676166966415465897661863160754340907]
    (by simp [lucasCertificates])
    (by simp only [List.Forall]; exact ⟨Nat.prime_two, Nat.prime_two, Nat.prime_three, by norm_num,
      nat_prime_74058212732561358302231226437062788676166966415465897661863160754340907⟩)

instance : Fact (Nat.Prime prime) := ⟨prime_prime⟩

/-- **The field code is exact and canonical.**  The byte constructor reduces, `Range` gives the
reduced representative of what it is passed for every carry up to `2^26`, and the carry of a
product is below `2^14`; on reduced operands the operators, `Square` and `Power` (with every
32-byte exponent) give the reduced representative of the field result, and `Pack` of a value
below `2^255` is its canonical encoding. -/
theorem fp25519_arith_exact :
    (∀ s : ℕ, ofBytes s = s % 2 ^ 255 % prime) ∧
    (∀ carry < 2 ^ 26, ∀ v < 2 ^ 256,
      Represents prime (range carry v) (carry * 2 ^ 256 + v : ℕ)) ∧
    (∀ a b : ℕ, (foldColumns a b).2 < 2 ^ 14) ∧
    (∀ v < 2 ^ 255, pack v = v % prime) ∧
    ∀ a b : ℕ, a < prime → b < prime →
      Represents prime (add a b) ((a : ZMod prime) + b) ∧
      Represents prime (sub a b) ((a : ZMod prime) - b) ∧
      Represents prime (mul a b) ((a : ZMod prime) * b) ∧
      Represents prime (square a) ((a : ZMod prime) ^ 2) ∧
      Represents prime (neg a) (-(a : ZMod prime)) ∧
      ∀ e < 2 ^ 256, Represents prime (power a e) ((a : ZMod prime) ^ e) := by
  refine ⟨ofBytes_eq, fun _ hc _ hv => range_represents hc hv, foldColumns_carry_lt,
    fun _ hv => pack_eq_mod hv, fun a b ha hb => ?_⟩
  have ha' : Represents prime a a := Represents.natCast ha
  have hb' : Represents prime b b := Represents.natCast hb
  exact ⟨add_represents ha' hb', sub_represents ha' hb', mul_represents ha' hb',
    square_represents ha', neg_represents ha', fun _ he => power_represents ha' he⟩

theorem fp25519_arith_exact_two_three :
    Represents prime (range 1 0) (1 * 2 ^ 256 + 0 : ℕ) ∧ pack 7 = 7 % prime ∧
      (2 : ℕ) < prime ∧ (3 : ℕ) < prime ∧
      Represents prime (sub 2 3) ((2 : ℕ) - (3 : ℕ) : ZMod prime) ∧
      Represents prime (power 2 5) (((2 : ℕ) : ZMod prime) ^ 5) := by
  have h2 : (2 : ℕ) < prime := by rw [prime_val]; norm_num
  have h3 : (3 : ℕ) < prime := by rw [prime_val]; norm_num
  have h := fp25519_arith_exact.2.2.2.2 2 3 h2 h3
  exact ⟨fp25519_arith_exact.2.1 1 (by norm_num) 0 (by norm_num),
    fp25519_arith_exact.2.2.2.1 7 (by norm_num), h2, h3, h.2.1, h.2.2.2.2.2 5 (by norm_num)⟩

end MetabaseNet.CFP25519
