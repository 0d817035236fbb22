/-
# Modular arithmetic on natural numbers

Three general tools for arithmetic modulo a large number, each with the facts the proofs
about multi-limb scalar code need:

* `powMod`, right-to-left square-and-multiply with an accumulator, which the kernel can run
  on numbers of a few hundred bits (`powMod_cast`, `powMod_lt`);
* `prime_of_lucas`, Lucas's primality test (`lucas_primality`) with the factorization of
  `p - 1` given as a list of primes, its arithmetic checked by `powMod`, and
  `prime_of_lucasCheck`, the same test as one boolean check;
* `barrett_quotient`, the error of Barrett's estimate `⌊⌊m / B⌋ · ⌊B W / p⌋ / W⌋` of the
  quotient `m / p`;
* `Represents p v z`, the reduced representative `v < p` of a residue `z : ZMod p`, the
  relation through which multi-limb code simulates `ZMod p`.
-/
import Mathlib.Data.List.Prime
import Mathlib.NumberTheory.LucasPrimality

namespace ModArith

/-! ## Square-and-multiply -/

/-- `acc * b ^ e` modulo `m`, squaring the base and halving the exponent at most `fuel`
times. -/
def powModAux (m : ℕ) : ℕ → ℕ → ℕ → ℕ → ℕ
  | 0, _, _, acc => acc
  | fuel + 1, b, e, acc =>
    if e = 0 then acc
    else powModAux m fuel (b * b % m) (e / 2) (if e % 2 = 1 then acc * b % m else acc)

/-- `b ^ e % m`.  The exponent itself bounds the number of halvings. -/
def powMod (m b e : ℕ) : ℕ := powModAux m e (b % m) e (1 % m)

/-- Each step keeps `acc * b ^ e` modulo `m`: the induction is on the fuel, which the
exponent never outruns. -/
theorem powModAux_cast (m : ℕ) :
    ∀ (fuel b e acc : ℕ), e ≤ fuel →
      (powModAux m fuel b e acc : ZMod m) = (acc : ZMod m) * (b : ZMod m) ^ e := by
  intro fuel
  induction fuel with
  | zero =>
    intro b e acc he
    obtain rfl : e = 0 := by omega
    simp [powModAux]
  | succ fuel ih =>
    intro b e acc he
    by_cases he0 : e = 0
    · subst he0
      simp [powModAux]
    · have hhalf : e / 2 ≤ fuel := by omega
      rw [powModAux, if_neg he0, ih _ _ _ hhalf]
      -- `e` is twice its half, plus its last bit
      have hsplit : e = 2 * (e / 2) + e % 2 := (Nat.div_add_mod e 2).symm
      split_ifs with hodd
      · simp only [ZMod.natCast_mod, Nat.cast_mul]
        conv_rhs => rw [hsplit, hodd, pow_add, pow_mul]
        ring
      · have heven : e % 2 = 0 := by omega
        simp only [ZMod.natCast_mod, Nat.cast_mul]
        conv_rhs => rw [hsplit, heven, add_zero, pow_mul]
        ring

/-- The accumulator stays reduced. -/
theorem powModAux_lt {m : ℕ} (hm : 0 < m) :
    ∀ (fuel b e acc : ℕ), acc < m → powModAux m fuel b e acc < m := by
  intro fuel
  induction fuel with
  | zero => exact fun _ _ _ hacc => hacc
  | succ fuel ih =>
    intro b e acc hacc
    rw [powModAux]
    split_ifs with he0 hodd
    · exact hacc
    · exact ih _ _ _ (Nat.mod_lt _ hm)
    · exact ih _ _ _ hacc

theorem powMod_cast (m b e : ℕ) : (powMod m b e : ZMod m) = (b : ZMod m) ^ e := by
  rw [powMod, powModAux_cast m e _ e _ le_rfl, ZMod.natCast_mod, ZMod.natCast_mod, Nat.cast_one,
    one_mul]

theorem powMod_lt {m : ℕ} (hm : 0 < m) (b e : ℕ) : powMod m b e < m :=
  powModAux_lt hm _ _ _ _ (Nat.mod_lt 1 hm)

example : powMod 1000 3 7 = 187 := by decide

/-! ## Lucas's test -/

/-- A number below `p` other than `1` is not `1` modulo `p`. -/
theorem natCast_ne_one {p c : ℕ} (hp : 2 ≤ p) (hc : c < p) (hc1 : c ≠ 1) : (c : ZMod p) ≠ 1 := by
  rw [← Nat.cast_one, Ne, ZMod.natCast_eq_natCast_iff', Nat.mod_eq_of_lt hc,
    Nat.mod_eq_of_lt (by omega : 1 < p)]
  exact hc1

/-- **Lucas's test.**  `p` is prime when `a ^ (p - 1) ≡ 1` and `a ^ ((p - 1) / q) ≢ 1` for
every prime `q` of a list whose product is `p - 1`. -/
theorem prime_of_lucas {p : ℕ} (a : ℕ) (fs : List ℕ) (hfs : fs.Forall Nat.Prime)
    (hprod : fs.prod = p - 1) (hp : 2 ≤ p) (hfull : powMod p a (p - 1) = 1)
    (hpart : fs.Forall fun q => powMod p a ((p - 1) / q) ≠ 1) : p.Prime := by
  refine lucas_primality p (a : ZMod p) ?_ ?_
  · rw [← powMod_cast, hfull, Nat.cast_one]
  · intro q hq hdvd
    rw [← hprod] at hdvd
    -- a prime dividing the product divides, hence is, one of the listed primes
    obtain ⟨r, hr, hqr⟩ := (Prime.dvd_prod_iff hq.prime).mp hdvd
    have hrq : q = r :=
      (Nat.prime_dvd_prime_iff_eq hq (List.forall_iff_forall_mem.mp hfs r hr)).mp hqr
    subst hrq
    rw [← powMod_cast]
    exact natCast_ne_one hp (powMod_lt (by omega) _ _) (List.forall_iff_forall_mem.mp hpart q hr)

/-- Lucas's test as one boolean check, so that a table of certificates is checked by a single
evaluation. -/
def lucasCheck (p a : ℕ) (fs : List ℕ) : Bool :=
  decide (2 ≤ p) && fs.prod == p - 1 && powMod p a (p - 1) == 1 &&
    fs.all fun q => powMod p a ((p - 1) / q) != 1

theorem prime_of_lucasCheck {p a : ℕ} {fs : List ℕ} (h : lucasCheck p a fs = true)
    (hfs : fs.Forall Nat.Prime) : p.Prime := by
  simp only [lucasCheck, Bool.and_eq_true, decide_eq_true_eq, beq_iff_eq, List.all_eq_true,
    bne_iff_ne, ne_eq] at h
  obtain ⟨⟨⟨hp, hprod⟩, hfull⟩, hpart⟩ := h
  exact prime_of_lucas a fs hfs hprod hp hfull (List.forall_iff_forall_mem.mpr hpart)

/-! ## Barrett's quotient -/

/-- **Barrett's estimate.**  With `μ = ⌊B W / p⌋`, the estimate `q = ⌊⌊m / B⌋ μ / W⌋` of
`m / p` never exceeds it, and falls short of `m` by less than `2 p + B`, for every `m` with
`m / B < W`. -/
theorem barrett_quotient {p B W m : ℕ} (hp : 0 < p) (hB : 0 < B) (hW : 0 < W) (hm : m / B < W) :
    m / B * (B * W / p) / W * p ≤ m ∧ m < m / B * (B * W / p) / W * p + (2 * p + B) := by
  obtain ⟨q1, r, hq1, hr, e3⟩ : ∃ q1 r, q1 = m / B ∧ r = m % B ∧ m = q1 * B + r :=
    ⟨_, _, rfl, rfl, by rw [Nat.mul_comm]; exact (Nat.div_add_mod m B).symm⟩
  obtain ⟨mu, s, hmu, hs, e1⟩ : ∃ mu s, mu = B * W / p ∧ s = B * W % p ∧ B * W = mu * p + s :=
    ⟨_, _, rfl, rfl, by rw [Nat.mul_comm (B * W / p)]; exact (Nat.div_add_mod _ p).symm⟩
  obtain ⟨q, t, hq, ht, e2⟩ : ∃ q t, q = q1 * mu / W ∧ t = q1 * mu % W ∧ q1 * mu = q * W + t :=
    ⟨_, _, rfl, rfl, by rw [Nat.mul_comm (q1 * mu / W)]; exact (Nat.div_add_mod _ W).symm⟩
  rw [← hq1, ← hmu, ← hq]
  -- `W m` is `W q p` plus three remainders, each weighted below `W p` or `W B`
  have key : W * m = W * (q * p) + (q1 * s + t * p + W * r) :=
    calc W * m = q1 * (B * W) + W * r := by rw [e3]; ring
      _ = q1 * mu * p + q1 * s + W * r := by rw [e1]; ring
      _ = W * (q * p) + (q1 * s + t * p + W * r) := by rw [e2]; ring
  have h1 : q1 * s < W * p := Nat.mul_lt_mul'' (hq1 ▸ hm) (hs ▸ Nat.mod_lt _ hp)
  have h2 : t * p < W * p := Nat.mul_lt_mul_of_pos_right (ht ▸ Nat.mod_lt _ hW) hp
  have h3 : W * r < W * B := Nat.mul_lt_mul_of_pos_left (hr ▸ Nat.mod_lt _ hB) hW
  constructor
  · exact Nat.le_of_mul_le_mul_left (by omega) hW
  · refine Nat.lt_of_mul_lt_mul_left (a := W) ?_
    have h2p : W * (q * p + (2 * p + B)) = W * (q * p) + 2 * (W * p) + W * B := by ring
    omega

/-! ## Reduced representatives -/

/-- `v` is the reduced representative of `z : ZMod p`. -/
def Represents (p v : ℕ) (z : ZMod p) : Prop := v < p ∧ (v : ZMod p) = z

namespace Represents

variable {p v w : ℕ} {z y : ZMod p}

theorem natCast (hv : v < p) : Represents p v v := ⟨hv, rfl⟩

theorem congr (h : Represents p v z) (hz : z = y) : Represents p v y := hz ▸ h

theorem val_eq (h : Represents p v z) : z.val = v := by
  rw [← h.2, ZMod.val_natCast, Nat.mod_eq_of_lt h.1]

/-- Representatives are equal exactly when the residues are. -/
theorem eq_iff (h : Represents p v z) (h' : Represents p w y) : v = w ↔ z = y := by
  constructor
  · rintro rfl
    rw [← h.2, ← h'.2]
  · intro hzy
    rw [← h.val_eq, ← h'.val_eq, hzy]

/-- A nonzero representative stands for a nonzero residue. -/
theorem ne_zero (h : Represents p v z) (hv : v ≠ 0) : z ≠ 0 := by
  rw [← h.2, Ne, ZMod.natCast_eq_zero_iff]
  exact Nat.not_dvd_of_pos_of_lt (Nat.pos_of_ne_zero hv) h.1

end Represents

/-- The remainder represents the number. -/
theorem represents_mod {p : ℕ} (hp : 0 < p) (v : ℕ) : Represents p (v % p) v :=
  ⟨Nat.mod_lt v hp, ZMod.natCast_mod v p⟩

/-- Adding multiples of `p` does not change the residue. -/
theorem cast_eq_of_add_mul {p r v k j : ℕ} (h : r + k * p = v + j * p) : (r : ZMod p) = v := by
  have h' := congrArg (fun n : ℕ => (n : ZMod p)) h
  simpa only [Nat.cast_add, Nat.cast_mul, ZMod.natCast_self, mul_zero, add_zero] using h'

end ModArith
