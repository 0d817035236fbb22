/-
# Points of ed25519: `curve25519::CEdwards25519`

`src/crypto/curve25519/ed25519.cpp`.  A point is four field elements `fX, fY, fZ, fT`, extended
coordinates of the twisted Edwards curve `-x^2 + y^2 = 1 + d x^2 y^2`: the affine point is
`(X / Z, Y / Z)`, and `T Z = X Y`.  `Add` and `Double` are the formulas `add-2008-hwcd-3` (with
`ecd2 = 2 d`) and `dbl-2008-hwcd`, written with the `CFP25519` operations as the code writes
them; `AddPrescalar` fuses an addition with four doublings that leave `fT` alone until the end.

`ScalarMult` multiplies by a little-endian byte string with 4-bit windows over the table of the
multiples `k P`, `k < 16`, that `CalcPrescalar` builds.  The table is a `mutable` member of the
point, kept between calls, and rebuilt only when it does not have sixteen entries or its entry
`1` has another `fX` or `fY` than the point.

The operations on limb values simulate the same formulas over `ZMod prime` (`CoordsF`,
`Coords.Rep`).  Over the field: an addition can change `fZ` and keep `fX` and `fY`, so the
check of the table misses the change, and `ScalarMult` then multiplies the point the table was
built for (`scalarMult_stale_prescalar`).
-/
import MetabaseNet.Fp25519Inverse
import Mathlib.Tactic.LinearCombination

namespace MetabaseNet.CEdwards25519

open ModArith (Represents)
open CFP25519 (prime mul sub neg square)

/-! ## Constants and points -/

/-- `ecd2`, `2 d` for `d = -121665/121666`, from its 32 bytes read little-endian. -/
def ecd2 : ℕ :=
  CFP25519.ofBytes 0x2406d9dc56dffce7198e80f2eef3d13000e0149a8283b156ebd69b9426b2f159

/-- The coordinates of a `CEdwards25519`: `fX`, `fY`, `fZ`, `fT`. -/
@[ext]
structure Coords where
  fX : ℕ
  fY : ℕ
  fZ : ℕ
  fT : ℕ

namespace Coords

/-- `CEdwards25519()`: the neutral point `(0, 1, 1, 0)`. -/
def zero : Coords := ⟨0, 1, 1, 0⟩

/-- `FromP1P1(x, y, z, t)`. -/
def fromP1P1 (x y z t : ℕ) : Coords := ⟨mul x t, mul y z, mul z t, mul x y⟩

/-- The values that `Add(q)` passes to `FromP1P1`: `b - a`, `b + a`, `d + c`, `d - c`. -/
def addP1 (p q : Coords) : ℕ × ℕ × ℕ × ℕ :=
  let a := mul (sub p.fY p.fX) (sub q.fY q.fX)
  let b := mul (CFP25519.add p.fY p.fX) (CFP25519.add q.fY q.fX)
  let c := mul (mul p.fT q.fT) ecd2
  let d := mul p.fZ q.fZ
  let d := CFP25519.add d d
  (sub b a, CFP25519.add b a, CFP25519.add d c, sub d c)

/-- `Add(q)`. -/
def add (p q : Coords) : Coords :=
  let (x, y, z, t) := addP1 p q
  fromP1P1 x y z t

/-- The values that `Double()` passes to `FromP1P1`, which the loop of `AddPrescalar` also
computes: `e - a - b`, `d - b`, `g`, `g - c`. -/
def doubleP1 (p : Coords) : ℕ × ℕ × ℕ × ℕ :=
  let a := square p.fX
  let b := square p.fY
  let c := square p.fZ
  let c := CFP25519.add c c
  let d := neg a
  let e := square (CFP25519.add p.fX p.fY)
  let g := CFP25519.add d b
  (sub (sub e a) b, sub d b, g, sub g c)

/-- `Double()`. -/
def double (p : Coords) : Coords :=
  let (x, y, z, t) := doubleP1 p
  fromP1P1 x y z t

/-- One doubling of the loop of `AddPrescalar`: `fX`, `fY`, `fZ` replaced, `fT` left, and the
`x`, `y` of the doubling kept. -/
def prescalarDouble (s : Coords × ℕ × ℕ) : Coords × ℕ × ℕ :=
  let (x, y, z, t) := doubleP1 s.1
  (⟨mul x t, mul y z, mul z t, s.1.fT⟩, x, y)

/-- `AddPrescalar(q)`: the inlined `Add` with `fT` left as it was, four inlined doublings, and
`fT = x * y` of the last doubling. -/
def addPrescalar (r q : Coords) : Coords :=
  let (x, y, z, t) := addP1 r q
  let s := (List.range 4).foldl (fun s _ => prescalarDouble s)
    (⟨mul x t, mul y z, mul z t, r.fT⟩, x, y)
  { s.1 with fT := mul s.2.1 s.2.2 }

/-- `operator==`: `fX * q.fZ == q.fX * fZ && fY * q.fZ == q.fY * fZ`. -/
def equal (p q : Coords) : Prop := mul p.fX q.fZ = mul q.fX p.fZ ∧ mul p.fY q.fZ = mul q.fY p.fZ

instance (p q : Coords) : Decidable (equal p q) := inferInstanceAs (Decidable (_ ∧ _))

/-- `CalcPrescalar()`: `pre[0]` the neutral point, `pre[1]` the point, and for
`i = 2, 4, ..., 14`, `pre[i]` the double of `pre[i >> 1]` and `pre[i + 1] = pre[i] + P`. -/
def calcPrescalar (p : Coords) : List Coords :=
  (List.range 7).foldl (fun pre k =>
    let d := double (pre.getD (k + 1) zero)
    pre ++ [d, add d p]) [zero, p]

/-- The plain multiple that the windowed product should agree with: `n` additions of `p` to
the neutral point, with `Add` alone. -/
def plainMult (p : Coords) : ℕ → Coords
  | 0 => zero
  | n + 1 => add (plainMult p n) p

end Coords

open Coords

/-- A `CEdwards25519`: its coordinates and its `mutable` table `preScalar`. -/
structure Point where
  coords : Coords
  preScalar : List Coords

/-- `CEdwards25519(x, y, z, t)`. -/
def Point.mk4 (x y z t : ℕ) : Point := ⟨⟨x, y, z, t⟩, []⟩

/-- `CEdwards25519(x, y)`, with `fZ = 1`, `fT = x * y`, and no table. -/
def Point.mk2 (x y : ℕ) : Point := ⟨⟨x, y, 1, mul x y⟩, []⟩

/-- The `x` of the base point, `_base_x` read little-endian. -/
def baseX : ℕ :=
  CFP25519.ofBytes 0x216936d3cd6e53fec0a4e231fdd6dc5c692cc7609525a7b2c9562d608f25d51a

/-- The `y` of the base point, `_base_y` read little-endian. -/
def baseY : ℕ :=
  CFP25519.ofBytes 0x6666666666666666666666666666666666666666666666666666666666666658

/-- The static `base`: `CEdwards25519(_base_x, _base_y, true)`, whose table is built
at construction. -/
def base : Point :=
  let c : Coords := ⟨baseX, baseY, 1, mul baseX baseY⟩
  ⟨c, calcPrescalar c⟩

/-- `operator+=`: `Add(q)` on the coordinates; the table is left as it is. -/
def Point.addAssign (P Q : Point) : Point := { P with coords := add P.coords Q.coords }

/-- The table `ScalarMult` works with: the one kept, unless it does not have sixteen entries or
its entry `1` has another `fX` or `fY` than the point, when `CalcPrescalar()` rebuilds it. -/
def Point.prescalar (P : Point) : List Coords :=
  if P.preScalar.length ≠ 16 ∨ (P.preScalar.getD 1 zero).fX ≠ P.coords.fX ∨
      (P.preScalar.getD 1 zero).fY ≠ P.coords.fY then calcPrescalar P.coords
  else P.preScalar

/-- `ScalarMult(u8, size)` with `size` the length of `u8`: the zero bytes at the top skipped,
the bytes from the top down to `u8[1]` each two windows of `AddPrescalar`, and `u8[0]` a window
of `AddPrescalar` and an `Add`.  The point after the call keeps the table. -/
def Point.scalarMult (P : Point) (u8 : List ℕ) : Coords × Point :=
  let pre := P.prescalar
  let r := (((u8.drop 1).reverse).dropWhile fun byte => decide (byte = 0)).foldl
    (fun r byte => addPrescalar (addPrescalar r (pre.getD (byte / 16) zero))
      (pre.getD (byte % 16) zero)) zero
  let byte0 := u8.headD 0
  (add (addPrescalar r (pre.getD (byte0 / 16) zero)) (pre.getD (byte0 % 16) zero),
    { P with preScalar := pre })

/-! ## Over the field -/

/-- A point over the field, in extended coordinates. -/
@[ext]
structure CoordsF where
  X : ZMod prime
  Y : ZMod prime
  Z : ZMod prime
  T : ZMod prime

namespace CoordsF

def zero : CoordsF := ⟨0, 1, 1, 0⟩

def fromP1P1 (x y z t : ZMod prime) : CoordsF := ⟨x * t, y * z, z * t, x * y⟩

/-- `add-2008-hwcd-3` over the field, as `Add` computes it. -/
def add (p q : CoordsF) : CoordsF :=
  let a := (p.Y - p.X) * (q.Y - q.X)
  let b := (p.Y + p.X) * (q.Y + q.X)
  let c := p.T * q.T * (ecd2 : ZMod prime)
  let d := p.Z * q.Z + p.Z * q.Z
  fromP1P1 (b - a) (b + a) (d + c) (d - c)

/-- `dbl-2008-hwcd` over the field, as `Double` computes it. -/
def double (p : CoordsF) : CoordsF :=
  let a := p.X ^ 2
  let b := p.Y ^ 2
  let c := p.Z ^ 2 + p.Z ^ 2
  let d := -a
  let e := (p.X + p.Y) ^ 2
  let g := d + b
  fromP1P1 (e - a - b) (d - b) g (g - c)

/-- Projective equality, the relation `operator==` tests. -/
def Equiv (p q : CoordsF) : Prop := p.X * q.Z = q.X * p.Z ∧ p.Y * q.Z = q.Y * p.Z

end CoordsF

/-- `c` holds the reduced representatives of the coordinates of `P`. -/
structure Coords.Rep (c : Coords) (P : CoordsF) : Prop where
  x : Represents prime c.fX P.X
  y : Represents prime c.fY P.Y
  z : Represents prime c.fZ P.Z
  t : Represents prime c.fT P.T

theorem represents_zero : Represents prime 0 (0 : ZMod prime) :=
  (Represents.natCast CFP25519.prime_pos).congr Nat.cast_zero

theorem represents_one : Represents prime 1 (1 : ZMod prime) :=
  (Represents.natCast (by rw [CFP25519.prime_val]; omega)).congr Nat.cast_one

theorem ecd2_represents : Represents prime ecd2 (ecd2 : ZMod prime) :=
  Represents.natCast (CFP25519.reduce_represents _).1

theorem zero_rep : Coords.zero.Rep CoordsF.zero :=
  ⟨represents_zero, represents_one, represents_one, represents_zero⟩

theorem fromP1P1_rep {x y z t : ℕ} {X Y Z T : ZMod prime} (hx : Represents prime x X)
    (hy : Represents prime y Y) (hz : Represents prime z Z) (ht : Represents prime t T) :
    (fromP1P1 x y z t).Rep (CoordsF.fromP1P1 X Y Z T) :=
  ⟨CFP25519.mul_represents hx ht, CFP25519.mul_represents hy hz, CFP25519.mul_represents hz ht,
    CFP25519.mul_represents hx hy⟩

/-- **`Add` simulates the addition formula over the field.** -/
theorem add_rep {p q : Coords} {P Q : CoordsF} (hp : p.Rep P) (hq : q.Rep Q) :
    (add p q).Rep (P.add Q) := by
  have ha := CFP25519.mul_represents (CFP25519.sub_represents hp.y hp.x)
    (CFP25519.sub_represents hq.y hq.x)
  have hb := CFP25519.mul_represents (CFP25519.add_represents hp.y hp.x)
    (CFP25519.add_represents hq.y hq.x)
  have hc := CFP25519.mul_represents (CFP25519.mul_represents hp.t hq.t) ecd2_represents
  have hd := CFP25519.mul_represents hp.z hq.z
  exact fromP1P1_rep (CFP25519.sub_represents hb ha) (CFP25519.add_represents hb ha)
    (CFP25519.add_represents (CFP25519.add_represents hd hd) hc)
    (CFP25519.sub_represents (CFP25519.add_represents hd hd) hc)

/-- **`Double` simulates the doubling formula over the field.** -/
theorem double_rep {p : Coords} {P : CoordsF} (hp : p.Rep P) : (double p).Rep P.double := by
  have ha := CFP25519.square_represents hp.x
  have hb := CFP25519.square_represents hp.y
  have hc := CFP25519.square_represents hp.z
  have hd := CFP25519.neg_represents ha
  have he := CFP25519.square_represents (CFP25519.add_represents hp.x hp.y)
  have hg := CFP25519.add_represents hd hb
  exact fromP1P1_rep (CFP25519.sub_represents (CFP25519.sub_represents he ha) hb)
    (CFP25519.sub_represents hd hb) hg
    (CFP25519.sub_represents hg (CFP25519.add_represents hc hc))

theorem double_iterate_rep {p : Coords} {P : CoordsF} (hp : p.Rep P) (n : ℕ) :
    (double^[n] p).Rep (CoordsF.double^[n] P) := by
  induction n with
  | zero => exact hp
  | succ n ih =>
    rw [Function.iterate_succ_apply', Function.iterate_succ_apply']
    exact double_rep ih

/-- `operator==` on representatives is projective equality over the field. -/
theorem equal_iff {p q : Coords} {P Q : CoordsF} (hp : p.Rep P) (hq : q.Rep Q) :
    equal p q ↔ P.Equiv Q := by
  unfold equal CoordsF.Equiv
  rw [(CFP25519.mul_represents hp.x hq.z).eq_iff (CFP25519.mul_represents hq.x hp.z),
    (CFP25519.mul_represents hp.y hq.z).eq_iff (CFP25519.mul_represents hq.y hp.z)]

/-! ## `AddPrescalar` is four doublings of `Add` -/

/-- The state of the loop of `AddPrescalar` stands for the point `c`: it has the `fX`, `fY`,
`fZ` of `c`, and the kept `x`, `y` give the `fT` of `c`. -/
def Agrees (s : Coords × ℕ × ℕ) (c : Coords) : Prop :=
  s.1.fX = c.fX ∧ s.1.fY = c.fY ∧ s.1.fZ = c.fZ ∧ mul s.2.1 s.2.2 = c.fT

/-- A doubling does not read `fT`. -/
theorem doubleP1_congr {p q : Coords} (hx : p.fX = q.fX) (hy : p.fY = q.fY) (hz : p.fZ = q.fZ) :
    doubleP1 p = doubleP1 q := by
  unfold doubleP1
  rw [hx, hy, hz]

theorem Agrees.prescalarDouble {s : Coords × ℕ × ℕ} {c : Coords} (h : Agrees s c) :
    Agrees (prescalarDouble s) (double c) := by
  obtain ⟨hx, hy, hz, -⟩ := h
  unfold Coords.prescalarDouble double
  rw [doubleP1_congr hx hy hz]
  obtain ⟨x, y, z, t⟩ := doubleP1 c
  exact ⟨rfl, rfl, rfl, rfl⟩

/-- The loop of `AddPrescalar`, `n` doublings with `fT` left stale. -/
theorem Agrees.foldl {s : Coords × ℕ × ℕ} {c : Coords} (h : Agrees s c) (n : ℕ) :
    Agrees ((List.range n).foldl (fun s _ => Coords.prescalarDouble s) s) (double^[n] c) := by
  induction n with
  | zero => exact h
  | succ n ih =>
    rw [List.range_succ, List.foldl_append, List.foldl_cons, List.foldl_nil,
      Function.iterate_succ_apply']
    exact ih.prescalarDouble

/-- At the end of the loop, `fT = x * y` completes the point. -/
theorem Agrees.eq {s : Coords × ℕ × ℕ} {c : Coords} (h : Agrees s c) :
    { s.1 with fT := mul s.2.1 s.2.2 } = c :=
  Coords.ext h.1 h.2.1 h.2.2.1 h.2.2.2

/-- The fused `AddPrescalar(q)` computes `Double` four times after `Add(q)`, limb for limb. -/
theorem addPrescalar_eq (r q : Coords) : addPrescalar r q = double^[4] (add r q) := by
  unfold addPrescalar add
  obtain ⟨x, y, z, t⟩ := addP1 r q
  have h : Agrees ((⟨mul x t, mul y z, mul z t, r.fT⟩ : Coords), x, y) (fromP1P1 x y z t) :=
    ⟨rfl, rfl, rfl, rfl⟩
  exact (h.foldl 4).eq

theorem addPrescalar_rep {r q : Coords} {R Q : CoordsF} (hr : r.Rep R) (hq : q.Rep Q) :
    (addPrescalar r q).Rep (CoordsF.double^[4] (R.add Q)) := by
  rw [addPrescalar_eq]
  exact double_iterate_rep (add_rep hr hq) 4

/-! ## The table and one window -/

/-- `CalcPrescalar` keeps the neutral point and the point as entries `0` and `1`, and builds
sixteen entries. -/
theorem calcPrescalar_eq_cons (p : Coords) :
    ∃ rest, calcPrescalar p = zero :: p :: rest ∧ rest.length = 14 := by
  -- each round of the loop appends two entries behind the first two
  have hrun : ∀ n, ∃ rest, (List.range n).foldl (fun pre k =>
      let d := double (pre.getD (k + 1) zero)
      pre ++ [d, add d p]) [zero, p] = zero :: p :: rest ∧ rest.length = 2 * n := by
    intro n
    induction n with
    | zero => exact ⟨[], rfl, rfl⟩
    | succ n ih =>
      obtain ⟨rest, hrest, hlen⟩ := ih
      rw [List.range_succ, List.foldl_append, hrest, List.foldl_cons, List.foldl_nil]
      refine ⟨rest ++ _, rfl, ?_⟩
      simp only [List.length_append, hlen, List.length_cons, List.length_nil]
      omega
  exact hrun 7

/-- Without sixteen entries, the table is rebuilt. -/
theorem Point.prescalar_of_length {P : Point} (h : P.preScalar.length ≠ 16) :
    P.prescalar = calcPrescalar P.coords :=
  if_pos (Or.inl h)

/-- With sixteen entries and an entry `1` of the point's `fX`, `fY`, the table is kept, whatever
its other coordinates and entries. -/
theorem Point.prescalar_of_cached {P : Point} (hlen : P.preScalar.length = 16)
    (hx : (P.preScalar.getD 1 zero).fX = P.coords.fX)
    (hy : (P.preScalar.getD 1 zero).fY = P.coords.fY) : P.prescalar = P.preScalar := by
  apply if_neg
  rintro (h | h | h)
  · exact h hlen
  · exact h hx
  · exact h hy

/-- A one-byte scalar: one window of `AddPrescalar` from the neutral point, and an `Add`. -/
theorem Point.scalarMult_singleton (P : Point) (b : ℕ) :
    (P.scalarMult [b]).1 =
      add (addPrescalar zero (P.prescalar.getD (b / 16) zero)) (P.prescalar.getD (b % 16) zero) :=
  rfl

/-! ## Over the field: the neutral class -/

namespace CoordsF

theorem add_zero_zero : zero.add zero = ⟨0, 4, 4, 0⟩ := by
  ext <;> simp only [add, fromP1P1, zero] <;> ring

/-- Doubling a point `(0, V, V, _)` of the neutral class. -/
theorem double_neutral (V T : ZMod prime) : double ⟨0, V, V, T⟩ = ⟨0, -V ^ 4, -V ^ 4, 0⟩ := by
  ext <;> simp only [double, fromP1P1] <;> ring

theorem double_iterate_neutral {V : ZMod prime} (hV : V ≠ 0) (n : ℕ) :
    ∃ W ≠ 0, double^[n] ⟨0, V, V, 0⟩ = ⟨0, W, W, 0⟩ := by
  induction n with
  | zero => exact ⟨V, hV, rfl⟩
  | succ n ih =>
    obtain ⟨W, hW, hn⟩ := ih
    rw [Function.iterate_succ_apply', hn, double_neutral]
    exact ⟨-W ^ 4, neg_ne_zero.mpr (pow_ne_zero 4 hW), rfl⟩

/-- Adding `(0, V, V, 0)` scales the coordinates of the point by `4 V^2 Z`. -/
theorem add_neutral (V : ZMod prime) (P : CoordsF) :
    add ⟨0, V, V, 0⟩ P = ⟨4 * V ^ 2 * (P.X * P.Z), 4 * V ^ 2 * (P.Y * P.Z),
      4 * V ^ 2 * (P.Z * P.Z), 4 * V ^ 2 * (P.X * P.Y)⟩ := by
  ext <;> simp only [add, fromP1P1] <;> ring

theorem equiv_add_neutral (V : ZMod prime) (P : CoordsF) : (add ⟨0, V, V, 0⟩ P).Equiv P := by
  rw [add_neutral]
  constructor <;> ring

/-- Adding `(0, -1)`, the point of order two, negates the affine point:
`(X, Y, Z, T) ↦ (-4XZ, -4YZ, 4Z^2, 4XY)`. -/
theorem add_order_two (P : CoordsF) :
    P.add ⟨0, -1, 1, 0 * -1⟩ = ⟨-4 * P.X * P.Z, -4 * P.Y * P.Z, 4 * P.Z ^ 2, 4 * P.X * P.Y⟩ := by
  ext <;> simp only [add, fromP1P1] <;> ring

end CoordsF

/-! ## A table that outlives its point

`ScalarMult` checks the table against `fX` and `fY` only.  A point with `fZ = -1/4` is
`(X, Y, Z)`; adding `(0, -1)` gives `(-4XZ, -4YZ, 4Z^2) = (X, Y, -Z)`, the negated point, with
the same `fX` and `fY`, so the table of the point before the addition is used after it. -/

/-- The base point scaled by `Z = -1/4`: `fX = x Z`, `fY = y Z`, `fT = x y Z`. -/
def staleX : ℕ := 25169966971945198662767458399774844085453992993149676708352867680990820469424

def staleY : ℕ := 46316835694926478169428394003475163141307993866256225615783033603165251855959

def staleZ : ℕ := 14474011154664524427946373126085988481658748083205070504932198000989141204987

def staleT : ℕ := 31715182501287778472571065220688666053690192861083797770628052545583969339529

/-- The field point of the stale coordinates. -/
def staleF : CoordsF := ⟨staleX, staleY, staleZ, staleT⟩

theorem stale_rep : (Point.mk4 staleX staleY staleZ staleT).coords.Rep staleF := by
  refine ⟨Represents.natCast ?_, Represents.natCast ?_, Represents.natCast ?_,
    Represents.natCast ?_⟩ <;> rw [CFP25519.prime_val] <;> decide

theorem staleZ_quarter : 4 * staleF.Z = -1 := by
  show 4 * (staleZ : ZMod prime) = -1
  have h : ((4 * staleZ + 1 : ℕ) : ZMod prime) = 0 := by
    rw [show 4 * staleZ + 1 = prime by rw [CFP25519.prime_val]; decide, ZMod.natCast_self]
  push_cast at h
  linear_combination h

theorem order_two_rep : (Point.mk2 0 (neg 1)).coords.Rep ⟨0, -1, 1, 0 * -1⟩ :=
  ⟨represents_zero, CFP25519.neg_represents represents_one, represents_one,
    CFP25519.mul_represents represents_zero (CFP25519.neg_represents represents_one)⟩

theorem base_rep : base.coords.Rep ⟨baseX, baseY, 1, baseX * baseY⟩ := by
  have hx : Represents prime baseX baseX := Represents.natCast (CFP25519.reduce_represents _).1
  have hy : Represents prime baseY baseY := Represents.natCast (CFP25519.reduce_represents _).1
  exact ⟨hx, hy, represents_one, CFP25519.mul_represents hx hy⟩

theorem stale_equiv_base : staleF.Equiv ⟨baseX, baseY, 1, baseX * baseY⟩ := by
  have hx : (staleX : ZMod prime) = ((baseX * staleZ : ℕ) : ZMod prime) := by
    rw [ZMod.natCast_eq_natCast_iff', baseX, CFP25519.ofBytes_eq, CFP25519.prime_val]
    decide
  have hy : (staleY : ZMod prime) = ((baseY * staleZ : ℕ) : ZMod prime) := by
    rw [ZMod.natCast_eq_natCast_iff', baseY, CFP25519.ofBytes_eq, CFP25519.prime_val]
    decide
  push_cast at hx hy
  constructor
  · show (staleX : ZMod prime) * 1 = baseX * staleZ
    rw [hx, mul_one]
  · show (staleY : ZMod prime) * 1 = baseY * staleZ
    rw [hy, mul_one]

/-- `CEdwards25519(X, Y, Z, T)` for the stale coordinates, with no table. -/
def stalePoint : Point := Point.mk4 staleX staleY staleZ staleT

/-- `stalePoint` after `ScalarMult({1}, 1)`, which builds its table, and
`+= CEdwards25519(0, -1)`. -/
def staleNegated : Point := (stalePoint.scalarMult [1]).2.addAssign (Point.mk2 0 (neg 1))

/-- `staleNegated` is `stalePoint` plus the point of order two: `(-4XZ, -4YZ, 4Z^2, 4XY)`. -/
theorem staleNegated_rep : staleNegated.coords.Rep ⟨-4 * staleF.X * staleF.Z,
    -4 * staleF.Y * staleF.Z, 4 * staleF.Z ^ 2, 4 * staleF.X * staleF.Y⟩ := by
  have h := add_rep stale_rep order_two_rep
  rwa [CoordsF.add_order_two] at h

/-- With `4 Z = -1`, the negation has the same `fX` and `fY` as `stalePoint`. -/
theorem staleNegated_fX_fY : staleNegated.coords.fX = stalePoint.coords.fX ∧
    staleNegated.coords.fY = stalePoint.coords.fY := by
  have hP0 : stalePoint.coords.Rep staleF := stale_rep
  constructor
  · rw [staleNegated_rep.x.eq_iff hP0.x]
    show -4 * staleF.X * staleF.Z = staleF.X
    linear_combination (-staleF.X) * staleZ_quarter
  · rw [staleNegated_rep.y.eq_iff hP0.y]
    show -4 * staleF.Y * staleF.Z = staleF.Y
    linear_combination (-staleF.Y) * staleZ_quarter

/-- The table `staleNegated` keeps from `stalePoint` passes the check of its own call, so it is
the table used. -/
theorem staleNegated_prescalar : staleNegated.prescalar = calcPrescalar stalePoint.coords := by
  obtain ⟨rest, hpre, hlen⟩ := calcPrescalar_eq_cons stalePoint.coords
  have hkeep : staleNegated.preScalar = stalePoint.prescalar := rfl
  rw [Point.prescalar_of_length (show ([] : List Coords).length ≠ 16 by decide)] at hkeep
  have hlen16 : staleNegated.preScalar.length = 16 := by
    rw [hkeep, hpre, List.length_cons, List.length_cons, hlen]
  have hentry : staleNegated.preScalar.getD 1 zero = stalePoint.coords := by
    rw [hkeep, hpre]
    rfl
  rw [Point.prescalar_of_cached hlen16 (by rw [hentry, staleNegated_fX_fY.1])
    (by rw [hentry, staleNegated_fX_fY.2]), hkeep]

/-- `ScalarMult` after an `operator+=` that keeps `fX` and `fY`.  The base point with
`fZ = -1/4` is multiplied by `1`, which builds its table; adding `(0, -1)` moves it to its
negation with the same `fX` and `fY`; multiplied by `1` again, it gives the point before the
addition, not the point itself. -/
theorem scalarMult_stale_prescalar :
    equal stalePoint.coords base.coords ∧
      staleNegated.coords.fX = stalePoint.coords.fX ∧
      staleNegated.coords.fY = stalePoint.coords.fY ∧
      equal (staleNegated.scalarMult [1]).1 stalePoint.coords ∧
      ¬ equal (staleNegated.scalarMult [1]).1 (plainMult staleNegated.coords 1) := by
  have hP0 : stalePoint.coords.Rep staleF := stale_rep
  have hX : staleF.X ≠ 0 := stale_rep.x.ne_zero (by decide)
  have hZ : staleF.Z ≠ 0 := stale_rep.z.ne_zero (by decide)
  obtain ⟨rest, hpre, -⟩ := calcPrescalar_eq_cons stalePoint.coords
  -- the window from the neutral point is in the neutral class, and the `Add` gives `stalePoint`
  have h4 : (4 : ZMod prime) ≠ 0 := by
    rw [show (4 : ZMod prime) = 2 * 2 by norm_num]
    exact mul_ne_zero CFP25519.two_ne_zero_mod CFP25519.two_ne_zero_mod
  obtain ⟨W, hW, hWeq⟩ := CoordsF.double_iterate_neutral h4 4
  have hR : (staleNegated.scalarMult [1]).1.Rep (CoordsF.add ⟨0, W, W, 0⟩ staleF) := by
    rw [Point.scalarMult_singleton, staleNegated_prescalar, hpre, ← hWeq, ← CoordsF.add_zero_zero]
    exact add_rep (addPrescalar_rep zero_rep zero_rep) hP0
  have hQ : (plainMult staleNegated.coords 1).Rep
      (CoordsF.add ⟨0, 1, 1, 0⟩ ⟨-4 * staleF.X * staleF.Z, -4 * staleF.Y * staleF.Z,
        4 * staleF.Z ^ 2, 4 * staleF.X * staleF.Y⟩) :=
    add_rep zero_rep staleNegated_rep
  refine ⟨(equal_iff hP0 base_rep).mpr stale_equiv_base, staleNegated_fX_fY.1,
    staleNegated_fX_fY.2, (equal_iff hR hP0).mpr (CoordsF.equiv_add_neutral W staleF), ?_⟩
  -- the plain product is `staleNegated`, the negation of `stalePoint`: the `X` test fails as `2 X Z ≠ 0`
  rw [equal_iff hR hQ, CoordsF.add_neutral, CoordsF.add_neutral]
  rintro ⟨h, -⟩
  dsimp only at h
  have key : (2 : ZMod prime) ^ 9 * W ^ 2 * staleF.X * staleF.Z ^ 5 = 0 := by
    linear_combination h
  exact mul_ne_zero (mul_ne_zero (mul_ne_zero (pow_ne_zero 9 CFP25519.two_ne_zero_mod)
    (pow_ne_zero 2 hW)) hX) (pow_ne_zero 5 hZ) key

end MetabaseNet.CEdwards25519
