/-
# Divided differences, and Newton's and Lagrange's forms at zero

Over a field, nodes `x : ℕ → F` and values `y : ℕ → F`.  `interp x y a n` is the polynomial
of degree below `n` through the points `(x i, y i)` for `a ≤ i < a + n` (Mathlib's
`Lagrange.interpolate`), and the divided difference `divDiff x y a n = y[x a, …, x (a + n)]` is
its top coefficient.  The facts proved here are the ones a divided-difference table needs:

* `divDiff_zero` and `divDiff_succ`, the recurrence that fills the table row by row;
* `interp_succ`, Newton's step, and `interp_eval_zero_newton`, Newton's form at `0`;
* `interp_eval_zero_lagrange`, Lagrange's form at `0`;
* `interp_degree_lt`, `interp_eval` and `interp_unique`: `interp` is the unique polynomial of
  its degree through the points.
-/
import Mathlib.LinearAlgebra.Lagrange

namespace Interpolation

open Polynomial Finset

variable {F : Type*} [Field F] (x y : ℕ → F)

/-- The polynomial of degree below `n` through the points `(x i, y i)`, `a ≤ i < a + n`. -/
noncomputable def interp (a n : ℕ) : F[X] := Lagrange.interpolate (Ico a (a + n)) x y

/-- The divided difference `y[x a, …, x (a + n)]`: the coefficient of `X ^ n` in the polynomial
through the `n + 1` points from `a`. -/
noncomputable def divDiff (a n : ℕ) : F := (interp x y a (n + 1)).coeff n

variable {x y}

theorem interp_zero_left (n : ℕ) : interp x y 0 n = Lagrange.interpolate (range n) x y := by
  rw [interp, zero_add, range_eq_Ico]

theorem interp_degree_lt {a n : ℕ} (hx : Set.InjOn x (Ico a (a + n))) :
    (interp x y a n).degree < n := by
  have h := Lagrange.degree_interpolate_lt y hx
  rwa [Nat.card_Ico, Nat.add_sub_cancel_left] at h

/-! ## The recurrence -/

theorem divDiff_zero (a : ℕ) : divDiff x y a 0 = y a := by
  rw [divDiff, interp, Nat.Ico_succ_singleton, Lagrange.interpolate_singleton, coeff_C_zero]

/-- The top coefficient of `P * basisDivisor u w`, for `P` of degree at most `n`. -/
theorem coeff_mul_basisDivisor {P : F[X]} {n : ℕ} (hP : P.degree < (n + 1 : ℕ)) (u w : F) :
    (P * Lagrange.basisDivisor u w).coeff (n + 1) = (u - w)⁻¹ * P.coeff n := by
  rw [Lagrange.basisDivisor, mul_left_comm, coeff_C_mul, mul_sub, coeff_sub, coeff_mul_X,
    coeff_mul_C, coeff_eq_zero_of_degree_lt hP, zero_mul, sub_zero]

/-- **The divided-difference recurrence**
`y[x a, …, x (a + n + 1)] = (y[x (a + 1), …, x (a + n + 1)] - y[x a, …, x (a + n)]) /
(x (a + n + 1) - x a)`, from splitting the polynomial through `n + 2` points along its two
end nodes (`Lagrange.interpolate_eq_add_interpolate_erase`). -/
theorem divDiff_succ {a n : ℕ} (hx : Set.InjOn x (Ico a (a + (n + 2)))) :
    divDiff x y a (n + 1) =
      (divDiff x y (a + 1) n - divDiff x y a n) / (x (a + n + 1) - x a) := by
  have hi : a ∈ Ico a (a + (n + 2)) := by simp
  have hj : a + n + 1 ∈ Ico a (a + (n + 2)) := by simp; omega
  have hne : x (a + n + 1) ≠ x a := fun h => by
    have := hx hj hi h
    omega
  have h := Lagrange.interpolate_eq_add_interpolate_erase y hx hi hj (by omega)
  -- erasing an end node leaves the polynomial through the other `n + 1` nodes
  have hleft : (Ico a (a + (n + 2))).erase (a + n + 1) = Ico a (a + (n + 1)) := by
    ext k; simp; omega
  have hright : (Ico a (a + (n + 2))).erase a = Ico (a + 1) (a + 1 + (n + 1)) := by
    ext k; simp; omega
  have hsubl : Ico a (a + (n + 1)) ⊆ Ico a (a + (n + 2)) := Ico_subset_Ico_right (by omega)
  have hsubr : Ico (a + 1) (a + 1 + (n + 1)) ⊆ Ico a (a + (n + 2)) :=
    Ico_subset_Ico (by omega) (by omega)
  rw [hleft, hright] at h
  have h' : interp x y a (n + 1 + 1) =
      interp x y a (n + 1) * Lagrange.basisDivisor (x a) (x (a + n + 1)) +
        interp x y (a + 1) (n + 1) * Lagrange.basisDivisor (x (a + n + 1)) (x a) := h
  rw [divDiff, h', coeff_add,
    coeff_mul_basisDivisor (interp_degree_lt (hx.mono (coe_subset.mpr hsubl))),
    coeff_mul_basisDivisor (interp_degree_lt (hx.mono (coe_subset.mpr hsubr))), divDiff, divDiff,
    div_eq_mul_inv, ← neg_sub (x (a + n + 1)) (x a), inv_neg]
  ring

/-- The recurrence as a row of the table uses it: entry `j + 1` of row `i` from entry `j` of
rows `i` and `i - 1`. -/
theorem divDiff_succ_row {i j : ℕ} (hj : j < i) (hx : Set.InjOn x (range (i + 1))) :
    divDiff x y (i - (j + 1)) (j + 1) =
      (divDiff x y (i - j) j - divDiff x y (i - (j + 1)) j) * (x i - x (i - (j + 1)))⁻¹ := by
  have hsub : Ico (i - (j + 1)) (i - (j + 1) + (j + 2)) ⊆ range (i + 1) := by
    intro k hk
    simp only [mem_Ico, mem_range] at hk ⊢
    omega
  rw [divDiff_succ (hx.mono (coe_subset.mpr hsub)), div_eq_mul_inv,
    show i - (j + 1) + 1 = i - j by omega, show i - (j + 1) + j + 1 = i by omega]

/-! ## Newton's form -/

/-- **Newton's step.**  The polynomial through the first `n + 1` points is the one through the
first `n`, plus the next divided difference times the nodal polynomial of the first `n`
nodes. -/
theorem interp_succ {n : ℕ} (hx : Set.InjOn x (range (n + 1))) :
    interp x y 0 (n + 1) = interp x y 0 n + C (divDiff x y 0 n) * Lagrange.nodal (range n) x := by
  have hxn : Set.InjOn x (range n) := hx.mono (coe_subset.mpr (range_subset_range.mpr (by omega)))
  have hdeg1 := interp_degree_lt (y := y) (a := 0) (n := n + 1) (by rwa [zero_add, ← range_eq_Ico])
  have hdeg0 := interp_degree_lt (y := y) (a := 0) (n := n) (by rwa [zero_add, ← range_eq_Ico])
  have hnodal : (Lagrange.nodal (range n) x).natDegree = n := by
    rw [Lagrange.natDegree_nodal, card_range]
  have htop : (Lagrange.nodal (range n) x).coeff n = 1 := by
    have h := (Lagrange.nodal_monic (s := range n) (v := x)).coeff_natDegree
    rwa [hnodal] at h
  rw [← sub_eq_iff_eq_add', ← sub_eq_zero]
  -- the difference has degree below `n` and vanishes at the first `n` nodes
  refine eq_zero_of_degree_lt_of_eval_index_eq_zero (range n) hxn ?_ ?_
  · rw [card_range, degree_lt_iff_coeff_zero]
    intro m hm
    rw [coeff_sub, coeff_sub, coeff_C_mul, coeff_eq_zero_of_degree_lt (lt_of_lt_of_le hdeg0
      (by exact_mod_cast hm))]
    rcases Nat.eq_or_lt_of_le hm with rfl | hlt
    · rw [htop, divDiff]
      ring
    · rw [coeff_eq_zero_of_degree_lt (lt_of_lt_of_le hdeg1 (by exact_mod_cast hlt)),
        coeff_eq_zero_of_natDegree_lt (by rw [hnodal]; exact hlt)]
      ring
  · intro i hi
    have hi' : i ∈ range (n + 1) := mem_range.mpr (Nat.lt_succ_of_lt (mem_range.mp hi))
    rw [eval_sub, eval_sub, eval_mul, Lagrange.eval_nodal_at_node hi, interp_zero_left,
      interp_zero_left, Lagrange.eval_interpolate_at_node y hx hi',
      Lagrange.eval_interpolate_at_node y hxn hi]
    ring

/-- **Newton's form at zero**: the divided differences `y[x 0, …, x i]` weighted by
`∏ k < i, (0 - x k)`. -/
theorem interp_eval_zero_newton :
    ∀ {n : ℕ}, Set.InjOn x (range n) →
      (interp x y 0 n).eval 0 = ∑ i ∈ range n, divDiff x y 0 i * ∏ k ∈ range i, (0 - x k)
  | 0, _ => by rw [interp_zero_left, range_zero, Lagrange.interpolate_empty, eval_zero, sum_empty]
  | n + 1, hx => by
    have hxn : Set.InjOn x (range n) := hx.mono (coe_subset.mpr (range_subset_range.mpr (by omega)))
    rw [interp_succ hx, eval_add, interp_eval_zero_newton hxn, sum_range_succ, eval_mul, eval_C,
      Lagrange.eval_nodal]

/-! ## Lagrange's form and uniqueness -/

/-- **Lagrange's form at zero**: each value weighted by `∏ j ≠ i, x j / (x j - x i)`. -/
theorem interp_eval_zero_lagrange (n : ℕ) :
    (interp x y 0 n).eval 0 = ∑ i ∈ range n, y i * ∏ j ∈ (range n).erase i, x j / (x j - x i) := by
  rw [interp_zero_left, Lagrange.interpolate_apply, eval_finsetSum]
  refine sum_congr rfl fun i _ => ?_
  rw [eval_mul, eval_C, Lagrange.basis, eval_prod]
  congr 1
  refine prod_congr rfl fun j _ => ?_
  rw [Lagrange.basisDivisor, eval_mul, eval_C, eval_sub, eval_X, eval_C, ← neg_sub (x j) (x i),
    inv_neg, div_eq_mul_inv]
  ring

theorem interp_eval {n i : ℕ} (hx : Set.InjOn x (range n)) (hi : i < n) :
    (interp x y 0 n).eval (x i) = y i := by
  rw [interp_zero_left, Lagrange.eval_interpolate_at_node y hx (mem_range.mpr hi)]

/-- The polynomial through the points is the only one of its degree. -/
theorem interp_unique {n : ℕ} (hx : Set.InjOn x (range n)) {Q : F[X]} (hQ : Q.degree < n)
    (hQx : ∀ i < n, Q.eval (x i) = y i) : Q = interp x y 0 n := by
  rw [interp_zero_left]
  exact Lagrange.eq_interpolate_of_eval_eq y hx (by rwa [card_range])
    fun i hi => hQx i (mem_range.mp hi)

end Interpolation
