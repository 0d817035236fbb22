/-
# Numbers as limbs, and the schoolbook product

A number below `W ^ n` is the base-`W` evaluation of its `n` limbs.  Multiplying two such
numbers limb by limb, each product of two limbs split into its low half (below `W`) and its
high half, and each column collecting the low halves of its position and the high halves of the
position below, gives numbers whose base-`W` evaluation over `2 n` positions is the product
(`sum_column`).  The columns are not reduced below `W`: the carries between them are left to
the caller, and `column_lt` bounds them.
-/
import Mathlib.Algebra.BigOperators.Ring.Finset
import Mathlib.Algebra.Order.BigOperators.Group.Finset
import Mathlib.Tactic.Ring

namespace Limbs

open Finset

/-- Column `t` of the schoolbook product of the `n`-limb numbers with limbs `x` and `y` in base
`W`: the low halves of the limb products at position `t`, and the high halves of those at
position `t - 1`. -/
def column (W n : ℕ) (x y : ℕ → ℕ) (t : ℕ) : ℕ :=
  ∑ i ∈ range n, ∑ j ∈ range n,
    ((if i + j = t then x i * y j % W else 0) + (if i + j + 1 = t then x i * y j / W else 0))

/-- The product of two limbs at its place, as its low half at position `i + j` and its high
half one position up: the only positions of `2 n` where the limbs `i` and `j` contribute. -/
theorem sum_place {W n i j : ℕ} (hi : i < n) (hj : j < n) (c : ℕ) :
    ∑ t ∈ range (2 * n), ((if i + j = t then c % W else 0) + (if i + j + 1 = t then c / W else 0))
      * W ^ t = c * W ^ (i + j) := by
  simp only [add_mul, ite_mul, zero_mul, sum_add_distrib, sum_ite_eq, mem_range]
  rw [if_pos (by omega), if_pos (by omega), pow_succ]
  -- `c = c % W + W (c / W)`
  conv_rhs => rw [← Nat.mod_add_div c W]
  ring

/-- **The schoolbook product.**  The columns, evaluated in base `W`, are the product. -/
theorem sum_column (W n : ℕ) (x y : ℕ → ℕ) :
    ∑ t ∈ range (2 * n), column W n x y t * W ^ t =
      (∑ i ∈ range n, x i * W ^ i) * ∑ j ∈ range n, y j * W ^ j :=
  calc ∑ t ∈ range (2 * n), column W n x y t * W ^ t
      = ∑ i ∈ range n, ∑ j ∈ range n, ∑ t ∈ range (2 * n),
          ((if i + j = t then x i * y j % W else 0) +
            (if i + j + 1 = t then x i * y j / W else 0)) * W ^ t := by
        simp only [column, sum_mul]
        rw [sum_comm]
        exact sum_congr rfl fun i _ => sum_comm
    _ = ∑ i ∈ range n, ∑ j ∈ range n, x i * y j * W ^ (i + j) :=
        sum_congr rfl fun i hi => sum_congr rfl fun j hj =>
          sum_place (mem_range.mp hi) (mem_range.mp hj) _
    _ = (∑ i ∈ range n, x i * W ^ i) * ∑ j ∈ range n, y j * W ^ j := by
        rw [sum_mul_sum]
        exact sum_congr rfl fun i _ => sum_congr rfl fun j _ => by ring

/-- With limbs below `W`, a column is below `2 n² W`: each of the `n²` limb products adds at
most a low half and a high half, each below `W`. -/
theorem column_lt {W n : ℕ} {x y : ℕ → ℕ} (hx : ∀ i, x i < W) (hy : ∀ j, y j < W) (t : ℕ) :
    column W n x y t ≤ n * n * (2 * W) := by
  have hW : 0 < W := lt_of_le_of_lt (Nat.zero_le _) (hx 0)
  have hterm : ∀ i j, (if i + j = t then x i * y j % W else 0) +
      (if i + j + 1 = t then x i * y j / W else 0) ≤ 2 * W := by
    intro i j
    have hlo : x i * y j % W < W := Nat.mod_lt _ hW
    have hhi : x i * y j / W < W :=
      Nat.div_lt_of_lt_mul (Nat.mul_lt_mul'' (hx i) (hy j))
    split_ifs <;> omega
  calc column W n x y t
      ≤ ∑ _i ∈ range n, ∑ _j ∈ range n, 2 * W :=
        sum_le_sum fun i _ => sum_le_sum fun j _ => hterm i j
    _ = n * n * (2 * W) := by simp [mul_assoc]

end Limbs
