/-
# Windowed multiplication by a byte string

A point multiplied by a scalar given as bytes, least significant first, four bits at a time.
A table of sixteen entries is built from its first two by doublings and additions; a running
value then takes, for each window from the most significant down, a step that folds in a table
entry, and the last window an addition.  The operations are parameters, so that one
definition serves the limbs the code computes with and the field they stand for.

The rule of the section `Simulation`: a relation that the operations keep holds between the
tables built from related points, and between the products over related tables.
-/
import Mathlib.Data.List.Forall2

namespace Window

variable {A B : Type}

/-- The table: entries `0` and `1` given, and for `i = 2, 4, ..., 14`, entry `i` the double of
entry `i / 2` and entry `i + 1` entry `i` plus the point. -/
def table (zero : A) (dbl : A → A) (add : A → A → A) (p : A) : List A :=
  (List.range 7).foldl (fun pre k =>
    let d := dbl (pre.getD (k + 1) zero)
    pre ++ [d, add d p]) [zero, p]

/-- The product: the bytes from the most significant down, zero bytes at the top skipped, two
windows of `step` for each byte but the lowest, whose low window is an `add`. -/
def mult (zero : A) (add step : A → A → A) (pre : List A) (u8 : List ℕ) : A :=
  let r := (((u8.drop 1).reverse).dropWhile fun byte => decide (byte = 0)).foldl
    (fun r byte => step (step r (pre.getD (byte / 16) zero)) (pre.getD (byte % 16) zero)) zero
  let byte0 := u8.headD 0
  add (step r (pre.getD (byte0 / 16) zero)) (pre.getD (byte0 % 16) zero)

section Simulation

variable (R : A → B → Prop) {zeroA : A} {zeroB : B}

/-- Entries of related tables are related, the defaults past their ends too. -/
theorem getD_rel (hz : R zeroA zeroB) :
    ∀ {l : List A} {l' : List B}, List.Forall₂ R l l' → ∀ i, R (l.getD i zeroA) (l'.getD i zeroB)
  | _, _, .nil, _ => hz
  | _, _, .cons h _, 0 => h
  | _, _, .cons _ hl, i + 1 => getD_rel hz hl i

variable {dblA : A → A} {dblB : B → B} {addA : A → A → A} {addB : B → B → B}

theorem table_rel (hz : R zeroA zeroB) (hdbl : ∀ a b, R a b → R (dblA a) (dblB b))
    (hadd : ∀ a b c d, R a b → R c d → R (addA a c) (addB b d)) {p : A} {q : B} (hpq : R p q) :
    List.Forall₂ R (table zeroA dblA addA p) (table zeroB dblB addB q) := by
  unfold table
  -- the two loops run over the same rounds, the tables related after each
  refine List.rel_foldl (fun pre pre' hpre k k' hk => ?_) (.cons hz (.cons hpq .nil))
    (@List.forall₂_refl _ Eq _ (List.range 7))
  subst hk
  have hd : R (dblA (pre.getD (k + 1) zeroA)) (dblB (pre'.getD (k + 1) zeroB)) :=
    hdbl _ _ (getD_rel R hz hpre (k + 1))
  exact List.rel_append hpre (.cons hd (.cons (hadd _ _ _ _ hd hpq) .nil))

variable {stepA : A → A → A} {stepB : B → B → B}

theorem mult_rel (hz : R zeroA zeroB)
    (hadd : ∀ a b c d, R a b → R c d → R (addA a c) (addB b d))
    (hstep : ∀ a b c d, R a b → R c d → R (stepA a c) (stepB b d)) {pre : List A}
    {pre' : List B} (hpre : List.Forall₂ R pre pre') (u8 : List ℕ) :
    R (mult zeroA addA stepA pre u8) (mult zeroB addB stepB pre' u8) := by
  have he : ∀ i, R (pre.getD i zeroA) (pre'.getD i zeroB) := getD_rel R hz hpre
  unfold mult
  -- the running values of the two products are related after each byte
  have hr : R ((((u8.drop 1).reverse).dropWhile fun byte => decide (byte = 0)).foldl
        (fun r byte => stepA (stepA r (pre.getD (byte / 16) zeroA)) (pre.getD (byte % 16) zeroA))
        zeroA)
      ((((u8.drop 1).reverse).dropWhile fun byte => decide (byte = 0)).foldl
        (fun r byte => stepB (stepB r (pre'.getD (byte / 16) zeroB)) (pre'.getD (byte % 16) zeroB))
        zeroB) := by
    refine List.rel_foldl (fun r r' hr byte byte' hb => ?_) hz (@List.forall₂_refl _ Eq _ _)
    subst hb
    exact hstep _ _ _ _ (hstep _ _ _ _ hr (he _)) (he _)
  exact hadd _ _ _ _ (hstep _ _ _ _ hr (he _)) (he _)

end Simulation

end Window
