/-
# Bits in a byte vector

A vector of bytes read as an array of bits, bit `i` being bit `i % 8` of byte `i / 8`: the
addressing of `b[i / 8] & (1 << (i % 8))` and `b[i / 8] |= 1 << (i % 8)` in C.  Bytes are
natural numbers here.

The rules:
* setting a bit inside the vector sets it and leaves every other bit (`testBit_setBit`);
* setting a bit never clears one, inside the vector or not (`testBit_setBit_of_testBit`,
  `testBit_foldl_setBit_of_testBit`);
* after a run of settings inside the vector, the bits set are those set before and those of the
  run (`testBit_foldl_setBit`).
-/
import Mathlib

namespace ByteBits

/-- Bit `i`: `b[i / 8] & (1 << (i % 8))` is not zero. -/
def testBit (b : List ℕ) (i : ℕ) : Bool := b.getD (i / 8) 0 &&& 1 <<< (i % 8) != 0

/-- Setting bit `i`: `b[i / 8] |= 1 << (i % 8)`; outside the vector nothing changes. -/
def setBit (b : List ℕ) (i : ℕ) : List ℕ := b.modify (i / 8) (· ||| 1 <<< (i % 8))

theorem testBit_eq (b : List ℕ) (i : ℕ) :
    testBit b i = (b.getD (i / 8) 0).testBit (i % 8) := by
  rw [testBit, Nat.one_shiftLeft, Nat.and_two_pow]
  cases (b.getD (i / 8) 0).testBit (i % 8) <;> simp

@[simp] theorem length_setBit (b : List ℕ) (i : ℕ) : (setBit b i).length = b.length :=
  List.length_modify ..

theorem getD_setBit (b : List ℕ) (i k : ℕ) :
    (setBit b i).getD k 0 =
      if i / 8 = k ∧ k < b.length then b.getD k 0 ||| 1 <<< (i % 8) else b.getD k 0 := by
  simp only [setBit, List.getD_eq_getElem?_getD, List.getElem?_modify]
  grind

/-- Setting a bit inside the vector: that bit is set, the others are as they were. -/
theorem testBit_setBit (b : List ℕ) {i : ℕ} (hi : i / 8 < b.length) (j : ℕ) :
    testBit (setBit b i) j = (testBit b j || decide (i = j)) := by
  rw [testBit_eq, testBit_eq, getD_setBit]
  by_cases hk : i / 8 = j / 8
  · -- the same byte: the bits are the same when their places in it are
    have hbit : (i % 8 = j % 8) ↔ (i = j) := by omega
    rw [if_pos ⟨hk, hk ▸ hi⟩, Nat.testBit_or, Nat.one_shiftLeft, Nat.testBit_two_pow]
    simp only [hbit]
  · have hij : i ≠ j := fun h => hk (h ▸ rfl)
    rw [if_neg fun h => hk h.1]
    simp [hij]

theorem testBit_setBit_of_testBit {b : List ℕ} {j : ℕ} (h : testBit b j = true) (i : ℕ) :
    testBit (setBit b i) j = true := by
  rw [testBit_eq] at h ⊢
  rw [getD_setBit]
  split_ifs
  · rw [Nat.testBit_or, h, Bool.true_or]
  · exact h

@[simp] theorem length_foldl_setBit (is : List ℕ) (b : List ℕ) :
    (is.foldl setBit b).length = b.length := by
  induction is generalizing b with
  | nil => rfl
  | cons i is ih => rw [List.foldl_cons, ih, length_setBit]

theorem testBit_foldl_setBit_of_testBit (is : List ℕ) {b : List ℕ} {j : ℕ}
    (h : testBit b j = true) : testBit (is.foldl setBit b) j = true := by
  induction is generalizing b with
  | nil => exact h
  | cons i is ih => exact ih (testBit_setBit_of_testBit h i)

/-- **The rule of a run of settings.**  Setting bits inside the vector one after another leaves
set exactly the bits set before and those of the run. -/
theorem testBit_foldl_setBit :
    ∀ (is : List ℕ) {b : List ℕ}, (∀ i ∈ is, i / 8 < b.length) → ∀ j,
      testBit (is.foldl setBit b) j = (testBit b j || decide (j ∈ is))
  | [], b, _, j => by simp
  | i :: is, b, h, j => by
    have hrest : ∀ i' ∈ is, i' / 8 < (setBit b i).length := fun i' hi' => by
      rw [length_setBit]
      exact h i' (List.mem_cons_of_mem i hi')
    rw [List.foldl_cons, testBit_foldl_setBit is hrest, testBit_setBit b (h i List.mem_cons_self)]
    simp only [List.mem_cons, Bool.decide_or, eq_comm, Bool.or_assoc]

end ByteBits
