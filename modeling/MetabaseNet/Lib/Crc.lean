/-
# Table-driven CRCs over bytes, and the errors they detect

A CRC of width `w` kept in a register of `w` bits: each byte is folded in by moving the low
`w - 8` bits of the register up a byte and adding, over GF(2), the table entry of the byte plus
the register's top byte.

* When the table is linear over GF(2) on bytes (`Linear`, checked on the entries of the eight
  bits by `linear_of_ofBits`), so is the fold of one byte (`step_xor`) and of a message
  (`run_xor`).
* When moreover no nonzero byte has an entry with a zero low byte (`LowByteNonzero`), a register
  that is not zero stays so over zero bytes (`run_replicate_zero_ne_zero`), and two messages that
  differ in one byte have different CRCs (`run_ne_of_single_diff`).
-/
import Mathlib

namespace Crc

section Step

variable (w : ℕ) (table : ℕ → ℕ)

/-- One byte folded into the register. -/
def step (c b : ℕ) : ℕ := ((c % 2 ^ (w - 8)) <<< 8) ^^^ table ((b ^^^ (c >>> (w - 8))) % 256)

/-- The register after a message. -/
def run (c : ℕ) (data : List ℕ) : ℕ := data.foldl (step w table) c

/-- A table linear over GF(2) on bytes. -/
def Linear : Prop := ∀ x y, x < 256 → y < 256 → table (x ^^^ y) = table x ^^^ table y

/-- No nonzero byte has an entry with a zero low byte. -/
def LowByteNonzero : Prop := ∀ t < 256, t ≠ 0 → table t % 256 ≠ 0

/-- The sum over GF(2) of the entries of the low `n` bits of `x`. -/
def ofBits : ℕ → ℕ → ℕ
  | 0, _ => 0
  | n + 1, x => ofBits n x ^^^ (if x.testBit n then table (2 ^ n) else 0)

end Step

variable {w : ℕ} {table : ℕ → ℕ}

@[simp] theorem run_nil (c : ℕ) : run w table c [] = c := rfl

@[simp] theorem run_cons (c b : ℕ) (data : List ℕ) :
    run w table c (b :: data) = run w table (step w table c b) data := rfl

theorem run_append (c : ℕ) (d₁ d₂ : List ℕ) :
    run w table c (d₁ ++ d₂) = run w table (run w table c d₁) d₂ :=
  List.foldl_append ..

/-! ## Linearity -/

theorem ite_xor_distrib (p q : Bool) (t : ℕ) :
    (if (p ^^ q) = true then t else 0) =
      (if p = true then t else 0) ^^^ (if q = true then t else 0) := by
  cases p <;> cases q <;> simp

theorem ofBits_xor : ∀ n x y, ofBits table n (x ^^^ y) = ofBits table n x ^^^ ofBits table n y
  | 0, _, _ => by simp [ofBits]
  | n + 1, x, y => by
    -- the bit `n` of `x ^^^ y` is set when exactly one of those of `x` and `y` is
    rw [ofBits, ofBits_xor n x y, Nat.testBit_xor, ite_xor_distrib, ofBits, ofBits]
    ac_rfl

/-- **A table is linear when each entry is the sum of the entries of its bits.** -/
theorem linear_of_ofBits (h : ∀ x < 256, table x = ofBits table 8 x) : Linear table := by
  intro x y hx hy
  have hxy : x ^^^ y < 2 ^ 8 := Nat.xor_lt_two_pow hx hy
  rw [h _ hxy, h x hx, h y hy, ofBits_xor]

theorem Linear.table_zero (hlin : Linear table) : table 0 = 0 := by
  have h := hlin 0 0 (by norm_num) (by norm_num)
  rw [Nat.xor_self] at h
  rw [h, Nat.xor_self]

/-- The fold of one byte is linear in the register and the byte together. -/
theorem step_xor (hlin : Linear table) (c₁ c₂ b₁ b₂ : ℕ) :
    step w table (c₁ ^^^ c₂) (b₁ ^^^ b₂) = step w table c₁ b₁ ^^^ step w table c₂ b₂ := by
  have hidx : ((b₁ ^^^ b₂) ^^^ ((c₁ ^^^ c₂) >>> (w - 8))) % 256 =
      (b₁ ^^^ c₁ >>> (w - 8)) % 256 ^^^ (b₂ ^^^ c₂ >>> (w - 8)) % 256 := by
    rw [Nat.shiftRight_xor_distrib, show (256 : ℕ) = 2 ^ 8 from rfl, ← Nat.xor_mod_two_pow]
    congr 1
    ac_rfl
  unfold step
  rw [hidx, hlin _ _ (Nat.mod_lt _ (by norm_num)) (Nat.mod_lt _ (by norm_num)),
    Nat.xor_mod_two_pow, Nat.shiftLeft_xor_distrib]
  ac_rfl

/-- **A run is linear**: over messages of one length, the registers of the bytewise sums are the
sums of the registers. -/
theorem run_xor (hlin : Linear table) : ∀ (d₁ d₂ : List ℕ) (c₁ c₂ : ℕ), d₁.length = d₂.length →
    run w table (c₁ ^^^ c₂) (List.zipWith (· ^^^ ·) d₁ d₂) =
      run w table c₁ d₁ ^^^ run w table c₂ d₂
  | [], [], _, _, _ => rfl
  | b₁ :: d₁, b₂ :: d₂, c₁, c₂, hlen => by
    rw [List.zipWith_cons_cons, run_cons, run_cons, run_cons, step_xor hlin]
    exact run_xor hlin d₁ d₂ _ _ (Nat.succ.inj hlen)

theorem zipWith_xor_self : ∀ d : List ℕ,
    List.zipWith (· ^^^ ·) d d = List.replicate d.length 0
  | [] => rfl
  | b :: d => by rw [List.zipWith_cons_cons, Nat.xor_self, zipWith_xor_self d]; rfl

/-! ## Errors in one byte -/

section Detect

variable (hw : 8 ≤ w) (htab : ∀ t < 256, table t < 2 ^ w)
include hw htab

theorem step_lt (c b : ℕ) : step w table c b < 2 ^ w := by
  have hsplit : 2 ^ w = 2 ^ (w - 8) * 2 ^ 8 := by rw [← pow_add, Nat.sub_add_cancel hw]
  have hlow : (c % 2 ^ (w - 8)) <<< 8 < 2 ^ w := by
    rw [Nat.shiftLeft_eq, hsplit]
    exact Nat.mul_lt_mul_of_pos_right (Nat.mod_lt _ (by positivity)) (by positivity)
  exact Nat.xor_lt_two_pow hlow (htab _ (Nat.mod_lt _ (by norm_num)))

omit htab in
/-- A register of `w` bits that is not zero stays so when a zero byte is folded in. -/
theorem step_zero_ne_zero (hlin : Linear table) (hlow : LowByteNonzero table) {c : ℕ}
    (hc : c < 2 ^ w) (hc0 : c ≠ 0) : step w table c 0 ≠ 0 := by
  have htop : c >>> (w - 8) < 256 := by
    have hsplit : 2 ^ w = 2 ^ (w - 8) * 256 := by
      rw [show (256 : ℕ) = 2 ^ 8 from rfl, ← pow_add, Nat.sub_add_cancel hw]
    rw [Nat.shiftRight_eq_div_pow]
    exact Nat.div_lt_of_lt_mul (by rw [← hsplit]; exact hc)
  intro h0
  unfold step at h0
  rw [Nat.zero_xor, Nat.mod_eq_of_lt htop, Nat.xor_eq_zero_iff] at h0
  -- the moved bits have a zero low byte, so the entry of the top byte has one too
  have hentry : table (c >>> (w - 8)) % 256 = 0 := by
    rw [← h0, Nat.shiftLeft_eq, Nat.mul_mod_left]
  by_cases htop0 : c >>> (w - 8) = 0
  · -- no top byte: the register is its low bits, moved up a byte onto a zero entry
    rw [htop0, hlin.table_zero, Nat.shiftLeft_eq, Nat.mul_eq_zero] at h0
    have hlt : c < 2 ^ (w - 8) := by
      rw [Nat.shiftRight_eq_div_pow, Nat.div_eq_zero_iff] at htop0
      exact htop0.resolve_left (by positivity)
    rw [Nat.mod_eq_of_lt hlt] at h0
    exact hc0 (h0.resolve_right (by positivity))
  · exact hlow _ htop htop0 hentry

theorem run_replicate_zero_ne_zero (hlin : Linear table) (hlow : LowByteNonzero table) :
    ∀ (n : ℕ) {c : ℕ}, c < 2 ^ w → c ≠ 0 → run w table c (List.replicate n 0) ≠ 0
  | 0, _, _, hc0 => hc0
  | n + 1, c, hc, hc0 => by
    rw [List.replicate_succ, run_cons]
    exact run_replicate_zero_ne_zero hlin hlow n (step_lt hw htab c 0)
      (step_zero_ne_zero hw hlin hlow hc hc0)

/-- **Every error in one byte is detected.**  Two messages that differ in one byte have
different registers at their ends, from any register: the difference the byte makes is the
entry of the two bytes' sum, not zero, and it runs through the rest of the message as through
zero bytes. -/
theorem run_ne_of_single_diff (hlin : Linear table) (hlow : LowByteNonzero table) (c : ℕ)
    (pre post : List ℕ) {a a' : ℕ} (ha : a < 256) (ha' : a' < 256) (hne : a ≠ a') :
    run w table c (pre ++ a :: post) ≠ run w table c (pre ++ a' :: post) := by
  rw [run_append, run_append, run_cons, run_cons]
  -- the two registers after the byte differ by the entry of `a ^^^ a'`
  have hdiff : step w table (run w table c pre) a ^^^ step w table (run w table c pre) a' =
      table (a ^^^ a') := by
    rw [← step_xor hlin, Nat.xor_self]
    simp only [step, Nat.zero_mod, Nat.zero_shiftLeft, Nat.zero_shiftRight, Nat.xor_zero,
      Nat.zero_xor]
    rw [Nat.mod_eq_of_lt (Nat.xor_lt_two_pow (n := 8) ha ha')]
  have hax : a ^^^ a' < 256 := Nat.xor_lt_two_pow (n := 8) ha ha'
  have hentry : table (a ^^^ a') ≠ 0 := fun h0 =>
    hlow _ hax (fun h => hne (Nat.xor_eq_zero_iff.mp h)) (by rw [h0])
  intro heq
  have hrun := run_xor (w := w) hlin post post (step w table (run w table c pre) a)
    (step w table (run w table c pre) a') rfl
  rw [heq, Nat.xor_self, hdiff, zipWith_xor_self] at hrun
  exact run_replicate_zero_ne_zero hw htab hlin hlow post.length (htab _ hax) hentry hrun

end Detect

end Crc
