/-
# Counting loops

A loop `for (k = 0; k < n; k++) b = f(b, k)` is `(List.range n).foldl f b`.  Its rule is the
usual one for loop invariants: an invariant `P k b` indexed by the number of iterations done,
true before the loop and carried by each iteration, holds after it.

A loop over the elements of a list whose body can fail is `l.foldlM f b` in `Option`.  Its
rules: an invariant carried by every step that does not fail holds after a run that does not
fail, and a state that every step leaves as it is comes out of the loop.
-/
import Mathlib.Data.List.Range

namespace Loop

/-- **The loop rule.**  An invariant that holds before the loop and that iteration `k < n`
carries from `k` to `k + 1` holds after the `n` iterations. -/
theorem foldl_range_inv {β : Type*} (f : β → ℕ → β) (P : ℕ → β → Prop) {b : β} (h0 : P 0 b) :
    ∀ {n : ℕ}, (∀ k < n, ∀ b, P k b → P (k + 1) (f b k)) → P n ((List.range n).foldl f b)
  | 0, _ => h0
  | n + 1, hstep => by
    rw [List.range_succ, List.foldl_append, List.foldl_cons, List.foldl_nil]
    exact hstep n (by omega) _ (foldl_range_inv f P h0 fun k hk => hstep k (by omega))

/-- **The rule for a loop that can fail.**  An invariant carried by each step on an element of
the list, when the step does not fail, holds after a run that does not fail. -/
theorem foldlM_option_inv {α β : Type*} (f : β → α → Option β) (P : β → Prop) :
    ∀ (l : List α) {b b' : β}, (∀ a ∈ l, ∀ c c', P c → f c a = some c' → P c') → P b →
      l.foldlM f b = some b' → P b'
  | [], b, b', _, hb, h => by
    rw [List.foldlM_nil] at h
    cases h
    exact hb
  | a :: l, b, b', hstep, hb, h => by
    rw [List.foldlM_cons] at h
    obtain ⟨c, hc, hl⟩ := Option.bind_eq_some_iff.mp h
    have hc' : P c := hstep a List.mem_cons_self b c hb hc
    exact foldlM_option_inv f P l (fun a' ha' => hstep a' (List.mem_cons_of_mem a ha')) hc' hl

/-- A state that each step on an element of the list gives back unchanged is the result of the
loop. -/
theorem foldlM_option_fixed {α β : Type*} (f : β → α → Option β) {b : β} :
    ∀ l : List α, (∀ a ∈ l, f b a = some b) → l.foldlM f b = some b
  | [], _ => rfl
  | a :: l, hfix => by
    rw [List.foldlM_cons, hfix a List.mem_cons_self]
    exact foldlM_option_fixed f l fun a' ha' => hfix a' (List.mem_cons_of_mem a ha')

end Loop
