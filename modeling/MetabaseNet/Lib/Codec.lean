/-
# Decoders over lists, and their round trips

A decoder reads a value from the front of a list and gives it back with the rest of the list,
or fails with an error.  An encoder and a decoder round-trip on a set of values when decoding
the encoding of such a value, followed by anything at all, gives the value and what followed:
the statement that composes, since the rest of a stream is whatever the next field wrote.

The one loop a format needs is a decoder run a counted number of times, each value folded into
an accumulator (appended to a list, inserted into a map).  Its rule: when the element decoder
round-trips, the counted loop decodes the concatenated encodings of a list into the fold of
that list.
-/
import Mathlib.Data.List.Basic

namespace Codec

variable {β ε α γ : Type}

/-- A decoder: a value read from the front of a list, and the rest of the list. -/
abbrev Decoder (β ε α : Type) := List β → Except ε (α × List β)

/-- `dec` reads back what `enc` writes, for the values of `P`, whatever follows. -/
def RoundTrip (enc : α → List β) (dec : Decoder β ε α) (P : α → Prop) : Prop :=
  ∀ a, P a → ∀ rest, dec (enc a ++ rest) = .ok (a, rest)

/-- Decoding `n` values in a row, each folded into the accumulator with `ins`. -/
def decodeFold (dec : Decoder β ε α) (ins : γ → α → γ) : ℕ → γ → Decoder β ε γ
  | 0, c, bs => .ok (c, bs)
  | n + 1, c, bs => do
    let r ← dec bs
    decodeFold dec ins n (ins c r.1) r.2

theorem decodeFold_succ_of_ok {dec : Decoder β ε α} {ins : γ → α → γ} {n : ℕ} {c : γ}
    {bs rest : List β} {a : α} (h : dec bs = .ok (a, rest)) :
    decodeFold dec ins (n + 1) c bs = decodeFold dec ins n (ins c a) rest := by
  rw [decodeFold, h]
  rfl

/-- **The rule of the counted loop.**  Over a list of values that the element decoder
round-trips, the loop run for the list's length reads the concatenated encodings back into
the fold of the list. -/
theorem RoundTrip.decodeFold {enc : α → List β} {dec : Decoder β ε α} {P : α → Prop}
    (h : RoundTrip enc dec P) (ins : γ → α → γ) :
    ∀ (l : List α) (c : γ) (rest : List β), (∀ a ∈ l, P a) →
      Codec.decodeFold dec ins l.length c (l.flatMap enc ++ rest) = .ok (l.foldl ins c, rest)
  | [], c, rest, _ => rfl
  | a :: l, c, rest, hl => by
    have ha : dec (enc a ++ (l.flatMap enc ++ rest)) = .ok (a, l.flatMap enc ++ rest) :=
      h a (hl a List.mem_cons_self) _
    rw [List.flatMap_cons, List.append_assoc, List.length_cons, decodeFold_succ_of_ok ha,
      List.foldl_cons]
    exact RoundTrip.decodeFold h ins l (ins c a) rest fun a' ha' =>
      hl a' (List.mem_cons_of_mem a ha')

/-- **The invariant rule of the counted loop.**  A property of the accumulator that every
insertion keeps holds after a run that does not fail. -/
theorem decodeFold_inv {dec : Decoder β ε α} {ins : γ → α → γ} (Q : γ → Prop)
    (hins : ∀ c a, Q c → Q (ins c a)) :
    ∀ (n : ℕ) {c c' : γ} {bs rest : List β}, Q c →
      Codec.decodeFold dec ins n c bs = .ok (c', rest) → Q c'
  | 0, c, c', bs, rest, hc, h => by
    cases h
    exact hc
  | n + 1, c, c', bs, rest, hc, h => by
    rw [Codec.decodeFold] at h
    cases hd : dec bs with
    | error e =>
      rw [hd] at h
      cases h
    | ok r =>
      rw [hd] at h
      exact decodeFold_inv Q hins n (hins c r.1 hc) h

/-- Two fields in a row: the first, then the second from what the first left. -/
def decodePair (decA : Decoder β ε α) (decB : Decoder β ε γ) : Decoder β ε (α × γ) :=
  fun bs => do
    let a ← decA bs
    let b ← decB a.2
    pure ((a.1, b.1), b.2)

theorem RoundTrip.pair {encA : α → List β} {decA : Decoder β ε α} {PA : α → Prop}
    {encB : γ → List β} {decB : Decoder β ε γ} {PB : γ → Prop}
    (hA : RoundTrip encA decA PA) (hB : RoundTrip encB decB PB) :
    RoundTrip (fun p : α × γ => encA p.1 ++ encB p.2) (decodePair decA decB)
      (fun p => PA p.1 ∧ PB p.2) := by
  rintro ⟨a, b⟩ ⟨ha, hb⟩ rest
  change decodePair decA decB (encA a ++ encB b ++ rest) = _
  rw [decodePair, List.append_assoc, hA a ha]
  change (do let b ← decB (encB b ++ rest); pure ((a, b.1), b.2)) = _
  rw [hB b hb]
  rfl

end Codec
