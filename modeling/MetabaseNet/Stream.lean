/-
# The serialization stream: `mtbase::CStream`

`src/mtbase/stream/stream.h`, `stream.cpp`.  Objects are written to a byte stream with `<<`,
read back with `>>`, and `GetSerializeSize` counts the bytes `<<` writes.  A stream is the
list of its bytes (each below `256`); a read takes from the front and fails with the error the
source throws.

* A fundamental type is its memory image, little-endian; a `base_uint` (`uint256` and its
  kin) is written with its bytes reversed, most significant first.
* `CVarInt` is a `uint64` in one byte when it is below `0xF7` (zero is the byte `0xF7`), and
  otherwise the byte `0xF7 + n` and the `n` bytes of the value, most significant first.
* A vector, a string and a map are their size as a `CVarInt`, then their elements.  The load
  of a vector of a fundamental type checks the size against what is left of the stream before
  it allocates; a map is loaded by inserting pair after pair into the map it was.

The round trips: each load reads back what its save wrote, followed by anything
(`CVarInt.serializeLoad_save` and on), and `GetSerializeSize` is the length of the save.
What loads accept is wider: the `CVarInt` of a value has a form for every width from its own
up to eight bytes, and the byte `0x00` also reads as zero.  The check `fn error` of the
`CVarInt` load never fires on a byte stream.

Allocation is not modelled: the model has no `bad_alloc`, and a string resized to a length
the stream does not hold ends at the read that follows.  For a vector of a fundamental type
the limit of `resize` is libstdc++'s `max_size()`, as it decides what a wrapped size does.
-/
import MetabaseNet.Lib.Codec
import MetabaseNet.Lib.AssocMap
import Mathlib

namespace MetabaseNet.Stream

open Codec

/-- The stream's bytes are bytes. -/
def Bytes (bs : List ℕ) : Prop := ∀ b ∈ bs, b < 256

instance (bs : List ℕ) : Decidable (Bytes bs) := inferInstanceAs (Decidable (∀ b ∈ bs, b < 256))

/-! ## Reading: `CStream::Read` -/

/-- The text of the error `CStream::Read` throws when `n` bytes are asked for and `m` are
left. -/
def readError (n m : ℕ) : String :=
  "stream read error. To be reading " ++ toString n ++ " but " ++ toString m

/-- `CStream::Read(s, n)`: the next `n` bytes, or the error thrown when the stream has fewer
(`gcount()` is then all that was left). -/
def read (n : ℕ) (bs : List ℕ) : Except String (List ℕ × List ℕ) :=
  if n ≤ bs.length then .ok (bs.take n, bs.drop n) else .error (readError n bs.length)

theorem read_append (l rest : List ℕ) : read l.length (l ++ rest) = .ok (l, rest) := by
  rw [read, if_pos (by simp)]
  simp

/-- A read that succeeds takes `n` bytes off the front. -/
theorem read_eq_ok {n : ℕ} {bs l rest : List ℕ} (h : read n bs = .ok (l, rest)) :
    bs = l ++ rest ∧ l.length = n := by
  unfold read at h
  split_ifs at h with hn
  · cases h
    exact ⟨(List.take_append_drop n bs).symm, List.length_take_of_le hn⟩

/-- The only way `Read` fails. -/
theorem read_eq_error {n : ℕ} {bs : List ℕ} {e : String} (h : read n bs = .error e) :
    e = readError n bs.length := by
  unfold read at h
  split_ifs at h
  cases h
  rfl

theorem read_append_of_length {n : ℕ} {l : List ℕ} (h : l.length = n) (rest : List ℕ) :
    read n (l ++ rest) = .ok (l, rest) := by
  subst h
  exact read_append l rest

/-! ## Fixed-width values -/

/-- The memory image of a value of `w` bytes on a little-endian target: its bytes, least
significant first. -/
def toLittleEndian : ℕ → ℕ → List ℕ
  | 0, _ => []
  | w + 1, t => t % 256 :: toLittleEndian w (t / 256)

/-- The value of a little-endian memory image. -/
def ofLittleEndian (l : List ℕ) : ℕ := l.foldr (fun b acc => b + 256 * acc) 0

@[simp] theorem length_toLittleEndian : ∀ w t, (toLittleEndian w t).length = w
  | 0, _ => rfl
  | w + 1, t => by rw [toLittleEndian, List.length_cons, length_toLittleEndian w]

theorem ofLittleEndian_toLittleEndian : ∀ (w : ℕ) {t : ℕ}, t < 256 ^ w →
    ofLittleEndian (toLittleEndian w t) = t
  | 0, t, ht => by
    rw [pow_zero] at ht
    simp only [toLittleEndian, ofLittleEndian, List.foldr_nil]
    omega
  | w + 1, t, ht => by
    have hw : t / 256 < 256 ^ w := by
      rw [pow_succ] at ht
      omega
    have ih := ofLittleEndian_toLittleEndian w hw
    simp only [toLittleEndian, ofLittleEndian, List.foldr_cons] at ih ⊢
    rw [ih]
    omega

theorem toLittleEndian_bytes : ∀ w t, Bytes (toLittleEndian w t)
  | 0, _ => fun _ h => nomatch h
  | w + 1, t => by
    intro b hb
    rcases List.mem_cons.mp hb with rfl | hb
    · exact Nat.mod_lt _ (by omega)
    · exact toLittleEndian_bytes w (t / 256) b hb

theorem ofLittleEndian_cons (b : ℕ) (l : List ℕ) :
    ofLittleEndian (b :: l) = b + 256 * ofLittleEndian l := rfl

/-- The bytes of a memory image are its value's. -/
theorem toLittleEndian_ofLittleEndian : ∀ l : List ℕ, Bytes l →
    toLittleEndian l.length (ofLittleEndian l) = l
  | [], _ => rfl
  | b :: l, h => by
    have hb : b < 256 := h b List.mem_cons_self
    have ih := toLittleEndian_ofLittleEndian l fun x hx => h x (List.mem_cons_of_mem b hx)
    have hlow : (b + 256 * ofLittleEndian l) % 256 = b := by omega
    have hhigh : (b + 256 * ofLittleEndian l) / 256 = ofLittleEndian l := by omega
    rw [List.length_cons, ofLittleEndian_cons, toLittleEndian, hlow, hhigh, ih]

/-- The first bytes of a memory image are the image of the value in fewer bytes. -/
theorem take_toLittleEndian : ∀ (k w t : ℕ), k ≤ w →
    (toLittleEndian w t).take k = toLittleEndian k t
  | 0, _, _, _ => by rw [List.take_zero, toLittleEndian]
  | k + 1, 0, _, h => absurd h (by omega)
  | k + 1, w + 1, t, h => by
    rw [toLittleEndian, toLittleEndian, List.take_succ_cons,
      take_toLittleEndian k w (t / 256) (by omega)]

namespace Basic

/-- `Serialize(t, BasicType, SaveType)`: `Write((const char*)&t, sizeof(t))`. -/
def serializeSave (w t : ℕ) : List ℕ := toLittleEndian w t

/-- `Serialize(t, BasicType, LoadType)`: `Read((char*)&t, sizeof(t))`. -/
def serializeLoad (w : ℕ) : Decoder ℕ String ℕ := fun bs => do
  let r ← read w bs
  pure (ofLittleEndian r.1, r.2)

/-- `Serialize(t, BasicType, serSize)`: `sizeof(t)`. -/
def serializeSize (w _t : ℕ) : ℕ := w

theorem roundTrip (w : ℕ) : RoundTrip (serializeSave w) (serializeLoad w) (· < 256 ^ w) := by
  intro t ht rest
  rw [serializeLoad, serializeSave,
    read_append_of_length (length_toLittleEndian w t) rest]
  change Except.ok (ofLittleEndian (toLittleEndian w t), rest) = _
  rw [ofLittleEndian_toLittleEndian w ht]

end Basic

namespace BaseUint

/-- `base_uint::Serialize(SaveType)`: the `sizeof(pn)` bytes of the value in reverse order,
most significant first. -/
def serializeSave (w v : ℕ) : List ℕ := (toLittleEndian w v).reverse

/-- `base_uint::Serialize(LoadType)`: the bytes read, put back in reverse order. -/
def serializeLoad (w : ℕ) : Decoder ℕ String ℕ := fun bs => do
  let r ← read w bs
  pure (ofLittleEndian r.1.reverse, r.2)

theorem roundTrip (w : ℕ) : RoundTrip (serializeSave w) (serializeLoad w) (· < 256 ^ w) := by
  intro v hv rest
  rw [serializeLoad, serializeSave,
    read_append_of_length (by rw [List.length_reverse, length_toLittleEndian]) rest]
  change Except.ok (ofLittleEndian (toLittleEndian w v).reverse.reverse, rest) = _
  rw [List.reverse_reverse, ofLittleEndian_toLittleEndian w hv]

end BaseUint

/-! ## `CVarInt` -/

namespace CVarInt

/-- `nDataImmLenStart`: the values below it are written in one byte. -/
def nDataImmLenStart : ℕ := 0xF7

/-- `CVarInt::BytesRequired`: the bytes shifted out of the value until it is zero. -/
def bytesRequired (i : ℕ) : ℕ :=
  if i = 0 then 0 else bytesRequired (i >>> 8) + 1
decreasing_by
  rw [Nat.shiftRight_eq_div_pow]
  omega

/-- The loop of `CVarInt::GetBytes`: the bytes `i & 0xff` written from the back of the buffer
while `i >>= 8` is not zero, so the value's bytes, most significant first. -/
def getBytesLoop (i : ℕ) : List ℕ :=
  if i = 0 then [] else getBytesLoop (i >>> 8) ++ [i &&& 0xff]
decreasing_by
  rw [Nat.shiftRight_eq_div_pow]
  omega

/-- `CVarInt::GetBytes(out, n)`: a buffer of `n` zero bytes, the value's bytes written at its
back.  It is called with `n = BytesRequired()`, which the value's bytes fill. -/
def getBytes (nValue n : ℕ) : List ℕ :=
  List.replicate (n - (getBytesLoop nValue).length) 0 ++ getBytesLoop nValue

/-- `CVarInt::GetInt`: `ret = (uint64)((ret << 8) | i)` over the bytes. -/
def getInt (bt : List ℕ) : ℕ := bt.foldl (fun ret i => (ret <<< 8 ||| i) % 2 ^ 64) 0

/-- `CVarInt::Serialize(SaveType)`. -/
def serializeSave (nValue : ℕ) : List ℕ :=
  if nValue = 0 then [nDataImmLenStart]
  else if nValue < nDataImmLenStart then [nValue]
  else (nDataImmLenStart + bytesRequired nValue) % 256 :: getBytes nValue (bytesRequired nValue)

/-- `CVarInt::Serialize(LoadType)`. -/
def serializeLoad : Decoder ℕ String ℕ := fun bs => do
  let r ← read 1 bs
  let n := r.1.headD 0
  if n = nDataImmLenStart then pure (0, r.2)
  else if n < nDataImmLenStart then pure (n, r.2)
  else
    let fn := (n - nDataImmLenStart) % 256
    if fn = 0 ∨ fn > 8 then throw "fn error"
    else do
      let bt ← read fn r.2
      pure (getInt bt.1, bt.2)

/-- `CVarInt::Serialize(serSize)`. -/
def serializeSize (nValue : ℕ) : ℕ :=
  if nValue < nDataImmLenStart then 1 else 1 + bytesRequired nValue

/-! ### The value's bytes -/

theorem bytesRequired_eq (i : ℕ) :
    bytesRequired i = if i = 0 then 0 else bytesRequired (i / 256) + 1 := by
  rw [bytesRequired, Nat.shiftRight_eq_div_pow]

theorem getBytesLoop_eq (i : ℕ) :
    getBytesLoop i = if i = 0 then [] else getBytesLoop (i / 256) ++ [i % 256] := by
  rw [getBytesLoop, Nat.shiftRight_eq_div_pow, show (0xff : ℕ) = 2 ^ 8 - 1 from rfl,
    Nat.and_two_pow_sub_one_eq_mod]

theorem length_getBytesLoop (i : ℕ) : (getBytesLoop i).length = bytesRequired i := by
  induction i using Nat.strong_induction_on with
  | _ i ih =>
    rw [getBytesLoop_eq, bytesRequired_eq]
    split_ifs with hi
    · rfl
    · rw [List.length_append, List.length_singleton, ih (i / 256) (by omega)]

theorem bytesRequired_pos {i : ℕ} (hi : i ≠ 0) : 0 < bytesRequired i := by
  rw [bytesRequired_eq, if_neg hi]
  omega

/-- A value below `256 ^ k` has at most `k` bytes; a `uint64` at most eight. -/
theorem bytesRequired_le {i k : ℕ} (hi : i < 256 ^ k) : bytesRequired i ≤ k := by
  induction k generalizing i with
  | zero =>
    rw [pow_zero, Nat.lt_one_iff] at hi
    rw [hi, bytesRequired_eq, if_pos rfl]
  | succ k ih =>
    rw [bytesRequired_eq]
    split_ifs
    · omega
    · have h : i / 256 < 256 ^ k := by
        rw [pow_succ] at hi
        omega
      have := ih h
      omega

theorem length_getBytes {i n : ℕ} (hn : bytesRequired i ≤ n) : (getBytes i n).length = n := by
  rw [getBytes, List.length_append, List.length_replicate, length_getBytesLoop]
  omega

/-- One more byte into `GetInt`'s accumulator: the `|` of a byte below the shifted value is
a sum. -/
theorem shiftLeft_eight_or {x b : ℕ} (hb : b < 256) : x <<< 8 ||| b = x * 256 + b := by
  rw [Nat.shiftLeft_eq, Nat.mul_comm, ← Nat.two_pow_add_eq_or_of_lt (i := 8) hb]

theorem getInt_append_byte (l : List ℕ) {b : ℕ} (hb : b < 256) :
    getInt (l ++ [b]) = (getInt l * 256 + b) % 2 ^ 64 := by
  rw [getInt, List.foldl_append, List.foldl_cons, List.foldl_nil, shiftLeft_eight_or hb]
  rfl

theorem getInt_getBytesLoop {i : ℕ} (hi : i < 2 ^ 64) : getInt (getBytesLoop i) = i := by
  induction i using Nat.strong_induction_on with
  | _ i ih =>
    rw [getBytesLoop_eq]
    split_ifs with h0
    · rw [h0]
      rfl
    · rw [getInt_append_byte _ (Nat.mod_lt _ (by omega)), ih (i / 256) (by omega) (by omega)]
      omega

/-- Leading zero bytes read as nothing. -/
theorem getInt_replicate_zero_append (k : ℕ) (l : List ℕ) :
    getInt (List.replicate k 0 ++ l) = getInt l := by
  have h0 : (List.replicate k 0).foldl (fun ret i => (ret <<< 8 ||| i) % 2 ^ 64) 0 = 0 := by
    induction k with
    | zero => rfl
    | succ k ih => rw [List.replicate_succ', List.foldl_append, ih]; rfl
  rw [getInt, List.foldl_append, h0]
  rfl

theorem getInt_getBytes {i : ℕ} (hi : i < 2 ^ 64) (n : ℕ) : getInt (getBytes i n) = i := by
  rw [getBytes, getInt_replicate_zero_append, getInt_getBytesLoop hi]

/-! ### Load after save -/

/-- The long form: the byte `0xF7 + k` and `k` bytes of the value, for any width `k` from the
value's own up to eight. -/
theorem serializeLoad_long {i k : ℕ} (hi : i < 2 ^ 64) (hk : bytesRequired i ≤ k) (hk0 : 0 < k)
    (hk8 : k ≤ 8) (rest : List ℕ) :
    serializeLoad ((nDataImmLenStart + k) :: getBytes i k ++ rest) = .ok (i, rest) := by
  have hread : read 1 ((nDataImmLenStart + k) :: getBytes i k ++ rest) =
      .ok ([nDataImmLenStart + k], getBytes i k ++ rest) :=
    read_append [nDataImmLenStart + k] _
  have hne : nDataImmLenStart + k ≠ nDataImmLenStart := by omega
  have hlt : ¬ nDataImmLenStart + k < nDataImmLenStart := by omega
  have hfn : (nDataImmLenStart + k - nDataImmLenStart) % 256 = k := by omega
  have hfn8 : ¬ (k = 0 ∨ k > 8) := by omega
  simp only [serializeLoad, hread, bind, Except.bind, List.headD_cons, hne, hlt, hfn, hfn8,
    if_false, read_append_of_length (length_getBytes hk) rest, pure, Except.pure,
    getInt_getBytes hi]

/-- **`CVarInt` round trip.** -/
theorem roundTrip : RoundTrip serializeSave serializeLoad (· < 2 ^ 64) := by
  intro v hv rest
  have hread : ∀ b, read 1 (b :: rest) = .ok ([b], rest) := fun b => read_append [b] rest
  by_cases h0 : v = 0
  · subst h0
    simp only [serializeSave, if_true, List.singleton_append]
    simp only [serializeLoad, hread, bind, Except.bind, List.headD_cons, if_true, pure,
      Except.pure]
  by_cases hs : v < nDataImmLenStart
  · have hne : v ≠ nDataImmLenStart := by omega
    simp only [serializeSave, h0, hs, if_false, if_true, List.singleton_append]
    simp only [serializeLoad, hread, bind, Except.bind, List.headD_cons, hne, hs, if_false,
      if_true, pure, Except.pure]
  have hpos := bytesRequired_pos h0
  have h8 : bytesRequired v ≤ 8 := bytesRequired_le (by simpa using hv)
  rw [serializeSave, if_neg h0, if_neg hs,
    Nat.mod_eq_of_lt (show nDataImmLenStart + bytesRequired v < 256 by unfold nDataImmLenStart; omega),
    List.cons_append]
  exact serializeLoad_long hv le_rfl hpos h8 rest

/-- `GetSerializeSize` of a `CVarInt` is the length of what `<<` writes. -/
theorem serializeSize_eq (v : ℕ) : serializeSize v = (serializeSave v).length := by
  unfold serializeSize serializeSave
  by_cases h0 : v = 0
  · simp [h0, nDataImmLenStart]
  by_cases hs : v < nDataImmLenStart
  · simp [h0, hs]
  · rw [if_neg hs, if_neg h0, if_neg hs, List.length_cons, length_getBytes le_rfl]
    omega

/-- The load reads at least the byte of the size. -/
theorem serializeLoad_shorter {bs rest : List ℕ} {v : ℕ} (h : serializeLoad bs = .ok (v, rest)) :
    rest.length < bs.length := by
  unfold serializeLoad at h
  cases hr : read 1 bs with
  | error e => simp only [hr, bind, Except.bind] at h; cases h
  | ok r =>
    obtain ⟨hbs, hl⟩ := read_eq_ok hr
    simp only [hr, bind, Except.bind] at h
    have hlen : r.2.length < bs.length := by rw [hbs, List.length_append, hl]; omega
    split_ifs at h
    · cases h; exact hlen
    · cases h; exact hlen
    · cases hb : read ((r.1.headD 0 - nDataImmLenStart) % 256) r.2 with
      | error e => simp only [hb] at h; cases h
      | ok b =>
        simp only [hb, pure, Except.pure, Except.ok.injEq, Prod.mk.injEq] at h
        obtain ⟨hr2, -⟩ := read_eq_ok hb
        have hb2 : b.2.length ≤ r.2.length := by rw [hr2, List.length_append]; omega
        rw [← h.2]
        omega

/-- **`fn error` is never thrown.**  On a stream of bytes the only error of the `CVarInt` load
is a short read: a first byte above `0xF7` is at most `0xFF`, so `fn` is between `1` and `8`. -/
theorem serializeLoad_error {bs : List ℕ} (hbs : Bytes bs) {e : String}
    (h : serializeLoad bs = .error e) : ∃ n m, e = readError n m := by
  unfold serializeLoad at h
  cases hr : read 1 bs with
  | error e' =>
    simp only [hr, bind, Except.bind, Except.error.injEq] at h
    exact ⟨1, bs.length, h ▸ read_eq_error hr⟩
  | ok r =>
    obtain ⟨hbs', hl⟩ := read_eq_ok hr
    obtain ⟨b, hb⟩ := List.length_eq_one_iff.mp hl
    have hb256 : b < 256 := hbs b (by rw [hbs', hb]; exact List.mem_cons_self)
    simp only [hr, bind, Except.bind, hb, List.headD_cons] at h
    split_ifs at h with h1 h2 h3
    · cases h
    · cases h
    · -- the byte is above `0xF7` and below `0x100`
      unfold nDataImmLenStart at h1 h2 h3
      omega
    · cases hread : read ((b - nDataImmLenStart) % 256) r.2 with
      | error e' =>
        simp only [hread, Except.error.injEq] at h
        exact ⟨_, _, h ▸ read_eq_error hread⟩
      | ok c => simp only [hread, pure, Except.pure, reduceCtorEq] at h

-- The byte `0xF9` asks for two more bytes; with one left, the load fails with the read's error.
example : serializeLoad [0xF9, 0] = .error (readError 2 1) := rfl

/-- **`Load` accepts encodings `Save` never writes.**  The byte `0x00` reads as zero, which
`Save` writes as `0xF7`; and a value reads back from its long form in any width from its own up
to eight bytes, each longer than what `Save` writes. -/
theorem serializeLoad_accepts_wider {v : ℕ} (hv : v < 2 ^ 64) {k : ℕ} (hk : bytesRequired v < k)
    (hk8 : k ≤ 8) (rest : List ℕ) :
    serializeLoad (0 :: rest) = .ok (0, rest) ∧ serializeSave 0 ≠ [0] ∧
      (serializeSave v).length < ((nDataImmLenStart + k) :: getBytes v k).length ∧
      serializeLoad ((nDataImmLenStart + k) :: getBytes v k ++ rest) = .ok (v, rest) := by
  refine ⟨?_, by decide, ?_, serializeLoad_long hv hk.le (by omega) hk8 rest⟩
  · have hread : read 1 (0 :: rest) = .ok ([0], rest) := read_append [0] rest
    have h0 : (0 : ℕ) ≠ nDataImmLenStart := by decide
    have h0' : (0 : ℕ) < nDataImmLenStart := by decide
    simp only [serializeLoad, hread, bind, Except.bind, List.headD_cons, h0, h0', if_false,
      if_true, pure, Except.pure]
  · rw [← serializeSize_eq, List.length_cons, length_getBytes hk.le, serializeSize]
    split_ifs <;> omega

/-- Five, saved as the byte `0x05`, also reads from `0xF9 0x00 0x05`. -/
theorem serializeLoad_accepts_wider_five :
    serializeLoad (0 :: []) = .ok (0, []) ∧ serializeSave 0 ≠ [0] ∧
      (serializeSave 5).length < ((nDataImmLenStart + 2) :: getBytes 5 2).length ∧
      serializeLoad ((nDataImmLenStart + 2) :: getBytes 5 2 ++ []) = .ok (5, []) :=
  serializeLoad_accepts_wider (by norm_num)
    (lt_of_le_of_lt (bytesRequired_le (show 5 < 256 ^ 1 by norm_num)) (by norm_num)) (by norm_num)
    []

end CVarInt

/-! ## Containers -/

/-- Appending one at a time, the list comes out as it went in. -/
theorem foldl_push {α : Type} : ∀ (t acc : List α), t.foldl (fun l x => l ++ [x]) acc = acc ++ t
  | [], acc => (List.append_nil acc).symm
  | x :: t, acc => by rw [List.foldl_cons, foldl_push t, List.append_assoc, List.singleton_append]

namespace StdVector

variable {α : Type}

/-- `Serialize(std::vector, SaveType)`: the size as a `CVarInt`, then the elements as `<<`
writes them.  For a fundamental type the source writes the array's memory at once, which is
the same bytes. -/
def serializeSave (save : α → List ℕ) (t : List α) : List ℕ :=
  CVarInt.serializeSave t.length ++ t.flatMap save

/-- `Serialize(std::vector, LoadType)` for a vector of objects: the vector cleared, the size
read, and that many elements read one by one into a list moved into the vector. -/
def serializeLoad (load : Decoder ℕ String α) : Decoder ℕ String (List α) := fun bs => do
  let var ← CVarInt.serializeLoad bs
  if 0 < var.1 then decodeFold load (fun l data => l ++ [data]) var.1 [] var.2
  else pure ([], var.2)

/-- `vector::max_size()` of libstdc++ on a 64-bit target, for elements of `w` bytes:
`PTRDIFF_MAX / sizeof(T)`.  `resize` past it throws. -/
def maxSize (w : ℕ) : ℕ := (2 ^ 63 - 1) / w

/-- `Serialize(std::vector, LoadType)` for a fundamental type of `w` bytes: the byte count
`sizeof(T) * size`, a `size_t`, checked against what is left of the stream ("prevent huge &
bad length"), then `resize`, then the whole block read at once. -/
def serializeLoadBasic (w : ℕ) : Decoder ℕ String (List ℕ) := fun bs => do
  let var ← CVarInt.serializeLoad bs
  if 0 < var.1 then
    let length := w * var.1 % 2 ^ 64
    if var.2.length < length then
      throw ("stream read size error. left size: " ++ toString var.2.length ++
        " < read size: " ++ toString length)
    else if maxSize w < var.1 then throw "vector::_M_default_append"
    else do
      let r ← read length var.2
      pure ((List.range var.1).map fun i => ofLittleEndian ((r.1.drop (w * i)).take w), r.2)
  else pure ([], var.2)

/-- `Serialize(std::vector, serSize)`: the size of the `CVarInt`, then the elements' sizes
(for a fundamental type, `sizeof(T) * t.size()`). -/
def serializeSize (size : α → ℕ) (t : List α) : ℕ :=
  CVarInt.serializeSize t.length + (t.map size).sum

theorem serializeLoad_save {save : α → List ℕ} {load : Decoder ℕ String α} {P : α → Prop}
    (h : RoundTrip save load P) :
    RoundTrip (serializeSave save) (serializeLoad load)
      (fun t => t.length < 2 ^ 64 ∧ ∀ a ∈ t, P a) := by
  rintro t ⟨hlen, ht⟩ rest
  rw [serializeLoad, serializeSave, List.append_assoc, CVarInt.roundTrip _ hlen]
  simp only [bind, Except.bind]
  split_ifs with hpos
  · rw [h.decodeFold _ t [] rest ht, foldl_push, List.nil_append]
  · rw [List.length_pos_iff, not_not] at hpos
    subst hpos
    rfl

/-- Two `uint16` objects, `1` and `0x0201`, read back. -/
theorem serializeLoad_save_twoWords :
    serializeLoad (Basic.serializeLoad 2) (serializeSave (Basic.serializeSave 2) [1, 513] ++ []) =
      .ok ([1, 513], []) :=
  serializeLoad_save (Basic.roundTrip 2) [1, 513] ⟨by norm_num, by decide⟩ []

/-- The block of a vector of `w`-byte values: the `i`-th value's bytes are its `w` bytes from
`w * i`. -/
theorem take_drop_flatMap (w : ℕ) :
    ∀ (t : List ℕ) (i : ℕ), i < t.length →
      ((t.flatMap (toLittleEndian w)).drop (w * i)).take w = toLittleEndian w (t.getD i 0)
  | [], i, hi => absurd hi (Nat.not_lt_zero i)
  | x :: t, 0, _ => by
    rw [List.flatMap_cons, Nat.mul_zero, List.drop_zero,
      List.take_append_of_le_length (by rw [length_toLittleEndian]), List.getD_cons_zero,
      List.take_of_length_le (by rw [length_toLittleEndian])]
  | x :: t, i + 1, hi => by
    have hw : w * (i + 1) = (toLittleEndian w x).length + w * i := by
      rw [length_toLittleEndian, Nat.mul_succ, Nat.add_comm]
    rw [List.flatMap_cons, hw, List.drop_length_add_append, List.getD_cons_succ]
    exact take_drop_flatMap w t i (by simpa using hi)

theorem roundTripBasic {w : ℕ} (hw : 0 < w) :
    RoundTrip (serializeSave (toLittleEndian w)) (serializeLoadBasic w)
      (fun t => (∀ x ∈ t, x < 256 ^ w) ∧ t.length ≤ maxSize w) := by
  rintro t ⟨ht, hmax⟩ rest
  have hfit : w * t.length < 2 ^ 64 := by
    unfold maxSize at hmax
    calc w * t.length ≤ w * ((2 ^ 63 - 1) / w) := Nat.mul_le_mul_left w hmax
      _ ≤ 2 ^ 63 - 1 := Nat.mul_div_le (2 ^ 63 - 1) w
      _ < 2 ^ 64 := by norm_num
  have hlen : t.length < 2 ^ 64 := lt_of_le_of_lt (Nat.le_mul_of_pos_left _ hw) hfit
  have hblock : (t.flatMap (toLittleEndian w)).length = w * t.length := by
    rw [List.length_flatMap]
    simp [Nat.mul_comm]
  rw [serializeLoadBasic, serializeSave, List.append_assoc, CVarInt.roundTrip _ hlen]
  simp only [bind, Except.bind]
  split_ifs with hpos hshort hbig
  · rw [Nat.mod_eq_of_lt hfit, List.length_append, hblock] at hshort
    omega
  · omega
  · rw [Nat.mod_eq_of_lt hfit, read_append_of_length hblock rest]
    simp only [pure, Except.pure, Except.ok.injEq, Prod.mk.injEq, and_true]
    apply List.ext_getElem (by simp)
    intro i hi hi'
    rw [List.getElem_map, List.getElem_range, take_drop_flatMap w t i hi',
      List.getD_eq_getElem _ _ hi', ofLittleEndian_toLittleEndian w (ht _ (List.getElem_mem hi'))]
  · rw [List.length_pos_iff, not_not] at hpos
    subst hpos
    rfl

/-- **A loaded vector is backed by the stream.**  The byte count `sizeof(T) * size` is a
`size_t`, so for a size of `2 ^ 64 / sizeof(T)` or more it wraps, and the check against what is
left of the stream passes with a small count.  Such a size is above `max_size()`, so `resize`
throws before the read: every vector the load returns took `sizeof(T)` bytes of the stream for
each of its values. -/
theorem serializeLoadBasic_backed {w : ℕ} {bs l rest : List ℕ}
    (h : serializeLoadBasic w bs = .ok (l, rest)) : w * l.length + rest.length < bs.length := by
  unfold serializeLoadBasic at h
  cases hv : CVarInt.serializeLoad bs with
  | error e => simp only [hv, bind, Except.bind, reduceCtorEq] at h
  | ok var =>
    have hshort := CVarInt.serializeLoad_shorter hv
    simp only [hv, bind, Except.bind] at h
    split_ifs at h with hpos hlen hbig
    · cases hr : read (w * var.1 % 2 ^ 64) var.2 with
      | error e => simp only [hr, reduceCtorEq] at h
      | ok r =>
        simp only [hr, pure, Except.pure, Except.ok.injEq, Prod.mk.injEq] at h
        obtain ⟨hl, hrest⟩ := h
        obtain ⟨hsplit, hrlen⟩ := read_eq_ok hr
        -- a size within `max_size()` does not wrap
        have hfit : w * var.1 < 2 ^ 64 := by
          unfold maxSize at hbig
          calc w * var.1 ≤ w * ((2 ^ 63 - 1) / w) := Nat.mul_le_mul_left w (not_lt.mp hbig)
            _ ≤ 2 ^ 63 - 1 := Nat.mul_div_le (2 ^ 63 - 1) w
            _ < 2 ^ 64 := by norm_num
        rw [Nat.mod_eq_of_lt hfit] at hrlen
        have hsum : var.2.length = r.1.length + r.2.length := by
          rw [hsplit, List.length_append]
        rw [← hl, ← hrest, List.length_map, List.length_range]
        omega
    · cases h
      simp only [List.length_nil, Nat.mul_zero, Nat.zero_add]
      exact hshort

/-- Two `uint16` values from five bytes: four for the values, one for the size. -/
theorem serializeLoadBasic_backed_twoWords :
    serializeLoadBasic 2 [2, 1, 0, 1, 2] = .ok ([1, 513], []) ∧
      2 * [1, 513].length + ([] : List ℕ).length < [2, 1, 0, 1, 2].length :=
  have h : serializeLoadBasic 2 [2, 1, 0, 1, 2] = .ok ([1, 513], []) := rfl
  ⟨h, serializeLoadBasic_backed h⟩

end StdVector

namespace StdString

/-- `CStream::Serialize(std::string, SaveType)`: the size as a `CVarInt`, then the
characters. -/
def serializeSave (t : List ℕ) : List ℕ := CVarInt.serializeSave t.length ++ t

/-- `CStream::Serialize(std::string, LoadType)`: the size read, the string resized, and the
characters read.  Unlike a vector, the size is not checked against the stream first. -/
def serializeLoad : Decoder ℕ String (List ℕ) := fun bs => do
  let var ← CVarInt.serializeLoad bs
  read var.1 var.2

/-- `CStream::Serialize(std::string, serSize)`. -/
def serializeSize (t : List ℕ) : ℕ := CVarInt.serializeSize t.length + t.length

theorem roundTrip : RoundTrip serializeSave serializeLoad (·.length < 2 ^ 64) := by
  intro t ht rest
  rw [serializeLoad, serializeSave, List.append_assoc, CVarInt.roundTrip _ ht]
  exact read_append t rest

end StdString

namespace StdPair

variable {α γ : Type}

/-- `CStream::Serialize(std::pair, SaveType)`: `first`, then `second`. -/
def serializeSave (saveA : α → List ℕ) (saveB : γ → List ℕ) (t : α × γ) : List ℕ :=
  saveA t.1 ++ saveB t.2

/-- `CStream::Serialize(std::pair, LoadType)`. -/
def serializeLoad (loadA : Decoder ℕ String α) (loadB : Decoder ℕ String γ) :
    Decoder ℕ String (α × γ) :=
  decodePair loadA loadB

/-- `CStream::Serialize(std::pair, serSize)`. -/
def serializeSize (sizeA : α → ℕ) (sizeB : γ → ℕ) (t : α × γ) : ℕ := sizeA t.1 + sizeB t.2

end StdPair

namespace StdMap

open AssocMap

variable {K V : Type} [DecidableEq K]

/-- `CStream::Serialize(std::map, SaveType)`: the size as a `CVarInt`, then the entries in
the map's order. -/
def serializeSave (saveK : K → List ℕ) (saveV : V → List ℕ) (t : List (K × V)) : List ℕ :=
  CVarInt.serializeSave t.length ++ t.flatMap (StdPair.serializeSave saveK saveV)

/-- `CStream::Serialize(std::map, LoadType)`: the size read, then that many pairs, each
`insert`ed into the map `t`, which is not cleared first; `insert` keeps a value already at its
key. -/
def serializeLoad (loadK : Decoder ℕ String K) (loadV : Decoder ℕ String V)
    (t : List (K × V)) : Decoder ℕ String (List (K × V)) := fun bs => do
  let var ← CVarInt.serializeLoad bs
  decodeFold (StdPair.serializeLoad loadK loadV) (fun t item => insert t item.1 item.2) var.1 t
    var.2

/-- `CStream::Serialize(std::map, serSize)`. -/
def serializeSize (sizeK : K → ℕ) (sizeV : V → ℕ) (t : List (K × V)) : ℕ :=
  CVarInt.serializeSize t.length + (t.map (StdPair.serializeSize sizeK sizeV)).sum

/-- **Map round trip.**  A map, its keys distinct, loaded into an empty map reads back as it
was saved. -/
theorem serializeLoad_save_of_nodup {saveK : K → List ℕ} {loadK : Decoder ℕ String K} {PK : K → Prop}
    {saveV : V → List ℕ} {loadV : Decoder ℕ String V} {PV : V → Prop}
    (hK : RoundTrip saveK loadK PK) (hV : RoundTrip saveV loadV PV) (t : List (K × V))
    (hkeys : (t.map Prod.fst).Nodup) (hlen : t.length < 2 ^ 64)
    (ht : ∀ p ∈ t, PK p.1 ∧ PV p.2) (rest : List ℕ) :
    serializeLoad loadK loadV [] (serializeSave saveK saveV t ++ rest) = .ok (t, rest) := by
  have hpair : RoundTrip (StdPair.serializeSave saveK saveV) (StdPair.serializeLoad loadK loadV)
      (fun p => PK p.1 ∧ PV p.2) := hK.pair hV
  rw [serializeLoad, serializeSave, List.append_assoc, CVarInt.roundTrip _ hlen]
  simp only [bind, Except.bind]
  rw [hpair.decodeFold _ t [] rest ht, foldl_insert_of_nodup t [] (by simpa using hkeys),
    List.nil_append]

/-- **Loading a map never replaces what it holds.**  The map is not cleared before the load and
`insert` does not overwrite: every key the map had keeps its value, whatever the stream
says. -/
theorem serializeLoad_keeps {loadK : Decoder ℕ String K} {loadV : Decoder ℕ String V}
    {t t' : List (K × V)} {bs rest : List ℕ}
    (h : serializeLoad loadK loadV t bs = .ok (t', rest)) {k : K} {v : V}
    (hk : find t k = some v) : find t' k = some v := by
  unfold serializeLoad at h
  cases hv : CVarInt.serializeLoad bs with
  | error e => simp only [hv, bind, Except.bind, reduceCtorEq] at h
  | ok var =>
    simp only [hv, bind, Except.bind] at h
    refine decodeFold_inv (fun m => find m k = some v) (fun m item hm => ?_) var.1 hk h
    rw [find_insert]
    split_ifs with hkey
    · subst hkey
      rw [hm]
      rfl
    · exact hm

end StdMap


/-! ## `GetSerializeSize` -/

theorem sum_map_size {α : Type} {save : α → List ℕ} {size : α → ℕ}
    (hsize : ∀ a, size a = (save a).length) (t : List α) :
    (t.map size).sum = (t.flatMap save).length := by
  rw [List.length_flatMap]
  exact congrArg List.sum (List.map_congr_left fun a _ => hsize a)

/-- **`GetSerializeSize` counts what `<<` writes**: for a string, and for a vector or a map
whose elements it counts right. -/
theorem getSerializeSize_eq_length {α K V : Type} {save : α → List ℕ} {size : α → ℕ}
    {saveK : K → List ℕ} {sizeK : K → ℕ} {saveV : V → List ℕ} {sizeV : V → ℕ}
    (hsize : ∀ a, size a = (save a).length) (hK : ∀ k, sizeK k = (saveK k).length)
    (hV : ∀ v, sizeV v = (saveV v).length) :
    (∀ t, StdString.serializeSize t = (StdString.serializeSave t).length) ∧
      (∀ t, StdVector.serializeSize size t = (StdVector.serializeSave save t).length) ∧
      (∀ t, StdMap.serializeSize sizeK sizeV t = (StdMap.serializeSave saveK saveV t).length) := by
  have hpair : ∀ p : K × V, StdPair.serializeSize sizeK sizeV p =
      (StdPair.serializeSave saveK saveV p).length := by
    intro p
    rw [StdPair.serializeSize, StdPair.serializeSave, List.length_append, hK, hV]
  refine ⟨fun t => ?_, fun t => ?_, fun t => ?_⟩
  · rw [StdString.serializeSize, StdString.serializeSave, List.length_append,
      CVarInt.serializeSize_eq]
  · rw [StdVector.serializeSize, StdVector.serializeSave, List.length_append,
      CVarInt.serializeSize_eq, sum_map_size hsize]
  · rw [StdMap.serializeSize, StdMap.serializeSave, List.length_append,
      CVarInt.serializeSize_eq, sum_map_size hpair]

/-- For `uint16` elements, keys and values. -/
theorem getSerializeSize_eq_length_words :
    (∀ t, StdString.serializeSize t = (StdString.serializeSave t).length) ∧
      (∀ t, StdVector.serializeSize (Basic.serializeSize 2) t =
        (StdVector.serializeSave (Basic.serializeSave 2) t).length) ∧
      (∀ t, StdMap.serializeSize (Basic.serializeSize 2) (Basic.serializeSize 2) t =
        (StdMap.serializeSave (Basic.serializeSave 2) (Basic.serializeSave 2) t).length) :=
  getSerializeSize_eq_length (fun a => (length_toLittleEndian 2 a).symm)
    (fun a => (length_toLittleEndian 2 a).symm) (fun a => (length_toLittleEndian 2 a).symm)

/-! ## The data of a transaction: `std::map<uint8, bytes>` -/

namespace TxData

/-- `s << mapTxData`: a `std::map<uint8, bytes>`, `bytes` a vector of `uint8`. -/
def serializeSave (m : List (ℕ × List ℕ)) : List ℕ :=
  StdMap.serializeSave (Basic.serializeSave 1) (StdVector.serializeSave (Basic.serializeSave 1)) m

/-- `s >> mapTxData`, into the member `m` as it is. -/
def serializeLoad (m : List (ℕ × List ℕ)) : Decoder ℕ String (List (ℕ × List ℕ)) :=
  StdMap.serializeLoad (Basic.serializeLoad 1) (StdVector.serializeLoadBasic 1) m

/-- Two entries of transaction data, read back into an empty map. -/
theorem serializeLoad_save_twoEntries :
    serializeLoad [] (serializeSave [(1, [0xAB]), (2, [])] ++ []) =
      .ok ([(1, [0xAB]), (2, [])], []) :=
  StdMap.serializeLoad_save_of_nodup (Basic.roundTrip 1) (StdVector.roundTripBasic one_pos)
    [(1, [0xAB]), (2, [])] (by decide) (by norm_num)
    (by simp [StdVector.maxSize]) []

/-- Loaded into a member that already holds data under the key `1`, the member keeps it. -/
theorem serializeLoad_keeps_stale :
    serializeLoad [(1, [7])] (serializeSave [(1, [8]), (2, [9])]) =
        .ok ([(1, [7]), (2, [9])], []) ∧
      AssocMap.find [(1, [7])] 1 = some [7] ∧ AssocMap.find [(1, [7]), (2, [9])] 1 = some [7] :=
  have h : serializeLoad [(1, [7])] (serializeSave [(1, [8]), (2, [9])]) =
      .ok ([(1, [7]), (2, [9])], []) := rfl
  ⟨h, rfl, StdMap.serializeLoad_keeps h rfl⟩

end TxData

end MetabaseNet.Stream
