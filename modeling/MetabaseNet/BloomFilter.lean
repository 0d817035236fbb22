/-
# The Bloom filter of a block

`CNhBloomFilter` (`src/mtbase/bloomfilter/bloomfilter.h`) keeps a vector of bytes read as bits,
and adds a byte string by setting `BF_M = 5` bits, at five chained `MurmurHash3_x86_32` hashes
of it (`src/mtbase/bloomfilter/MurmurHash3.cpp`) taken modulo the number of bits.
`CBlockState::GetBlockBloomData` (`src/storage/blockbase.cpp`) builds one from the addresses and
hashes a block touches and writes out its bytes; `RPCCheckAtBloomFilter`
(`src/blockchain/rpcmod.cpp`) rebuilds a filter from such bytes and tests a byte string in it.

* A filter reached from the constructor of a size by any run of `Add` calls, and a filter
  rebuilt from non-empty bytes, have as many bits as their bytes hold, so `AddBit` and `TestBit`
  never reach past the vector (`addBit_testBit_inBounds`).  From no bytes the number of bits is
  `0`, and `pos % nNb` would divide by zero: the RPC refuses empty bytes first.
* No false negatives, end to end: given the bytes `GetBlockBloomData` wrote for a set, the RPC
  answers `true` for every non-empty element of the set
  (`rpcCheckAtBloomFilter_getBlockBloomData`).
-/
import MetabaseNet.Lib.ByteBits
import Mathlib

namespace MetabaseNet.BloomFilter

/-! ## `MurmurHash3_x86_32` -/

/-- `rotl32`. -/
def rotl32 (x r : UInt32) : UInt32 := (x <<< r) ||| (x >>> (32 - r))

/-- `fmix`: the finalization mix. -/
def fmix (h : UInt32) : UInt32 :=
  let h := h ^^^ (h >>> 16)
  let h := h * 0x85ebca6b
  let h := h ^^^ (h >>> 13)
  let h := h * 0xc2b2ae35
  h ^^^ (h >>> 16)

def c1 : UInt32 := 0xcc9e2d51

def c2 : UInt32 := 0x1b873593

/-- A block before it is mixed in: `k1 *= c1; k1 = ROTL32(k1, 15); k1 *= c2`. -/
def scramble (k1 : UInt32) : UInt32 := rotl32 (k1 * c1) 15 * c2

/-- `getblock` on a little-endian machine: four bytes, the first the lowest. -/
def getblock (b0 b1 b2 b3 : ℕ) : UInt32 :=
  UInt32.ofNat (b0 + b1 * 2 ^ 8 + b2 * 2 ^ 16 + b3 * 2 ^ 24)

/-- The body: each whole block of four bytes mixed into `h1`, and the tail that is left. -/
def body (h1 : UInt32) : List ℕ → UInt32 × List ℕ
  | b0 :: b1 :: b2 :: b3 :: data =>
    body (rotl32 (h1 ^^^ scramble (getblock b0 b1 b2 b3)) 13 * 5 + 0xe6546b64) data
  | tail => (h1, tail)

/-- The tail: its one to three bytes, the first the lowest, scrambled into `h1`; the cases of
the `switch` fall through. -/
def tailMix (h1 : UInt32) : List ℕ → UInt32
  | [t0] => h1 ^^^ scramble (UInt32.ofNat t0)
  | [t0, t1] => h1 ^^^ scramble ((UInt32.ofNat t1 <<< 8) ^^^ UInt32.ofNat t0)
  | [t0, t1, t2] =>
    h1 ^^^ scramble ((UInt32.ofNat t2 <<< 16) ^^^ (UInt32.ofNat t1 <<< 8) ^^^ UInt32.ofNat t0)
  | _ => h1

/-- `MurmurHash3_x86_32(key, len, seed, out)`, for the lengths an `int` holds. -/
def murmurHash3X86_32 (data : List ℕ) (seed : UInt32) : UInt32 :=
  let r := body seed data
  fmix (tailMix r.1 r.2 ^^^ UInt32.ofNat data.length)

example : murmurHash3X86_32 [] 1 = 0x514e28b7 := by decide

example : murmurHash3X86_32 [0x21, 0x43, 0x65, 0x87] 0 = 0xf55b516b := by decide

example : murmurHash3X86_32 [0x21, 0x43, 0x65] 0 = 0x7e4a8634 := by decide

/-! ## `CNhBloomFilter` -/

/-- `BF_M`: the bits an element sets. -/
def bfM : ℕ := 5

/-- `CNhBloomFilter`: the bytes of the bits, the number of bits, and the number of bits `Add`
has set. -/
structure NhBloomFilter where
  btBit : List ℕ
  nNb : ℕ
  nAddBits : ℕ
  deriving DecidableEq, Repr

/-- The seeds `Add` and `Test` go through: each the hash of the data under the one before. -/
def seeds (data : List ℕ) : ℕ → UInt32 → List UInt32
  | 0, _ => []
  | n + 1, seed => murmurHash3X86_32 data seed :: seeds data n (murmurHash3X86_32 data seed)

namespace NhBloomFilter

/-- `CNhBloomFilter(_Nb)`: at least 32 bits, rounded up to whole bytes, all clear. -/
def ofSize (nb : ℕ) : NhBloomFilter :=
  let nNb := if nb < 32 then 32 else nb
  let nNb := if nNb % 8 ≠ 0 then (nNb / 8 + 1) * 8 else nNb
  ⟨List.replicate (nNb / 8) 0, nNb, 0⟩

/-- `SetData`, and the constructor from bytes: the bytes and eight bits for each, none for no
bytes. -/
def setData (vBfData : List ℕ) : NhBloomFilter := ⟨vBfData, vBfData.length * 8, 0⟩

/-- `GetData`. -/
def getData (bf : NhBloomFilter) : List ℕ := bf.btBit

/-- `AddBit`: the bit at `pos` modulo the number of bits set.  A filter of no bytes has
`nNb = 0`, where the code divides by zero and Lean's `pos % 0` is `pos`; what the filter holds is
proved under `InBounds`, which excludes it. -/
def addBit (bf : NhBloomFilter) (pos : ℕ) : NhBloomFilter :=
  { bf with btBit := ByteBits.setBit bf.btBit (pos % bf.nNb), nAddBits := bf.nAddBits + 1 }

/-- `TestBit`. -/
def testBit (bf : NhBloomFilter) (pos : ℕ) : Bool := ByteBits.testBit bf.btBit (pos % bf.nNb)

/-- `Add`: for non-empty data, the bits of its `BF_M` seeds, from the seed `0`. -/
def add (bf : NhBloomFilter) (data : List ℕ) : NhBloomFilter :=
  if data ≠ [] then (seeds data bfM 0).foldl (fun bf seed => bf.addBit seed.toNat) bf else bf

/-- `Test`: for non-empty data, whether the bits of all its seeds are set; the loop returns at
the first clear one. -/
def test (bf : NhBloomFilter) (data : List ℕ) : Bool :=
  if data ≠ [] then (seeds data bfM 0).all fun seed => bf.testBit seed.toNat else false

theorem length_seeds (data : List ℕ) : ∀ (n : ℕ) (seed : UInt32), (seeds data n seed).length = n
  | 0, _ => rfl
  | n + 1, _ => by rw [seeds, List.length_cons, length_seeds data n]

/-- The positions of the bits an element sets in a filter of `nNb` bits. -/
def bitsOf (nNb : ℕ) (data : List ℕ) : List ℕ :=
  (seeds data bfM 0).map fun seed => seed.toNat % nNb

/-! ## In bounds -/

/-- As many bits as the bytes hold, and at least one: what `AddBit` and `TestBit` need to stay
inside the vector. -/
structure InBounds (bf : NhBloomFilter) : Prop where
  nNb_pos : 0 < bf.nNb
  nNb_eq : bf.nNb = bf.btBit.length * 8

theorem InBounds.index_lt {bf : NhBloomFilter} (h : bf.InBounds) (pos : ℕ) :
    pos % bf.nNb / 8 < bf.btBit.length := by
  have hlt := Nat.mod_lt pos h.nNb_pos
  have heq := h.nNb_eq
  omega

/-- The constructor of a size: at least 32 bits, in whole bytes. -/
theorem ofSize_nNb (nb : ℕ) : 32 ≤ (ofSize nb).nNb ∧ (ofSize nb).nNb % 8 = 0 := by
  simp only [ofSize]
  split_ifs <;> omega

theorem inBounds_ofSize (nb : ℕ) : (ofSize nb).InBounds := by
  obtain ⟨h32, h8⟩ := ofSize_nNb nb
  refine ⟨by omega, ?_⟩
  change (ofSize nb).nNb = (List.replicate ((ofSize nb).nNb / 8) 0).length * 8
  rw [List.length_replicate]
  omega

theorem inBounds_setData {v : List ℕ} (hv : v ≠ []) : (setData v).InBounds := by
  have hpos := List.length_pos_of_ne_nil hv
  exact ⟨by simp only [setData]; omega, rfl⟩

/-- A run of `AddBit` calls sets the bits at its positions modulo the number of bits, which it
keeps. -/
theorem foldl_addBit : ∀ (l : List UInt32) (bf : NhBloomFilter),
    l.foldl (fun bf seed => bf.addBit seed.toNat) bf =
      ⟨(l.map fun seed => seed.toNat % bf.nNb).foldl ByteBits.setBit bf.btBit, bf.nNb,
        bf.nAddBits + l.length⟩
  | [], _ => rfl
  | seed :: l, bf => by
    rw [List.foldl_cons, foldl_addBit l (bf.addBit seed.toNat)]
    simp only [addBit, List.map_cons, List.foldl_cons, List.length_cons, NhBloomFilter.mk.injEq,
      true_and]
    omega

theorem add_of_ne_nil (bf : NhBloomFilter) {data : List ℕ} (hd : data ≠ []) :
    bf.add data =
      ⟨(bitsOf bf.nNb data).foldl ByteBits.setBit bf.btBit, bf.nNb, bf.nAddBits + bfM⟩ := by
  rw [add, if_pos hd, foldl_addBit, length_seeds, bitsOf]

theorem test_of_ne_nil (bf : NhBloomFilter) {data : List ℕ} (hd : data ≠ []) :
    bf.test data = (bitsOf bf.nNb data).all (ByteBits.testBit bf.btBit) := by
  rw [test, if_pos hd, bitsOf, List.all_map]
  rfl

theorem ne_nil_of_test {bf : NhBloomFilter} {data : List ℕ} (h : bf.test data = true) :
    data ≠ [] := by
  rintro rfl
  simp [test] at h

/-- `Add` keeps the number of bits and the number of bytes. -/
theorem InBounds.add {bf : NhBloomFilter} (h : bf.InBounds) (data : List ℕ) :
    (bf.add data).InBounds := by
  by_cases hd : data = []
  · rw [NhBloomFilter.add, if_neg (not_not.mpr hd)]
    exact h
  · rw [add_of_ne_nil bf hd]
    exact ⟨h.nNb_pos, by rw [ByteBits.length_foldl_setBit]; exact h.nNb_eq⟩

theorem InBounds.foldl_add {bf : NhBloomFilter} (h : bf.InBounds) (items : List (List ℕ)) :
    (items.foldl NhBloomFilter.add bf).InBounds := by
  induction items generalizing bf with
  | nil => exact h
  | cons data items ih => exact ih (h.add data)

/-! ## No false negatives -/

/-- `Add` clears no bit, so what tested true still does. -/
theorem test_add_of_test {bf : NhBloomFilter} {x : List ℕ} (h : bf.test x = true)
    (data : List ℕ) : (bf.add data).test x = true := by
  have hx := ne_nil_of_test h
  by_cases hd : data = []
  · rw [NhBloomFilter.add, if_neg (not_not.mpr hd)]
    exact h
  · rw [test_of_ne_nil bf hx, List.all_eq_true] at h
    rw [test_of_ne_nil _ hx, add_of_ne_nil bf hd, List.all_eq_true]
    exact fun i hi => ByteBits.testBit_foldl_setBit_of_testBit _ (h i hi)

theorem test_foldl_add_of_test {bf : NhBloomFilter} {x : List ℕ} (h : bf.test x = true)
    (items : List (List ℕ)) : (items.foldl NhBloomFilter.add bf).test x = true := by
  induction items generalizing bf with
  | nil => exact h
  | cons data items ih => exact ih (test_add_of_test h data)

/-- What is added to a filter in bounds tests true: its positions are inside the vector, and
the run of `AddBit` calls sets each. -/
theorem InBounds.test_add_self {bf : NhBloomFilter} (h : bf.InBounds) {data : List ℕ}
    (hd : data ≠ []) : (bf.add data).test data = true := by
  have hin : ∀ i ∈ bitsOf bf.nNb data, i / 8 < bf.btBit.length := by
    intro i hi
    obtain ⟨seed, _, rfl⟩ := List.mem_map.mp hi
    exact h.index_lt seed.toNat
  rw [test_of_ne_nil _ hd, add_of_ne_nil bf hd, List.all_eq_true]
  intro i hi
  rw [ByteBits.testBit_foldl_setBit _ hin, Bool.or_eq_true]
  exact Or.inr (decide_eq_true hi)

/-- **No false negatives over a run.**  From a filter in bounds, every non-empty element of a
run of `Add` calls tests true at its end. -/
theorem InBounds.test_foldl_add {bf : NhBloomFilter} (h : bf.InBounds) :
    ∀ {items : List (List ℕ)} {x : List ℕ}, x ∈ items → x ≠ [] →
      (items.foldl NhBloomFilter.add bf).test x = true
  | data :: items, x, hx, hne => by
    rw [List.foldl_cons]
    rcases List.mem_cons.mp hx with rfl | hmem
    · -- added here, and kept by the rest of the run
      exact test_foldl_add_of_test (h.test_add_self hne) items
    · exact (h.add data).test_foldl_add hmem hne

/-- The bytes of a filter in bounds read back as the same filter, but for the count of
`nAddBits`, which `Test` does not read. -/
theorem InBounds.test_setData_getData {bf : NhBloomFilter} (h : bf.InBounds) (x : List ℕ) :
    (setData bf.getData).test x = bf.test x := by
  have hsame : setData bf.getData = { bf with nAddBits := 0 } := by
    rw [setData, getData, ← h.nNb_eq]
  rw [hsame]
  rfl

end NhBloomFilter

/-- `CBlockState::GetBlockBloomData`: for a non-empty set, a filter of four bits per element with
each element added, written out; for an empty one the output is left as it was.  The set is
given by its elements in order. -/
def getBlockBloomData (setBlockBloomData : List (List ℕ)) (btBloomDataOut : List ℕ) : List ℕ :=
  if setBlockBloomData ≠ [] then
    (setBlockBloomData.foldl NhBloomFilter.add
      (.ofSize (setBlockBloomData.length * 4))).getData
  else btBloomDataOut

/-- `CRPCMod::RPCCheckAtBloomFilter`, from the bytes of its two hex parameters. -/
def rpcCheckAtBloomFilter (btBloomFilter btCheckData : List ℕ) : Except String Bool :=
  if btBloomFilter = [] then .error "Invalid bloomfilter"
  else if btCheckData = [] then .error "Invalid checkdata"
  else .ok ((NhBloomFilter.setData btBloomFilter).test btCheckData)

/-- **No false negatives, end to end.**  For any set a block collects, the RPC given the bytes
`GetBlockBloomData` wrote for it answers `true` for every non-empty element: the filter is in
bounds, its bytes are not empty, and rebuilt from them it tests as the filter that wrote them. -/
theorem rpcCheckAtBloomFilter_getBlockBloomData (setBlockBloomData : List (List ℕ))
    (btBloomDataOut : List ℕ) {d : List ℕ} (hd : d ∈ setBlockBloomData) (hne : d ≠ []) :
    rpcCheckAtBloomFilter (getBlockBloomData setBlockBloomData btBloomDataOut) d = .ok true := by
  have hS : setBlockBloomData ≠ [] := List.ne_nil_of_mem hd
  have hin := (NhBloomFilter.inBounds_ofSize (setBlockBloomData.length * 4)).foldl_add
    setBlockBloomData
  have hdata : getBlockBloomData setBlockBloomData btBloomDataOut =
      (setBlockBloomData.foldl NhBloomFilter.add
        (.ofSize (setBlockBloomData.length * 4))).getData := by
    rw [getBlockBloomData, if_pos hS]
  -- the bytes written are not empty, so the RPC rebuilds the filter from them
  have hbytes : (setBlockBloomData.foldl NhBloomFilter.add
      (.ofSize (setBlockBloomData.length * 4))).getData ≠ [] := by
    intro h0
    have hpos := hin.nNb_pos
    rw [hin.nNb_eq, ← NhBloomFilter.getData, h0, List.length_nil] at hpos
    omega
  rw [hdata, rpcCheckAtBloomFilter, if_neg hbytes, if_neg hne, hin.test_setData_getData,
    (NhBloomFilter.inBounds_ofSize _).test_foldl_add hd hne]

/-- A block that touched two addresses, one of them asked for. -/
theorem rpcCheckAtBloomFilter_getBlockBloomData_twoAddresses :
    [1, 2] ∈ [[1, 2], [3, 4, 5]] ∧ [1, 2] ≠ [] ∧
      rpcCheckAtBloomFilter (getBlockBloomData [[1, 2], [3, 4, 5]] []) [1, 2] = .ok true :=
  ⟨by decide, by decide,
    rpcCheckAtBloomFilter_getBlockBloomData [[1, 2], [3, 4, 5]] [] (by decide) (by decide)⟩

end MetabaseNet.BloomFilter
