/-
# Secret reconstruction: `MPLagrange` and `MPNewton`

`src/mpvss/mpinterpolation.cpp`.  A share is a pair `(x, y)`: an index `x` (`uint32_t`, in
`[1, 51]`) and a value `y` (`uint256`).  Both functions return `f(0)` for the polynomial `f`
through the shares, as a reduced scalar: `MPLagrange` by Lagrange's formula, `MPNewton` by
Newton's divided differences, each dividing by a difference of indices through the table
`SCInverse` of the inverses of `-50, …, 50`.

The model runs the source's loops over the scalar model of `Scalar25519`.  Each loop invariant
says which element of `ZMod prime` the scalars it holds represent; the library
`Interpolation` then identifies both sums with the value at zero of the interpolating
polynomial.
-/
import MetabaseNet.Scalar25519
import MetabaseNet.Lib.Interpolation
import MetabaseNet.Lib.Loop
import Mathlib.Data.List.GetD

namespace MetabaseNet

open CSC25519 Interpolation Finset Polynomial

/-! ## The model -/

/-- `SCInverse`: the inverses of `-50, …, 50` modulo `prime`, in order, with `0` for `0`. -/
def scInverse : List ℕ :=
  [limbs 0x1a17ca2895da543a 0xe5096a6aa2744012 0xae147ae147ae147a 0x2e147ae147ae147,
    limbs 0xd6c1048e38e29734 0x703b6f3c1d4691b 0xfac687d6343eb1a2 0xd6343eb1a1f58d0,
    limbs 0x8e8e2c645252d35c 0x656be09b9d9ede3a 0x5555555555555555 0xc55555555555555,
    limbs 0xed7c29d21ba8e31c 0x624022dde9bf9fad 0xe4c415c9882b9310 0x882b9310572620a,
    limbs 0x683b4fb698af7860 0x8017863313c72aac 0xbd37a6f4de9bd37a 0xcde9bd37a6f4de9,
    limbs 0xa34117ad84d07dfd 0x26865663f298f3a7 0xc16c16c16c16c16c 0xc16c16c16c16c16,
    limbs 0x5374c8120dbfc4d1 0x5d90b4396c6e5ad6 0x45d1745d1745d174 0x5d1745d1745d17,
    limbs 0x61bd53ee3c7fb44e 0xcf9dcac28a50b45 0x82fa0be82fa0be83 0xe82fa0be82fa0be,
    limbs 0x952a433f04647874 0xfa450432a0281211 0xcf3cf3cf3cf3cf3c 0x4f3cf3cf3cf3cf3,
    limbs 0x9a59a82eec1dfaa0 0xf60eb453588e963f 0x1f3831f3831f3831 0x1f3831f3831f383,
    limbs 0xcca6ee3fe9cbd33f 0xa8bb41f49c8d1e81 0x9999999999999999 0xb99999999999999,
    limbs 0x58034cdd58e3eaf6 0xe2ecf1c57fb64a19 0x2df2df2df2df2df2 0x2df2df2df2df2df,
    limbs 0x9ce4a4bb271a74e5 0x1c4d969773cae1f6 0x79435e50d79435e5 0xb5e50d79435e50d,
    limbs 0x46be53ec5e4655b0 0x2785790fa89a5fef 0xacf914c1bacf914c 0x914c1bacf914c1b,
    limbs 0xf60cc4d24ec72881 0x2af02d854681495b 0x71c71c71c71c71c7 0xb1c71c71c71c71c,
    limbs 0x1b0a8c283d0c0fb3 0x9f3f015beec4a6fc 0xf8af8af8af8af8af 0xf8af8af8af8af8a,
    limbs 0x72263ac7ddb7bf61 0x1844410f6603d440 0xf0f0f0f0f0f0f0f 0x70f0f0f0f0f0f0f,
    limbs 0x6f4660181255066c 0x7cc0f04c909323c8 0x7c1f07c1f07c1f0 0x7c1f07c1f07c1f,
    limbs 0x7dc2df7c1e86691d 0x342d70ac976b081 0 0x280000000000000,
    limbs 0x72e45a0b4d3a8476 0xee73e2ad70a7324c 0xbdef7bdef7bdef7b 0xbdef7bdef7bdef7,
    limbs 0x48d871f718bdd305 0x2f5a04a69a699f10 0x2222222222222222 0xa22222222222222,
    limbs 0xacf858ead3f4130 0x20c4c698645b07a4 0x9611a7b9611a7b96 0xb9611a7b9611a7b,
    limbs 0x5fbf64de8696b4ae 0x7767864bf03c1b1a 0xb6db6db6db6db6db 0x76db6db6db6db6d,
    limbs 0x62af6f06d5bafe0e 0xd600eb729c074e96 0x97b425ed097b425e 0x425ed097b425ed0,
    limbs 0x404f34c0555e071 0x54636aa83f916f26 0xc4ec4ec4ec4ec4ec 0x44ec4ec4ec4ec4e,
    limbs 0x342f94512bb4a874 0xca12d4d544e88024 0x5c28f5c28f5c28f5 0x5c28f5c28f5c28f,
    limbs 0xc509f5ae47afd2cb 0xb5f8c75898461f9e 0xaaaaaaaaaaaaaaaa 0x8aaaaaaaaaaaaaa,
    limbs 0x78643c52d4691cd3 0xeb5012878496b882 0x7a6f4de9bd37a6f4 0x9bd37a6f4de9bd3,
    limbs 0xa6e990241b7f89a2 0xbb216872d8dcb5ac 0x8ba2e8ba2e8ba2e8 0xba2e8ba2e8ba2e,
    limbs 0x2a54867e08c8f0e8 0xf48a086540502423 0x9e79e79e79e79e79 0x9e79e79e79e79e7,
    limbs 0x413b796576a1d291 0x3c978a0a9622a02d 0x3333333333333333 0x733333333333333,
    limbs 0xe1b6e65bf13f15dd 0x23bc3350449e2716 0xf286bca1af286bca 0x6bca1af286bca1a,
    limbs 0x9407268a40987d15 0x4101612bea0af5e1 0xe38e38e38e38e38e 0x638e38e38e38e38,
    limbs 0xe44c758fbb6f7ec2 0x3088821ecc07a880 0x1e1e1e1e1e1e1e1e 0xe1e1e1e1e1e1e1e,
    limbs 0xfb85bef83d0cd23a 0x685ae1592ed6102 0 0x500000000000000,
    limbs 0x399e80d3d485d21d 0x49d50f6e91dba14a 0x4444444444444444 0x444444444444444,
    limbs 0xbf7ec9bd0d2d695c 0xeecf0c97e0783634 0x6db6db6db6db6db6 0xedb6db6db6db6db,
    limbs 0x809e6980aabc0e2 0xa8c6d5507f22de4c 0x89d89d89d89d89d8 0x89d89d89d89d89d,
    limbs 0x320188423269d1a9 0x571294d28d94a267 0x5555555555555555 0x155555555555555,
    limbs 0x4dd3204836ff1344 0x7642d0e5b1b96b59 0x1745d1745d1745d1 0x1745d1745d1745d,
    limbs 0x8276f2caed43a522 0x792f14152c45405a 0x6666666666666666 0xe66666666666666,
    limbs 0x280e4d148130fa2a 0x8202c257d415ebc3 0xc71c71c71c71c71c 0xc71c71c71c71c71,
    limbs 0xf70b7df07a19a474 0xd0b5c2b25dac205 0 0xa00000000000000,
    limbs 0x26eb305fbd64fecb 0xc8bf1f511df8cf93 0xdb6db6db6db6db6d 0xdb6db6db6db6db6,
    limbs 0x6403108464d3a352 0xae2529a51b2944ce 0xaaaaaaaaaaaaaaaa 0x2aaaaaaaaaaaaaa,
    limbs 0xacdb827b7d917657 0xdd7f2e4bb592e3de 0xcccccccccccccccc 0xccccccccccccccc,
    limbs 0x960498c6973d74fb 0x537be77a8bde735 0 0x400000000000000,
    limbs 0xc8062108c9a746a4 0x5c4a534a3652899c 0x5555555555555555 0x555555555555555,
    limbs 0x2c09318d2e7ae9f6 0xa6f7cef517bce6b 0 0x800000000000000,
    limbs 0x5812631a5cf5d3ec 0x14def9dea2f79cd6 0 0x1000000000000000,
    limbs 0 0 0 0,
    limbs 0x1 0 0 0,
    limbs 0x2c09318d2e7ae9f7 0xa6f7cef517bce6b 0 0x800000000000000,
    limbs 0x900c4211934e8d49 0xb894a6946ca51339 0xaaaaaaaaaaaaaaaa 0xaaaaaaaaaaaaaaa,
    limbs 0xc20dca53c5b85ef2 0xfa73b66fa39b5a0 0 0xc00000000000000,
    limbs 0xab36e09edf645d96 0x375fcb92ed64b8f7 0x3333333333333333 0x333333333333333,
    limbs 0xf40f5295f822309b 0x66b9d03987ce5807 0x5555555555555555 0xd55555555555555,
    limbs 0x312732ba9f90d522 0x4c1fda8d84fecd43 0x2492492492492492 0x249249249249249,
    limbs 0x6106e529e2dc2f79 0x7d39db37d1cdad0 0 0x600000000000000,
    limbs 0x30041605dbc4d9c3 0x92dc3786cee1b113 0x38e38e38e38e38e3 0x38e38e38e38e38e,
    limbs 0xd59b704f6fb22ecb 0x9bafe5c976b25c7b 0x9999999999999999 0x199999999999999,
    limbs 0xa3f42d225f6c0a9 0x9e9c28f8f13e317d 0xe8ba2e8ba2e8ba2e 0xe8ba2e8ba2e8ba2,
    limbs 0x2610dad82a8c0244 0xbdcc650c1562fa6f 0xaaaaaaaaaaaaaaaa 0xeaaaaaaaaaaaaaa,
    limbs 0x50087c82524a130b 0x6c18248e23d4be8a 0x7627627627627627 0x762762762762762,
    limbs 0x9893995d4fc86a91 0x260fed46c27f66a1 0x9249249249249249 0x124924924924924,
    limbs 0x1e73e246887001d0 0xcb09ea70111bfb8c 0xbbbbbbbbbbbbbbbb 0xbbbbbbbbbbbbbbb,
    limbs 0x5c8ca4221fe901b3 0xe594bc9100a3bd3 0 0xb00000000000000,
    limbs 0x73c5ed8aa186552b 0xe45677bfd6eff455 0xe1e1e1e1e1e1e1e1 0x1e1e1e1e1e1e1e1,
    limbs 0xc40b3c901c5d56d8 0xd3dd98b2b8eca6f4 0x1c71c71c71c71c71 0x9c71c71c71c71c7,
    limbs 0x765b7cbe6bb6be10 0xf122c68e5e5975bf 0xd79435e50d79435 0x9435e50d79435e5,
    limbs 0x16d6e9b4e654015c 0xd8476fd40cd4fca9 0xcccccccccccccccc 0x8cccccccccccccc,
    limbs 0x2dbddc9c542ce305 0x2054f17962a778b3 0x6186186186186186 0x618618618618618,
    limbs 0xb128d2f641764a4b 0x59bd916bca1ae729 0x745d1745d1745d17 0xf45d1745d1745d1,
    limbs 0xdfae26c7888cb71a 0x298ee7571e60e453 0x8590b21642c8590b 0x642c8590b21642c,
    limbs 0x93086d6c15460122 0x5ee632860ab17d37 0x5555555555555555 0x755555555555555,
    limbs 0x23e2cec931412b79 0x4acc25095e0f1cb2 0xa3d70a3d70a3d70a 0xa3d70a3d70a3d70,
    limbs 0x540d6fce579ff37c 0xc07b8f3663662db0 0x3b13b13b13b13b13 0xbb13b13b13b13b1,
    limbs 0xf562f413873ad5df 0x3ede0e6c06f04e3f 0x684bda12f684bda1 0xbda12f684bda12f,
    limbs 0xf852fe3bd65f1f3f 0x9d777392b2bb81bb 0x4924924924924924 0x892492492492492,
    limbs 0x4d42dd8bafb692bd 0xf41a33463e9c9532 0x69ee58469ee58469 0x469ee58469ee584,
    limbs 0xf39f123443800e8 0xe584f538088dfdc6 0xdddddddddddddddd 0x5dddddddddddddd,
    limbs 0xe52e090f0fbb4f77 0x266b173132506a89 0x4210842108421084 0x421084210842108,
    limbs 0xda4f839e3e6f6ad0 0x119c22d3d980ec54 0 0xd80000000000000,
    limbs 0xe8cc03024aa0cd81 0x981e09921264790d 0xf83e0f83e0f83e0f 0xf83e0f83e0f83e0,
    limbs 0xe5ec28527f3e148c 0xfc9ab8cf3cf3c895 0xf0f0f0f0f0f0f0f0 0x8f0f0f0f0f0f0f0,
    limbs 0x3d07d6f21fe9c43a 0x759ff882b432f5da 0x750750750750750 0x75075075075075,
    limbs 0x62059e480e2eab6c 0xe9eecc595c76537a 0x8e38e38e38e38e38 0x4e38e38e38e38e3,
    limbs 0x11540f2dfeaf7e3d 0xed5980cefa5d3ce7 0x5306eb3e45306eb3 0x6eb3e45306eb3e4,
    limbs 0xbb2dbe5f35db5f08 0xf89163472f2cbadf 0x86bca1af286bca1a 0x4a1af286bca1af2,
    limbs 0xf163d0411e8f7 0x31f20819234152bd 0xd20d20d20d20d20d 0xd20d20d20d20d20,
    limbs 0x8b6b74da732a00ae 0x6c23b7ea066a7e54 0x6666666666666666 0x466666666666666,
    limbs 0xbdb8baeb70d7d94d 0x1ed0458b4a690696 0xe0c7ce0c7ce0c7ce 0xe0c7ce0c7ce0c7c,
    limbs 0xc2e81fdb58915b79 0x1a99f5ac02cf8ac4 0x30c30c30c30c30c3 0xb0c30c30c30c30c,
    limbs 0xf6550f2c20761f9f 0x7e51d327a529190 0x7d05f417d05f417d 0x17d05f417d05f41,
    limbs 0x49d9b084f360f1c 0xb74e45a536894200 0xba2e8ba2e8ba2e8b 0xfa2e8ba2e8ba2e8,
    limbs 0xb4d14b6cd82555f0 0xee58a37ab05ea92e 0x3e93e93e93e93e93 0x3e93e93e93e93e9,
    limbs 0xefd71363c4465b8d 0x94c773ab8f307229 0x42c8590b21642c85 0x321642c8590b216,
    limbs 0x6a963948414cf0d1 0xb29ed700b937fd28 0x1b3bea3677d46cef 0x77d46cefa8d9df5,
    limbs 0xc98436b60aa30091 0xaf7319430558be9b 0xaaaaaaaaaaaaaaaa 0x3aaaaaaaaaaaaaa,
    limbs 0x81515e8c24133cb9 0xddb42eae12333ba 0x5397829cbc14e5e 0x29cbc14e5e0a72f,
    limbs 0x3dfa98f1c71b7fb3 0x2fd58f7400835cc4 0x51eb851eb851eb85 0xd1eb851eb851eb8]

/-- `*(SCInverseZero + a - b)`: the entry at offset `a - b` from the middle of the table. -/
def scInverseAt (a b : ℕ) : ℕ := scInverse.getD (50 + a - b) 0

/-- The inner loop of `MPLagrange` for share `i`: `l *= *(SCInverseZero + x_j - x_i) * x_j`
for every other share `j`. -/
def lagrangeFactor (vShare : List (ℕ × ℕ)) (i : ℕ) : ℕ :=
  (List.range vShare.length).foldl (fun l j =>
    if i ≠ j then
      mul l (mulU32 (scInverseAt (vShare.getD j (0, 0)).1 (vShare.getD i (0, 0)).1)
        (vShare.getD j (0, 0)).1)
    else l) 1

/-- `MPLagrange`: `s0 += l * CSC25519(y_i)` over the shares. -/
def mpLagrange (vShare : List (ℕ × ℕ)) : ℕ :=
  (List.range vShare.length).foldl (fun s0 i =>
    add s0 (mul (lagrangeFactor vShare i) (ofBytes (vShare.getD i (0, 0)).2))) 0

/-- The state of the outer loop of `MPNewton`: the rows `vDiffSet` of the divided-difference
table built so far, the Newton `basis` and the sum `s0`. -/
structure NewtonState where
  vDiffSet : List (List ℕ)
  basis : ℕ
  s0 : ℕ

/-- Row `i` of `vDiffSet` from row `i - 1` (`vPrev`): `vDiff[0] = y_i`, then
`vDiff[j + 1] = (vDiff[j] - vPrev[j]) * *(SCInverseZero + x_i - x_{i-j-1})`. -/
def newtonRow (vShare : List (ℕ × ℕ)) (i : ℕ) (vPrev : List ℕ) : List ℕ :=
  (List.range i).foldl (fun vDiff j =>
    vDiff ++ [mul (sub (vDiff.getD j 0) (vPrev.getD j 0))
      (scInverseAt (vShare.getD i (0, 0)).1 (vShare.getD (i - j - 1) (0, 0)).1)])
    [ofBytes (vShare.getD i (0, 0)).2]

/-- One iteration of the outer loop of `MPNewton`: build row `i`, add `basis * vDiff.back()`
to `s0`, then `basis *= x_i` and `basis.Negative()`. -/
def newtonStep (vShare : List (ℕ × ℕ)) (st : NewtonState) (i : ℕ) : NewtonState :=
  let vDiff := newtonRow vShare i (st.vDiffSet.getD (i - 1) [])
  { vDiffSet := st.vDiffSet ++ [vDiff]
    basis := negative (mulU32 st.basis (vShare.getD i (0, 0)).1)
    s0 := add st.s0 (mul st.basis (vDiff.getLastD 0)) }

/-- `MPNewton`. -/
def mpNewton (vShare : List (ℕ × ℕ)) : ℕ :=
  ((List.range vShare.length).foldl (newtonStep vShare) ⟨[], 1, 0⟩).s0

example : mpNewton [(1, 5), (2, 7)] = 3 := by decide +kernel

/-! ## The table -/

/-- Every entry of `SCInverse` other than the middle one is reduced and inverts its offset. -/
theorem scInverse_mul_offset :
    ∀ k < 101, k ≠ 50 → scInverse.getD k 0 < prime ∧ scInverse.getD k 0 * (k + prime - 50) % prime = 1 := by
  decide +kernel

/-- The entry at signed offset `d` from `SCInverseZero` represents `d⁻¹`, for every
`d ∈ [-50, 50] \ {0}`. -/
theorem scInverse_offset_represents {d : ℤ} (hlo : -50 ≤ d) (hhi : d ≤ 50) (hd0 : d ≠ 0) :
    Represents (scInverse.getD (50 + d).toNat 0) (d : ZMod prime)⁻¹ := by
  have hp := prime_gt
  obtain ⟨k, hk⟩ : ∃ k : ℕ, (k : ℤ) = 50 + d := ⟨(50 + d).toNat, Int.toNat_of_nonneg (by omega)⟩
  rw [← hk, Int.toNat_natCast]
  obtain ⟨hlt, hinv⟩ := scInverse_mul_offset k (by omega) (by omega)
  refine ⟨hlt, eq_inv_of_mul_eq_one_left ?_⟩
  have h := congrArg (fun n : ℕ => (n : ZMod prime)) hinv
  simp only [ZMod.natCast_mod, Nat.cast_mul, Nat.cast_one] at h
  -- the table is checked against `k + prime - 50`, which is `d` modulo `prime`
  have hkd : ((k + prime - 50 : ℕ) : ZMod prime) = d := by
    have hz : ((k + prime - 50 : ℕ) : ℤ) = d + prime := by
      rw [Nat.cast_sub (by omega)]
      push_cast
      omega
    rw [← Int.cast_natCast, hz, Int.cast_add, Int.cast_natCast, ZMod.natCast_self, add_zero]
  rw [hkd] at h
  exact h

/-- The entry at offset `a - b` represents `(a - b)⁻¹`, for indices in `[1, 51]`. -/
theorem scInverseAt_represents {a b : ℕ} (ha : 1 ≤ a ∧ a ≤ 51) (hb : 1 ≤ b ∧ b ≤ 51)
    (hab : a ≠ b) : Represents (scInverseAt a b) ((a : ZMod prime) - b)⁻¹ := by
  have h := scInverse_offset_represents (d := (a : ℤ) - b) (by omega) (by omega) (by omega)
  rw [show (50 + ((a : ℤ) - b)).toNat = 50 + a - b by omega] at h
  exact h.congr (by push_cast; ring)

/-! ## Shares -/

/-- The index of share `i` in `ZMod prime`. -/
def shareX (vShare : List (ℕ × ℕ)) (i : ℕ) : ZMod prime := ((vShare.getD i (0, 0)).1 : ZMod prime)

/-- The value of share `i` in `ZMod prime`. -/
def shareY (vShare : List (ℕ × ℕ)) (i : ℕ) : ZMod prime := ((vShare.getD i (0, 0)).2 : ZMod prime)

section Shares

variable {vShare : List (ℕ × ℕ)} (hx : ∀ s ∈ vShare, 1 ≤ s.1 ∧ s.1 ≤ 51)
  (hy : ∀ s ∈ vShare, s.2 < prime) (hd : (vShare.map Prod.fst).Nodup)

include hx in
theorem share_index {i : ℕ} (hi : i < vShare.length) :
    1 ≤ (vShare.getD i (0, 0)).1 ∧ (vShare.getD i (0, 0)).1 ≤ 51 := by
  rw [List.getD_eq_getElem _ _ hi]
  exact hx _ (List.getElem_mem hi)

include hy in
theorem share_value {i : ℕ} (hi : i < vShare.length) : (vShare.getD i (0, 0)).2 < prime := by
  rw [List.getD_eq_getElem _ _ hi]
  exact hy _ (List.getElem_mem hi)

include hx hd in
/-- Distinct shares have distinct indices in `ZMod prime`. -/
theorem shareX_injOn : Set.InjOn (shareX vShare) (range vShare.length) := by
  intro i hi j hj hij
  have hi' : i < vShare.length := mem_range.mp hi
  have hj' : j < vShare.length := mem_range.mp hj
  have hp := prime_gt
  have hxi := share_index hx hi'
  have hxj := share_index hx hj'
  -- indices below `prime` are equal as soon as their residues are
  have heq : (vShare.getD i (0, 0)).1 = (vShare.getD j (0, 0)).1 := by
    have h := (ZMod.natCast_eq_natCast_iff' _ _ _).mp hij
    rwa [Nat.mod_eq_of_lt (by omega), Nat.mod_eq_of_lt (by omega)] at h
  rw [List.getD_eq_getElem _ _ hi', List.getD_eq_getElem _ _ hj'] at heq
  have hi'' : i < (vShare.map Prod.fst).length := by simpa using hi'
  have hj'' : j < (vShare.map Prod.fst).length := by simpa using hj'
  have heq' : (vShare.map Prod.fst)[i] = (vShare.map Prod.fst)[j] := by simpa using heq
  exact hd.getElem_inj_iff.mp heq'

include hx in
theorem shareX_ne_zero {i : ℕ} (hi : i < vShare.length) : shareX vShare i ≠ 0 := by
  have hp := prime_gt
  have hxi := share_index hx hi
  intro h
  have h' := (ZMod.natCast_eq_zero_iff _ _).mp h
  have := Nat.le_of_dvd (by omega) h'
  omega

include hy in
theorem shareY_represents {i : ℕ} (hi : i < vShare.length) :
    Represents (ofBytes (vShare.getD i (0, 0)).2) (shareY vShare i) :=
  ofBytes_represents (by have := share_value hy hi; have := prime_lt; omega)

end Shares

/-! ## `MPLagrange` -/

section Lagrange

variable {vShare : List (ℕ × ℕ)} (hx : ∀ s ∈ vShare, 1 ≤ s.1 ∧ s.1 ≤ 51)
  (hy : ∀ s ∈ vShare, s.2 < prime) (hd : (vShare.map Prod.fst).Nodup)

include hx hd in
/-- The inner loop builds the Lagrange weight `∏ j ≠ i, x_j / (x_j - x_i)` of share `i`. -/
theorem lagrangeFactor_represents {i : ℕ} (hi : i < vShare.length) :
    Represents (lagrangeFactor vShare i) (∏ j ∈ (range vShare.length).erase i,
      shareX vShare j / (shareX vShare j - shareX vShare i)) := by
  have hinj := shareX_injOn hx hd
  rw [← filter_ne, prod_filter]
  unfold lagrangeFactor
  -- after `k` iterations: the product over the shares `j < k` other than `i`
  refine Loop.foldl_range_inv _ (fun k l => Represents l (∏ j ∈ range k,
      if i ≠ j then shareX vShare j / (shareX vShare j - shareX vShare i) else 1)) ?_ ?_
  · exact (represents_natCast (by have := prime_gt; omega)).congr (by simp)
  · intro k hk l hl
    rw [prod_range_succ]
    by_cases hik : i ≠ k
    · rw [if_pos hik, if_pos hik]
      have hne : (vShare.getD k (0, 0)).1 ≠ (vShare.getD i (0, 0)).1 := fun h =>
        hik (hinj (mem_range.mpr hi) (mem_range.mpr hk) (by rw [shareX, shareX, h]))
      have hxk := share_index hx hk
      refine (mul_represents hl (mulU32_represents
        (scInverseAt_represents hxk (share_index hx hi) hne) (by omega))).congr ?_
      simp only [shareX]
      ring
    · rw [if_neg hik, if_neg hik, mul_one]
      exact hl

include hx hy hd in
/-- `MPLagrange` computes Lagrange's form at zero. -/
theorem mpLagrange_represents :
    Represents (mpLagrange vShare)
      ((interp (shareX vShare) (shareY vShare) 0 vShare.length).eval 0) := by
  rw [interp_eval_zero_lagrange]
  unfold mpLagrange
  refine Loop.foldl_range_inv _ (fun k s0 => Represents s0 (∑ i ∈ range k, shareY vShare i *
      ∏ j ∈ (range vShare.length).erase i, shareX vShare j / (shareX vShare j - shareX vShare i)))
    ?_ ?_
  · exact (represents_natCast (by have := prime_gt; omega)).congr (by simp)
  · intro k hk s0 hs0
    rw [sum_range_succ]
    refine (add_represents hs0 (mul_represents (lagrangeFactor_represents hx hd hk)
      (shareY_represents hy hk))).congr ?_
    ring

end Lagrange

/-! ## `MPNewton` -/

theorem getLastD_eq_getD {l : List ℕ} {k : ℕ} (h : l.length = k + 1) :
    l.getLastD 0 = l.getD k 0 := by
  rw [List.getLastD_eq_getLast?, List.getLast?_eq_getElem?, List.getD_eq_getElem?_getD, h,
    Nat.add_sub_cancel]

/-- What the outer loop of `MPNewton` keeps after `k` iterations: `k` rows, the last one
holding `y[x_{k-1-j}, …, x_{k-1}]` at `j`; `basis = ∏ m < k, (0 - x_m)`; and `s0` the first
`k` terms of Newton's form at zero. -/
structure NewtonInv (vShare : List (ℕ × ℕ)) (k : ℕ) (st : NewtonState) : Prop where
  length : st.vDiffSet.length = k
  row : ∀ j < k, Represents ((st.vDiffSet.getD (k - 1) []).getD j 0)
    (divDiff (shareX vShare) (shareY vShare) (k - (j + 1)) j)
  basis : Represents st.basis (∏ m ∈ range k, (0 - shareX vShare m))
  s0 : Represents st.s0 (∑ m ∈ range k,
    divDiff (shareX vShare) (shareY vShare) 0 m * ∏ l ∈ range m, (0 - shareX vShare l))

theorem newtonInv_init (vShare : List (ℕ × ℕ)) : NewtonInv vShare 0 ⟨[], 1, 0⟩ where
  length := rfl
  row := fun _ hj => absurd hj (Nat.not_lt_zero _)
  basis := (represents_natCast (show 1 < prime by have := prime_gt; omega)).congr (by simp)
  s0 := (represents_natCast (show 0 < prime by have := prime_gt; omega)).congr (by simp)

section Newton

variable {vShare : List (ℕ × ℕ)} (hx : ∀ s ∈ vShare, 1 ≤ s.1 ∧ s.1 ≤ 51)
  (hy : ∀ s ∈ vShare, s.2 < prime) (hd : (vShare.map Prod.fst).Nodup)

include hx hy hd in
/-- The inner loop of `MPNewton` fills row `i` of the divided-difference table from row
`i - 1`, one entry per iteration by the recurrence `divDiff_succ_row`. -/
theorem newtonRow_represents {i : ℕ} (hi : i < vShare.length) {vPrev : List ℕ}
    (hprev : ∀ j < i, Represents (vPrev.getD j 0)
      (divDiff (shareX vShare) (shareY vShare) (i - (j + 1)) j)) :
    (newtonRow vShare i vPrev).length = i + 1 ∧
      ∀ j ≤ i, Represents ((newtonRow vShare i vPrev).getD j 0)
        (divDiff (shareX vShare) (shareY vShare) (i - j) j) := by
  have hinj : Set.InjOn (shareX vShare) (range (i + 1)) :=
    (shareX_injOn hx hd).mono (coe_subset.mpr (range_subset_range.mpr hi))
  unfold newtonRow
  refine Loop.foldl_range_inv _ (fun k (vDiff : List ℕ) => vDiff.length = k + 1 ∧ ∀ j ≤ k,
      Represents (vDiff.getD j 0) (divDiff (shareX vShare) (shareY vShare) (i - j) j)) ?_ ?_
  · refine ⟨rfl, fun j hj => ?_⟩
    obtain rfl : j = 0 := by omega
    rw [List.getD_cons_zero, Nat.sub_zero, divDiff_zero]
    exact shareY_represents hy hi
  · rintro k hk vDiff ⟨hlen, hrow⟩
    refine ⟨by simp [hlen], fun j hj => ?_⟩
    rcases Nat.lt_or_ge j (k + 1) with hjk | hjk
    · rw [List.getD_append _ _ _ _ (by omega)]
      exact hrow j (by omega)
    · -- the new entry, from entry `k` of this row and of the row before
      obtain rfl : j = k + 1 := by omega
      rw [List.getD_append_right _ _ _ _ (by omega), hlen, Nat.sub_self, List.getD_cons_zero,
        divDiff_succ_row hk hinj, Nat.sub_sub]
      have hne : (vShare.getD i (0, 0)).1 ≠ (vShare.getD (i - (k + 1)) (0, 0)).1 := by
        intro h
        have heq : shareX vShare i = shareX vShare (i - (k + 1)) := by rw [shareX, shareX, h]
        have := shareX_injOn hx hd (mem_range.mpr hi) (mem_range.mpr (by omega)) heq
        omega
      exact mul_represents (sub_represents (hrow k le_rfl) (hprev k hk))
        (scInverseAt_represents (share_index hx hi) (share_index hx (by omega)) hne)

include hx hy hd in
/-- **The step lemma** of `MPNewton`'s outer loop. -/
theorem NewtonInv.step {k : ℕ} {st : NewtonState} (h : NewtonInv vShare k st)
    (hk : k < vShare.length) : NewtonInv vShare (k + 1) (newtonStep vShare st k) := by
  obtain ⟨hlen, hrow⟩ := newtonRow_represents hx hy hd hk h.row
  have hlast : (st.vDiffSet ++ [newtonRow vShare k (st.vDiffSet.getD (k - 1) [])]).getD (k + 1 - 1) []
      = newtonRow vShare k (st.vDiffSet.getD (k - 1) []) := by
    rw [Nat.add_sub_cancel, List.getD_append_right _ _ _ _ (by rw [h.length]), h.length, Nat.sub_self,
      List.getD_cons_zero]
  have hxk := share_index hx hk
  -- the Newton basis before the sign change is a product of nonzero indices
  have hnz : (∏ m ∈ range k, (0 - shareX vShare m)) * shareX vShare k ≠ 0 :=
    mul_ne_zero (prod_ne_zero_iff.mpr fun m hm => by
      rw [zero_sub, neg_ne_zero]
      exact shareX_ne_zero hx (by have := mem_range.mp hm; omega)) (shareX_ne_zero hx hk)
  refine ⟨by simp [newtonStep, h.length], fun j hj => ?_, ?_, ?_⟩
  · simp only [newtonStep]
    rw [hlast, show k + 1 - (j + 1) = k - j by omega]
    exact hrow j (by omega)
  · simp only [newtonStep]
    refine (negative_represents (mulU32_represents h.basis (by omega)) (by rwa [shareX] at hnz)).congr ?_
    rw [prod_range_succ, shareX]
    ring
  · simp only [newtonStep]
    rw [getLastD_eq_getD hlen]
    have hdd := hrow k le_rfl
    rw [Nat.sub_self] at hdd
    refine (add_represents h.s0 (mul_represents h.basis hdd)).congr ?_
    rw [sum_range_succ]
    ring

include hx hy hd in
/-- `MPNewton` computes Newton's form at zero. -/
theorem mpNewton_represents :
    Represents (mpNewton vShare)
      ((interp (shareX vShare) (shareY vShare) 0 vShare.length).eval 0) := by
  have hinv := Loop.foldl_range_inv (newtonStep vShare) (NewtonInv vShare) (newtonInv_init vShare)
    (n := vShare.length) fun k hk st h => h.step hx hy hd hk
  exact hinv.s0.congr (interp_eval_zero_newton (shareX_injOn hx hd)).symm

end Newton

/-! ## Newton agrees with Lagrange -/

/-- **`MPNewton` and `MPLagrange` both recover the secret.**  For shares with pairwise distinct
indices in `[1, 51]` and values below `prime`, the inverse table holds `d⁻¹` at every offset
`d ∈ [-50, 50] \ {0}`, and both functions return `P(0)` for the unique polynomial `P` over
`ZMod prime` of degree below the number of shares through all of them. -/
theorem mpNewton_eq_mpLagrange (vShare : List (ℕ × ℕ)) (hx : ∀ s ∈ vShare, 1 ≤ s.1 ∧ s.1 ≤ 51)
    (hy : ∀ s ∈ vShare, s.2 < prime) (hd : (vShare.map Prod.fst).Nodup) :
    (∀ d : ℤ, -50 ≤ d → d ≤ 50 → d ≠ 0 →
      Represents (scInverse.getD (50 + d).toNat 0) (d : ZMod prime)⁻¹) ∧
    ∃ P : (ZMod prime)[X], P.degree < vShare.length ∧
      (∀ s ∈ vShare, P.eval (s.1 : ZMod prime) = s.2) ∧
      (∀ Q : (ZMod prime)[X], Q.degree < vShare.length →
        (∀ s ∈ vShare, Q.eval (s.1 : ZMod prime) = s.2) → Q = P) ∧
      mpNewton vShare = (P.eval 0).val ∧ mpLagrange vShare = (P.eval 0).val := by
  have hinj := shareX_injOn hx hd
  -- a share is the one at its position in the list
  have hmem : ∀ s ∈ vShare, ∃ i < vShare.length, shareX vShare i = s.1 ∧ shareY vShare i = s.2 := by
    intro s hs
    obtain ⟨i, hi, rfl⟩ := List.mem_iff_getElem.mp hs
    exact ⟨i, hi, by rw [shareX, List.getD_eq_getElem _ _ hi], by rw [shareY, List.getD_eq_getElem _ _ hi]⟩
  refine ⟨fun d hlo hhi hd0 => scInverse_offset_represents hlo hhi hd0,
    interp (shareX vShare) (shareY vShare) 0 vShare.length,
    interp_degree_lt (by rwa [zero_add, ← range_eq_Ico]), fun s hs => ?_, fun Q hQ hQs => ?_,
    (mpNewton_represents hx hy hd).val_eq.symm, (mpLagrange_represents hx hy hd).val_eq.symm⟩
  · obtain ⟨i, hi, hxi, hyi⟩ := hmem s hs
    rw [← hxi, ← hyi]
    exact interp_eval hinj hi
  · refine interp_unique hinj hQ fun i hi => ?_
    rw [shareX, shareY, List.getD_eq_getElem _ _ hi]
    exact hQs _ (List.getElem_mem hi)

/-- Three shares of the degree-two polynomial through `(1, 5)`, `(3, 7)`, `(4, 2)`. -/
theorem mpNewton_eq_mpLagrange_threeShares :
    mpNewton [(1, 5), (3, 7), (4, 2)] = mpLagrange [(1, 5), (3, 7), (4, 2)] := by
  obtain ⟨-, P, -, -, -, hN, hL⟩ :=
    mpNewton_eq_mpLagrange [(1, 5), (3, 7), (4, 2)] (by decide) (by decide) (by decide)
  rw [hN, hL]

end MetabaseNet
