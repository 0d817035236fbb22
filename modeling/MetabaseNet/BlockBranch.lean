/-
# Fork-switch paths: `CBlockBase::GetBranch` and `GetBlockBranchListNolock`

`src/storage/blockbase.cpp`.  When a block `I` becomes the new best block of a fork whose
current last block is `R`, `GetBlockBranchListNolock` lists the blocks to undo, from `R` down
to the fork point, and the blocks to apply, from the fork point up to `I`.  The fork point
comes from `GetBranch`, a two-pointer walk down the `pPrev` links steered by block time
stamps, not by heights.

The block indexes form a parent-pointer forest (`ParentTree`).  The validation functions
`VerifyProofOfWork`, `VerifyDelegatedProofOfStake` and `VerifySubsidiary` of
`src/blockchain/core.cpp` accept a block only when its time is later than its predecessor's,
which is `TimeIncreasing`.  Under it the walk keeps every common ancestor of its two starting
blocks below both pointers (`BranchInv`), the later pointer is never the fork point, and the
sum of the two time stamps drops at every iteration; so the walk stops at the lowest common
ancestor with `vPath` the path from `I` down to it (`getBranch_spec`).

The loops are modelled with an explicit `fuel` bound on the number of iterations, and a
dereference of a null `pPrev` is `none`.
-/
import MetabaseNet.Lib.ParentTree
import Mathlib

namespace MetabaseNet

open ParentTree

variable {α : Type}

/-! ## The index links -/

/-- The two fields of `CBlockIndex` that the branch walk reads: the `pPrev` link (`none` for
a null pointer) and the block time `GetBlockTime()`. -/
structure IndexLinks (α : Type) where
  pPrev : α → Option α
  nTimeStamp : α → ℕ

/-! ## `GetBranch` -/

/-- The `while (pIndex != pIndexRef)` loop of `CBlockBase::GetBranch` with its `vPath`
accumulator, for at most `fuel` iterations.  The pointer with the later time steps back; on
equal times both do, and `pIndex` is pushed whenever it steps. -/
def getBranchLoop [DecidableEq α] (t : IndexLinks α) : ℕ → α → α → List α → Option (α × List α)
  | 0, _, _, _ => none
  | fuel + 1, pIndexRef, pIndex, vPath =>
    if pIndex = pIndexRef then some (pIndex, vPath)
    else if t.nTimeStamp pIndex < t.nTimeStamp pIndexRef then
      (t.pPrev pIndexRef).bind fun r => getBranchLoop t fuel r pIndex vPath
    else if t.nTimeStamp pIndexRef < t.nTimeStamp pIndex then
      (t.pPrev pIndex).bind fun i => getBranchLoop t fuel pIndexRef i (vPath ++ [pIndex])
    else
      (t.pPrev pIndex).bind fun i =>
        (t.pPrev pIndexRef).bind fun r => getBranchLoop t fuel r i (vPath ++ [pIndex])

/-- `CBlockBase::GetBranch(pIndexRef, pIndex, vPath)`: the meeting block and `vPath`. -/
def getBranch [DecidableEq α] (t : IndexLinks α) (fuel : ℕ) (pIndexRef pIndex : α) : Option (α × List α) :=
  getBranchLoop t fuel pIndexRef pIndex []

/-! ## The loop invariant -/

section Walk

variable {t : IndexLinks α}

/-- The common ancestors of the two starting blocks. -/
def IsCommon (t : IndexLinks α) (r₀ i₀ d : α) : Prop :=
  IsAncestor t.pPrev d r₀ ∧ IsAncestor t.pPrev d i₀

/-- What `GetBranch`'s loop keeps, from the starting blocks `r₀` (the reference) and `i₀`:
the reference pointer stays below `r₀`, `vPath` is the path from `i₀` down to the other
pointer, and every common ancestor of the starting blocks is below both pointers. -/
structure BranchInv (t : IndexLinks α) (r₀ i₀ r i : α) (vPath : List α) : Prop where
  ref : IsAncestor t.pPrev r r₀
  path : DownPath t.pPrev i i₀ vPath
  common : ∀ d, IsCommon t r₀ i₀ d → IsAncestor t.pPrev d r ∧ IsAncestor t.pPrev d i

/-- The loop starts in its invariant. -/
theorem branchInv_init (r₀ i₀ : α) : BranchInv t r₀ i₀ r₀ i₀ [] :=
  ⟨IsAncestor.refl r₀, DownPath.here, fun _ hd => hd⟩

/-- The key step: a block no earlier than another, distinct from it, is not a common ancestor
of the two; so when some common ancestor exists, the block has a parent, and every common
ancestor is below that parent. -/
theorem common_below_parent (ht : TimeIncreasing t.pPrev t.nTimeStamp) {x y : α}
    (S : α → Prop) (hS : ∀ d, S d → IsAncestor t.pPrev d x ∧ IsAncestor t.pPrev d y)
    (hne : x ≠ y) (hle : t.nTimeStamp y ≤ t.nTimeStamp x) {c : α} (hc : S c) :
    ∃ x', t.pPrev x = some x' ∧ ∀ d, S d → IsAncestor t.pPrev d x' := by
  have hnot : ∀ d, S d → d ≠ x := by
    intro d hd hdx
    subst hdx
    have hlt := (hS d hd).2.time_lt ht hne
    omega
  obtain ⟨x', hx', -⟩ := (hS c hc).1.exists_parent (hnot c hc)
  refine ⟨x', hx', fun d hd => ?_⟩
  obtain ⟨p, hp, hdp⟩ := (hS d hd).1.exists_parent (hnot d hd)
  rw [hx'] at hp
  cases hp
  exact hdp

/-- The reference pointer steps back when it is the later one (or on a tie). -/
theorem BranchInv.step_ref (ht : TimeIncreasing t.pPrev t.nTimeStamp) {r₀ i₀ r i c : α}
    {vPath : List α} (h : BranchInv t r₀ i₀ r i vPath) (hc : IsCommon t r₀ i₀ c)
    (hne : i ≠ r) (hle : t.nTimeStamp i ≤ t.nTimeStamp r) :
    ∃ r', t.pPrev r = some r' ∧ BranchInv t r₀ i₀ r' i vPath := by
  obtain ⟨r', hr', hbelow⟩ :=
    common_below_parent ht (IsCommon t r₀ i₀) h.common (Ne.symm hne) hle hc
  refine ⟨r', hr', ⟨(isAncestor_of_parent hr').trans h.ref, h.path, ?_⟩⟩
  intro d hd
  exact ⟨hbelow d hd, (h.common d hd).2⟩

/-- The other pointer steps back when it is the later one (or on a tie), and is pushed onto
`vPath`. -/
theorem BranchInv.step_index (ht : TimeIncreasing t.pPrev t.nTimeStamp) {r₀ i₀ r i c : α}
    {vPath : List α} (h : BranchInv t r₀ i₀ r i vPath) (hc : IsCommon t r₀ i₀ c)
    (hne : i ≠ r) (hle : t.nTimeStamp r ≤ t.nTimeStamp i) :
    ∃ i', t.pPrev i = some i' ∧ BranchInv t r₀ i₀ r i' (vPath ++ [i]) := by
  have hS : ∀ d, IsCommon t r₀ i₀ d → IsAncestor t.pPrev d i ∧ IsAncestor t.pPrev d r :=
    fun d hd => (h.common d hd).symm
  obtain ⟨i', hi', hbelow⟩ := common_below_parent ht (IsCommon t r₀ i₀) hS hne hle hc
  refine ⟨i', hi', ⟨h.ref, ht.acyclic.downPath_snoc h.path hi', ?_⟩⟩
  intro d hd
  exact ⟨(h.common d hd).1, hbelow d hd⟩

/-- When the pointers meet, the meeting block is the lowest common ancestor and `vPath` the
path from `i₀` down to it. -/
theorem BranchInv.meet {r₀ i₀ a : α} {vPath : List α} (h : BranchInv t r₀ i₀ a a vPath) :
    IsLCA t.pPrev a r₀ i₀ ∧ DownPath t.pPrev a i₀ vPath :=
  ⟨⟨h.ref, h.path.isAncestor, fun d hdr hdi => (h.common d ⟨hdr, hdi⟩).1⟩, h.path⟩

/-- **The run lemma.**  From a state in the invariant, with a common ancestor and more fuel than
the two time stamps sum to, the loop returns the lowest common ancestor and the down path.
The induction is on the fuel; each iteration lowers the sum of the time stamps. -/
theorem getBranchLoop_spec [DecidableEq α] (ht : TimeIncreasing t.pPrev t.nTimeStamp) {r₀ i₀ c : α}
    (hc : IsCommon t r₀ i₀ c) :
    ∀ (fuel : ℕ) (r i : α) (vPath : List α), BranchInv t r₀ i₀ r i vPath →
      t.nTimeStamp r + t.nTimeStamp i < fuel →
      ∃ a l, getBranchLoop t fuel r i vPath = some (a, l) ∧
        IsLCA t.pPrev a r₀ i₀ ∧ DownPath t.pPrev a i₀ l := by
  intro fuel
  induction fuel with
  | zero => intro r i vPath _ hfuel; omega
  | succ fuel ih =>
    intro r i vPath h hfuel
    by_cases hir : i = r
    · subst hir
      exact ⟨i, vPath, by simp [getBranchLoop], h.meet⟩
    by_cases hlt : t.nTimeStamp i < t.nTimeStamp r
    · -- only the reference pointer steps back
      obtain ⟨r', hr', h'⟩ := h.step_ref ht hc hir (Nat.le_of_lt hlt)
      have hdrop := ht _ _ hr'
      obtain ⟨a, l, hrun, hres⟩ := ih r' i vPath h' (by omega)
      exact ⟨a, l, by simp [getBranchLoop, hir, hlt, hr', hrun], hres⟩
    by_cases hgt : t.nTimeStamp r < t.nTimeStamp i
    · -- only `pIndex` steps back and is pushed
      obtain ⟨i', hi', h'⟩ := h.step_index ht hc hir (Nat.le_of_lt hgt)
      have hdrop := ht _ _ hi'
      obtain ⟨a, l, hrun, hres⟩ := ih r i' (vPath ++ [i]) h' (by omega)
      exact ⟨a, l, by simp [getBranchLoop, hir, hlt, hgt, hi', hrun], hres⟩
    · -- equal times: both step back
      have heq : t.nTimeStamp r ≤ t.nTimeStamp i := by omega
      obtain ⟨i', hi', h₁⟩ := h.step_index ht hc hir heq
      have hdrop₁ := ht _ _ hi'
      -- the new `pIndex` is strictly earlier than the old reference pointer, so differs from it
      have hne : i' ≠ r := by
        intro hir'
        rw [hir'] at hdrop₁
        omega
      obtain ⟨r', hr', h₂⟩ := h₁.step_ref ht hc hne (by omega)
      have hdrop₂ := ht _ _ hr'
      obtain ⟨a, l, hrun, hres⟩ := ih r' i' (vPath ++ [i]) h₂ (by omega)
      exact ⟨a, l, by simp [getBranchLoop, hir, hlt, hgt, hi', hr', hrun], hres⟩

end Walk

/-- **`GetBranch` finds the fork point.**  In a block tree whose times increase along `pPrev`,
for any two blocks with a common ancestor, `GetBranch(R, I, vPath)` terminates (within
`time R + time I + 1` iterations) and returns their lowest common ancestor `A`, with `vPath`
the blocks from `I` down to the child of `A` on `I`'s side (empty when `I = A`). -/
theorem getBranch_spec [DecidableEq α] {t : IndexLinks α} (ht : TimeIncreasing t.pPrev t.nTimeStamp)
    {R I c : α} (hcR : IsAncestor t.pPrev c R) (hcI : IsAncestor t.pPrev c I) {fuel : ℕ}
    (hfuel : t.nTimeStamp R + t.nTimeStamp I < fuel) :
    ∃ A vPath, getBranch t fuel R I = some (A, vPath) ∧
      IsLCA t.pPrev A R I ∧ DownPath t.pPrev A I vPath :=
  getBranchLoop_spec ht ⟨hcR, hcI⟩ fuel R I [] (branchInv_init R I) hfuel

/-! ## `GetBlockBranchListNolock` -/

/-- The part of `CBlockBase` that `GetBlockBranchListNolock` reads: the index links, the index
map `mapIndex` (`GetIndex`), the fork-last lookup `GetForkLastIndex(pIndex->GetOriginHash())`,
each index's `GetBlockHash()` and the block file `tsBlock.Read` (`none` when the read fails).
`AddNewIndex` points each index's `phashBlock` at its own key of `mapIndex`, so the two
lookups are inverse to each other: the structure carries this as its two last fields. -/
structure BranchStore (α H B : Type) extends IndexLinks α where
  getIndex : H → Option α
  getForkLastIndex : α → Option α
  getBlockHash : α → H
  tsBlockRead : α → Option B
  getIndex_getBlockHash : ∀ a, getIndex (getBlockHash a) = some a
  getBlockHash_of_getIndex : ∀ h a, getIndex h = some a → getBlockHash a = h

variable {H B : Type}

/-- The loop `for (p = pForkLast; p != pBranch; p = p->pPrev)` that reads the blocks to undo,
for at most `fuel` iterations. -/
def readRemoveLoop [DecidableEq α] (s : BranchStore α H B) : ℕ → α → α → Option (List B)
  | 0, _, _ => none
  | fuel + 1, p, pBranch =>
    if p = pBranch then some []
    else do
      let block ← s.tsBlockRead p
      let q ← s.pPrev p
      let rest ← readRemoveLoop s fuel q pBranch
      pure (block :: rest)

/-- The loop `for (i = vPath.size() - 1; i >= 0; i--)` over the reversed `vPath`, that reads
the blocks to apply; the block being stored, `pBlockex`, is taken instead of a read for the
index whose hash is `hashBlock`. -/
def readAddList [DecidableEq H] (s : BranchStore α H B) (hashBlock : H) (pBlockex : Option B) :
    List α → Option (List B)
  | [] => some []
  | p :: l => do
    let block ← match pBlockex with
      | some blockex => if s.getBlockHash p = hashBlock then some blockex else s.tsBlockRead p
      | none => s.tsBlockRead p
    let rest ← readAddList s hashBlock pBlockex l
    pure (block :: rest)

/-- `CBlockBase::GetBlockBranchListNolock(hashBlock, hashForkLastBlock, pBlockex, ...)`: the
blocks to undo (`vRemoveBlockInvertedOrder`) and to apply (`vAddBlockPositiveOrder`), or
`none` where the source returns `false`.  A zero `hashForkLastBlock` means the fork's last
block. -/
def getBlockBranchListNolock [DecidableEq α] [DecidableEq H] [Zero H] (s : BranchStore α H B)
    (fuel : ℕ) (hashBlock hashForkLastBlock : H) (pBlockex : Option B) :
    Option (List B × List B) := do
  let pIndex ← s.getIndex hashBlock
  let pForkLast ← if hashForkLastBlock = 0 then s.getForkLastIndex pIndex
    else s.getIndex hashForkLastBlock
  let (pBranch, vPath) ← getBranch s.toIndexLinks fuel pForkLast pIndex
  let vRemove ← readRemoveLoop s fuel pForkLast pBranch
  let vAdd ← readAddList s hashBlock pBlockex vPath.reverse
  pure (vRemove, vAdd)

section BranchList

variable {s : BranchStore α H B} {stored : α → B}

/-- With reads that return the stored blocks, the undo loop reads the blocks of the path from
`pForkLast` down to `pBranch`, in that order. -/
theorem readRemoveLoop_eq [DecidableEq α] (hread : ∀ a, s.tsBlockRead a = some (stored a)) {a : α} :
    ∀ {b : α} {l : List α} (fuel : ℕ), DownPath s.pPrev a b l → l.length < fuel →
      readRemoveLoop s fuel b a = some (l.map stored) := by
  intro b l fuel h
  induction h generalizing fuel with
  | here =>
    intro hfuel
    obtain ⟨fuel, rfl⟩ : ∃ f, fuel = f + 1 := ⟨fuel - 1, by omega⟩
    simp [readRemoveLoop]
  | @step b p l hne hp _ ih =>
    intro hfuel
    obtain ⟨fuel, rfl⟩ : ∃ f, fuel = f + 1 := ⟨fuel - 1, by omega⟩
    simp only [List.length_cons] at hfuel
    simp [readRemoveLoop, Ne.symm hne, hread, hp, ih fuel (by omega)]

/-- The apply loop reads every block of the list, and takes `pBlockex` for the block being
stored when that is the stored block itself. -/
theorem readAddList_eq [DecidableEq H] (hread : ∀ a, s.tsBlockRead a = some (stored a))
    {hashBlock : H} {pBlockex : Option B}
    (hex : ∀ blockex, pBlockex = some blockex → ∀ a, s.getBlockHash a = hashBlock →
      blockex = stored a) :
    ∀ l : List α, readAddList s hashBlock pBlockex l = some (l.map stored) := by
  intro l
  induction l with
  | nil => rfl
  | cons p l ih =>
    cases pBlockex with
    | none => simp [readAddList, hread, ih]
    | some blockex =>
      by_cases hp : s.getBlockHash p = hashBlock
      · have hb : blockex = stored p := hex blockex rfl p hp
        simp [readAddList, hp, ih, ← hb]
      · simp [readAddList, hp, hread, ih]

end BranchList

/-- **The fork-switch lists.**  In a block tree whose times increase along `pPrev`, let `I` be
the index of `hashBlock` and `R` the index of a non-zero `hashForkLastBlock`, with a common
ancestor, and let `A` be their lowest common ancestor.  With block reads that return the
stored blocks (and a `pBlockex`, if given, that is the stored block of `I`),
`GetBlockBranchListNolock` returns in `vRemoveBlockInvertedOrder` the blocks from `R` down to,
and not including, `A`, and in `vAddBlockPositiveOrder` the blocks from `A`'s child up to
`I`, in that order. -/
theorem getBlockBranchListNolock_spec [DecidableEq α] [DecidableEq H] [Zero H]
    {s : BranchStore α H B} (ht : TimeIncreasing s.pPrev s.nTimeStamp) {stored : α → B}
    (hread : ∀ a, s.tsBlockRead a = some (stored a)) {hashBlock hashForkLastBlock : H}
    {pBlockex : Option B} {R I A c : α} (hI : s.getIndex hashBlock = some I)
    (hlast : hashForkLastBlock ≠ 0) (hR : s.getIndex hashForkLastBlock = some R)
    (hcR : IsAncestor s.pPrev c R) (hcI : IsAncestor s.pPrev c I)
    (hA : IsLCA s.pPrev A R I) (hex : ∀ blockex, pBlockex = some blockex → blockex = stored I)
    {fuel : ℕ} (hfuel : s.nTimeStamp R + s.nTimeStamp I < fuel) :
    ∃ lR lI, DownPath s.pPrev A R lR ∧ DownPath s.pPrev A I lI ∧
      getBlockBranchListNolock s fuel hashBlock hashForkLastBlock pBlockex =
        some (lR.map stored, lI.reverse.map stored) := by
  obtain ⟨A', vPath, hrun, hlca, hpath⟩ := getBranch_spec ht hcR hcI hfuel
  have hAA' : A' = A := hlca.unique ht hA
  subst hAA'
  obtain ⟨lR, hlR⟩ := hlca.left.exists_downPath
  have hlenR := hlR.length_le ht
  have hex' : ∀ blockex, pBlockex = some blockex → ∀ a, s.getBlockHash a = hashBlock →
      blockex = stored a := by
    intro blockex hb a ha
    -- the only index whose hash is `hashBlock` is `I`
    have haI : a = I := by
      have := s.getIndex_getBlockHash a
      rw [ha, hI] at this
      exact (Option.some.inj this).symm
    rw [haI]
    exact hex blockex hb
  refine ⟨lR, vPath, hlR, hpath, ?_⟩
  simp only [getBranch] at hrun
  simp [getBlockBranchListNolock, getBranch, hI, hlast, hR, hrun,
    readRemoveLoop_eq hread fuel hlR (by omega), readAddList_eq hread hex']

/-- **Fork-switch path computation.**  In a block tree whose times increase along `pPrev`, take
any two blocks `R` and `I` with a common ancestor.  `GetBranch(R, I, vPath)` terminates (within
`time R + time I + 1` iterations) and returns their lowest common ancestor `A`, with `vPath`
the blocks from `I` down to the child of `A` on `I`'s side (empty when `I = A`).
Consequently, with block reads that return the stored blocks (and a `pBlockex`, if given, that
is the stored block of `I`), `GetBlockBranchListNolock(hash(I), hash(R), pBlockex)` returns in
`vRemoveBlockInvertedOrder` the blocks from `R` down to, and not including, `A`, and in
`vAddBlockPositiveOrder` the blocks from `A`'s child up to `I`, both in that order. -/
theorem getBranch_forkSwitch [DecidableEq α] [DecidableEq H] [Zero H] {s : BranchStore α H B}
    (ht : TimeIncreasing s.pPrev s.nTimeStamp) {stored : α → B}
    (hread : ∀ a, s.tsBlockRead a = some (stored a)) {pBlockex : Option B} {R I c : α}
    (hcR : IsAncestor s.pPrev c R) (hcI : IsAncestor s.pPrev c I)
    (hlast : s.getBlockHash R ≠ 0) (hex : ∀ blockex, pBlockex = some blockex → blockex = stored I)
    {fuel : ℕ} (hfuel : s.nTimeStamp R + s.nTimeStamp I < fuel) :
    ∃ A vPath lR, getBranch s.toIndexLinks fuel R I = some (A, vPath) ∧
      IsLCA s.pPrev A R I ∧ DownPath s.pPrev A I vPath ∧ DownPath s.pPrev A R lR ∧
      getBlockBranchListNolock s fuel (s.getBlockHash I) (s.getBlockHash R) pBlockex =
        some (lR.map stored, vPath.reverse.map stored) := by
  obtain ⟨A, vPath, hrun, hlca, hpath⟩ := getBranch_spec ht hcR hcI hfuel
  obtain ⟨lR, lI, hlR, hlI, hlists⟩ := getBlockBranchListNolock_spec ht hread
    (s.getIndex_getBlockHash I) hlast (s.getIndex_getBlockHash R) hcR hcI hlca hex hfuel
  have hlI' : lI = vPath := hlI.unique hpath
  subst hlI'
  exact ⟨A, lI, lR, hrun, hlca, hpath, hlR, hlists⟩

/-- A four-block tree: `0` is the root, `1` its child, and `2`, `3` two children of `1`; each
block's time is its number. -/
def forkSwitchStore : BranchStore (Fin 4) ℕ ℕ where
  pPrev
    | 0 => none
    | 1 => some 0
    | 2 => some 1
    | 3 => some 1
  nTimeStamp := fun a => a.val
  getIndex := fun h => if hh : 0 < h ∧ h < 5 then some ⟨h - 1, by omega⟩ else none
  getForkLastIndex := fun _ => some 2
  getBlockHash := fun a => a.val + 1
  tsBlockRead := fun a => some (10 * a.val)
  getIndex_getBlockHash := by decide
  getBlockHash_of_getIndex := by
    intro h a ha
    by_cases hh : 0 < h ∧ h < 5
    · simp only [hh, and_self, dite_true, Option.some.injEq] at ha
      subst ha
      simp only
      omega
    · simp [hh] at ha

/-- Switching from the last block `2` to the block `3` of the other branch undoes `2` and
applies `3`; `GetBranch` meets at `1`. -/
theorem getBranch_forkSwitch_example :
    ∃ A vPath lR, getBranch forkSwitchStore.toIndexLinks 6 2 3 = some (A, vPath) ∧
      IsLCA forkSwitchStore.pPrev A 2 3 ∧ DownPath forkSwitchStore.pPrev A 3 vPath ∧
      DownPath forkSwitchStore.pPrev A 2 lR ∧
      getBlockBranchListNolock forkSwitchStore 6 (forkSwitchStore.getBlockHash 3)
          (forkSwitchStore.getBlockHash 2) none =
        some (lR.map (fun a => 10 * a.val), vPath.reverse.map (fun a => 10 * a.val)) :=
  getBranch_forkSwitch (c := 0) (by unfold TimeIncreasing; decide) (fun _ => rfl)
    ((isAncestor_of_parent (show forkSwitchStore.pPrev 1 = some 0 from rfl)).trans
      (isAncestor_of_parent (show forkSwitchStore.pPrev 2 = some 1 from rfl)))
    ((isAncestor_of_parent (show forkSwitchStore.pPrev 1 = some 0 from rfl)).trans
      (isAncestor_of_parent (show forkSwitchStore.pPrev 3 = some 1 from rfl)))
    (by decide) (fun _ h => by cases h) (by decide)

end MetabaseNet
