/-
# The block Merkle root: `CBlock::CalcMerkleTreeRoot`

`src/common/block.cpp`.  The leaves of a block's Merkle tree are the hash of its bloom data
(null when there is none), the hash of its mint transaction and the hash of each of its
transactions.  `CalcMerkleTreeRoot` appends the levels of pair hashes to one vector and returns
its last entry; `CCoreProtocol::ValidateBlock` checks `hashMerkleRoot` against it.

The level loop starts from `nSize = vtx.size()` entries, not from the `vtx.size() + 2`
leaves.  With two transactions it hashes the bloom hash with the mint hash once and stops: the
transactions never reach the root (`calcMerkleTreeRoot_of_two_tx`), and two blocks that differ
only in them have the same root (`calcMerkleTreeRoot_collision`).
-/
import Mathlib.Data.List.GetD

namespace MetabaseNet

variable {H : Type} [Inhabited H]

/-- The hashes `CalcMerkleTreeRoot` uses: `CryptoHash` of bytes, and of a pair of hashes. -/
structure MerkleHasher (H : Type) where
  hashBytes : List ℕ → H
  hashPair : H → H → H

/-- The fields of `CBlock` that `CalcMerkleTreeRoot` reads; the transactions are given by their
hashes `GetHash()`. -/
structure MerkleBlock (H : Type) where
  btBloomData : List ℕ
  txMint : H
  vtx : List H

/-- One level of the loop: the `nSize` entries from `j` hashed in pairs, the last one with
itself when `nSize` is odd.  The entries read all stand before the level's own, so the level
is read from the vector as it was before it. -/
def merkleLevel (hasher : MerkleHasher H) (vMerkleTree : List H) (j nSize : ℕ) : List H :=
  (List.range ((nSize + 1) / 2)).map fun k =>
    hasher.hashPair (vMerkleTree.getD (j + 2 * k) default)
      (vMerkleTree.getD (j + min (2 * k + 1) (nSize - 1)) default)

/-- The level loop of `CalcMerkleTreeRoot`: `nSize` halves, rounded up, while it is above one,
and `j` moves past the entries just read. -/
def merkleLevels (hasher : MerkleHasher H) : ℕ → List H → ℕ → ℕ → List H
  | 0, vMerkleTree, _, _ => vMerkleTree
  | fuel + 1, vMerkleTree, j, nSize =>
    if 1 < nSize then
      merkleLevels hasher fuel (vMerkleTree ++ merkleLevel hasher vMerkleTree j nSize) (j + nSize)
        ((nSize + 1) / 2)
    else vMerkleTree

/-- The leaf of the bloom data: its hash, or the null hash when it is empty. -/
def hashBloom (hasher : MerkleHasher H) (block : MerkleBlock H) : H :=
  if block.btBloomData = [] then default else hasher.hashBytes block.btBloomData

/-- `CBlock::CalcMerkleTreeRoot`.  The loop runs at most `vtx.size()` times, since `nSize`
drops at each. -/
def calcMerkleTreeRoot (hasher : MerkleHasher H) (block : MerkleBlock H) : H :=
  (merkleLevels hasher block.vtx.length ([hashBloom hasher block, block.txMint] ++ block.vtx) 0
    block.vtx.length).getLastD default

/-- With two transactions the root is the hash of the bloom leaf and the mint leaf, whatever
the transactions are. -/
theorem calcMerkleTreeRoot_of_two_tx (hasher : MerkleHasher H) (block : MerkleBlock H)
    (h : block.vtx.length = 2) :
    calcMerkleTreeRoot hasher block = hasher.hashPair (hashBloom hasher block) block.txMint := by
  obtain ⟨btBloomData, txMint, vtx⟩ := block
  match vtx, h with
  | [x₀, x₁], _ =>
    -- one level of one pair, over the first two leaves, then `nSize = 1` stops the loop
    simp [calcMerkleTreeRoot, merkleLevels, merkleLevel]

/-- **The transactions are not bound.**  For every pair of hash functions, two blocks with the
same bloom data and mint transaction and different transactions `[1, 2]` and `[3, 4]` have the
same Merkle root. -/
theorem calcMerkleTreeRoot_collision (hasher : MerkleHasher ℕ) :
    calcMerkleTreeRoot hasher ⟨[], 0, [1, 2]⟩ = calcMerkleTreeRoot hasher ⟨[], 0, [3, 4]⟩ := by
  rw [calcMerkleTreeRoot_of_two_tx hasher _ rfl, calcMerkleTreeRoot_of_two_tx hasher _ rfl]
  -- both are the hash of the null bloom leaf with the mint leaf `0`
  rfl

end MetabaseNet
