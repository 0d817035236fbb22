/-
# Walking the trie: `WalkThroughTrie`

`CTrieDB::WalkThroughTrie` and `CTrieDB::WalkThroughNode` (`src/storage/triedb.cpp`).  The walk
starts at a root with a nibble prefix and a begin key and recurses through the nodes.  A branch
tries its sixteen nibbles in order (descending under `fReverse`), only the first nibble of the
prefix while one is left, and at each walks the value link and then the next link.  An
extension whose key agrees with the prefix walks its value link and then its next link.  A
value node is handed to the walker, its nibble path packed back into bytes.  The begin key
prunes every node off its path, and is cleared at the first node on it as long as it.

The walker (`CTrieDBWalker::Walk`) is any function of a state; it can stop the walk
(`fWalkOver`) or fail it.  The node cache of a walk only saves reads of the engine and is left
out.  The recursion carries a fuel bound on its depth, and running out of it is `none`.

Two things the walk does not do (`walkThroughTrie_prefix_and_order`).  At a value node it does
not look at what is left of the prefix, so a key that is a proper prefix of the prefix is handed
to the walker.  And it walks a value link before the next link in both directions, so under
`fReverse` a key comes before the longer keys it is a prefix of.
-/
import MetabaseNet.TrieDB

namespace MetabaseNet.Trie

variable {H : Type} [DecidableEq H] [Inhabited H] {σ : Type}

/-! ## The walk -/

/-- `CTrieDBWalker::Walk(btKey, btValue, nDepth, fWalkOver)` on a walker state: whether the walk
goes on (`false` fails it), the new state, and `fWalkOver`. -/
structure TrieWalker (σ : Type) where
  walk : σ → List ℕ → List ℕ → ℕ → Bool × σ × Bool

/-- What a walk shares between its calls by reference: the begin key, `fWalkOver` and the
walker. -/
structure WalkState (σ : Type) where
  nbBeginKey : List ℕ
  fWalkOver : Bool
  walker : σ

/-- The begin-key test of a node reached by `nbPrevKey`: the node is skipped (`true`) when the
begin key leaves its path; the begin key is cleared once the path is as long as it. -/
def beginKeyCheck (nbBeginKey nbPrevKey : List ℕ) : Bool × List ℕ :=
  if nbBeginKey ≠ [] ∧ 0 < nbPrevKey.length then
    let nMinSize := min nbBeginKey.length nbPrevKey.length
    if nbBeginKey.take nMinSize ≠ nbPrevKey.take nMinSize then (true, nbBeginKey)
    else if nbBeginKey.length = nMinSize then (false, [])
    else (false, nbBeginKey)
  else (false, nbBeginKey)

/-- The nibbles a branch tries, in the order of the walk. -/
def branchOrder (fReverse : Bool) : List ℕ :=
  if fReverse then (List.range 16).reverse else List.range 16

/-- The prefix left past an extension with key `key`, when the prefix agrees with it. -/
def extensionNextPrefix (nbKeyPrefix key : List ℕ) : List ℕ :=
  if nbKeyPrefix ≠ [] ∧ min nbKeyPrefix.length key.length < nbKeyPrefix.length then
    nbKeyPrefix.drop (min nbKeyPrefix.length key.length)
  else []

/-- One node of `CTrieDB::WalkThroughNode(hashNode, nbKeyPrefix, nbBeginKey, fReverse,
nbPrevKey, walker, mapCacheNode, nDepth, fWalkOver)`, with `walkLink hash nbNextKeyPrefix
nbNextKey st` the walk of a link one level down. -/
def walkNode (hasher : TrieHasher H) (db : TrieStore H) (walker : TrieWalker σ)
    (walkLink : H → List ℕ → List ℕ → WalkState σ → Option (Bool × WalkState σ))
    (hashNode : H) (nbKeyPrefix : List ℕ) (fReverse : Bool) (nbPrevKey : List ℕ) (nDepth : ℕ)
    (st : WalkState σ) : Option (Bool × WalkState σ) :=
  if st.fWalkOver then some (true, st)
  else match db hashNode with
  | none => some (false, st)
  | some value =>
    if hashNode ≠ value.calcHash hasher then some (false, st)
    else
      let check := beginKeyCheck st.nbBeginKey nbPrevKey
      if check.1 then some (true, st)
      else
        let st := { st with nbBeginKey := check.2 }
        match value.type with
        | .branch =>
          let nbNextKeyPrefix := if 1 < nbKeyPrefix.length then nbKeyPrefix.drop 1 else []
          -- the loop stops at a failure and at `fWalkOver`
          (branchOrder fReverse).foldlM (fun (acc : Bool × WalkState σ) nBranchKey =>
            if !acc.1 || acc.2.fWalkOver then some acc
            else if nbKeyPrefix ≠ [] ∧ nbKeyPrefix.headD 0 ≠ nBranchKey then some acc
            else do
              let nbNextKey := nbPrevKey ++ [nBranchKey]
              let r ← walkLink (value.vaBranch.getValueHash nBranchKey) nbNextKeyPrefix nbNextKey
                acc.2
              if !r.1 then some r
              else walkLink (value.vaBranch.getNextHash nBranchKey) nbNextKeyPrefix nbNextKey r.2)
            (true, st)
        | .extension =>
          let key := value.vaExtension.getKey
          let nbKey := nbPrevKey ++ key
          let nMinSize := min nbKeyPrefix.length key.length
          if nbKeyPrefix ≠ [] ∧ nbKeyPrefix.take nMinSize ≠ key.take nMinSize then some (true, st)
          else do
            let nbNextKeyPrefix := extensionNextPrefix nbKeyPrefix key
            let r ← walkLink value.vaExtension.getValueHash nbNextKeyPrefix nbKey st
            if !r.1 then some r
            else walkLink value.vaExtension.getNextHash nbNextKeyPrefix nbKey r.2
        | .value =>
          -- the prefix left is not looked at
          let r := walker.walk st.walker (nibble2Byte nbPrevKey).1 value.vaValue nDepth
          some (r.1, { st with walker := r.2.1, fWalkOver := r.2.2 })
        | .none => some (false, st)

/-- `CTrieDB::WalkThroughNode`, with `fuel` bounding the depth of the recursion: a link is
walked one level down when it is not the null hash. -/
def walkThroughNode (hasher : TrieHasher H) (db : TrieStore H) (walker : TrieWalker σ) :
    ℕ → H → List ℕ → Bool → List ℕ → ℕ → WalkState σ → Option (Bool × WalkState σ)
  | 0, _, _, _, _, _, _ => none
  | fuel + 1, hashNode, nbKeyPrefix, fReverse, nbPrevKey, nDepth, st =>
    walkNode hasher db walker (fun hash nbNextKeyPrefix nbNextKey st =>
        if hash ≠ default then
          walkThroughNode hasher db walker fuel hash nbNextKeyPrefix fReverse nbNextKey
            (nDepth + 1) st
        else some (true, st))
      hashNode nbKeyPrefix fReverse nbPrevKey nDepth st

/-- `CTrieDB::WalkThroughTrie(hashRoot, walker, btKeyPrefix, btBeginKeyTail, fReverse)`: the walk
from the root, the begin key being the prefix followed by the tail; the result and the walker
after it. -/
def walkThroughTrie (hasher : TrieHasher H) (db : TrieStore H) (walker : TrieWalker σ)
    (fuel : ℕ) (hashRoot : H) (btKeyPrefix btBeginKeyTail : List ℕ) (fReverse : Bool) (s : σ) :
    Option (Bool × σ) :=
  if hashRoot = default then some (true, s)
  else
    let nbKeyPrefix := if btKeyPrefix ≠ [] then byte2Nibble btKeyPrefix 0 else []
    let nbBeginKey :=
      if btBeginKeyTail ≠ [] then nbKeyPrefix ++ byte2Nibble btBeginKeyTail 0 else []
    (walkThroughNode hasher db walker fuel hashRoot nbKeyPrefix fReverse [] 0
      ⟨nbBeginKey, false, s⟩).map fun r => (r.1, r.2.walker)

/-! ## What the walk hands over -/

/-- A walker that records each call and never stops the walk. -/
def recordWalker : TrieWalker (List (List ℕ × List ℕ)) :=
  ⟨fun calls btKey btValue _ => (true, calls ++ [(btKey, btValue)], false)⟩

/-- **What the walk hands over.**  The store holding only `0x12 ↦ [1]`, walked under the prefix
`0x12 0x34`: the walker is called with `0x12`, which does not start with the prefix.  The store
holding `0x12 ↦ [1]` and `0x1234 ↦ [2]`, walked in reverse: the walker gets `0x12` first, in
ascending order. -/
theorem walkThroughTrie_prefix_and_order :
    (addNewTrie serialHasher (fun _ => none) [] [([0x12], [1])]).bind (fun s =>
        walkThroughTrie serialHasher s.2 recordWalker 8 s.1 [0x12, 0x34] [] false []) =
      some (true, [([0x12], [1])]) ∧
    (addNewTrie serialHasher (fun _ => none) [] [([0x12], [1]), ([0x12, 0x34], [2])]).bind
        (fun s => walkThroughTrie serialHasher s.2 recordWalker 8 s.1 [] [] true []) =
      some (true, [([0x12], [1]), ([0x12, 0x34], [2])]) := by
  decide

end MetabaseNet.Trie
