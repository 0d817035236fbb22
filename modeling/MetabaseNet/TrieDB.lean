/-
# The trie store: `CTrieDB`

`src/storage/triedb.cpp`.  State is stored in a hexary Merkle trie whose nodes are kept by
hash in a key-value engine.  `AddNewTrie(hashPrevRoot, mapKvList)` adds a batch of writes to
the trie of `hashPrevRoot`: for each key in order, `AddNode` finds the path of nodes the key
runs through (`GetNodePath`, `GetBranchPath`, `GetExtensionPath`), marks each node as shared,
old-only or new, rebuilds the old side and then the new side bottom-up, and caches the new
nodes by hash; the cache is written to the engine at the end.  `Retrieve` walks from a root.

The model keeps the nodes as the source lays them out: a branch as two index arrays into two
link vectors, an extension as a flag, packed key bytes and a link vector.  The hash is
`CryptoHash` of the serialized node (`TrieHasher`); hashes are of a type `H` whose default
value is the null hash `uint256()`.  A batch (`bytesmap`) is its list of pairs in key order.
The loops carry an explicit `fuel` bound.

Within one batch, `AddNode` erases from the cache every cached node its path runs through
(`vRemove`), although a node is stored by content and may hang at two places of the trie.
`addNewTrie_shared_node_lost` is the batch `{0x11 ↦ v, 0x21 ↦ v, 0x22 ↦ w}`: the second write
makes the two places under `1` and `2` the same node, the third erases it, and the key `0x11`
can no longer be retrieved.
-/
import Mathlib.Logic.Function.Basic
import Mathlib.Data.List.GetD

namespace MetabaseNet.Trie

/-! ## Nibbles (`CKeyNibble`) -/

/-- `CKeyNibble::Byte2Nibble`: two nibbles per byte, high first; with `flag ≠ 0` the last byte
gives only its high nibble. -/
def byte2Nibble : List ℕ → ℕ → List ℕ
  | [], _ => []
  | [d], flag => if flag = 0 then [d / 16, d % 16] else [d / 16]
  | d :: bt, flag => d / 16 :: d % 16 :: byte2Nibble bt flag

/-- `CKeyNibble::Nibble2Byte`: nibbles packed two to a byte, and the flag `1` when their
number is odd (the last byte then holds one nibble).  `x |= d << 4` on a `uint8` keeps the low
four bits of `d`. -/
def nibble2Byte : List ℕ → List ℕ × ℕ
  | [] => ([], 0)
  | [a] => ([a % 16 * 16], 1)
  | a :: b :: l => ((a % 16 * 16 + b % 16) :: (nibble2Byte l).1, (nibble2Byte l).2)

variable {H : Type} [DecidableEq H] [Inhabited H]

/-! ## Nodes (`CTrieBranch`, `CTrieExtension`, `CTrieValue`) -/

/-- A link of a branch: `index[n]` is `0` for none, else one more than the position of the
link in `links`. -/
def getLink (index : List ℕ) (links : List H) (n : ℕ) : H :=
  if 16 ≤ n then default
  else if index.getD n 0 = 0 then default
  else links.getD (index.getD n 0 - 1) default

/-- Setting a link of a branch: a nibble without a link gets a new entry at the end of
`links` (none for the null hash), its index the new size as a `uint8`; a nibble with one has it
overwritten, and a null hash clears its index but leaves the entry in `links`. -/
def setLink (index : List ℕ) (links : List H) (n : ℕ) (hash : H) : List ℕ × List H :=
  if 16 ≤ n then (index, links)
  else if index.getD n 0 = 0 ∨ links.length ≤ index.getD n 0 - 1 then
    if hash ≠ default then (index.set n ((links.length + 1) % 256), links ++ [hash])
    else (index, links)
  else
    (if hash = default then index.set n 0 else index, links.set (index.getD n 0 - 1) hash)

/-- `CTrieBranch`: for each of the sixteen nibbles, a next link and a value link. -/
structure TrieBranch (H : Type) where
  keyIndexNext : List ℕ := List.replicate 16 0
  keyIndexValue : List ℕ := List.replicate 16 0
  branchNext : List H := []
  branchValue : List H := []
  deriving DecidableEq

namespace TrieBranch

/-- `CTrieBranch::GetNextHash`. -/
def getNextHash (b : TrieBranch H) (n : ℕ) : H := getLink b.keyIndexNext b.branchNext n

/-- `CTrieBranch::SetNextHash`. -/
def setNextHash (b : TrieBranch H) (n : ℕ) (hash : H) : TrieBranch H :=
  { b with keyIndexNext := (setLink b.keyIndexNext b.branchNext n hash).1,
           branchNext := (setLink b.keyIndexNext b.branchNext n hash).2 }

/-- `CTrieBranch::GetValueHash`. -/
def getValueHash (b : TrieBranch H) (n : ℕ) : H := getLink b.keyIndexValue b.branchValue n

/-- `CTrieBranch::SetValueHash`. -/
def setValueHash (b : TrieBranch H) (n : ℕ) (hash : H) : TrieBranch H :=
  { b with keyIndexValue := (setLink b.keyIndexValue b.branchValue n hash).1,
           branchValue := (setLink b.keyIndexValue b.branchValue n hash).2 }

end TrieBranch

/-- `CTrieExtension`: a key (packed nibbles, the low four bits of `flag` saying whether their
number is odd) and up to two links, the high four bits of `flag` saying whether the value
link comes first. -/
structure TrieExtension (H : Type) where
  flag : ℕ := 0
  key : List ℕ := []
  link : List H := []
  deriving DecidableEq

namespace TrieExtension

/-- `CTrieExtension::SetKey`. -/
def setKey (e : TrieExtension H) (vKeyNibble : List ℕ) : TrieExtension H :=
  { e with key := (nibble2Byte vKeyNibble).1, flag := e.flag / 16 * 16 + (nibble2Byte vKeyNibble).2 }

/-- `CTrieExtension::GetKey`. -/
def getKey (e : TrieExtension H) : List ℕ := byte2Nibble e.key (e.flag % 16)

/-- `CTrieExtension::SetNextHash`. -/
def setNextHash (e : TrieExtension H) (hash : H) : TrieExtension H :=
  if e.flag / 16 = 0 then
    if e.link = [] then { e with link := [hash] } else { e with link := e.link.set 0 hash }
  else if e.link.length < 2 then
    if e.link = [] then { e with flag := e.flag % 16, link := [hash] }
    else { e with link := e.link ++ [hash] }
  else { e with link := e.link.set 1 hash }

/-- `CTrieExtension::SetValueHash`. -/
def setValueHash (e : TrieExtension H) (hash : H) : TrieExtension H :=
  if e.flag / 16 = 0 then
    if e.link = [] then { e with link := [hash], flag := e.flag % 16 + 16 }
    else if e.link.length = 1 then { e with link := e.link ++ [hash] }
    else { e with link := e.link.set 1 hash }
  else if e.link = [] then { e with link := [hash] }
  else { e with link := e.link.set 0 hash }

/-- `CTrieExtension::GetNextHash`. -/
def getNextHash (e : TrieExtension H) : H :=
  if e.flag / 16 = 0 then e.link.getD 0 default
  else if e.link.length < 2 then default else e.link.getD 1 default

/-- `CTrieExtension::GetValueHash`. -/
def getValueHash (e : TrieExtension H) : H :=
  if e.flag / 16 = 0 then (if e.link.length < 2 then default else e.link.getD 1 default)
  else e.link.getD 0 default

end TrieExtension

/-- `CTrieValue::type`: unset, `TYPE_BRANCH`, `TYPE_EXTENSION` or `TYPE_VALUE`. -/
inductive NodeType
  | none | branch | extension | value
  deriving DecidableEq, Repr

/-- `CTrieValue`: a node of the trie, of the kind its `type` says. -/
structure TrieValue (H : Type) where
  type : NodeType := .none
  vaBranch : TrieBranch H := {}
  vaExtension : TrieExtension H := {}
  vaValue : List ℕ := []
  deriving DecidableEq

/-- The hash of the store: `CryptoHash` of serialized bytes, and the bytes a hash is
serialized to. -/
structure TrieHasher (H : Type) where
  cryptoHash : List ℕ → H
  encode : H → List ℕ

/-- A serialized vector: its length, then its entries. -/
def serializeVec (l : List ℕ) : List ℕ := l.length :: l

/-- A serialized vector of hashes. -/
def serializeHashes (hasher : TrieHasher H) (l : List H) : List ℕ :=
  l.length :: l.flatMap hasher.encode

namespace TrieValue

/-- `CTrieValue::GetStream`: the type, then the node of that type; no stream for an unset
type. -/
def getStream (hasher : TrieHasher H) (v : TrieValue H) : Option (List ℕ) :=
  match v.type with
  | .branch => some (1 :: serializeVec v.vaBranch.keyIndexNext ++
      serializeVec v.vaBranch.keyIndexValue ++ serializeHashes hasher v.vaBranch.branchNext ++
      serializeHashes hasher v.vaBranch.branchValue)
  | .extension => some (2 :: v.vaExtension.flag :: serializeVec v.vaExtension.key ++
      serializeHashes hasher v.vaExtension.link)
  | .value => some (3 :: serializeVec v.vaValue)
  | .none => none

/-- Whether a node holds anything: a link, or a non-empty value. -/
def hasValue (v : TrieValue H) : Bool :=
  match v.type with
  | .branch => (List.range 16).any fun i =>
      v.vaBranch.getNextHash i ≠ default || v.vaBranch.getValueHash i ≠ default
  | .extension => v.vaExtension.getNextHash ≠ default || v.vaExtension.getValueHash ≠ default
  | .value => !v.vaValue.isEmpty
  | .none => false

/-- `CTrieValue::CalcHash`: `CryptoHash` of the stream, and the null hash for a node that holds
nothing. -/
def calcHash (hasher : TrieHasher H) (v : TrieValue H) : H :=
  if v.hasValue then
    match v.getStream hasher with
    | some bs => hasher.cryptoHash bs
    | none => default
  else default

end TrieValue

/-! ## Paths (`CTrieKeyValue`, `GetNodePath`) -/

/-- `CTrieKeyValue::nKvType`: a node of the path on both the old and the new trie, on the old
one only, or on the new one only. -/
inductive KvType
  | share | old | new
  deriving DecidableEq, Repr

/-- `CTrieKeyValue`: a node of a path, with the nibble (or key) that leads on from it in the old
trie (`keyOld`) and in the new one (`keyNew`). -/
structure TrieKeyValue (H : Type) [Inhabited H] where
  nKvType : KvType := .share
  keyOld : List ℕ := []
  keyNew : List ℕ := []
  value : TrieValue H := {}
  hashValue : H := default

/-- The path node with its branch replaced. -/
def TrieKeyValue.withBranch (kv : TrieKeyValue H) (b : TrieBranch H) : TrieKeyValue H :=
  { kv with value := { kv.value with vaBranch := b } }

/-- The path node with its extension replaced. -/
def TrieKeyValue.withExtension (kv : TrieKeyValue H) (e : TrieExtension H) : TrieKeyValue H :=
  { kv with value := { kv.value with vaExtension := e } }

/-- `CTrieKeyValue::CalcValueHash`. -/
def TrieKeyValue.calcValueHash (hasher : TrieHasher H) (kv : TrieKeyValue H) : TrieKeyValue H :=
  { kv with hashValue := kv.value.calcHash hasher }

/-- The new node for what is left `syKey` of a key, which the source builds in five places: a
branch for one nibble, an extension for more, none for none. -/
def newTailKv (syKey : List ℕ) : List (TrieKeyValue H) :=
  if syKey.length = 1 then
    [{ nKvType := .new, keyNew := syKey.take 1, value := { type := .branch } }]
  else if 1 < syKey.length then
    [{ nKvType := .new, keyNew := syKey,
       value := { type := .extension, vaExtension := ({} : TrieExtension H).setKey syKey } }]
  else []

/-- `GetBranchPath`: the path goes on through the branch's next link when more than one nibble
is left and the link is there (`true`); else it ends at the branch, with a new node for the
rest of the key. -/
def getBranchPath (syKey : List ℕ) (hash : H) (value : TrieValue H)
    (path : List (TrieKeyValue H)) : Bool × List ℕ × H × List (TrieKeyValue H) :=
  let kvBranch : TrieKeyValue H := { value := value, nKvType := .share, keyNew := syKey.take 1 }
  if 1 < syKey.length ∧ value.vaBranch.getNextHash (syKey.headD 0) ≠ default then
    (true, syKey.drop 1, value.vaBranch.getNextHash (syKey.headD 0), path ++ [kvBranch])
  else (false, syKey.drop 1, hash, path ++ kvBranch :: newTailKv (syKey.drop 1))

/-- A branch holding an extension's two links at nibble `n`. -/
def branchOfLinks (value : TrieValue H) (n : ℕ) : TrieBranch H :=
  let b : TrieBranch H := {}
  (b.setNextHash n value.vaExtension.getNextHash).setValueHash n value.vaExtension.getValueHash

/-- An extension with key `key` holding an extension's two links. -/
def extensionOfLinks (value : TrieValue H) (key : List ℕ) : TrieExtension H :=
  let e : TrieExtension H := {}
  ((e.setKey key).setNextHash value.vaExtension.getNextHash).setValueHash
    value.vaExtension.getValueHash

/-- The branch that replaces an extension at the first nibble of what is left of its key
`btNodeKey`, leading on by the key's nibble; a one-nibble extension leaves its links there.
The source builds it in three places. -/
def splitBranchKv (value : TrieValue H) (btNodeKey syKey : List ℕ) : TrieKeyValue H :=
  { nKvType := .share, keyOld := btNodeKey.take 1, keyNew := syKey.take 1,
    value := { type := .branch,
               vaBranch := if btNodeKey.length = 1 then branchOfLinks value (btNodeKey.headD 0) else {} } }

/-- The node that keeps, on the old side only, what is left `btNodeKey` of an extension's key
past the split, with its links: a branch for one nibble, an extension for more. -/
def oldTailKv (value : TrieValue H) (btNodeKey : List ℕ) : List (TrieKeyValue H) :=
  if btNodeKey.length = 1 then
    [{ nKvType := .old, keyOld := btNodeKey.take 1,
       value := { type := .branch, vaBranch := branchOfLinks value (btNodeKey.headD 0) } }]
  else if 1 < btNodeKey.length then
    [{ nKvType := .old, keyOld := btNodeKey,
       value := { type := .extension, vaExtension := extensionOfLinks value btNodeKey } }]
  else []

/-- The shared extension over a common prefix of `nSameLen ≥ 2` nibbles; when it is the whole
of the old key, it keeps the old links. -/
def splitExtensionKv (value : TrieValue H) (btNodeKey syKey : List ℕ) (nSameLen : ℕ) :
    TrieKeyValue H :=
  { nKvType := .share, keyOld := btNodeKey.take nSameLen, keyNew := syKey.take nSameLen,
    value := { type := .extension,
               vaExtension := if btNodeKey.length = nSameLen then
                   extensionOfLinks value (btNodeKey.take nSameLen)
                 else ({} : TrieExtension H).setKey (btNodeKey.take nSameLen) } }

/-- The length of the common prefix of two keys. -/
def commonPrefixLen : List ℕ → List ℕ → ℕ
  | a :: l, b :: m => if a = b then commonPrefixLen l m + 1 else 0
  | _, _ => 0

/-- `GetExtensionPath`: the path goes on past the extension when its whole key matches and it
has a next link (`true`).  Otherwise the extension is split where the keys part: a shared
branch (common prefix of length `0` or `1`) or a shared extension (longer), a branch where they
then differ, the old rest of the extension, and a new node for the rest of the key. -/
def getExtensionPath (syKey : List ℕ) (hash : H) (value : TrieValue H)
    (path : List (TrieKeyValue H)) : Bool × List ℕ × H × List (TrieKeyValue H) :=
  let btNodeKey := value.vaExtension.getKey
  if btNodeKey.length ≤ syKey.length ∧ syKey.take btNodeKey.length = btNodeKey then
    let path := path ++ [{ value := value, nKvType := .share, keyOld := btNodeKey, keyNew := btNodeKey }]
    let syKey := syKey.drop btNodeKey.length
    if value.vaExtension.getNextHash = default then
      (false, syKey, value.vaExtension.getNextHash, path ++ newTailKv syKey)
    else (true, syKey, value.vaExtension.getNextHash, path)
  else
    let nSameLen := commonPrefixLen syKey btNodeKey
    let split : List (TrieKeyValue H) × List ℕ × List ℕ :=
      if nSameLen = 0 then
        (path ++ [splitBranchKv value btNodeKey syKey], btNodeKey.drop 1, syKey.drop 1)
      else
        let path := path ++ [if nSameLen = 1 then splitBranchKv value btNodeKey syKey
          else splitExtensionKv value btNodeKey syKey nSameLen]
        let btNodeKey := btNodeKey.drop nSameLen
        let syKey := syKey.drop nSameLen
        if 0 < btNodeKey.length ∧ 0 < syKey.length then
          (path ++ [splitBranchKv value btNodeKey syKey], btNodeKey.drop 1, syKey.drop 1)
        else (path, btNodeKey, syKey)
    (false, split.2.2, hash, split.1 ++ oldTailKv value split.2.1 ++ newTailKv split.2.2)

/-- The store's key-value engine: the node kept under each hash. -/
abbrev TrieStore (H : Type) := H → Option (TrieValue H)

/-- `mapCacheNode`: the nodes built by one `AddNewTrie`, by hash. -/
abbrev TrieCache (H : Type) := List (H × TrieValue H)

/-- `mapCacheNode.erase(hash)`. -/
def cacheErase (cache : TrieCache H) (hash : H) : TrieCache H := cache.filter (·.1 ≠ hash)

/-- `mapCacheNode[hash] = value`. -/
def cacheSet (cache : TrieCache H) (hash : H) (value : TrieValue H) : TrieCache H :=
  (hash, value) :: cacheErase cache hash

/-- `GetNodeValue`: a node from the cache (`true`) or else from the engine; none for the null
hash. -/
def getNodeValue (db : TrieStore H) (cache : TrieCache H) (hash : H) : Option (TrieValue H × Bool) :=
  if hash = default then none
  else match cache.lookup hash with
    | some value => some (value, true)
    | none => (db hash).map fun value => (value, false)

/-- `GetNodePath`: the path of nodes that `syKey` runs through from `hash`, and the cached
nodes it passed (`vRemove`).  A root that is not there starts a new trie. -/
def getNodePath (db : TrieStore H) (cache : TrieCache H) (hashRoot : H) :
    ℕ → H → List ℕ → List (TrieKeyValue H) → List H → Option (List (TrieKeyValue H) × List H)
  | 0, _, _, _, _ => none
  | fuel + 1, hash, syKey, path, vRemove =>
    if syKey = [] then some (path, vRemove)
    else match getNodeValue db cache hash with
      | none => if hash = hashRoot then some (path ++ newTailKv syKey, vRemove) else none
      | some (value, fCache) =>
        let vRemove := if fCache then vRemove ++ [hash] else vRemove
        match value.type with
        | .branch =>
          match getBranchPath syKey hash value path with
          | (true, syKey, hash, path) => getNodePath db cache hashRoot fuel hash syKey path vRemove
          | (false, _, _, path) => some (path, vRemove)
        | .extension =>
          match getExtensionPath syKey hash value path with
          | (true, syKey, hash, path) => getNodePath db cache hashRoot fuel hash syKey path vRemove
          | (false, _, _, path) => some (path, vRemove)
        | _ => none

/-! ## `AddNode` -/

/-- One step of `AddNode`'s first backward loop: a shared or old node takes as its old-side
next link the node rebuilt below it (`hashPrevOld`), and is rehashed.  A value node in the
path is an error. -/
def relinkOld (hasher : TrieHasher H) (hashPrevOld : H) (kv : TrieKeyValue H) :
    Option (TrieKeyValue H × H) :=
  match kv.value.type with
  | .branch =>
    if kv.nKvType = .share ∨ kv.nKvType = .old then
      let kv := if hashPrevOld ≠ default ∧ kv.keyOld ≠ [] then
          kv.withBranch (kv.value.vaBranch.setNextHash (kv.keyOld.headD 0) hashPrevOld)
        else kv
      some (kv.calcValueHash hasher, (kv.calcValueHash hasher).hashValue)
    else some (kv, hashPrevOld)
  | .extension =>
    if kv.nKvType = .share ∨ kv.nKvType = .old then
      let kv := if hashPrevOld ≠ default then
          kv.withExtension (kv.value.vaExtension.setNextHash hashPrevOld)
        else kv
      some (kv.calcValueHash hasher, (kv.calcValueHash hasher).hashValue)
    else some (kv, hashPrevOld)
  | _ => none

/-- The first loop, over the path from its deepest node up. -/
def relinkOldLoop (hasher : TrieHasher H) : H → List (TrieKeyValue H) → Option (List (TrieKeyValue H))
  | _, [] => some []
  | hashPrevOld, kv :: nodes => do
    let (kv, hashPrevOld) ← relinkOld hasher hashPrevOld kv
    let nodes ← relinkOldLoop hasher hashPrevOld nodes
    pure (kv :: nodes)

/-- What a step of `AddNode`'s second loop does: fail, return early because the key already
holds the value, or go on with the rebuilt node. -/
inductive LinkStep (H : Type) [Inhabited H]
  | error
  | same
  | next (kv : TrieKeyValue H) (hashPrev : H) (fIsValue : Bool)

/-- One step of `AddNode`'s second backward loop: a shared or new node takes the node rebuilt
below it, as its value link while that is the new value itself (`fIsValue`) and as its next
link after, and is rehashed. -/
def linkNew (hasher : TrieHasher H) (hashPrev : H) (fIsValue : Bool) (kv : TrieKeyValue H) :
    LinkStep H :=
  match kv.value.type with
  | .branch =>
    if kv.nKvType = .share ∨ kv.nKvType = .new then
      if kv.keyNew ≠ [] then
        if fIsValue then
          if hashPrev ≠ default ∧ kv.value.vaBranch.getValueHash (kv.keyNew.headD 0) = hashPrev then
            .same
          else
            let kv := kv.withBranch (kv.value.vaBranch.setValueHash (kv.keyNew.headD 0) hashPrev)
            .next (kv.calcValueHash hasher) (kv.calcValueHash hasher).hashValue false
        else
          let kv := kv.withBranch (kv.value.vaBranch.setNextHash (kv.keyNew.headD 0) hashPrev)
          .next (kv.calcValueHash hasher) (kv.calcValueHash hasher).hashValue false
      else .next (kv.calcValueHash hasher) (kv.calcValueHash hasher).hashValue fIsValue
    else .next kv hashPrev fIsValue
  | .extension =>
    if kv.nKvType = .share ∨ kv.nKvType = .new then
      if fIsValue then
        if hashPrev ≠ default ∧ kv.value.vaExtension.getValueHash = hashPrev then .same
        else
          let kv := kv.withExtension (kv.value.vaExtension.setValueHash hashPrev)
          .next (kv.calcValueHash hasher) (kv.calcValueHash hasher).hashValue false
      else
        let kv := kv.withExtension (kv.value.vaExtension.setNextHash hashPrev)
        .next (kv.calcValueHash hasher) (kv.calcValueHash hasher).hashValue false
    else .next kv hashPrev fIsValue
  | _ => .error

/-- What `AddNode`'s second loop ends with: an error, the key already holding the value, or the
rebuilt nodes (deepest first) and the new root. -/
inductive LinkResult (H : Type) [Inhabited H]
  | error
  | same
  | linked (nodes : List (TrieKeyValue H)) (hashRoot : H)

/-- The second loop, over the path from its deepest node up. -/
def linkNewLoop (hasher : TrieHasher H) : H → Bool → List (TrieKeyValue H) → LinkResult H
  | hashPrev, _, [] => .linked [] hashPrev
  | hashPrev, fIsValue, kv :: nodes =>
    match linkNew hasher hashPrev fIsValue kv with
    | .error => .error
    | .same => .same
    | .next kv hashPrev fIsValue =>
      match linkNewLoop hasher hashPrev fIsValue nodes with
      | .linked nodes hashRoot => .linked (kv :: nodes) hashRoot
      | .error => .error
      | .same => .same

/-- `CTrieDB::AddNode`: writes `btValue` under the nibbles `nbKeyNibble` into the trie of
`hashRoot`, giving the new root and the cache.  The cached nodes the path ran through are
erased, and the nodes of the path cached under their new hashes. -/
def addNode (hasher : TrieHasher H) (db : TrieStore H) (fuel : ℕ) (hashRoot : H)
    (nbKeyNibble btValue : List ℕ) (cache : TrieCache H) : Option (H × TrieCache H) := do
  let (path, vRemove) ← getNodePath db cache hashRoot fuel hashRoot nbKeyNibble [] []
  let kvValue := TrieKeyValue.calcValueHash hasher
    { nKvType := .new, value := { type := .value, vaValue := btValue } }
  let nodes ← relinkOldLoop hasher default path.reverse
  match linkNewLoop hasher kvValue.hashValue true nodes with
  | .error => none
  | .same => some (hashRoot, cache)
  | .linked nodes hashRoot =>
    let cache := vRemove.foldl cacheErase cache
    some (hashRoot, (nodes.reverse ++ [kvValue]).foldl (fun cache kv =>
      if kv.hashValue ≠ default then cacheSet cache kv.hashValue kv.value else cache) cache)

/-! ## `AddNewTrie` and `Retrieve` -/

/-- `CTrieDB::CreateTrieNodeList`: the batch's writes in key order, each with fuel for the
nibbles of its key. -/
def createTrieNodeList (hasher : TrieHasher H) (db : TrieStore H) (hashPrevRoot : H)
    (mapKvList : List (List ℕ × List ℕ)) : Option (H × TrieCache H) :=
  if mapKvList = [] then some (hashPrevRoot, [])
  else mapKvList.foldlM (fun (rc : H × TrieCache H) kv =>
    addNode hasher db ((byte2Nibble kv.1 0).length + 1) rc.1 (byte2Nibble kv.1 0) kv.2 rc.2)
    (hashPrevRoot, [])

/-- `CTrieDB::AddNewTrie`: the new root, and the engine with the cached nodes written. -/
def addNewTrie (hasher : TrieHasher H) (db : TrieStore H) (hashPrevRoot : H)
    (mapKvList : List (List ℕ × List ℕ)) : Option (H × TrieStore H) := do
  let (hashNewRoot, cache) ← createTrieNodeList hasher db hashPrevRoot mapKvList
  let db ← cache.foldlM (fun (db : TrieStore H) kv =>
    (kv.2.getStream hasher).map fun _ => Function.update db kv.1 (some kv.2)) db
  some (hashNewRoot, db)

/-- The walk of `GetKeyValue` from `hash` along the nibbles `syKey`, to the value node it ends
at. -/
def getKeyValueLoop (db : TrieStore H) : ℕ → H → List ℕ → Option (List ℕ)
  | _, hash, [] => do
    let value ← db hash
    if value.type = .value then some value.vaValue else none
  | 0, _, _ :: _ => none
  | fuel + 1, hash, n :: syKey => do
    let value ← db hash
    match value.type with
    | .branch =>
      let hash := if syKey = [] then value.vaBranch.getValueHash n else value.vaBranch.getNextHash n
      if hash = default then none else getKeyValueLoop db fuel hash syKey
    | .extension =>
      let nbNodeKey := value.vaExtension.getKey
      if nbNodeKey.length ≤ (n :: syKey).length ∧ (n :: syKey).take nbNodeKey.length = nbNodeKey then
        let hash := if (n :: syKey).length = nbNodeKey.length then value.vaExtension.getValueHash
          else value.vaExtension.getNextHash
        if hash = default then none
        else getKeyValueLoop db fuel hash ((n :: syKey).drop nbNodeKey.length)
      else none
    | _ => none

/-- `CTrieDB::GetKeyValue`: none from the null root. -/
def getKeyValue (db : TrieStore H) (hashRoot : H) (nbKey : List ℕ) : Option (List ℕ) :=
  if hashRoot = default then none else getKeyValueLoop db (nbKey.length + 1) hashRoot nbKey

/-- `CTrieDB::Retrieve`. -/
def retrieve (db : TrieStore H) (hashRoot : H) (btKey : List ℕ) : Option (List ℕ) :=
  getKeyValue db hashRoot (byte2Nibble btKey 0)

/-! ## A batch that loses a node -/

/-- `CryptoHash` as the identity on serialized nodes: a hash is the stream itself, an
injective hash that is never the null hash `[]`. -/
def serialHasher : TrieHasher (List ℕ) := ⟨id, fun h => h.length :: h⟩

/-- The batch `{0x11 ↦ v, 0x21 ↦ v, 0x22 ↦ w}`, `v = [1]` and `w = [2]`. -/
def sharedNodeBatch : List (List ℕ × List ℕ) := [([0x11], [1]), ([0x21], [1]), ([0x22], [2])]

/-- **A shared node is lost.**  From the empty store and the null root, `AddNewTrie` of
`sharedNodeBatch` succeeds, but `Retrieve` of `0x11` from the new root fails while the other
two keys are found.  The write of `0x21` leaves the branch `{1 ↦ v}` under both `1` and `2`
of the root, one node by content; the write of `0x22` runs through it, erases it from the cache
(`vRemove`), and caches only its rebuilt copy, so the root's link under `1` is never
written. -/
theorem addNewTrie_shared_node_lost :
    Function.Injective serialHasher.cryptoHash ∧
      (addNewTrie serialHasher (fun _ => none) [] sharedNodeBatch).map
          (fun r => (retrieve r.2 r.1 [0x11], retrieve r.2 r.1 [0x21], retrieve r.2 r.1 [0x22])) =
        some (none, some [1], some [2]) :=
  ⟨Function.injective_id, by decide⟩

/-- Before the third write, both keys are found. -/
example : (addNewTrie serialHasher (fun _ => none) [] (sharedNodeBatch.take 2)).map
    (fun r => (retrieve r.2 r.1 [0x11], retrieve r.2 r.1 [0x21])) = some (some [1], some [1]) := by
  decide

end MetabaseNet.Trie
