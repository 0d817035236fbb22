/-
# Runs of the trie store: adding what is already there

`CTrieDB::AddNewTrie` (`src/storage/triedb.cpp`) over whole runs.  The engines of a run
are those reached from the empty engine by `AddNewTrie` calls, each on any root: the null root,
one an earlier call returned, or any other hash (`Reachable`; the stress test
`triedb_tests/stresstest` is such a run).  Whatever `CryptoHash` is, every node of a reached
engine is `NodeOk`: a value node is kept under its own hash, and an extension has a non-empty
key (`reachable_storeInv`).  The
paths `GetNodePath` builds hold only branches and such extensions (`getNodePath_pathOk`), the
two backward passes of `AddNode` keep them so (`relinkOldLoop_pathOk`, `linkNewLoop_pathOk`),
and a batch caches only `NodeOk` nodes (`createTrieNodeList_cacheInv`).

On such an engine, the path of a key that `Retrieve` finds runs through the nodes of the walk
of `GetKeyValue` and ends at the node holding the value link
(`getNodePath_of_getKeyValueLoop`).  The second pass of `AddNode` then stops at its first step,
as the value is the same, and returns the root with the cache as it was
(`addNode_of_retrieve`).  So `AddNewTrie` of a batch whose keys already hold its values returns
the same root and the same engine (`addNewTrie_present_same`).

What `Retrieve` returns on such an engine is held by a value node under that value's own hash
(`retrieve_authenticated`), and the walk of `GetKeyValue` never needs more fuel than the key has
nibbles, so the model's bound cuts no walk of the code short (`getKeyValue_fuel_enough`).
-/
import MetabaseNet.TrieNode
import MetabaseNet.Lib.Loop

namespace MetabaseNet.Trie

variable {H : Type}

/-! ## Keys of extensions -/

theorem byte2Nibble_ne_nil {bt : List ℕ} (hbt : bt ≠ []) (flag : ℕ) : byte2Nibble bt flag ≠ [] := by
  match bt, hbt with
  | [d], _ =>
    unfold byte2Nibble
    split_ifs <;> exact List.cons_ne_nil _ _
  | d :: e :: bt, _ =>
    rw [byte2Nibble_cons_of_ne_nil d (List.cons_ne_nil e bt)]
    exact List.cons_ne_nil _ _

namespace TrieExtension

theorem getKey_setKey_ne_nil (e : TrieExtension H) {k : List ℕ} (hk : k ≠ []) :
    (e.setKey k).getKey ≠ [] :=
  byte2Nibble_ne_nil (nibble2Byte_fst_ne_nil hk) _

/-- The links are kept in the flag's high nibble and the link vector: the key is left alone. -/
theorem getKey_setNextHash (e : TrieExtension H) (hash : H) :
    (e.setNextHash hash).getKey = e.getKey := by
  unfold setNextHash
  split_ifs <;> simp only [getKey, Nat.mod_mod]

theorem getKey_setValueHash (e : TrieExtension H) (hash : H) :
    (e.setValueHash hash).getKey = e.getKey := by
  unfold setValueHash
  split_ifs <;> simp only [getKey, Nat.add_mod_right, Nat.mod_mod]

end TrieExtension

theorem extensionOfLinks_getKey_ne_nil [Inhabited H] (value : TrieValue H) {key : List ℕ} (hk : key ≠ []) :
    (extensionOfLinks value key).getKey ≠ [] := by
  unfold extensionOfLinks
  rw [TrieExtension.getKey_setValueHash, TrieExtension.getKey_setNextHash]
  exact TrieExtension.getKey_setKey_ne_nil _ hk

theorem commonPrefixLen_le : ∀ a b : List ℕ, commonPrefixLen a b ≤ b.length
  | x :: l, y :: m => by
    unfold commonPrefixLen
    split_ifs
    · have := commonPrefixLen_le l m
      simp only [List.length_cons]
      omega
    · omega
  | [], _ => by simp [commonPrefixLen]
  | _ :: _, [] => by simp [commonPrefixLen]

/-! ## The nodes of a path -/

variable [Inhabited H]

/-- A node of a path: a branch, or an extension with a non-empty key. -/
def PathOk (kv : TrieKeyValue H) : Prop :=
  kv.value.type = .branch ∨ (kv.value.type = .extension ∧ kv.value.vaExtension.getKey ≠ [])

namespace PathOk

variable {kv : TrieKeyValue H}

theorem withBranch (h : PathOk kv) (b : TrieBranch H) : PathOk (kv.withBranch b) := h

theorem withExtension (h : PathOk kv) {e : TrieExtension H}
    (he : e.getKey = kv.value.vaExtension.getKey) : PathOk (kv.withExtension e) := by
  rcases h with h | ⟨h, hk⟩
  · exact Or.inl h
  · exact Or.inr ⟨h, he ▸ hk⟩

end PathOk

variable [DecidableEq H]

/-! ## What the engine and the paths hold -/

/-- A node the engine may keep under `h`: a value node only under its own hash, an extension
only with a non-empty key. -/
def NodeOk (hasher : TrieHasher H) (h : H) (v : TrieValue H) : Prop :=
  (v.type = .value → v.calcHash hasher = h) ∧ (v.type = .extension → v.vaExtension.getKey ≠ [])

/-- Every node of the engine is `NodeOk`. -/
def StoreInv (hasher : TrieHasher H) (db : TrieStore H) : Prop :=
  ∀ h v, db h = some v → NodeOk hasher h v

/-- Every node of the cache is `NodeOk`. -/
def CacheInv (hasher : TrieHasher H) (cache : TrieCache H) : Prop :=
  ∀ p ∈ cache, NodeOk hasher p.1 p.2

/-- The engines of a run: from the empty engine, `AddNewTrie` of any batch on any root, the
null root, one an earlier call returned, or any other hash. -/
inductive Reachable (hasher : TrieHasher H) : TrieStore H → Prop
  | empty : Reachable hasher (fun _ => none)
  | addNewTrie {db db' : TrieStore H} {r r' : H} (M : List (List ℕ × List ℕ)) :
      Reachable hasher db → addNewTrie hasher db r M = some (r', db') → Reachable hasher db'

theorem PathOk.nodeOk (hasher : TrieHasher H) {kv : TrieKeyValue H} (h : PathOk kv) (hash : H) :
    NodeOk hasher hash kv.value := by
  unfold NodeOk
  rcases h with h | ⟨h, hk⟩
  · rw [h]
    exact ⟨fun h' => (nomatch h'), fun h' => (nomatch h')⟩
  · rw [h]
    exact ⟨fun h' => (nomatch h'), fun _ => hk⟩

omit [DecidableEq H] in
theorem newTailKv_pathOk (syKey : List ℕ) :
    ∀ kv ∈ (newTailKv syKey : List (TrieKeyValue H)), PathOk kv := by
  unfold newTailKv
  split_ifs with h1 h2
  · intro kv hkv
    rw [List.mem_singleton] at hkv
    subst hkv
    exact Or.inl rfl
  · intro kv hkv
    rw [List.mem_singleton] at hkv
    subst hkv
    exact Or.inr ⟨rfl, TrieExtension.getKey_setKey_ne_nil _ (List.ne_nil_of_length_pos (by omega))⟩
  · intro kv hkv
    cases hkv

theorem oldTailKv_pathOk (value : TrieValue H) (btNodeKey : List ℕ) :
    ∀ kv ∈ oldTailKv value btNodeKey, PathOk kv := by
  unfold oldTailKv
  split_ifs with h1 h2
  · intro kv hkv
    rw [List.mem_singleton] at hkv
    subst hkv
    exact Or.inl rfl
  · intro kv hkv
    rw [List.mem_singleton] at hkv
    subst hkv
    exact Or.inr ⟨rfl, extensionOfLinks_getKey_ne_nil _ (List.ne_nil_of_length_pos (by omega))⟩
  · intro kv hkv
    cases hkv

theorem splitBranchKv_pathOk (value : TrieValue H) (btNodeKey syKey : List ℕ) :
    PathOk (splitBranchKv value btNodeKey syKey) :=
  Or.inl rfl

omit [DecidableEq H] in
theorem splitExtensionKv_pathOk (value : TrieValue H) {btNodeKey : List ℕ} (syKey : List ℕ)
    {nSameLen : ℕ} (h0 : nSameLen ≠ 0) (hle : nSameLen ≤ btNodeKey.length) :
    PathOk (splitExtensionKv value btNodeKey syKey nSameLen) := by
  have hk : btNodeKey.take nSameLen ≠ [] :=
    List.ne_nil_of_length_pos (by rw [List.length_take]; omega)
  refine Or.inr ⟨rfl, ?_⟩
  unfold splitExtensionKv
  split_ifs
  · exact extensionOfLinks_getKey_ne_nil _ hk
  · exact TrieExtension.getKey_setKey_ne_nil _ hk

section Hasher

variable (hasher : TrieHasher H)

theorem getBranchPath_pathOk {syKey : List ℕ} {hash : H} {value : TrieValue H}
    {path : List (TrieKeyValue H)} (hty : value.type = .branch) (hpath : ∀ kv ∈ path, PathOk kv) :
    ∀ kv ∈ (getBranchPath syKey hash value path).2.2.2, PathOk kv := by
  have hshare : ∀ kn : List ℕ,
      PathOk ({ value := value, nKvType := .share, keyNew := kn } : TrieKeyValue H) :=
    fun _ => Or.inl hty
  unfold getBranchPath
  split_ifs
  · simp only [List.forall_mem_append, List.forall_mem_singleton]
    exact ⟨hpath, hshare _⟩
  · simp only [List.forall_mem_append, List.forall_mem_cons]
    exact ⟨hpath, hshare _, newTailKv_pathOk _⟩

theorem getExtensionPath_pathOk {syKey : List ℕ} {hash : H} {value : TrieValue H}
    {path : List (TrieKeyValue H)} (hty : value.type = .extension)
    (hkey : value.vaExtension.getKey ≠ []) (hpath : ∀ kv ∈ path, PathOk kv) :
    ∀ kv ∈ (getExtensionPath syKey hash value path).2.2.2, PathOk kv := by
  have hshare : ∀ ko kn : List ℕ,
      PathOk ({ value := value, nKvType := .share, keyOld := ko, keyNew := kn } : TrieKeyValue H) :=
    fun _ _ => Or.inr ⟨hty, hkey⟩
  have hle := commonPrefixLen_le syKey value.vaExtension.getKey
  unfold getExtensionPath
  dsimp only
  split_ifs <;>
    simp only [List.forall_mem_append, List.forall_mem_singleton] <;>
    first
    | exact ⟨⟨hpath, hshare _ _⟩, newTailKv_pathOk _⟩
    | exact ⟨hpath, hshare _ _⟩
    | exact ⟨⟨⟨⟨hpath, splitBranchKv_pathOk _ _ _⟩, splitBranchKv_pathOk _ _ _⟩,
        oldTailKv_pathOk _ _⟩, newTailKv_pathOk _⟩
    | exact ⟨⟨⟨hpath, splitBranchKv_pathOk _ _ _⟩, oldTailKv_pathOk _ _⟩, newTailKv_pathOk _⟩
    | exact ⟨⟨⟨⟨hpath, splitExtensionKv_pathOk _ _ (by assumption) hle⟩,
        splitBranchKv_pathOk _ _ _⟩, oldTailKv_pathOk _ _⟩, newTailKv_pathOk _⟩
    | exact ⟨⟨⟨hpath, splitExtensionKv_pathOk _ _ (by assumption) hle⟩, oldTailKv_pathOk _ _⟩,
        newTailKv_pathOk _⟩

omit [Inhabited H] in
theorem mem_of_lookup_eq_some {hash : H} {v : TrieValue H} :
    ∀ {cache : TrieCache H}, cache.lookup hash = some v → (hash, v) ∈ cache
  | [], h => by cases h
  | (k, w) :: cache, h => by
    by_cases hk : hash = k
    · subst hk
      rw [List.lookup_cons_self, Option.some.injEq] at h
      subst h
      exact List.mem_cons_self
    · have hne : (hash == k) = false := beq_false_of_ne hk
      rw [List.lookup_cons, hne] at h
      exact List.mem_cons_of_mem _ (mem_of_lookup_eq_some h)

/-- A node read from the cache or the engine is `NodeOk`. -/
theorem getNodeValue_nodeOk {db : TrieStore H} {cache : TrieCache H} {hash : H}
    {value : TrieValue H} {fCache : Bool} (hdb : StoreInv hasher db) (hc : CacheInv hasher cache)
    (h : getNodeValue db cache hash = some (value, fCache)) : NodeOk hasher hash value := by
  unfold getNodeValue at h
  split_ifs at h
  cases hl : cache.lookup hash with
  | none =>
    simp only [hl, Option.map_eq_some_iff, Prod.mk.injEq] at h
    obtain ⟨v, hv, rfl, -⟩ := h
    exact hdb hash v hv
  | some v =>
    simp only [hl, Option.some.injEq, Prod.mk.injEq] at h
    obtain ⟨rfl, -⟩ := h
    exact hc (hash, v) (mem_of_lookup_eq_some hl)

/-- **The paths are well formed.**  On a well-formed engine and cache, every node of the path
`GetNodePath` returns is a branch or an extension with a non-empty key. -/
theorem getNodePath_pathOk {db : TrieStore H} {cache : TrieCache H} {hashRoot : H}
    (hdb : StoreInv hasher db) (hc : CacheInv hasher cache) :
    ∀ fuel hash syKey path vRemove result,
      getNodePath db cache hashRoot fuel hash syKey path vRemove = some result →
      (∀ kv ∈ path, PathOk kv) → ∀ kv ∈ result.1, PathOk kv := by
  intro fuel
  induction fuel with
  | zero =>
    intro hash syKey path vRemove result h
    cases h
  | succ fuel ih =>
    intro hash syKey path vRemove result h hpath
    rw [getNodePath] at h
    by_cases hk : syKey = []
    · rw [if_pos hk] at h
      cases h
      exact hpath
    rw [if_neg hk] at h
    cases hv : getNodeValue db cache hash with
    | none =>
      -- a root that is not there starts a new trie
      simp only [hv] at h
      by_cases hr : hash = hashRoot
      · rw [if_pos hr] at h
        cases h
        simp only [List.forall_mem_append]
        exact ⟨hpath, newTailKv_pathOk _⟩
      · rw [if_neg hr] at h
        cases h
    | some p =>
      obtain ⟨value, fCache⟩ := p
      have hok := getNodeValue_nodeOk hasher hdb hc hv
      simp only [hv] at h
      -- the path goes on or ends by the kind of node; an unset or value node is an error
      cases hty : value.type with
      | branch =>
        simp only [hty] at h
        have hb : ∀ kv ∈ (getBranchPath syKey hash value path).2.2.2, PathOk kv :=
          getBranchPath_pathOk hty hpath
        generalize getBranchPath syKey hash value path = r at h hb
        obtain ⟨b, s, h', p⟩ := r
        cases b
        · cases h
          exact hb
        · exact ih _ _ _ _ _ h hb
      | extension =>
        simp only [hty] at h
        have he : ∀ kv ∈ (getExtensionPath syKey hash value path).2.2.2, PathOk kv :=
          getExtensionPath_pathOk hty (hok.2 hty) hpath
        generalize getExtensionPath syKey hash value path = r at h he
        obtain ⟨b, s, h', p⟩ := r
        cases b
        · cases h
          exact he
        · exact ih _ _ _ _ _ h he
      | value => simp only [hty] at h; cases h
      | none => simp only [hty] at h; cases h

/-! ## The two backward passes of `AddNode` -/

theorem relinkOld_pathOk {hashPrevOld h' : H} {kv kv' : TrieKeyValue H} (hkv : PathOk kv)
    (h : relinkOld hasher hashPrevOld kv = some (kv', h')) : PathOk kv' := by
  unfold relinkOld at h
  split at h
  · split_ifs at h <;> simp only [Option.some.injEq, Prod.mk.injEq] at h <;> obtain ⟨rfl, -⟩ := h
    · exact hkv.withBranch _
    · exact hkv
    · exact hkv
  · split_ifs at h <;> simp only [Option.some.injEq, Prod.mk.injEq] at h <;> obtain ⟨rfl, -⟩ := h
    · exact hkv.withExtension (TrieExtension.getKey_setNextHash _ _)
    · exact hkv
    · exact hkv
  · cases h

/-- The first pass keeps the kind and the key of every node. -/
theorem relinkOldLoop_pathOk :
    ∀ {hashPrevOld : H} {nodes nodes' : List (TrieKeyValue H)}, (∀ kv ∈ nodes, PathOk kv) →
      relinkOldLoop hasher hashPrevOld nodes = some nodes' → ∀ kv ∈ nodes', PathOk kv
  | _, [], nodes', _, h => by
    rw [relinkOldLoop, Option.some.injEq] at h
    subst h
    intro kv hkv
    cases hkv
  | hashPrevOld, kv :: nodes, nodes', hnodes, h => by
    rw [List.forall_mem_cons] at hnodes
    simp only [relinkOldLoop, Option.bind_eq_bind] at h
    obtain ⟨⟨kv', h'⟩, hkv', h⟩ := Option.bind_eq_some_iff.mp h
    obtain ⟨rest, hrest, h⟩ := Option.bind_eq_some_iff.mp h
    simp only [Option.pure_def, Option.some.injEq] at h
    subst h
    rw [List.forall_mem_cons]
    exact ⟨relinkOld_pathOk hasher hnodes.1 hkv', relinkOldLoop_pathOk hnodes.2 hrest⟩

theorem linkNew_pathOk {hashPrev hashPrev' : H} {fIsValue fIsValue' : Bool}
    {kv kv' : TrieKeyValue H} (hkv : PathOk kv)
    (h : linkNew hasher hashPrev fIsValue kv = .next kv' hashPrev' fIsValue') : PathOk kv' := by
  unfold linkNew at h
  split at h
  · split_ifs at h <;> cases h
    · exact hkv.withBranch _
    · exact hkv.withBranch _
    · exact hkv
    · exact hkv
  · split_ifs at h <;> cases h
    · exact hkv.withExtension (TrieExtension.getKey_setValueHash _ _)
    · exact hkv.withExtension (TrieExtension.getKey_setNextHash _ _)
    · exact hkv
  · cases h

/-- The second pass keeps the kind and the key of every node. -/
theorem linkNewLoop_pathOk :
    ∀ {hashPrev : H} {fIsValue : Bool} {nodes nodes' : List (TrieKeyValue H)} {hashRoot : H},
      (∀ kv ∈ nodes, PathOk kv) → linkNewLoop hasher hashPrev fIsValue nodes = .linked nodes' hashRoot →
      ∀ kv ∈ nodes', PathOk kv
  | _, _, [], nodes', _, _, h => by
    rw [linkNewLoop] at h
    cases h
    intro kv hkv
    cases hkv
  | hashPrev, fIsValue, kv :: nodes, nodes', hashRoot, hnodes, h => by
    rw [List.forall_mem_cons] at hnodes
    rw [linkNewLoop] at h
    cases hl : linkNew hasher hashPrev fIsValue kv with
    | error => simp only [hl] at h; cases h
    | same => simp only [hl] at h; cases h
    | next kv' hashPrev' fIsValue' =>
      simp only [hl] at h
      cases hrest : linkNewLoop hasher hashPrev' fIsValue' nodes with
      | linked rest root =>
        simp only [hrest, LinkResult.linked.injEq] at h
        obtain ⟨rfl, -⟩ := h
        rw [List.forall_mem_cons]
        exact ⟨linkNew_pathOk hasher hnodes.1 hl, linkNewLoop_pathOk hnodes.2 hrest⟩
      | error => simp only [hrest] at h; cases h
      | same => simp only [hrest] at h; cases h

/-! ## The cache of a batch and the engine after it -/

theorem cacheInv_erase {cache : TrieCache H} (hc : CacheInv hasher cache) (hash : H) :
    CacheInv hasher (cacheErase cache hash) :=
  fun p hp => hc p (List.mem_of_mem_filter hp)

theorem cacheInv_set {cache : TrieCache H} (hc : CacheInv hasher cache) {hash : H}
    {v : TrieValue H} (hv : NodeOk hasher hash v) : CacheInv hasher (cacheSet cache hash v) := by
  intro p hp
  rcases List.mem_cons.mp hp with rfl | hp
  · exact hv
  · exact cacheInv_erase hasher hc hash p hp

theorem cacheInv_foldl_erase : ∀ (vRemove : List H) {cache : TrieCache H},
    CacheInv hasher cache → CacheInv hasher (vRemove.foldl cacheErase cache)
  | [], _, hc => hc
  | hash :: vRemove, _, hc => cacheInv_foldl_erase vRemove (cacheInv_erase hasher hc hash)

/-- Caching nodes under hashes they are `NodeOk` for keeps the cache well formed. -/
theorem cacheInv_foldl_set : ∀ (nodes : List (TrieKeyValue H)) {cache : TrieCache H},
    (∀ kv ∈ nodes, NodeOk hasher kv.hashValue kv.value) → CacheInv hasher cache →
    CacheInv hasher (nodes.foldl (fun cache kv =>
      if kv.hashValue ≠ default then cacheSet cache kv.hashValue kv.value else cache) cache)
  | [], _, _, hc => hc
  | kv :: nodes, cache, hnodes, hc => by
    rw [List.forall_mem_cons] at hnodes
    rw [List.foldl_cons]
    apply cacheInv_foldl_set nodes hnodes.2
    split_ifs
    · exact cacheInv_set hasher hc hnodes.1
    · exact hc

/-- **`AddNode` caches only well-formed nodes**: the nodes of the path, rebuilt, and the value
node under its own hash. -/
theorem addNode_cacheInv {db : TrieStore H} {cache cache' : TrieCache H} {fuel : ℕ}
    {hashRoot hashRoot' : H} {nbKeyNibble btValue : List ℕ} (hdb : StoreInv hasher db)
    (hc : CacheInv hasher cache)
    (h : addNode hasher db fuel hashRoot nbKeyNibble btValue cache = some (hashRoot', cache')) :
    CacheInv hasher cache' := by
  unfold addNode at h
  simp only [Option.bind_eq_bind] at h
  obtain ⟨⟨path, vRemove⟩, hpath, h⟩ := Option.bind_eq_some_iff.mp h
  have hok := getNodePath_pathOk hasher hdb hc _ _ _ _ _ _ hpath fun _ h => nomatch h
  obtain ⟨nodes, hnodes, h⟩ := Option.bind_eq_some_iff.mp h
  have hok' := relinkOldLoop_pathOk hasher (fun kv hkv => hok kv (List.mem_reverse.mp hkv)) hnodes
  split at h
  · cases h
  · cases h
    exact hc
  · rename_i nodes' root hlink
    cases h
    have hok'' := linkNewLoop_pathOk hasher hok' hlink
    apply cacheInv_foldl_set hasher _ _ (cacheInv_foldl_erase hasher vRemove hc)
    intro kv hkv
    rcases List.mem_append.mp hkv with hkv | hkv
    · exact (hok'' kv (List.mem_reverse.mp hkv)).nodeOk hasher _
    · rw [List.mem_singleton] at hkv
      subst hkv
      exact ⟨fun _ => rfl, fun h => nomatch h⟩

theorem createTrieNodeList_cacheInv {db : TrieStore H} {hashPrevRoot hashNewRoot : H}
    {mapKvList : List (List ℕ × List ℕ)} {cache : TrieCache H} (hdb : StoreInv hasher db)
    (h : createTrieNodeList hasher db hashPrevRoot mapKvList = some (hashNewRoot, cache)) :
    CacheInv hasher cache := by
  unfold createTrieNodeList at h
  split_ifs at h
  · cases h
    intro p hp
    cases hp
  · -- each write of the batch starts from the cache the one before left
    exact Loop.foldlM_option_inv _ (fun rc : H × TrieCache H => CacheInv hasher rc.2) mapKvList
      (fun _ _ _ _ hrc hstep => addNode_cacheInv hasher hdb hrc hstep) (by intro p hp; cases hp) h

/-- Writing a well-formed cache keeps the engine well formed. -/
theorem addNewTrie_storeInv {db db' : TrieStore H} {hashPrevRoot hashNewRoot : H}
    {mapKvList : List (List ℕ × List ℕ)} (hdb : StoreInv hasher db)
    (h : addNewTrie hasher db hashPrevRoot mapKvList = some (hashNewRoot, db')) :
    StoreInv hasher db' := by
  unfold addNewTrie at h
  simp only [Option.bind_eq_bind] at h
  obtain ⟨⟨root, cache⟩, hcache, h⟩ := Option.bind_eq_some_iff.mp h
  have hc := createTrieNodeList_cacheInv hasher hdb hcache
  obtain ⟨db'', hdb'', h⟩ := Option.bind_eq_some_iff.mp h
  simp only [Option.some.injEq, Prod.mk.injEq] at h
  obtain ⟨-, rfl⟩ := h
  apply Loop.foldlM_option_inv _ (StoreInv hasher) cache _ hdb hdb''
  intro p hp d d' hd hstep
  obtain ⟨_, -, rfl⟩ := Option.map_eq_some_iff.mp hstep
  intro h v hv
  by_cases hh : h = p.1
  · subst hh
    rw [Function.update_self, Option.some.injEq] at hv
    subst hv
    exact hc p hp
  · rw [Function.update_of_ne hh] at hv
    exact hd h v hv

/-- **Every engine of a run is well formed**, whatever `CryptoHash` is. -/
theorem reachable_storeInv {db : TrieStore H} (h : Reachable hasher db) :
    StoreInv hasher db := by
  induction h with
  | empty =>
    intro h v hv
    cases hv
  | addNewTrie M _ hadd ih => exact addNewTrie_storeInv hasher ih hadd

/-! ## The path of a key that is there -/

/-- The last node of a path holds the value link `hv`: a shared branch with `hv` as the value
link of its new-side nibble, or a shared extension with `hv` as its value link. -/
def HoldsValue (hv : H) (kv : TrieKeyValue H) : Prop :=
  kv.nKvType = .share ∧
    ((kv.value.type = .branch ∧ kv.keyNew ≠ [] ∧
        kv.value.vaBranch.getValueHash (kv.keyNew.headD 0) = hv) ∨
      (kv.value.type = .extension ∧ kv.value.vaExtension.getValueHash = hv))

theorem getNodeValue_nil {db : TrieStore H} {hash : H} (hh : hash ≠ default) :
    getNodeValue db [] hash = (db hash).map fun value => (value, false) := by
  unfold getNodeValue
  rw [if_neg hh]
  rfl

theorem getKeyValueLoop_nil {db : TrieStore H} {fuel : ℕ} {hash : H} {w : List ℕ}
    (h : getKeyValueLoop db fuel hash [] = some w) :
    ∃ node, db hash = some node ∧ node.type = .value ∧ node.vaValue = w := by
  rw [getKeyValueLoop] at h
  simp only [Option.bind_eq_bind] at h
  obtain ⟨node, hnode, h⟩ := Option.bind_eq_some_iff.mp h
  split_ifs at h with hty
  cases h
  exact ⟨node, hnode, hty, rfl⟩

/-- A branch with one nibble left ends the path. -/
theorem getBranchPath_last (n : ℕ) (hash : H) (value : TrieValue H) (path : List (TrieKeyValue H)) :
    getBranchPath [n] hash value path =
      (false, [], hash, path ++ [{ value := value, nKvType := .share, keyNew := [n] }]) := by
  unfold getBranchPath
  rw [if_neg (by simp)]
  rfl

/-- A branch with more nibbles left and a next link leads on. -/
theorem getBranchPath_next {n : ℕ} {rest : List ℕ} (hr : rest ≠ []) {hash : H}
    {value : TrieValue H} (hn : value.vaBranch.getNextHash n ≠ default) (path : List (TrieKeyValue H)) :
    getBranchPath (n :: rest) hash value path =
      (true, rest, value.vaBranch.getNextHash n,
        path ++ [{ value := value, nKvType := .share, keyNew := [n] }]) := by
  have hlen : 1 < (n :: rest).length := by
    rw [List.length_cons]
    have := List.length_pos_of_ne_nil hr
    omega
  unfold getBranchPath
  rw [if_pos ⟨hlen, hn⟩]
  rfl

/-- An extension whose whole key starts what is left leads on past it, through its next link,
or ends the path there. -/
theorem getExtensionPath_of_keyStart {syKey : List ℕ} {hash : H} {value : TrieValue H}
    {path : List (TrieKeyValue H)}
    (hpre : value.vaExtension.getKey.length ≤ syKey.length ∧
      syKey.take value.vaExtension.getKey.length = value.vaExtension.getKey) :
    getExtensionPath syKey hash value path =
      let kv : TrieKeyValue H :=
        { value := value, nKvType := .share, keyOld := value.vaExtension.getKey,
          keyNew := value.vaExtension.getKey }
      let rest := syKey.drop value.vaExtension.getKey.length
      if value.vaExtension.getNextHash = default then
        (false, rest, value.vaExtension.getNextHash, path ++ [kv] ++ newTailKv rest)
      else (true, rest, value.vaExtension.getNextHash, path ++ [kv]) := by
  unfold getExtensionPath
  rw [if_pos hpre]

omit [DecidableEq H] in
/-- One node more in front of a walk that reaches a value. -/
theorem found_cons {db : TrieStore H} {kv₀ : TrieKeyValue H} (hkv₀ : PathOk kv₀)
    {path : List (TrieKeyValue H)} {r : Option (List (TrieKeyValue H) × List H)} {w : List ℕ}
    (h : ∃ mid kv hv, r = some (path ++ [kv₀] ++ mid ++ [kv], []) ∧ (∀ k ∈ mid, PathOk k) ∧
      PathOk kv ∧ HoldsValue hv kv ∧ hv ≠ default ∧
      ∃ node, db hv = some node ∧ node.type = .value ∧ node.vaValue = w) :
    ∃ mid kv hv, r = some (path ++ mid ++ [kv], []) ∧ (∀ k ∈ mid, PathOk k) ∧ PathOk kv ∧
      HoldsValue hv kv ∧ hv ≠ default ∧
      ∃ node, db hv = some node ∧ node.type = .value ∧ node.vaValue = w := by
  obtain ⟨mid, kv, hv, hp, hmid, hkv, hhold, hvd, hnode⟩ := h
  refine ⟨kv₀ :: mid, kv, hv, ?_, ?_, hkv, hhold, hvd, hnode⟩
  · rw [hp]
    simp only [List.append_assoc, List.cons_append, List.nil_append]
  · rw [List.forall_mem_cons]
    exact ⟨hkv₀, hmid⟩

/-- **The path of a key that is there.**  On an engine whose extensions have non-empty keys,
when the walk of `GetKeyValue` from `hash` along `syKey` ends at a value node, `GetNodePath`
from `hash` with the empty cache runs through the same nodes, passes no cached node, and ends
at the node holding the value link.  The fuel of `GetNodePath` goes down by one at each node
and the key by at least one nibble, so a fuel above the key's length is enough. -/
theorem getNodePath_of_getKeyValueLoop {db : TrieStore H} (hdb : StoreInv hasher db)
    (hashRoot : H) :
    ∀ fuel fuel' (hash : H) (syKey : List ℕ) (path : List (TrieKeyValue H)) (w : List ℕ),
      getKeyValueLoop db fuel' hash syKey = some w → syKey ≠ [] → hash ≠ default →
      syKey.length < fuel →
      ∃ mid kv hv, getNodePath db [] hashRoot fuel hash syKey path [] =
          some (path ++ mid ++ [kv], []) ∧ (∀ k ∈ mid, PathOk k) ∧ PathOk kv ∧
        HoldsValue hv kv ∧ hv ≠ default ∧
        ∃ node, db hv = some node ∧ node.type = .value ∧ node.vaValue = w := by
  intro fuel
  induction fuel with
  | zero =>
    intro _ _ _ _ _ _ _ _ hlt
    omega
  | succ fuel ih =>
    intro fuel' hash syKey path w hw hne hh hlt
    obtain ⟨n, rest, rfl⟩ := List.exists_cons_of_ne_nil hne
    obtain ⟨fuel', rfl⟩ : ∃ f, fuel' = f + 1 := by
      cases fuel' with
      | zero => simp [getKeyValueLoop] at hw
      | succ f => exact ⟨f, rfl⟩
    obtain ⟨value, hval⟩ : ∃ v, db hash = some v := by
      cases hval : db hash with
      | none => simp [getKeyValueLoop, hval] at hw
      | some v => exact ⟨v, rfl⟩
    have hok := hdb hash value hval
    rw [getNodePath, if_neg hne, getNodeValue_nil hh, hval]
    simp only [getKeyValueLoop, hval, Option.bind_eq_bind, Option.bind_some] at hw
    simp only [Option.map_some, Bool.false_eq_true, if_false]
    cases hty : value.type with
    | branch =>
      simp only [hty] at hw ⊢
      by_cases hr : rest = []
      · -- the last nibble: the value link of the branch
        subst hr
        simp only [if_true] at hw
        split_ifs at hw with hvd
        obtain ⟨node, hnode, hnty, hnv⟩ := getKeyValueLoop_nil hw
        rw [getBranchPath_last]
        exact ⟨[], { value := value, nKvType := .share, keyNew := [n] },
          value.vaBranch.getValueHash n, by simp, by simp, Or.inl hty,
          ⟨rfl, Or.inl ⟨hty, List.cons_ne_nil _ _, rfl⟩⟩, hvd, node, hnode, hnty, hnv⟩
      · -- more nibbles: on through the next link
        rw [if_neg hr] at hw
        split_ifs at hw with hnd
        rw [getBranchPath_next hr hnd]
        dsimp only
        have hlt' : rest.length < fuel := by
          rw [List.length_cons] at hlt
          omega
        exact found_cons (Or.inl hty)
          (ih fuel' _ rest (path ++ [{ value := value, nKvType := .share, keyNew := [n] }]) w hw hr
            hnd hlt')
    | extension =>
      simp only [hty] at hw ⊢
      have hK := hok.2 hty
      have hKpos := List.length_pos_of_ne_nil hK
      have hpre : value.vaExtension.getKey.length ≤ (n :: rest).length ∧
          (n :: rest).take value.vaExtension.getKey.length = value.vaExtension.getKey := by
        by_contra hpre
        rw [if_neg hpre] at hw
        cases hw
      rw [if_pos hpre] at hw
      rw [getExtensionPath_of_keyStart hpre]
      dsimp only
      by_cases hlen : (n :: rest).length = value.vaExtension.getKey.length
      · -- the key ends with the extension's: its value link
        rw [if_pos hlen] at hw
        have hvd : value.vaExtension.getValueHash ≠ default := by
          intro hvd
          rw [if_pos hvd] at hw
          cases hw
        rw [if_neg hvd] at hw
        have hdrop : (n :: rest).drop value.vaExtension.getKey.length = [] :=
          List.drop_eq_nil_of_le (by omega)
        rw [hdrop] at hw ⊢
        obtain ⟨node, hnode, hnty, hnv⟩ := getKeyValueLoop_nil hw
        have hhold : HoldsValue value.vaExtension.getValueHash
            ({ value := value, nKvType := .share, keyOld := value.vaExtension.getKey,
               keyNew := value.vaExtension.getKey } : TrieKeyValue H) :=
          ⟨rfl, Or.inr ⟨hty, rfl⟩⟩
        split_ifs with hnext
        · exact ⟨[], _, _, by simp [newTailKv], by simp, Or.inr ⟨hty, hK⟩, hhold, hvd, node,
            hnode, hnty, hnv⟩
        · -- the next link is followed with nothing left, which stops at once
          obtain ⟨fuel, rfl⟩ : ∃ f, fuel = f + 1 := ⟨fuel - 1, by
            rw [List.length_cons] at hlt
            omega⟩
          dsimp only
          rw [getNodePath, if_pos rfl]
          exact ⟨[], _, _, by simp, by simp, Or.inr ⟨hty, hK⟩, hhold, hvd, node, hnode, hnty,
            hnv⟩
      · -- more nibbles past the extension: on through its next link
        rw [if_neg hlen] at hw
        have hnd : value.vaExtension.getNextHash ≠ default := by
          intro hnd
          rw [if_pos hnd] at hw
          cases hw
        rw [if_neg hnd] at hw
        rw [if_neg hnd]
        dsimp only
        have hrest : (n :: rest).drop value.vaExtension.getKey.length ≠ [] := by
          apply List.ne_nil_of_length_pos
          rw [List.length_drop]
          omega
        have hlt' : ((n :: rest).drop value.vaExtension.getKey.length).length < fuel := by
          rw [List.length_drop]
          omega
        exact found_cons (Or.inr ⟨hty, hK⟩)
          (ih fuel' _ _ (path ++ [{ value := value, nKvType := .share,
                                     keyOld := value.vaExtension.getKey,
                                     keyNew := value.vaExtension.getKey }]) w hw hrest hnd hlt')
    | value => simp [hty] at hw
    | none => simp [hty] at hw

/-! ## Adding what is there -/

/-- The hash of a value node reads only its value. -/
theorem calcHash_value {v : TrieValue H} (hv : v.type = .value) :
    v.calcHash hasher = ({ type := .value, vaValue := v.vaValue } : TrieValue H).calcHash hasher := by
  unfold TrieValue.calcHash TrieValue.hasValue TrieValue.getStream
  rw [hv]

/-- From the null hash, the first pass leaves a shared node as it is, rehashed. -/
theorem relinkOld_default_share {kv : TrieKeyValue H} (hkv : PathOk kv)
    (hs : kv.nKvType = .share) :
    relinkOld hasher default kv =
      some (kv.calcValueHash hasher, (kv.calcValueHash hasher).hashValue) := by
  unfold relinkOld
  rcases hkv with hb | ⟨he, -⟩
  · simp [hb, hs]
  · simp [he, hs]

theorem relinkOld_isSome {hashPrevOld : H} {kv : TrieKeyValue H} (hkv : PathOk kv) :
    ∃ r, relinkOld hasher hashPrevOld kv = some r := by
  unfold relinkOld
  rcases hkv with hb | ⟨he, -⟩
  · simp only [hb]
    split_ifs <;> exact ⟨_, rfl⟩
  · simp only [he]
    split_ifs <;> exact ⟨_, rfl⟩

/-- The first pass does not fail on the nodes of a path. -/
theorem relinkOldLoop_isSome : ∀ (hashPrevOld : H) {nodes : List (TrieKeyValue H)},
    (∀ kv ∈ nodes, PathOk kv) → ∃ nodes', relinkOldLoop hasher hashPrevOld nodes = some nodes'
  | _, [], _ => ⟨[], rfl⟩
  | hashPrevOld, kv :: nodes, hnodes => by
    rw [List.forall_mem_cons] at hnodes
    obtain ⟨⟨kv', h'⟩, hkv'⟩ : ∃ r, relinkOld hasher hashPrevOld kv = some r :=
      relinkOld_isSome hasher hnodes.1
    obtain ⟨rest, hrest⟩ := relinkOldLoop_isSome h' hnodes.2
    refine ⟨kv' :: rest, ?_⟩
    simp only [relinkOldLoop, hkv', hrest, Option.bind_eq_bind, Option.bind_some, Option.pure_def]

/-- The second pass stops at once at a node that already holds the value. -/
theorem linkNew_same {hv : H} {kv : TrieKeyValue H} (hhold : HoldsValue hv kv)
    (hvd : hv ≠ default) : linkNew hasher hv true kv = .same := by
  obtain ⟨hs, ⟨hb, hk, hget⟩ | ⟨he, hget⟩⟩ := hhold
  · unfold linkNew
    simp only [hb]
    rw [if_pos (Or.inl hs), if_pos hk, if_pos trivial, if_pos ⟨hvd, hget⟩]
  · unfold linkNew
    simp only [he]
    rw [if_pos (Or.inl hs), if_pos trivial, if_pos ⟨hvd, hget⟩]

/-- `AddNode` along a path that ends at a node holding the value's own hash returns the root and
the cache it was given. -/
theorem addNode_of_holdsValue {db : TrieStore H} {cache : TrieCache H} {fuel : ℕ}
    {hashRoot : H} {nbKeyNibble btValue : List ℕ} {pre : List (TrieKeyValue H)}
    {kv : TrieKeyValue H} {vRemove : List H}
    (hp : getNodePath db cache hashRoot fuel hashRoot nbKeyNibble [] [] =
      some (pre ++ [kv], vRemove))
    (hpre : ∀ k ∈ pre, PathOk k) (hkv : PathOk kv)
    (hhold : HoldsValue (({ type := .value, vaValue := btValue } : TrieValue H).calcHash hasher) kv)
    (hvd : ({ type := .value, vaValue := btValue } : TrieValue H).calcHash hasher ≠ default) :
    addNode hasher db fuel hashRoot nbKeyNibble btValue cache = some (hashRoot, cache) := by
  obtain ⟨nodes, hnodes⟩ := relinkOldLoop_isSome hasher (kv.calcValueHash hasher).hashValue
    (fun k hk => hpre k (List.mem_reverse.mp hk))
  -- the deepest node comes first in both passes
  have hrel : relinkOldLoop hasher default (pre ++ [kv]).reverse =
      some (kv.calcValueHash hasher :: nodes) := by
    rw [List.reverse_append, List.reverse_singleton, List.singleton_append]
    simp only [relinkOldLoop, relinkOld_default_share hasher hkv hhold.1, hnodes,
      Option.bind_eq_bind, Option.bind_some, Option.pure_def]
  have hlink : linkNewLoop hasher
      (({ type := .value, vaValue := btValue } : TrieValue H).calcHash hasher) true
      (kv.calcValueHash hasher :: nodes) = .same := by
    have hhold' : HoldsValue _ (kv.calcValueHash hasher) := hhold
    rw [linkNewLoop, linkNew_same hasher hhold' hvd]
  unfold addNode
  simp only [hp, hrel, Option.bind_eq_bind, Option.bind_some]
  rw [TrieKeyValue.calcValueHash, hlink]

/-- **Writing the value a key already holds changes nothing.**  On a well-formed engine,
`AddNode` of a non-empty key that `Retrieve` finds, with the value it finds, from the empty cache
returns the root it was given and leaves the cache empty. -/
theorem addNode_of_retrieve {db : TrieStore H} {r : H} {key w : List ℕ}
    (hdb : StoreInv hasher db) (hkey : key ≠ []) (hret : retrieve db r key = some w) :
    addNode hasher db ((byte2Nibble key 0).length + 1) r (byte2Nibble key 0) w [] =
      some (r, []) := by
  unfold retrieve getKeyValue at hret
  split_ifs at hret with hr
  obtain ⟨mid, kv, hv, hp, hmid, hkv, hhold, hvd, node, hnode, hnty, hnv⟩ :=
    getNodePath_of_getKeyValueLoop hasher hdb r _ _ r _ [] w hret (byte2Nibble_ne_nil hkey 0) hr
      (Nat.lt_succ_self _)
  -- the value node is kept under its own hash, which reads only the value
  have hcalc : ({ type := .value, vaValue := w } : TrieValue H).calcHash hasher = hv := by
    rw [← hnv, ← calcHash_value hasher hnty]
    exact (hdb hv node hnode).1 hnty
  rw [List.nil_append] at hp
  rw [← hcalc] at hhold hvd
  exact addNode_of_holdsValue hasher hp hmid hkv hhold hvd

/-- **Adding what is there.**  On an engine reached by a run of `AddNewTrie`, and at any root,
a batch of non-empty keys that `Retrieve` already finds with its values is added with success, gives
back the same root, and writes nothing to the engine. -/
theorem addNewTrie_present_same {db : TrieStore H} (hreach : Reachable hasher db) (r : H)
    (mapKvList : List (List ℕ × List ℕ)) (hkeys : ∀ kv ∈ mapKvList, kv.1 ≠ [])
    (hret : ∀ kv ∈ mapKvList, retrieve db r kv.1 = some kv.2) :
    addNewTrie hasher db r mapKvList = some (r, db) := by
  have hdb := reachable_storeInv hasher hreach
  have hlist : createTrieNodeList hasher db r mapKvList = some (r, []) := by
    unfold createTrieNodeList
    split_ifs
    · rfl
    · exact Loop.foldlM_option_fixed _ mapKvList fun kv hkv =>
        addNode_of_retrieve hasher hdb (hkeys kv hkv) (hret kv hkv)
  unfold addNewTrie
  rw [hlist]
  rfl

end Hasher

/-- Two keys under one branch, `0x12 ↦ [1]` and `0x13 ↦ [2]`. -/
def twoKeyBatch : List (List ℕ × List ℕ) := [([0x12], [1]), ([0x13], [2])]

/-- The batch written to the empty engine: the first engine of a run. -/
theorem twoKeyBatch_reachable :
    ∃ r db, addNewTrie serialHasher (fun _ => none) [] twoKeyBatch = some (r, db) ∧
      Reachable serialHasher db := by
  obtain ⟨⟨r, db⟩, h⟩ : ∃ s, addNewTrie serialHasher (fun _ => none) [] twoKeyBatch = some s :=
    Option.isSome_iff_exists.mp (by decide)
  exact ⟨r, db, h, Reachable.addNewTrie twoKeyBatch Reachable.empty h⟩

/-- Written from the empty engine, the batch is then added again to the same root and engine. -/
theorem addNewTrie_present_same_twoKeys :
    ∃ r db, addNewTrie serialHasher (fun _ => none) [] twoKeyBatch = some (r, db) ∧
      addNewTrie serialHasher db r twoKeyBatch = some (r, db) := by
  obtain ⟨r, db, h, hreach⟩ := twoKeyBatch_reachable
  have hret : (addNewTrie serialHasher (fun _ => none) [] twoKeyBatch).map
      (fun s => twoKeyBatch.all fun kv => retrieve s.2 s.1 kv.1 = some kv.2) = some true := by
    decide
  rw [h, Option.map_some, Option.some.injEq, List.all_eq_true] at hret
  exact ⟨r, db, h, addNewTrie_present_same serialHasher hreach r twoKeyBatch (by decide)
    fun kv hkv => of_decide_eq_true (hret kv hkv)⟩

/-! ## What `Retrieve` returns -/

section Retrieve

variable (hasher : TrieHasher H)

/-- The walk of `GetKeyValue` returns only the value of a value node of the engine. -/
theorem getKeyValueLoop_value {db : TrieStore H} :
    ∀ {fuel : ℕ} {hash : H} {syKey w : List ℕ}, getKeyValueLoop db fuel hash syKey = some w →
      ∃ h node, db h = some node ∧ node.type = .value ∧ node.vaValue = w
  | _, hash, [], _, hw =>
    let ⟨node, hnode, hty, hv⟩ := getKeyValueLoop_nil hw
    ⟨hash, node, hnode, hty, hv⟩
  | 0, _, _ :: _, _, hw => by simp [getKeyValueLoop] at hw
  | fuel + 1, hash, n :: syKey, w, hw => by
    simp only [getKeyValueLoop, Option.bind_eq_bind] at hw
    obtain ⟨value, _, hw⟩ := Option.bind_eq_some_iff.mp hw
    -- a branch or an extension passes the walk on with less fuel; other nodes end it
    split at hw
    · split_ifs at hw <;> exact getKeyValueLoop_value hw
    · split_ifs at hw <;> exact getKeyValueLoop_value hw
    · cases hw

/-- **`Retrieve` returns authenticated values.**  On an engine reached by a run of
`AddNewTrie`, whatever the root and the key, a value that `Retrieve` returns is held by a value
node stored under the hash of the value node of that value: the engine cannot answer with a
value it does not hold under that value's own hash. -/
theorem retrieve_authenticated {db : TrieStore H} (hreach : Reachable hasher db)
    {hashRoot : H} {btKey w : List ℕ} (h : retrieve db hashRoot btKey = some w) :
    ∃ v : TrieValue H, db (({ type := .value, vaValue := w } : TrieValue H).calcHash hasher) =
      some v ∧ v.type = .value ∧ v.vaValue = w := by
  unfold retrieve getKeyValue at h
  split_ifs at h
  obtain ⟨hv, node, hnode, hty, hval⟩ := getKeyValueLoop_value h
  -- a value node is kept under its own hash, which reads only its value
  have hhash : node.calcHash hasher = hv := (reachable_storeInv hasher hreach hv node hnode).1 hty
  rw [calcHash_value hasher hty, hval] at hhash
  exact ⟨node, by rw [hhash]; exact hnode, hty, hval⟩

/-- The value `[1]` of `0x12`, read back from the engine the batch wrote. -/
theorem retrieve_authenticated_twoKeys :
    ∃ r db, addNewTrie serialHasher (fun _ => none) [] twoKeyBatch = some (r, db) ∧
      retrieve db r [0x12] = some [1] ∧
      ∃ v : TrieValue (List ℕ), db (({ type := .value, vaValue := [1] } : TrieValue (List ℕ)).calcHash
        serialHasher) = some v ∧ v.type = .value ∧ v.vaValue = [1] := by
  obtain ⟨r, db, h, hreach⟩ := twoKeyBatch_reachable
  have hret : (addNewTrie serialHasher (fun _ => none) [] twoKeyBatch).map
      (fun s => retrieve s.2 s.1 [0x12]) = some (some [1]) := by
    decide
  rw [h, Option.map_some, Option.some.injEq] at hret
  exact ⟨r, db, h, hret, retrieve_authenticated serialHasher hreach hret⟩

/-- On an engine whose extensions have non-empty keys, each step of the walk consumes a nibble
or more: a fuel of the key's length is enough, and one more changes nothing. -/
theorem getKeyValueLoop_fuel_succ {db : TrieStore H} (hdb : StoreInv hasher db) :
    ∀ {fuel : ℕ} {hash : H} {syKey : List ℕ}, syKey.length ≤ fuel →
      getKeyValueLoop db (fuel + 1) hash syKey = getKeyValueLoop db fuel hash syKey
  | _, hash, [], _ => by simp only [getKeyValueLoop]
  | 0, _, _ :: _, hlt => absurd hlt (by simp)
  | fuel + 1, hash, n :: syKey, hlt => by
    rw [List.length_cons] at hlt
    simp only [getKeyValueLoop, Option.bind_eq_bind]
    cases hval : db hash with
    | none => rfl
    | some value =>
      simp only [Option.bind_some]
      cases hty : value.type with
      | branch =>
        -- the same link, followed with one nibble less
        exact if_congr Iff.rfl rfl (getKeyValueLoop_fuel_succ hdb (by omega))
      | extension =>
        -- the extension's key is not empty, so the walk goes on with a shorter key
        have hkey := List.length_pos_of_ne_nil ((hdb hash value hval).2 hty)
        exact if_congr Iff.rfl (if_congr Iff.rfl rfl (getKeyValueLoop_fuel_succ hdb
          (by rw [List.length_drop, List.length_cons]; omega))) rfl
      | none => rfl
      | value => rfl

/-- **`GetKeyValue` needs no more fuel than the key's nibbles.**  On an engine reached by a run
of `AddNewTrie`, any fuel from the key's length on gives what `GetKeyValue` gives: the loop the
code runs without a bound never goes on longer than the model allows. -/
theorem getKeyValue_fuel_enough {db : TrieStore H} (hreach : Reachable hasher db)
    {hashRoot : H} (hroot : hashRoot ≠ default) {nbKey : List ℕ} {fuel : ℕ}
    (hfuel : nbKey.length ≤ fuel) :
    getKeyValueLoop db fuel hashRoot nbKey = getKeyValue db hashRoot nbKey := by
  have hdb := reachable_storeInv hasher hreach
  rw [getKeyValue, if_neg hroot]
  -- both fuels are at least the key's length, and each step up changes nothing
  have hstable : ∀ k, getKeyValueLoop db (nbKey.length + k) hashRoot nbKey =
      getKeyValueLoop db nbKey.length hashRoot nbKey := by
    intro k
    induction k with
    | zero => rfl
    | succ k ih => rw [← Nat.add_assoc, getKeyValueLoop_fuel_succ hasher hdb (by omega), ih]
  obtain ⟨k, rfl⟩ := Nat.exists_eq_add_of_le hfuel
  rw [hstable k, hstable 1]

/-- The walk to `0x12` with twice the fuel. -/
theorem getKeyValue_fuel_enough_twoKeys :
    ∃ r db, addNewTrie serialHasher (fun _ => none) [] twoKeyBatch = some (r, db) ∧ r ≠ [] ∧
      getKeyValueLoop db 4 r [1, 2] = getKeyValue db r [1, 2] := by
  obtain ⟨r, db, h, hreach⟩ := twoKeyBatch_reachable
  have hr : (addNewTrie serialHasher (fun _ => none) [] twoKeyBatch).map
      (fun s => decide (s.1 ≠ [])) = some true := by
    decide
  rw [h, Option.map_some, Option.some.injEq] at hr
  exact ⟨r, db, h, of_decide_eq_true hr, getKeyValue_fuel_enough serialHasher hreach
    (of_decide_eq_true hr) (by decide)⟩

end Retrieve

end MetabaseNet.Trie
