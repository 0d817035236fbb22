/-
# The laws of the trie's nodes

`CTrieBranch` and `CTrieExtension` (`src/storage/triedb.cpp`) keep their links in vectors
reached through small indices, and the trie code reads them as independent slots: sixteen
next and sixteen value links for a branch, a next and a value link for an extension.

* An extension's two links obey the laws of two independent slots after any call, and
  `SetKey` then `GetKey` gives the nibbles back, leaving the links alone
  (`trieExtension_link_laws`).  The flag's high nibble, which says which link comes first, is
  kept consistent by every call, so no invariant is needed.
* A branch's index is a `uint8`, one more than the position of the link in its vector, and the
  vector only grows: a slot cleared and filled again 255 times leaves 255 dead entries, and the
  next fill stores the index `256 % 256 = 0`, so the slot reads as empty
  (`setNextHash_index_wraps`).
* Below that bound the indices stay well kept (`LinkTable`): a run of `SetNextHash` and
  `SetValueHash` calls on a fresh branch reads as thirty-two independent slots, each holding the
  last hash set there (`TrieBranch.run_slots`).
* The byte keys of `Retrieve` and `AddNewTrie`, unpacked to nibbles, pack back to themselves
  (`nibble2Byte_byte2Nibble`).
-/
import MetabaseNet.TrieDB
import Mathlib

namespace MetabaseNet.Trie

variable {H : Type} [DecidableEq H] [Inhabited H]

/-! ## Nibbles -/

theorem nibble2Byte_fst_ne_nil {l : List ℕ} (hl : l ≠ []) : (nibble2Byte l).1 ≠ [] := by
  match l, hl with
  | [_], _ => simp [nibble2Byte]
  | _ :: _ :: _, _ => simp [nibble2Byte]

/-- The flag `Nibble2Byte` returns is `0` or `1`. -/
theorem nibble2Byte_snd_le : ∀ l : List ℕ, (nibble2Byte l).2 ≤ 1
  | [] => by simp [nibble2Byte]
  | [_] => by simp [nibble2Byte]
  | _ :: _ :: l => by simpa [nibble2Byte] using nibble2Byte_snd_le l

theorem byte2Nibble_cons_of_ne_nil (d : ℕ) {bt : List ℕ} (hbt : bt ≠ []) (flag : ℕ) :
    byte2Nibble (d :: bt) flag = d / 16 :: d % 16 :: byte2Nibble bt flag := by
  match bt, hbt with
  | _ :: _, _ => rfl

/-- Unpacking the bytes and the flag that packing gives returns the nibbles.  The induction
follows `nibble2Byte`, two nibbles at a time. -/
theorem byte2Nibble_nibble2Byte : ∀ l : List ℕ, (∀ x ∈ l, x < 16) →
    byte2Nibble (nibble2Byte l).1 (nibble2Byte l).2 = l
  | [], _ => rfl
  | [a], h => by
    have ha : a < 16 := h a (List.mem_singleton_self a)
    simp [nibble2Byte, byte2Nibble]
    omega
  | a :: b :: l, h => by
    have ha : a < 16 := h a (by simp)
    have hb : b < 16 := h b (by simp)
    have ih := byte2Nibble_nibble2Byte l (fun x hx => h x (by simp [hx]))
    by_cases hl : l = []
    · -- the last byte holds two nibbles, and the flag is `0`
      subst hl
      simp only [nibble2Byte, byte2Nibble, ↓reduceIte, List.cons.injEq, and_true]
      omega
    · simp only [nibble2Byte]
      rw [byte2Nibble_cons_of_ne_nil _ (nibble2Byte_fst_ne_nil hl), ih]
      simp only [List.cons.injEq, and_true]
      omega

/-- **The byte keys come back.**  Unpacking bytes with the flag `0`, as `Retrieve`, `AddNewTrie`
and `WalkThroughTrie` do with a key, and packing the nibbles again, as the walker does with the
path it reached, gives the bytes and the flag `0`. -/
theorem nibble2Byte_byte2Nibble : ∀ bt : List ℕ, (∀ d ∈ bt, d < 256) →
    nibble2Byte (byte2Nibble bt 0) = (bt, 0)
  | [], _ => rfl
  | [d], h => by
    have hd : d < 256 := h d (List.mem_singleton_self d)
    simp only [byte2Nibble, if_true, nibble2Byte, Prod.mk.injEq, List.cons.injEq, and_true]
    omega
  | d :: e :: bt, h => by
    have hd : d < 256 := h d List.mem_cons_self
    have ih := nibble2Byte_byte2Nibble (e :: bt) fun x hx => h x (List.mem_cons_of_mem d hx)
    rw [byte2Nibble_cons_of_ne_nil d (List.cons_ne_nil e bt), nibble2Byte, ih]
    simp only [Prod.mk.injEq, List.cons.injEq, and_true]
    omega

/-- The key `0x12ab`. -/
theorem nibble2Byte_byte2Nibble_twoBytes :
    nibble2Byte (byte2Nibble [0x12, 0xab] 0) = ([0x12, 0xab], 0) :=
  nibble2Byte_byte2Nibble [0x12, 0xab] (by decide)

/-! ## Extensions -/

namespace TrieExtension

/-! Each law is checked over the flag's high nibble and the links there are. -/

omit [DecidableEq H] in
theorem getNextHash_setNextHash (e : TrieExtension H) (hash : H) :
    (e.setNextHash hash).getNextHash = hash := by
  obtain ⟨flag, key, link⟩ := e
  by_cases hf : flag / 16 = 0
  · cases link <;> simp +arith [setNextHash, getNextHash, hf]
  · rcases link with _ | ⟨a, _ | ⟨b, l⟩⟩ <;> simp +arith [setNextHash, getNextHash, hf]

omit [DecidableEq H] in
theorem getValueHash_setNextHash (e : TrieExtension H) (hash : H) :
    (e.setNextHash hash).getValueHash = e.getValueHash := by
  obtain ⟨flag, key, link⟩ := e
  by_cases hf : flag / 16 = 0
  · rcases link with _ | ⟨a, _ | ⟨b, l⟩⟩ <;> simp +arith [setNextHash, getValueHash, hf]
  · rcases link with _ | ⟨a, _ | ⟨b, l⟩⟩ <;> simp +arith [setNextHash, getValueHash, hf]

omit [DecidableEq H] in
theorem getValueHash_setValueHash (e : TrieExtension H) (hash : H) :
    (e.setValueHash hash).getValueHash = hash := by
  obtain ⟨flag, key, link⟩ := e
  by_cases hf : flag / 16 = 0
  · rcases link with _ | ⟨a, _ | ⟨b, l⟩⟩ <;> simp +arith [setValueHash, getValueHash, hf]
  · cases link <;> simp +arith [setValueHash, getValueHash, hf]

omit [DecidableEq H] in
theorem getNextHash_setValueHash (e : TrieExtension H) (hash : H) :
    (e.setValueHash hash).getNextHash = e.getNextHash := by
  obtain ⟨flag, key, link⟩ := e
  by_cases hf : flag / 16 = 0
  · rcases link with _ | ⟨a, _ | ⟨b, l⟩⟩ <;> simp +arith [setValueHash, getNextHash, hf]
  · rcases link with _ | ⟨a, _ | ⟨b, l⟩⟩ <;> simp +arith [setValueHash, getNextHash, hf]

omit [DecidableEq H] [Inhabited H] in
@[simp] theorem setKey_link (e : TrieExtension H) (vKeyNibble : List ℕ) :
    (e.setKey vKeyNibble).link = e.link := rfl

omit [DecidableEq H] [Inhabited H] in
/-- `SetKey` keeps the flag's high nibble, so both links read as before. -/
theorem setKey_flag_div (e : TrieExtension H) (vKeyNibble : List ℕ) :
    (e.setKey vKeyNibble).flag / 16 = e.flag / 16 := by
  have hf := nibble2Byte_snd_le vKeyNibble
  simp only [setKey]
  omega

omit [DecidableEq H] [Inhabited H] in
theorem getKey_setKey (e : TrieExtension H) {vKeyNibble : List ℕ}
    (h : ∀ x ∈ vKeyNibble, x < 16) : (e.setKey vKeyNibble).getKey = vKeyNibble := by
  have hf := nibble2Byte_snd_le vKeyNibble
  have hlow : (e.flag / 16 * 16 + (nibble2Byte vKeyNibble).2) % 16 = (nibble2Byte vKeyNibble).2 := by
    omega
  simp only [getKey, setKey, hlow]
  exact byte2Nibble_nibble2Byte vKeyNibble h

omit [DecidableEq H] in
theorem getNextHash_setKey (e : TrieExtension H) (vKeyNibble : List ℕ) :
    (e.setKey vKeyNibble).getNextHash = e.getNextHash := by
  unfold getNextHash
  rw [setKey_flag_div, setKey_link]

omit [DecidableEq H] in
theorem getValueHash_setKey (e : TrieExtension H) (vKeyNibble : List ℕ) :
    (e.setKey vKeyNibble).getValueHash = e.getValueHash := by
  unfold getValueHash
  rw [setKey_flag_div, setKey_link]

end TrieExtension

/-- **The extension's slot laws.**  For every extension, whatever calls built it:
`SetNextHash(h)` makes `GetNextHash` return `h` and leaves `GetValueHash`; `SetValueHash(h)`
makes `GetValueHash` return `h` and leaves `GetNextHash`; and `SetKey(n)` on nibbles makes
`GetKey` return `n` and leaves both links. -/
theorem trieExtension_link_laws (e : TrieExtension H) :
    (∀ hash, (e.setNextHash hash).getNextHash = hash ∧
      (e.setNextHash hash).getValueHash = e.getValueHash) ∧
    (∀ hash, (e.setValueHash hash).getValueHash = hash ∧
      (e.setValueHash hash).getNextHash = e.getNextHash) ∧
    (∀ vKeyNibble : List ℕ, (∀ x ∈ vKeyNibble, x < 16) →
      (e.setKey vKeyNibble).getKey = vKeyNibble ∧
      (e.setKey vKeyNibble).getNextHash = e.getNextHash ∧
      (e.setKey vKeyNibble).getValueHash = e.getValueHash) :=
  ⟨fun hash => ⟨e.getNextHash_setNextHash hash, e.getValueHash_setNextHash hash⟩,
    fun hash => ⟨e.getValueHash_setValueHash hash, e.getNextHash_setValueHash hash⟩,
    fun vKeyNibble h => ⟨e.getKey_setKey h, e.getNextHash_setKey vKeyNibble,
      e.getValueHash_setKey vKeyNibble⟩⟩

/-- The laws at the extension a fresh one becomes after `SetValueHash(7)`, with the key
`[1, 2, 3]`. -/
theorem trieExtension_link_laws_valueFirst :
    ((({} : TrieExtension ℕ).setValueHash 7).setKey [1, 2, 3]).getKey = [1, 2, 3] :=
  ((trieExtension_link_laws (({} : TrieExtension ℕ).setValueHash 7)).2.2 [1, 2, 3]
    (by decide)).1

/-! ## Branches -/

namespace TrieBranch

/-- A slot with no index gets a new entry at the end, its index the new size as a `uint8`. -/
theorem setLink_of_empty {index : List ℕ} {links : List H} {n : ℕ} {hash : H} (hn : n < 16)
    (hidx : index.getD n 0 = 0) (hh : hash ≠ default) :
    setLink index links n hash = (index.set n ((links.length + 1) % 256), links ++ [hash]) := by
  rw [setLink, if_neg (Nat.not_le.mpr hn), if_pos (Or.inl hidx), if_pos hh]

/-- A slot whose index points into the vector has its entry overwritten; a null hash clears the
index. -/
theorem setLink_of_live {index : List ℕ} {links : List H} {n : ℕ} (hash : H) (hn : n < 16)
    (hidx : index.getD n 0 ≠ 0) (hlt : index.getD n 0 - 1 < links.length) :
    setLink index links n hash =
      (if hash = default then index.set n 0 else index, links.set (index.getD n 0 - 1) hash) := by
  have hlive : ¬(index.getD n 0 = 0 ∨ links.length ≤ index.getD n 0 - 1) := by omega
  rw [setLink, if_neg (Nat.not_le.mpr hn), if_neg hlive]

/-- One round on a slot: filled with `hash`, then cleared. -/
def fillClear (n : ℕ) (hash : H) (b : TrieBranch H) : TrieBranch H :=
  (b.setNextHash n hash).setNextHash n default

/-- The fresh branch after `k` rounds on one slot, while `k < 256`: no index set, and `k` dead
null entries in `branchNext`.  Each fill appends, and each clear nulls that entry and the
index. -/
theorem fillClear_iterate {n : ℕ} (hn : n < 16) {hash : H} (hh : hash ≠ default) :
    ∀ k ≤ 255, (fillClear n hash)^[k] {} = { branchNext := List.replicate k default }
  | 0, _ => rfl
  | k + 1, hk => by
    rw [Function.iterate_succ_apply', fillClear_iterate hn hh k (by omega)]
    have hmod : (k + 1) % 256 = k + 1 := Nat.mod_eq_of_lt (by omega)
    have hfill : ({ branchNext := List.replicate k default } : TrieBranch H).setNextHash n hash =
        ⟨(List.replicate 16 0).set n (k + 1), List.replicate 16 0,
          List.replicate k default ++ [hash], []⟩ := by
      simp only [setNextHash]
      rw [setLink_of_empty hn (List.getD_replicate 0 hn) hh, List.length_replicate, hmod]
    have hset : (List.replicate k (default : H) ++ [hash]).set k default =
        List.replicate (k + 1) default := by
      rw [List.replicate_succ', List.set_append_right _ _ (by rw [List.length_replicate])]
      simp
    have hidx : ((List.replicate 16 0).set n (k + 1)).getD n 0 = k + 1 := by
      rw [List.getD_eq_getElem?_getD,
        List.getElem?_set_self (by rw [List.length_replicate]; exact hn)]
      rfl
    have hclear : (TrieBranch.mk ((List.replicate 16 0).set n (k + 1)) (List.replicate 16 0)
        (List.replicate k default ++ [hash]) []).setNextHash n default =
          { branchNext := List.replicate (k + 1) default } := by
      simp only [setNextHash]
      rw [setLink_of_live default hn (by rw [hidx]; omega) (by rw [hidx]; simp), hidx,
        if_pos rfl, List.set_set, List.set_replicate_self, Nat.add_sub_cancel, hset]
    rw [fillClear, hfill, hclear]

end TrieBranch

/-- **A branch slot lost to the `uint8` index.**  From a fresh branch, fill slot `0` with a
non-null `hash` and clear it again 255 times, then fill it once more: the hash is stored, as the
last entry of `branchNext`, but `GetNextHash(0)` returns the null hash, since its index is
`256 % 256 = 0`. -/
theorem setNextHash_index_wraps (hash : H) (hh : hash ≠ default) :
    ((((TrieBranch.fillClear 0 hash)^[255] {}).setNextHash 0 hash).getNextHash 0 = default) ∧
      (((TrieBranch.fillClear 0 hash)^[255] {}).setNextHash 0 hash).branchNext.getLast? =
        some hash := by
  rw [TrieBranch.fillClear_iterate (by decide) hh 255 (Nat.le_refl 255)]
  -- the 256th entry gets the index `256 % 256 = 0`
  have hfill : ({ branchNext := List.replicate 255 default } : TrieBranch H).setNextHash 0 hash =
      ⟨List.replicate 16 0, List.replicate 16 0, List.replicate 255 default ++ [hash], []⟩ := by
    simp only [TrieBranch.setNextHash]
    rw [TrieBranch.setLink_of_empty (by decide) (List.getD_replicate 0 (by decide)) hh,
      List.length_replicate, show (255 + 1) % 256 = 0 from rfl, List.set_replicate_self]
  rw [hfill]
  constructor
  · show getLink (List.replicate 16 0) _ 0 = default
    rw [getLink, if_neg (by decide), if_pos (List.getD_replicate 0 (by decide))]
  · exact List.getLast?_concat

/-- The lost slot with the hash `1`. -/
theorem setNextHash_index_wraps_one :
    ((((TrieBranch.fillClear 0 (1 : ℕ))^[255] {}).setNextHash 0 1).getNextHash 0 = default) ∧
      (((TrieBranch.fillClear 0 (1 : ℕ))^[255] {}).setNextHash 0 1).branchNext.getLast? =
        some 1 :=
  setNextHash_index_wraps 1 (by decide)

theorem getD_set {α : Type} (l : List α) (n m : ℕ) (v d : α) :
    (l.set n v).getD m d = if m = n ∧ n < l.length then v else l.getD m d := by
  simp only [List.getD_eq_getElem?_getD, List.getElem?_set]
  grind

/-! ## Branches below the wrap -/

/-- The sixteen indices and the vector of links of a branch as the calls keep them while the
vector has fewer than 255 entries: each index `0` or at most the vector's size, and no two
nibbles at one entry. -/
structure LinkTable (index : List ℕ) (links : List H) : Prop where
  length_index : index.length = 16
  index_le : ∀ m, index.getD m 0 ≤ links.length
  index_inj : ∀ m m', index.getD m 0 = index.getD m' 0 → index.getD m 0 ≠ 0 → m = m'

namespace LinkTable

variable {index : List ℕ} {links : List H} {n : ℕ}

omit [DecidableEq H] [Inhabited H] in
theorem empty : LinkTable (List.replicate 16 0) ([] : List H) := by
  have h0 : ∀ m, (List.replicate 16 0).getD m 0 = 0 := fun m => by
    rw [List.getD_eq_getElem?_getD, List.getElem?_getD_replicate_default_eq]
  exact ⟨List.length_replicate, fun m => by rw [h0 m]; exact Nat.zero_le _,
    fun m _ _ hm => absurd (h0 m) hm⟩

omit [DecidableEq H] [Inhabited H] in
theorem live_lt (h : LinkTable index links) (hi : index.getD n 0 ≠ 0) :
    index.getD n 0 - 1 < links.length := by
  have := h.index_le n
  omega

omit [DecidableEq H] [Inhabited H] in
theorem set_links (h : LinkTable index links) (i : ℕ) (v : H) :
    LinkTable index (links.set i v) :=
  ⟨h.length_index, fun m => by rw [List.length_set]; exact h.index_le m, h.index_inj⟩

omit [DecidableEq H] [Inhabited H] in
theorem set_index_zero (h : LinkTable index links) (n : ℕ) : LinkTable (index.set n 0) links := by
  refine ⟨by rw [List.length_set, h.length_index], fun m => ?_, fun m m' hmm hm0 => ?_⟩
  · rw [getD_set]
    split_ifs
    · exact Nat.zero_le _
    · exact h.index_le m
  · rw [getD_set, getD_set] at hmm
    rw [getD_set] at hm0
    by_cases h1 : m = n ∧ n < index.length
    · rw [if_pos h1] at hm0
      exact absurd rfl hm0
    · by_cases h2 : m' = n ∧ n < index.length
      · rw [if_neg h1, if_pos h2] at hmm
        rw [if_neg h1] at hm0
        exact absurd hmm hm0
      · rw [if_neg h1, if_neg h2] at hmm
        rw [if_neg h1] at hm0
        exact h.index_inj m m' hmm hm0

omit [DecidableEq H] [Inhabited H] in
/-- A new entry at the end, its index the new size: above every other index. -/
theorem append (h : LinkTable index links) (hn : n < 16) (hash : H) :
    LinkTable (index.set n (links.length + 1)) (links ++ [hash]) := by
  have hself : (index.set n (links.length + 1)).getD n 0 = links.length + 1 := by
    rw [getD_set, if_pos ⟨rfl, by rw [h.length_index]; exact hn⟩]
  have hother : ∀ m ≠ n, (index.set n (links.length + 1)).getD m 0 = index.getD m 0 :=
    fun m hm => by rw [getD_set, if_neg fun hc => hm hc.1]
  refine ⟨by rw [List.length_set, h.length_index], fun m => ?_, fun m m' hmm hm0 => ?_⟩
  · rw [List.length_append, List.length_singleton]
    by_cases hmn : m = n
    · rw [hmn, hself]
    · rw [hother m hmn]
      exact (h.index_le m).trans (Nat.le_succ _)
  · by_cases hmn : m = n <;> by_cases hm'n : m' = n
    · rw [hmn, hm'n]
    · rw [hmn, hself, hother m' hm'n] at hmm
      have := h.index_le m'
      omega
    · rw [hm'n, hself, hother m hmn] at hmm
      have := h.index_le m
      omega
    · rw [hother m hmn, hother m' hm'n] at hmm
      rw [hother m hmn] at hm0
      exact h.index_inj m m' hmm hm0

end LinkTable

variable {index : List ℕ} {links : List H} {n : ℕ}

omit [DecidableEq H] in
theorem getLink_of_index_zero (hi : index.getD n 0 = 0) : getLink index links n = default := by
  rw [getLink, hi, if_pos rfl, ite_self]

omit [DecidableEq H] in
theorem getLink_of_index (hn : n < 16) (hi : index.getD n 0 ≠ 0) :
    getLink index links n = links.getD (index.getD n 0 - 1) default := by
  rw [getLink, if_neg (Nat.not_le.mpr hn), if_neg hi]

omit [DecidableEq H] in
theorem getLink_set_index_of_ne {m : ℕ} (hmn : m ≠ n) (v : ℕ) :
    getLink (index.set n v) links m = getLink index links m := by
  simp only [getLink, getD_set, hmn, false_and, if_false]

omit [DecidableEq H] in
/-- Overwriting the entry of a live nibble leaves every other nibble's link. -/
theorem LinkTable.getLink_set_links (h : LinkTable index links) {m : ℕ} (hmn : m ≠ n)
    (hi : index.getD n 0 ≠ 0) (v : H) :
    getLink index (links.set (index.getD n 0 - 1) v) m = getLink index links m := by
  unfold getLink
  split_ifs with h16 hm0
  · rfl
  · rfl
  · rw [getD_set, if_neg]
    rintro ⟨heq, _⟩
    exact hmn (h.index_inj m n (by omega) hm0)

theorem setLink_of_empty_default (hn : n < 16) (hi : index.getD n 0 = 0) :
    setLink index links n (default : H) = (index, links) := by
  rw [setLink, if_neg (Nat.not_le.mpr hn), if_pos (Or.inl hi), if_neg (not_not.mpr rfl)]

/-- **Below the wrap, a link table is sixteen independent slots**: when the call leaves fewer
than 256 entries, so that a new entry's index fits its `uint8`. -/
theorem LinkTable.setLink_laws (h : LinkTable index links) (hn : n < 16) (hash : H)
    (hlen : (setLink index links n hash).2.length < 256) :
    LinkTable (setLink index links n hash).1 (setLink index links n hash).2 ∧
      getLink (setLink index links n hash).1 (setLink index links n hash).2 n = hash ∧
      ∀ m ≠ n, getLink (setLink index links n hash).1 (setLink index links n hash).2 m =
        getLink index links m := by
  by_cases hi : index.getD n 0 = 0
  · by_cases hh : hash = default
    · -- a null hash on an empty slot changes nothing
      subst hh
      rw [setLink_of_empty_default hn hi]
      exact ⟨h, getLink_of_index_zero hi, fun _ _ => rfl⟩
    · -- a new entry at the end, its index the new size
      have hfit : links.length + 1 < 256 := by
        rw [TrieBranch.setLink_of_empty hn hi hh, List.length_append, List.length_singleton] at hlen
        exact hlen
      rw [TrieBranch.setLink_of_empty hn hi hh, Nat.mod_eq_of_lt hfit]
      have hself : (index.set n (links.length + 1)).getD n 0 = links.length + 1 := by
        rw [getD_set, if_pos ⟨rfl, by rw [h.length_index]; exact hn⟩]
      refine ⟨h.append hn hash, ?_, fun m hmn => ?_⟩
      · rw [getLink_of_index hn (by rw [hself]; omega), hself, Nat.add_sub_cancel,
          List.getD_append_right _ _ _ _ le_rfl, Nat.sub_self]
        rfl
      · rw [getLink_set_index_of_ne hmn]
        unfold getLink
        split_ifs with h16 hm0
        · rfl
        · rfl
        · exact List.getD_append _ _ _ _ (h.live_lt hm0)
  · -- a live slot: its entry overwritten, its index cleared by a null hash
    have hlt := h.live_lt hi
    rw [TrieBranch.setLink_of_live hash hn hi hlt]
    by_cases hh : hash = default
    · simp only [hh, if_true]
      refine ⟨(h.set_links _ _).set_index_zero n, getLink_of_index_zero ?_, fun m hmn => ?_⟩
      · rw [getD_set, if_pos ⟨rfl, by rw [h.length_index]; exact hn⟩]
      · rw [getLink_set_index_of_ne hmn, h.getLink_set_links hmn hi]
    · simp only [hh, if_false]
      refine ⟨h.set_links _ _, ?_, fun m hmn => h.getLink_set_links hmn hi hash⟩
      rw [getLink_of_index hn hi, getD_set, if_pos ⟨rfl, hlt⟩]

/-- `SetNextHash` and `SetValueHash` never remove an entry. -/
theorem length_le_setLink (index : List ℕ) (links : List H) (n : ℕ) (hash : H) :
    links.length ≤ (setLink index links n hash).2.length := by
  unfold setLink
  split_ifs <;> simp

/-! ## A branch as its slots -/

/-- A call that sets a link of a branch. -/
inductive BranchCall (H : Type)
  | setNextHash (n : ℕ) (hash : H)
  | setValueHash (n : ℕ) (hash : H)
  deriving DecidableEq

/-- The nibble a call sets. -/
def BranchCall.nibble : BranchCall H → ℕ
  | .setNextHash n _ => n
  | .setValueHash n _ => n

/-- What a branch's links are for: a next and a value slot for each nibble, each holding the
last hash set there. -/
@[ext]
structure BranchSlots (H : Type) where
  next : ℕ → H
  value : ℕ → H

/-- A call on the slots. -/
def BranchSlots.apply (s : BranchSlots H) : BranchCall H → BranchSlots H
  | .setNextHash n hash => { s with next := Function.update s.next n hash }
  | .setValueHash n hash => { s with value := Function.update s.value n hash }

namespace TrieBranch

/-- A call on a branch. -/
def apply (b : TrieBranch H) : BranchCall H → TrieBranch H
  | .setNextHash n hash => b.setNextHash n hash
  | .setValueHash n hash => b.setValueHash n hash

/-- The slots a branch reads. -/
def slots (b : TrieBranch H) : BranchSlots H := ⟨b.getNextHash, b.getValueHash⟩

/-- Both link tables of a branch kept as the calls keep them below the wrap. -/
def WellLinked (b : TrieBranch H) : Prop :=
  LinkTable b.keyIndexNext b.branchNext ∧ LinkTable b.keyIndexValue b.branchValue

omit [DecidableEq H] [Inhabited H] in
theorem wellLinked_empty : ({} : TrieBranch H).WellLinked := ⟨.empty, .empty⟩

/-- The slot a call sets reads its hash, the others read as before. -/
theorem update_of_setLink_laws {index : List ℕ} {links : List H} {n : ℕ} {hash : H}
    (hget : getLink (setLink index links n hash).1 (setLink index links n hash).2 n = hash)
    (hframe : ∀ m ≠ n, getLink (setLink index links n hash).1 (setLink index links n hash).2 m =
      getLink index links m) (m : ℕ) :
    getLink (setLink index links n hash).1 (setLink index links n hash).2 m =
      Function.update (getLink index links) n hash m := by
  by_cases hmn : m = n
  · rw [hmn, Function.update_self, hget]
  · rw [Function.update_of_ne hmn, hframe m hmn]

/-- **One call below the wrap.**  When the call leaves fewer than 256 entries in each vector,
the branch stays well linked and reads as its slots with the call applied. -/
theorem WellLinked.apply {b : TrieBranch H} (hb : b.WellLinked) {c : BranchCall H}
    (hc : c.nibble < 16) (hnext : (b.apply c).branchNext.length < 256)
    (hvalue : (b.apply c).branchValue.length < 256) :
    (b.apply c).WellLinked ∧ (b.apply c).slots = b.slots.apply c := by
  cases c with
  | setNextHash n hash =>
    obtain ⟨hwl, hget, hframe⟩ := hb.1.setLink_laws hc hash hnext
    refine ⟨⟨hwl, hb.2⟩, ?_⟩
    ext m
    · exact update_of_setLink_laws hget hframe m
    · rfl
  | setValueHash n hash =>
    obtain ⟨hwl, hget, hframe⟩ := hb.2.setLink_laws hc hash hvalue
    refine ⟨⟨hb.1, hwl⟩, ?_⟩
    ext m
    · rfl
    · exact update_of_setLink_laws hget hframe m

/-- A call never removes an entry from either vector. -/
theorem length_le_apply (b : TrieBranch H) (c : BranchCall H) :
    b.branchNext.length ≤ (b.apply c).branchNext.length ∧
      b.branchValue.length ≤ (b.apply c).branchValue.length := by
  cases c with
  | setNextHash n hash => exact ⟨length_le_setLink _ _ _ _, le_rfl⟩
  | setValueHash n hash => exact ⟨le_rfl, length_le_setLink _ _ _ _⟩

/-- Nor does a run: the vectors only grow. -/
theorem length_le_foldl_apply (calls : List (BranchCall H)) (b : TrieBranch H) :
    b.branchNext.length ≤ (calls.foldl apply b).branchNext.length ∧
      b.branchValue.length ≤ (calls.foldl apply b).branchValue.length := by
  induction calls generalizing b with
  | nil => exact ⟨le_rfl, le_rfl⟩
  | cons c cs ih =>
    obtain ⟨hn, hv⟩ := length_le_apply b c
    obtain ⟨hn', hv'⟩ := ih (b.apply c)
    exact ⟨hn.trans hn', hv.trans hv'⟩

/-- **A branch is its slots for a run below the wrap.**  From a well linked branch, such as a
fresh one, a run of `SetNextHash` and `SetValueHash` calls on nibbles below `16` that leaves
fewer than 256 entries in each vector keeps the branch well linked, and `GetNextHash` and
`GetValueHash` then read, at every nibble, the last hash the run set there, or what they read
before.  The bound is the one `setNextHash_index_wraps` shows to be needed. -/
theorem run_slots {b : TrieBranch H} (hb : b.WellLinked) (calls : List (BranchCall H))
    (hcalls : ∀ c ∈ calls, c.nibble < 16) (hnext : (calls.foldl apply b).branchNext.length < 256)
    (hvalue : (calls.foldl apply b).branchValue.length < 256) :
    (calls.foldl apply b).WellLinked ∧
      (calls.foldl apply b).slots = calls.foldl BranchSlots.apply b.slots := by
  induction calls generalizing b with
  | nil => exact ⟨hb, rfl⟩
  | cons c cs ih =>
    rw [List.foldl_cons] at hnext hvalue
    -- the vectors only grow, so the call leaves no more entries than the whole run
    obtain ⟨hn, hv⟩ := length_le_foldl_apply cs (b.apply c)
    obtain ⟨hwl, hslots⟩ :=
      hb.apply (hcalls c List.mem_cons_self) (lt_of_le_of_lt hn hnext) (lt_of_le_of_lt hv hvalue)
    rw [List.foldl_cons, List.foldl_cons, ← hslots]
    exact ih hwl (fun c' hc' => hcalls c' (List.mem_cons_of_mem c hc')) hnext hvalue

/-- A fresh branch whose slot `3` is filled, cleared and filled again, with a value link set
between. -/
theorem run_slots_refill :
    (([.setNextHash 3 5, .setValueHash 3 7, .setNextHash 3 0, .setNextHash 3 9] :
        List (BranchCall ℕ)).foldl apply {}).WellLinked ∧
      (([.setNextHash 3 5, .setValueHash 3 7, .setNextHash 3 0, .setNextHash 3 9] :
        List (BranchCall ℕ)).foldl apply {}).slots =
        ([.setNextHash 3 5, .setValueHash 3 7, .setNextHash 3 0, .setNextHash 3 9] :
          List (BranchCall ℕ)).foldl BranchSlots.apply ({} : TrieBranch ℕ).slots :=
  run_slots wellLinked_empty _ (by decide) (by decide) (by decide)

end TrieBranch

end MetabaseNet.Trie
