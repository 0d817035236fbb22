/-
# Finite maps as association lists

The operations of an ordered map (`std::map`) that a program uses through its keys: `find`,
`erase`, `insert`, which keeps the value already stored at its key, and `alter`, the
`operator[]` of a map followed by an update of the value it returns (the default value is
created first when the key is absent).  New keys go to the end of the list; only iteration sees
the order, and the lookup lemmas below do not depend on it.

Each operation has one lookup lemma, stated with the operation's key first: a lookup at another
key sees the map as it was.  None of them needs the keys to be distinct.
-/
import Mathlib.Logic.Basic

namespace AssocMap

variable {K V : Type} [DecidableEq K]

/-- The value at a key: the first entry with that key. -/
def find : List (K × V) → K → Option V
  | [], _ => none
  | (k', v) :: m, k => if k' = k then some v else find m k

/-- Remove the entries at a key. -/
def erase (m : List (K × V)) (k : K) : List (K × V) :=
  m.filter fun p => p.1 ≠ k

/-- Add a value at a key that has none; a key with a value keeps it. -/
def insert (m : List (K × V)) (k : K) (v : V) : List (K × V) :=
  if (find m k).isSome then m else m ++ [(k, v)]

/-- Update the value at a key, starting from the default value when there is none. -/
def alter [Inhabited V] (m : List (K × V)) (k : K) (f : V → V) : List (K × V) :=
  if (find m k).isSome then m.map fun p => if p.1 = k then (p.1, f p.2) else p
  else m ++ [(k, f default)]

@[simp] theorem find_nil (k : K) : find ([] : List (K × V)) k = none := rfl

theorem find_cons (k' k : K) (v : V) (m : List (K × V)) :
    find ((k', v) :: m) k = if k' = k then some v else find m k := rfl

theorem find_append (m m' : List (K × V)) (k : K) :
    find (m ++ m') k = (find m k).or (find m' k) := by
  induction m with
  | nil => rfl
  | cons p m ih =>
    obtain ⟨k', v⟩ := p
    by_cases hk : k' = k
    · simp [find_cons, hk]
    · simp [find_cons, hk, ih]

theorem find_erase (m : List (K × V)) (k k' : K) :
    find (erase m k) k' = if k = k' then none else find m k' := by
  induction m with
  | nil => simp [erase]
  | cons p m ih =>
    obtain ⟨k'', v⟩ := p
    have hcons : erase ((k'', v) :: m) k =
        if k'' = k then erase m k else (k'', v) :: erase m k := by
      by_cases hk : k'' = k <;> simp [erase, hk]
    rw [hcons]
    by_cases hk : k'' = k
    · -- the entry is one of those removed
      rw [if_pos hk, ih]
      subst hk
      by_cases hk' : k'' = k' <;> simp [find_cons, hk']
    · rw [if_neg hk, find_cons, find_cons, ih]
      by_cases hk' : k'' = k'
      · subst hk'
        simp [show k ≠ k'' from fun h => hk h.symm]
      · simp [hk']

/-- Inserting at an absent key appends its entry. -/
theorem insert_of_find_eq_none {m : List (K × V)} {k : K} (h : find m k = none) (v : V) :
    insert m k v = m ++ [(k, v)] := by
  simp [insert, h]

theorem find_insert (m : List (K × V)) (k k' : K) (v : V) :
    find (insert m k v) k' = if k = k' then some ((find m k).getD v) else find m k' := by
  cases h : find m k with
  | none =>
    rw [insert_of_find_eq_none h, find_append]
    by_cases hk : k = k'
    · subst hk
      simp [h, find_cons]
    · simp [hk, find_cons]
  | some w =>
    have hm : insert m k v = m := by simp [insert, h]
    rw [hm]
    by_cases hk : k = k'
    · subst hk
      simp [h]
    · simp [hk]

/-- Updating the values at one key leaves the lookups at the other keys alone. -/
theorem find_map_update (m : List (K × V)) (k k' : K) (f : V → V) :
    find (m.map fun p => if p.1 = k then (p.1, f p.2) else p) k' =
      if k = k' then (find m k).map f else find m k' := by
  induction m with
  | nil => by_cases hk : k = k' <;> simp [hk]
  | cons p m ih =>
    obtain ⟨k'', v⟩ := p
    by_cases hk : k'' = k
    · subst hk
      by_cases hk' : k'' = k'
      · simp [find_cons, hk']
      · simp only [List.map_cons, ↓reduceIte, find_cons, hk', ih]
    · simp only [List.map_cons, hk, ↓reduceIte, find_cons, ih]
      by_cases hk' : k = k'
      · subst hk'
        simp [hk]
      · simp [hk']

theorem find_alter [Inhabited V] (m : List (K × V)) (k k' : K) (f : V → V) :
    find (alter m k f) k' = if k = k' then some (f ((find m k).getD default)) else find m k' := by
  cases h : find m k with
  | none =>
    simp only [alter, h, Option.isSome_none, Bool.false_eq_true, ↓reduceIte, find_append,
      find_cons, find_nil, Option.getD_none]
    by_cases hk : k = k'
    · subst hk
      simp [h]
    · simp [hk]
  | some w =>
    simp only [alter, h, Option.isSome_some, ↓reduceIte, find_map_update, Option.map_some,
      Option.getD_some]

theorem find_eq_none_of_not_mem {m : List (K × V)} {k : K} (h : k ∉ m.map Prod.fst) :
    find m k = none := by
  induction m with
  | nil => rfl
  | cons p m ih =>
    obtain ⟨k', v⟩ := p
    rw [List.map_cons, List.mem_cons, not_or] at h
    rw [find_cons, if_neg (Ne.symm h.1), ih h.2]

/-- Inserting entries whose keys are distinct and new appends them in order. -/
theorem foldl_insert_of_nodup (l : List (K × V)) :
    ∀ m : List (K × V), (m.map Prod.fst ++ l.map Prod.fst).Nodup →
      l.foldl (fun m p => insert m p.1 p.2) m = m ++ l := by
  induction l with
  | nil => intro m _; rw [List.foldl_nil, List.append_nil]
  | cons p l ih =>
    intro m hnd
    have hp : p.1 ∉ m.map Prod.fst := by
      intro hm
      rw [List.map_cons, List.nodup_append] at hnd
      exact hnd.2.2 _ hm _ List.mem_cons_self rfl
    rw [List.foldl_cons, insert_of_find_eq_none (find_eq_none_of_not_mem hp), ih,
      List.append_assoc, List.singleton_append]
    rwa [List.map_append, List.map_singleton, List.append_assoc, List.singleton_append,
      ← List.map_cons]

end AssocMap
