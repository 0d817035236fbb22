/-
# Parent-pointer forests

A forest given by a partial parent map `prev : α → Option α`: the shape of every index whose
nodes point to their predecessor and to nothing else.  A node `a` is an ancestor of `b` when
`b` reaches `a` by following parent links (`Relation.ReflTransGen` of one link, so `b` is its
own ancestor).  Since a node has at most one parent, the ancestors of a node form a chain
(`IsAncestor.total`).

When every node carries a time stamp strictly larger than its parent's (`TimeIncreasing`),
ancestry is a partial order, ordered by time, and `DownPath a b l` names the unique list of
nodes met when walking from `b` down to, and not including, its ancestor `a`.  `IsLCA`
states what a lowest common ancestor is.

Nothing here is specific to one program: the block indexes of a chain are one instance.
-/
import Mathlib.Logic.Relation
import Mathlib.Logic.Relator
import Mathlib.Order.Basic

namespace ParentTree

variable {α : Type*}

/-! ## Ancestry -/

/-- One link down the forest: the parent of `b` is `a`. -/
def ParentStep (prev : α → Option α) (b a : α) : Prop := prev b = some a

/-- `a` is `b` or an ancestor of `b`: following parent links from `b` reaches `a`. -/
def IsAncestor (prev : α → Option α) (a b : α) : Prop :=
  Relation.ReflTransGen (ParentStep prev) b a

variable {prev : α → Option α}

theorem IsAncestor.refl (a : α) : IsAncestor prev a a := Relation.ReflTransGen.refl

theorem IsAncestor.trans {a b c : α} (hab : IsAncestor prev a b) (hbc : IsAncestor prev b c) :
    IsAncestor prev a c :=
  Relation.ReflTransGen.trans hbc hab

/-- The parent of a node is one of its ancestors. -/
theorem isAncestor_of_parent {a b : α} (h : prev b = some a) : IsAncestor prev a b :=
  Relation.ReflTransGen.single h

/-- An ancestor of the parent is an ancestor. -/
theorem IsAncestor.of_parent {a b p : α} (hp : prev b = some p) (h : IsAncestor prev a p) :
    IsAncestor prev a b :=
  Relation.ReflTransGen.head hp h

/-- An ancestor of `b` is `b` itself or an ancestor of `b`'s parent. -/
theorem IsAncestor.cases {a b : α} (h : IsAncestor prev a b) :
    a = b ∨ ∃ p, prev b = some p ∧ IsAncestor prev a p := by
  rcases Relation.ReflTransGen.cases_head h with rfl | ⟨p, hp, hpa⟩
  · exact Or.inl rfl
  · exact Or.inr ⟨p, hp, hpa⟩

/-- A strict ancestor of `b` is the parent of a node on the way down from `b`. -/
theorem IsAncestor.exists_child {a b : α} (h : IsAncestor prev a b) (hne : a ≠ b) :
    ∃ c, prev c = some a ∧ IsAncestor prev c b := by
  rcases Relation.ReflTransGen.cases_tail h with rfl | ⟨c, hbc, hca⟩
  · exact absurd rfl hne
  · exact ⟨c, hca, hbc⟩

/-- A strict ancestor of `b` is an ancestor of `b`'s parent, which therefore exists. -/
theorem IsAncestor.exists_parent {a b : α} (h : IsAncestor prev a b) (hne : a ≠ b) :
    ∃ p, prev b = some p ∧ IsAncestor prev a p := by
  rcases h.cases with rfl | hp
  · exact absurd rfl hne
  · exact hp

/-- A node has at most one parent, so the ancestors of a node are linearly ordered. -/
theorem IsAncestor.total {a b c : α} (ha : IsAncestor prev a c) (hb : IsAncestor prev b c) :
    IsAncestor prev a b ∨ IsAncestor prev b a := by
  have hunique : Relator.RightUnique (ParentStep prev) := by
    intro x y z hy hz
    exact Option.some.inj (hy.symm.trans hz)
  rcases Relation.ReflTransGen.total_of_right_unique hunique ha hb with h | h
  · exact Or.inr h
  · exact Or.inl h

/-! ## Time stamps that grow away from the root -/

/-- Every node is strictly later than its parent. -/
def TimeIncreasing (prev : α → Option α) (time : α → ℕ) : Prop :=
  ∀ a b, prev b = some a → time a < time b

variable {time : α → ℕ}

theorem IsAncestor.time_le (ht : TimeIncreasing prev time) {a b : α}
    (h : IsAncestor prev a b) : time a ≤ time b := by
  induction h with
  | refl => exact Nat.le_refl _
  | tail _ hstep ih =>
    have := ht _ _ hstep
    omega

/-- A strict ancestor is strictly earlier. -/
theorem IsAncestor.time_lt (ht : TimeIncreasing prev time) {a b : α}
    (h : IsAncestor prev a b) (hne : a ≠ b) : time a < time b := by
  obtain ⟨p, hp, hap⟩ := h.exists_parent hne
  have h1 := hap.time_le ht
  have h2 := ht _ _ hp
  omega

/-- With increasing time stamps ancestry is antisymmetric: the forest has no cycle. -/
theorem IsAncestor.antisymm (ht : TimeIncreasing prev time) {a b : α}
    (hab : IsAncestor prev a b) (hba : IsAncestor prev b a) : a = b := by
  by_contra hne
  have h1 := hab.time_lt ht hne
  have h2 := hba.time_le ht
  omega

/-! ## Lowest common ancestors -/

/-- `a` is the lowest common ancestor of `b` and `c`: a common ancestor of both of which every
common ancestor is an ancestor. -/
structure IsLCA (prev : α → Option α) (a b c : α) : Prop where
  left : IsAncestor prev a b
  right : IsAncestor prev a c
  greatest : ∀ d, IsAncestor prev d b → IsAncestor prev d c → IsAncestor prev d a

/-- Two nodes have at most one lowest common ancestor. -/
theorem IsLCA.unique (ht : TimeIncreasing prev time) {a a' b c : α}
    (h : IsLCA prev a b c) (h' : IsLCA prev a' b c) : a = a' :=
  (h'.greatest a h.left h.right).antisymm ht (h.greatest a' h'.left h'.right)

/-! ## Paths down to an ancestor -/

/-- `DownPath prev a b l`: walking parent links from `b` meets the nodes of `l`, in order,
before it first reaches `a`; `l` starts with `b` and ends with the child of `a`. -/
inductive DownPath (prev : α → Option α) (a : α) : α → List α → Prop
  | here : DownPath prev a a []
  | step {b p : α} {l : List α} :
      a ≠ b → prev b = some p → DownPath prev a p l → DownPath prev a b (b :: l)

theorem DownPath.isAncestor {a b : α} {l : List α} (h : DownPath prev a b l) :
    IsAncestor prev a b := by
  induction h with
  | here => exact IsAncestor.refl a
  | step _ hp _ ih => exact ih.of_parent hp

/-- Every ancestor is reached by a down path. -/
theorem IsAncestor.exists_downPath [DecidableEq α] {a b : α} (h : IsAncestor prev a b) :
    ∃ l, DownPath prev a b l := by
  induction h using Relation.ReflTransGen.head_induction_on with
  | refl => exact ⟨[], DownPath.here⟩
  | @head b p hp _ ih =>
    obtain ⟨l, hl⟩ := ih
    by_cases hab : a = b
    · subst hab
      exact ⟨[], DownPath.here⟩
    · exact ⟨b :: l, DownPath.step hab hp hl⟩

/-- The path down to an ancestor is determined by its two ends. -/
theorem DownPath.unique {a b : α} {l l' : List α} (h : DownPath prev a b l)
    (h' : DownPath prev a b l') : l = l' := by
  induction h generalizing l' with
  | here =>
    cases h' with
    | here => rfl
    | step hne _ _ => exact absurd rfl hne
  | step hne hp _ ih =>
    cases h' with
    | here => exact absurd rfl hne
    | step _ hp' hl' =>
      rw [hp] at hp'
      cases hp'
      rw [ih hl']

/-- The nodes of a down path lie between its two ends and are not its lower end. -/
theorem DownPath.mem {a b x : α} {l : List α} (h : DownPath prev a b l) (hx : x ∈ l) :
    x ≠ a ∧ IsAncestor prev a x ∧ IsAncestor prev x b := by
  induction h with
  | here => cases hx
  | @step b p l hne hp hl ih =>
    rcases List.mem_cons.mp hx with rfl | hx
    · exact ⟨fun h => hne h.symm, hl.isAncestor.of_parent hp, IsAncestor.refl x⟩
    · obtain ⟨hxa, hax, hxp⟩ := ih hx
      exact ⟨hxa, hax, hxp.trans (isAncestor_of_parent hp)⟩

/-- The length of a down path is bounded by the drop in time along it. -/
theorem DownPath.length_le (ht : TimeIncreasing prev time) {a b : α} {l : List α}
    (h : DownPath prev a b l) : l.length + time a ≤ time b := by
  induction h with
  | here => simp
  | step _ hp _ ih =>
    have := ht _ _ hp
    simp only [List.length_cons]
    omega

/-! ## Acyclic forests -/

/-- No node is an ancestor of its own parent: the forest has no cycle. -/
def Acyclic (prev : α → Option α) : Prop :=
  ∀ a b, prev b = some a → ¬ IsAncestor prev b a

/-- Increasing time stamps rule out cycles. -/
theorem TimeIncreasing.acyclic (ht : TimeIncreasing prev time) : Acyclic prev := by
  intro a b hab hba
  have h1 := ht _ _ hab
  have h2 := hba.time_le ht
  omega

section Acyclic

variable (hac : Acyclic prev)
include hac

/-- A node is not its own parent. -/
theorem Acyclic.parent_ne {a b : α} (hp : prev b = some a) : a ≠ b := by
  intro hab
  subst hab
  exact hac _ _ hp (IsAncestor.refl a)

/-- In an acyclic forest ancestry is antisymmetric. -/
theorem Acyclic.antisymm {a b : α} (hab : IsAncestor prev a b) (hba : IsAncestor prev b a) :
    a = b := by
  by_contra hne
  obtain ⟨p, hp, hap⟩ := hab.exists_parent hne
  exact hac _ _ hp (hba.trans hap)

/-- Two children of one node that are both ancestors of a common node are equal: the path
down from that node passes through one child only. -/
theorem Acyclic.child_eq {b c c' d : α} (hc : prev c = some b) (hc' : prev c' = some b)
    (hcd : IsAncestor prev c d) (hc'd : IsAncestor prev c' d) : c = c' := by
  rcases hcd.total hc'd with h | h
  · by_contra hne
    obtain ⟨p, hp, hcp⟩ := h.exists_parent hne
    rw [hc'] at hp
    cases hp
    exact hac _ _ hc hcp
  · by_contra hne
    obtain ⟨p, hp, hcp⟩ := h.exists_parent (Ne.symm hne)
    rw [hc] at hp
    cases hp
    exact hac _ _ hc' hcp

/-- Below a node `d`, the descendants of `b` that are ancestors of `d` lie above `b`'s child
toward `d`. -/
theorem Acyclic.child_isAncestor {b c d x : α} (hc : prev c = some b) (hcd : IsAncestor prev c d)
    (hbx : IsAncestor prev b x) (hxd : IsAncestor prev x d) (hne : b ≠ x) :
    IsAncestor prev c x := by
  obtain ⟨c', hc', hc'x⟩ := hbx.exists_child hne
  rw [hac.child_eq hc hc' hcd (hc'x.trans hxd)]
  exact hc'x

/-- A node between the two ends of a down path is its lower end or one of its nodes. -/
theorem Acyclic.mem_downPath {a b x : α} {l : List α} (h : DownPath prev a b l)
    (hax : IsAncestor prev a x) (hxb : IsAncestor prev x b) : x = a ∨ x ∈ l := by
  induction h with
  | here => exact Or.inl (hac.antisymm hxb hax)
  | @step b p l _ hp _ ih =>
    rcases hxb.cases with rfl | ⟨q, hq, hxq⟩
    · exact Or.inr List.mem_cons_self
    · rw [hp] at hq
      cases hq
      rcases ih hxq with h | h
      · exact Or.inl h
      · exact Or.inr (List.mem_cons_of_mem _ h)

/-- Extending a down path by one more link at its lower end. -/
theorem Acyclic.downPath_snoc {a b p : α} {l : List α} (h : DownPath prev a b l)
    (hp : prev a = some p) : DownPath prev p b (l ++ [a]) := by
  induction h with
  | here => exact DownPath.step (hac.parent_ne hp) hp DownPath.here
  | @step b q l hne hq hl ih =>
    have hab : IsAncestor prev a b := hl.isAncestor.of_parent hq
    exact DownPath.step (fun hpb => hac _ _ hp (hpb ▸ hab)) hq ih

/-- Down paths compose: from `c` down to `b`, then on down to `a`. -/
theorem Acyclic.downPath_append {a b c : α} {l₁ l₂ : List α} (h₁ : DownPath prev a b l₁)
    (h₂ : DownPath prev b c l₂) : DownPath prev a c (l₂ ++ l₁) := by
  induction h₂ with
  | here => exact h₁
  | @step c p l₂ hbc hp hl₂ ih =>
    -- `a` is below `b`, which is strictly below `c`
    have hac' : a ≠ c := by
      rintro rfl
      have hba : IsAncestor prev b a := hl₂.isAncestor.of_parent hp
      exact hbc (hac.antisymm hba h₁.isAncestor)
    exact DownPath.step hac' hp ih

/-- The path down from a node's child is one shorter. -/
theorem Acyclic.downPath_length_child {a b c : α} {l l' : List α} (h : DownPath prev a b l)
    (hc : prev c = some a) (h' : DownPath prev c b l') : l'.length + 1 = l.length := by
  rw [h.unique (hac.downPath_snoc h' hc), List.length_append, List.length_singleton]

end Acyclic

/-! ## Forward links -/

/-- `NextPath next a l b`: following the forward links `next` from `a` visits the nodes of `l`,
in order, and arrives at `b`. -/
inductive NextPath (next : α → Option α) : α → List α → α → Prop
  | nil (a : α) : NextPath next a [] a
  | cons {a c b : α} {l : List α} : next a = some c → NextPath next c l b → NextPath next a (c :: l) b

/-- One more link at the far end. -/
theorem NextPath.snoc {next : α → Option α} {a b c : α} {l : List α} (h : NextPath next a l b)
    (hb : next b = some c) : NextPath next a (l ++ [c]) c := by
  induction h with
  | nil => exact NextPath.cons hb (NextPath.nil c)
  | cons ha _ ih => exact NextPath.cons ha (ih hb)

/-- Splitting off the last link. -/
theorem NextPath.of_snoc {next : α → Option α} {a c b : α} {l : List α}
    (h : NextPath next a (l ++ [c]) b) :
    c = b ∧ ∃ z, NextPath next a l z ∧ next z = some c := by
  induction l generalizing a with
  | nil =>
    cases h with
    | cons ha hc =>
      cases hc
      exact ⟨rfl, a, NextPath.nil a, ha⟩
  | cons x l ih =>
    cases h with
    | cons ha hx =>
      obtain ⟨hcb, z, hz, hzc⟩ := ih hx
      exact ⟨hcb, z, NextPath.cons ha hz, hzc⟩

/-- Along a down path read upwards, the forward links are the reversed parent links: if
following `next` from the lower end `a` visits the path's nodes in order, then each node of
the path is the forward link of its parent. -/
theorem DownPath.next_of_nextPath {next : α → Option α} {a b : α} {l : List α}
    (h : DownPath prev a b l) {z : α} (hn : NextPath next a l.reverse z) :
    z = b ∧ ∀ c ∈ l, ∃ p, prev c = some p ∧ next p = some c := by
  induction h generalizing z with
  | here =>
    cases hn
    exact ⟨rfl, fun c hc => by cases hc⟩
  | @step b p l _ hp _ ih =>
    rw [List.reverse_cons] at hn
    obtain ⟨hbz, y, hy, hyb⟩ := hn.of_snoc
    obtain ⟨hyp, hl⟩ := ih hy
    subst hyp
    refine ⟨hbz.symm, fun c hc => ?_⟩
    rcases List.mem_cons.mp hc with rfl | hc
    · exact ⟨y, hp, hyb⟩
    · exact hl c hc

end ParentTree
