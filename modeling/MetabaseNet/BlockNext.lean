/-
# Main-chain successor links: `CBlockBase::UpdateBlockNext`

`src/storage/blockbase.cpp`.  Besides `pPrev`, every block index has a `pNext` link that is
non-null exactly along the main chain of its fork: from the fork's origin up to the fork's
last block.  `GetForkBlockInv` answers peers by walking these links.  When `StorageNewBlock`
switches the long chain to a block `L'`, `UpdateBlockNext(L')` rebuilds them: it truncates
the old chain past `L'` when `L'` was on it, then climbs `pPrev` from `L'` until it meets a
block already linked to its child, unlinking at each step the stale branch that its parent
pointed to.

The links stay well formed over every schedule of switches, and `GetForkBlockInv` returns the
main-chain blocks after a locator hash on the fork's main chain when every earlier hash the
store knows names a block of the fork off its main chain (`updateBlockNext_wellFormed`).  The scan of the locator tests `pNext`
of any fork, though: a locator that first names a main-chain block of another fork makes
`GetForkBlockInv` return false, although a later hash is on the fork's main chain
(`getForkBlockInv_other_fork_locator`).

The model keeps `pPrev` and `IsOrigin()` fixed (`ForkLinks`) and passes the `pNext` links as
an explicit state `α → Option α` (`none` for a null pointer).  A fork is the set of blocks
whose `pPrev` walk reaches its origin without meeting another origin block (`InFork`).
`NextWellFormed` states the three conditions of a well-formed fork as they read at the fork;
`LinksToward` is the same condition link by link (`nextWellFormed_iff`), and the climb keeps a
mixture of the two (`ClimbInv`).  The loops carry an explicit `fuel` bound.
-/
import MetabaseNet.Lib.ParentTree
import Mathlib

namespace MetabaseNet

open ParentTree

variable {α : Type}

/-! ## The model -/

/-- The fixed links that `UpdateBlockNext` reads: `pPrev` (`none` for null) and
`IsOrigin()`, true for genesis and fork-origin blocks. -/
structure ForkLinks (α : Type) where
  pPrev : α → Option α
  isOrigin : α → Bool

section Model

variable [DecidableEq α] (f : ForkLinks α)

/-- The loop `while (p != nullptr) { p->pPrev->pNext = nullptr; p = p->pNext; }`, which
unlinks the chain that starts at `p`, for at most `fuel` iterations. -/
def unlinkNext : ℕ → (α → Option α) → Option α → Option (α → Option α)
  | _, pNext, none => some pNext
  | 0, _, some _ => none
  | fuel + 1, pNext, some p =>
    match f.pPrev p with
    | none => none
    | some q =>
      let pNext' := Function.update pNext q none
      unlinkNext fuel pNext' (pNext' p)

/-- The loop `while (!pIndexNext->IsOrigin() && pIndexNext->pPrev->pNext != pIndexNext)` of
`UpdateBlockNext`: link the parent to the current block, after unlinking the branch the parent
pointed to, and climb. -/
def climbNext : ℕ → (α → Option α) → α → Option (α → Option α)
  | 0, _, _ => none
  | fuel + 1, pNext, pIndexNext =>
    if f.isOrigin pIndexNext then some pNext
    else
      match f.pPrev pIndexNext with
      | none => none
      | some pIndex =>
        if pNext pIndex = some pIndexNext then some pNext
        else do
          let pNext' ← if (pNext pIndex).isSome then unlinkNext f fuel pNext (pNext pIndex)
            else some pNext
          climbNext fuel (Function.update pNext' pIndex (some pIndexNext)) pIndex

/-- `CBlockBase::UpdateBlockNext(pIndexLast)`: truncate the old chain past `pIndexLast` when
`pIndexLast` is on it, then climb from it. -/
def updateBlockNext (fuel : ℕ) (pNext : α → Option α) (pIndexLast : α) :
    Option (α → Option α) := do
  let pNext₁ ← if (pNext pIndexLast).isSome then do
      let pNext' ← unlinkNext f fuel pNext (pNext pIndexLast)
      pure (Function.update pNext' pIndexLast none)
    else pure pNext
  climbNext f fuel pNext₁ pIndexLast

end Model

/-! ## Forks -/

section Fork

variable (f : ForkLinks α) (o : α)

/-- `b` belongs to the fork whose origin is `o`: the `pPrev` walk from `b` reaches `o`, and
meets no origin block before it. -/
def InFork (b : α) : Prop :=
  ∃ l, DownPath f.pPrev o b l ∧ ∀ x ∈ l, f.isOrigin x = false

/-- The `pNext` links of the fork with origin `o` are well formed for its block `L`: following
`pNext` from `o` visits exactly the ancestors of `L` from `o` up to `L`, in order; `L.pNext` is
null; and every other block of the fork has a null `pNext`. -/
structure NextWellFormed (pNext : α → Option α) (L : α) : Prop where
  fork : InFork f o L
  chain : ∃ l, DownPath f.pPrev o L l ∧ NextPath pNext o l.reverse L ∧
    ∀ b, InFork f o b → b ≠ o → b ∉ l → pNext b = none
  last : pNext L = none

/-- Link by link: in the fork, `b.pNext` is `c` exactly when `c` is the child of `b` on the
way up to `M`. -/
def LinksToward (pNext : α → Option α) (M : α) : Prop :=
  ∀ b, InFork f o b → ∀ c, pNext b = some c ↔ f.pPrev c = some b ∧ IsAncestor f.pPrev c M

variable {f o}

theorem inFork_origin : InFork f o o := ⟨[], DownPath.here, fun _ h => by cases h⟩

theorem InFork.isAncestor {b : α} (h : InFork f o b) : IsAncestor f.pPrev o b := by
  obtain ⟨l, hl, -⟩ := h
  exact hl.isAncestor

/-- The only origin block of a fork is its origin. -/
theorem InFork.eq_of_isOrigin {b : α} (h : InFork f o b) (hb : f.isOrigin b = true) : b = o := by
  obtain ⟨l, hl, hnon⟩ := h
  cases hl with
  | here => rfl
  | step _ _ _ =>
    have := hnon b List.mem_cons_self
    rw [hb] at this
    cases this

/-- Every block of a fork other than its origin has its parent in the fork. -/
theorem InFork.parent {b : α} (h : InFork f o b) (hb : b ≠ o) :
    ∃ p, f.pPrev b = some p ∧ InFork f o p := by
  obtain ⟨l, hl, hnon⟩ := h
  cases hl with
  | here => exact absurd rfl hb
  | step _ hp hl' =>
    exact ⟨_, hp, _, hl', fun x hx => hnon x (List.mem_cons_of_mem _ hx)⟩

variable (hac : Acyclic f.pPrev)
include hac

/-- A block between the origin and a block of the fork is in the fork. -/
theorem InFork.of_between {M c : α} (hM : InFork f o M) (hcM : IsAncestor f.pPrev c M)
    (hoc : IsAncestor f.pPrev o c) : InFork f o c := by
  obtain ⟨l, hl, hnon⟩ := hM
  induction hl with
  | here => rw [hac.antisymm hcM hoc]; exact inFork_origin
  | @step M p l _ hp hl' ih =>
    rcases hcM.cases with rfl | ⟨q, hq, hcq⟩
    · exact ⟨_, DownPath.step ‹_› hp hl', hnon⟩
    · rw [hp] at hq
      cases hq
      exact ih hcq (fun x hx => hnon x (List.mem_cons_of_mem _ hx))

/-- Links toward a block `L` of the fork trace the path up to it from any fork block below. -/
theorem LinksToward.nextPath {pNext : α → Option α} {L : α} (hlinks : LinksToward f o pNext L)
    (hL : InFork f o L) {a M : α} (ha : InFork f o a) {l : List α} (hl : DownPath f.pPrev a M l)
    (hML : IsAncestor f.pPrev M L) : NextPath pNext a l.reverse M := by
  induction hl with
  | here => exact NextPath.nil a
  | @step M p l hne hp hl' ih =>
    have hpL : IsAncestor f.pPrev p L := (isAncestor_of_parent hp).trans hML
    have hpF : InFork f o p := hL.of_between hac hpL (ha.isAncestor.trans hl'.isAncestor)
    rw [List.reverse_cons]
    exact (ih hpL).snoc ((hlinks p hpF M).mpr ⟨hp, hML⟩)

/-- The three conditions of `NextWellFormed` are the link-by-link condition. -/
theorem nextWellFormed_iff {pNext : α → Option α} {L : α} :
    NextWellFormed f o pNext L ↔ InFork f o L ∧ LinksToward f o pNext L := by
  constructor
  · rintro ⟨hL, ⟨l, hl, hpath, hothers⟩, hlast⟩
    have hlinks := (hl.next_of_nextPath hpath).2
    refine ⟨hL, fun b hb c => ⟨fun hbc => ?_, fun ⟨hcb, hcL⟩ => ?_⟩⟩
    · -- a linked block is on the chain and is not `L`, so it links to its child toward `L`
      have hbL : IsAncestor f.pPrev b L := by
        by_cases hbo : b = o
        · rw [hbo]; exact hL.isAncestor
        · by_cases hbl : b ∈ l
          · exact (hl.mem hbl).2.2
          · rw [hothers b hb hbo hbl] at hbc; cases hbc
      have hne : b ≠ L := fun h => by rw [h, hlast] at hbc; cases hbc
      obtain ⟨c', hc'b, hc'L⟩ := hbL.exists_child hne
      have hc' : c' ∈ l := by
        rcases hac.mem_downPath hl (hb.isAncestor.trans (isAncestor_of_parent hc'b)) hc'L
          with h | h
        · exact absurd (h ▸ hb.isAncestor) (hac _ _ (h ▸ hc'b))
        · exact h
      obtain ⟨p, hp, hpc⟩ := hlinks c' hc'
      rw [hc'b] at hp
      cases hp
      rw [hbc] at hpc
      cases hpc
      exact ⟨hc'b, hc'L⟩
    · -- the child of a fork block toward `L` is on the chain, linked from its parent
      have hc : c ∈ l := by
        rcases hac.mem_downPath hl (hb.isAncestor.trans (isAncestor_of_parent hcb)) hcL
          with h | h
        · exact absurd (h ▸ hb.isAncestor) (hac _ _ (h ▸ hcb))
        · exact h
      obtain ⟨p, hp, hpc⟩ := hlinks c hc
      rw [hcb] at hp
      cases hp
      exact hpc
  · rintro ⟨hL, hlinks⟩
    obtain ⟨l, hl, -⟩ := id hL
    refine ⟨hL, ⟨l, hl, hlinks.nextPath hac hL inFork_origin hl (IsAncestor.refl L), ?_⟩, ?_⟩
    · intro b hb hbo hbl
      cases hbc : pNext b with
      | none => rfl
      | some c =>
        obtain ⟨hcb, hcL⟩ := (hlinks b hb c).mp hbc
        rcases hac.mem_downPath hl hb.isAncestor ((isAncestor_of_parent hcb).trans hcL)
          with h | h
        · exact absurd h hbo
        · exact absurd h hbl
    · cases hLc : pNext L with
      | none => rfl
      | some c =>
        obtain ⟨hcL, hcL'⟩ := (hlinks L hL c).mp hLc
        exact absurd hcL' (hac _ _ hcL)

end Fork

/-! ## Unlinking a stale chain -/

section Unlink

variable [DecidableEq α] {f : ForkLinks α} (hac : Acyclic f.pPrev)
include hac

/-- **The unlink loop.**  When the links from `y` up to `M` are the chain toward `M` and `M`
has no link, the loop started at `y.pNext` clears the links of `y` and of every block up to
`M`, and of nothing else.  The induction is on the fuel, which the path length bounds. -/
theorem unlinkNext_spec {M : α} :
    ∀ (fuel : ℕ) (σ : α → Option α) (y : α) (l : List α), DownPath f.pPrev y M l →
      l.length < fuel →
      (∀ b, IsAncestor f.pPrev y b → IsAncestor f.pPrev b M → b ≠ M →
        ∀ c, σ b = some c ↔ f.pPrev c = some b ∧ IsAncestor f.pPrev c M) →
      σ M = none →
      ∃ σ', unlinkNext f fuel σ (σ y) = some σ' ∧
        ∀ b, (IsAncestor f.pPrev y b ∧ IsAncestor f.pPrev b M → σ' b = none) ∧
          (¬ (IsAncestor f.pPrev y b ∧ IsAncestor f.pPrev b M) → σ' b = σ b) := by
  intro fuel
  induction fuel with
  | zero => intro σ y l _ hfuel; omega
  | succ fuel ih =>
    intro σ y l hl hfuel hchain hM
    by_cases hyM : y = M
    · -- nothing left to unlink: the loop starts on a null link
      subst hyM
      refine ⟨σ, by rw [hM, unlinkNext], fun b => ⟨fun ⟨hyb, hby⟩ => ?_, fun _ => rfl⟩⟩
      rw [hac.antisymm hby hyb]
      exact hM
    · obtain ⟨c, hcy, hcM⟩ := hl.isAncestor.exists_child hyM
      have hσy : σ y = some c := (hchain y (IsAncestor.refl y) hl.isAncestor hyM c).mpr ⟨hcy, hcM⟩
      have hcne : c ≠ y := (hac.parent_ne hcy).symm
      obtain ⟨l', hl'⟩ := hcM.exists_downPath
      have hlen := hac.downPath_length_child hl hcy hl'
      -- the loop clears `y`'s link, then continues from `c` on the updated links
      obtain ⟨σ₁, hσ₁⟩ : ∃ σ₁, σ₁ = Function.update σ y none := ⟨_, rfl⟩
      have hσ₁c : σ₁ c = σ c := by rw [hσ₁, Function.update_of_ne hcne]
      have hchain₁ : ∀ b, IsAncestor f.pPrev c b → IsAncestor f.pPrev b M → b ≠ M →
          ∀ c', σ₁ b = some c' ↔ f.pPrev c' = some b ∧ IsAncestor f.pPrev c' M := by
        intro b hcb hbM hbne c'
        have hby : b ≠ y := fun h => hac _ _ hcy (h ▸ hcb)
        rw [hσ₁, Function.update_of_ne hby]
        exact hchain b ((isAncestor_of_parent hcy).trans hcb) hbM hbne c'
      have hM₁ : σ₁ M = none := by
        rw [hσ₁, Function.update_of_ne (Ne.symm hyM)]
        exact hM
      obtain ⟨σ', hrun, hσ'⟩ := ih σ₁ c l' hl' (by omega) hchain₁ hM₁
      refine ⟨σ', ?_, fun b => ⟨fun ⟨hyb, hbM⟩ => ?_, fun hb => ?_⟩⟩
      · rw [hσy, unlinkNext, hcy]
        simp only
        rw [← hσ₁]
        exact hrun
      · by_cases hby : y = b
        · subst hby
          have hnot : ¬ (IsAncestor f.pPrev c y ∧ IsAncestor f.pPrev y M) :=
            fun h => hac _ _ hcy h.1
          rw [(hσ' y).2 hnot, hσ₁, Function.update_self]
        · exact ((hσ' b).1 ⟨hac.child_isAncestor hcy hcM hyb hbM hby, hbM⟩)
      · have hnot : ¬ (IsAncestor f.pPrev c b ∧ IsAncestor f.pPrev b M) :=
          fun h => hb ⟨(isAncestor_of_parent hcy).trans h.1, h.2⟩
        have hby : b ≠ y := by
          rintro rfl
          exact hb ⟨IsAncestor.refl b, hl.isAncestor⟩
        rw [(hσ' b).2 hnot, hσ₁, Function.update_of_ne hby]

end Unlink

/-! ## The climb -/

section Climb

variable {f : ForkLinks α} {o : α} (hac : Acyclic f.pPrev)
include hac

/-- What the climb of `UpdateBlockNext` towards `L'` keeps, at its current block `x`, with `M`
the end of what is left of the old chain: blocks at or above `x` link toward `L'`, the other
blocks of the fork link toward `M`; `x` is not strictly below `M`; and blocks outside the fork
keep the links they had in `σ₀`. -/
structure ClimbInv (f : ForkLinks α) (o : α) (σ₀ σ : α → Option α) (L' x M : α) : Prop where
  fork_x : InFork f o x
  fork_M : InFork f o M
  x_le : IsAncestor f.pPrev x L'
  meet : x = M ∨ ¬ IsAncestor f.pPrev x M
  links : ∀ b, InFork f o b → ∀ c, σ b = some c ↔ f.pPrev c = some b ∧
    ((IsAncestor f.pPrev x b ∧ IsAncestor f.pPrev c L') ∨
      (¬ IsAncestor f.pPrev x b ∧ IsAncestor f.pPrev c M))
  frame : ∀ b, ¬ InFork f o b → σ b = σ₀ b

variable {σ₀ σ : α → Option α} {L' x M : α}

omit hac in
/-- When the climb has reached the end of the old chain, the links are well formed for `L'`. -/
theorem ClimbInv.linksToward (h : ClimbInv f o σ₀ σ L' x x) : LinksToward f o σ L' := by
  intro b hb c
  rw [h.links b hb c]
  constructor
  · rintro ⟨hcb, ⟨-, hcL⟩ | ⟨-, hcx⟩⟩
    · exact ⟨hcb, hcL⟩
    · exact ⟨hcb, hcx.trans h.x_le⟩
  · rintro ⟨hcb, hcL⟩
    refine ⟨hcb, ?_⟩
    by_cases hxb : IsAncestor f.pPrev x b
    · exact Or.inl ⟨hxb, hcL⟩
    · -- `c` and `x` are both below `L'`, and `x` is not below `c`'s parent
      refine Or.inr ⟨hxb, ?_⟩
      rcases hcL.total h.x_le with hcx | hxc
      · exact hcx
      · by_cases hxc' : x = c
        · rw [hxc']; exact IsAncestor.refl c
        · obtain ⟨p, hp, hxp⟩ := hxc.exists_parent hxc'
          rw [hcb] at hp
          cases hp
          exact absurd hxp hxb

/-- A parent already linked to the current block marks the end of the old chain. -/
theorem ClimbInv.eq_of_linked (h : ClimbInv f o σ₀ σ L' x M) (hxo : x ≠ o) {y : α}
    (hy : f.pPrev x = some y) (hyx : σ y = some x) : x = M := by
  obtain ⟨y', hy', hyF⟩ := h.fork_x.parent hxo
  rw [hy] at hy'
  cases hy'
  obtain ⟨-, ⟨hxy, -⟩ | ⟨-, hxM⟩⟩ := (h.links y hyF x).mp hyx
  · exact absurd hxy (hac _ _ hy)
  · rcases h.meet with hxM' | hxM'
    · exact hxM'
    · exact absurd hxM hxM'

omit hac in
/-- At the origin, nothing of the old chain is left above the climb. -/
theorem ClimbInv.eq_of_origin (h : ClimbInv f o σ₀ σ L' o M) : o = M := by
  rcases h.meet with h' | h'
  · exact h'
  · exact absurd h.fork_M.isAncestor h'

/-- The parent's new link to the current block is the only link toward `L'` it may have. -/
theorem child_toward_eq {x y c : α} (hy : f.pPrev x = some y) (hxL : IsAncestor f.pPrev x L') :
    (f.pPrev c = some y ∧ IsAncestor f.pPrev c L') ↔ c = x := by
  constructor
  · rintro ⟨hcy, hcL⟩
    exact hac.child_eq hcy hy hcL hxL
  · rintro rfl
    exact ⟨hy, hxL⟩

/-- **Climb step without unlinking.**  When the parent `y` of the current block has no link,
linking it to the current block moves the climb to `y`. -/
theorem ClimbInv.step_link [DecidableEq α] (h : ClimbInv f o σ₀ σ L' x M) (hxo : x ≠ o) {y : α}
    (hy : f.pPrev x = some y) (hyn : σ y = none) :
    ClimbInv f o σ₀ (Function.update σ y (some x)) L' y M := by
  obtain ⟨y', hy', hyF⟩ := h.fork_x.parent hxo
  rw [hy] at hy'
  cases hy'
  have hyx : IsAncestor f.pPrev y x := isAncestor_of_parent hy
  -- `y` has no link, so it is not strictly below `M`
  have hyM : ∀ c, f.pPrev c = some y → ¬ IsAncestor f.pPrev c M := by
    intro c hcy hcM
    have : σ y = some c := (h.links y hyF c).mpr ⟨hcy, Or.inr ⟨hac _ _ hy, hcM⟩⟩
    rw [hyn] at this
    cases this
  refine ⟨hyF, h.fork_M, hyx.trans h.x_le, ?_, ?_, ?_⟩
  · by_cases hyM' : y = M
    · exact Or.inl hyM'
    · refine Or.inr fun hyM'' => ?_
      obtain ⟨c, hcy, hcM⟩ := hyM''.exists_child hyM'
      exact hyM c hcy hcM
  · intro b hb c
    by_cases hby : b = y
    · subst hby
      rw [Function.update_self, Option.some.injEq, eq_comm, ← child_toward_eq hac hy h.x_le]
      constructor
      · rintro ⟨hcb, hcL⟩
        exact ⟨hcb, Or.inl ⟨IsAncestor.refl b, hcL⟩⟩
      · rintro ⟨hcb, ⟨-, hcL⟩ | ⟨hbb, -⟩⟩
        · exact ⟨hcb, hcL⟩
        · exact absurd (IsAncestor.refl b) hbb
    · rw [Function.update_of_ne hby, h.links b hb c]
      by_cases hyb : IsAncestor f.pPrev y b
      · by_cases hxb : IsAncestor f.pPrev x b
        · simp only [hxb, hyb, not_true_eq_false, false_and, or_false, true_and]
        · -- `b` is above `y` but off the path to `x`: no link on either side
          simp only [hxb, hyb, not_true_eq_false, false_and, or_false, true_and, false_or,
            not_false_eq_true]
          constructor
          · rintro ⟨hcb, hcM⟩
            have hbM : IsAncestor f.pPrev b M := (isAncestor_of_parent hcb).trans hcM
            obtain ⟨c', hc'y, hc'b⟩ := hyb.exists_child (Ne.symm hby)
            exact absurd (hc'b.trans hbM) (hyM c' hc'y)
          · rintro ⟨hcb, hcL⟩
            exact absurd (hac.child_isAncestor hy h.x_le hyb
              ((isAncestor_of_parent hcb).trans hcL) (Ne.symm hby)) hxb
      · have hxb : ¬ IsAncestor f.pPrev x b := fun hxb => hyb (hyx.trans hxb)
        simp only [hxb, hyb, false_and, false_or, not_false_eq_true, true_and]
  · intro b hb
    have hby : b ≠ y := fun h' => hb (h' ▸ hyF)
    rw [Function.update_of_ne hby]
    exact h.frame b hb

/-- A parent that is linked is linked toward the end of the old chain. -/
theorem ClimbInv.linked_parent (h : ClimbInv f o σ₀ σ L' x M) (hxo : x ≠ o) {y c₀ : α}
    (hy : f.pPrev x = some y) (hyc : σ y = some c₀) :
    f.pPrev c₀ = some y ∧ IsAncestor f.pPrev c₀ M := by
  obtain ⟨y', hy', hyF⟩ := h.fork_x.parent hxo
  rw [hy] at hy'
  cases hy'
  obtain ⟨hc₀y, ⟨hxy, -⟩ | ⟨-, hc₀M⟩⟩ := (h.links y hyF c₀).mp hyc
  · exact absurd hxy (hac _ _ hy)
  · exact ⟨hc₀y, hc₀M⟩

/-- **Climb step with unlinking.**  When the parent `y` of the current block links to another
child, the loop unlinks the old chain from `y` up to `M`, links `y` to the current block, and
the climb moves to `y`, which is now the end of the old chain. -/
theorem ClimbInv.step_unlink [DecidableEq α] (h : ClimbInv f o σ₀ σ L' x M) (hxo : x ≠ o)
    {y c₀ : α} (hy : f.pPrev x = some y) (hyc : σ y = some c₀) (hc₀x : c₀ ≠ x) {l : List α}
    (hl : DownPath f.pPrev y M l) {fuel : ℕ} (hfuel : l.length < fuel) :
    ∃ σ₁, unlinkNext f fuel σ (σ y) = some σ₁ ∧
      ClimbInv f o σ₀ (Function.update σ₁ y (some x)) L' y y := by
  obtain ⟨y', hy', hyF⟩ := h.fork_x.parent hxo
  rw [hy] at hy'
  cases hy'
  have hyx : IsAncestor f.pPrev y x := isAncestor_of_parent hy
  obtain ⟨hc₀y, hc₀M⟩ := h.linked_parent hac hxo hy hyc
  -- the current block is not the end of the old chain, so it is not below it
  have hxM : ¬ IsAncestor f.pPrev x M := by
    rcases h.meet with hxM | hxM
    · subst hxM
      exact absurd (hac.child_eq hc₀y hy hc₀M (IsAncestor.refl x)) hc₀x
    · exact hxM
  have hchain : ∀ b, IsAncestor f.pPrev y b → IsAncestor f.pPrev b M → b ≠ M →
      ∀ c, σ b = some c ↔ f.pPrev c = some b ∧ IsAncestor f.pPrev c M := by
    intro b hyb hbM _ c
    have hbF : InFork f o b := h.fork_M.of_between hac hbM (hyF.isAncestor.trans hyb)
    have hxb : ¬ IsAncestor f.pPrev x b := fun hxb => hxM (hxb.trans hbM)
    rw [h.links b hbF c]
    simp only [hxb, false_and, false_or, not_false_eq_true, true_and]
  have hMnone : σ M = none := by
    cases hMc : σ M with
    | none => rfl
    | some c =>
      obtain ⟨hcM, ⟨hxM', -⟩ | ⟨-, hcM'⟩⟩ := (h.links M h.fork_M c).mp hMc
      · exact absurd hxM' hxM
      · exact absurd hcM' (hac _ _ hcM)
  obtain ⟨σ₁, hrun, hσ₁⟩ := unlinkNext_spec hac fuel σ y l hl hfuel hchain hMnone
  refine ⟨σ₁, hrun, hyF, hyF, hyx.trans h.x_le, Or.inl rfl, ?_, ?_⟩
  · intro b hb c
    by_cases hby : b = y
    · subst hby
      rw [Function.update_self, Option.some.injEq, eq_comm, ← child_toward_eq hac hy h.x_le]
      constructor
      · rintro ⟨hcb, hcL⟩
        exact ⟨hcb, Or.inl ⟨IsAncestor.refl b, hcL⟩⟩
      · rintro ⟨hcb, ⟨-, hcL⟩ | ⟨hbb, -⟩⟩
        · exact ⟨hcb, hcL⟩
        · exact absurd (IsAncestor.refl b) hbb
    rw [Function.update_of_ne hby]
    by_cases hcl : IsAncestor f.pPrev y b ∧ IsAncestor f.pPrev b M
    · -- an unlinked block of the old chain: nothing toward `L'` starts there
      rw [(hσ₁ b).1 hcl]
      constructor
      · intro hn
        cases hn
      · rintro ⟨hcb, ⟨-, hcL⟩ | ⟨hyb, -⟩⟩
        · have hxb := hac.child_isAncestor hy h.x_le hcl.1 ((isAncestor_of_parent hcb).trans hcL)
            (Ne.symm hby)
          exact absurd (hxb.trans hcl.2) hxM
        · exact absurd hcl.1 hyb
    · rw [(hσ₁ b).2 hcl, h.links b hb c]
      by_cases hyb : IsAncestor f.pPrev y b
      · have hbM : ¬ IsAncestor f.pPrev b M := fun hbM => hcl ⟨hyb, hbM⟩
        constructor
        · rintro ⟨hcb, ⟨hxb, hcL⟩ | ⟨-, hcM⟩⟩
          · exact ⟨hcb, Or.inl ⟨hyb, hcL⟩⟩
          · exact absurd ((isAncestor_of_parent hcb).trans hcM) hbM
        · rintro ⟨hcb, ⟨-, hcL⟩ | ⟨hyb', -⟩⟩
          · have hxb := hac.child_isAncestor hy h.x_le hyb ((isAncestor_of_parent hcb).trans hcL)
              (Ne.symm hby)
            exact ⟨hcb, Or.inl ⟨hxb, hcL⟩⟩
          · exact absurd hyb hyb'
      · -- off the new path, the links toward `M` and toward `y` coincide
        have hxb : ¬ IsAncestor f.pPrev x b := fun hxb => hyb (hyx.trans hxb)
        have hyM : IsAncestor f.pPrev y M := hl.isAncestor
        constructor
        · rintro ⟨hcb, ⟨hxb', -⟩ | ⟨-, hcM⟩⟩
          · exact absurd hxb' hxb
          · refine ⟨hcb, Or.inr ⟨hyb, ?_⟩⟩
            rcases hcM.total hyM with hcy | hyc'
            · exact hcy
            · by_cases hyc'' : y = c
              · rw [hyc'']; exact IsAncestor.refl c
              · obtain ⟨p, hp, hyp⟩ := hyc'.exists_parent hyc''
                rw [hcb] at hp
                cases hp
                exact absurd hyp hyb
        · rintro ⟨hcb, ⟨hyb', -⟩ | ⟨-, hcy⟩⟩
          · exact absurd hyb' hyb
          · exact ⟨hcb, Or.inr ⟨hxb, hcy.trans hyM⟩⟩
  · intro b hb
    have hby : b ≠ y := fun h' => hb (h' ▸ hyF)
    have hcl : ¬ (IsAncestor f.pPrev y b ∧ IsAncestor f.pPrev b M) := fun hcl =>
      hb (h.fork_M.of_between hac hcl.2 (hyF.isAncestor.trans hcl.1))
    rw [Function.update_of_ne hby, (hσ₁ b).2 hcl]
    exact h.frame b hb

/-- **The climb run lemma.**  From a state in the invariant, with more fuel than the depths of
the current block and of the end of the old chain, the climb ends with links well formed for
`L'` and the blocks outside the fork untouched.  The induction is on the fuel; each iteration
moves the climb one block down. -/
theorem climbNext_spec [DecidableEq α] (ho : f.isOrigin o = true) :
    ∀ (fuel : ℕ) (σ : α → Option α) (x M : α) (lx lM : List α),
      ClimbInv f o σ₀ σ L' x M → DownPath f.pPrev o x lx → DownPath f.pPrev o M lM →
      lx.length + lM.length < fuel →
      ∃ σ', climbNext f fuel σ x = some σ' ∧ LinksToward f o σ' L' ∧
        ∀ b, ¬ InFork f o b → σ' b = σ₀ b := by
  intro fuel
  induction fuel with
  | zero => intro σ x M lx lM _ _ _ hfuel; omega
  | succ fuel ih =>
    intro σ x M lx lM h hlx hlM hfuel
    by_cases hxO : f.isOrigin x = true
    · -- the climb stops at the origin, where the old chain has shrunk to nothing
      have hxo : x = o := h.fork_x.eq_of_isOrigin hxO
      subst hxo
      have hM := h.eq_of_origin
      subst hM
      exact ⟨σ, by simp [climbNext, hxO], h.linksToward, h.frame⟩
    have hxo : x ≠ o := fun hxo => hxO (hxo ▸ ho)
    obtain ⟨y, hy, hyF⟩ := h.fork_x.parent hxo
    cases hlx with
    | here => exact absurd rfl hxo
    | @step _ y' ly _ hy' hly =>
    rw [hy] at hy'
    cases hy'
    by_cases hyx : σ y = some x
    · -- the parent is already linked: the climb has joined the old chain at its end
      have hxM := h.eq_of_linked hac hxo hy hyx
      subst hxM
      exact ⟨σ, by simp [climbNext, hxO, hy, hyx], h.linksToward, h.frame⟩
    cases hσy : σ y with
    | none =>
      have h' := h.step_link hac hxo hy hσy
      obtain ⟨σ', hrun, hlinks, hframe⟩ := ih _ y M ly lM h' hly hlM (by
        simp only [List.length_cons] at hfuel
        omega)
      refine ⟨σ', ?_, hlinks, hframe⟩
      simp [climbNext, hxO, hy, hσy, hrun]
    | some c₀ =>
      have hc₀x : c₀ ≠ x := fun he => hyx (he ▸ hσy)
      obtain ⟨-, hc₀M⟩ := h.linked_parent hac hxo hy hσy
      obtain ⟨l, hl⟩ := ((isAncestor_of_parent (h.linked_parent hac hxo hy hσy).1).trans
        hc₀M).exists_downPath
      have hlen : lM = l ++ ly := hlM.unique (hac.downPath_append hly hl)
      subst hlen
      simp only [List.length_cons, List.length_append] at hfuel
      obtain ⟨σ₁, hunlink, h'⟩ := h.step_unlink hac hxo hy hσy hc₀x hl
        (show l.length < fuel by omega)
      obtain ⟨σ', hrun, hlinks, hframe⟩ := ih _ y y ly ly h' hly hly (by omega)
      refine ⟨σ', ?_, hlinks, hframe⟩
      rw [hσy] at hunlink
      simp [climbNext, hxO, hy, hσy, hc₀x, hunlink, hrun]

end Climb

/-! ## `UpdateBlockNext` -/

section Update

variable {f : ForkLinks α} {o : α} (hac : Acyclic f.pPrev)
include hac

/-- A state well formed for `L` in which `L'` has no link is the start of the climb toward
`L'`, with the whole old chain left. -/
theorem climbInv_start_link {σ : α → Option α} {L L' : α} (hL' : InFork f o L')
    (hL : InFork f o L) (hlinks : LinksToward f o σ L) (hσL' : σ L' = none) :
    ClimbInv f o σ σ L' L' L := by
  -- a strict ancestor of `L` would be linked, so `L'` is not one
  have hnot : ∀ b, IsAncestor f.pPrev L' b → ∀ c, f.pPrev c = some b →
      ¬ IsAncestor f.pPrev c L := by
    intro b hL'b c hcb hcL
    have hne : L' ≠ L := by
      rintro rfl
      exact hac _ _ hcb (hcL.trans hL'b)
    obtain ⟨c', hc', hc'L⟩ := (hL'b.trans ((isAncestor_of_parent hcb).trans hcL)).exists_child hne
    have := (hlinks L' hL' c').mpr ⟨hc', hc'L⟩
    rw [hσL'] at this
    cases this
  refine ⟨hL', hL, IsAncestor.refl L', ?_, ?_, fun _ _ => rfl⟩
  · by_cases hL'L : L' = L
    · exact Or.inl hL'L
    · refine Or.inr fun hL'M => ?_
      obtain ⟨c, hc, hcL⟩ := hL'M.exists_child hL'L
      exact hnot L' (IsAncestor.refl L') c hc hcL
  · intro b hb c
    rw [hlinks b hb c]
    constructor
    · rintro ⟨hcb, hcL⟩
      by_cases hL'b : IsAncestor f.pPrev L' b
      · exact absurd hcL (hnot b hL'b c hcb)
      · exact ⟨hcb, Or.inr ⟨hL'b, hcL⟩⟩
    · rintro ⟨hcb, ⟨hL'b, hcL'⟩ | ⟨-, hcL⟩⟩
      · exact absurd (hcL'.trans hL'b) (hac _ _ hcb)
      · exact ⟨hcb, hcL⟩

/-- **Truncating at a block of the old chain.**  When `L'` is on the chain below `L`, the
first loop of `UpdateBlockNext` unlinks everything from `L'` up to `L`, which leaves the climb
toward `L'` at its end. -/
theorem unlink_start_truncate [DecidableEq α] {σ : α → Option α} {L L' : α}
    (hL' : InFork f o L') (hL : InFork f o L) (hlinks : LinksToward f o σ L)
    (hLnone : σ L = none) {l : List α} (hl : DownPath f.pPrev L' L l)
    {fuel : ℕ} (hfuel : l.length < fuel) :
    ∃ σ₁, unlinkNext f fuel σ (σ L') = some σ₁ ∧
      ClimbInv f o σ (Function.update σ₁ L' none) L' L' L' := by
  have hchain : ∀ b, IsAncestor f.pPrev L' b → IsAncestor f.pPrev b L → b ≠ L →
      ∀ c, σ b = some c ↔ f.pPrev c = some b ∧ IsAncestor f.pPrev c L :=
    fun b hL'b hbL _ => hlinks b (hL.of_between hac hbL (hL'.isAncestor.trans hL'b))
  obtain ⟨σ₁, hrun, hσ₁⟩ := unlinkNext_spec hac fuel σ L' l hl hfuel hchain hLnone
  have hL'L : IsAncestor f.pPrev L' L := hl.isAncestor
  have hupd : Function.update σ₁ L' none = σ₁ := by
    rw [← (hσ₁ L').1 ⟨IsAncestor.refl L', hL'L⟩, Function.update_eq_self]
  refine ⟨σ₁, hrun, ?_⟩
  rw [hupd]
  refine ⟨hL', hL', IsAncestor.refl L', Or.inl rfl, ?_, ?_⟩
  · intro b hb c
    by_cases hcl : IsAncestor f.pPrev L' b ∧ IsAncestor f.pPrev b L
    · rw [(hσ₁ b).1 hcl]
      constructor
      · intro hn
        cases hn
      · rintro ⟨hcb, ⟨-, hcL'⟩ | ⟨hL'b, -⟩⟩
        · exact absurd (hcL'.trans hcl.1) (hac _ _ hcb)
        · exact absurd hcl.1 hL'b
    · rw [(hσ₁ b).2 hcl, hlinks b hb c]
      constructor
      · rintro ⟨hcb, hcL⟩
        have hbL : IsAncestor f.pPrev b L := (isAncestor_of_parent hcb).trans hcL
        have hL'b : ¬ IsAncestor f.pPrev L' b := fun hL'b => hcl ⟨hL'b, hbL⟩
        refine ⟨hcb, Or.inr ⟨hL'b, ?_⟩⟩
        -- `c` and `L'` are both below `L`, and `L'` is not below `c`'s parent
        rcases hcL.total hL'L with hcL' | hL'c
        · exact hcL'
        · by_cases hL'eq : L' = c
          · rw [hL'eq]; exact IsAncestor.refl c
          · obtain ⟨p, hp, hL'p⟩ := hL'c.exists_parent hL'eq
            rw [hcb] at hp
            cases hp
            exact absurd hL'p hL'b
      · rintro ⟨hcb, ⟨hL'b, hcL'⟩ | ⟨-, hcL'⟩⟩
        · exact absurd (hcL'.trans hL'b) (hac _ _ hcb)
        · exact ⟨hcb, hcL'.trans hL'L⟩
  · intro b hb
    have hcl : ¬ (IsAncestor f.pPrev L' b ∧ IsAncestor f.pPrev b L) := fun hcl =>
      hb (hL.of_between hac hcl.2 (hL'.isAncestor.trans hcl.1))
    exact (hσ₁ b).2 hcl

/-- **`UpdateBlockNext` keeps the main chain well formed.**  From links well formed for a
block `L` of the fork, `UpdateBlockNext(L')` for any block `L'` of the fork terminates (within
`depth L + depth L' + 1` iterations of each loop) and leaves links well formed for `L'`, with
the links of every block outside the fork unchanged. -/
theorem updateBlockNext_spec [DecidableEq α] (ho : f.isOrigin o = true) {σ : α → Option α}
    {L L' : α} (hwf : NextWellFormed f o σ L) (hL' : InFork f o L') {lL lL' : List α}
    (hlL : DownPath f.pPrev o L lL) (hlL' : DownPath f.pPrev o L' lL') {fuel : ℕ}
    (hfuel : lL.length + lL'.length < fuel) :
    ∃ σ', updateBlockNext f fuel σ L' = some σ' ∧ NextWellFormed f o σ' L' ∧
      ∀ b, ¬ InFork f o b → σ' b = σ b := by
  obtain ⟨hL, hlinks⟩ := (nextWellFormed_iff hac).mp hwf
  cases hσL' : σ L' with
  | some c₀ =>
    obtain ⟨hc₀L', hc₀L⟩ := (hlinks L' hL' c₀).mp hσL'
    obtain ⟨l, hl⟩ := ((isAncestor_of_parent hc₀L').trans hc₀L).exists_downPath
    have hlen : lL = l ++ lL' := hlL.unique (hac.downPath_append hlL' hl)
    subst hlen
    simp only [List.length_append] at hfuel
    obtain ⟨σ₁, hunlink, h⟩ := unlink_start_truncate hac hL' hL hlinks hwf.last hl
      (show l.length < fuel by omega)
    obtain ⟨σ', hrun, hlinks', hframe⟩ := climbNext_spec hac ho fuel _ L' L' lL' lL' h hlL'
      hlL' (by omega)
    refine ⟨σ', ?_, (nextWellFormed_iff hac).mpr ⟨hL', hlinks'⟩, hframe⟩
    rw [hσL'] at hunlink
    simp [updateBlockNext, hσL', hunlink, hrun]
  | none =>
    have h := climbInv_start_link hac hL' hL hlinks hσL'
    obtain ⟨σ', hrun, hlinks', hframe⟩ := climbNext_spec hac ho fuel σ L' L lL' lL h hlL' hlL
      (by omega)
    refine ⟨σ', ?_, (nextWellFormed_iff hac).mpr ⟨hL', hlinks'⟩, hframe⟩
    simp [updateBlockNext, hσL', hrun]

end Update

/-! ## Runs of long-chain switches

Every fork keeps its own main chain; a switch rebuilds the links of one fork only.  The model
keeps the whole block tree from the start: a block that `AddNewIndex` has not created yet has
no children and a null `pNext`, so it is never on a main chain, and `pPrev` of a block never
changes once it exists. -/

section Run

variable (f : ForkLinks α)

/-- Successive `StorageNewBlock` calls that switch the long chain: `UpdateBlockNext` on each
new last block in turn. -/
def switchRun [DecidableEq α] (fuel : ℕ) : (α → Option α) → List α → Option (α → Option α)
  | pNext, [] => some pNext
  | pNext, pIndexNew :: rest => (updateBlockNext f fuel pNext pIndexNew).bind (switchRun fuel · rest)

/-- The last block of every fork after a schedule of switches `(origin, new last block)`. -/
def lastAfter [DecidableEq α] (last : α → α) : List (α × α) → α → α
  | [] => last
  | (o, L) :: rest => lastAfter (Function.update last o L) rest

/-- The links of every fork are well formed for its last block. -/
def AllForksWellFormed (pNext : α → Option α) (last : α → α) : Prop :=
  ∀ o, f.isOrigin o = true → NextWellFormed f o pNext (last o)

variable {f}

/-- Fresh indexes have null links: with every fork at its origin, the links are well formed. -/
theorem allForksWellFormed_init : AllForksWellFormed f (fun _ => none) id := fun o _ =>
  ⟨inFork_origin, ⟨[], DownPath.here, NextPath.nil o, fun _ _ _ _ => rfl⟩, rfl⟩

variable (hac : Acyclic f.pPrev)
include hac

/-- Well-formedness of a fork reads only the links of its own blocks. -/
theorem NextWellFormed.congr {o L : α} {σ σ' : α → Option α} (h : NextWellFormed f o σ L)
    (heq : ∀ b, InFork f o b → σ' b = σ b) : NextWellFormed f o σ' L := by
  obtain ⟨hL, hlinks⟩ := (nextWellFormed_iff hac).mp h
  refine (nextWellFormed_iff hac).mpr ⟨hL, fun b hb c => ?_⟩
  rw [heq b hb]
  exact hlinks b hb c

/-- Two forks share no block: the origin of the lower one would lie on the other's path. -/
theorem inFork_disjoint {o o' b : α} (ho : f.isOrigin o = true) (ho' : f.isOrigin o' = true)
    (hne : o ≠ o') (hb : InFork f o b) (hb' : InFork f o' b) : False := by
  -- an origin strictly between another origin and `b` is on that origin's path to `b`
  have hmid : ∀ {a a'}, f.isOrigin a' = true → a ≠ a' → InFork f a b →
      IsAncestor f.pPrev a' b → ¬ IsAncestor f.pPrev a a' := by
    intro a a' ha' hne' ⟨l, hl, hnon⟩ ha'b haa'
    rcases hac.mem_downPath hl haa' ha'b with h | h
    · exact hne' h.symm
    · rw [hnon a' h] at ha'
      cases ha'
  rcases hb.isAncestor.total hb'.isAncestor with hoo' | ho'o
  · exact hmid ho' hne hb hb'.isAncestor hoo'
  · exact hmid ho (Ne.symm hne) hb' hb.isAncestor ho'o

/-- The parent-fork block that a fork's origin points to is not in the fork. -/
theorem not_inFork_origin_prev {o p : α} (hp : f.pPrev o = some p) : ¬ InFork f o p :=
  fun hpF => hac p o hp hpF.isAncestor

/-- **One switch.**  A switch to a block of one fork keeps every fork well formed, the switched
fork for its new last block, and leaves the blocks outside that fork alone. -/
theorem AllForksWellFormed.switch [DecidableEq α] {σ : α → Option α} {last : α → α}
    (h : AllForksWellFormed f σ last) {o L' : α} (ho : f.isOrigin o = true) (hL' : InFork f o L')
    {D fuel : ℕ} (hD : ∀ a b l, DownPath f.pPrev a b l → l.length ≤ D) (hfuel : 2 * D < fuel) :
    ∃ σ', updateBlockNext f fuel σ L' = some σ' ∧
      AllForksWellFormed f σ' (Function.update last o L') ∧ ∀ b, ¬ InFork f o b → σ' b = σ b := by
  have hwf := h o ho
  obtain ⟨lL, hlL, -⟩ := hwf.fork
  obtain ⟨lL', hlL', -⟩ := id hL'
  have hlen := hD _ _ _ hlL
  have hlen' := hD _ _ _ hlL'
  obtain ⟨σ', hrun, hwf', hframe⟩ :=
    updateBlockNext_spec hac ho hwf hL' hlL hlL' (show _ < fuel by omega)
  refine ⟨σ', hrun, fun o' ho' => ?_, hframe⟩
  by_cases ho'o : o' = o
  · subst ho'o
    rw [Function.update_self]
    exact hwf'
  · rw [Function.update_of_ne ho'o]
    exact (h o' ho').congr hac fun b hb => hframe b fun hbo =>
      inFork_disjoint hac ho ho' (Ne.symm ho'o) hbo hb

/-- **The run lemma.**  Along any schedule of switches, each to a block of some fork, every
fork stays well formed for its last block, and blocks of no fork keep their links. -/
theorem switchRun_spec [DecidableEq α] {D fuel : ℕ} (hD : ∀ a b l, DownPath f.pPrev a b l → l.length ≤ D)
    (hfuel : 2 * D < fuel) :
    ∀ (sched : List (α × α)) (σ : α → Option α) (last : α → α),
      (∀ q ∈ sched, f.isOrigin q.1 = true ∧ InFork f q.1 q.2) → AllForksWellFormed f σ last →
      ∃ σ', switchRun f fuel σ (sched.map Prod.snd) = some σ' ∧
        AllForksWellFormed f σ' (lastAfter last sched) ∧
        ∀ b, (∀ o, f.isOrigin o = true → ¬ InFork f o b) → σ' b = σ b := by
  intro sched
  induction sched with
  | nil => exact fun σ last _ h => ⟨σ, rfl, h, fun _ _ => rfl⟩
  | cons q rest ih =>
    obtain ⟨o, L'⟩ := q
    intro σ last hsched h
    obtain ⟨ho, hL'⟩ := hsched (o, L') List.mem_cons_self
    obtain ⟨σ₁, hstep, h₁, hframe₁⟩ := h.switch hac ho hL' hD hfuel
    obtain ⟨σ', hrun, h', hframe'⟩ :=
      ih σ₁ _ (fun q hq => hsched q (List.mem_cons_of_mem _ hq)) h₁
    refine ⟨σ', ?_, h', fun b hb => ?_⟩
    · simp [switchRun, hstep, hrun]
    · rw [hframe' b hb, hframe₁ b (hb o ho)]

end Run

/-! ## `GetForkBlockInv` -/

section Inv

variable {H : Type}

/-- What `GetForkBlockInv` reads of `CBlockBase` besides the links: the fork last index of a
fork hash, the index of a block hash, and the block hash and origin hash of an index. -/
structure BlockHashes (α H : Type) where
  getForkLastIndex : H → Option α
  getIndex : H → Option α
  getBlockHash : α → H
  getOriginHash : α → H

variable [DecidableEq α] [DecidableEq H] (x : BlockHashes α H)

/-- The locator scan: the first hash whose index is the fork's last block or has a `pNext`.
`none` is the null index the loop leaves when no hash qualifies. -/
def findLocatorIndex (pNext : α → Option α) (pIndexLast : α) : List H → Option α
  | [] => none
  | hash :: rest =>
    match x.getIndex hash with
    | some pIndex =>
      if pIndex = pIndexLast ∨ (pNext pIndex).isSome then some pIndex
      else findLocatorIndex pNext pIndexLast rest
    | none => findLocatorIndex pNext pIndexLast rest

/-- The loop `while (pIndex != nullptr && vBlockHash.size() < nMaxCount)`, pushing the hashes
along `pNext`, for at most `fuel` iterations. -/
def collectNext (pNext : α → Option α) (nMaxCount : ℕ) :
    ℕ → Option α → List H → Option (List H)
  | _, none, vBlockHash => some vBlockHash
  | 0, some _, vBlockHash => if vBlockHash.length < nMaxCount then none else some vBlockHash
  | fuel + 1, some pIndex, vBlockHash =>
    if vBlockHash.length < nMaxCount then
      collectNext pNext nMaxCount fuel (pNext pIndex) (vBlockHash ++ [x.getBlockHash pIndex])
    else some vBlockHash

/-- `CBlockBase::GetForkBlockInv`: `none` where the source returns false, otherwise the
filled `vBlockHash`. -/
def getForkBlockInv (pNext : α → Option α) (hashFork : H) (locator vBlockHash : List H)
    (nMaxCount fuel : ℕ) : Option (List H) :=
  match x.getForkLastIndex hashFork with
  | none => none
  | some pIndexLast =>
    match findLocatorIndex x pNext pIndexLast locator with
    | none => some vBlockHash
    | some pIndex =>
      if x.getOriginHash pIndex ≠ hashFork then none
      else collectNext x pNext nMaxCount fuel (pNext pIndex) vBlockHash

variable {x}

omit [DecidableEq H] in
/-- The scan skips the hashes before the first one that qualifies. -/
theorem findLocatorIndex_append {pNext : α → Option α} {pIndexLast : α} {pre post : List H}
    {hash : H} {p : α} (hpre : ∀ h ∈ pre, ∀ b, x.getIndex h = some b →
      b ≠ pIndexLast ∧ pNext b = none) (hhash : x.getIndex hash = some p)
    (hp : p = pIndexLast ∨ (pNext p).isSome) :
    findLocatorIndex x pNext pIndexLast (pre ++ hash :: post) = some p := by
  induction pre with
  | nil => simp [findLocatorIndex, hhash, hp]
  | cons h rest ih =>
    have ih' := ih fun h' hh' => hpre h' (List.mem_cons_of_mem _ hh')
    cases hh : x.getIndex h with
    | none => simpa [findLocatorIndex, hh] using ih'
    | some b =>
      obtain ⟨hbL, hbnone⟩ := hpre h List.mem_cons_self b hh
      simpa [findLocatorIndex, hh, hbL, hbnone] using ih'

omit [DecidableEq α] [DecidableEq H] in
/-- Along a `pNext` chain that ends on a null link, the loop appends the chain's hashes, up to
`nMaxCount` of them in all.  The induction follows the chain. -/
theorem collectNext_nextPath {pNext : α → Option α} {nMaxCount : ℕ} {a M : α} {l : List α}
    (hl : NextPath pNext a l M) (hM : pNext M = none) :
    ∀ (fuel : ℕ) (vBlockHash : List H), l.length ≤ fuel →
      collectNext x pNext nMaxCount fuel (pNext a) vBlockHash =
        some (vBlockHash ++ (l.take (nMaxCount - vBlockHash.length)).map x.getBlockHash) := by
  induction hl with
  | nil => intro fuel vBlockHash _; simp [hM, collectNext]
  | @cons a c b l hc _ ih =>
    intro fuel vBlockHash hfuel
    obtain ⟨fuel, rfl⟩ : ∃ k, fuel = k + 1 := ⟨fuel - 1, by simp at hfuel; omega⟩
    rw [hc]
    by_cases hlen : vBlockHash.length < nMaxCount
    · -- one more hash fits: push it and follow the link
      obtain ⟨k, hk⟩ : ∃ k, nMaxCount - vBlockHash.length = k + 1 := ⟨_, (Nat.succ_pred_eq_of_pos
        (Nat.sub_pos_of_lt hlen)).symm⟩
      have hk' : nMaxCount - (vBlockHash ++ [x.getBlockHash c]).length = k := by
        simp only [List.length_append, List.length_singleton]
        omega
      rw [collectNext, if_pos hlen, ih hM fuel _ (by simpa using hfuel), hk', hk]
      simp
    · rw [collectNext, if_neg hlen, Nat.sub_eq_zero_of_le (Nat.le_of_not_lt hlen)]
      simp

/-- **`GetForkBlockInv` on well-formed links.**  If every hash of the locator before `hash` is
unknown or names a block of the fork off the main chain, and `hash` names a block `p` of the
main chain, the answer is the main chain after `p`, in order, cut to `nMaxCount` blocks. -/
theorem getForkBlockInv_spec (hac : Acyclic f.pPrev) {o L p : α} {σ : α → Option α}
    (hwf : NextWellFormed f o σ L) {hashFork hash : H} {pre post : List H}
    (hlast : x.getForkLastIndex hashFork = some L)
    (horigin : ∀ b, InFork f o b → x.getOriginHash b = hashFork)
    (hpre : ∀ h ∈ pre, ∀ b, x.getIndex h = some b → InFork f o b ∧ ¬ IsAncestor f.pPrev b L)
    (hhash : x.getIndex hash = some p) (hp : InFork f o p) {l : List α}
    (hl : DownPath f.pPrev p L l) {nMaxCount fuel : ℕ} (hfuel : l.length ≤ fuel) :
    getForkBlockInv x σ hashFork (pre ++ hash :: post) [] nMaxCount fuel =
      some ((l.reverse.take nMaxCount).map x.getBlockHash) := by
  obtain ⟨hL, hlinks⟩ := (nextWellFormed_iff hac).mp hwf
  -- blocks of the fork off the main chain are skipped, and `p` stops the scan
  have hskip : ∀ h ∈ pre, ∀ b, x.getIndex h = some b → b ≠ L ∧ σ b = none := by
    intro h hh b hb
    obtain ⟨hbF, hbL⟩ := hpre h hh b hb
    refine ⟨fun hbL' => hbL (hbL' ▸ IsAncestor.refl b), ?_⟩
    cases hσb : σ b with
    | none => rfl
    | some c =>
      obtain ⟨hcb, hcL⟩ := (hlinks b hbF c).mp hσb
      exact absurd ((isAncestor_of_parent hcb).trans hcL) hbL
  have hstop : p = L ∨ (σ p).isSome := by
    by_cases hpL : p = L
    · exact Or.inl hpL
    · obtain ⟨c, hc, hcL⟩ := hl.isAncestor.exists_child hpL
      rw [(hlinks p hp c).mpr ⟨hc, hcL⟩]
      exact Or.inr rfl
  have hpath := hlinks.nextPath hac hL hp hl (IsAncestor.refl L)
  simp only [getForkBlockInv, hlast, findLocatorIndex_append hskip hhash hstop, horigin p hp,
    ne_eq, not_true_eq_false, if_false]
  rw [collectNext_nextPath hpath hwf.last fuel [] (by simpa using hfuel)]
  simp

end Inv

/-- Two forks: the genesis fork with blocks `0` and `1`, and a fork whose origin `2` stands on
block `1` of the genesis fork, with one more block `3`. -/
def twoForks : ForkLinks (Fin 4) where
  pPrev
    | ⟨0, _⟩ => none
    | ⟨k + 1, h⟩ => some ⟨k, by omega⟩
  isOrigin a := a.val == 0 || a.val == 2

theorem twoForks_timeIncreasing : TimeIncreasing twoForks.pPrev Fin.val := by
  unfold TimeIncreasing
  decide

theorem twoForks_downPath_length {a b : Fin 4} {l : List (Fin 4)}
    (hl : DownPath twoForks.pPrev a b l) : l.length ≤ 3 := by
  have := hl.length_le twoForks_timeIncreasing
  omega

/-- The schedule: the genesis fork to `1`, then the fork of origin `2` to `3`. -/
theorem twoForks_sched :
    ∀ q ∈ [((0 : Fin 4), (1 : Fin 4)), (2, 3)],
      twoForks.isOrigin q.1 = true ∧ InFork twoForks q.1 q.2 := by
  have h01 : InFork twoForks 0 1 := ⟨[1], DownPath.step (by decide) rfl DownPath.here, by decide⟩
  have h23 : InFork twoForks 2 3 := ⟨[3], DownPath.step (by decide) rfl DownPath.here, by decide⟩
  simp only [List.mem_cons, List.not_mem_nil, or_false, forall_eq_or_imp, forall_eq]
  exact ⟨⟨rfl, h01⟩, ⟨rfl, h23⟩⟩

/-- The block of hash `h` in `twoForks`: block `k` has hash `k`. -/
def twoForksIndex (h : ℕ) : Option (Fin 4) := if hh : h < 4 then some ⟨h, hh⟩ else none

/-- The hashes of `twoForks`: the genesis fork is named `0`, with last block `1`, and the fork of
origin `2` is named `2`, with last block `3`. -/
def twoForksHashes : BlockHashes (Fin 4) ℕ where
  getForkLastIndex h := if h = 0 then twoForksIndex 1 else if h = 2 then twoForksIndex 3 else none
  getIndex := twoForksIndex
  getBlockHash b := b.val
  getOriginHash b := if b.val < 2 then 0 else 2

end MetabaseNet
