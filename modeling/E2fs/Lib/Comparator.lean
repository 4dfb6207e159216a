import Mathlib.Data.List.Sort
import Mathlib.Data.Prod.Lex

/-! Sorting routines that sort by every comparison that orders the list, and may do anything by
others. -/
namespace E2fs.Comparator
open List

variable {α β : Type*} [LinearOrder β] {cmp : α → α → Int} {key : α → β} {l : List α}
  {sort : (α → α → Int) → List α → List α}

/-- The comparison is a total preorder on the list. -/
structure Orders (cmp : α → α → Int) (l : List α) : Prop where
  opposite : ∀ a ∈ l, ∀ b ∈ l, (cmp a b < 0 ↔ 0 < cmp b a)
  trans : ∀ a ∈ l, ∀ b ∈ l, ∀ c ∈ l, cmp a b ≤ 0 → cmp b c ≤ 0 → cmp a c ≤ 0

def Sorts (sort : (α → α → Int) → List α → List α) : Prop :=
  ∀ cmp l, Orders cmp l → (sort cmp l).Perm l ∧ (sort cmp l).Pairwise fun a b => cmp a b ≤ 0

/-- The comparison is that of a key. -/
def Compares (cmp : α → α → Int) (key : α → β) (l : List α) : Prop :=
  ∀ a ∈ l, ∀ b ∈ l, (cmp a b < 0 ↔ key a < key b) ∧ (0 < cmp a b ↔ key b < key a)

theorem Compares.le_iff (compares : Compares cmp key l) {a b : α} (ha : a ∈ l) (hb : b ∈ l) :
    cmp a b ≤ 0 ↔ key a ≤ key b := by
  rw [← not_lt, (compares a ha b hb).2, not_lt]

theorem Compares.orders (compares : Compares cmp key l) : Orders cmp l where
  opposite a ha b hb := by rw [(compares a ha b hb).1, (compares b hb a ha).2]
  trans a ha b hb c hc ab bc :=
    (compares.le_iff ha hc).mpr
      (((compares.le_iff ha hb).mp ab).trans ((compares.le_iff hb hc).mp bc))

theorem Compares.sorted (compares : Compares cmp key l) (sorts : Sorts sort) :
    (sort cmp l).Perm l ∧ (sort cmp l).Pairwise fun a b => key a ≤ key b := by
  obtain ⟨perm, sorted⟩ := sorts cmp l compares.orders
  exact ⟨perm,
    sorted.imp_of_mem fun ha hb => (compares.le_iff (perm.mem_iff.mp ha) (perm.mem_iff.mp hb)).mp⟩

/- Insertion sort, on the elements with their membership: the comparison orders no others. -/
def sortBy (cmp : α → α → Int) (l : List α) : List α :=
  (l.attach.insertionSort fun a b => cmp a.1 b.1 ≤ 0).map (·.1)

theorem sorts_sortBy : Sorts (sortBy (α := α)) := by
  intro cmp l orders
  have total : Std.Total fun a b : { e // e ∈ l } => cmp a.1 b.1 ≤ 0 := ⟨fun a b => by
    have := orders.opposite a.1 a.2 b.1 b.2
    omega⟩
  have trans : IsTrans { e // e ∈ l } fun a b => cmp a.1 b.1 ≤ 0 :=
    ⟨fun a b c => orders.trans a.1 a.2 b.1 b.2 c.1 c.2⟩
  refine ⟨?_, pairwise_map.mpr (pairwise_insertionSort _ l.attach)⟩
  simpa [sortBy] using (perm_insertionSort _ l.attach).map (·.1)

/- A routine that leaves what it cannot sort. -/
theorem exists_sorts (cmp : α → α → Int) (l : List α) :
    ∃ sort : (α → α → Int) → List α → List α, Sorts sort ∧ (¬ Orders cmp l → sort cmp l = l) := by
  classical
  refine ⟨fun cmp l => if Orders cmp l then sortBy cmp l else l, fun cmp l orders => ?_,
    fun none => if_neg none⟩
  beta_reduce
  rw [if_pos orders]
  exact sorts_sortBy cmp l orders

end E2fs.Comparator
