import Mathlib.Tactic

/-! Trees of pointer blocks on a disk. A block holds `n` pointers and zero stands for
a hole. A pointer of level `k + 1` leads to a block of pointers of level `k`; a pointer
of level zero is a data block. -/
namespace E2fs.BlockTree
open List Nat

/-- A disk of blocks of `n` pointers. -/
structure Disk (n : Nat) where
  read : Nat → List Nat
  length_read : ∀ b, (read b).length = n

variable {n : Nat}

def Disk.write (d : Disk n) (b : Nat) (buf : List Nat) : Disk n where
  read x := if x = b then (buf ++ List.replicate n 0).take n else d.read x
  length_read x := by
    split
    · simp
    · exact d.length_read x

theorem Disk.read_write_same (d : Disk n) (b : Nat) (buf : List Nat) (len : buf.length = n) :
    (d.write b buf).read b = buf := by
  simp [Disk.write, ← len]

theorem Disk.read_write_other (d : Disk n) (b : Nat) (buf : List Nat) {x : Nat} (ne : x ≠ b) :
    (d.write b buf).read x = d.read x := by
  simp [Disk.write, ne]

/- All the blocks below a pointer, and those among them that hold pointers. -/
def blocks (d : Disk n) : Nat → Nat → List Nat
  | 0, p => if p = 0 then [] else [p]
  | k + 1, p => if p = 0 then [] else p :: (d.read p).flatMap (blocks d k)

def indirects (d : Disk n) : Nat → Nat → List Nat
  | 0, _ => []
  | k + 1, p => if p = 0 then [] else p :: (d.read p).flatMap (indirects d k)

/- The data block at a position below a pointer, zero for a hole. -/
def lookup (d : Disk n) : Nat → Nat → Nat → Nat
  | 0, p, _ => p
  | k + 1, p, r => if p = 0 then 0 else lookup d k ((d.read p).getD (r / n ^ k) 0) (r % n ^ k)

def entriesLookup (d : Disk n) (k : Nat) (ps : List Nat) (r : Nat) : Nat :=
  lookup d k (ps.getD (r / n ^ k) 0) (r % n ^ k)

section

variable (d : Disk n)
include d

@[simp] theorem blocks_zero (k : Nat) : blocks d k 0 = [] := by
  cases k <;> simp [blocks]

@[simp] theorem indirects_zero (k : Nat) : indirects d k 0 = [] := by
  cases k <;> simp [indirects]

@[simp] theorem lookup_zero (k r : Nat) : lookup d k 0 r = 0 := by
  cases k <;> simp [lookup]

theorem indirects_subset_blocks (k p : Nat) : indirects d k p ⊆ blocks d k p := by
  induction k generalizing p with
  | zero => simp [indirects]
  | succ k ih =>
    by_cases hole : p = 0
    · simp [hole]
    · simp only [indirects, blocks, if_neg hole]
      refine cons_subset_cons p ?_
      intro b hb
      obtain ⟨q, hq, below⟩ := mem_flatMap.mp hb
      exact mem_flatMap.mpr ⟨q, hq, ih q below⟩

theorem lookup_mem_blocks (k p r : Nat) (mapped : lookup d k p r ≠ 0) :
    lookup d k p r ∈ blocks d k p := by
  induction k generalizing p r with
  | zero => simpa [lookup, blocks] using mapped
  | succ k ih =>
    by_cases hole : p = 0
    · simp [hole] at mapped
    simp only [lookup, if_neg hole] at mapped ⊢
    have below := ih _ _ mapped
    have entry : (d.read p).getD (r / n ^ k) 0 ∈ d.read p := by
      rw [getD_eq_getElem?_getD] at mapped ⊢
      cases found : (d.read p)[r / n ^ k]? with
      | none => simp [found] at mapped
      | some q => exact mem_of_getElem? found
    simp only [blocks, if_neg hole]
    exact mem_cons_of_mem _ (mem_flatMap.mpr ⟨_, entry, below⟩)

theorem lookup_succ (k p r : Nat) (ne : p ≠ 0) :
    lookup d (k + 1) p r = entriesLookup d k (d.read p) r := by
  simp [lookup, entriesLookup, ne]

theorem entriesLookup_cons (k p : Nat) (ps : List Nat) (r : Nat) (pos : 0 < n) :
    entriesLookup d k (p :: ps) r =
      if r < n ^ k then lookup d k p r else entriesLookup d k ps (r - n ^ k) := by
  have width : 0 < n ^ k := Nat.pow_pos pos
  unfold entriesLookup
  split_ifs with inside
  · simp [div_eq_of_lt inside, mod_eq_of_lt inside]
  · have le : n ^ k ≤ r := Nat.le_of_not_lt inside
    rw [div_eq_sub_div width le, mod_eq_sub_mod le, getD_cons_succ]

theorem entriesLookup_of_zero (k : Nat) (ps : List Nat) (r : Nat)
    (zero : ∀ p ∈ ps, p = 0) : entriesLookup d k ps r = 0 := by
  have hole : ps.getD (r / n ^ k) 0 = 0 := by
    rw [getD_eq_getElem?_getD]
    cases found : ps[r / n ^ k]? with
    | none => rfl
    | some q => exact zero q (mem_of_getElem? found)
  rw [entriesLookup, hole, lookup_zero]

end

theorem lookup_congr (d e : Disk n) (k p r : Nat)
    (agree : ∀ b ∈ indirects d k p, e.read b = d.read b) : lookup e k p r = lookup d k p r := by
  induction k generalizing p r with
  | zero => rfl
  | succ k ih =>
    by_cases hole : p = 0
    · simp [hole]
    simp only [indirects, if_neg hole] at agree
    simp only [lookup, if_neg hole, agree p (by simp)]
    rw [getD_eq_getElem?_getD]
    rcases found : (d.read p)[r / n ^ k]? with _ | q
    · simp
    refine ih _ _ fun b hb => agree b (mem_cons_of_mem _ ?_)
    exact mem_flatMap.mpr ⟨q, mem_of_getElem? found, hb⟩

theorem entriesLookup_congr (d e : Disk n) (k : Nat) (ps : List Nat) (r : Nat)
    (agree : ∀ b ∈ ps.flatMap (indirects d k), e.read b = d.read b) :
    entriesLookup e k ps r = entriesLookup d k ps r := by
  unfold entriesLookup
  rw [getD_eq_getElem?_getD]
  rcases found : ps[r / n ^ k]? with _ | q
  · simp
  exact lookup_congr d e k q _ fun b hb =>
    agree b (mem_flatMap.mpr ⟨q, mem_of_getElem? found, hb⟩)

theorem row_index_unique {f : Nat → List Nat} {ps : List Nat} {i j q q' b : Nat}
    (nodup : (ps.flatMap f).Nodup) (hi : ps[i]? = some q) (hj : ps[j]? = some q')
    (hq : b ∈ f q) (hq' : b ∈ f q') : i = j := by
  have apart := pairwise_iff_getElem.mp (nodup_flatMap.mp nodup).2
  obtain ⟨li, rfl⟩ := List.getElem?_eq_some_iff.mp hi
  obtain ⟨lj, rfl⟩ := List.getElem?_eq_some_iff.mp hj
  rcases lt_trichotomy i j with lt | eq | gt
  · exact absurd hq' (apart i j li lj lt hq)
  · exact eq
  · exact absurd hq (apart j i lj li gt hq')

section

variable (d : Disk n) (k : Nat) (ps : List Nat) (r : Nat)
include d k ps r

theorem entriesLookup_entry (mapped : entriesLookup d k ps r ≠ 0) :
    ∃ q, ps[r / n ^ k]? = some q ∧ entriesLookup d k ps r = lookup d k q (r % n ^ k) ∧
      entriesLookup d k ps r ∈ blocks d k q := by
  unfold entriesLookup at mapped ⊢
  rw [getD_eq_getElem?_getD] at mapped ⊢
  rcases found : ps[r / n ^ k]? with _ | q
  · simp [found] at mapped
  rw [found] at mapped
  exact ⟨q, rfl, rfl, lookup_mem_blocks d k q _ mapped⟩

theorem entriesLookup_mem_blocks (mapped : entriesLookup d k ps r ≠ 0) :
    entriesLookup d k ps r ∈ ps.flatMap (blocks d k) := by
  obtain ⟨q, found, _, mem⟩ := entriesLookup_entry d k ps r mapped
  exact mem_flatMap.mpr ⟨q, mem_of_getElem? found, mem⟩

/- In a tree no data block is a pointer block, and no data block has two positions.
Each fact goes from the pointers of a level to the rows of that level, and from the
rows to the pointers of the next one. -/
theorem row_data_not_indirect
    (entry : ∀ p r, (blocks d k p).Nodup → lookup d k p r ≠ 0 → lookup d k p r ∉ indirects d k p)
    (nodup : (ps.flatMap (blocks d k)).Nodup) (mapped : entriesLookup d k ps r ≠ 0) :
    entriesLookup d k ps r ∉ ps.flatMap (indirects d k) := by
  intro hb
  obtain ⟨q, found, eq, mem⟩ := entriesLookup_entry d k ps r mapped
  obtain ⟨q', hq', below⟩ := mem_flatMap.mp hb
  obtain ⟨j, found'⟩ := mem_iff_getElem?.mp hq'
  have same := row_index_unique nodup found found' mem (indirects_subset_blocks d k q' below)
  rw [← same, found] at found'
  cases found'
  rw [eq] at below mapped
  exact entry q _ ((nodup_flatMap.mp nodup).1 q (mem_of_getElem? found)) mapped below

end

theorem data_not_indirect (d : Disk n) (k p r : Nat) (nodup : (blocks d k p).Nodup)
    (mapped : lookup d k p r ≠ 0) : lookup d k p r ∉ indirects d k p := by
  induction k generalizing p r with
  | zero => simp [indirects]
  | succ k ih =>
    have ne : p ≠ 0 := by
      rintro rfl
      simp at mapped
    simp only [blocks, if_neg ne, nodup_cons] at nodup
    rw [lookup_succ d k p r ne] at mapped ⊢
    simp only [indirects, if_neg ne, mem_cons, not_or]
    refine ⟨fun eq => nodup.1 ?_, row_data_not_indirect d k _ r ih nodup.2 mapped⟩
    have mem := entriesLookup_mem_blocks d k _ r mapped
    rwa [eq] at mem

theorem row_position_unique (d : Disk n) (k : Nat) (ps : List Nat) (r r' : Nat) (pos : 0 < n)
    (entry : ∀ p r r', (blocks d k p).Nodup → r < n ^ k → r' < n ^ k → lookup d k p r ≠ 0 →
      lookup d k p r = lookup d k p r' → r = r')
    (nodup : (ps.flatMap (blocks d k)).Nodup) (mapped : entriesLookup d k ps r ≠ 0)
    (same : entriesLookup d k ps r = entriesLookup d k ps r') : r = r' := by
  have width : 0 < n ^ k := Nat.pow_pos pos
  obtain ⟨q, found, eq, mem⟩ := entriesLookup_entry d k ps r mapped
  obtain ⟨q', found', eq', mem'⟩ := entriesLookup_entry d k ps r' (same ▸ mapped)
  have index := row_index_unique nodup found found' mem (same ▸ mem')
  rw [← index, found] at found'
  cases found'
  have below := entry q (r % n ^ k) (r' % n ^ k)
    ((nodup_flatMap.mp nodup).1 q (mem_of_getElem? found)) (mod_lt _ width)
    (mod_lt _ width) (eq ▸ mapped) (by rw [← eq, same, eq'])
  rw [← div_add_mod r (n ^ k), ← div_add_mod r' (n ^ k), index, below]

theorem position_unique (d : Disk n) (k p r r' : Nat) (pos : 0 < n) (nodup : (blocks d k p).Nodup)
    (inside : r < n ^ k) (inside' : r' < n ^ k) (mapped : lookup d k p r ≠ 0)
    (same : lookup d k p r = lookup d k p r') : r = r' := by
  induction k generalizing p r r' with
  | zero =>
    rw [pow_zero] at inside inside'
    omega
  | succ k ih =>
    have ne : p ≠ 0 := by
      rintro rfl
      simp at mapped
    simp only [blocks, if_neg ne, nodup_cons] at nodup
    rw [lookup_succ d k p r ne, lookup_succ d k p r' ne] at same
    rw [lookup_succ d k p r ne] at mapped
    exact row_position_unique d k _ r r' pos ih nodup.2 mapped same

end E2fs.BlockTree
