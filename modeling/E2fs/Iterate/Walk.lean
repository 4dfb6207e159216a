import E2fs.Iterate.BlockIterate
import E2fs.Punch.IndirectRange

/-! The calls that a mapping asks for, and the calls that the loops of the iterator make, as lists.
The two differ in the offsets of the pointers only. -/
namespace E2fs.Iterate
open BlockTree Punch Option Nat
open List hiding lookup

def around (flags : Flags) (c : Call) (inner : List Call) : List Call :=
  if flags.dataOnly then inner else if flags.depthTraverse then inner ++ [c] else c :: inner

variable {ref k : Nat}

section Visits

variable {n : Nat} (flags : Flags) (d : Disk n)

/-- The calls for what is below a pointer of level `k` that is stored at `ref` and `offset` and
whose first logical block is `base`. -/
def visits : Nat → Nat → Nat → Nat → Nat → List Call
  | 0, p, ref, offset, base => if p = 0 then [] else [⟨p, base, ref, offset⟩]
  | k + 1, p, ref, offset, base =>
    if p = 0 then []
    else around flags ⟨p, -(k + 1), ref, offset⟩
      ((d.read p).zipIdx.flatMap fun q => visits k q.1 p (4 * q.2) (base + q.2 * n ^ k))

/- The pointers of the inode have the levels 0 (twelve times), 1, 2 and 3. -/
def rootLevel (i : Nat) : Nat := i - 11

def rootBase (n i : Nat) : Nat := ((List.range i).map fun j => n ^ rootLevel j).sum

def fileVisits (iBlock : List Nat) : List Call :=
  iBlock.zipIdx.flatMap fun q => visits flags d (rootLevel q.2) q.1 0 q.2 (rootBase n q.2)

/- A row of pointers, with the offset kept in a variable that `step` moves on. -/
def walkRow (walk : Nat → Nat → Nat → Nat → List Call) (step : Nat → Nat) (width ref : Nat) :
    List Nat → Nat → Nat → List Call
  | [], _, _ => []
  | p :: ps, offset, base =>
    walk p ref offset base ++ walkRow walk step width ref ps (offset + step p) (base + width)

variable (step : Nat → Nat → Nat)

def walk : Nat → Nat → Nat → Nat → Nat → List Call
  | 0, p, ref, offset, base => if p = 0 then [] else [⟨p, base, ref, offset⟩]
  | k + 1, p, ref, offset, base =>
    if p = 0 then []
    else around flags ⟨p, -(k + 1), ref, offset⟩
      (walkRow (walk k) (step k) (n ^ k) p (d.read p) 0 base)

/- The loops of the iterator: `offset` does not move on at a hole among pointers of level one and
more. -/
def codeStep (k p : Nat) : Nat := if k ≠ 0 ∧ p = 0 then 0 else 4

def codeVisits (iBlock : List Nat) : List Call :=
  walkRow (walk flags d codeStep 0) (fun _ => 1) 1 0 (iBlock.take 12) 0 0 ++
    walk flags d codeStep 1 (iBlock.getD 12 0) 0 12 12 ++
    walk flags d codeStep 2 (iBlock.getD 13 0) 0 13 (12 + n) ++
    walk flags d codeStep 3 (iBlock.getD 14 0) 0 14 (12 + n + n * n)

variable {flags d step}

@[simp]
theorem walk_hole (k ref offset base : Nat) : walk flags d step k 0 ref offset base = [] := by
  cases k <;> simp [walk]

theorem walkRow_eq_zipIdx (f : Nat → Nat → Nat → Nat → List Call) (s width ref base : Nat)
    (ps : List Nat) (i : Nat) : walkRow f (fun _ => s) width ref ps (s * i) (base + i * width) =
      (ps.zipIdx i).flatMap fun q => f q.1 ref (s * q.2) (base + q.2 * width) := by
  induction ps generalizing i with
  | nil => rfl
  | cons p ps ih =>
    have next := ih (i + 1)
    rw [mul_succ, succ_mul, ← add_assoc] at next
    rw [walkRow, next, zipIdx_cons, flatMap_cons]

theorem visits_eq_walk (k p ref offset base : Nat) :
    visits flags d k p ref offset base = walk flags d (fun _ _ => 4) k p ref offset base := by
  induction k generalizing p ref offset base with
  | zero => rfl
  | succ k ih =>
    have row := walkRow_eq_zipIdx (walk flags d (fun _ _ => 4) k) 4 (n ^ k) p base (d.read p) 0
    rw [Nat.mul_zero, Nat.zero_mul, add_zero] at row
    simp only [visits, walk, row, ih]

theorem walkRow_length {f g : Nat → Nat → Nat → Nat → List Call} {s t : Nat → Nat} {width : Nat}
    (same : ∀ p o o' b, (f p ref o b).length = (g p ref o' b).length) (ps : List Nat)
    (o o' b : Nat) :
    (walkRow f s width ref ps o b).length = (walkRow g t width ref ps o' b).length := by
  induction ps generalizing o o' b with
  | nil => rfl
  | cons p ps ih => rw [walkRow, walkRow, length_append, length_append, same p o o' b, ih]

theorem walk_length (s t : Nat → Nat → Nat) (k p ref o o' b : Nat) :
    (walk flags d s k p ref o b).length = (walk flags d t k p ref o' b).length := by
  induction k generalizing p ref o o' b with
  | zero =>
    simp only [walk]
    split <;> rfl
  | succ k ih =>
    have rows : (walkRow (walk flags d s k) (s k) (n ^ k) p (d.read p) 0 b).length =
        (walkRow (walk flags d t k) (t k) (n ^ k) p (d.read p) 0 b).length :=
      walkRow_length (fun q o o' b => ih q p o o' b) (d.read p) 0 0 b
    simp only [walk, around]
    split
    · rfl
    · split
      · exact rows
      · split <;> simp [rows]

end Visits

/-! ### Data blocks -/

/- The logical and physical numbers in the calls for data blocks. -/
def dataOf (calls : List Call) : List (Int × Nat) :=
  calls.filterMap fun c => if 0 ≤ c.blockcnt then some (c.blockcnt, c.blk) else none

/- The blocks that `f` maps among the first `m`, numbered from `base` on. -/
def mappedBlocks (f : Nat → Nat) (base m : Nat) : List (Int × Nat) :=
  (List.range m).filterMap fun r => if f r = 0 then none else some (((base + r : Nat) : Int), f r)

theorem dataOf_append (xs ys : List Call) : dataOf (xs ++ ys) = dataOf xs ++ dataOf ys :=
  filterMap_append

theorem mappedBlocks_add (f : Nat → Nat) (base a b : Nat) : mappedBlocks f base (a + b) =
    mappedBlocks f base a ++ mappedBlocks (fun r => f (a + r)) (base + a) b := by
  simp only [mappedBlocks, range_add, filterMap_append, filterMap_map, Function.comp_def, add_assoc]

theorem mappedBlocks_congr {f g : Nat → Nat} {m : Nat} (same : ∀ r < m, f r = g r) (base : Nat) :
    mappedBlocks f base m = mappedBlocks g base m := by
  refine filterMap_congr fun r inside => ?_
  rw [same r (mem_range.mp inside)]

theorem mappedBlocks_hole (base m : Nat) : mappedBlocks (fun _ => 0) base m = [] := by
  simp [mappedBlocks]

theorem mem_mappedBlocks {f : Nat → Nat} {m : Nat} {l : Int} {p : Nat} :
    (l, p) ∈ mappedBlocks f 0 m ↔ ∃ r < m, l = r ∧ f r = p ∧ p ≠ 0 := by
  simp only [mappedBlocks, mem_filterMap, mem_range, zero_add]
  constructor
  · rintro ⟨r, inside, eq⟩
    split at eq
    · cases eq
    · rename_i nonzero
      cases eq
      exact ⟨r, inside, rfl, rfl, nonzero⟩
  · rintro ⟨r, inside, rfl, rfl, nonzero⟩
    exact ⟨r, inside, if_neg nonzero⟩

theorem mappedBlocks_increasing (f : Nat → Nat) (base m : Nat) :
    (mappedBlocks f base m).Pairwise fun x y => x.1 < y.1 := by
  refine List.Pairwise.filterMap _ (fun r s lt x hx y hy => ?_) (pairwise_lt_range (n := m))
  split at hx
  · cases hx
  · split at hy
    · cases hy
    · cases hx
      cases hy
      exact Int.ofNat_lt.mpr (Nat.add_lt_add_left lt base)

theorem dataOf_around (flags : Flags) (k p ref offset : Nat) (inner : List Call) :
    dataOf (around flags ⟨p, -(k + 1), ref, offset⟩ inner) = dataOf inner := by
  have negative : ¬ 0 ≤ -((k : Int) + 1) := by omega
  have own : dataOf [⟨p, -(k + 1), ref, offset⟩] = [] := filterMap_cons_none (if_neg negative)
  unfold around
  split
  · rfl
  · split
    · rw [dataOf_append, own, append_nil]
    · rw [← singleton_append, dataOf_append, own, nil_append]

section Data

variable {n : Nat} {flags : Flags} {d : Disk n} {step : Nat → Nat → Nat}

theorem dataOf_walkRow {f : Nat → Nat → Nat → Nat → List Call} {s : Nat → Nat}
    (pos : 0 < n) (below : ∀ p o b, dataOf (f p ref o b) = mappedBlocks (lookup d k p) b (n ^ k))
    (ps : List Nat) (o b : Nat) :
    dataOf (walkRow f s (n ^ k) ref ps o b) =
      mappedBlocks (entriesLookup d k ps) b (ps.length * n ^ k) := by
  induction ps generalizing o b with
  | nil => simp [walkRow, dataOf, mappedBlocks]
  | cons p ps ih =>
    rw [walkRow, dataOf_append, below, ih, length_cons, succ_mul, add_comm (ps.length * n ^ k),
      mappedBlocks_add]
    congr 1
    · refine mappedBlocks_congr (fun r inside => ?_) b
      rw [entriesLookup_cons d k p ps r pos, if_pos inside]
    · refine mappedBlocks_congr (fun r _ => ?_) _
      rw [entriesLookup_cons d k p ps _ pos, if_neg (by omega), Nat.add_sub_cancel_left]

/- Whatever the offsets are, the data blocks below a pointer are called in order. -/
theorem dataOf_walk (pos : 0 < n) (k p ref o b : Nat) :
    dataOf (walk flags d step k p ref o b) = mappedBlocks (lookup d k p) b (n ^ k) := by
  induction k generalizing p ref o b with
  | zero =>
    by_cases hole : p = 0 <;> simp [walk, hole, dataOf, mappedBlocks, lookup]
  | succ k ih =>
    by_cases hole : p = 0
    · subst hole
      rw [walk_hole, mappedBlocks_congr (fun r _ => lookup_zero d (k + 1) r), mappedBlocks_hole]
      rfl
    · rw [walk, if_neg hole, dataOf_around, dataOf_walkRow pos (fun q o b => ih q p o b),
        d.length_read, pow_succ, mul_comm n]
      exact mappedBlocks_congr (fun r _ => (lookup_succ d k p r hole).symm) b

theorem dataOf_codeVisits (pos : 0 < n) (iBlock : List Nat) (full : iBlock.length = 15) :
    dataOf (codeVisits flags d iBlock) =
      mappedBlocks (bmapWalk d iBlock) 0 (12 + n + n * n + n * n * n) := by
  have direct :
    dataOf (walkRow (walk flags d codeStep 0) (fun _ => 1) (n ^ 0) 0 (iBlock.take 12) 0 0) =
      mappedBlocks (entriesLookup d 0 (iBlock.take 12)) 0 ((iBlock.take 12).length * n ^ 0) :=
    dataOf_walkRow pos (fun p o b => dataOf_walk pos 0 p 0 o b) (iBlock.take 12) 0 0
  rw [pow_zero] at direct
  rw [codeVisits, dataOf_append, dataOf_append, dataOf_append, direct, dataOf_walk pos,
    dataOf_walk pos, dataOf_walk pos,
    mappedBlocks_add, mappedBlocks_add, mappedBlocks_add, length_take, full, pow_one, pow_two,
    pow_three,
    ← mul_assoc, zero_add, zero_add, zero_add]
  -- the four segments of the inode, as `ext2fs_bmap2` tells them apart
  congr 1
  · congr 1
    · congr 1
      · refine mappedBlocks_congr (fun r inside => ?_) 0
        have inside : r < 12 := inside
        simp [entriesLookup, lookup, bmapWalk, inside]
      · refine mappedBlocks_congr (fun r inside => ?_) 12
        rw [lookup_one, bmapWalk, if_neg (by omega), Nat.add_sub_cancel_left, if_pos inside]
    · refine mappedBlocks_congr (fun r inside => ?_) (12 + n)
      rw [lookup_two, bmapWalk, if_neg (by omega), Nat.add_assoc, Nat.add_sub_cancel_left,
        if_neg (by omega), Nat.add_sub_cancel_left, if_pos inside]
  · refine mappedBlocks_congr (fun r _ => ?_) (12 + n + n * n)
    rw [lookup_three, bmapWalk, if_neg (by omega), Nat.add_assoc, Nat.add_assoc,
      Nat.add_sub_cancel_left,
      if_neg (by omega), Nat.add_sub_cancel_left, if_neg (by omega), Nat.add_sub_cancel_left]

end Data

/-! ### Offsets -/

section Offsets

variable {n : Nat} {flags : Flags} {d : Disk n}

/-- Below a pointer of level `k`, no block of pointers of level one and more has a hole before a
pointer. -/
def HolesLast (d : Disk n) : Nat → Nat → Prop
  | 0, _ => True
  | k + 1, p => p = 0 ∨
    ((k = 0 ∨ (d.read p).Pairwise fun q r => q = 0 → r = 0) ∧ ∀ q ∈ d.read p, HolesLast d k q)

section

variable (all : flags.dataOnly = false)
include all

theorem around_inj {c c' : Call} {xs ys : List Call} : around flags c xs = around flags c' ys ↔
    c = c' ∧ xs = ys := by
  simp only [around, all, Bool.false_eq_true, if_false]
  split
  · simp [and_comm]
  · exact cons_eq_cons

theorem walkRow_behind (ps : List Nat) (o o' b : Nat) (lt : o < o') :
    walkRow (walk flags d codeStep (k + 1)) (codeStep (k + 1)) (n ^ (k + 1)) ref ps o b =
      walkRow (walk flags d (fun _ _ => 4) (k + 1)) (fun _ => 4) (n ^ (k + 1)) ref ps o' b ↔
      ∀ q ∈ ps, q = 0 := by
  induction ps generalizing o o' b with
  | nil => simp [walkRow]
  | cons p ps ih =>
    by_cases hole : p = 0
    · subst hole
      rw [walkRow, walkRow, walk_hole, walk_hole, nil_append, nil_append, ih]
      · simp
      · simp [codeStep]
        omega
    · rw [walkRow, walkRow, append_eq_append_iff_of_size_eq_left (walk_length _ _ _ _ _ _ _ _)]
      simp only [walk, if_neg hole]
      rw [around_inj all]
      simp only [Call.mk.injEq, forall_mem_cons]
      omega

theorem walkRow_eq_iff
    (below : ∀ p o b,
      walk flags d codeStep (k + 1) p ref o b = walk flags d (fun _ _ => 4) (k + 1) p ref o b ↔
      HolesLast d (k + 1) p) (ps : List Nat) (o b : Nat) :
    walkRow (walk flags d codeStep (k + 1)) (codeStep (k + 1)) (n ^ (k + 1)) ref ps o b =
      walkRow (walk flags d (fun _ _ => 4) (k + 1)) (fun _ => 4) (n ^ (k + 1)) ref ps o b ↔
    (ps.Pairwise fun q r => q = 0 → r = 0) ∧ ∀ q ∈ ps, HolesLast d (k + 1) q := by
  induction ps generalizing o b with
  | nil => simp [walkRow]
  | cons p ps ih =>
    rw [pairwise_cons, forall_mem_cons]
    by_cases hole : p = 0
    · subst hole
      rw [walkRow, walkRow, walk_hole, walk_hole, nil_append, nil_append,
        walkRow_behind all ps _ _ _ (by simp [codeStep])]
      constructor
      · intro zero
        refine ⟨⟨fun q hq _ => zero q hq, ?_⟩, .inl rfl, fun q hq => .inl (zero q hq)⟩
        exact pairwise_of_forall_mem_list fun q _ r hr _ => zero r hr
      · rintro ⟨⟨zero, -⟩, -⟩ q hq
        exact zero q hq rfl
    · rw [walkRow, walkRow, append_eq_append_iff_of_size_eq_left (walk_length _ _ _ _ _ _ _ _),
        below]
      have step : codeStep (k + 1) p = 4 := by simp [codeStep, hole]
      rw [step, ih]
      tauto

theorem walk_eq_iff (k p ref o b : Nat) :
    walk flags d codeStep k p ref o b = walk flags d (fun _ _ => 4) k p ref o b ↔
    HolesLast d k p := by
  induction k generalizing p ref o b with
  | zero => simp [walk, HolesLast]
  | succ k ih =>
    by_cases hole : p = 0
    · simp [hole, HolesLast]
    simp only [walk, HolesLast, hole, if_false, false_or]
    rw [around_inj all]
    cases k with
    | zero =>
      have step : codeStep 0 = fun _ => 4 := by
        funext q
        simp [codeStep]
      simp only [step, HolesLast, true_and, implies_true, true_or, and_self, iff_true]
      rfl
    | succ k =>
      rw [walkRow_eq_iff all fun q o b => ih q p o b]
      simp

end

theorem walkRow_congr {f g : Nat → Nat → Nat → Nat → List Call} {s t : Nat → Nat} {width : Nat}
    (same : ∀ p o o' b, f p ref o b = g p ref o' b) (ps : List Nat) (o o' b : Nat) :
    walkRow f s width ref ps o b = walkRow g t width ref ps o' b := by
  induction ps generalizing o o' b with
  | nil => rfl
  | cons p ps ih => rw [walkRow, walkRow, same p o o' b, ih]

theorem walk_dataOnly (only : flags.dataOnly = true) (k p ref o o' b : Nat) :
    walk flags d codeStep (k + 1) p ref o b = walk flags d (fun _ _ => 4) (k + 1) p ref o' b := by
  induction k generalizing p ref o o' b with
  | zero =>
    have step : codeStep 0 = fun _ => 4 := by
      funext q
      simp [codeStep]
    simp only [walk, around, only, step, if_true]
  | succ k ih =>
    rw [walk, walk, around, around, if_pos only, if_pos only]
    rw [walkRow_congr (fun q o o' b => ih q p o o' b) (d.read p) 0 0 b]

theorem rootBase_direct {i : Nat} (direct : i ≤ 12) : rootBase n i = i := by
  have ones : ∀ j ∈ List.range i, n ^ rootLevel j = 1 := by
    intro j inside
    have level : rootLevel j = 0 := Nat.sub_eq_zero_of_le (by have := mem_range.mp inside; omega)
    rw [level, pow_zero]
  rw [rootBase, map_congr_left ones]
  simp

theorem rootBase_succ (i : Nat) : rootBase n (i + 1) = rootBase n i + n ^ rootLevel i := by
  simp [rootBase, range_succ]

theorem fileVisits_eq {iBlock : List Nat} (full : iBlock.length = 15) : fileVisits flags d iBlock =
    walkRow (walk flags d (fun _ _ => 4) 0) (fun _ => 1) 1 0 (iBlock.take 12) 0 0 ++
      walk flags d (fun _ _ => 4) 1 (iBlock.getD 12 0) 0 12 12 ++
      walk flags d (fun _ _ => 4) 2 (iBlock.getD 13 0) 0 13 (12 + n) ++
      walk flags d (fun _ _ => 4) 3 (iBlock.getD 14 0) 0 14 (12 + n + n * n) := by
  have tail : iBlock.drop 12 = [iBlock.getD 12 0, iBlock.getD 13 0, iBlock.getD 14 0] := by
    refine ext_getElem (by simp [full]) fun i inside _ => ?_
    have lt : i < 3 := by simpa [full] using inside
    interval_cases i <;> simp [full]
  have direct : ((iBlock.take 12).zipIdx.flatMap fun q =>
      visits flags d (rootLevel q.2) q.1 0 q.2 (rootBase n q.2)) =
      walkRow (walk flags d (fun _ _ => 4) 0) (fun _ => 1) 1 0 (iBlock.take 12) 0 0 := by
    refine Eq.trans (flatMap_congr fun q mem => ?_)
      (walkRow_eq_zipIdx (walk flags d (fun _ _ => 4) 0) 1 1 0 0 (iBlock.take 12) 0).symm
    have lt : q.2 < 12 := by
      have := snd_lt_of_mem_zipIdx mem
      rw [length_take] at this
      omega
    have level : rootLevel q.2 = 0 := Nat.sub_eq_zero_of_le (by omega)
    rw [level, rootBase_direct (le_of_lt lt), visits_eq_walk, one_mul, mul_one, zero_add]
  have base13 : rootBase n 13 = 12 + n := by
    rw [rootBase_succ, rootBase_direct (le_refl 12), rootLevel, pow_one]
  have base14 : rootBase n 14 = 12 + n + n * n := by rw [rootBase_succ, base13, rootLevel, pow_two]
  have whole : iBlock.zipIdx = (iBlock.take 12).zipIdx ++ (iBlock.drop 12).zipIdx 12 := by
    conv_lhs => rw [← take_append_drop 12 iBlock, zipIdx_append, length_take, full]
    rfl
  rw [fileVisits, whole, flatMap_append, direct, tail]
  simp only [zipIdx_cons, zipIdx_nil, flatMap_cons, flatMap_nil, append_nil, visits_eq_walk,
    base13, base14, rootBase_direct (le_refl 12), append_assoc]
  rfl

theorem codeVisits_eq_iff (iBlock : List Nat) (full : iBlock.length = 15) :
    codeVisits flags d iBlock = fileVisits flags d iBlock ↔
      flags.dataOnly = true ∨ ∀ i p, iBlock[i]? = some p → HolesLast d (rootLevel i) p := by
  have level : walk flags d codeStep 0 = walk flags d (fun _ _ => 4) 0 := rfl
  rw [fileVisits_eq full, codeVisits, level]
  cases only : flags.dataOnly with
  | true =>
    rw [walk_dataOnly only 0 _ _ _ 12, walk_dataOnly only 1 _ _ _ 13, walk_dataOnly only 2 _ _ _ 14]
    simp
  | false =>
    rw [append_eq_append_iff_of_size_eq_right (walk_length _ _ _ _ _ _ _ _),
      append_eq_append_iff_of_size_eq_right (walk_length _ _ _ _ _ _ _ _), append_right_inj,
      walk_eq_iff only, walk_eq_iff only, walk_eq_iff only]
    constructor
    · rintro ⟨⟨ind, dind⟩, tind⟩
      refine .inr fun i p found => ?_
      have inside := (List.getElem?_eq_some_iff.mp found).1
      have value : iBlock.getD i 0 = p := by rw [getD_eq_getElem?_getD, found, getD_some]
      rw [← value]
      by_cases direct : i < 12
      · have level : rootLevel i = 0 := Nat.sub_eq_zero_of_le (by omega)
        rw [level]
        exact trivial
      · have cases : i = 12 ∨ i = 13 ∨ i = 14 := by omega
        rcases cases with rfl | rfl | rfl
        · exact ind
        · exact dind
        · exact tind
    · rintro (no | all)
      · cases no
      · have entry : ∀ i < 15, HolesLast d (rootLevel i) (iBlock.getD i 0) := by
          intro i inside
          have found : iBlock[i]? = some iBlock[i] := List.getElem?_eq_getElem (by omega)
          rw [getD_eq_getElem?_getD, found, getD_some]
          exact all i _ found
        exact ⟨⟨entry 12 (by decide), entry 13 (by decide)⟩, entry 14 (by decide)⟩

end Offsets

end E2fs.Iterate
