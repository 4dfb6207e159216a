import E2fs.Bitmap.GenericSound

/-! The range calls at the granularity of clusters: a range of blocks inside the
bitmap is marked or unmarked as the set of clusters that contain one of them. -/
namespace E2fs.Generic
open Word Bitmap Rb Nat Set

def clustersOf (clusterBits : Nat) (blocks : Set Nat) : Set Nat :=
  (fun block => block >>> clusterBits) '' blocks

theorem Ico_one (p : Nat) : Ico p (p + 1) = {p} := by
  ext q
  rw [mem_Ico, mem_singleton_iff]
  omega

theorem clustersOf_one (clusterBits block : Nat) :
    clustersOf clusterBits (Ico block (block + 1)) = {block >>> clusterBits} := by
  rw [clustersOf, Ico_one, image_singleton]

theorem clustersOf_union (clusterBits : Nat) (s t : Set Nat) :
    clustersOf clusterBits (s ∪ t) = clustersOf clusterBits s ∪ clustersOf clusterBits t :=
  image_union _ _ _

/-- A range of blocks that the bitmap covers, end included, and whose end rounded up
to a cluster is still a 64-bit number. -/
structure Covers (b : Bounds) (clusterBits block num : Nat) : Prop where
  filled : 0 < num
  short : num < 2 ^ 32
  low : b.start ≤ block >>> clusterBits
  high : (block + num - 1) >>> clusterBits ≤ b.stop
  word : block + num + 2 ^ clusterBits ≤ 2 ^ 64

section Cells

variable {bm : GenericBitmap64} {block num : Nat}

/-- The clusters from the one of the first block to the one of the last. -/
def WholeRange (bm : GenericBitmap64) (block num : Nat) : Prop :=
  clusterRange bm block num = (block >>> bm.clusterBits,
    (block + num - 1) >>> bm.clusterBits + 1 - block >>> bm.clusterBits)

/-- The number of clusters is that of the range with its end rounded up. -/
def Rounded (bm : GenericBitmap64) (block num : Nat) : Prop :=
  (clusterRange bm block num).2 = ((block + num + (2 ^ bm.clusterBits - 1)) / 2 ^ bm.clusterBits -
    block / 2 ^ bm.clusterBits) % 2 ^ 32

theorem Rounded.whole (rounded : Rounded bm block num) (filled : 0 < num) (short : num < 2 ^ 32) :
    WholeRange bm block num := by
  refine Prod.ext rfl (Eq.trans rounded ?_)
  simp only [shiftRight_eq_div_pow]
  have pos : 0 < 2 ^ bm.clusterBits := Nat.two_pow_pos _
  generalize 2 ^ bm.clusterBits = w at *
  have last : (block + num + (w - 1)) / w = (block + num - 1) / w + 1 := by
    rw [show block + num + (w - 1) = block + num - 1 + w by omega, add_div_right _ pos]
  -- a run of blocks meets no more clusters than it has blocks
  have few : (block + num - 1) / w ≤ block / w + (num - 1) := by
    calc (block + num - 1) / w = (block + (num - 1)) / w := by congr 1; omega
      _ ≤ (block + (num - 1) * w) / w :=
        Nat.div_le_div_right (Nat.add_le_add_left (Nat.le_mul_of_pos_right _ pos) _)
      _ = block / w + (num - 1) := add_mul_div_right _ _ pos
  rw [last]
  exact mod_eq_of_lt (by omega)

theorem Covers.whole (range : Covers bm.bounds bm.clusterBits block num) :
    WholeRange bm block num := by
  obtain ⟨filled, short, -, -, word⟩ := range
  refine Rounded.whole ?_ filled short
  simp only [Rounded, clusterRange, shiftRight_eq_div_pow]
  have pos : 0 < 2 ^ bm.clusterBits := Nat.two_pow_pos _
  generalize 2 ^ bm.clusterBits = w at *
  have inner : add64 block num = block + num := add64_eq (by omega)
  have order : block / w ≤ (block + num + (w - 1)) / w := Nat.div_le_div_right (by omega)
  have below := Nat.div_le_self (block + num + (w - 1)) w
  rw [inner, add64_eq (by omega), sub64_eq order (by omega)]

/- When the rounded end wraps to 0, the number of clusters, cut to 32 bits, comes out
all the same. -/
theorem clusterRange_rounded (cells : bm.clusterBits ≤ 30) (word : block < 2 ^ 64) :
    Rounded bm block num := by
  have large : 2 ^ 64 = 2 ^ bm.clusterBits * (2 ^ 32 * 2 ^ (32 - bm.clusterBits)) := by
    rw [← pow_add, ← pow_add]
    congr 1
    omega
  simp only [Rounded, clusterRange, shiftRight_eq_div_pow]
  generalize 2 ^ bm.clusterBits = w at *
  generalize 2 ^ (32 - bm.clusterBits) = k at *
  have order : block / w ≤ (block + num + (w - 1)) / w := Nat.div_le_div_right (by omega)
  have first := (Nat.div_le_self block w).trans_lt word
  have cut : add64 (add64 block num) (w - 1) / w = (block + num + (w - 1)) / w % (2 ^ 32 * k) := by
    unfold add64
    rw [mod_add_mod, large, mod_mul_right_div_self]
  generalize (block + num + (w - 1)) / w = last at *
  have sum := mod_add_div last (2 ^ 32 * k)
  rw [mul_assoc] at sum
  generalize k * (last / _) = q at sum
  unfold sub64
  omega

theorem clusterRange_empty (cells : bm.clusterBits ≤ 30) (word : block < 2 ^ 64) :
    clusterRange bm block 0 =
      (block >>> bm.clusterBits, if block % 2 ^ bm.clusterBits = 0 then 0 else 1) := by
  refine Prod.ext rfl (Eq.trans (clusterRange_rounded cells word) ?_)
  have pos : 0 < 2 ^ bm.clusterBits := Nat.two_pow_pos _
  generalize 2 ^ bm.clusterBits = w at *
  rw [add_zero, Nat.add_div pos, div_eq_of_lt (show w - 1 < w by omega),
    mod_eq_of_lt (show w - 1 < w by omega)]
  split_ifs <;> omega

section

variable (filled : 0 < num) (whole : WholeRange bm block num)
include filled whole

theorem WholeRange.covers : Ico (clusterRange bm block num).1
        ((clusterRange bm block num).1 + (clusterRange bm block num).2) =
      clustersOf bm.clusterBits (Ico block (block + num)) := by
  rw [whole]
  simp only [clustersOf, shiftRight_eq_div_pow]
  have pos : 0 < 2 ^ bm.clusterBits := Nat.two_pow_pos _
  generalize 2 ^ bm.clusterBits = w at *
  ext c
  simp only [mem_Ico, mem_image]
  constructor
  · rintro ⟨low, high⟩
    -- the first block of the cluster that is in the range
    refine ⟨max block (c * w), ⟨le_max_left _ _, ?_⟩, ?_⟩
    · have : c * w ≤ block + num - 1 := by
        rw [← Nat.le_div_iff_mul_le pos]
        omega
      exact max_lt (by omega) (by omega)
    · rcases Nat.lt_or_ge block (c * w) with h | h
      · rw [max_eq_right h.le, Nat.mul_div_cancel _ pos]
      · rw [max_eq_left h]
        exact le_antisymm low ((Nat.le_div_iff_mul_le pos).mpr h)
  · rintro ⟨p, ⟨low, high⟩, rfl⟩
    have above : block / w ≤ p / w := Nat.div_le_div_right low
    have below : p / w ≤ (block + num - 1) / w := Nat.div_le_div_right (by omega)
    omega

theorem WholeRange.not_outside (low : bm.bounds.start ≤ block >>> bm.clusterBits)
    (high : (block + num - 1) >>> bm.clusterBits ≤ bm.bounds.stop) :
    ¬ outside bm.bounds (clusterRange bm block num).1 (clusterRange bm block num).2 := by
  have order : block >>> bm.clusterBits ≤ (block + num - 1) >>> bm.clusterBits := by
    rw [shiftRight_eq_div_pow, shiftRight_eq_div_pow]
    exact Nat.div_le_div_right (by omega)
  rw [whole]
  unfold outside add64 sub64
  omega

end

theorem markRange2_bits (alloc : Allocator) (sound : bm.Sound)
    (range : Covers bm.bounds bm.clusterBits block num) :
    let out := ext2fsMarkBlockBitmapRange2 alloc bm block num
    out.bounds = bm.bounds ∧ out.clusterBits = bm.clusterBits ∧ out.Sound ∧
      out.bits = bm.bits ∪ clustersOf bm.clusterBits (Ico block (block + num)) := by
  obtain ⟨bounds, cells, sound', bits⟩ :=
    bmapStep_spec alloc bm (.markRange block num) sound range.word
  simp only [opBits] at bits
  rw [if_neg (range.whole.not_outside range.filled range.low range.high),
    range.whole.covers range.filled] at bits
  exact ⟨bounds, cells, sound', bits⟩

theorem unmarkRange2_bits (alloc : Allocator) (sound : bm.Sound)
    (range : Covers bm.bounds bm.clusterBits block num) :
    let out := ext2fsUnmarkBlockBitmapRange2 alloc bm block num
    out.bounds = bm.bounds ∧ out.clusterBits = bm.clusterBits ∧ out.Sound ∧
      out.bits = bm.bits \ clustersOf bm.clusterBits (Ico block (block + num)) := by
  obtain ⟨bounds, cells, sound', bits⟩ :=
    bmapStep_spec alloc bm (.unmarkRange block num) sound range.word
  simp only [opBits] at bits
  rw [if_neg (range.whole.not_outside range.filled range.low range.high),
    range.whole.covers range.filled] at bits
  exact ⟨bounds, cells, sound', bits⟩

/-- A range of blocks that lies in the bitmap; an empty one lies in every bitmap. -/
structure Lies (bm : GenericBitmap64) (block num : Nat) : Prop where
  short : num < 2 ^ 32
  word : block < 2 ^ 64
  has : ∀ p ∈ Set.Ico block (block + num), bm.Has p

/-- The two updates touch exactly the clusters of the range, and the test answers for
them. -/
def RangeExact (alloc : Allocator) (bm : GenericBitmap64) (block num : Nat) : Prop :=
  let cells := clustersOf bm.clusterBits (Set.Ico block (block + num))
  (ext2fsMarkBlockBitmapRange2 alloc bm block num).bits = bm.bits ∪ cells ∧
    (ext2fsUnmarkBlockBitmapRange2 alloc bm block num).bits = bm.bits \ cells ∧
    ((ext2fsTestBlockBitmapRange2 bm block num).2 ≠ 0 ↔ ∀ c ∈ cells, c ∉ bm.bits)

-- `1 << cluster_bits` is an `int`
theorem Lies.whole (lies : Lies bm block num) (filled : 0 < num) (cells : bm.clusterBits ≤ 30) :
    WholeRange bm block num ∧
    ¬ outside bm.bounds (clusterRange bm block num).1 (clusterRange bm block num).2 ∧
      InBitmap bm.bounds (clusterRange bm block num).1 (clusterRange bm block num).2 := by
  have first := lies.has block ⟨le_refl _, by omega⟩
  have last := lies.has (block + num - 1) ⟨by omega, by omega⟩
  have whole := (clusterRange_rounded cells lies.word).whole filled lies.short
  have few : (clusterRange bm block num).2 < 2 ^ 32 := mod_lt _ (by decide)
  have padded := bm.bounds.stop_le
  refine ⟨whole, whole.not_outside filled first.1 last.2, ?_, ?_, ?_, few⟩ <;>
    rw [whole] <;> dsimp only <;> obtain ⟨low, high⟩ := first <;> have := last.2 <;> omega

section

variable (alloc : Allocator) (sound : bm.Sound)
include sound

theorem range_exact_of_filled (lies : Lies bm block num) (filled : 0 < num)
    (cells : bm.clusterBits ≤ 30) : RangeExact alloc bm block num := by
  obtain ⟨whole, inside, within⟩ := lies.whole filled cells
  have covers := whole.covers filled
  simp only [RangeExact, ext2fsMarkBlockBitmapRange2, ext2fsUnmarkBlockBitmapRange2, if_neg inside,
    ← covers]
  refine ⟨(markBmapExtent_bits sound within).2, (unmarkBmapExtent_bits sound within).2, ?_⟩
  by_cases one : num = 1
  · -- the test of one block goes through the single-bit call
    subst one
    have answer := (test_reports bm block sound).2.2.2.2
    have has := lies.has block ⟨le_refl _, by omega⟩
    simp only [GenericBitmap64.IsSet, has, true_and] at answer
    simp [ext2fsTestBlockBitmapRange2, covers, clustersOf_one, ← not_iff_not.mpr answer]
  · simp only [ext2fsTestBlockBitmapRange2, if_neg one, if_neg inside]
    exact testClearBmapExtent_bits sound within

theorem range_exact_of_idle (idle : outside bm.bounds (clusterRange bm block 0).1
      (clusterRange bm block 0).2 ∨ (clusterRange bm block 0).2 = 0) :
      RangeExact alloc bm block 0 := by
  simp only [RangeExact, ext2fsMarkBlockBitmapRange2, ext2fsUnmarkBlockBitmapRange2,
    ext2fsTestBlockBitmapRange2, clustersOf, add_zero, Ico_self, image_empty]
  by_cases out : outside bm.bounds (clusterRange bm block 0).1 (clusterRange bm block 0).2
  · simp [out, einval]
  have none := idle.resolve_left out
  have padded := bm.bounds.stop_le
  have within : InBitmap bm.bounds (clusterRange bm block 0).1 (clusterRange bm block 0).2 := by
    rw [none] at out ⊢
    simp only [outside] at out
    exact ⟨by omega, by omega, by omega, by decide⟩
  have marked := (@markBmapExtent_bits alloc _ _ _ _ sound within).2
  have unmarked := (@unmarkBmapExtent_bits alloc _ _ _ _ sound within).2
  have tested := testClearBmapExtent_bits sound within
  simp only [none, add_zero, Ico_self] at marked unmarked tested out
  simp only [none, out]
  exact ⟨marked, unmarked, tested⟩

/-- Of the ranges that lie in the bitmap, the calls are wrong only on an empty one that
begins inside a cluster of the bitmap. The byte-mask test of the bit array is the test of
its bits one by one. -/
theorem range_exact_iff (cells : bm.clusterBits ≤ 30) (lies : Lies bm block num) :
    (RangeExact alloc bm block num ↔ (num = 0 → 2 ^ bm.clusterBits ∣ block ∨ ¬ bm.Has block)) ∧
      ∀ bp arg len, bm.priv = .bitarray bp → InBitmap bm.bounds arg len →
        (Ba.baTestClearBmapExtent bm.bounds bp arg len ≠ 0 ↔
          ∀ p ∈ Set.Ico arg (arg + len), Ba.baTestBmap bm.bounds bp p = 0) := by
  refine ⟨⟨?_, ?_⟩, ?_⟩
  · rintro ⟨marked, unmarked, -⟩ rfl
    by_contra inside
    simp only [not_or, not_not] at inside
    obtain ⟨inner, has⟩ := inside
    have one : Lies bm block 1 := ⟨by decide, lies.word, fun p inside => by
      rwa [show p = block by have := inside.1; have := inside.2; omega]⟩
    have same : clusterRange bm block 0 = clusterRange bm block 1 := by
      rw [clusterRange_empty cells lies.word, if_neg (mt dvd_of_mod_eq_zero inner),
        (one.whole one_pos cells).1, Nat.add_sub_cancel, Nat.add_sub_cancel_left]
    obtain ⟨marked', unmarked', -⟩ := range_exact_of_filled alloc sound one one_pos cells
    -- the block's cluster would be both set and clear before the calls
    simp only [ext2fsMarkBlockBitmapRange2, ext2fsUnmarkBlockBitmapRange2, same]
      at marked unmarked marked' unmarked'
    rw [marked', clustersOf_one] at marked
    rw [unmarked', clustersOf_one] at unmarked
    simp only [add_zero, Ico_self, clustersOf, image_empty, union_empty, sdiff_empty]
      at marked unmarked
    have set : block >>> bm.clusterBits ∈ bm.bits := marked ▸ .inr rfl
    exact (unmarked.symm ▸ set : _ ∈ bm.bits \ _).2 rfl
  · intro aligned
    rcases Nat.eq_zero_or_pos num with rfl | filled
    · refine range_exact_of_idle alloc sound ?_
      rcases aligned rfl with dvd | absent
      · rw [clusterRange_empty cells lies.word, if_pos (mod_eq_zero_of_dvd dvd)]
        exact .inr rfl
      · left
        simp only [GenericBitmap64.Has, not_and_or, not_le] at absent
        exact absent.imp_right .inl
    · exact range_exact_of_filled alloc sound lies filled cells
  · rintro bp arg len - ⟨low, top, high, -⟩
    rw [Ba.baTestClearBmapExtent_bits low top high]
    refine forall₂_congr fun p inside => ?_
    rw [← Ba.baTestBmap_bits (by exact low.trans inside.1) (by have := inside.2; omega), not_not]

end

end Cells

def fourBlocks : GenericBitmap64 := ⟨smallBounds, 2, .bitarray ⟨List.replicate 4 0, 0⟩⟩

theorem fourBlocks_sound : fourBlocks.Sound := by
  simp [GenericBitmap64.Sound, fourBlocks, Private.Sound, Ba.Sized, smallBounds]

/- Blocks 5 to 8 lie in clusters 1 and 2. -/
theorem range_exact_on_fourBlocks :
    Lies fourBlocks 5 4 ∧ RangeExact bumpAllocator fourBlocks 5 4 := by
  have lies : Lies fourBlocks 5 4 := ⟨by decide, by decide, fun p ⟨low, high⟩ => by
    interval_cases p <;> exact ⟨by decide, by decide⟩⟩
  exact ⟨lies, (range_exact_iff bumpAllocator fourBlocks_sound (by decide) lies).1.mpr nofun⟩

/- No blocks from block 5 on: cluster 1 is marked. -/
theorem empty_range_marks_cluster :
    Lies fourBlocks 5 0 ∧ ¬ RangeExact bumpAllocator fourBlocks 5 0 ∧
      (ext2fsTestGenericBmap (ext2fsMarkBlockBitmapRange2 bumpAllocator fourBlocks 5 0) 5).2 ≠
        0 := by
  refine ⟨⟨by decide, by decide, fun p ⟨low, high⟩ => by omega⟩,
    fun ⟨marked, _⟩ => ?_, by decide +kernel⟩
  have bits := (bmapStep_spec bumpAllocator fourBlocks (.markRange 5 0) fourBlocks_sound
    (by norm_num [BmapOp.Fits, fourBlocks])).2.2.2
  have range : clusterRange fourBlocks 5 0 = (1, 1) := by decide +kernel
  simp only [opBits, range] at bits
  rw [if_neg (by decide +kernel)] at bits
  have set := Set.ext_iff.mp (marked.symm.trans bits) 1
  simp [clustersOf, fourBlocks, smallBounds, GenericBitmap64.bits, Private.bits, Ba.bits,
    Bytes.bitAt, Bytes.byteAt] at set

end E2fs.Generic
