import E2fs.Bitmap.BaSound
import E2fs.Bitmap.RbSearch
import E2fs.Bitmap.Generic

/-! The two backends under the generic operations: what they agree on, and the
calls on which they do not. -/
namespace E2fs.Generic
open Word Bytes Bitmap Ba Rb First Run Set Nat

def Private.Sound (b : Bounds) : Private → Prop
  | .bitarray bp => Ba.Sized b bp
  | .rbtree bp => Rb.Sound b.size bp

def Private.bits (b : Bounds) : Private → Set Nat
  | .bitarray bp => Ba.bits b bp
  | .rbtree bp => Rb.bits b bp

/- The bits of a bitmap are numbered by cluster. -/
def GenericBitmap64.bits (bm : GenericBitmap64) : Set Nat := bm.priv.bits bm.bounds

def GenericBitmap64.Sound (bm : GenericBitmap64) : Prop := bm.priv.Sound bm.bounds

section Backend

variable {alloc : Allocator} {b : Bounds} {priv : Private} {arg num : Nat}

theorem inBitmap_one (low : b.start ≤ arg) (high : arg ≤ b.realEnd) : InBitmap b arg 1 :=
  ⟨low, high, by omega, by decide⟩

section

variable (sound : priv.Sound b)
include sound

theorem markBmap_bits (low : b.start ≤ arg) (high : arg ≤ b.realEnd) :
    (markBmap alloc b priv arg).1.Sound b ∧
      (markBmap alloc b priv arg).1.bits b = priv.bits b ∪ Ico arg (arg + 1) ∧
      ((markBmap alloc b priv arg).2 ≠ 0 ↔ arg ∈ priv.bits b) := by
  cases priv with
  | bitarray bp => exact baMarkBmap_bits sound low high
  | rbtree bp =>
    have inside := inBitmap_one low high
    obtain ⟨sound', same⟩ := rbInsertExtent_bits alloc sound inside
    refine ⟨sound', same, ?_⟩
    have fits := relative_fits inside
    have old := (rbInsertExtent_spec b.size_lt alloc (arg - b.start) 1 bp sound one_pos fits).2.1
    rw [← relative inside] at old
    exact old.trans (by simp [Private.bits, Rb.bits, low, relative inside])

/- Both backends clear the bit. The array reports it; the tree also reports the
bit after it, because its sweep takes an adjacent extent for a hit. -/
theorem unmarkBmap_bits (low : b.start ≤ arg) (high : arg ≤ b.realEnd) :
    (unmarkBmap alloc b priv arg).1.Sound b ∧
      (unmarkBmap alloc b priv arg).1.bits b = priv.bits b \ Ico arg (arg + 1) ∧
      ((unmarkBmap alloc b priv arg).2 ≠ 0 ↔ arg ∈ priv.bits b ∨ ∃ bp, priv = .rbtree bp ∧
        arg + 1 ∈ priv.bits b) := by
  cases priv with
  | bitarray bp =>
    obtain ⟨sized, same, old⟩ := baUnmarkBmap_bits sound low high
    exact ⟨sized, same, old.trans (by simp [Private.bits])⟩
  | rbtree bp =>
    have inside := inBitmap_one low high
    obtain ⟨sound', same⟩ := rbRemoveExtent_bits alloc sound inside
    refine ⟨sound', same, ?_⟩
    have fits := relative_fits inside
    have old := (rbRemoveExtent_spec b.size_lt alloc (arg - b.start) 1 bp sound fits).2.1
    rw [← relative inside] at old
    refine old.trans ?_
    simp only [relative inside, Private.bits, Rb.bits, mem_ofPred_eq, Private.rbtree.injEq,
      exists_eq_left', low, true_and]
    clear old
    constructor
    · rintro ⟨p, covered, h1, h2⟩
      rcases lt_or_ge (arg - b.start) p with h | h
      · exact .inr ⟨by omega, by rwa [show arg + 1 - b.start = p by omega]⟩
      · exact .inl (by rwa [show arg - b.start = p by omega])
    · rintro (hit | ⟨-, hit⟩)
      · exact ⟨_, hit, le_refl _, by omega⟩
      · exact ⟨_, hit, by omega, by omega⟩

theorem markBmapExtent_bits (inside : InBitmap b arg num) :
    (markBmapExtent alloc b priv arg num).Sound b ∧
      (markBmapExtent alloc b priv arg num).bits b = priv.bits b ∪ Ico arg (arg + num) := by
  cases priv with
  | bitarray bp => exact baMarkBmapExtent_bits sound inside.1 inside.2.2.1
  | rbtree bp => exact rbInsertExtent_bits alloc sound inside

theorem unmarkBmapExtent_bits (inside : InBitmap b arg num) :
    (unmarkBmapExtent alloc b priv arg num).Sound b ∧
      (unmarkBmapExtent alloc b priv arg num).bits b = priv.bits b \ Ico arg (arg + num) := by
  cases priv with
  | bitarray bp => exact baUnmarkBmapExtent_bits sound inside.1 inside.2.2.1
  | rbtree bp => exact rbRemoveExtent_bits alloc sound inside

theorem testBmap_bits (low : b.start ≤ arg) (high : arg ≤ b.realEnd) :
    (testBmap b priv arg).1.Sound b ∧ (testBmap b priv arg).1.bits b = priv.bits b ∧
      ((testBmap b priv arg).2 ≠ 0 ↔ arg ∈ priv.bits b) := by
  cases priv with
  | bitarray bp => exact ⟨sound, rfl, baTestBmap_bits low high⟩
  | rbtree bp => exact rbTestBmap_bits sound (inBitmap_one low high)

theorem testClearBmapExtent_bits (inside : InBitmap b arg num) :
    testClearBmapExtent b priv arg num ≠ 0 ↔ ∀ p ∈ Ico arg (arg + num), p ∉ priv.bits b := by
  cases priv with
  | bitarray bp => exact baTestClearBmapExtent_bits inside.1 inside.2.1 inside.2.2.1
  | rbtree bp => exact rbTestClearBmapExtent_bits sound inside

end

end Backend

inductive BmapOp where
  | mark (arg : Nat)
  | unmark (arg : Nat)
  | markRange (block num : Nat)
  | unmarkRange (block num : Nat)

/- A block range does not run past the last 64-bit block number. -/
def BmapOp.Fits (clusterBits : Nat) : BmapOp → Prop
  | .mark _ | .unmark _ => True
  | .markRange block num | .unmarkRange block num => block + num + 2 ^ clusterBits ≤ 2 ^ 64

def bmapStep (alloc : Allocator) (bm : GenericBitmap64) : BmapOp → GenericBitmap64 × Nat
  | .mark arg => ext2fsMarkGenericBmap alloc bm arg
  | .unmark arg => ext2fsUnmarkGenericBmap alloc bm arg
  | .markRange block num => (ext2fsMarkBlockBitmapRange2 alloc bm block num, 0)
  | .unmarkRange block num => (ext2fsUnmarkBlockBitmapRange2 alloc bm block num, 0)

def GenericBitmap64.Has (bm : GenericBitmap64) (arg : Nat) : Prop :=
  bm.bounds.start ≤ arg >>> bm.clusterBits ∧ arg >>> bm.clusterBits ≤ bm.bounds.stop

def GenericBitmap64.IsSet (bm : GenericBitmap64) (arg : Nat) : Prop :=
  bm.Has arg ∧ arg >>> bm.clusterBits ∈ bm.bits

/- What a call does to the bits, whichever the backend. -/
def opBits (b : Bounds) (range : Nat → Nat → Nat × Nat) (clusterBits : Nat) (s : Set Nat) :
    BmapOp → Set Nat
  | .mark arg =>
    let c := arg >>> clusterBits
    if c < b.start ∨ c > b.stop then s else s ∪ Set.Ico c (c + 1)
  | .unmark arg =>
    let c := arg >>> clusterBits
    if c < b.start ∨ c > b.stop then s else s \ Set.Ico c (c + 1)
  | .markRange block num =>
    let r := range block num
    if outside b r.1 r.2 then s else s ∪ Set.Ico r.1 (r.1 + r.2)
  | .unmarkRange block num =>
    let r := range block num
    if outside b r.1 r.2 then s else s \ Set.Ico r.1 (r.1 + r.2)

theorem clusterRange_inside {bm : GenericBitmap64} {block num : Nat}
    (fits : block + num + 2 ^ bm.clusterBits ≤ 2 ^ 64)
    (inside : ¬ outside bm.bounds (clusterRange bm block num).1 (clusterRange bm block num).2) :
    InBitmap bm.bounds (clusterRange bm block num).1 (clusterRange bm block num).2 := by
  have cell : 0 < 2 ^ bm.clusterBits := Nat.two_pow_pos _
  have ends :
      add64 (add64 block num) (2 ^ bm.clusterBits - 1) = block + num + 2 ^ bm.clusterBits - 1 := by
    have inner : add64 block num = block + num := add64_eq (by omega)
    rw [inner, add64_eq (by omega)]
    omega
  have order :
      block >>> bm.clusterBits ≤ (block + num + 2 ^ bm.clusterBits - 1) >>> bm.clusterBits := by
    rw [shiftRight_eq_div_pow, shiftRight_eq_div_pow]
    exact Nat.div_le_div_right (by omega)
  have below : (block + num + 2 ^ bm.clusterBits - 1) >>> bm.clusterBits < 2 ^ 64 := by
    rw [shiftRight_eq_div_pow]
    exact lt_of_le_of_lt (Nat.div_le_self _ _) (by omega)
  simp only [clusterRange, ends] at inside ⊢
  rw [sub64_eq order below] at inside ⊢
  generalize (block + num + 2 ^ bm.clusterBits - 1) >>> bm.clusterBits = last at *
  generalize block >>> bm.clusterBits = first at *
  have short : (last - first) % 2 ^ 32 ≤ last - first := mod_le _ _
  have small : (last - first) % 2 ^ 32 < 2 ^ 32 := mod_lt _ (by decide)
  generalize (last - first) % 2 ^ 32 = n at *
  have padded := bm.bounds.stop_le
  simp only [outside, not_or, not_lt] at inside
  obtain ⟨low, high, top⟩ := inside
  rw [add64_eq (by omega)] at top
  refine ⟨low, by omega, ?_, small⟩
  rcases Nat.eq_zero_or_pos (first + n) with zero | pos
  · omega
  · rw [sub64_eq pos (by omega)] at top
    omega

section

variable (alloc : Allocator) (bm : GenericBitmap64)
include alloc bm

theorem bmapStep_spec (op : BmapOp) (sound : bm.Sound) (fits : op.Fits bm.clusterBits) :
    (bmapStep alloc bm op).1.bounds = bm.bounds ∧
      (bmapStep alloc bm op).1.clusterBits = bm.clusterBits ∧ (bmapStep alloc bm op).1.Sound ∧
      (bmapStep alloc bm op).1.bits =
        opBits bm.bounds (clusterRange bm) bm.clusterBits bm.bits op := by
  have padded := bm.bounds.stop_le
  cases op with
  | mark arg =>
    simp only [bmapStep, ext2fsMarkGenericBmap, opBits]
    split_ifs with inside
    · exact ⟨rfl, rfl, sound, rfl⟩
    · exact ⟨rfl, rfl, (markBmap_bits sound (by omega) (by omega)).imp_right And.left⟩
  | unmark arg =>
    simp only [bmapStep, ext2fsUnmarkGenericBmap, opBits]
    split_ifs with inside
    · exact ⟨rfl, rfl, sound, rfl⟩
    · exact ⟨rfl, rfl, (unmarkBmap_bits sound (by omega) (by omega)).imp_right And.left⟩
  | markRange block num =>
    simp only [bmapStep, ext2fsMarkBlockBitmapRange2, opBits]
    split_ifs with inside
    · exact ⟨rfl, rfl, sound, rfl⟩
    · exact ⟨rfl, rfl, markBmapExtent_bits sound (clusterRange_inside fits inside)⟩
  | unmarkRange block num =>
    simp only [bmapStep, ext2fsUnmarkBlockBitmapRange2, opBits]
    split_ifs with inside
    · exact ⟨rfl, rfl, sound, rfl⟩
    · exact ⟨rfl, rfl, unmarkBmapExtent_bits sound (clusterRange_inside fits inside)⟩

theorem mark_reports (arg : Nat) (sound : bm.Sound) : (ext2fsMarkGenericBmap alloc bm arg).2 ≠ 0 ↔
    bm.IsSet arg := by
  have padded := bm.bounds.stop_le
  simp only [ext2fsMarkGenericBmap, GenericBitmap64.IsSet, GenericBitmap64.Has]
  split_ifs with out
  · omega
  · rw [(@markBmap_bits alloc _ _ (arg >>> bm.clusterBits) sound (by omega) (by omega)).2.2]
    exact ⟨fun h => ⟨⟨by omega, by omega⟩, h⟩, fun h => h.2⟩

theorem unmark_reports (arg : Nat) (sound : bm.Sound) :
    (ext2fsUnmarkGenericBmap alloc bm arg).2 ≠ 0 ↔ bm.IsSet arg ∨
      (bm.Has arg ∧ ∃ bp, bm.priv = .rbtree bp ∧ (arg >>> bm.clusterBits) + 1 ∈ bm.bits) := by
  have padded := bm.bounds.stop_le
  simp only [ext2fsUnmarkGenericBmap, GenericBitmap64.IsSet, GenericBitmap64.Has]
  split_ifs with out
  · omega
  have has : bm.bounds.start ≤ arg >>> bm.clusterBits ∧
      arg >>> bm.clusterBits ≤ bm.bounds.stop := ⟨by omega, by omega⟩
  rw [(@unmarkBmap_bits alloc _ _ (arg >>> bm.clusterBits) sound has.1 (by omega)).2.2]
  simp only [has, and_self, true_and]
  rfl

end

theorem test_reports (bm : GenericBitmap64) (arg : Nat) (sound : bm.Sound) :
    let out := ext2fsTestGenericBmap bm arg
    out.1.bounds = bm.bounds ∧ out.1.clusterBits = bm.clusterBits ∧ out.1.Sound ∧
      out.1.bits = bm.bits ∧ (out.2 ≠ 0 ↔ bm.IsSet arg) := by
  have padded := bm.bounds.stop_le
  simp only [ext2fsTestGenericBmap, GenericBitmap64.IsSet, GenericBitmap64.Has]
  split_ifs with out
  · refine ⟨rfl, rfl, sound, rfl, ?_⟩
    omega
  · obtain ⟨sound', same, answer⟩ :=
      @testBmap_bits _ _ (arg >>> bm.clusterBits) sound (by omega) (by omega)
    exact ⟨rfl, rfl, sound', same, answer.trans ⟨fun h => ⟨⟨by omega, by omega⟩, h⟩, fun h => h.2⟩⟩

/- The range test answers for the clusters of the range; a range outside the bitmap
counts as clear. -/
theorem testRange2_reports (bm : GenericBitmap64) {block num : Nat} (sound : bm.Sound)
    (fits : block + num + 2 ^ bm.clusterBits ≤ 2 ^ 64) (several : num ≠ 1) :
    let out := ext2fsTestBlockBitmapRange2 bm block num
    let range := clusterRange bm block num
    out.1 = bm ∧ (out.2 ≠ 0 ↔ outside bm.bounds range.1 range.2 ∨
      ∀ c ∈ Ico range.1 (range.1 + range.2), c ∉ bm.bits) := by
  simp only [ext2fsTestBlockBitmapRange2, if_neg several]
  split_ifs with out
  · exact ⟨rfl, by simp [einval, out]⟩
  · have answer := testClearBmapExtent_bits sound (clusterRange_inside fits out)
    exact ⟨rfl, answer.trans (by simp only [out, false_or]; rfl)⟩

end E2fs.Generic
