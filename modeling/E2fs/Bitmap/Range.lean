import E2fs.Bitmap.RbRange
import E2fs.Bitmap.Agreement

/-! Reading and writing whole stretches of a bitmap, as is done with the bitmap
blocks of every group. -/
namespace E2fs.Generic
open Word Bytes Bitmap Ba Rb List

/-- The stretches a bitmap is imported and exported by: on a byte boundary of a
bitmap that begins in the first byte, and inside the bitmap. The backends index them
by `int`. -/
structure Stretch (b : Bounds) (start num : Nat) : Prop where
  first_byte : b.start < 8
  aligned : ∃ k, start = b.start + 8 * k
  inside : start + num ≤ b.realEnd + 1
  short : num < 2 ^ 31

section

variable (alloc : Allocator) (bm : GenericBitmap64) (start num : Nat) (input : Buffer)

def GetsExactly : Prop :=
  ∀ out : Buffer, (num + 7) / 8 ≤ out.length → ∀ i < num,
    (bitAt (ext2fsGetGenericBmapRange bm start num out) i = true ↔ start + i ∈ bm.bits)

def SetsExactly : Prop :=
  ∀ p, bm.bounds.start ≤ p → p ≤ bm.bounds.realEnd →
    (p ∈ (ext2fsSetGenericBmapRange alloc bm start num input).bits ↔
      if start ≤ p ∧ p < start + num then bitAt input (p - start) = true else p ∈ bm.bits)

def RoundTrips : Prop :=
  ∀ out : Buffer, (num + 7) / 8 ≤ out.length → ∀ i < num,
    bitAt (ext2fsGetGenericBmapRange (ext2fsSetGenericBmapRange alloc bm start num input)
      start num out) i = bitAt input i

/-- Export writes the bits of the range, import replaces them and nothing else, and
importing and then exporting gives back the input. -/
def TransfersExactly : Prop :=
  GetsExactly bm start num ∧
    (num % 8 = 0 → SetsExactly alloc bm start num input ∧ RoundTrips alloc bm start num input)

end

section Array

variable {b : Bounds} {bp : BaPrivate} {start num : Nat}

section

variable (sized : Sized b bp) (range : Stretch b start num)
include sized range

theorem array_room :
    ∃ k, start = b.start + 8 * k ∧ start / 8 = k ∧ k + (num + 7) / 8 ≤ bp.bitarray.length := by
  obtain ⟨k, rfl⟩ := range.aligned
  have := range.first_byte
  have := range.inside
  refine ⟨k, rfl, by omega, ?_⟩
  rw [sized]
  omega

theorem baGetBmapRange_spec (out : Buffer) (room : (num + 7) / 8 ≤ out.length) {i : Nat}
    (hi : i < num) :
    bitAt (baGetBmapRange bp start num out) i = true ↔ start + i ∈ Ba.bits b bp := by
  obtain ⟨k, rfl, byte, fits⟩ := array_room sized range
  have inside := range.inside
  have length : ((bp.bitarray.drop k).take ((num + 7) / 8)).length = (num + 7) / 8 := by
    rw [length_take, length_drop]
    omega
  have copied :
      bitAt ((bp.bitarray.drop k).take ((num + 7) / 8)) i = bitAt bp.bitarray (8 * k + i) := by
    have short : i / 8 < (num + 7) / 8 := by omega
    unfold bitAt byteAt
    rw [getD_eq_getElem?_getD, getD_eq_getElem?_getD, getElem?_take_of_lt short,
      getElem?_drop, show (8 * k + i) / 8 = k + i / 8 by omega,
      show (8 * k + i) % 8 = i % 8 by omega]
  rw [baGetBmapRange, byte, bitAt_memcpy (by omega), length, if_pos (by omega), Nat.mul_zero,
    Nat.sub_zero, copied]
  simp only [Ba.bits, Set.mem_ofPred_eq]
  rw [show b.start + 8 * k + i - b.start = 8 * k + i by omega]
  exact ⟨fun h => ⟨by omega, by omega, h⟩, fun h => h.2.2⟩

theorem baSetBmapRange_spec (whole : num % 8 = 0) {input : Buffer}
    (enough : (num + 7) / 8 ≤ input.length) : Sized b (baSetBmapRange bp start num input) ∧
      ∀ p, b.start ≤ p → p ≤ b.realEnd → (p ∈ Ba.bits b (baSetBmapRange bp start num input) ↔
        if start ≤ p ∧ p < start + num then bitAt input (p - start) = true
        else p ∈ Ba.bits b bp) := by
  obtain ⟨k, rfl, byte, fits⟩ := array_room sized range
  have length : (input.take ((num + 7) / 8)).length = (num + 7) / 8 := by
    rw [length_take]
    omega
  rw [← length] at fits
  refine ⟨?_, fun p low high => ?_⟩
  · rw [Sized, baSetBmapRange, byte]
    exact (length_memcpy fits).trans sized
  · simp only [Ba.bits, baSetBmapRange, Set.mem_ofPred_eq, low, high, true_and, byte]
    rw [bitAt_memcpy fits, length]
    by_cases inside : b.start + 8 * k ≤ p ∧ p < b.start + 8 * k + num
    · rw [if_pos (by omega), if_pos inside]
      have short : (p - b.start - 8 * k) / 8 < (num + 7) / 8 := by omega
      unfold bitAt byteAt
      rw [getD_eq_getElem?_getD, getD_eq_getElem?_getD, getElem?_take_of_lt short,
        show p - b.start - 8 * k = p - (b.start + 8 * k) by omega]
    · rw [if_neg (by omega), if_neg inside]

end

end Array

theorem array_transfers (alloc : Allocator) {b : Bounds} {bp : BaPrivate}
    {clusterBits start num : Nat} (sized : Sized b bp) (range : Stretch b start num)
    {input : Buffer} (enough : (num + 7) / 8 ≤ input.length) :
    TransfersExactly alloc ⟨b, clusterBits, .bitarray bp⟩ start num input := by
  refine ⟨baGetBmapRange_spec sized range, fun whole => ?_⟩
  obtain ⟨sized', sets⟩ := baSetBmapRange_spec sized range whole enough
  refine ⟨sets, fun out room i hi => ?_⟩
  have get := baGetBmapRange_spec sized' range out room hi
  obtain ⟨k, rfl⟩ := range.aligned
  have inside := range.inside
  rw [sets _ (by omega) (by omega), if_pos (by omega), Nat.add_sub_cancel_left] at get
  exact Bool.eq_iff_iff.mpr get

/- A tree without extents holds no bit, and one with extents does. -/
theorem root_ne_nil_iff {b : Bounds} {bp : RbPrivate} (sound : Rb.Sound b.size bp) :
    bp.root ≠ .nil ↔ (Rb.bits b bp).Nonempty := by
  constructor
  · intro filled
    obtain ⟨e, mem⟩ := exists_mem_of_ne_nil _ (Rbtree.inorder_ne_nil filled)
    have pos := sound.apart.filled e mem
    refine ⟨b.start + e.start, by omega, e, mem, ?_⟩
    rw [Nat.add_sub_cancel_left]
    exact ⟨le_refl _, by omega⟩
  · rintro ⟨p, -, hit⟩ empty
    simp [RbPrivate.extents, empty] at hit

/-- The tree moves stretches exactly when it holds a bit (or the stretch is empty)
and no bit that is set would have to be cleared. -/
theorem tree_transfers_iff (alloc : Allocator) {b : Bounds} {bp : RbPrivate}
    {clusterBits start num : Nat} (sound : Rb.Sound b.size bp) (range : Stretch b start num)
    (input : Buffer) :
    TransfersExactly alloc ⟨b, clusterBits, .rbtree bp⟩ start num input ↔
    (num = 0 ∨ bp.root ≠ .nil) ∧
        (num % 8 = 0 → ∀ i < num, start + i ∈ Rb.bits b bp → bitAt input i = true) := by
  have inside := range.inside
  have low : b.start ≤ start := by
    obtain ⟨k, rfl⟩ := range.aligned
    omega
  have below : ∀ i, b.start ≤ start + i := fun i => Nat.le_add_right_of_le low
  have above : ∀ i < num, start + i ≤ b.realEnd := fun i hi => by omega
  obtain ⟨sound', same⟩ :=
    @rbSetBmapRange_spec alloc b start num input low inside range.short bp sound
  have gets : ∀ {bp : RbPrivate}, Rb.Sound b.size bp → num = 0 ∨ bp.root ≠ .nil →
      GetsExactly ⟨b, clusterBits, .rbtree bp⟩ start num := by
    intro bp sound filled out room i hi
    exact rbGetBmapRange_spec sound low (by omega) inside (filled.resolve_left (by omega)) out
      room i hi
  constructor
  · rintro ⟨get, set⟩
    refine ⟨?_, fun whole i hi hit => ?_⟩
    · -- an empty tree leaves the buffer as it was
      by_contra empty
      push Not at empty
      have h := get (replicate ((num + 7) / 8) 0xFF#8) (by simp) 0 (by omega)
      simp only [ext2fsGetGenericBmapRange, GenericBitmap64.bits, getBmapRange, rbGetBmapRange,
        empty.2, if_true, Private.bits, Rb.bits, Set.mem_ofPred_eq, RbPrivate.extents,
        Rbtree.inorder_nil, covered_nil, and_false, iff_false] at h
      apply h
      rw [bitAt, byteAt_replicate _ (by omega)]
      decide
    · have h := (set whole).1 (start + i) (below i) (above i hi)
      rw [if_pos (by omega), Nat.add_sub_cancel_left] at h
      refine h.mp ?_
      exact same.ge (.inl hit)
  · rintro ⟨filled, keeps⟩
    refine ⟨gets sound filled, fun whole => ?_⟩
    have sets : SetsExactly alloc ⟨b, clusterBits, .rbtree bp⟩ start num input := by
      intro p hp hr
      change p ∈ Rb.bits b _ ↔ _
      simp only [same, Set.mem_union, ahead, Set.mem_ofPred_eq, add_zero]
      by_cases here : start ≤ p ∧ p < start + num
      · rw [if_pos here]
        have keep := keeps whole (p - start) (by omega)
        rw [Nat.add_sub_cancel' here.1] at keep
        exact ⟨fun h => h.elim keep fun h => h.2.2, fun h => .inr ⟨here.1, here.2, h⟩⟩
      · rw [if_neg here]
        exact ⟨fun h => h.elim id fun h => absurd ⟨h.1, h.2.1⟩ here, .inl⟩
    refine ⟨sets, fun out room i hi => ?_⟩
    have filled' : num = 0 ∨ (rbSetBmapRange alloc b bp start num input).root ≠ .nil := by
      refine filled.imp id fun h => ?_
      rw [root_ne_nil_iff sound', same]
      exact ((root_ne_nil_iff sound).mp h).mono Set.subset_union_left
    have get := gets sound' filled' out room i hi
    have set := sets (start + i) (below i) (above i hi)
    rw [if_pos (by omega), Nat.add_sub_cancel_left] at set
    exact Bool.eq_iff_iff.mpr (get.trans set)

/-- Stretches are moved exactly on every bit array. On a tree this is so if and only
if it holds a bit (or the stretch is empty) and every bit set in the stretch is also
set in the input. -/
theorem transfers_exactly_iff (alloc : Allocator) (bm : GenericBitmap64) (start num : Nat)
    (input : Buffer) (sound : bm.Sound) (range : Stretch bm.bounds start num)
    (enough : (num + 7) / 8 ≤ input.length) : TransfersExactly alloc bm start num input ↔
      ∀ bp, bm.priv = .rbtree bp → (num = 0 ∨ bp.root ≠ .nil) ∧
        (num % 8 = 0 → ∀ i < num, start + i ∈ bm.bits → bitAt input i = true) := by
  obtain ⟨b, clusterBits, priv⟩ := bm
  cases priv with
  | bitarray bp =>
    refine ⟨fun _ _ h => (nomatch h), fun _ => ?_⟩
    exact array_transfers alloc sound range enough
  | rbtree bp =>
    rw [tree_transfers_iff alloc sound range input]
    exact ⟨fun h _ same => by cases same; exact h, fun h => h bp rfl⟩

theorem transfers_exactly_on_fresh_array : Stretch smallBounds 0 16 ∧
      (TransfersExactly bumpAllocator freshPair.array 0 16 [0x0F#8, 0xFF#8] ↔
        ∀ bp, freshPair.array.priv = .rbtree bp → (16 = 0 ∨ bp.root ≠ .nil) ∧
          (16 % 8 = 0 → ∀ i < 16, 0 + i ∈ freshPair.array.bits →
            bitAt [0x0F#8, 0xFF#8] i = true)) := by
  have range : Stretch smallBounds 0 16 := ⟨by decide, ⟨0, rfl⟩, by decide, by decide⟩
  exact ⟨range, transfers_exactly_iff bumpAllocator freshPair.array 0 16 _
    freshPair_same.array_sound range (by decide)⟩

def treeOfThree : RbPrivate := (rbMarkBmap bumpAllocator smallBounds rbAllocPrivateData 3).1

def mapOfThree : GenericBitmap64 := ⟨smallBounds, 0, .rbtree treeOfThree⟩

/- An empty tree exports whatever the buffer held, and importing zeros over bit 3
leaves it set. -/
theorem tree_transfers_differ :
    (ext2fsGetGenericBmapRange freshPair.tree 0 8 [0xFF#8] = [0xFF#8] ∧
      ¬ TransfersExactly bumpAllocator freshPair.tree 0 8 [0#8]) ∧
    (3 ∈ (ext2fsSetGenericBmapRange bumpAllocator mapOfThree 0 8 [0#8]).bits ∧
      ¬ TransfersExactly bumpAllocator mapOfThree 0 8 [0#8]) := by
  have range : Stretch smallBounds 0 8 := ⟨by decide, ⟨0, rfl⟩, by decide, by decide⟩
  have three : InBitmap smallBounds 3 1 := by decide
  obtain ⟨sound, same⟩ := rbInsertExtent_bits bumpAllocator (sound_empty smallBounds.size) three
  have set : 3 ∈ Rb.bits smallBounds treeOfThree := by
    rw [treeOfThree, rbMarkBmap, same]
    exact .inr ⟨le_refl _, by decide⟩
  refine ⟨⟨by decide +kernel, fun h => ?_⟩, ?_, fun h => ?_⟩
  · obtain ⟨filled, -⟩ := (tree_transfers_iff bumpAllocator (sound_empty _) range _).mp h
    exact filled.elim (by decide) fun ne => ne rfl
  · have kept := (@rbSetBmapRange_spec bumpAllocator smallBounds 0 8 [0#8] (le_refl _) (by decide)
      (by decide) treeOfThree sound).2
    exact kept.ge (.inl set)
  · have keeps :=
      ((tree_transfers_iff bumpAllocator sound range _).mp h).2 (by decide) 3 (by decide)
    exact absurd (keeps set) (by decide)

end E2fs.Generic
