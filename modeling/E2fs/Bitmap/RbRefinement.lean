import E2fs.Lib.Run
import E2fs.Bitmap.RbSound

/-! The tree backend as a set of positions: every run of its operations is the run
of the corresponding operations on a set. -/
namespace E2fs.Rb
open Word Bitmap Run Set

structure RbBitmap where
  bounds : Bounds
  priv : RbPrivate
  sound : Sound bounds.size priv

theorem sound_empty (size : Nat) : Sound size rbAllocPrivateData := by
  constructor <;> constructor <;> simp [rbAllocPrivateData, RbPrivate.extents]

def rbNewBmap (b : Bounds) : RbBitmap := ⟨b, rbAllocPrivateData, sound_empty b.size⟩

def bits (b : Bounds) (bp : RbPrivate) : Set Nat :=
  {p | b.start ≤ p ∧ Covered bp.extents (p - b.start)}

inductive RbOp where
  | mark (arg : Nat)
  | unmark (arg : Nat)
  | markExtent (arg num : Nat)
  | unmarkExtent (arg num : Nat)
  | test (arg : Nat)
  | testClearExtent (arg num : Nat)
  | clear
  deriving DecidableEq

/- The positions an operation is given lie in the bitmap; `num` is an `unsigned int`. -/
def InBitmap (b : Bounds) (arg num : Nat) : Prop :=
  b.start ≤ arg ∧ arg ≤ b.realEnd ∧ arg + num ≤ b.realEnd + 1 ∧ num < 2 ^ 32

instance (b : Bounds) (arg num : Nat) : Decidable (InBitmap b arg num) :=
  inferInstanceAs (Decidable (_ ∧ _))

def RbOp.Inside (b : Bounds) : RbOp → Prop
  | mark arg | unmark arg | test arg => InBitmap b arg 1
  | markExtent arg num | unmarkExtent arg num | testClearExtent arg num => InBitmap b arg num
  | clear => True

instance (b : Bounds) (op : RbOp) : Decidable (op.Inside b) :=
  match op with
  | .mark _ | .unmark _ | .test _ => inferInstanceAs (Decidable (InBitmap b _ 1))
  | .markExtent _ _ | .unmarkExtent _ _ | .testClearExtent _ _ =>
    inferInstanceAs (Decidable (InBitmap b _ _))
  | .clear => inferInstanceAs (Decidable True)

def rbStep (alloc : Allocator) (b : Bounds) (bp : RbPrivate) : RbOp → RbPrivate × Nat
  | .mark arg => rbMarkBmap alloc b bp arg
  | .unmark arg => rbUnmarkBmap alloc b bp arg
  | .markExtent arg num => (rbMarkBmapExtent alloc b bp arg num, 0)
  | .unmarkExtent arg num => (rbUnmarkBmapExtent alloc b bp arg num, 0)
  | .test arg => rbTestBmap b bp arg
  | .testClearExtent arg num => (bp, rbTestClearBmapExtent b bp arg num)
  | .clear => (rbClearBmap bp, 0)

def setStep (s : Set Nat) : RbOp → Set Nat
  | .mark arg => s ∪ Set.Ico arg (arg + 1)
  | .unmark arg => s \ Set.Ico arg (arg + 1)
  | .markExtent arg num => s ∪ Set.Ico arg (arg + num)
  | .unmarkExtent arg num => s \ Set.Ico arg (arg + num)
  | .test _ | .testClearExtent _ _ => s
  | .clear => ∅

section Positions

variable {b : Bounds} {arg num : Nat} {bp : RbPrivate}

theorem relative (inside : InBitmap b arg num) : sub64 arg b.start = arg - b.start :=
  sub64_eq inside.1 (lt_of_le_of_lt inside.2.1 b.realEnd_lt)

theorem relative_fits (inside : InBitmap b arg num) : arg - b.start + num ≤ b.size := by
  obtain ⟨low, -, high, -⟩ := inside
  unfold Bounds.size
  omega

theorem rbInsertExtent_bits (alloc : Allocator) (sound : Sound b.size bp)
    (inside : InBitmap b arg num) :
    Sound b.size (rbInsertExtent alloc (sub64 arg b.start) num bp).1 ∧
      bits b (rbInsertExtent alloc (sub64 arg b.start) num bp).1 = bits b bp ∪
      Ico arg (arg + num) := by
  rw [relative inside]
  rcases eq_zero_or_pos num with rfl | pos
  · simpa [rbInsertExtent] using sound
  obtain ⟨sound', -, covered⟩ := rbInsertExtent_spec b.size_lt alloc (arg - b.start) num bp sound
    pos (relative_fits inside)
  refine ⟨sound', ext fun p => ?_⟩
  have low := inside.1
  simp only [bits, mem_ofPred_eq, covered, mem_union, mem_Ico]
  rw [and_or_left]
  exact or_congr_right (by omega)

theorem rbRemoveExtent_bits (alloc : Allocator) (sound : Sound b.size bp)
    (inside : InBitmap b arg num) :
    Sound b.size (rbRemoveExtent alloc (sub64 arg b.start) num bp).1 ∧
      bits b (rbRemoveExtent alloc (sub64 arg b.start) num bp).1 = bits b bp \
      Ico arg (arg + num) := by
  rw [relative inside]
  obtain ⟨sound', -, covered⟩ := rbRemoveExtent_spec b.size_lt alloc (arg - b.start) num bp sound
    (relative_fits inside)
  refine ⟨sound', ext fun p => ?_⟩
  have low := inside.1
  simp only [bits, mem_ofPred_eq, covered, mem_sdiff, mem_Ico]
  rw [and_assoc]
  exact and_congr_right fun hp => and_congr_right fun _ => by omega

theorem rbTestBmap_bits (sound : Sound b.size bp) (inside : InBitmap b arg 1) :
    Sound b.size (rbTestBmap b bp arg).1 ∧ bits b (rbTestBmap b bp arg).1 = bits b bp ∧
      ((rbTestBmap b bp arg).2 ≠ 0 ↔ arg ∈ bits b bp) := by
  unfold rbTestBmap
  rw [relative inside]
  obtain ⟨sound', root, answer⟩ := rbTestBit_spec b.size_lt (arg - b.start) bp sound
  refine ⟨sound', by simp only [bits, RbPrivate.extents, root], answer.trans ?_⟩
  simp [bits, inside.1]

theorem rbTestClearBmapExtent_bits (sound : Sound b.size bp) (inside : InBitmap b arg num) :
    rbTestClearBmapExtent b bp arg num ≠ 0 ↔ ∀ p ∈ Ico arg (arg + num), p ∉ bits b bp := by
  unfold rbTestClearBmapExtent
  rw [relative inside, testClear_spec b.size_lt _ _ bp sound (relative_fits inside)]
  have low := inside.1
  simp only [mem_Ico, bits, mem_ofPred_eq, not_and]
  constructor
  · intro clear p hp _
    exact clear (p - b.start) (by omega) (by omega)
  · intro clear p h1 h2
    have := clear (p + b.start) (by omega) (by omega)
    rwa [Nat.add_sub_cancel] at this

end Positions

theorem rbStep_simulates (alloc : Allocator) {b : Bounds} {bp : RbPrivate} {s : Set Nat}
    {op : RbOp} (rel : Sound b.size bp ∧ bits b bp = s) (inside : op.Inside b) :
    Sound b.size (rbStep alloc b bp op).1 ∧ bits b (rbStep alloc b bp op).1 = setStep s op := by
  obtain ⟨sound, rfl⟩ := rel
  cases op with
  | mark arg | markExtent arg num => exact rbInsertExtent_bits alloc sound inside
  | unmark arg | unmarkExtent arg num => exact rbRemoveExtent_bits alloc sound inside
  | test arg =>
    obtain ⟨sound', same, -⟩ := rbTestBmap_bits sound inside
    exact ⟨sound', same⟩
  | testClearExtent arg num => exact ⟨sound, rfl⟩
  | clear =>
    refine ⟨sound_empty b.size, ?_⟩
    simp [rbStep, rbClearBmap, setStep, bits, RbPrivate.extents]

/-- After any run of operations inside the bitmap the extents are sorted, non-empty,
disjoint and never adjacent, the cursors are null or live, and the two tests answer
membership in the set that the operations built, whatever the cursors hold. -/
theorem rb_bitmap_refines_set (alloc : Allocator) (bm : RbBitmap) (ops : List RbOp)
    (inside : ∀ op ∈ ops, op.Inside bm.bounds) :
    let bp := final (rbStep alloc bm.bounds) bm.priv ops
    let set := ops.foldl setStep (bits bm.bounds bm.priv)
    Apart bm.bounds.size bp.extents ∧ Cursors bp ∧
      (∀ arg, InBitmap bm.bounds arg 1 → ((rbTestBmap bm.bounds bp arg).2 ≠ 0 ↔ arg ∈ set)) ∧
      ∀ arg num, InBitmap bm.bounds arg num → (rbTestClearBmapExtent bm.bounds bp arg num ≠ 0 ↔
          ∀ p ∈ Set.Ico arg (arg + num), p ∉ set) := by
  intro bp set
  obtain ⟨sound, same⟩ : Sound bm.bounds.size bp ∧ bits bm.bounds bp = set :=
    final_simulates (fun bp s => Sound bm.bounds.size bp ∧ bits bm.bounds bp = s)
      (fun bp s op => rbStep_simulates alloc) bm.priv _ ⟨bm.sound, rfl⟩ ops inside
  refine ⟨sound.apart, sound.cursors, fun arg ha => ?_, fun arg num hn => ?_⟩
  · rw [← same]
    exact (rbTestBmap_bits sound ha).2.2
  · rw [← same]
    exact rbTestClearBmapExtent_bits sound hn

def bumpAllocator : Allocator where
  fresh live := live.foldr max 0 + 1
  unused live mem := by
    have bound : ∀ l : List Nat, ∀ a ∈ l, a ≤ l.foldr max 0 := by
      intro l a ha
      induction l with
      | nil => simp at ha
      | cons x xs ih =>
        rcases List.mem_cons.mp ha with rfl | ha
        · exact le_max_left _ _
        · exact le_trans (ih ha) (le_max_right _ _)
    have := bound live _ mem
    omega

def smallBounds : Bounds := ⟨0, 31, 31, by decide, by decide, by decide, by decide⟩

/- Marking 4..11 and unmarking 6 and 7 leaves a tree in which 5 is set and 6..7 is clear. -/
theorem rb_bitmap_refines_set_on_small_run :
    let ops := [RbOp.markExtent 4 8, .test 5, .unmarkExtent 6 2, .mark 20, .unmark 20]
    let bp := final (rbStep bumpAllocator smallBounds) rbAllocPrivateData ops
    (∀ op ∈ ops, op.Inside smallBounds) ∧ Apart 32 bp.extents ∧ Cursors bp ∧
      ((rbTestBmap smallBounds bp 5).2 ≠ 0 ↔
          5 ∈ ops.foldl setStep (bits smallBounds rbAllocPrivateData)) := by
  intro ops bp
  have inside : ∀ op ∈ ops, op.Inside smallBounds := by decide
  obtain ⟨apart, cursors, test, -⟩ :=
    rb_bitmap_refines_set bumpAllocator (rbNewBmap smallBounds) ops inside
  exact ⟨inside, apart, cursors, test 5 (by decide)⟩

end E2fs.Rb
