import E2fs.Bitmap.RbRefinement

/-! Changing the end of a bitmap that is stored as a tree. -/
namespace E2fs.Rb
open Word Rbtree Bitmap List

/- From the last extent on. One that is cut is examined again by the source, which ends the loop. -/
def rbTruncate (newMax : Nat) : List BmapRbExtent → RbTree BmapRbExtent → RbTree BmapRbExtent
  | [], root => root
  | ext :: exts, root =>
    if sub64 ext.stop 1 ≤ newMax then root
    else if ext.start > newMax then rbTruncate newMax exts
      (eraseExtent ⟨root, none, none, none⟩ ext.addr).root
    else store root ext.addr ext.start (add64 (sub64 newMax ext.start) 1)

/- `new` has the start of `b`. The cached successor is not reset. -/
def rbResizeBmap (alloc : Allocator) (b new : Bounds) (bp : RbPrivate) : RbPrivate :=
  let newMax := sub64 (if new.stop < b.stop then new.stop else b.stop) b.start
  let bp := ⟨rbTruncate newMax bp.extents.reverse bp.root, none, none, bp.rcursorNext⟩
  if new.stop < new.realEnd then
    (rbInsertExtent alloc (sub64 (add64 new.stop 1) b.start) (sub64 new.realEnd new.stop) bp).1
  else bp

theorem rbTruncate_spec {size : Nat} (bounded : size < 2 ^ 64) (newMax : Nat)
    (exts : List BmapRbExtent)
    {root : RbTree BmapRbExtent} (apart : Apart size root.inorder)
    (here : root.inorder = exts.reverse) :
    Apart (newMax + 1) (rbTruncate newMax exts root).inorder ∧
      ∀ p, Covered (rbTruncate newMax exts root).inorder p ↔
      Covered root.inorder p ∧ p ≤ newMax := by
  induction exts generalizing root with
  | nil =>
    rw [rbTruncate, here]
    exact ⟨by constructor <;> simp, by simp⟩
  | cons e exts ih =>
    rw [reverse_cons] at here
    have place := (here ▸ apart).between
    have ⟨rest, filled, inside, _, before, _⟩ := place
    rw [rbTruncate, stop_eq bounded inside, sub64_eq (by omega) (by omega)]
    split
    · have fits : ∀ x ∈ root.inorder, x.start + x.count ≤ newMax + 1 := by grind
      exact ⟨{ apart with inside := fits },
        fun p => (and_iff_left_of_imp fun h => Nat.lt_succ_iff.mp (covered_lt fits h)).symm⟩
    split
    · have erased : (eraseExtent ⟨root, none, none, none⟩ e.addr).root.inorder = _ :=
        (eraseExtent_at ⟨root, none, none, none⟩ apart.distinct here).trans (append_nil _)
      obtain ⟨apart', covered⟩ := ih (erased ▸ append_nil exts.reverse ▸ rest) erased
      refine ⟨apart', fun p => (covered p).trans ?_⟩
      rw [erased, here, covered_append, covered_cons]
      simp
      omega
    · have short := (place.shrink (y := ⟨e.addr, e.start, newMax - e.start + 1⟩) rfl le_rfl
        (by dsimp only; omega) (by simp)).apart
      rw [sub64_eq (by omega) (by omega), add64_eq (by omega), store_at apart.distinct here]
      refine ⟨{ short with inside := by grind }, fun p => ?_⟩
      have low := fun h => place.covered_before (p := p) h
      rw [here]
      simp only [covered_append, covered_cons, covered_nil]
      grind

/-- Resizing keeps the bits up to both ends and sets those between the new end and the real one. The
tree is sound again, apart from the cached successor, which may be an extent that was freed. -/
theorem rb_resize_bits (alloc : Allocator) (bm : RbBitmap) (new : Bounds)
    (same : new.start = bm.bounds.start) :
    let bp := rbResizeBmap alloc bm.bounds new bm.priv
    Sound new.size { bp with rcursorNext := none } ∧
      bits new bp = bits bm.bounds bm.priv ∩ Set.Iic (min new.stop bm.bounds.stop) ∪
          Set.Ioc new.stop new.realEnd := by
  obtain ⟨b, bp, sound⟩ := bm
  have ends := And.intro (And.intro b.start_le b.stop_le) (And.intro new.start_le new.stop_le)
  have words := And.intro b.realEnd_lt new.realEnd_lt
  dsimp only [rbResizeBmap] at same ⊢
  simp only [Set.ext_iff, bits, Set.mem_ofPred_eq, Set.mem_union, Set.mem_inter_iff, Set.mem_Iic,
    Set.mem_Ioc]
  have max : sub64 (if new.stop < b.stop then new.stop else b.stop) b.start =
      min new.stop b.stop - b.start := by
    rw [sub64_eq] <;> split <;> omega
  rw [max]
  obtain ⟨apart, covered⟩ :=
    rbTruncate_spec b.size_lt _ bp.extents.reverse sound.apart (reverse_reverse _).symm
  generalize rbTruncate (min new.stop b.stop - b.start) _ _ = root at apart covered ⊢
  have cut : Sound new.size ⟨root, none, none, none⟩ := by
    refine ⟨{ apart with inside := fun e mem => ?_ }, by constructor <;> simp⟩
    have := apart.inside e mem
    unfold Bounds.size
    omega
  split
  · rw [add64_eq (by omega), sub64_eq (by omega) (by omega), sub64_eq (by omega) (by omega)]
    have clean : ∀ m n, n ≠ 0 → rbInsertExtent alloc m n ⟨root, none, none, bp.rcursorNext⟩ =
        rbInsertExtent alloc m n ⟨root, none, none, none⟩ := fun _ _ some => by
          rw [rbInsertExtent, rbInsertExtent, if_neg some, if_neg some]
    obtain ⟨⟨apart, cursors⟩, -, filled⟩ :=
      rbInsertExtent_spec new.size_lt alloc (new.stop + 1 - b.start)
      (new.realEnd - new.stop) _ cut (by omega) (by omega)
    rw [clean _ _ (by omega)]
    refine ⟨⟨apart, cursors.write, cursors.read, by simp, by simp⟩, fun p => ?_⟩
    have own := filled (p - b.start)
    grind [RbPrivate.extents]
  · exact ⟨cut, fun p => by grind [RbPrivate.extents]⟩

/- Of the bits 2 to 9 those behind the new end are gone. -/
theorem small_resize_bits :
    let new : Bounds := { smallBounds with stop := 4, start_le := by decide, stop_le := by decide }
    let old := rbMarkBmapExtent bumpAllocator smallBounds rbAllocPrivateData 2 8
    let bp := rbResizeBmap bumpAllocator smallBounds new old
    Sound 32 { bp with rcursorNext := none } ∧ bits new bp = Set.Icc 2 4 ∪ Set.Ioc 4 31 := by
  intro new old bp
  obtain ⟨sound, marked⟩ := rbInsertExtent_bits bumpAllocator (sound_empty smallBounds.size)
    (show InBitmap smallBounds 2 8 by decide)
  obtain ⟨sound', kept⟩ := rb_resize_bits bumpAllocator ⟨smallBounds, old, sound⟩ new rfl
  refine ⟨sound', kept.trans ?_⟩
  have before : bits smallBounds old = Set.Ico 2 10 := by
    refine marked.trans ?_
    simp [bits, rbAllocPrivateData, RbPrivate.extents]
  rw [before]
  ext p
  simp [new, smallBounds]
  omega

end E2fs.Rb
