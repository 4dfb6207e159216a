import E2fs.Bitmap.GenericSound

/-! The same calls on a bit array and on a tree: when the old values and the
searches agree, and with what they should answer. -/
namespace E2fs.Generic
open Word Bitmap Ba Rb First Run Nat List

structure Pair where
  array : GenericBitmap64
  tree : GenericBitmap64

def pairStep (alloc : Allocator) (s : Pair) (op : BmapOp) : Pair × (Nat × Nat) :=
  let array := bmapStep alloc s.array op
  let tree := bmapStep alloc s.tree op
  (⟨array.1, tree.1⟩, (array.2, tree.2))

/-- Same bounds, same clusters and same bits, on the two backends. -/
structure Pair.Same (b : Bounds) (clusterBits : Nat) (s : Pair) : Prop where
  array_kind : ∃ bp, s.array.priv = .bitarray bp
  tree_kind : ∃ bp, s.tree.priv = .rbtree bp
  array_bounds : s.array.bounds = b ∧ s.array.clusterBits = clusterBits
  tree_bounds : s.tree.bounds = b ∧ s.tree.clusterBits = clusterBits
  array_sound : s.array.Sound
  tree_sound : s.tree.Sound
  bits : s.array.bits = s.tree.bits

/-- A single-bit call reports, on both backends, whether the bit was set before. -/
def Exact (e : Event Pair BmapOp (Nat × Nat)) : Prop :=
  ∀ arg, e.op = .mark arg ∨ e.op = .unmark arg →
    (e.result.1 ≠ 0 ↔ e.before.array.IsSet arg) ∧ (e.result.2 ≠ 0 ↔ e.before.tree.IsSet arg) ∧
    (e.result.1 ≠ 0 ↔ e.result.2 ≠ 0)

/-- An unmark call on a clear bit whose successor is set. -/
def TouchesNext (e : Event Pair BmapOp (Nat × Nat)) : Prop :=
  ∃ arg, e.op = .unmark arg ∧ e.before.tree.Has arg ∧ ¬ e.before.tree.IsSet arg ∧
    (arg >>> e.before.tree.clusterBits) + 1 ∈ e.before.tree.bits

theorem bmapStep_kind (alloc : Allocator) (bm : GenericBitmap64) (op : BmapOp) :
    ((∃ bp, bm.priv = .bitarray bp) → ∃ bp, (bmapStep alloc bm op).1.priv = .bitarray bp) ∧
    ((∃ bp, bm.priv = .rbtree bp) → ∃ bp, (bmapStep alloc bm op).1.priv = .rbtree bp) := by
  cases op <;>
    simp only [bmapStep, ext2fsMarkGenericBmap, ext2fsUnmarkGenericBmap,
      ext2fsMarkBlockBitmapRange2, ext2fsUnmarkBlockBitmapRange2] <;>
    split <;>
    refine ⟨?_, ?_⟩ <;> rintro ⟨bp, kind⟩ <;>
    simp [kind, markBmap, unmarkBmap, markBmapExtent, unmarkBmapExtent]

variable {b : Bounds} {start stop clusterBits : Nat} {bm : GenericBitmap64} {alloc : Allocator}

theorem pairStep_same (s : Pair) (op : BmapOp) (same : s.Same b clusterBits)
    (fits : op.Fits clusterBits) : (pairStep alloc s op).1.Same b clusterBits := by
  obtain ⟨ab, ac, asound, abits⟩ :=
    bmapStep_spec alloc s.array op same.array_sound (same.array_bounds.2 ▸ fits)
  obtain ⟨tb, tc, tsound, tbits⟩ :=
    bmapStep_spec alloc s.tree op same.tree_sound (same.tree_bounds.2 ▸ fits)
  refine ⟨(bmapStep_kind alloc s.array op).1 same.array_kind,
    (bmapStep_kind alloc s.tree op).2 same.tree_kind, ⟨ab.trans same.array_bounds.1,
    ac.trans same.array_bounds.2⟩, ⟨tb.trans same.tree_bounds.1, tc.trans same.tree_bounds.2⟩,
    asound, tsound, abits.trans (Eq.trans ?_ tbits.symm)⟩
  have ranges : clusterRange s.array = clusterRange s.tree := by
    funext block num
    simp [clusterRange, same.array_bounds.2, same.tree_bounds.2]
  rw [same.bits, same.array_bounds.1, same.array_bounds.2, same.tree_bounds.1, same.tree_bounds.2,
    ranges]

/- On equal bitmaps a call is exact unless it is an unmark that touches the next bit. -/
theorem exact_iff {e : Event Pair BmapOp (Nat × Nat)} (same : e.before.Same b clusterBits)
    (stepped : pairStep alloc e.before e.op = (e.after, e.result)) : Exact e ↔ ¬ TouchesNext e := by
  obtain ⟨before, op, result, after⟩ := e
  dsimp only at same stepped
  obtain ⟨ap, akind⟩ := same.array_kind
  obtain ⟨tp, tkind⟩ := same.tree_kind
  have sets : ∀ arg, before.array.IsSet arg ↔ before.tree.IsSet arg := by
    intro arg
    simp only [GenericBitmap64.IsSet, GenericBitmap64.Has, same.bits, same.array_bounds.1,
      same.array_bounds.2, same.tree_bounds.1, same.tree_bounds.2]
  have out : result = ((bmapStep alloc before.array op).2, (bmapStep alloc before.tree op).2) :=
    (congrArg Prod.snd stepped).symm
  subst out
  cases op with
  | mark arg =>
    have array := mark_reports alloc before.array arg same.array_sound
    have tree := mark_reports alloc before.tree arg same.tree_sound
    refine ⟨by rintro - ⟨_, ⟨⟩, _⟩, fun _ arg' h => ?_⟩
    obtain rfl : arg = arg' := BmapOp.mark.inj (h.resolve_right (by simp))
    exact ⟨array, tree, array.trans ((sets arg).trans tree.symm)⟩
  | unmark arg =>
    have array := unmark_reports alloc before.array arg same.array_sound
    have tree := unmark_reports alloc before.tree arg same.tree_sound
    simp only [akind, reduceCtorEq, false_and, exists_false, and_false, or_false] at array
    simp only [tkind, Private.rbtree.injEq, exists_eq_left'] at tree
    constructor
    · rintro exactly ⟨arg', h, has, clear, next⟩
      obtain rfl : arg = arg' := BmapOp.unmark.inj h
      exact clear ((exactly arg (.inr rfl)).2.1.mp (tree.mpr (.inr ⟨has, next⟩)))
    · intro apart arg' h
      obtain rfl : arg = arg' := BmapOp.unmark.inj (h.resolve_left (by simp))
      have tree' : (bmapStep alloc before.tree (.unmark arg)).2 ≠ 0 ↔ before.tree.IsSet arg :=
        tree.trans <| or_iff_left_of_imp fun both =>
          by_contra fun clear => apart ⟨arg, rfl, both.1, clear, both.2⟩
      exact ⟨array, tree', array.trans ((sets arg).trans tree'.symm)⟩
  | markRange block num | unmarkRange block num =>
    exact ⟨by rintro - ⟨_, ⟨⟩, _⟩, fun _ _ h => by simp at h⟩

/-- A run of calls on two equal bitmaps reports the old bits exactly, on both
backends, if and only if no unmark in it hits a clear bit just before a set one. -/
theorem old_values_agree_iff (alloc : Allocator) (b : Bounds) (clusterBits : Nat) (s : Pair)
    (same : s.Same b clusterBits) (ops : List BmapOp) (fits : ∀ op ∈ ops, op.Fits clusterBits) :
    (∀ e ∈ events (pairStep alloc) s ops, Exact e) ↔
    ∀ e ∈ events (pairStep alloc) s ops, ¬ TouchesNext e := by
  refine forall_congr' fun e => forall_congr' fun mem => ?_
  obtain ⟨same', stepped⟩ :=
    events_invariant (Pair.Same b clusterBits) pairStep_same s same ops fits e mem
  exact exact_iff same' stepped

def freshPair : Pair where
  array := ⟨smallBounds, 0, .bitarray (baAllocPrivateData smallBounds 0)⟩
  tree := ⟨smallBounds, 0, .rbtree rbAllocPrivateData⟩

theorem freshPair_same : freshPair.Same smallBounds 0 := by
  refine ⟨⟨_, rfl⟩, ⟨_, rfl⟩, ⟨rfl, rfl⟩, ⟨rfl, rfl⟩, ?_, sound_empty _, ?_⟩
  · simp [freshPair, GenericBitmap64.Sound, Private.Sound, Sized, baAllocPrivateData]
  · ext p
    have zero : ∀ n, Bytes.bitAt (baAllocPrivateData smallBounds 0).bitarray n = false := by
      intro n
      simp [Bytes.bitAt, Bytes.byteAt, baAllocPrivateData, getD_eq_getElem?_getD,
        getElem?_replicate]
      split <;> simp
    simp [freshPair, GenericBitmap64.bits, Private.bits, Ba.bits, Rb.bits, zero, RbPrivate.extents,
      rbAllocPrivateData]

/- Unmarking 7 and 5 of a bitmap that holds 5: neither call touches a later bit. -/
theorem old_values_agree_on_small_run : (∀ op ∈ [BmapOp.mark 5, .unmark 7, .unmark 5], op.Fits 0) ∧
      ((∀ e ∈ events (pairStep bumpAllocator) freshPair [.mark 5, .unmark 7, .unmark 5], Exact e) ↔
        ∀ e ∈ events (pairStep bumpAllocator) freshPair [.mark 5, .unmark 7, .unmark 5],
        ¬ TouchesNext e) := by
  have fits : ∀ op ∈ [BmapOp.mark 5, .unmark 7, .unmark 5], op.Fits 0 := by simp [BmapOp.Fits]
  exact ⟨fits, old_values_agree_iff bumpAllocator smallBounds 0 freshPair freshPair_same _ fits⟩

/- Mark 5, then unmark 4, which is clear: the array reports 0, the tree 1. -/
theorem unmark_before_set_bit_differs :
    (events (pairStep bumpAllocator) freshPair [.mark 5, .unmark 4]).map (·.result) =
      [(0, 0), (0, 1)] ∧
      ¬ ∀ e ∈ events (pairStep bumpAllocator) freshPair [.mark 5, .unmark 4], Exact e := by
  have results : (events (pairStep bumpAllocator) freshPair [.mark 5, .unmark 4]).map (·.result) =
      [(0, 0), (0, 1)] := by decide +kernel
  refine ⟨results, fun exactly => ?_⟩
  have second := map_eq_cons_iff.mp results
  obtain ⟨first, rest, split, -, tail⟩ := second
  obtain ⟨last, none, cut, result, -⟩ := map_eq_cons_iff.mp tail
  have op : last.op = .unmark 4 := by
    simp only [events, cons.injEq] at split
    rw [← split.2, cons.injEq] at cut
    rw [← cut.1]
  have agree := (exactly last (by simp [split, cut]) 4 (.inr op)).2.2
  simp [result] at agree

theorem firstResult_congr {P Q : Nat → Prop} {found : Except Errcode Nat}
    (h : FirstResult P start stop found) (same : ∀ q, start ≤ q → q ≤ stop → (P q ↔ Q q)) :
    FirstResult Q start stop found := by
  have near : ∀ q, start ≤ q → q < stop + 1 → (P q ↔ Q q) := fun q low high =>
    same q low (by omega)
  cases found with
  | ok p => exact @IsFirst.congr _ _ _ _ (some p) near h
  | error code =>
    cases code with
    | enoent => exact @IsFirst.congr _ _ _ _ none near h
    | einval => exact h

def GenericBitmap64.HasRange (bm : GenericBitmap64) (start stop : Nat) : Prop :=
  start ≤ stop ∧ stop < 2 ^ 64 ∧ bm.bounds.start ≤ start >>> bm.clusterBits ∧
    stop >>> bm.clusterBits ≤ bm.bounds.stop

theorem findFirstGeneric_spec {find : Bounds → Private → Nat → Nat → Except Errcode Nat}
    {P : Nat → Prop} (range : bm.HasRange start stop)
    (found : FirstResult P (start >>> bm.clusterBits) (stop >>> bm.clusterBits)
      (find bm.bounds bm.priv (start >>> bm.clusterBits) (stop >>> bm.clusterBits))) :
    FirstResult (fun p => P (p >>> bm.clusterBits)) start stop
      (findFirstGeneric find bm start stop) := by
  obtain ⟨order, word, low, high⟩ := range
  rw [findFirstGeneric]
  rw [if_neg (by omega)]
  have cell : 0 < 2 ^ bm.clusterBits := Nat.two_pow_pos _
  simp only [shiftRight_eq_div_pow, shiftLeft_eq] at found ⊢
  cases answer :
      find bm.bounds bm.priv (start / 2 ^ bm.clusterBits) (stop / 2 ^ bm.clusterBits) with
  | error code =>
    rw [answer] at found
    cases code with
    | einval => exact found
    | enoent =>
      exact IsFirst.cells _ cell (lt_succ_of_le order)
        (show IsFirst P (start / 2 ^ bm.clusterBits) ((stop + 1 - 1) / 2 ^ bm.clusterBits + 1) none
          from found)
  | ok cout =>
    rw [answer] at found
    have first := IsFirst.cells _ cell (lt_succ_of_le order)
      (show IsFirst P (start / 2 ^ bm.clusterBits) ((stop + 1 - 1) / 2 ^ bm.clusterBits + 1)
        (some cout) from found)
    have small : cout * 2 ^ bm.clusterBits ≤ stop := by
      have := found.2.1
      rw [← Nat.le_div_iff_mul_le cell]
      omega
    dsimp only
    rw [mod_eq_of_lt (by omega)]
    have clipped :
      (if cout * 2 ^ bm.clusterBits ≥ start then cout * 2 ^ bm.clusterBits else start) =
        max (cout * 2 ^ bm.clusterBits) start := by
      split <;> omega
    rw [clipped]
    exact first

/-- Both searches return the first clear, resp. set, position of `[start, stop]`, at
the granularity of clusters, or `ENOENT` when there is none. -/
def SearchesExactly (bm : GenericBitmap64) (start stop : Nat) : Prop :=
  FirstResult (fun p => p >>> bm.clusterBits ∉ bm.bits) start stop
      (ext2fsFindFirstZeroGenericBmap bm start stop) ∧
    FirstResult (fun p => p >>> bm.clusterBits ∈ bm.bits) start stop
      (ext2fsFindFirstSetGenericBmap bm start stop)

/- A tree that holds nothing: `rb_find_first_zero` then reports `ENOENT`. -/
def GenericBitmap64.EmptyTree (bm : GenericBitmap64) : Prop :=
  ∃ bp, bm.priv = .rbtree bp ∧ bp.root = .nil

section

variable {priv : Private} (sound : priv.Sound b) (low : b.start ≤ start) (order : start ≤ stop)
  (high : stop ≤ b.realEnd)
include sound low order high

theorem findFirstZero_spec (filled : ¬ ∃ bp, priv = .rbtree bp ∧ bp.root = .nil) :
    FirstResult (fun p => p ∉ priv.bits b) start stop (findFirstZero b priv start stop) := by
  cases priv with
  | bitarray bp =>
    have h := @search_spec b bp false start stop low order high
    simp only [Bool.false_eq_true, iff_false] at h
    exact h
  | rbtree bp =>
    exact rbFindFirstZero_spec sound low order high fun empty => filled ⟨bp, rfl, empty⟩

theorem findFirstSet_spec :
    FirstResult (fun p => p ∈ priv.bits b) start stop (findFirstSet b priv start stop) := by
  cases priv with
  | bitarray bp =>
    have h := @search_spec b bp true start stop low order high
    simp only [iff_true] at h
    exact h
  | rbtree bp => exact rbFindFirstSet_spec sound low order high

end

theorem shift_mono (order : start ≤ stop) : start >>> clusterBits ≤ stop >>> clusterBits := by
  rw [shiftRight_eq_div_pow, shiftRight_eq_div_pow]
  exact Nat.div_le_div_right order

theorem set_search_exact (sound : bm.Sound) (range : bm.HasRange start stop) :
    FirstResult (fun p => p >>> bm.clusterBits ∈ bm.bits) start stop
      (ext2fsFindFirstSetGenericBmap bm start stop) :=
  findFirstGeneric_spec range (findFirstSet_spec sound range.2.2.1 (shift_mono range.1)
    (range.2.2.2.trans bm.bounds.stop_le))

theorem searches_exactly_of_filled (sound : bm.Sound)
    (range : bm.HasRange start stop) (filled : ¬ bm.EmptyTree) : SearchesExactly bm start stop :=
  ⟨findFirstGeneric_spec range (findFirstZero_spec sound range.2.2.1 (shift_mono range.1)
    (range.2.2.2.trans bm.bounds.stop_le) filled), set_search_exact sound range⟩

theorem empty_tree_finds_no_zero (range : bm.HasRange start stop) (empty : bm.EmptyTree) :
    ext2fsFindFirstZeroGenericBmap bm start stop = .error .enoent := by
  have padded := bm.bounds.stop_le
  have word' := bm.bounds.realEnd_lt
  obtain ⟨order, word, low, high⟩ := range
  obtain ⟨bp, kind, bare⟩ := empty
  have order' := @shift_mono _ _ bm.clusterBits order
  have ordered : ¬ sub64 (start >>> bm.clusterBits) bm.bounds.start >
      sub64 (stop >>> bm.clusterBits) bm.bounds.start := by
    rw [sub64_eq low (by omega), sub64_eq (by omega) (by omega)]
    omega
  simp only [ext2fsFindFirstZeroGenericBmap, findFirstGeneric, kind, findFirstZero,
    rbFindFirstZero, bare, if_true]
  rw [if_neg (by omega), if_neg ordered]

theorem empty_tree_bits (empty : bm.EmptyTree) : bm.bits = ∅ := by
  obtain ⟨bp, kind, bare⟩ := empty
  simp [GenericBitmap64.bits, kind, Private.bits, Rb.bits, RbPrivate.extents, bare]

/-- The searches are exact on every bitmap of either backend, except on a tree that
holds no bit at all. -/
theorem searches_exactly_iff (bm : GenericBitmap64) (start stop : Nat) (sound : bm.Sound)
    (range : bm.HasRange start stop) : SearchesExactly bm start stop ↔ ¬ bm.EmptyTree := by
  constructor
  · rintro ⟨zero, -⟩ empty
    rw [empty_tree_finds_no_zero range empty] at zero
    refine zero start (le_refl _) (lt_succ_of_le range.1) ?_
    simp [empty_tree_bits empty]
  · exact searches_exactly_of_filled sound range

def markedArray : GenericBitmap64 := ⟨smallBounds, 0, .bitarray ⟨[0x18#8, 0, 0, 0], 0⟩⟩

theorem searches_exactly_on_marked_array :
    markedArray.HasRange 3 20 ∧ SearchesExactly markedArray 3 20 := by
  have range : markedArray.HasRange 3 20 := by
    simp [GenericBitmap64.HasRange, markedArray, smallBounds]
  refine ⟨range, (searches_exactly_iff markedArray 3 20 rfl range).mpr ?_⟩
  rintro ⟨bp, is, -⟩
  cases is

/- A fresh tree has only clear bits, and the search for one finds none. -/
theorem fresh_tree_finds_no_zero :
    ext2fsFindFirstZeroGenericBmap freshPair.tree 3 20 = .error .enoent ∧
      ¬ SearchesExactly freshPair.tree 3 20 := by
  have answer : ext2fsFindFirstZeroGenericBmap freshPair.tree 3 20 = .error .enoent := by
    decide +kernel
  refine ⟨answer, fun h => ?_⟩
  have zero := h.1
  rw [answer] at zero
  refine zero 3 (le_refl _) (by decide) ?_
  simp [GenericBitmap64.bits, freshPair, Private.bits, Rb.bits, RbPrivate.extents,
    rbAllocPrivateData]

end E2fs.Generic
