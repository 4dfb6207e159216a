import E2fs.Lib.Loop
import E2fs.Bitmap.GenericSound

/-! `ext2fs_compare_generic_bmap`: which bits it looks at and what it takes for a difference. -/
namespace E2fs.Generic
open Word Bytes Bitmap Ba Rb Loop

structure Comparison where
  i : Nat
  bm1 : GenericBitmap64
  bm2 : GenericBitmap64

/- One round of `for (i = …; i <= bm1->end; i++)`, where `i` is a 64-bit word. -/
def compareRound (neq : Nat) (s : Comparison) : Round Comparison Nat :=
  if s.i ≤ s.bm1.bounds.stop then
    let one := ext2fsTestGenericBmap s.bm1 s.i
    let two := ext2fsTestGenericBmap s.bm2 s.i
    if one.2 ≠ two.2 then .done neq else .again ⟨add64 s.i 1, one.1, two.1⟩
  else .done 0

/- Two bitmaps of the same magic, with fuel for the loop. -/
def ext2fsCompareGenericBmap (fuel neq : Nat) (bm1 bm2 : GenericBitmap64) : Option Nat :=
  if bm1.bounds.start ≠ bm2.bounds.start ∨ bm1.bounds.stop ≠ bm2.bounds.stop then some neq
  else
    let first := bm1.bounds.stop - (bm1.bounds.stop - bm1.bounds.start) % 8
    runLoop (compareRound neq) fuel ⟨first, bm1, bm2⟩

/- What a backend returns for a set bit: the array the mask of the bit in its byte, the tree one. -/
def Private.mask (b : Bounds) (cluster : Nat) : Private → Nat
  | .bitarray _ => 2 ^ ((cluster - b.start) % 8)
  | .rbtree _ => 1

open Classical in
noncomputable def GenericBitmap64.reading (bm : GenericBitmap64) (arg : Nat) : Nat :=
  if bm.IsSet arg then bm.priv.mask bm.bounds (arg >>> bm.clusterBits) else 0

def SameBits (bm1 bm2 : GenericBitmap64) : Prop :=
  ∀ p, bm1.bounds.start ≤ p → p ≤ bm1.bounds.stop → (p ∈ bm1.bits ↔ p ∈ bm2.bits)

/-- The call returns, with 0 if the bitmaps hold the same bits and with `neq` if they do not. -/
def ComparesBits (neq : Nat) (bm1 bm2 : GenericBitmap64) : Prop :=
  ∃ fuel result, ext2fsCompareGenericBmap fuel neq bm1 bm2 = some result ∧
    (result = 0 ↔ SameBits bm1 bm2) ∧ (¬ SameBits bm1 bm2 → result = neq)

/- The arguments the loop gets to: at most the last eight, unless its counter wraps. -/
def Inspected (b : Bounds) (i : Nat) : Prop :=
  i ≤ b.stop ∧ (b.stop - (b.stop - b.start) % 8 ≤ i ∨ b.stop = 2 ^ 64 - 1)

/-- Equal bitmaps give equal readings wherever the loop looks, and it ends; different ones give
different readings somewhere it looks. -/
def Conclusive (bm1 bm2 : GenericBitmap64) : Prop :=
  (SameBits bm1 bm2 → bm1.bounds.stop ≠ 2 ^ 64 - 1 ∧
    ∀ i, Inspected bm1.bounds i → bm1.reading i = bm2.reading i) ∧
  (¬ SameBits bm1 bm2 → ∃ i, Inspected bm1.bounds i ∧ bm1.reading i ≠ bm2.reading i)

theorem rbTestBit_le_one (bp : RbPrivate) (bit : Nat) : (rbTestBit bp bit).2 ≤ 1 := by
  have search : ∀ bp : RbPrivate, (searchTree bp bit).2 ≤ 1 := by
    intro bp
    unfold searchTree
    split <;> simp
  unfold rbTestBit testWcursor
  split
  · exact search _
  dsimp only
  split_ifs
  · exact le_refl 1
  · exact Nat.zero_le 1
  · split
    · exact search _
    · split_ifs
      · exact le_refl 1
      · exact search _

theorem testBmap_mask {b : Bounds} {priv : Private} {arg : Nat} (low : b.start ≤ arg)
    (high : arg ≤ b.realEnd)
    (set : (testBmap b priv arg).2 ≠ 0) : (testBmap b priv arg).2 = priv.mask b arg := by
  cases priv with
  | bitarray bp =>
    have relative := sub64_eq low (lt_of_le_of_lt high b.realEnd_lt)
    simp only [testBmap, baTestBmap, relative] at set ⊢
    rw [testBit64_eq, if_pos ((testBit64_ne_zero _ _).mp set)]
    rfl
  | rbtree bp =>
    have small : (testBmap b (.rbtree bp) arg).2 ≤ 1 := rbTestBit_le_one bp _
    exact le_antisymm small (pos_of_ne_zero set)

/- The same bits in the same kind of backend; only the cursors of a tree may differ. -/
structure Alike (bm bm' : GenericBitmap64) : Prop where
  bounds : bm'.bounds = bm.bounds
  clusterBits : bm'.clusterBits = bm.clusterBits
  sound : bm'.Sound
  reading : bm'.reading = bm.reading

theorem reading_test {bm : GenericBitmap64} (arg : Nat) (sound : bm.Sound) :
    (ext2fsTestGenericBmap bm arg).2 = bm.reading arg ∧
    Alike bm (ext2fsTestGenericBmap bm arg).1 := by
  have padded := bm.bounds.stop_le
  obtain ⟨bounds, clusters, sound', bits, answer⟩ := test_reports bm arg sound
  refine ⟨?_, bounds, clusters, sound', ?_⟩
  · by_cases set : bm.IsSet arg
    · have value := answer.mpr set
      rw [GenericBitmap64.reading, if_pos set]
      have inside : ¬ (arg >>> bm.clusterBits < bm.bounds.start ∨
          arg >>> bm.clusterBits > bm.bounds.stop) := by
        have := set.1
        unfold GenericBitmap64.Has at this
        omega
      simp only [ext2fsTestGenericBmap, if_neg inside] at value ⊢
      exact testBmap_mask (by omega) (by omega) value
    · rw [GenericBitmap64.reading, if_neg set]
      by_contra value
      exact set (answer.mp value)
  · funext i
    have mask :
        ∀ c, (ext2fsTestGenericBmap bm arg).1.priv.mask bm.bounds c = bm.priv.mask bm.bounds c := by
      intro c
      unfold ext2fsTestGenericBmap
      dsimp only
      split
      · rfl
      · cases bm.priv <;> rfl
    have set : (ext2fsTestGenericBmap bm arg).1.IsSet i ↔ bm.IsSet i := by
      simp only [GenericBitmap64.IsSet, GenericBitmap64.Has, bounds, clusters, bits]
    by_cases holds : bm.IsSet i
    · rw [GenericBitmap64.reading, GenericBitmap64.reading, if_pos (set.mpr holds), if_pos holds,
        bounds, clusters, mask]
    · rw [GenericBitmap64.reading, GenericBitmap64.reading, if_neg (mt set.mp holds), if_neg holds]

theorem Alike.trans {bm bm' bm'' : GenericBitmap64} (first : Alike bm bm')
    (second : Alike bm' bm'') : Alike bm bm'' :=
  ⟨second.bounds.trans first.bounds, second.clusterBits.trans first.clusterBits, second.sound,
    second.reading.trans first.reading⟩

section Loop

variable {neq : Nat} {bm1 bm2 : GenericBitmap64}

structure Comparing (bm1 bm2 : GenericBitmap64) (s : Comparison) : Prop where
  word : s.i < 2 ^ 64
  first : Alike bm1 s.bm1
  second : Alike bm2 s.bm2

variable {s : Comparison}

section

variable (inv : Comparing bm1 bm2 s)
include inv

theorem compareRound_spec :
    (s.i ≤ bm1.bounds.stop ∧ bm1.reading s.i ≠ bm2.reading s.i ∧ compareRound neq s = .done neq) ∨
    (s.i ≤ bm1.bounds.stop ∧ bm1.reading s.i = bm2.reading s.i ∧
      ∃ t, compareRound neq s = .again t ∧ t.i = add64 s.i 1 ∧ Comparing bm1 bm2 t) ∨
    (bm1.bounds.stop < s.i ∧ compareRound neq s = .done 0) := by
  obtain ⟨value1, after1⟩ := reading_test s.i inv.first.sound
  obtain ⟨value2, after2⟩ := reading_test s.i inv.second.sound
  rw [inv.first.reading] at value1
  rw [inv.second.reading] at value2
  simp only [compareRound, inv.first.bounds, value1, value2]
  by_cases inside : s.i ≤ bm1.bounds.stop
  · by_cases same : bm1.reading s.i = bm2.reading s.i
    · refine .inr
        (.inl ⟨inside, same, _, by rw [if_pos inside, if_neg (not_not.mpr same)], rfl, ?_⟩)
      exact ⟨add64_lt _ _, inv.first.trans after1, inv.second.trans after2⟩
    · exact .inl ⟨inside, same, by rw [if_pos inside, if_pos same]⟩
  · exact .inr (.inr ⟨Nat.lt_of_not_le inside, if_neg inside⟩)

theorem reaches_neq {i : Nat} (order : s.i ≤ i)
    (inside : i ≤ bm1.bounds.stop) (differ : bm1.reading i ≠ bm2.reading i) :
    ∃ t, Reaches (compareRound neq) s t ∧ compareRound neq t = .done neq := by
  have word := lt_of_le_of_lt (inside.trans bm1.bounds.stop_le) bm1.bounds.realEnd_lt
  obtain ⟨n, rfl⟩ := Nat.exists_eq_add_of_le order
  induction n generalizing s with
  | zero =>
    rcases compareRound_spec inv with ⟨-, -, done⟩ | ⟨-, same, -⟩ | ⟨beyond, -⟩
    · exact ⟨s, .here s, done⟩
    · exact absurd same differ
    · omega
  | succ n ih =>
    rcases compareRound_spec inv with ⟨-, -, done⟩ | ⟨-, -, t, again, next, inv'⟩ | ⟨beyond, -⟩
    · exact ⟨s, .here s, done⟩
    · rw [add64_eq (by omega)] at next
      have sum : t.i + n = s.i + (n + 1) := by omega
      obtain ⟨u, way, done⟩ := ih inv' (by omega) (by omega) (sum ▸ differ) (by omega)
      exact ⟨u, .step again way, done⟩
    · omega

theorem reaches_of_same (n : Nat) (word : s.i + n < 2 ^ 64)
    (same : ∀ i, s.i ≤ i → i < s.i + n → i ≤ bm1.bounds.stop ∧ bm1.reading i = bm2.reading i) :
    ∃ t, Reaches (compareRound neq) s t ∧ t.i = s.i + n ∧ Comparing bm1 bm2 t := by
  induction n generalizing s with
  | zero => exact ⟨s, .here s, rfl, inv⟩
  | succ n ih =>
    obtain ⟨inside, equal⟩ := same s.i (le_refl _) (by omega)
    rcases @compareRound_spec neq _ _ s inv
      with ⟨-, differ, -⟩ | ⟨-, -, t, again, next, inv'⟩ | ⟨beyond, -⟩
    · exact absurd equal differ
    · rw [add64_eq (by omega)] at next
      obtain ⟨u, way, last, inv''⟩ := ih inv' (by omega) fun i low high =>
        same i (by omega) (by omega)
      exact ⟨u, .step again way, by omega, inv''⟩
    · omega

theorem returns_zero (order : s.i ≤ bm1.bounds.stop + 1) (last : bm1.bounds.stop ≠ 2 ^ 64 - 1)
    (same : ∀ i, s.i ≤ i → i ≤ bm1.bounds.stop → bm1.reading i = bm2.reading i) :
    ∃ fuel, runLoop (compareRound neq) fuel s = some 0 := by
  have word := lt_of_le_of_lt bm1.bounds.stop_le bm1.bounds.realEnd_lt
  obtain ⟨t, way, at_, inv'⟩ :=
    @reaches_of_same neq _ _ s inv (bm1.bounds.stop + 1 - s.i) (by omega)
    fun i low high => ⟨by omega, same i low (by omega)⟩
  rcases @compareRound_spec neq _ _ t inv' with ⟨inside, -⟩ | ⟨inside, -⟩ | ⟨-, done⟩
  · omega
  · omega
  · exact way.returns done

theorem stop_of_zero (nonzero : neq ≠ 0) {fuel : Nat}
    (result : runLoop (compareRound neq) fuel s = some 0) :
    bm1.bounds.stop ≠ 2 ^ 64 - 1 ∧ ∀ i, s.i ≤ i → i ≤ bm1.bounds.stop →
    bm1.reading i = bm2.reading i := by
  constructor
  · intro last
    induction fuel generalizing s with
    | zero => cases result
    | succ fuel ih =>
      rw [runLoop] at result
      rcases @compareRound_spec neq _ _ s inv
        with ⟨-, -, done⟩ | ⟨-, -, t, again, -, inv'⟩ | ⟨beyond, -⟩
      · rw [done] at result
        exact nonzero (Option.some.inj result)
      · rw [again] at result
        exact ih inv' result
      · have := inv.word
        omega
  · intro i low high
    by_contra differ
    obtain ⟨t, way, done⟩ := reaches_neq inv low high differ
    obtain ⟨fuel', result'⟩ := way.returns done
    exact nonzero (runLoop_unique result' result)

end

end Loop

/-- The comparison is right exactly on the pairs of bitmaps for which what it looks at decides. -/
theorem comparesBits_iff (neq : Nat) (nonzero : neq ≠ 0) (bm1 bm2 : GenericBitmap64)
    (sound1 : bm1.Sound)
    (sound2 : bm2.Sound) (starts : bm1.bounds.start = bm2.bounds.start)
    (stops : bm1.bounds.stop = bm2.bounds.stop) :
    ComparesBits neq bm1 bm2 ↔ Conclusive bm1 bm2 := by
  have word := lt_of_le_of_lt bm1.bounds.stop_le bm1.bounds.realEnd_lt
  generalize first : bm1.bounds.stop - (bm1.bounds.stop - bm1.bounds.start) % 8 = lo at *
  have inv : Comparing bm1 bm2 ⟨lo, bm1, bm2⟩ :=
    ⟨by simp only; omega, ⟨rfl, rfl, sound1, rfl⟩, ⟨rfl, rfl, sound2, rfl⟩⟩
  have call : ∀ fuel, ext2fsCompareGenericBmap fuel neq bm1 bm2 =
      runLoop (compareRound neq) fuel ⟨lo, bm1, bm2⟩ := by
    intro fuel
    rw [ext2fsCompareGenericBmap, if_neg (by simp [starts, stops])]
    simp only [first]
  have inspected : ∀ i, Inspected bm1.bounds i ↔
      i ≤ bm1.bounds.stop ∧ (lo ≤ i ∨ bm1.bounds.stop = 2 ^ 64 - 1) := by
    intro i
    rw [Inspected, first]
  simp only [ComparesBits, Conclusive, inspected, call]
  constructor
  · rintro ⟨fuel, result, returned, zero, other⟩
    refine ⟨fun same => ?_, fun differ => ?_⟩
    · rw [zero.mpr same] at returned
      obtain ⟨last, equal⟩ := stop_of_zero inv nonzero returned
      exact ⟨last, fun i looks => equal i (looks.2.resolve_right last) looks.1⟩
    · by_contra! equal
      by_cases last : bm1.bounds.stop = 2 ^ 64 - 1
      · -- the counter wraps and the loop goes on for ever
        have endless :=
          @endless_of_invariant _ _ (compareRound neq) ⟨lo, bm1, bm2⟩ (Comparing bm1 bm2)
          (fun s inv' => ?_) inv fuel
        · rw [endless] at returned
          cases returned
        · have inside : s.i ≤ bm1.bounds.stop := by
            have := inv'.word
            omega
          rcases @compareRound_spec neq _ _ s inv'
            with ⟨-, ne, -⟩ | ⟨-, -, t, again, -, inv''⟩ | ⟨beyond, -⟩
          · exact absurd (equal s.i ⟨inside, .inr last⟩) ne
          · exact ⟨t, again, inv''⟩
          · omega
      · obtain ⟨fuel', result'⟩ := @returns_zero neq _ _ _ inv (by simp only; omega) last
          fun i low high => equal i ⟨high, .inl low⟩
        exact differ (zero.mp (runLoop_unique returned result'))
  · rintro ⟨agree, apart⟩
    by_cases same : SameBits bm1 bm2
    · obtain ⟨last, equal⟩ := agree same
      obtain ⟨fuel, result⟩ := @returns_zero neq _ _ _ inv (by simp only; omega) last
        fun i low high => equal i ⟨high, .inl low⟩
      exact ⟨fuel, 0, result, by simp [same], fun differ => absurd same differ⟩
    obtain ⟨i, ⟨inside, looks⟩, ne⟩ := apart same
    have found : ∃ fuel, runLoop (compareRound neq) fuel ⟨lo, bm1, bm2⟩ = some neq := by
      by_cases early : ∃ j, lo ≤ j ∧ j ≤ bm1.bounds.stop ∧ bm1.reading j ≠ bm2.reading j
      · obtain ⟨j, low, high, ne'⟩ := early
        obtain ⟨t, way, done⟩ := reaches_neq inv low high ne'
        exact way.returns done
      -- the difference is found after the counter has wrapped
      push Not at early
      have last :
        bm1.bounds.stop = 2 ^ 64 - 1 := looks.resolve_left fun low => ne (early i low inside)
      obtain ⟨t, way, at_, inv'⟩ :=
        @reaches_of_same neq _ _ _ inv (bm1.bounds.stop - lo) (by simp only; omega)
        fun j low high => ⟨by simp only at high; omega, early j low (by simp only at high; omega)⟩
      have at_ : t.i = bm1.bounds.stop := by
        simp only at at_
        omega
      rcases @compareRound_spec neq _ _ t inv'
        with ⟨-, ne', -⟩ | ⟨-, -, u, again, next, inv''⟩ | ⟨beyond, -⟩
      · exact absurd (early t.i (by omega) (by omega)) ne'
      · have zero : u.i = 0 := by
          rw [next, at_, last]
          decide +kernel
        obtain ⟨v, way', done⟩ := @reaches_neq neq _ _ u inv'' i (by omega) inside ne
        exact (way.trans (.step again way')).returns done
      · omega
    obtain ⟨fuel, result⟩ := found
    exact ⟨fuel, neq, result, by simp [same, nonzero], fun _ => rfl⟩

def byteArray (i : Nat) (byte : BitVec 8) : GenericBitmap64 :=
  ⟨smallBounds, 0, .bitarray ⟨(List.replicate 4 0).set i byte, 0⟩⟩

theorem comparesBits_on_arrays : ComparesBits 1 (byteArray 3 2) (byteArray 3 4) ↔
    Conclusive (byteArray 3 2) (byteArray 3 4) := comparesBits_iff 1 (by decide) _ _ rfl rfl rfl rfl

/- Bit 5 is set in one array only, and the loop begins at bit 24. -/
theorem compare_misses_early_bits :
    ext2fsCompareGenericBmap 9 1 (byteArray 0 32) (byteArray 0 0) = some 0 ∧
      ¬ ComparesBits 1 (byteArray 0 32) (byteArray 0 0) := by
  have answer : ext2fsCompareGenericBmap 9 1 (byteArray 0 32) (byteArray 0 0) = some 0 := by
    decide +kernel
  have differ : ¬ SameBits (byteArray 0 32) (byteArray 0 0) := by
    intro same
    have set : 5 ∈ (byteArray 0 32).bits := ⟨by decide, by decide, by decide⟩
    have clear := (same 5 (by decide) (by decide)).mp set
    exact absurd clear.2.2 (by decide)
  refine ⟨answer, ?_⟩
  rintro ⟨fuel, result, returned, zero, -⟩
  exact differ (zero.mp (runLoop_unique returned answer))

end E2fs.Generic
