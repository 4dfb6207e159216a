import E2fs.Lib.Device

/-! resize/resize2fs.c: `move_itables`, the bytes of the inode tables. -/
namespace E2fs.Resize
open Device List

/- What is read of the two file systems; `maxGroups` groups are in both. Block numbers are below
2^63, so their difference is a `long long`. -/
structure Tables where
  blockSizeBits : Nat
  inodeBlocksPerGroup : Nat
  maxGroups : Nat
  oldBlk : Nat → Nat
  newBlk : Nat → Nat
  /- `size` is an `int`. -/
  int : 2 ^ blockSizeBits * inodeBlocksPerGroup < 2 ^ 31

namespace Tables
variable (t : Tables) {dev : Content} {buf : Nat → UInt8} {i : Nat}

def blocksize := 2 ^ t.blockSizeBits

def size := t.blocksize * t.inodeBlocksPerGroup

def zeroBytes (buf : Nat → UInt8) : Nat → Nat
  | 0 => 0
  | n + 1 => if buf n = 0 then zeroBytes buf n + 1 else 0

def old (dev : Content) (i : Nat) : Nat → UInt8 := fun j => dev (t.oldBlk i * t.blocksize + j)

def zeroBlocks (buf : Nat → UInt8) := zeroBytes buf t.size >>> t.blockSizeBits

def moveItable (dev : Content) (i : Nat) : Content :=
  if t.newBlk i = t.oldBlk i then dev
  else
    -- 0 where the table moves down
    let diff := t.newBlk i - t.oldBlk i
    let buf := t.old dev i
    let n := t.zeroBlocks buf
    let num := if n > diff then t.inodeBlocksPerGroup - n else t.inodeBlocksPerGroup
    let dev := patch dev (t.newBlk i * t.blocksize) (num * t.blocksize) buf
    if n > diff then
      patch dev ((t.oldBlk i + t.inodeBlocksPerGroup) * t.blocksize) (diff * t.blocksize)
        fun j => buf ((t.inodeBlocksPerGroup - diff) * t.blocksize + j)
    else dev

def moveItables (dev : Content) : Content := (range t.maxGroups).foldl t.moveItable dev

abbrev Apart (a b : Nat) := a + t.inodeBlocksPerGroup ≤ b ∨ b + t.inodeBlocksPerGroup ≤ a

/- The zeros at the end of a table that moves down are not written. -/
def LeftOut (dev : Content) (i j : Nat) : Prop :=
  t.newBlk i < t.oldBlk i ∧ t.size ≤ j + t.zeroBlocks (t.old dev i) * t.blocksize

instance (dev : Content) (i j : Nat) : Decidable (t.LeftOut dev i j) :=
  inferInstanceAs (Decidable (_ ∧ _))

def InNew (q i : Nat) := t.newBlk i * t.blocksize ≤ q ∧ q < t.newBlk i * t.blocksize + t.size

variable {t}

theorem zeroBytes_spec (n : Nat) : zeroBytes buf n ≤ n ∧ ∀ j < n, n ≤ j + zeroBytes buf n →
    buf j = 0 := by
  induction n with
  | zero => exact ⟨le_rfl, fun j lt => absurd lt (Nat.not_lt_zero j)⟩
  | succ n ih =>
    rw [zeroBytes]
    split_ifs with zero
    · refine ⟨by omega, fun j lt high => ?_⟩
      rcases Nat.lt_succ_iff_lt_or_eq.mp lt with below | rfl
      · exact ih.2 j below (by omega)
      · exact zero
    · exact ⟨by omega, fun j lt high => by omega⟩

/- Whole blocks of zeros at the end of a table. -/
theorem zeroBlocks_spec (buf : Nat → UInt8) : t.zeroBlocks buf * t.blocksize ≤ t.size ∧
    ∀ j < t.size, t.size ≤ j + t.zeroBlocks buf * t.blocksize → buf j = 0 := by
  have bytes := @zeroBytes_spec buf t.size
  have whole : t.zeroBlocks buf * t.blocksize ≤ zeroBytes buf t.size := by
    rw [zeroBlocks, Nat.shiftRight_eq_div_pow]
    exact Nat.div_mul_le_self _ _
  exact ⟨by omega, fun j lt high => bytes.2 j lt (by omega)⟩

theorem zeroBytes_congr {buf' : Nat → UInt8} {n : Nat} (same : ∀ j < n, buf j = buf' j) :
    zeroBytes buf n = zeroBytes buf' n := by
  induction n with
  | zero => rfl
  | succ n ih => rw [zeroBytes, zeroBytes, same n n.lt_succ_self, ih fun j lt => same j (by omega)]

/- What a table that moves up leaves out between the two writes is zero in the old one. -/
theorem moveItable_eq : t.moveItable dev i = patch dev (t.newBlk i * t.blocksize)
    (if t.newBlk i < t.oldBlk i then t.size - t.zeroBlocks (t.old dev i) * t.blocksize else t.size)
    (t.old dev i) := by
  obtain ⟨fits, zero⟩ := @zeroBlocks_spec t (t.old dev i)
  have length : t.inodeBlocksPerGroup * t.blocksize = t.size := mul_comm ..
  rw [moveItable]
  split_ifs with stays down down
  · omega
  · exact (patch_same fun j _ => by rw [stays, old]).symm
  · dsimp only
    rw [Nat.sub_eq_zero_of_le down.le]
    split_ifs with some_
    · rw [Nat.zero_mul, patch_none, Nat.sub_mul, length]
    · rw [Nat.eq_zero_of_not_pos some_, Nat.zero_mul, length, Nat.sub_zero]
  dsimp only
  split_ifs with long
  swap
  · rw [length]
  obtain ⟨diff, up⟩ := Nat.exists_eq_add_of_le (Nat.le_of_not_lt down)
  rw [up, Nat.add_sub_cancel_left] at long ⊢
  have shorter := Nat.mul_le_mul_right t.blocksize long.le
  rw [Nat.sub_mul, Nat.sub_mul, Nat.add_mul, Nat.add_mul, length]
  funext q
  by_cases moved : t.oldBlk i * t.blocksize + t.size ≤ q
  · by_cases inside : q < t.oldBlk i * t.blocksize + t.size + diff * t.blocksize
    · rw [patch_inside moved inside, patch_inside (by omega) (by omega)]
      exact congrArg _ (by omega)
    · rw [patch_apart (by omega), patch_apart (by omega), patch_apart (by omega)]
  rw [patch_apart (.inl (by omega))]
  by_cases below : q < t.oldBlk i * t.blocksize + diff * t.blocksize
  · rw [patch_apart (.inl below), patch_apart (.inl below)]
  rw [@patch_inside _ _ t.size _ _ (by omega) (by omega), patch]
  split_ifs with first
  · rfl
  -- Here nothing was written; both tables are zero at `q`.
  obtain ⟨j, rfl⟩ := Nat.exists_eq_add_of_le (Nat.le_of_not_lt below)
  have here := zero (diff * t.blocksize + j) (by omega) (by omega)
  rw [old, ← Nat.add_assoc] at here
  rw [here, Nat.add_sub_cancel_left, zero j (by omega) (by omega)]

theorem Apart.bytes {a b : Nat} (apart : t.Apart a b) :
    a * t.blocksize + t.size ≤ b * t.blocksize ∨ b * t.blocksize + t.size ≤ a * t.blocksize := by
  have length : t.inodeBlocksPerGroup * t.blocksize = t.size := mul_comm ..
  rw [← length, ← Nat.add_mul, ← Nat.add_mul]
  exact apart.imp (Nat.mul_le_mul_right _) (Nat.mul_le_mul_right _)

section moves
variable (apart : ∀ i < t.maxGroups, ∀ k < t.maxGroups, i ≠ k →
  t.Apart (t.newBlk i) (t.newBlk k) ∧ t.Apart (t.newBlk i) (t.oldBlk k))
include apart

/- The index of the induction is the number of groups that are done. -/
theorem moveItables_spec (m : Nat) (le : m ≤ t.maxGroups) :
    (∀ i < m, ∀ j < t.size, (range m).foldl t.moveItable dev (t.newBlk i * t.blocksize + j) =
      if t.LeftOut dev i j then dev (t.newBlk i * t.blocksize + j) else t.old dev i j) ∧
      ∀ q, (∀ i < m, ¬t.InNew q i) → (range m).foldl t.moveItable dev q = dev q := by
  induction m with
  | zero => exact ⟨fun i lt => absurd lt (Nat.not_lt_zero i), fun _ _ => rfl⟩
  | succ m ih =>
    obtain ⟨done, rest⟩ := ih (by omega)
    have same : ∀ j < t.size, t.old ((range m).foldl t.moveItable dev) m j = t.old dev m j :=
      fun j lt => rest _ fun i before inside => by
        have := (apart i (by omega) m le (by omega)).2.bytes
        unfold InNew at inside
        omega
    have zeros : t.zeroBlocks (t.old ((range m).foldl t.moveItable dev) m) =
        t.zeroBlocks (t.old dev m) := by rw [zeroBlocks, zeroBytes_congr same, zeroBlocks]
    rw [range_succ, foldl_append, foldl_cons, foldl_nil, moveItable_eq, zeros]
    refine ⟨fun i lt j inside => ?_, fun q outside => ?_⟩
    · rcases Nat.lt_succ_iff_lt_or_eq.mp lt with before | rfl
      · have := (apart i (by omega) m le (by omega)).1.bytes
        rw [patch_apart (by split_ifs <;> omega), done i before j inside]
      · by_cases out : t.LeftOut dev i j
        · have place : (range i).foldl t.moveItable dev (t.newBlk i * t.blocksize + j) =
              dev (t.newBlk i * t.blocksize + j) := rest _ fun k before own => by
            have := (apart k (by omega) i le (by omega)).1.bytes
            unfold InNew at own
            omega
          rw [if_pos out, if_pos out.1, patch_apart (by have := out.2; omega), place]
        · rw [if_neg out, patch_add, same j inside]
          split_ifs with down
          · have := not_and.mp out down
            omega
          · exact inside
    · have := outside m (Nat.lt_succ_self m)
      unfold InNew at this
      rw [patch_apart (by split_ifs <;> omega), rest q fun i lt => outside i (by omega)]

/- Every table is whole at its new place, and nothing else is written, if and only if the zeros that
are left out are there already. -/
theorem moveItables_moves : ((∀ i < t.maxGroups, ∀ j < t.size,
      t.moveItables dev (t.newBlk i * t.blocksize + j) = t.old dev i j) ∧
      ∀ q, (∀ i < t.maxGroups, ¬t.InNew q i) → t.moveItables dev q = dev q) ↔
    ∀ i < t.maxGroups, ∀ j < t.size, t.LeftOut dev i j →
    dev (t.newBlk i * t.blocksize + j) = 0 := by
  obtain ⟨moved, rest⟩ := @moveItables_spec t dev apart t.maxGroups le_rfl
  have zero : ∀ i j, j < t.size → t.LeftOut dev i j → t.old dev i j = 0 := fun i j inside out =>
    (zeroBlocks_spec _).2 j inside out.2
  refine ⟨fun whole i lt j inside out => ?_, fun there => ⟨fun i lt j inside => ?_, rest⟩⟩
  · rw [← zero i j inside out, ← whole.1 i lt j inside]
    exact ((moved i lt j inside).trans (if_pos out)).symm
  · refine (moved i lt j inside).trans ?_
    split_ifs with out
    · rw [there i lt j inside out, zero i j inside out]
    · rfl

end moves

def upAndDown : Tables := ⟨10, 1, 2, fun i => 5 + 4 * i, fun i => 6 + 2 * i, by decide⟩

def marked : Content := fun q => if q < 6 * 1024 then 1 else if q < 9 * 1024 then 3 else 2

theorem upAndDown_moved :
    upAndDown.moveItables marked (6 * 1024) = 1 ∧ upAndDown.moveItables marked (8 * 1024) = 2 := by
  have moved := (@moveItables_moves upAndDown marked (by decide)).mpr fun i lt j inside out => by
    obtain ⟨down, last⟩ := out
    have either : i = 0 ∨ i = 1 := Nat.lt_succ_iff_lt_or_eq.mp lt |>.imp_left Nat.lt_one_iff.mp
    rcases either with rfl | rfl
    · exact absurd down (by decide)
    · rw [show upAndDown.zeroBlocks (upAndDown.old marked 1) = 0 by decide +kernel] at last
      omega
  exact ⟨moved.1 0 (by decide) 0 (by decide), moved.1 1 (by decide) 0 (by decide)⟩

/- The zeros of block 2 are not written to block 1. -/
theorem zeros_not_moved :
    moveItables ⟨10, 1, 1, fun _ => 2, fun _ => 1, by decide⟩
      (fun q => if q < 2048 then 7 else 0) 1024 = 7 := by
  decide +kernel

end Tables
end E2fs.Resize
