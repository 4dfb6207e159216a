import E2fs.Bitmap.GenericSound

/-! The parts of an open file system that block allocation works on: the geometry
from the superblock (lib/ext2fs/blknum.c), the free counts and flags of the group
descriptors, the block bitmap and the maps of a running e2fsck. -/
namespace E2fs.Alloc
open Word Generic Nat

/-- The geometry of a file system that `ext2fs_open2` accepts and e2fsck does not
correct: the first data block is 0 or 1. The device is addressed by 63-bit byte offsets
and a block has at least 1024 bytes; a cluster has at most `2 ^ 29` bytes. -/
structure Super where
  blocksCount : Nat
  firstDataBlock : Nat
  blocksPerGroup : Nat
  clusterRatioBits : Nat
  has64bit : Bool
  hasGroupDescCsum : Bool
  first_lt : firstDataBlock < blocksCount
  first_le : firstDataBlock ≤ 1
  group_pos : 0 < blocksPerGroup
  group_lt : blocksPerGroup < 2 ^ 32
  groups_lt : (blocksCount - firstDataBlock - 1) / blocksPerGroup + 1 < 2 ^ 32
  blocks_le : blocksCount ≤ 2 ^ 53
  ratio_le : clusterRatioBits ≤ 19

structure GroupDesc where
  freeBlocksCount : Nat
  blockUninit : Bool
  deriving DecidableEq

/- What e2fsck keeps in `fs->priv_data`; either map may be null. -/
structure E2fsck where
  blockFoundMap : Option GenericBitmap64
  blockMetadataMap : Option GenericBitmap64

/- `ctx` is present when `e2fsck_intercept_block_allocations` has installed its
callbacks. -/
structure Filsys where
  super : Super
  freeBlocksCount : Nat
  group : Nat → GroupDesc
  blockMap : GenericBitmap64
  ctx : Option E2fsck

def Super.groupDescCount (sb : Super) : Nat :=
  (sb.blocksCount - sb.firstDataBlock - 1) / sb.blocksPerGroup + 1

def groupOfBlk2 (sb : Super) (blk : Nat) : Nat :=
  sub64 blk sb.firstDataBlock / sb.blocksPerGroup % 2 ^ 32

def groupFirstBlock2 (sb : Super) (group : Nat) : Nat :=
  sb.firstDataBlock + sb.blocksPerGroup * group

def groupLastBlock2 (sb : Super) (group : Nat) : Nat :=
  if group = sb.groupDescCount - 1 then sb.blocksCount - 1
  else groupFirstBlock2 sb group + (sb.blocksPerGroup - 1)

/- The counts have 16 or 32 bits in a group and 32 or 64 in the superblock. -/
def bgFreeBlocksCountSet (fs : Filsys) (group n : Nat) : Filsys :=
  let bits := if fs.super.has64bit then 32 else 16
  let desc := { fs.group group with freeBlocksCount := n % 2 ^ bits }
  { fs with group := Function.update fs.group group desc }

def freeBlocksCountAdd (fs : Filsys) (blk : Nat) : Filsys :=
  let bits := if fs.super.has64bit then 64 else 32
  { fs with freeBlocksCount := add64 fs.freeBlocksCount blk % 2 ^ bits }

def bgBlockUninitClear (fs : Filsys) (group : Nat) : Filsys :=
  let desc := { fs.group group with blockUninit := false }
  { fs with group := Function.update fs.group group desc }

/-- A block of the file system, and its group. -/
def Super.Holds (sb : Super) (blk : Nat) : Prop :=
  sb.firstDataBlock ≤ blk ∧ blk < sb.blocksCount

instance (sb : Super) (blk : Nat) : Decidable (sb.Holds blk) :=
  inferInstanceAs (Decidable (_ ∧ _))

section Groups

variable {sb : Super} {blk : Nat}

theorem groupOfBlk2_eq (holds : sb.Holds blk) :
    groupOfBlk2 sb blk = (blk - sb.firstDataBlock) / sb.blocksPerGroup := by
  obtain ⟨low, high⟩ := holds
  have word := sb.blocks_le
  have few := sb.groups_lt
  rw [groupOfBlk2, sub64_eq low (by omega)]
  apply mod_eq_of_lt
  have : (blk - sb.firstDataBlock) / sb.blocksPerGroup ≤
      (sb.blocksCount - sb.firstDataBlock - 1) / sb.blocksPerGroup :=
        Nat.div_le_div_right (by omega)
  omega

theorem le_groupLastBlock2 (holds : sb.Holds blk) : blk ≤ groupLastBlock2 sb (groupOfBlk2 sb blk) ∧
      groupLastBlock2 sb (groupOfBlk2 sb blk) < sb.blocksCount := by
  have group := groupOfBlk2_eq holds
  obtain ⟨low, high⟩ := holds
  rw [group, groupLastBlock2, groupFirstBlock2, Super.groupDescCount, Nat.add_sub_cancel]
  have pos := sb.group_pos
  have inside := lt_mul_div_succ (blk - sb.firstDataBlock) pos
  rw [mul_succ] at inside
  split_ifs with inner
  · omega
  refine ⟨by omega, ?_⟩
  have before : (blk - sb.firstDataBlock) / sb.blocksPerGroup + 1 ≤
      (sb.blocksCount - sb.firstDataBlock - 1) / sb.blocksPerGroup := by
    have : (blk - sb.firstDataBlock) / sb.blocksPerGroup ≤
        (sb.blocksCount - sb.firstDataBlock - 1) / sb.blocksPerGroup :=
          Nat.div_le_div_right (by omega)
    omega
  have room := (Nat.le_div_iff_mul_le pos).mp before
  rw [mul_comm, mul_succ] at room
  omega

end Groups

/-- A map over the blocks of the file system, at its cluster size. -/
structure MapOver (sb : Super) (bm : GenericBitmap64) : Prop where
  sound : bm.Sound
  cells : bm.clusterBits = sb.clusterRatioBits
  start : bm.bounds.start = sb.firstDataBlock >>> sb.clusterRatioBits
  stop : bm.bounds.stop = (sb.blocksCount - 1) >>> sb.clusterRatioBits

section Maps

variable {sb : Super} {bm : GenericBitmap64} {blk : Nat}

theorem MapOver.has (map : MapOver sb bm) (holds : sb.Holds blk) : bm.Has blk := by
  obtain ⟨low, high⟩ := holds
  rw [GenericBitmap64.Has, map.cells, map.start, map.stop]
  simp only [shiftRight_eq_div_pow]
  exact ⟨Nat.div_le_div_right low, Nat.div_le_div_right (by omega)⟩

theorem Super.word_le (sb : Super) (inside : blk ≤ sb.blocksCount) :
    blk + 2 ^ sb.clusterRatioBits ≤ 2 ^ 64 := by
  have blocks := sb.blocks_le
  have ratio : 2 ^ sb.clusterRatioBits ≤ 2 ^ 19 := Nat.pow_le_pow_right (by decide) sb.ratio_le
  omega

theorem MapOver.of_same {bm' : GenericBitmap64} (map : MapOver sb bm)
    (bounds : bm'.bounds = bm.bounds)
    (cells : bm'.clusterBits = bm.clusterBits) (sound : bm'.Sound) : MapOver sb bm' :=
  ⟨sound, cells.trans map.cells, (congrArg (·.start) bounds).trans map.start,
    (congrArg (·.stop) bounds).trans map.stop⟩

theorem MapOver.step (alloc : Rb.Allocator) (map : MapOver sb bm) (op : BmapOp)
    (fits : op.Fits bm.clusterBits) : MapOver sb (bmapStep alloc bm op).1 ∧
      (bmapStep alloc bm op).1.bits =
        opBits bm.bounds (clusterRange bm) bm.clusterBits bm.bits op :=
  have ⟨bounds, cells, sound, bits⟩ := bmapStep_spec alloc bm op map.sound fits
  ⟨map.of_same bounds cells sound, bits⟩

end Maps

/- A small file system: two groups of sixteen blocks. -/
def twoGroups (hasGroupDescCsum : Bool) : Super where
  blocksCount := 32
  firstDataBlock := 0
  blocksPerGroup := 16
  clusterRatioBits := 0
  has64bit := false
  hasGroupDescCsum := hasGroupDescCsum
  first_lt := by decide
  first_le := by decide
  group_pos := by decide
  group_lt := by decide
  groups_lt := by decide
  blocks_le := by decide
  ratio_le := by decide

end E2fs.Alloc
