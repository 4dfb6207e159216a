import E2fs.Lib.BlockTree
import E2fs.Lib.Word

/-! lib/ext2fs/punch.c, bmap.c and i_block.c for files mapped by indirect blocks:
taking a range of blocks out of the file, and looking a block up. -/
namespace E2fs.Punch
open Word BlockTree

/-- What the code reads of the superblock and of `ext2_filsys`. -/
structure Super where
  blocksCount : Nat
  logBlockSize : Nat
  clusterRatioBits : Nat
  hugeFile : Bool
  log_le : logBlockSize ≤ 6

def Super.blocksize (sb : Super) : Nat := 1024 * 2 ^ sb.logBlockSize

def Super.addrPerBlock (sb : Super) : Nat := sb.blocksize / 4

/-- `i_blocks` and `l_i_blocks_hi`. -/
structure BlockCount where
  lo : Nat
  hi : Nat
  lo_lt : lo < 2 ^ 32
  hi_lt : hi < 2 ^ 16
  deriving DecidableEq

def BlockCount.total (sb : Super) (c : BlockCount) : Nat :=
  c.lo + if sb.hugeFile then c.hi * 2 ^ 32 else 0

/-- An inode that has neither `EXT4_EXTENTS_FL` nor `EXT4_INLINE_DATA_FL`. -/
structure Inode where
  iBlock : List Nat
  length_iBlock : iBlock.length = 15
  hugeFileFl : Bool
  count : BlockCount

def iblkUnit (sb : Super) (hugeFileFl : Bool) : Nat :=
  (if !sb.hugeFile || !hugeFileFl then sb.blocksize / 512 else 1) * 2 ^ sb.clusterRatioBits

/- `none` is `EOVERFLOW`. -/
def ext2fsIblkSubBlocks (sb : Super) (hugeFileFl : Bool) (c : BlockCount) (numBlocks : Nat) :
    Option BlockCount :=
  let b := c.total sb
  let num := numBlocks * iblkUnit sb hugeFileFl
  if num > b then none
  else some {
    lo := (b - num) % 2 ^ 32
    hi := if sb.hugeFile then (b - num) / 2 ^ 32 % 2 ^ 16 else c.hi
    lo_lt := Nat.mod_lt _ (by decide)
    hi_lt := by
      split
      · exact Nat.mod_lt _ (by decide)
      · exact c.hi_lt }

/-- The state that punching works on: the disk, the blocks given back so far, and
the block count of the inode. -/
structure Work (n : Nat) where
  disk : Disk n
  released : List Nat
  count : BlockCount

def blockAllocStats {n : Nat} (sb : Super) (b : Nat) (w : Work n) : Work n :=
  if sb.blocksCount ≤ b then w else { w with released := w.released ++ [b] }

def checkZeroBlock (buf : List Nat) : Bool := buf.all (· == 0)

/- The loop of `ind_punch` over the entries that are left, the first of them at
`offset`. `visit` handles the block below an entry and says whether the entry is to
be released. The result has the new entries and `freed`. -/
def punchEntries {n : Nat} (sb : Super) (visit : Nat → Nat → Work n → Option (Work n × Bool))
    (start count incr : Nat) : Nat → List Nat → Work n → Option (Work n × List Nat × Nat)
  | _, [], w => some (w, [], 0)
  | offset, p :: rest, w =>
    if offset ≥ add64 start count then some (w, p :: rest, 0)
    else if p = 0 ∨ offset + incr ≤ start then do
      let (w, rest, freed) ← punchEntries sb visit start count incr (offset + incr) rest w
      some (w, p :: rest, freed)
    else do
      let (w, zero) ← visit offset p w
      if zero then
        let (w, rest, freed) ←
          punchEntries sb visit start count incr (offset + incr) rest (blockAllocStats sb p w)
        some (w, 0 :: rest, freed + 1)
      else
        let (w, rest, freed) ← punchEntries sb visit start count incr (offset + incr) rest w
        some (w, p :: rest, freed)

/- `EXT2_BLOCK_SIZE_BITS` is `s_log_block_size + 10`. -/
def incr (sb : Super) (level : Nat) : Nat := 2 ^ ((sb.logBlockSize + 10 - 2) * level)

def indPunch (sb : Super) (hugeFileFl : Bool) : Nat → Nat → Nat → List Nat →
    Work sb.addrPerBlock → Option (Work sb.addrPerBlock × List Nat)
  | 0, start, count, p, w => do
    let (w, p, freed) ←
      punchEntries sb (fun _ _ w => some (w, true)) start count (incr sb 0) 0 p w
    let c ← ext2fsIblkSubBlocks sb hugeFileFl w.count freed
    some ({ w with count := c }, p)
  | level + 1, start, count, p, w => do
    let visit := fun offset b (w : Work sb.addrPerBlock) => do
      let start2 := (if start > offset then start - offset else 0) % 2 ^ 32
      let (w, buf) ←
        indPunch sb hugeFileFl level start2 (sub64 count offset) (w.disk.read b) w
      some ({ w with disk := w.disk.write b buf }, checkZeroBlock buf)
    let (w, p, freed) ← punchEntries sb visit start count (incr sb (level + 1)) 0 p w
    let c ← ext2fsIblkSubBlocks sb hugeFileFl w.count freed
    some ({ w with count := c }, p)

def blkTMax : Nat := 2 ^ 32 - 1

/- The main loop of `ext2fs_punch_ind` over the levels that are left; `bp` is what is
left of `i_block` and `num` the number of its entries that have the first level. -/
def punchLevels (sb : Super) (hugeFileFl : Bool) : List Nat → Nat → Nat → Nat → Nat → List Nat →
    Work sb.addrPerBlock → Option (Work sb.addrPerBlock × List Nat)
  | [], _, _, _, _, bp, w => some (w, bp)
  | level :: levels, start, count, max, num, bp, w =>
    let next := if level = 0 then (1, 1) else (num, max)
    if start < max then do
      let (w, p) ← indPunch sb hugeFileFl level start count (bp.take num) w
      if count > max then
        let (w, rest) ← punchLevels sb hugeFileFl levels 0 (count - (max - start))
          (next.2 * sb.addrPerBlock) next.1 (bp.drop num) w
        some (w, p ++ rest)
      else some (w, p ++ bp.drop num)
    else do
      let (w, rest) ← punchLevels sb hugeFileFl levels (start - max) count
        (next.2 * sb.addrPerBlock) next.1 (bp.drop num) w
      some (w, bp.take num ++ rest)

/- The number of blocks that `ext2fs_punch_ind` sets out to remove. -/
def punchCount (start stop : Nat) : Nat :=
  if stop ≥ blkTMax ∨ stop - start + 1 ≥ blkTMax then blkTMax - start else stop - start + 1

def ext2fsPunchInd (sb : Super) (hugeFileFl : Bool) (start stop : Nat) (iBlock : List Nat)
    (w : Work sb.addrPerBlock) : Option (Work sb.addrPerBlock × List Nat) :=
  if start > blkTMax then some (w, iBlock)
  else punchLevels sb hugeFileFl [0, 1, 2, 3] start (punchCount start stop) 12 12 iBlock w

/- `ext2fs_punch` on an inode that is mapped by indirect blocks. The result has the
disk, the `i_block` array and the block count of the inode, and the blocks given back.
`none` is `EINVAL` for an empty range, and `EOVERFLOW`. -/
def ext2fsPunch (sb : Super) (disk : Disk sb.addrPerBlock) (inode : Inode) (start stop : Nat) :
    Option (Work sb.addrPerBlock × List Nat) :=
  if start > stop then none
  else ext2fsPunchInd sb inode.hugeFileFl start stop inode.iBlock ⟨disk, [], inode.count⟩

/- Looking a block up, without `BMAP_SET` and `BMAP_ALLOC`. -/
def blockIndBmap {n : Nat} (disk : Disk n) (ind nr : Nat) : Nat :=
  if ind = 0 then 0 else (disk.read ind).getD nr 0

def blockDindBmap {n : Nat} (disk : Disk n) (dind nr : Nat) : Nat :=
  blockIndBmap disk (blockIndBmap disk dind (nr / n)) (nr % n)

def blockTindBmap {n : Nat} (disk : Disk n) (tind nr : Nat) : Nat :=
  blockIndBmap disk (blockDindBmap disk tind (nr / n)) (nr % n)

def fileBlockOffsetTooBig (n offset : Nat) : Prop :=
  offset ≥ 2 ^ 32 - 1 ∨ offset ≥ n + n * n + n * n * n + 12

instance (n offset : Nat) : Decidable (fileBlockOffsetTooBig n offset) :=
  inferInstanceAs (Decidable (_ ∨ _))

/- The walk of `ext2fs_bmap2` through the pointers of the inode. -/
def bmapWalk {n : Nat} (disk : Disk n) (iBlock : List Nat) (block : Nat) : Nat :=
  if block < 12 then iBlock.getD block 0
  else if block - 12 < n then blockIndBmap disk (iBlock.getD 12 0) (block - 12)
  else if block - 12 - n < n * n then blockDindBmap disk (iBlock.getD 13 0) (block - 12 - n)
  else blockTindBmap disk (iBlock.getD 14 0) (block - 12 - n - n * n)

/- `none` is `EXT2_ET_FILE_TOO_BIG`. -/
def ext2fsBmap2 {n : Nat} (disk : Disk n) (iBlock : List Nat) (block : Nat) : Option Nat :=
  if fileBlockOffsetTooBig n block then none else some (bmapWalk disk iBlock block)

end E2fs.Punch
