import E2fs.Alloc.Filsys

/-! lib/ext2fs/alloc_stats.c: the accounting of allocated and released blocks, and
the callbacks of e2fsck/pass1.c that keep e2fsck's own map of used blocks. -/
namespace E2fs.Alloc
open Word Generic Rb

section Callbacks

variable (alloc : Allocator)

def shadowStats (test : GenericBitmap64 → GenericBitmap64 × Nat)
    (mark unmark : GenericBitmap64 → GenericBitmap64) (ctx : E2fsck) (inuse : Int) : E2fsck :=
  match ctx.blockFoundMap with
  | none => ctx
  | some found =>
    let changed := some (if inuse > 0 then mark found else unmark found)
    if inuse < 0 then
      match ctx.blockMetadataMap with
      | none => { ctx with blockFoundMap := changed }
      | some metadata =>
        let tested := test metadata
        -- never free a critical metadata block
        if tested.2 ≠ 0 then { ctx with blockMetadataMap := some tested.1 }
        else ⟨changed, some tested.1⟩
    else { ctx with blockFoundMap := changed }

def e2fsckBlockAllocStats (ctx : E2fsck) (blk : Nat) (inuse : Int) : E2fsck :=
  shadowStats (fun bm => ext2fsTestGenericBmap bm blk)
    (fun bm => (ext2fsMarkGenericBmap alloc bm blk).1)
    (fun bm => (ext2fsUnmarkGenericBmap alloc bm blk).1) ctx inuse

def e2fsckBlockAllocStatsRange (ctx : E2fsck) (blk num : Nat) (inuse : Int) : E2fsck :=
  shadowStats (fun bm => ext2fsTestBlockBitmapRange2 bm blk num)
    (fun bm => ext2fsMarkBlockBitmapRange2 alloc bm blk num)
    (fun bm => ext2fsUnmarkBlockBitmapRange2 alloc bm blk num) ctx inuse

end Callbacks

/- An `int` product as the 64-bit word it is converted to. -/
@[irreducible] def word64 (a : Int) : Nat := (a % 2 ^ 64).toNat

section Accounting

variable (alloc : Allocator)

def ext2fsBlockAllocStats2 (fs : Filsys) (blk : Nat) (inuse : Int) : Filsys :=
  let group := groupOfBlk2 fs.super blk
  if blk ≥ fs.super.blocksCount then fs
  else
    let map := if inuse > 0 then (ext2fsMarkGenericBmap alloc fs.blockMap blk).1
      else (ext2fsUnmarkGenericBmap alloc fs.blockMap blk).1
    let fs := { fs with blockMap := map }
    let fs := bgFreeBlocksCountSet fs group (drop32 (fs.group group).freeBlocksCount inuse)
    let fs := bgBlockUninitClear fs group
    let fs := freeBlocksCountAdd fs (word64 (-inuse * 2 ^ fs.super.clusterRatioBits))
    { fs with ctx := fs.ctx.map fun ctx => e2fsckBlockAllocStats alloc ctx blk inuse }

def blocksInGroup (sb : Super) (blk num : Nat) : Nat :=
  let lastBlk := groupLastBlock2 sb (groupOfBlk2 sb blk)
  if add64 blk num > lastBlk then add64 (sub64 lastBlk blk) 1 else num

def groupStats (inuse : Int) (fs : Filsys) (group n : Nat) : Filsys :=
  let fs := bgFreeBlocksCountSet fs group (sub64 (fs.group group).freeBlocksCount
    (word64 (inuse * n) / 2 ^ fs.super.clusterRatioBits))
  let fs := bgBlockUninitClear fs group
  freeBlocksCountAdd fs (word64 (-inuse * n))

/- The loop over the groups of a range. Every round takes at least one block, so
`num` rounds are enough; the result holds the final `blk` and `num` as well. -/
def statsGroups (inuse : Int) : Nat → Filsys → Nat → Nat → Filsys × Nat × Nat
  | 0, fs, blk, num => (fs, blk, num)
  | rounds + 1, fs, blk, num =>
    if num = 0 then (fs, blk, num)
    else
      let n := blocksInGroup fs.super blk num
      statsGroups inuse rounds (groupStats inuse fs (groupOfBlk2 fs.super blk) n)
        (add64 blk n) (sub64 num n % 2 ^ 32)

def ext2fsBlockAllocStatsRange (fs : Filsys) (blk num : Nat) (inuse : Int) : Filsys :=
  if add64 blk num > fs.super.blocksCount then fs
  else if inuse = 0 then fs
  else
    let map := if inuse > 0 then ext2fsMarkBlockBitmapRange2 alloc fs.blockMap blk num
      else ext2fsUnmarkBlockBitmapRange2 alloc fs.blockMap blk num
    let inuse := if inuse > 0 then 1 else -1
    let (fs, blk, num) := statsGroups inuse num { fs with blockMap := map } blk num
    -- the callback gets what the loop has left of the two arguments
    { fs with ctx := fs.ctx.map fun ctx => e2fsckBlockAllocStatsRange alloc ctx blk num inuse }

end Accounting

end E2fs.Alloc
