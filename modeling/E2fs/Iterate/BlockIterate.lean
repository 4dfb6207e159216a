import E2fs.Iterate.Extents
import E2fs.Lib.BlockTree

/-! Going through the blocks of a file (lib/ext2fs/block.c). -/
namespace E2fs.Iterate
open BlockTree

structure Call where
  blk : Nat
  blockcnt : Int
  refBlk : Nat
  refOffset : Nat
  deriving DecidableEq

structure Ret where
  changed : Bool
  abort : Bool
  error : Bool
  deriving DecidableEq

def Ret.zero : Ret := ⟨false, false, false⟩

def Ret.or (r s : Ret) : Ret := ⟨r.changed || s.changed, r.abort || s.abort, r.error || s.error⟩

def Ret.stop (r : Ret) : Ret := { r with abort := true, error := true }

structure Flags where
  append : Bool
  depthTraverse : Bool
  dataOnly : Bool
  readOnly : Bool
  noLarge : Bool
  deriving DecidableEq

/- Which blocks there are, and which of them cannot be read or written. -/
structure Fs where
  blocksCount : Nat
  firstDataBlock : Nat
  hurd : Bool
  nodes : Nat → Except Errcode Node
  readFails : Nat → Bool
  writeFails : Nat → Bool
  writeInodeFails : Bool

/- The callback works on private data of type `σ`. The functions that change an extent tree are
reached from a callback that has changed something only. -/
structure Iteration (σ : Type) where
  fs : Fs
  flags : Flags
  func : σ → Call → σ × Nat × Ret
  extentReplace : Handle → Extent → Handle × Option Errcode
  extentSetBmap : Handle → Nat → Nat → Bool → Handle × Option Errcode

/- A block holds `n` pointers. -/
structure Ctx (σ : Type) (n : Nat) where
  priv : σ
  disk : Disk n
  bcount : Nat
  errcode : Option Errcode

def blockCountInd : Int := -1
def blockCountDind : Int := -2
def blockCountTind : Int := -3
def blockCountTranslator : Int := -4

section Blocks

variable {σ : Type} {n : Nat} (it : Iteration σ)

/- The new block number goes back into a variable of 32 bits. -/
def call (ctx : Ctx σ n) (c : Call) : Ctx σ n × Nat × Ret :=
  let (priv, blk, ret) := it.func ctx.priv c
  ({ ctx with priv }, blk % 2 ^ 32, ret)

def ownCall (wanted : Bool) (ctx : Ctx σ n) (c : Call) : Ctx σ n × Nat × Ret :=
  if wanted then call it ctx c else (ctx, c.blk, Ret.zero)

def Iteration.roViolation (ret : Ret) : Bool := it.flags.readOnly && ret.changed

/- The frame of the three functions that read a block of pointers: the block's own call before or
after its contents, and a loop over the pointers that gives the new ones, the flags `changed` and
those that end the loop early. -/
def iterateBlock (count : Int) (bad : Errcode) (width : Nat)
    (loop : Nat → Ctx σ n → Ctx σ n × List Nat × Ret × Ret) (block ref offset : Nat)
    (ctx : Ctx σ n) : Ctx σ n × Nat × Ret :=
  let (ctx, block, ret) :=
    ownCall it (!it.flags.depthTraverse && !it.flags.dataOnly) ctx ⟨block, count, ref, offset⟩
  if it.roViolation ret then ({ ctx with errcode := some .roBlockIterate }, block, ret.stop)
  else if block = 0 || ret.abort then ({ ctx with bcount := ctx.bcount + width }, block, ret)
  else if it.fs.blocksCount ≤ block || block < it.fs.firstDataBlock then
    ({ ctx with errcode := some bad }, block, { ret with error := true })
  else if it.fs.readFails block then
    ({ ctx with errcode := some .io }, block, { ret with error := true })
  else
    let (ctx, buf, changed, early) := loop block { ctx with errcode := none }
    let ret := ret.or early
    if it.roViolation changed then
      ({ ctx with errcode := some .roBlockIterate }, block, changed.stop)
    else
      let (ctx, ret) :=
        if changed.changed then
          if it.fs.writeFails block then ({ ctx with errcode := some .io }, ret.stop)
          else ({ ctx with disk := ctx.disk.write block buf, errcode := none }, ret)
        else (ctx, ret)
      let (ctx, block, last) :=
        ownCall it (it.flags.depthTraverse && !it.flags.dataOnly && !ret.abort) ctx
          ⟨block, count, ref, offset⟩
      let ret := ret.or last
      if it.roViolation ret then ({ ctx with errcode := some .roBlockIterate }, block, ret.stop)
      else (ctx, block, ret)

def indLoop (ref : Nat) : List Nat → Nat → Ctx σ n → Ctx σ n × List Nat × Ret × Ret
  | [], _, ctx => (ctx, [], Ret.zero, Ret.zero)
  | p :: ps, offset, ctx =>
    if p = 0 && !it.flags.append then
      let (ctx, ps, changed, early) :=
        indLoop ref ps (offset + 4) { ctx with bcount := ctx.bcount + 1 }
      (ctx, p :: ps, changed, early)
    else
      let (ctx, p, r) := call it ctx ⟨p, ctx.bcount, ref, offset⟩
      if r.abort then (ctx, p :: ps, r, { Ret.zero with abort := true })
      else
        let (ctx, ps, changed, early) :=
          indLoop ref ps (offset + 4) { ctx with bcount := ctx.bcount + 1 }
        (ctx, p :: ps, r.or changed, early)

/- The loop of the other two. `offset` stays where it is at a pointer that is zero. -/
def mapLoop (child : Nat → Nat → Nat → Ctx σ n → Ctx σ n × Nat × Ret) (width ref : Nat) :
    List Nat → Nat → Ctx σ n → Ctx σ n × List Nat × Ret × Ret
  | [], _, ctx => (ctx, [], Ret.zero, Ret.zero)
  | p :: ps, offset, ctx =>
    if p = 0 && !it.flags.append then
      let (ctx, ps, changed, early) :=
        mapLoop child width ref ps offset { ctx with bcount := ctx.bcount + width }
      (ctx, p :: ps, changed, early)
    else
      let (ctx, p, r) := child p ref offset ctx
      if r.abort || r.error then (ctx, p :: ps, r, { r with changed := false })
      else
        let (ctx, ps, changed, early) := mapLoop child width ref ps (offset + 4) ctx
        (ctx, p :: ps, r.or changed, early)

def blockIterateInd : Nat → Nat → Nat → Ctx σ n → Ctx σ n × Nat × Ret :=
  iterateBlock it blockCountInd .badIndBlock n fun block ctx =>
    indLoop it block (ctx.disk.read block) 0 ctx

def blockIterateDind : Nat → Nat → Nat → Ctx σ n → Ctx σ n × Nat × Ret :=
  iterateBlock it blockCountDind .badDindBlock (n * n) fun block ctx =>
    mapLoop it (blockIterateInd it) n block (ctx.disk.read block) 0 ctx

def blockIterateTind : Nat → Nat → Nat → Ctx σ n → Ctx σ n × Nat × Ret :=
  iterateBlock it blockCountTind .badTindBlock (n * n * n) fun block ctx =>
    mapLoop it (blockIterateDind it) (n * n) block (ctx.disk.read block) 0 ctx

def directLoop : List Nat → Nat → Ret → Ctx σ n → Ctx σ n × List Nat × Ret
  | [], _, ret, ctx => (ctx, [], ret)
  | p :: ps, i, ret, ctx =>
    if p = 0 && !it.flags.append then
      let (ctx, ps, ret) := directLoop ps (i + 1) ret { ctx with bcount := ctx.bcount + 1 }
      (ctx, p :: ps, ret)
    else
      let (ctx, p, r) := call it ctx ⟨p, ctx.bcount, 0, i⟩
      let ret := ret.or r
      if ret.abort then (ctx, p :: ps, ret)
      else
        let (ctx, ps, ret) := directLoop ps (i + 1) ret { ctx with bcount := ctx.bcount + 1 }
        (ctx, p :: ps, ret)

/- One of the last three pointers of the inode; nothing more is done after an abort. -/
def indirectPart (iterate : Nat → Nat → Nat → Ctx σ n → Ctx σ n × Nat × Ret) (width i p : Nat)
    (ret : Ret) (ctx : Ctx σ n) : Ctx σ n × Nat × Ret :=
  if ret.abort then (ctx, p, ret)
  else if p = 0 && !it.flags.append then ({ ctx with bcount := ctx.bcount + width }, p, ret)
  else
    let (ctx, p, r) := iterate p 0 i ctx
    (ctx, p, ret.or r)

def blockMapped (iBlock : List Nat) (ret : Ret) (ctx : Ctx σ n) : Ctx σ n × List Nat × Ret :=
  let (ctx, direct, ret) := directLoop it (iBlock.take 12) 0 ret ctx
  let (ctx, ret) :=
    if !ret.abort && it.roViolation ret then
      ({ ctx with errcode := some .roBlockIterate }, ret.stop)
    else (ctx, ret)
  let (ctx, ind, ret) := indirectPart it (blockIterateInd it) n 12 (iBlock.getD 12 0) ret ctx
  let (ctx, dind, ret) :=
    indirectPart it (blockIterateDind it) (n * n) 13 (iBlock.getD 13 0) ret ctx
  let (ctx, tind, ret) := indirectPart it (blockIterateTind it) 0 14 (iBlock.getD 14 0) ret ctx
  (ctx, direct ++ [ind, dind, tind], ret)

/- The loop over the blocks of one extent, and whether the whole iteration goes on. -/
def leafLoop (uninit : Bool) :
    Nat → Nat → Nat → Handle → Ret → Ctx σ n → Handle × Ret × Ctx σ n × Bool
  | 0, _, _, h, ret, ctx => (h, ret, ctx, true)
  | len + 1, blk, blockcnt, h, ret, ctx =>
    let (priv, newBlk, r) := it.func ctx.priv ⟨blk, blockcnt, 0, 0⟩
    let ctx := { ctx with priv }
    let ret := ret.or r
    if it.roViolation ret then (h, ret.stop, { ctx with errcode := some .roBlockIterate }, false)
    else
      let (h, errcode) := if r.changed then it.extentSetBmap h blockcnt newBlk uninit
        else (h, ctx.errcode)
      let ctx := { ctx with errcode }
      if r.changed && errcode.isSome || ret.abort then (h, ret, ctx, false)
      else leafLoop uninit len (blk + 1) (blockcnt + 1) h ret ctx

def appendLoop : Nat → Nat → Handle → Ret → Ctx σ n → Option (Ctx σ n)
  | 0, _, _, _, _ => none
  | fuel + 1, blockcnt, h, ret, ctx =>
    let (priv, blk, r) := it.func ctx.priv ⟨0, blockcnt, 0, 0⟩
    let ctx := { ctx with priv }
    let ret := ret.or r
    if it.roViolation ret then some { ctx with errcode := some .roBlockIterate }
    else if r.changed then
      let (h, errcode) := it.extentSetBmap h blockcnt blk false
      let ctx := { ctx with errcode }
      if errcode.isSome || ret.abort || blk = 0 then some ctx
      else appendLoop fuel (blockcnt + 1) h ret ctx
    else some ctx

structure Cursor where
  op : Op
  extent : Extent
  handle : Handle
  blockcnt : Nat

/- The loop over the extents. An extent is fetched before the one in hand is gone through, and then
taken by `EXT2_EXTENT_CURRENT`. -/
def extentLoop : Nat → Cursor → Ret → Ctx σ n → Option (Ctx σ n)
  | 0, _, _, _ => none
  | fuel + 1, cur, ret, ctx =>
    let (h, got) :=
      if cur.op = .current then (cur.handle, .ok cur.extent)
        else extentGet it.fs.nodes cur.op cur.handle
    match got with
    | .error errcode =>
      if errcode ≠ .extentNoNext then some { ctx with errcode := some errcode }
      else if !it.flags.append then some { ctx with errcode := none }
      else appendLoop it fuel cur.blockcnt h ret { ctx with errcode := none }
    | .ok extent =>
      let ctx := { ctx with errcode := none }
      if !extent.leaf then
        if !it.flags.dataOnly && extent.secondVisit == it.flags.depthTraverse then
          let (priv, blk, r) := it.func ctx.priv ⟨extent.pblk, -1, 0, 0⟩
          let ctx := { ctx with priv }
          let ret := ret.or r
          let (h, errcode) := if ret.changed then it.extentReplace h { extent with pblk := blk }
            else (h, none)
          if errcode.isSome || ret.abort then some { ctx with errcode }
          else extentLoop fuel { cur with op := .next, extent, handle := h } ret ctx
        else extentLoop fuel { cur with op := .next, extent, handle := h } ret ctx
      else
        let (h, retval) := extentGet it.fs.nodes .next h
        if extent.lblk + extent.len ≤ cur.blockcnt then
          extentLoop fuel { cur with op := .next, extent, handle := h } ret ctx
        else
          let blk := extent.pblk + (max extent.lblk cur.blockcnt - extent.lblk)
          let (h, ret, ctx, more) := leafLoop it extent.uninit extent.len blk extent.lblk h ret ctx
          let blockcnt := extent.lblk + extent.len
          if !more then some ctx
          else
            match retval with
            | .ok next => extentLoop fuel ⟨.current, next, h, blockcnt⟩ ret ctx
            | .error _ => extentLoop fuel ⟨.next, extent, h, blockcnt⟩ ret ctx

end Blocks

inductive Mapping
  | inlineData
  | extents (depth : Nat) (root : List Entry)
  | blocks (iBlock : List Nat)

structure Inode where
  isDir : Bool
  sizeHigh : Nat
  translator : Nat
  mapping : Mapping

section Iterate3

variable {σ : Type} {n : Nat} (it : Iteration σ)

def translatorPart (inode : Inode) (ctx : Ctx σ n) : Ctx σ n × Nat × Ret :=
  if it.fs.hurd && !it.flags.dataOnly && inode.translator ≠ 0 then
    let (ctx, translator, ret) := call it ctx ⟨inode.translator, blockCountTranslator, 0, 0⟩
    if !ret.abort && it.roViolation ret then
      ({ ctx with errcode := some .roBlockIterate }, translator, ret.stop)
    else (ctx, translator, ret)
  else (ctx, inode.translator, Ret.zero)

def abortExit (ctx : Ctx σ n) (inode : Inode) (ret : Ret) :
    Ctx σ n × Option Inode × Option Errcode :=
  if ret.changed && it.fs.writeInodeFails then (ctx, none, some .io)
  else (ctx, if ret.changed then some inode else none, if ret.error then ctx.errcode else none)

/- The state at the end, the inode if it is written, and the error code. -/
def ext2fsBlockIterate3 (fuel : Nat) (inode : Inode) (disk : Disk n) (priv : σ) :
    Option (Ctx σ n × Option Inode × Option Errcode) :=
  let ctx : Ctx σ n := ⟨priv, disk, 0, none⟩
  if inode.mapping matches .inlineData then some (ctx, none, some .inlineDataCantIterate)
  else if it.flags.noLarge && !inode.isDir && inode.sizeHigh ≠ 0 then
    some (ctx, none, some .fileTooBig)
  else
    let (ctx, translator, ret) := translatorPart it inode ctx
    let inode := { inode with translator }
    if ret.abort then some (abortExit it ctx inode ret)
    else
      match inode.mapping with
      | .inlineData => none
      | .extents depth root =>
        (extentLoop it fuel ⟨.root, ⟨0, 0, 0, false, false, false⟩, extentOpen depth root, 0⟩ ret
          ctx).map fun ctx => (ctx, none, ctx.errcode)
      | .blocks iBlock =>
        let (ctx, iBlock, ret) := blockMapped it iBlock ret ctx
        some (abortExit it ctx { inode with mapping := .blocks iBlock } ret)

end Iterate3

end E2fs.Iterate
