import E2fs.ExtAttr.Buffer

/-! The attributes of an inode: `ext2fs_xattrs_read` and `ext2fs_xattrs_write` of
lib/ext2fs/ext_attr.c, in the inode behind its extra fields and in a block of their own. -/
namespace E2fs.ExtAttr
open Memory

def extAttrMagicV1 : Nat := 0xEA010000
def extAttrMagic : Nat := 0xEA020000

/-- The file system and the number of the inode. Checksums of attribute blocks are two
functions: what one sets, the other accepts. -/
structure EaFs where
  signedChar : Bool
  inodeSize : Nat
  blocksize : Nat
  wantExtraIsize : Nat
  firstDataBlock : Nat
  blocksCount : Nat
  has64bit : Bool
  eaInode : Bool
  inode : Nat → Option EaInode
  ino : Nat
  csumVerify : Nat → Mem → Bool
  csumSet : Nat → Mem → Mem
  inode_aligned : 4 ∣ inodeSize
  good_old : 128 ≤ inodeSize
  inode_le : inodeSize ≤ blocksize
  block_aligned : 4 ∣ blocksize
  block_ge : 1024 ≤ blocksize
  block_le : blocksize ≤ 2 ^ 16
  want_lt : wantExtraIsize < 2 ^ 16
  count_le : blocksCount ≤ if has64bit then 2 ^ 48 else 2 ^ 32
  no_zero : inode 0 = none
  csum_accepts : ∀ blk m, csumVerify blk (csumSet blk m) = true
  csum_keeps : ∀ blk m (q : Int), q < 16 ∨ 20 ≤ q → csumSet blk m q = m q

/-- What is on disk: the bytes of the inode, and the blocks. -/
structure Disk where
  inode : Mem
  blocks : Nat → Mem

structure Handle where
  attrs : List Xattr
  ibodyCount : Nat
  deriving DecidableEq

/-- A free block, as the allocator gives it. -/
def EaFs.FreeBlock (fs : EaFs) : Type :=
  { blk : Nat // fs.firstDataBlock ≤ blk ∧ blk < fs.blocksCount ∧ blk ≠ 0 }

section Inode

variable (fs : EaFs)

/- `ext2fs_read_inode_full` into a zeroed buffer. -/
def readInodeFull (d : Disk) : Mem := fun q => if 0 ≤ q ∧ q < fs.inodeSize then d.inode q else 0

def context (inode : Mem) : Context :=
  ⟨fs.signedChar, fs.eaInode, fs.inode, fs.no_zero, fs.ino, load inode 100 4⟩

def extraIsize (inode : Mem) : Nat := load inode 128 2

def fileAclBlock (inode : Mem) : Nat :=
  load inode 104 4 + if fs.has64bit then 2 ^ 32 * load inode 118 2 else 0

def fileAclBlockSet (inode : Mem) (blk : Nat) : Mem :=
  let inode := store inode 104 4 blk
  if fs.has64bit then store inode 118 2 (blk / 2 ^ 32) else inode

def noSpace (inode : Mem) : Prop :=
  extraIsize inode < 2 ∨ fs.inodeSize ≤ 128 + extraIsize inode + 4

instance (inode : Mem) : Decidable (noSpace fs inode) := inferInstanceAs (Decidable (_ ∨ _))

def ibodyStart (inode : Mem) : Nat := 128 + extraIsize inode + 4

def ibodySize (inode : Mem) : Nat := fs.inodeSize - 128 - extraIsize inode - 4

end Inode

section Read

variable (fs : EaFs)

def readIbody (inode : Mem) : Except Errcode (List Xattr) :=
  if noSpace fs inode then .ok []
  else if extraIsize inode % 4 ≠ 0 then .error .inodeCorrupted
  else if load inode (128 + extraIsize inode) 4 = extAttrMagic then
    readXattrsFromBuffer (context fs inode) (shift inode (ibodyStart inode)) (ibodySize fs inode) 0
  else .ok []

/- `ext2fs_read_ext_attr3` and the check of the magic number behind it. -/
def readExtAttr3 (blocks : Nat → Mem) (blk : Nat) : Except Errcode Mem :=
  let buf := blocks blk
  if (load buf 0 4 ≠ extAttrMagicV1 ∧ load buf 0 4 ≠ extAttrMagic) ∨ load buf 8 4 ≠ 1 then
    .error .badEaHeader
  else if fs.csumVerify blk buf = false then .error .extAttrCsumInvalid
  else if load buf 0 4 ≠ extAttrMagic then .error .badEaHeader
  else .ok buf

def blockOutside (blk : Nat) : Prop := blk < fs.firstDataBlock ∨ fs.blocksCount ≤ blk

instance (blk : Nat) : Decidable (blockOutside fs blk) := inferInstanceAs (Decidable (_ ∨ _))

def readEaBlock (inode : Mem) (blocks : Nat → Mem) : Except Errcode (List Xattr) :=
  let blk := fileAclBlock fs inode
  if blk = 0 then .ok []
  else if blockOutside fs blk then .error .badEaBlockNum
  else do
    let buf ← readExtAttr3 fs blocks blk
    readXattrsFromBuffer (context fs inode) (shift buf 32) (fs.blocksize - 32) 32

def xattrsRead (d : Disk) : Except Errcode Handle := do
  let inode := readInodeFull fs d
  let ibody ← readIbody fs inode
  let block ← readEaBlock fs inode d.blocks
  .ok ⟨ibody ++ block, ibody.length⟩

end Read

section Write

variable (fs : EaFs)

def setExtraIsize (inode : Mem) : Mem :=
  if extraIsize inode = 0 ∧ 128 < fs.inodeSize then
    let extra := if fs.wantExtraIsize = 0 then 4 else fs.wantExtraIsize
    store (zero inode 128 extra) 128 2 extra
  else inode

/-- A run of the writer over a buffer of a given size. -/
structure BufferRun where
  run : WriteState
  size : Nat

def writeIbody (inode : Mem) (attrs : List Xattr) : Except Errcode (Mem × List BufferRun) :=
  if noSpace fs inode then .ok (inode, [])
  else
    let start := ibodyStart inode
    let size := ibodySize fs inode
    let inode := store inode (128 + extraIsize inode) 4 extAttrMagic
    match writeXattrsToBuffer (context fs inode) 0 false attrs (shift inode start) size with
    | .error code => .error code
    | .ok run => .ok (shift run.mem (-start), [⟨run, size⟩])

/- `prep_ea_block_for_write`. A block that others use as well is given up for a new one. -/
def prepEaBlockForWrite (alloc : Option fs.FreeBlock) (inode : Mem) (blocks : Nat → Mem) :
    Except Errcode (Mem × (Nat → Mem)) :=
  let blk := fileAclBlock fs inode
  let allocate (blocks : Nat → Mem) : Except Errcode (Mem × (Nat → Mem)) :=
    match alloc with
    | none => .error .blockAllocFail
    | some new => .ok (fileAclBlockSet fs inode new.1, blocks)
  if blk = 0 then allocate blocks
  else if blockOutside fs blk then .error .badEaBlockNum
  else
    match readExtAttr3 fs blocks blk with
    | .error code => .error code
    | .ok buf =>
      if load buf 4 4 = 1 then .ok (inode, blocks)
      else
        let shared := store buf 4 4 (sub32 (load buf 4 4) 1)
        allocate (Function.update blocks blk (fs.csumSet blk shared))

def writeHeader (buf : Mem) : Mem := store (store (store buf 0 4 extAttrMagic) 4 4 1) 8 4 1

def writeEaBlock (alloc : Option fs.FreeBlock) (inode : Mem) (blocks : Nat → Mem)
    (attrs : List Xattr) : Except Errcode (Mem × (Nat → Mem) × List BufferRun) :=
  if attrs = [] ∧ fileAclBlock fs inode = 0 then .ok (inode, blocks, [])
  else
    let size := fs.blocksize - 32
    match writeXattrsToBuffer (context fs inode) 32 true attrs (fun _ => 0) size with
    | .error code => .error code
    | .ok run =>
      let buf := writeHeader (shift run.mem (-32))
      match prepEaBlockForWrite fs alloc inode blocks with
      | .error code => .error code
      | .ok (inode, blocks) =>
        let blk := fileAclBlock fs inode
        .ok (inode, Function.update blocks blk (fs.csumSet blk buf), [⟨run, size⟩])

def xattrsWrite (alloc : Option fs.FreeBlock) (d : Disk) (h : Handle) :
    Except Errcode (Disk × List BufferRun) :=
  let inode := setExtraIsize fs (readInodeFull fs d)
  if extraIsize inode % 4 ≠ 0 then .error .inodeCorrupted
  else
    match writeIbody fs inode (h.attrs.take h.ibodyCount) with
    | .error code => .error code
    | .ok (inode, ibody) =>
      match writeEaBlock fs alloc inode d.blocks (h.attrs.drop h.ibodyCount) with
      | .error code => .error code
      | .ok (inode, blocks, block) => .ok (⟨inode, blocks⟩, ibody ++ block)

end Write

end E2fs.ExtAttr
