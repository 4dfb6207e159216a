import E2fs.Lib.Run
import E2fs.Lib.Word

/-! The block allocator of `e2fsdroid` (contrib/android/basefs_allocator.c): a file gets the
blocks it has in the base image. -/
namespace E2fs.BaseFs
open Word

/-- What the allocator reads of a superblock that e2fsck does not correct. -/
structure Geometry where
  firstDataBlock : Nat
  blocksCount : Nat
  clusterRatioBits : Nat
  blocksize : Nat
  first_lt : firstDataBlock < blocksCount
  first_le : firstDataBlock ≤ 1
  first_eq : 0 < clusterRatioBits → firstDataBlock = 0

section Bitmaps

abbrev Bits := Nat → Bool

def cluster (geo : Geometry) (block : Nat) : Nat := block / 2 ^ geo.clusterRatioBits

def Inside (geo : Geometry) (c : Nat) : Prop :=
  cluster geo geo.firstDataBlock ≤ c ∧ c ≤ cluster geo (geo.blocksCount - 1)

instance (geo : Geometry) (c : Nat) : Decidable (Inside geo c) :=
  inferInstanceAs (Decidable (_ ∧ _))

/- A block outside the bitmap is reported, and not in use. -/
def testBlockBitmap2 (geo : Geometry) (bits : Bits) (block : Nat) : Bool :=
  if Inside geo (cluster geo block) then bits (cluster geo block) else false

def setBlockBitmap2 (geo : Geometry) (value : Bool) (bits : Bits) (block : Nat) : Bits :=
  if Inside geo (cluster geo block) then Function.update bits (cluster geo block) value else bits

def markBlockBitmap2 (geo : Geometry) : Bits → Nat → Bits := setBlockBitmap2 geo true

def unmarkBlockBitmap2 (geo : Geometry) : Bits → Nat → Bits := setBlockBitmap2 geo false

def findFirst (p : Nat → Bool) (start stop : Nat) : Option Nat :=
  (List.range' start (stop + 1 - start)).find? p

def startGoal (geo : Geometry) (goal : Nat) : Nat :=
  let goal := if goal = 0 ∨ goal ≥ geo.blocksCount then geo.firstDataBlock else goal
  goal - goal % 2 ^ geo.clusterRatioBits

def newBlock2 (geo : Geometry) (goal : Nat) (map : Bits) : Option Nat :=
  let goal := startGoal geo goal
  match findFirst (fun b => !testBlockBitmap2 geo map b) goal (geo.blocksCount - 1) with
  | some b => some b
  | none =>
    if goal ≠ geo.firstDataBlock then findFirst (fun b => !testBlockBitmap2 geo map b)
      geo.firstDataBlock (goal - 1)
    else none

end Bitmaps

section Ranges

structure BlockRange where
  start : Nat
  end_ : Nat

def addBlocksToRange (list : List BlockRange) (blkStart blkEnd : Nat) : List BlockRange :=
  match list.getLast? with
  | none => [⟨blkStart, blkEnd⟩]
  | some tail =>
    if add64 tail.end_ 1 = blkStart then
      list.dropLast ++ [⟨tail.start, add64 tail.end_ (add64 (sub64 blkEnd blkStart) 1)⟩]
    else list ++ [⟨blkStart, blkEnd⟩]

/- The list must not be empty. A range that ends before it starts has one block. -/
def consumeNextBlock : List BlockRange → Option (Nat × List BlockRange)
  | [] => none
  | head :: next =>
    let start := add64 head.start 1
    some (head.start, if start > head.end_ then next else ⟨start, head.end_⟩ :: next)

/- How often a block can be taken: the bound for the loops that take them. -/
def blocksLeft (list : List BlockRange) : Nat := (list.map fun r => r.end_ - r.start + 1).sum

end Ranges

structure Maps where
  blockMap : Bits
  exclusive : Bits
  dedup : Bits

structure Entry where
  path : String
  blocks : List BlockRange

/- `curEntry` is the place of the entry in the order the hash map is walked in. -/
structure State where
  maps : Maps
  entries : List Entry
  curEntry : Option Nat
  nextLblk : Nat

section Reserve

variable (geo : Geometry)

def fsReserveBlock (maps : Maps) (block : Nat) : Maps × Bool :=
  if block ≥ geo.blocksCount then (maps, false)
  else if testBlockBitmap2 geo maps.blockMap block then
    if !testBlockBitmap2 geo maps.exclusive block then (maps, false)
    else ({ maps with
      exclusive := unmarkBlockBitmap2 geo maps.exclusive block
      dedup := markBlockBitmap2 geo maps.dedup block }, false)
  else ({ maps with
    blockMap := markBlockBitmap2 geo maps.blockMap block
    exclusive := markBlockBitmap2 geo maps.exclusive block }, true)

def reserveLoop (needed : Nat) : List Nat → Nat → Maps → Maps
  | [], _, maps => maps
  | block :: rest, acquired, maps =>
    let (maps, owned) := fsReserveBlock geo maps block
    let acquired := if owned then acquired + 1 else acquired
    if acquired ≥ needed then maps else reserveLoop needed rest acquired maps

def fsReserveBlocksRange (maps : Maps) (list : List BlockRange) (fileSize : Nat) : Maps :=
  reserveLoop geo ((fileSize + (geo.blocksize - 1)) / geo.blocksize)
    (list.flatMap fun r => List.range' r.start (r.end_ + 1 - r.start)) 0 maps

/- `fileSize` is the size of a regular file in the source directory. -/
def fsReserveBlocks (fileSize : String → Option Nat) (maps : Maps) (entries : List Entry) : Maps :=
  entries.foldl (fun maps e =>
    match fileSize e.path with
    | some size => fsReserveBlocksRange geo maps e.blocks size
    | none => maps) maps

structure Line where
  path : String
  ranges : List (Nat × Nat)

def atoll (n : Nat) : Nat := min n (2 ^ 63 - 1)

def basefsReadline (line : Line) : Entry :=
  ⟨line.path, line.ranges.foldl (fun list r => addBlocksToRange list (atoll r.1) (atoll r.2)) []⟩

/- The hash map is walked from the entry that was added last, and finds that one first. -/
def basefsParse (lines : List Line) : List Entry := (lines.map basefsReadline).reverse

def baseFsAllocLoad (lines : List Line) (fileSize : String → Option Nat) (blockMap : Bits) :
    State :=
  let entries := basefsParse lines
  ⟨fsReserveBlocks geo fileSize ⟨blockMap, fun _ => false, fun _ => false⟩ entries, entries,
    none, 0⟩

end Reserve

section Allocate

variable (geo : Geometry)

def releaseBlock (maps : Maps) (block : Nat) : Maps :=
  if testBlockBitmap2 geo maps.exclusive block then
    { maps with
      blockMap := unmarkBlockBitmap2 geo maps.blockMap block
      exclusive := unmarkBlockBitmap2 geo maps.exclusive block }
  else maps

def freeLoop : Nat → Maps → List BlockRange → Maps
  | 0, maps, _ => maps
  | fuel + 1, maps, list =>
    match consumeNextBlock list with
    | none => maps
    | some (block, rest) => freeLoop fuel (releaseBlock geo maps block) rest

def fsFreeBlocksRange (maps : Maps) (list : List BlockRange) : Maps :=
  freeLoop geo (blocksLeft list) maps list

def freeBitmapLoop (bitmap : Bits) : Nat → Nat → Bits → Bits
  | 0, _, blockMap => blockMap
  | fuel + 1, start, blockMap =>
    match findFirst (testBlockBitmap2 geo bitmap) start (geo.blocksCount - 1) with
    | none => blockMap
    | some block => freeBitmapLoop bitmap fuel (block + 1) (unmarkBlockBitmap2 geo blockMap block)

def fsFreeBlocksBitmap (bitmap blockMap : Bits) : Bits :=
  freeBitmapLoop geo bitmap (geo.blocksCount - geo.firstDataBlock) geo.firstDataBlock blockMap

def State.list (s : State) (i : Nat) : List BlockRange := (s.entries[i]?).elim [] Entry.blocks

def State.setList (s : State) (i : Nat) (list : List BlockRange) : State :=
  { s with entries := s.entries.modify i fun e => { e with blocks := list } }

def getNextBlock (s : State) (i : Nat) : State × Option Nat :=
  match consumeNextBlock (s.list i) with
  | none => (s, none)
  | some (block, rest) =>
    let s := s.setList i rest
    if block ≥ geo.blocksCount then (s, none)
    else if testBlockBitmap2 geo s.maps.exclusive block then
      ({ s with maps := { s.maps with
          exclusive := unmarkBlockBitmap2 geo s.maps.exclusive block } }, some block)
    else if testBlockBitmap2 geo s.maps.dedup block then
      ({ s with maps := { s.maps with dedup := unmarkBlockBitmap2 geo s.maps.dedup block } },
        some block)
    else (s, none)

/- A block that is not on the device does not count. -/
def skipLoop (lblk i : Nat) : Nat → State → State
  | 0, s => s
  | fuel + 1, s =>
    match consumeNextBlock (s.list i) with
    | none => s
    | some (block, rest) =>
      if s.nextLblk < lblk then
        let s := s.setList i rest
        if block ≥ geo.blocksCount then skipLoop lblk i fuel s
        else skipLoop lblk i fuel { s with
          maps := releaseBlock geo s.maps block, nextLblk := s.nextLblk + 1 }
      else s

def skipBlocks (s : State) (i lblk : Nat) : State := skipLoop geo lblk i (blocksLeft (s.list i)) s

/- What an allocation comes to. The last loop reads through `cur_entry`, which may be null. -/
inductive Answer where
  | done
  | blockAllocFail
  | block (b : Nat)
  | nullPointer

def lastResort (i : Nat) : Nat → State → State × Answer
  | 0, s => (s, .blockAllocFail)
  | fuel + 1, s =>
    if (s.list i).isEmpty then (s, .blockAllocFail)
    else
      match getNextBlock geo s i with
      | (s, some b) => (s, .block b)
      | (s, none) => lastResort i fuel s

structure Ctx where
  data : Bool
  lblk : Nat

def fromList (s : State) (ctx : Option Ctx) : State × Option Nat :=
  match s.curEntry, ctx with
  | some i, some ctx =>
    if ctx.data then
      let s := if s.nextLblk < ctx.lblk then skipBlocks geo s i ctx.lblk else s
      getNextBlock geo { s with nextLblk := add64 ctx.lblk 1 } i
    else (s, none)
  | _, _ => (s, none)

def basefsBlockAllocator (s : State) (goal : Nat) (ctx : Option Ctx) : State × Answer :=
  match fromList geo s ctx with
  | (s, some b) => (s, .block b)
  | (s, none) =>
    match newBlock2 geo goal s.maps.blockMap with
    | some b =>
      ({ s with maps := { s.maps with blockMap := markBlockBitmap2 geo s.maps.blockMap b } },
        .block b)
    | none =>
      match findFirst (testBlockBitmap2 geo s.maps.dedup) geo.firstDataBlock
          (geo.blocksCount - 1) with
      | some b =>
        ({ s with maps := { s.maps with dedup := unmarkBlockBitmap2 geo s.maps.dedup b } },
          .block b)
      | none =>
        match s.curEntry with
        | none => (s, .nullPointer)
        | some i => lastResort geo i (blocksLeft (s.list i)) s

def baseFsAllocSetTarget (s : State) (path : String) (regular : Bool) : State :=
  if regular then { s with curEntry := s.entries.findIdx? fun e => e.path == path, nextLblk := 0 }
    else s

def baseFsAllocUnsetTarget (s : State) (regular : Bool) : State :=
  match s.curEntry with
  | none => s
  | some i =>
    if regular then { s.setList i [] with maps := fsFreeBlocksRange geo s.maps (s.list i) } else s

inductive Op where
  | setTarget (path : String) (regular : Bool)
  | alloc (goal : Nat) (ctx : Option Ctx)
  | unsetTarget (regular : Bool)

def step (s : State) : Op → State × Answer
  | .setTarget path regular => (baseFsAllocSetTarget s path regular, .done)
  | .alloc goal ctx => basefsBlockAllocator geo s goal ctx
  | .unsetTarget regular => (baseFsAllocUnsetTarget geo s regular, .done)

def baseFsAllocCleanup (s : State) : Bits :=
  let maps := s.entries.foldl (fun maps e => fsFreeBlocksRange geo maps e.blocks) s.maps
  fsFreeBlocksBitmap geo maps.dedup maps.blockMap

end Allocate

end E2fs.BaseFs
