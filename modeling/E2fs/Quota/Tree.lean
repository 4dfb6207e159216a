import E2fs.Lib.Word
import E2fs.Quota.Record

/-! The quota file of lib/support/quotaio_tree.c: a radix tree over ids, blocks of records,
a list of blocks with free entries and a list of free blocks. File writes do not fail. -/
namespace E2fs.Quota
open Memory Word

/- `struct quota_handle` with the fields of `qtree_mem_dqinfo`. What was never written reads
as zeros. -/
structure QuotaHandle where
  file : Mem
  blocks : Nat
  freeBlk : Nat
  freeEntry : Nat

/- `struct dquot`: the offset in the file is zero when there is no record. -/
structure Dquot where
  id : UInt32
  dqb : Dqblk
  off : Int

/- `v2_new_io`. The header and the information are in block zero. -/
def newIo (header : List UInt8) : QuotaHandle where
  file := fun q => if 0 ≤ q ∧ q < 1024 then header.getD q.toNat 0 else 0
  blocks := 2
  freeBlk := 0
  freeEntry := 0

section Buffers

abbrev Buf := Mem

def getdqbuf : Buf := fun _ => 0

def nextFree (buf : Buf) : Nat := load buf 0 4

def prevFree (buf : Buf) : Nat := load buf 4 4

def entries (buf : Buf) : Nat := load buf 8 2

def ref (buf : Buf) (i : Nat) : Nat := load buf (4 * i) 4

def setNextFree (buf : Buf) (blk : Nat) : Buf := store buf 0 4 blk

def setPrevFree (buf : Buf) (blk : Nat) : Buf := store buf 4 4 blk

def setEntries (buf : Buf) (n : Nat) : Buf := store buf 8 2 n

def setRef (buf : Buf) (i blk : Nat) : Buf := store buf (4 * i) 4 blk

/- `qtree_dqstr_in_blk`: records in a block behind the header of 16 bytes. -/
def dqstrInBlk : Nat := 14

def slot (buf : Buf) (i : Nat) : List UInt8 := readBytes buf (16 + 72 * i) 72

end Buffers

def blkOff (blk : Nat) : Nat := blk * 1024 % 2 ^ 32

def readBlk (h : QuotaHandle) (blk : Nat) : Buf := fun q =>
  if 0 ≤ q ∧ q < 1024 then h.file (blkOff blk + q) else 0

def writeBlk (h : QuotaHandle) (blk : Nat) (buf : Buf) : QuotaHandle :=
  { h with file := fun q =>
      if blkOff blk ≤ q ∧ q < blkOff blk + 1024 then buf (q - blkOff blk) else h.file q }

def e2fsWrite (h : QuotaHandle) (off : Int) (bytes : List UInt8) : QuotaHandle :=
  { h with file := writeBytes h.file off bytes }

def getFreeDqblk (h : QuotaHandle) : QuotaHandle × Nat :=
  if h.freeBlk ≠ 0 then
    ({ h with freeBlk := nextFree (readBlk h h.freeBlk) }, h.freeBlk)
  else ({ writeBlk h h.blocks getdqbuf with blocks := h.blocks + 1 }, h.blocks)

def putFreeDqblk (h : QuotaHandle) (buf : Buf) (blk : Nat) : QuotaHandle :=
  writeBlk { h with freeBlk := blk } blk (setEntries (setPrevFree (setNextFree buf h.freeBlk) 0) 0)

/- The handle and what the buffer then holds. -/
def removeFreeDqentry (h : QuotaHandle) (buf : Buf) (blk : Nat) : QuotaHandle × Buf :=
  let nextblk := nextFree buf
  let prevblk := prevFree buf
  let h := if nextblk ≠ 0 then writeBlk h nextblk (setPrevFree (readBlk h nextblk) prevblk) else h
  let h := if prevblk ≠ 0 then writeBlk h prevblk (setNextFree (readBlk h prevblk) nextblk)
    else { h with freeEntry := nextblk }
  let buf := setPrevFree (setNextFree buf 0) 0
  (writeBlk h blk buf, buf)

def insertFreeDqentry (h : QuotaHandle) (buf : Buf) (blk : Nat) : QuotaHandle :=
  let h' := writeBlk h blk (setPrevFree (setNextFree buf h.freeEntry) 0)
  let h' := if h.freeEntry ≠ 0 then
    writeBlk h' h.freeEntry (setPrevFree (readBlk h' h.freeEntry) blk) else h'
  { h' with freeEntry := blk }

/- The first record that passes, or the number of records. -/
def findSlot (buf : Buf) (found : List UInt8 → Bool) : Nat :=
  ((List.range dqstrInBlk).find? fun i => found (slot buf i)).getD dqstrInBlk

section Insert

/- The block and the offset of the record. The offset is computed from an `int`. -/
def findFreeDqentry (h : QuotaHandle) : QuotaHandle × Nat × Int :=
  let (h, blk, buf) :=
    if h.freeEntry ≠ 0 then (h, h.freeEntry, readBlk h h.freeEntry)
    else
      let (h, blk) := getFreeDqblk h
      ({ h with freeEntry := blk }, blk, getdqbuf)
  -- block will be full?
  let (h, buf) := if entries buf + 1 ≥ dqstrInBlk then removeFreeDqentry h buf blk else (h, buf)
  let buf := setEntries buf (entries buf + 1)
  let i := findSlot buf entryUnused
  (writeBlk h blk buf, blk, toInt32 (blk * 1024) + 16 + 72 * i)

/- The tree has `QT_TREEDEPTH` levels, four, and the references of a level are chosen by
eight bits of the id. -/
def getIndex (id : UInt32) (depth : Nat) : Nat := (id.toNat >>> ((4 - depth - 1) * 8)) &&& 0xff

def openTree (h : QuotaHandle) (treeblk : Nat) : QuotaHandle × Nat × Buf :=
  if treeblk = 0 then
    let (h, blk) := getFreeDqblk h
    (h, blk, getdqbuf)
  else (h, treeblk, readBlk h treeblk)

def linkSon (h : QuotaHandle) (treeblk : Nat) (buf : Buf) (index son : Nat) : QuotaHandle :=
  if ref buf index = 0 then writeBlk h treeblk (setRef buf index son) else h

/- `do_insert_tree` with a number of levels below: the block of the tree and the offset of the
record. -/
def doInsertTree (id : UInt32) : Nat → QuotaHandle → Nat → QuotaHandle × Nat × Int
  | 0, h, treeblk =>
    let (h, treeblk, buf) := openTree h treeblk
    let (h, son, off) := findFreeDqentry h
    (linkSon h treeblk buf (getIndex id 3) son, treeblk, off)
  | levels + 1, h, treeblk =>
    let index := getIndex id (2 - levels)
    let (h, treeblk, buf) := openTree h treeblk
    let (h, son, off) := doInsertTree id levels h (ref buf index)
    (linkSon h treeblk buf index son, treeblk, off)

def treeoff : Nat := 1

def qtreeWriteDquot (h : QuotaHandle) (dquot : Dquot) : QuotaHandle × Dquot :=
  let (h, off) := if dquot.off = 0 then
      let (h, _, off) := doInsertTree dquot.id 3 h treeoff
      (h, off)
    else (h, dquot.off)
  (e2fsWrite h off (mem2disk dquot.id dquot.dqb), { dquot with off := off })

end Insert

section Remove

def freeDqentry (h : QuotaHandle) (off : Int) (blk : Nat) : QuotaHandle :=
  let buf := readBlk h blk
  let buf := setEntries buf ((entries buf + 65535) % 65536)
  if entries buf = 0 then
    let (h, buf) := removeFreeDqentry h buf blk
    putFreeDqblk h buf blk
  else
    let buf := zero buf (off % 1024) 72
    -- first free entry?
    if entries buf = dqstrInBlk - 1 then insertFreeDqentry h buf blk else writeBlk h blk buf

/- A reference that is gone is cleared. A block that got empty is put to the free blocks, but
not the root; the block is zero then. -/
def unlinkSon (h : QuotaHandle) (blk : Nat) (buf : Buf) (index son : Nat) : QuotaHandle × Nat :=
  if son = 0 then
    let buf := setRef buf index 0
    if (List.range 1024).all (fun i : Nat => buf i = 0) ∧
      blk ≠ treeoff then (putFreeDqblk h buf blk, 0)
    else (writeBlk h blk buf, blk)
  else (h, blk)

def removeTree (id : UInt32) (off : Int) : Nat → QuotaHandle → Nat → QuotaHandle × Nat
  | 0, h, blk =>
    let buf := readBlk h blk
    unlinkSon (freeDqentry h off (ref buf (getIndex id 3))) blk buf (getIndex id 3) 0
  | levels + 1, h, blk =>
    let index := getIndex id (2 - levels)
    let buf := readBlk h blk
    let (h, son) := removeTree id off levels h (ref buf index)
    unlinkSon h blk buf index son

def qtreeDeleteDquot (h : QuotaHandle) (dquot : Dquot) : QuotaHandle × Dquot :=
  if dquot.off = 0 then (h, dquot)
  else ((removeTree dquot.id dquot.off 3 h treeoff).1, { dquot with off := 0 })

end Remove

section Read

def findBlockDqentry (h : QuotaHandle) (id : UInt32) (blk : Nat) : Int :=
  blkOff blk + 16 + 72 * (findSlot (readBlk h blk) (isId · id) : Nat)

def findTreeDqentry (h : QuotaHandle) (id : UInt32) : Nat → Nat → Int
  | 0, blk =>
    let blk := ref (readBlk h blk) (getIndex id 3)
    if blk = 0 then 0 else findBlockDqentry h id blk
  | levels + 1, blk =>
    let blk := ref (readBlk h blk) (getIndex id (2 - levels))
    if blk = 0 then 0 else findTreeDqentry h id levels blk

def findDqentry (h : QuotaHandle) (id : UInt32) : Int := findTreeDqentry h id 3 treeoff

def qtreeReadDquot (h : QuotaHandle) (id : UInt32) : Dquot :=
  let off := findDqentry h id
  if 0 < off then
    let disk := readBytes h.file off 72
    ⟨diskId disk, disk2mem disk, off⟩
  else ⟨id, Dqblk.zero, 0⟩

end Read

section Scan

/- What a scan has so far: the data blocks it has seen, and the dquots it has handed to the
callback, which does not stop it. -/
structure Report where
  bitmap : Nat → Bool
  dquots : List Dquot

def reportBlock (h : QuotaHandle) (blk : Nat) (r : Report) : Report :=
  let buf := readBlk h blk
  let found := (List.range dqstrInBlk).filter fun i => !entryUnused (slot buf i)
  ⟨fun b => b = blk || r.bitmap b, r.dquots ++ found.map fun i =>
    ⟨diskId (slot buf i), disk2mem (slot buf i), blkOff blk + 16 + 72 * i⟩⟩

/- `report_tree`; `none` after a reference to a block that the file does not have. -/
def reportTree (h : QuotaHandle) : Nat → Nat → Report → Option Report
  | 0, blk, r =>
    (List.range 256).foldlM (fun r i =>
      let blk := ref (readBlk h blk) i
      if h.blocks ≤ blk then none
      else if blk ≠ 0 ∧ r.bitmap blk = false then some (reportBlock h blk r)
      else some r) r
  | levels + 1, blk, r =>
    (List.range 256).foldlM (fun r i =>
      let blk := ref (readBlk h blk) i
      if blk = 0 then some r
      else if h.blocks ≤ blk then none
      else reportTree h levels blk r) r

def qtreeScanDquots (h : QuotaHandle) : Option (List Dquot) :=
  (reportTree h 3 treeoff ⟨fun _ => false, []⟩).map (·.dquots)

end Scan

/-- A call on a quota file. The caller brings the dquot. -/
inductive Op where
  | write (dquot : Dquot)
  | delete (dquot : Dquot)
  | read (id : UInt32)

def step (h : QuotaHandle) : Op → QuotaHandle
  | .write dquot => (qtreeWriteDquot h dquot).1
  | .delete dquot => (qtreeDeleteDquot h dquot).1
  | .read _ => h

def runOps (h : QuotaHandle) (ops : List Op) : QuotaHandle := ops.foldl step h

end E2fs.Quota
