import E2fs.Lib.Device
import E2fs.Lib.Run
import E2fs.Lib.Word

/-! The undo I/O channel, `undo_io.c`: what a request overwrites is first copied into the undo
file, in blocks of `tdb_data_size`, under keys that `e2undo` reads. -/
namespace E2fs.Undo
open Memory Device

section Checksum

/- `ext2fs_crc32c_le`, bit by bit. -/
def crc32cBit (crc : UInt32) : UInt32 :=
  if crc &&& 1 = 1 then (crc >>> 1) ^^^ 0x82F63B78 else crc >>> 1

def crc32cByte (crc : UInt32) (b : UInt8) : UInt32 := (crc32cBit^[8]) (crc ^^^ b.toUInt32)

def crc32c (crc : UInt32) (l : List UInt8) : UInt32 := l.foldl crc32cByte crc

theorem crc32c_append (crc : UInt32) (l l' : List UInt8) :
    crc32c crc (l ++ l') = crc32c (crc32c crc l) l' :=
  List.foldl_append

end Checksum

structure Key where
  fsblk : Nat
  blkCrc : UInt32
  size : Nat

/- The fields of `struct undo_header` that are needed to read the keys. -/
structure Header where
  numKeys : Nat
  keyOffset : Nat
  blockSize : Nat
  fsBlockSize : Nat
  fsOffset : Nat

/- `struct undo_private_data`, with the channel's block size, the backing device and the undo file.
`keyb` has the keys in the current key block. -/
structure Channel where
  dev : Content
  devSize : Nat
  blockSize : Nat
  offset : Nat
  tdbDataSize : Nat
  file : Content
  hdr : Header
  undoBlkNum : Nat
  keyBlkNum : Nat
  keyb : List Key
  numKeys : Nat
  written : Nat → Bool

def firstKeyBlk : Nat := 2

def maxExtentBlocks : Nat := 512

def keysPerBlock (blocksize : Nat) : Nat := blocksize / 16 - 1

section KeyBlock

def encodeKey (key : Key) : List UInt8 :=
  toBytes 8 key.fsblk ++ toBytes 4 key.blkCrc.toNat ++ toBytes 4 key.size

def encodeKeyb (crc : UInt32) (keys : List Key) : List UInt8 :=
  toBytes 4 0xCADECADE ++ toBytes 4 crc.toNat ++ toBytes 8 0 ++ keys.flatMap encodeKey

def buffer (l : List UInt8) : Content := fun j => l.getD j 0

/- The checksum is over the whole block, with zero for itself. -/
def keybCrc (blocksize : Nat) (keys : List Key) : UInt32 :=
  crc32c 0xFFFFFFFF (bytesAt (buffer (encodeKeyb 0 keys)) 0 blocksize)

def keyBlock (blocksize : Nat) (keys : List Key) : Content :=
  buffer (encodeKeyb (keybCrc blocksize keys) keys)

end KeyBlock

def Channel.pos (ch : Channel) (block : Nat) : Nat := (block * ch.blockSize + ch.offset) % 2 ^ 64

/- `write_undo_indexes`: the key block, a new one if it is full, and the header. -/
def writeKeyb (ch : Channel) : Channel :=
  if ch.keyb = [] then ch
  else
    let ch := { ch with
      file := patch ch.file (ch.keyBlkNum * ch.tdbDataSize) ch.tdbDataSize
        (keyBlock ch.tdbDataSize ch.keyb) }
    if ch.keyb.length = keysPerBlock ch.tdbDataSize then
      { ch with keyb := [], keyBlkNum := ch.undoBlkNum, undoBlkNum := ch.undoBlkNum + 1 }
    else ch

def writeUndoIndexes (ch : Channel) : Channel :=
  let ch := writeKeyb ch
  { ch with hdr := ⟨ch.numKeys, firstKeyBlk, ch.tdbDataSize, ch.blockSize, ch.offset⟩ }

/- The last key is extended, or there is a new one. -/
def extends_ (ch : Channel) (key : Key) (backing dataSize : Nat) : Bool :=
  (key.fsblk * ch.blockSize + ch.blockSize - 1 + key.size) % 2 ^ 64 / ch.blockSize = backing ∧
    key.size + dataSize < maxExtentBlocks * ch.tdbDataSize

def addKey (ch : Channel) (backing : Nat) (bytes : List UInt8) : Channel :=
  let new : Channel := { ch with
    numKeys := ch.numKeys + 1
    keyb := ch.keyb ++ [⟨backing, crc32c 0xFFFFFFFF bytes, bytes.length⟩] }
  match ch.keyb.getLast? with
  | none => new
  | some key =>
    if extends_ ch key backing bytes.length then
      { ch with keyb := ch.keyb.dropLast ++ [⟨key.fsblk, crc32c key.blkCrc bytes,
        key.size + bytes.length⟩] }
    else new

/- The block of the channel that an undo block starts at. -/
def backingBlkNum (ch : Channel) (blockNum : Nat) : Nat :=
  let offset := ((blockNum * ch.tdbDataSize + ch.offset % ch.tdbDataSize : Nat) : Int).bmod (2 ^ 64)
  ((offset - ch.offset).tdiv ch.blockSize % 2 ^ 64).toNat

/- What the backing I/O manager reads there; at the end of the device it is less. A single block is
read into the cache of `unix_io.c`, and when that is too short the zeroed buffer stays as it is. -/
def readBacking (ch : Channel) (backing : Nat) : List UInt8 :=
  let n := min ch.tdbDataSize (ch.devSize - ch.pos backing)
  if n < ch.tdbDataSize ∧ ch.tdbDataSize = ch.blockSize then List.replicate n 0
  else bytesAt ch.dev (ch.pos backing) n

def appendData (ch : Channel) (bytes : List UInt8) : Channel :=
  { ch with
    file := patch ch.file (ch.undoBlkNum * ch.tdbDataSize) bytes.length (buffer bytes)
    undoBlkNum := ch.undoBlkNum + 1 }

def captureBlock (ch : Channel) (blockNum : Nat) : Channel :=
  if ch.written blockNum then ch
  else
    let ch := { ch with written := Function.update ch.written blockNum true }
    let backing := backingBlkNum ch blockNum
    let bytes := readBacking ch backing
    if bytes = [] then ch
    else writeUndoIndexes (appendData (addKey ch backing bytes) bytes)

def requestSize (ch : Channel) (count : Int) : Int :=
  if count = 1 then ch.blockSize
  else if count < 0 then (-count).bmod (2 ^ 32)
  else (count * ch.blockSize).bmod (2 ^ 32)

def endBlock (ch : Channel) (offset : Nat) (size : Int) : Nat :=
  (((offset : Int) + size - 1) % 2 ^ 64).toNat / ch.tdbDataSize

/- `undo_write_tdb`: the undo blocks of a request. -/
def tdbBlocks (ch : Channel) (block : Nat) (count : Int) : List Nat :=
  let offset := ch.pos block
  let blockNum := offset / ch.tdbDataSize
  List.range' blockNum (endBlock ch offset (requestSize ch count) + 1 - blockNum)

def undoWriteTdb (ch : Channel) (block : Nat) (count : Int) : Channel :=
  (tdbBlocks ch block count).foldl captureBlock ch

def byteSize (ch : Channel) (count : Int) : Nat :=
  if count < 0 then count.natAbs else count.toNat * ch.blockSize

/- The old content of `count` blocks goes into the undo file, then `n` bytes of the device are
written. -/
def request (ch : Channel) (block : Nat) (count : Int) (p n : Nat) (bytes : Content) : Channel :=
  let ch := undoWriteTdb ch block count
  { ch with dev := patch ch.dev p n bytes }

def undoWriteBlk64 (ch : Channel) (block : Nat) (count : Int) (buf : Content) : Channel :=
  request ch block count (ch.pos block) (byteSize ch count) buf

def undoWriteByte (ch : Channel) (offset size : Nat) (buf : Content) : Channel :=
  let location := (offset + ch.offset) % 2 ^ 64
  let count := (size + location % ch.blockSize + ch.blockSize - 1) / ch.blockSize
  request ch (location / ch.blockSize) ((count : Int).bmod (2 ^ 32)) location size buf

def intMax : Nat := 2 ^ 31 - 1

/- A longer range is `EXT2_ET_UNIMPLEMENTED`. -/
def undoZeroout (ch : Channel) (block count : Nat) : Channel :=
  if intMax < count then ch else request ch block count (ch.pos block) (count * ch.blockSize) zeros

/- A discarded range is left with any bytes. -/
def undoDiscard (ch : Channel) (block count : Nat) (rest : Content) : Channel :=
  if intMax < count then ch else request ch block count (ch.pos block) (count * ch.blockSize) rest

inductive Op where
  | write (block : Nat) (count : Int) (buf : Content)
  | writeByte (offset size : Nat) (buf : Content)
  | zeroout (block count : Nat)
  | discard (block count : Nat) (rest : Content)

def step (ch : Channel) : Op → Channel
  | .write block count buf => undoWriteBlk64 ch block count buf
  | .writeByte offset size buf => undoWriteByte ch offset size buf
  | .zeroout block count => undoZeroout ch block count
  | .discard block count rest => undoDiscard ch block count rest

def runOps (ch : Channel) (ops : List Op) : Channel := ops.foldl step ch

def newChannel (dev : Content) (devSize blockSize offset tdbDataSize : Nat) : Channel :=
  ⟨dev, devSize, blockSize, offset, tdbDataSize, zeros,
    ⟨0, firstKeyBlk, tdbDataSize, blockSize, offset⟩, 3, firstKeyBlk, [], 0, fun _ => false⟩

end E2fs.Undo
