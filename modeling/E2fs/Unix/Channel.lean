import E2fs.Lib.BlockCache
import E2fs.Lib.Run

/-! The I/O channel over a file or a device, `unix_io.c`: eight cached blocks that are written
late, and the requests that go past them. -/
namespace E2fs.Unix
open Device BlockCache

/- `struct unix_private_data` and the fields of the channel: the device with `offset`,
`block_size` and `cache[CACHE_SIZE]`, access times, `IO_FLAG_NOCACHE` and
`CHANNEL_FLAGS_WRITETHROUGH`. -/
structure Channel where
  store : Store (Fin 8)
  accessTime : Nat
  times : Fin 8 → Nat
  nocache : Bool
  writethrough : Bool

def Channel.blockSize (ch : Channel) : Nat := ch.store.size

def writeDirectSize : Int := 4

def byteSize (ch : Channel) (count : Int) : Nat :=
  if count < 0 then count.natAbs else count.toNat * ch.blockSize

def rawReadBlk (ch : Channel) (block : Nat) : Content :=
  fun j => ch.store.dev (ch.store.pos block + j)

def rawWriteBlk (ch : Channel) (block : Nat) (count : Int) (buf : Content) : Channel :=
  { ch with store := ch.store.write (ch.store.pos block) (byteSize ch count) buf }

section Cache

def emptyLine : Line := ⟨0, zeros, false, false⟩

/- `alloc_cache`, after `free_cache`. -/
def allocCache (ch : Channel) : Channel :=
  { ch with
    store := { ch.store with line := fun _ => emptyLine }, accessTime := 0, times := fun _ => 0 }

inductive Found where
  | hit (i : Fin 8)
  | miss (eldest : Fin 8)

def touch (ch : Channel) (i : Fin 8) : Channel :=
  { ch with
    accessTime := ch.accessTime + 1, times := Function.update ch.times i (ch.accessTime + 1) }

def older (ch : Channel) (oldest : Option (Fin 8)) (i : Fin 8) : Fin 8 :=
  match oldest with
  | none => i
  | some o => if ch.times i < ch.times o then i else o

/- The loop of `find_cached_block` with `unused_cache` and `oldest_cache`. -/
def findLoop (ch : Channel) (block : Nat) : List (Fin 8) → Option (Fin 8) → Option (Fin 8) → Found
  | [], unused, oldest => .miss ((unused <|> oldest).getD 0)
  | i :: rest, unused, oldest =>
    if (ch.store.line i).used = false then findLoop ch block rest (unused <|> some i) oldest
    else if (ch.store.line i).block = block then .hit i
    else findLoop ch block rest unused (some (older ch oldest i))

def findCachedBlock (ch : Channel) (block : Nat) : Found :=
  findLoop ch block (List.finRange 8) none none

def reuseCache (ch : Channel) (i : Fin 8) (block : Nat) : Channel :=
  let line := ch.store.line i
  let store := if line.dirty && line.used then ch.store.writeBack i else ch.store
  touch { ch with store := store.setLine i ⟨block, line.buf, false, true⟩ } i

def flushOne (invalidate : Bool) (ch : Channel) (i : Fin 8) : Channel :=
  let line := ch.store.line i
  if line.used = false then ch
  else
    let kept := { line with used := !invalidate }
    if line.dirty = false then { ch with store := ch.store.setLine i kept }
    else { ch with store := (ch.store.writeBack i).setLine i { kept with dirty := false } }

def flushCachedBlocks (ch : Channel) (invalidate : Bool) : Channel :=
  (List.finRange 8).foldl (flushOne invalidate) ch

def fillLine (ch : Channel) (i : Fin 8) (bytes : Content) (dirty : Bool) : Channel :=
  { ch with store := ch.store.setLine i { ch.store.line i with buf := bytes, dirty := dirty } }

end Cache

section Requests

def unixSetBlksize (ch : Channel) (blksize : Nat) : Channel :=
  if ch.blockSize = blksize then ch
  else
    let ch := flushCachedBlocks ch false
    allocCache { ch with store := { ch.store with size := blksize } }

/- The blocks in front of the next cached one, with the line to reuse for each. -/
def scanMisses : Nat → Channel → Nat → List (Fin 8) → Channel × List (Fin 8)
  | 0, ch, _, reuse => (ch, reuse)
  | left + 1, ch, block, reuse =>
    match findCachedBlock ch block with
    | .hit i => (touch ch i, reuse)
    | .miss eldest => scanMisses left ch (block + 1) (reuse ++ [eldest])

def saveBlocks : List (Fin 8) → Channel → Nat → Content → Channel
  | [], ch, _, _ => ch
  | i :: rest, ch, block, bytes =>
    saveBlocks rest (fillLine (reuseCache ch i block) i bytes false) (block + 1) fun j =>
      bytes (ch.blockSize + j)

/- The loop of `unix_read_blk64`; `cp` is the place in the buffer of the caller. -/
def readLoop : Nat → Channel → Nat → Nat → Nat → Content → Channel × Content
  | 0, ch, _, _, _, out => (ch, out)
  | fuel + 1, ch, block, count, cp, out =>
    if count = 0 then (ch, out)
    else
      match findCachedBlock ch block with
      | .hit i =>
        readLoop fuel (touch ch i) (block + 1) (count - 1) (cp + ch.blockSize)
          (patch out cp ch.blockSize (ch.store.line i).buf)
      | .miss eldest =>
        if count = 1 then
          let ch := reuseCache ch eldest block
          let bytes := rawReadBlk ch block
          (fillLine ch eldest bytes false, patch out cp ch.blockSize bytes)
        else
          let (ch, reuse) := scanMisses (count - 1) ch (block + 1) [eldest]
          let n := reuse.length
          let bytes := rawReadBlk ch block
          readLoop fuel (saveBlocks reuse ch block bytes) (block + n) (count - n)
            (cp + n * ch.blockSize) (patch out cp (n * ch.blockSize) bytes)

def unixReadBlk64 (ch : Channel) (block : Nat) (count : Int) (out : Content) : Channel × Content :=
  if ch.nocache then (ch, patch out 0 (byteSize ch count) (rawReadBlk ch block))
  else if count < 0 ∨ writeDirectSize < count then
    let ch := flushCachedBlocks ch false
    (ch, patch out 0 (byteSize ch count) (rawReadBlk ch block))
  else readLoop count.toNat ch block count.toNat 0 out

def writeLoop : Nat → Channel → Nat → Content → Channel
  | 0, ch, _, _ => ch
  | count + 1, ch, block, buf =>
    let (ch, i) := match findCachedBlock ch block with
      | .hit i => (touch ch i, i)
      | .miss eldest => (reuseCache ch eldest block, eldest)
    writeLoop count (fillLine ch i buf (!ch.writethrough)) (block + 1) fun j =>
      buf (ch.blockSize + j)

def unixWriteBlk64 (ch : Channel) (block : Nat) (count : Int) (buf : Content) : Channel :=
  if ch.nocache then rawWriteBlk ch block count buf
  else if count < 0 ∨
    writeDirectSize < count then rawWriteBlk (flushCachedBlocks ch true) block count buf
  else writeLoop count.toNat (if ch.writethrough then rawWriteBlk ch block count buf else ch)
    block buf

def unixWriteByte (ch : Channel) (offset size : Nat) (buf : Content) : Channel :=
  let ch := flushCachedBlocks ch true
  { ch with store := ch.store.write (offset + ch.store.base) size buf }

def unixFlush (ch : Channel) : Channel := flushCachedBlocks ch false

def unixSetCache (ch : Channel) (on : Bool) : Channel :=
  if on then { ch with nocache := false } else { flushCachedBlocks ch false with nocache := true }

def unixZeroout (ch : Channel) (block count : Nat) : Channel :=
  { ch with store := ch.store.write (ch.store.pos block) (count * ch.blockSize) zeros }

end Requests

inductive Op where
  | read (block : Nat) (count : Int)
  | write (block : Nat) (count : Int) (buf : Content)
  | writeByte (offset size : Nat) (buf : Content)
  | zeroout (block count : Nat)
  | flush
  | setBlksize (blksize : Nat)
  | setCache (on : Bool)

def step (ch : Channel) : Op → Channel
  | .read block count => (unixReadBlk64 ch block count zeros).1
  | .write block count buf => unixWriteBlk64 ch block count buf
  | .writeByte offset size buf => unixWriteByte ch offset size buf
  | .zeroout block count => unixZeroout ch block count
  | .flush => unixFlush ch
  | .setBlksize blksize => unixSetBlksize ch blksize
  | .setCache on => unixSetCache ch on

def runOps (ch : Channel) (ops : List Op) : Channel := ops.foldl step ch

def newChannel (dev : Content) (offset blockSize : Nat) (nocache writethrough : Bool) : Channel :=
  allocCache ⟨⟨dev, offset, blockSize, fun _ => emptyLine⟩, 0, fun _ => 0, nocache, writethrough⟩

end E2fs.Unix
