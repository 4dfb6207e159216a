import E2fs.Undo.Channel

/-! How `e2undo` reads an undo file: key blocks are found by skipping the data of the keys in front
of them, every key is checked, and the data goes back to where it came from. -/
namespace E2fs.Undo
open Memory Device

structure KeyInfo where
  fsblk : Nat
  fileblk : Nat
  blkCrc : UInt32
  size : Nat

def readKey (file : Content) (p : Nat) : Key :=
  ⟨ofBytes (bytesAt file p 8), UInt32.ofNat (ofBytes (bytesAt file (p + 8) 4)),
    ofBytes (bytesAt file (p + 12) 4)⟩

/- The first `n` keys of a key block, after its magic number and its checksum. -/
def readKeyb (file : Content) (blocksize lblk n : Nat) : Option (List Key) :=
  let p := lblk * blocksize
  if ofBytes (bytesAt file p 4) ≠ 0xCADECADE then none
  else if crc32c 0xFFFFFFFF (bytesAt (patch file (p + 4) 4 zeros) p blocksize) ≠
      UInt32.ofNat (ofBytes (bytesAt file (p + 4) 4)) then none
  else some ((List.range n).map fun j => readKey file (p + 16 + 16 * j))

def dataBlocks (blocksize size : Nat) : Nat := (size + blocksize - 1) / blocksize

/- The keys of one key block with the places of their data, from `lblk` on. -/
def walk (blocksize : Nat) : Nat → List Key → List KeyInfo
  | _, [] => []
  | lblk, key :: keys => ⟨key.fsblk, lblk, key.blkCrc, key.size⟩ :: walk blocksize
    (lblk + dataBlocks blocksize key.size) keys

def after (blocksize : Nat) : Nat → List Key → Nat
  | lblk, [] => lblk
  | lblk, key :: keys => after blocksize (lblk + dataBlocks blocksize key.size) keys

/- A key is not too long, and its checksum is that of its data. -/
def checkKey (file : Content) (blocksize : Nat) (key : KeyInfo) : Bool :=
  key.size ≤ maxExtentBlocks * blocksize ∧
    crc32c 0xFFFFFFFF (bytesAt file (key.fileblk * blocksize) key.size) = key.blkCrc

def loadKeys (file : Content) (blocksize : Nat) : Nat → Nat → Nat → Option (List KeyInfo)
  | 0, _, _ => none
  | fuel + 1, numKeys, lblk =>
    if numKeys = 0 then some []
    else (readKeyb file blocksize lblk (min numKeys (keysPerBlock blocksize))).bind fun keys =>
      if (walk blocksize (lblk + 1) keys).all (checkKey file blocksize) then
        (loadKeys file blocksize fuel (numKeys - min numKeys (keysPerBlock blocksize))
          (after blocksize (lblk + 1) keys)).map fun rest => walk blocksize (lblk + 1) keys ++ rest
      else none

def e2undoKeys (hdr : Header) (file : Content) : Option (List KeyInfo) :=
  loadKeys file hdr.blockSize (hdr.numKeys + 1) hdr.numKeys hdr.keyOffset

def keyPos (hdr : Header) (key : KeyInfo) : Nat :=
  (key.fsblk * hdr.fsBlockSize + hdr.fsOffset) % 2 ^ 64

def replayKey (hdr : Header) (file dev : Content) (key : KeyInfo) : Content :=
  patch dev (keyPos hdr key) key.size fun j => file (key.fileblk * hdr.blockSize + j)

/- The keys are replayed in the order of their blocks. -/
def e2undo (hdr : Header) (file dev : Content) : Option Content :=
  (e2undoKeys hdr file).map fun keys =>
    (keys.mergeSort fun a b => a.fsblk ≤ b.fsblk).foldl (replayKey hdr file) dev

end E2fs.Undo
