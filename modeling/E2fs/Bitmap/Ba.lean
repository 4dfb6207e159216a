import E2fs.Bitmap.Bmap64

/-! lib/ext2fs/blkmap64_ba.c: a bitmap stored as an array of bytes, with the bit
operations of bitops.c it is made of. -/
namespace E2fs.Ba
open Word Bytes Bitmap

/- The array and the address it was allocated at, which decides where the
searches can read aligned words. -/
structure BaPrivate where
  bitarray : Buffer
  addr : Nat
  deriving DecidableEq

def baAllocPrivateData (b : Bounds) (addr : Nat) : BaPrivate :=
  ⟨List.replicate ((b.realEnd - b.start) / 8 + 1) 0, addr⟩

/- bitops.c: the result is the old bit under its mask. -/
def testBit64 (nr : Nat) (bs : Buffer) : Nat :=
  (1#8 <<< (nr % 8) &&& byteAt bs (nr / 8)).toNat

def setBit64 (nr : Nat) (bs : Buffer) : Buffer × Nat := (setBit bs nr, testBit64 nr bs)

def clearBit64 (nr : Nat) (bs : Buffer) : Buffer × Nat := (clearBit bs nr, testBit64 nr bs)

def baMarkBmap (b : Bounds) (bp : BaPrivate) (arg : Nat) : BaPrivate × Nat :=
  let out := setBit64 (sub64 arg b.start) bp.bitarray
  ({ bp with bitarray := out.1 }, out.2)

def baUnmarkBmap (b : Bounds) (bp : BaPrivate) (arg : Nat) : BaPrivate × Nat :=
  let out := clearBit64 (sub64 arg b.start) bp.bitarray
  ({ bp with bitarray := out.1 }, out.2)

def baTestBmap (b : Bounds) (bp : BaPrivate) (arg : Nat) : Nat :=
  testBit64 (sub64 arg b.start) bp.bitarray

/- `for (i = 0; i < num; i++) f(bitno + i - start)`, with the index of the next
iteration and the number of iterations left. -/
def eachBit (f : Buffer → Nat → Buffer) (b : Bounds) (arg : Nat) : Nat → Nat → Buffer → Buffer
  | _, 0, bs => bs
  | i, left + 1, bs => eachBit f b arg (i + 1) left (f bs (sub64 (add64 arg i) b.start))

def baMarkBmapExtent (b : Bounds) (bp : BaPrivate) (arg num : Nat) : BaPrivate :=
  { bp with bitarray := eachBit setBit b arg 0 num bp.bitarray }

def baUnmarkBmapExtent (b : Bounds) (bp : BaPrivate) (arg num : Nat) : BaPrivate :=
  { bp with bitarray := eachBit clearBit b arg 0 num bp.bitarray }

def baSetBmapRange (bp : BaPrivate) (start num : Nat) (input : Buffer) : BaPrivate :=
  { bp with bitarray := memcpy bp.bitarray (start / 8) (input.take ((num + 7) / 8)) }

def baGetBmapRange (bp : BaPrivate) (start num : Nat) (out : Buffer) : Buffer :=
  memcpy out 0 ((bp.bitarray.drop (start / 8)).take ((num + 7) / 8))

/- `for (; count > 0; count--, bit--) mask |= 1 << bit`. -/
def markBits : Nat → Nat → BitVec 8 → BitVec 8
  | 0, _, mask => mask
  | count + 1, bit, mask => markBits count (bit - 1) (mask ||| 1#8 <<< bit)

/- gen_bitmap.c: `ext2fs_mem_is_zero`, 256 bytes at a time. -/
def memIsZero (bs : Buffer) (pos len : Nat) : Nat :=
  if 256 ≤ len then
    if (List.range 256).all fun i => byteAt bs (pos + i) == 0#8 then
      memIsZero bs (pos + 256) (len - 256)
    else 0
  else if (List.range len).all fun i => byteAt bs (pos + i) == 0#8 then 1
  else 0
termination_by len

def testClearBytes (bs : Buffer) (startByte lenByte lenBit : Nat) : Nat :=
  if lenBit ≠ 0 then
    if markBits lenBit (lenBit - 1) 0#8 &&& byteAt bs (startByte + lenByte) ≠ 0#8 then 0
    else if lenByte = 0 then 1
    else memIsZero bs startByte lenByte
  else memIsZero bs startByte lenByte

def baTestClearBmapExtent (b : Bounds) (bp : BaPrivate) (start len : Nat) : Nat :=
  let start := sub64 start b.start
  let startByte := start / 8
  let startBit := start % 8
  if startBit ≠ 0 then
    let markCount := if len < 8 - startBit then len else 8 - startBit
    let markBit := if len < 8 - startBit then len + startBit - 1 else 7
    if markBits markCount markBit 0#8 &&& byteAt bp.bitarray startByte ≠ 0#8 then 0
    else if len ≤ 8 - startBit then 1
    else testClearBytes bp.bitarray (startByte + 1) ((len - markCount) / 8) ((len - markCount) % 8)
  else testClearBytes bp.bitarray startByte (len / 8) (len % 8)

/- The five loops of the two searches. `want` is the bit looked for: a byte or a
word is passed over when all its bits are the other one. -/
section Search

variable (want : Bool) (bs : Buffer)

def wanted (bitpos : Nat) : Bool := (testBit64 bitpos bs != 0) == want

def dullByte : BitVec 8 := if want then 0#8 else 0xFF#8

def dullWord : Nat := if want then 0 else 2 ^ 64 - 1

/- Bits up to a byte boundary: the position found, or where the scan stands. -/
def scanBits : Nat → Nat → Sum Nat (Nat × Nat)
  | 0, bitpos => .inr (bitpos, 0)
  | count + 1, bitpos =>
    if bitpos % 8 = 0 then .inr (bitpos, count + 1)
    else if wanted want bs bitpos then .inl bitpos
    else scanBits count (bitpos + 1)

/- Bytes up to an aligned address: position, bits left and `byte_found`. -/
def alignBytes (addr : Nat) : Nat → Nat → Nat × Nat × Bool
  | count + 8, bitpos =>
    if (addr + bitpos / 8) % 8 = 0 then (bitpos, count + 8, false)
    else if byteAt bs (bitpos / 8) ≠ dullByte want then (bitpos, count + 8, true)
    else alignBytes addr count (bitpos + 8)
  | count, bitpos => (bitpos, count, false)

/- Both counted loops: how many steps of `size` bytes at `pos` are passed over. -/
def passed (dull : Nat → Bool) (size : Nat) : Nat → Nat → Nat
  | 0, _ => 0
  | i + 1, pos => if dull pos then passed dull size i (pos + size) + 1 else 0

def lastBits : Nat → Nat → Option Nat
  | 0, _ => none
  | count + 1, bitpos =>
    if wanted want bs bitpos then some bitpos else lastBits count (bitpos + 1)

def scanBytes (addr : Nat) (bitpos count : Nat) : Option Nat :=
  match alignBytes want bs addr count bitpos with
  | (bitpos, count, true) => lastBits want bs count bitpos
  | (bitpos, count, false) =>
    let words := passed (fun pos => wordAt bs pos == dullWord want) 8 (count / 64) (bitpos / 8)
    let bitpos := bitpos + 64 * words
    let count := count - 64 * words
    let bytes := passed (fun pos => byteAt bs pos == dullByte want) 1 (count / 8) (bitpos / 8)
    lastBits want bs (count - 8 * bytes) (bitpos + 8 * bytes)

def findFirst (addr : Nat) (bitpos count : Nat) : Option Nat :=
  match scanBits want bs count bitpos with
  | .inl found => some found
  | .inr (bitpos, count) => if count = 0 then none else scanBytes want bs addr bitpos count

end Search

def search (want : Bool) (b : Bounds) (bp : BaPrivate) (start stop : Nat) : Except Errcode Nat :=
  let found := findFirst want bp.bitarray bp.addr (sub64 start b.start) (add64 (sub64 stop start) 1)
  found.elim (.error .enoent) fun bitpos => .ok (add64 bitpos b.start)

def baFindFirstZero : Bounds → BaPrivate → Nat → Nat → Except Errcode Nat := search false

def baFindFirstSet : Bounds → BaPrivate → Nat → Nat → Except Errcode Nat := search true

end E2fs.Ba
