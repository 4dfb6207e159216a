import E2fs.Bitmap.Ba
import E2fs.Bitmap.Rb

/-! lib/ext2fs/gen_bitmap64.c: the operations on 64-bit bitmaps. They turn block
numbers into clusters, check the bounds and hand the call to the backend. -/
namespace E2fs.Generic
open Word Bytes Bitmap Ba Rb

inductive Private where
  | bitarray (bp : BaPrivate)
  | rbtree (bp : RbPrivate)

structure GenericBitmap64 where
  bounds : Bounds
  clusterBits : Nat
  priv : Private

section Backend

variable (alloc : Allocator) (b : Bounds)

def markBmap : Private → Nat → Private × Nat
  | .bitarray bp, arg =>
    let out := baMarkBmap b bp arg
    (.bitarray out.1, out.2)
  | .rbtree bp, arg =>
    let out := rbMarkBmap alloc b bp arg
    (.rbtree out.1, out.2)

def unmarkBmap : Private → Nat → Private × Nat
  | .bitarray bp, arg =>
    let out := baUnmarkBmap b bp arg
    (.bitarray out.1, out.2)
  | .rbtree bp, arg =>
    let out := rbUnmarkBmap alloc b bp arg
    (.rbtree out.1, out.2)

def testBmap : Private → Nat → Private × Nat
  | .bitarray bp, arg => (.bitarray bp, baTestBmap b bp arg)
  | .rbtree bp, arg =>
    let out := rbTestBmap b bp arg
    (.rbtree out.1, out.2)

def markBmapExtent : Private → Nat → Nat → Private
  | .bitarray bp, arg, num => .bitarray (baMarkBmapExtent b bp arg num)
  | .rbtree bp, arg, num => .rbtree (rbMarkBmapExtent alloc b bp arg num)

def unmarkBmapExtent : Private → Nat → Nat → Private
  | .bitarray bp, arg, num => .bitarray (baUnmarkBmapExtent b bp arg num)
  | .rbtree bp, arg, num => .rbtree (rbUnmarkBmapExtent alloc b bp arg num)

def testClearBmapExtent : Private → Nat → Nat → Nat
  | .bitarray bp, arg, num => baTestClearBmapExtent b bp arg num
  | .rbtree bp, arg, num => rbTestClearBmapExtent b bp arg num

def setBmapRange : Private → Nat → Nat → Buffer → Private
  | .bitarray bp, start, num, input => .bitarray (baSetBmapRange bp start num input)
  | .rbtree bp, start, num, input => .rbtree (rbSetBmapRange alloc b bp start num input)

def getBmapRange : Private → Nat → Nat → Buffer → Buffer
  | .bitarray bp, start, num, out => baGetBmapRange bp start num out
  | .rbtree bp, start, num, out => rbGetBmapRange b bp start num out

def findFirstZero : Private → Nat → Nat → Except Errcode Nat
  | .bitarray bp, start, stop => baFindFirstZero b bp start stop
  | .rbtree bp, start, stop => rbFindFirstZero b bp start stop

def findFirstSet : Private → Nat → Nat → Except Errcode Nat
  | .bitarray bp, start, stop => baFindFirstSet b bp start stop
  | .rbtree bp, start, stop => rbFindFirstSet b bp start stop

end Backend

/- The single-bit calls: out-of-range arguments are only warned about. -/
def ext2fsMarkGenericBmap (alloc : Allocator) (bm : GenericBitmap64) (arg : Nat) :
    GenericBitmap64 × Nat :=
  let arg := arg >>> bm.clusterBits
  if arg < bm.bounds.start ∨ arg > bm.bounds.stop then (bm, 0)
  else
    let out := markBmap alloc bm.bounds bm.priv arg
    ({ bm with priv := out.1 }, out.2)

def ext2fsUnmarkGenericBmap (alloc : Allocator) (bm : GenericBitmap64) (arg : Nat) :
    GenericBitmap64 × Nat :=
  let arg := arg >>> bm.clusterBits
  if arg < bm.bounds.start ∨ arg > bm.bounds.stop then (bm, 0)
  else
    let out := unmarkBmap alloc bm.bounds bm.priv arg
    ({ bm with priv := out.1 }, out.2)

def ext2fsTestGenericBmap (bm : GenericBitmap64) (arg : Nat) : GenericBitmap64 × Nat :=
  let arg := arg >>> bm.clusterBits
  if arg < bm.bounds.start ∨ arg > bm.bounds.stop then (bm, 0)
  else
    let out := testBmap bm.bounds bm.priv arg
    ({ bm with priv := out.1 }, out.2)

/- The clusters of a block range: the first one and how many, an `unsigned int`. -/
def clusterRange (bm : GenericBitmap64) (block num : Nat) : Nat × Nat :=
  let first := block >>> bm.clusterBits
  let stop := add64 (add64 block num) (2 ^ bm.clusterBits - 1) >>> bm.clusterBits
  (first, sub64 stop first % 2 ^ 32)

def outside (b : Bounds) (block num : Nat) : Prop :=
  block < b.start ∨ block > b.stop ∨ sub64 (add64 block num) 1 > b.stop

instance (b : Bounds) (block num : Nat) : Decidable (outside b block num) :=
  inferInstanceAs (Decidable (_ ∨ _))

def ext2fsMarkBlockBitmapRange2 (alloc : Allocator) (bm : GenericBitmap64) (block num : Nat) :
    GenericBitmap64 :=
  let (block, num) := clusterRange bm block num
  if outside bm.bounds block num then bm
  else { bm with priv := markBmapExtent alloc bm.bounds bm.priv block num }

def ext2fsUnmarkBlockBitmapRange2 (alloc : Allocator) (bm : GenericBitmap64) (block num : Nat) :
    GenericBitmap64 :=
  let (block, num) := clusterRange bm block num
  if outside bm.bounds block num then bm
  else { bm with priv := unmarkBmapExtent alloc bm.bounds bm.priv block num }

/- The `errno` value that `ext2fs_test_block_bitmap_range2` returns for a range
outside the bitmap. -/
def einval : Nat := 22

/- Nonzero when the whole range is clear. -/
def ext2fsTestBlockBitmapRange2 (bm : GenericBitmap64) (block num : Nat) :
    GenericBitmap64 × Nat :=
  if num = 1 then
    let out := ext2fsTestGenericBmap bm block
    (out.1, if out.2 = 0 then 1 else 0)
  else
    let (block, num) := clusterRange bm block num
    if outside bm.bounds block num then (bm, einval)
    else (bm, testClearBmapExtent bm.bounds bm.priv block num)

def ext2fsSetGenericBmapRange (alloc : Allocator) (bm : GenericBitmap64) (start num : Nat)
    (input : Buffer) : GenericBitmap64 :=
  { bm with priv := setBmapRange alloc bm.bounds bm.priv start num input }

def ext2fsGetGenericBmapRange (bm : GenericBitmap64) (start num : Nat) (out : Buffer) : Buffer :=
  getBmapRange bm.bounds bm.priv start num out

/- Both searches: clusters inside, and the result clipped to where the search
began. Each backend has its own search, so the fallback loop is never taken. -/
def findFirstGeneric (find : Bounds → Private → Nat → Nat → Except Errcode Nat)
    (bm : GenericBitmap64) (start stop : Nat) : Except Errcode Nat :=
  let cstart := start >>> bm.clusterBits
  let cend := stop >>> bm.clusterBits
  if cstart < bm.bounds.start ∨ cend > bm.bounds.stop ∨ start > stop then .error .einval
  else
    match find bm.bounds bm.priv cstart cend with
    | .error code => .error code
    | .ok cout =>
      let cout := (cout <<< bm.clusterBits) % 2 ^ 64
      .ok (if cout ≥ start then cout else start)

def ext2fsFindFirstZeroGenericBmap : GenericBitmap64 → Nat → Nat → Except Errcode Nat :=
  findFirstGeneric findFirstZero

def ext2fsFindFirstSetGenericBmap : GenericBitmap64 → Nat → Nat → Except Errcode Nat :=
  findFirstGeneric findFirstSet

end E2fs.Generic
