import E2fs.Bitmap.Bmap64
import E2fs.Bitmap.Rbtree

/-! lib/ext2fs/blkmap64_rb.c: a bitmap stored as a red-black tree of extents,
with the three cursors that shortcut its searches. Extents are nodes on the heap,
so each carries its address; a cursor is such an address or null. Extents count
from the start of the bitmap and all sums are 64-bit sums. -/
namespace E2fs.Rb
open Word Bytes Rbtree Bitmap

structure BmapRbExtent where
  addr : Nat
  start : Nat
  count : Nat
  deriving DecidableEq, Repr

/- `ext->start + ext->count`, as the source computes it everywhere. -/
def BmapRbExtent.stop (e : BmapRbExtent) : Nat := add64 e.start e.count

structure RbPrivate where
  root : RbTree BmapRbExtent
  wcursor : Option Nat
  rcursor : Option Nat
  rcursorNext : Option Nat
  deriving DecidableEq, Repr

/- Heap allocation: some address that no live node has. Freed addresses may be
handed out again. -/
structure Allocator where
  fresh : List Nat → Nat
  unused : ∀ live, fresh live ∉ live

def RbPrivate.extents (bp : RbPrivate) : List BmapRbExtent := bp.root.inorder

def RbPrivate.live (bp : RbPrivate) : List Nat := bp.extents.map (·.addr)

def rbAllocPrivateData : RbPrivate := ⟨.nil, none, none, none⟩

def deref (root : RbTree BmapRbExtent) (a : Nat) : BmapRbExtent :=
  match locate (fun e => e.addr == a) root [] with
  | some (.node _ _ e _, _) => e
  | _ => ⟨a, 0, 0⟩

def nextOf (root : RbTree BmapRbExtent) (a : Nat) : Option BmapRbExtent :=
  match locate (fun e => e.addr == a) root [] with
  | some (t, up) => rbNext t up
  | none => none

def prevOf (root : RbTree BmapRbExtent) (a : Nat) : Option BmapRbExtent :=
  match locate (fun e => e.addr == a) root [] with
  | some (t, up) => rbPrev t up
  | none => none

/- The nodes a loop over `ext2fs_rb_next` meets, beginning with address `a`. The
source fetches the next node before it erases the current one, so erasing the
nodes already passed does not change this list. -/
def nodesFrom (root : RbTree BmapRbExtent) (a : Nat) : List BmapRbExtent :=
  root.inorder.dropWhile (fun e => e.addr != a)

/- Assignments `ext->start = start; ext->count = count` through a pointer. -/
def store (root : RbTree BmapRbExtent) (a start count : Nat) : RbTree BmapRbExtent :=
  root.map fun e => if e.addr = a then ⟨a, start, count⟩ else e

def rbFreeExtent (bp : RbPrivate) (a : Nat) : RbPrivate :=
  { bp with
    wcursor := if bp.wcursor = some a then none else bp.wcursor
    rcursor := if bp.rcursor = some a then none else bp.rcursor
    rcursorNext := if bp.rcursorNext = some a then none else bp.rcursorNext }

def eraseExtent (bp : RbPrivate) (a : Nat) : RbPrivate :=
  rbFreeExtent { bp with
    root := match locate (fun e => e.addr == a) bp.root [] with
      | some (t, up) => rbErase t up
      | none => bp.root } a

/- The two comparisons of the searches: inserting also accepts an extent that
ends where the new one begins. -/
def bitCmp (bit : Nat) (e : BmapRbExtent) : Ordering :=
  if bit < e.start then .lt else if bit ≥ e.stop then .gt else .eq

def insertCmp (start : Nat) (e : BmapRbExtent) : Ordering :=
  if start < e.start then .lt else if start > e.stop then .gt else .eq

def searchTree (bp : RbPrivate) (bit : Nat) : RbPrivate × Nat :=
  match descend (bitCmp bit) bp.root [] with
  | (.node _ _ ext _, _) => ({ bp with rcursor := some ext.addr, rcursorNext := none }, 1)
  | (.nil, _) => (bp, 0)

/- The successor of the read cursor: the cached one, or else fetched now. -/
def readNext (bp : RbPrivate) (r : Nat) : Option Nat :=
  match bp.rcursorNext with
  | some n => some n
  | none => (nextOf bp.root r).map (·.addr)

def beforeNext (root : RbTree BmapRbExtent) (bit : Nat) : Option Nat → Bool
  | some n => decide (bit < (deref root n).start)
  | none => false

/- The read cursor did not help: try the write cursor, then the tree. -/
def testWcursor (bp : RbPrivate) (bit : Nat) : RbPrivate × Nat :=
  match bp.wcursor with
  | none => searchTree bp bit
  | some w =>
    let wcursor := deref bp.root w
    if bit ≥ wcursor.start ∧ bit < wcursor.stop then (bp, 1) else searchTree bp bit

def rbTestBit (bp : RbPrivate) (bit : Nat) : RbPrivate × Nat :=
  match bp.rcursor with
  | none => searchTree bp bit
  | some r =>
    let rcursor := deref bp.root r
    if bit ≥ rcursor.start ∧ bit < rcursor.stop then (bp, 1)
    else if bit ≥ rcursor.stop ∧ beforeNext bp.root bit (readNext bp r) then
      ({ bp with rcursorNext := readNext bp r }, 0)
    else testWcursor { bp with rcursor := none, rcursorNext := none } bit

def mergeRight (start : Nat) : List BmapRbExtent → Nat → RbPrivate → Nat × RbPrivate
  | [], count, bp => (count, bp)
  | ext :: rest, count, bp =>
    if ext.stop ≤ start then mergeRight start rest count bp
    else if add64 start count < ext.start then (count, bp)
    else if add64 start count ≥ ext.stop then
      mergeRight start rest count (eraseExtent bp ext.addr)
    else
      (add64 count (sub64 ext.stop (add64 start count)), eraseExtent bp ext.addr)

/- From the label `skip_insert` on. -/
def skipInsert (new start count retval : Nat) (bp : RbPrivate) : RbPrivate × Nat :=
  let merged := mergeRight start (nodesFrom bp.root new).tail count bp
  ({ merged.2 with root := store merged.2.root new start merged.1 }, retval)

/- From the label `got_extent` on. -/
def gotExtent (ext : BmapRbExtent) (start count : Nat) (bp : RbPrivate) : RbPrivate × Nat :=
  if add64 start count ≤ ext.stop then (bp, 1)
  else skipInsert ext.addr ext.start (add64 count (sub64 start ext.start))
    (if ext.stop = start then 0 else 1) bp

/- The new node is linked where the search ended and may swallow its left
neighbour. -/
def linkNew (new start count : Nat) (up : List (Frame BmapRbExtent)) (bp : RbPrivate) :
    RbPrivate × Nat :=
  let bp := { bp with
    root := rbInsertColor (.node .red .nil ⟨new, start, count⟩ .nil) up
    wcursor := some new }
  match prevOf bp.root new with
  | some prev =>
    if prev.stop = start then
      skipInsert new prev.start (add64 count prev.count) 0 (eraseExtent bp prev.addr)
    else skipInsert new start count 0 bp
  | none => skipInsert new start count 0 bp

def rbInsertExtent (alloc : Allocator) (start count : Nat) (bp : RbPrivate) : RbPrivate × Nat :=
  if count = 0 then (bp, 0)
  else
    let bp := { bp with rcursorNext := none }
    let cached := bp.wcursor.map (deref bp.root)
    match cached.filter fun ext => decide (start ≥ ext.start ∧ start ≤ ext.stop) with
    | some ext => gotExtent ext start count bp
    | none =>
      match descend (insertCmp start) bp.root [] with
      | (.node _ _ ext _, _) => gotExtent ext start count bp
      | (.nil, up) => linkNew (alloc.fresh bp.live) start count up bp

/- How the search loop of `rb_remove_extent` ends. The trees are the ones after
the assignments made inside the loop. -/
inductive Removal where
  | split (root : RbTree BmapRbExtent) (newStart newCount : Nat)
  | trimmed (root : RbTree BmapRbExtent)
  | emptied (root : RbTree BmapRbExtent) (ext retval : Nat)
  | passed (root : RbTree BmapRbExtent) (parent : Option Nat) (retval : Nat)

/- The search loop itself. A truncated extent is examined again by the source
and is then left behind on the right. -/
def removeSearch (start count : Nat) :
    RbTree BmapRbExtent → List (Frame BmapRbExtent) → Nat → Removal
  | .nil, up, retval => .passed (plug .nil up) (up.head?.map (·.value.addr)) retval
  | .node c l ext r, up, retval =>
    if start < ext.start then removeSearch start count l (.left c ext r :: up) retval
    else if start ≥ ext.stop then removeSearch start count r (.right c l ext :: up) retval
    else if start > ext.start ∧ add64 start count < ext.stop then
      .split (plug (.node c l { ext with count := sub64 start ext.start } r) up)
        (add64 start count) (sub64 ext.stop (add64 start count))
    else
      let covered := decide (add64 start count ≥ ext.stop)
      let ext' := if covered then { ext with count := sub64 start ext.start } else ext
      let retval' := if covered then 1 else retval
      if ext'.count = 0 then .emptied (plug (.node c l ext' r) up) ext'.addr retval'
      else if start = ext'.start then
        .trimmed (plug (.node c l
          { ext' with start := add64 ext'.start count, count := sub64 ext'.count count } r) up)
      else removeSearch start count r (.right c l ext' :: up) retval'

def sweepRight (start count : Nat) : List BmapRbExtent → Nat → RbPrivate → RbPrivate × Nat
  | [], retval, bp => (bp, retval)
  | ext :: rest, retval, bp =>
    if ext.stop ≤ start then sweepRight start count rest retval bp
    else if add64 start count < ext.start then (bp, retval)
    else if add64 start count ≥ ext.stop then
      sweepRight start count rest 1 (eraseExtent bp ext.addr)
    else
      let root := store bp.root ext.addr (add64 start count)
        (sub64 ext.count (sub64 (add64 start count) ext.start))
      ({ bp with root := root }, 1)

def nodesFromOption (root : RbTree BmapRbExtent) : Option Nat → List BmapRbExtent
  | none => []
  | some a => nodesFrom root a

def rbRemoveExtent (alloc : Allocator) (start count : Nat) (bp : RbPrivate) : RbPrivate × Nat :=
  if bp.root = .nil then (bp, 0)
  else
    match removeSearch start count bp.root [] 0 with
    | .split root newStart newCount =>
      ((rbInsertExtent alloc newStart newCount { bp with root := root }).1, 1)
    | .trimmed root => ({ bp with root := root }, 1)
    | .emptied root ext retval =>
      let parent := (nextOf root ext).map (·.addr)
      let bp := eraseExtent { bp with root := root } ext
      sweepRight start count (nodesFromOption bp.root parent) retval bp
    | .passed root parent retval =>
      sweepRight start count (nodesFromOption root parent) retval { bp with root := root }

def rbMarkBmap (alloc : Allocator) (b : Bounds) (bp : RbPrivate) (arg : Nat) : RbPrivate × Nat :=
  rbInsertExtent alloc (sub64 arg b.start) 1 bp

def rbUnmarkBmap (alloc : Allocator) (b : Bounds) (bp : RbPrivate) (arg : Nat) : RbPrivate × Nat :=
  rbRemoveExtent alloc (sub64 arg b.start) 1 bp

def rbTestBmap (b : Bounds) (bp : RbPrivate) (arg : Nat) : RbPrivate × Nat :=
  rbTestBit bp (sub64 arg b.start)

def rbMarkBmapExtent (alloc : Allocator) (b : Bounds) (bp : RbPrivate) (arg num : Nat) :
    RbPrivate :=
  (rbInsertExtent alloc (sub64 arg b.start) num bp).1

def rbUnmarkBmapExtent (alloc : Allocator) (b : Bounds) (bp : RbPrivate) (arg num : Nat) :
    RbPrivate :=
  (rbRemoveExtent alloc (sub64 arg b.start) num bp).1

def rbClearBmap (_ : RbPrivate) : RbPrivate := ⟨.nil, none, none, none⟩

def clearFrom (start len : Nat) : List BmapRbExtent → Nat
  | [] => 1
  | ext :: rest =>
    if ext.stop ≤ start then clearFrom start len rest
    else if add64 start len ≤ ext.start then 1
    else 0

def testClear (bp : RbPrivate) (start len : Nat) : Nat :=
  if len = 0 ∨ bp.root = .nil then 1
  else
    match descend (bitCmp start) bp.root [] with
    | (.node _ _ _ _, _) => 0
    | (.nil, up) => clearFrom start len (nodesFromOption bp.root (up.head?.map (·.value.addr)))

def rbTestClearBmapExtent (b : Bounds) (bp : RbPrivate) (start len : Nat) : Nat :=
  testClear bp (sub64 start b.start) len

/- The loop of `rb_set_bmap_range` and the run it is in the middle of. The source
keeps the start of the run in an `int`, so ranges have fewer than `2 ^ 31` bits. -/
def setRuns (alloc : Allocator) (b : Bounds) (start num : Nat) (input : Buffer)
    (i : Nat) (firstSet : Option Nat) (bp : RbPrivate) : RbPrivate × Option Nat :=
  if i < num then
    if i % 8 = 0 ∧ byteAt input (i / 8) = 0xFF#8 then
      setRuns alloc b start num input (i + 8) (some (firstSet.getD i)) bp
    else if i % 8 = 0 ∧ byteAt input (i / 8) = 0#8 ∧ firstSet = none then
      setRuns alloc b start num input (i + 8) none bp
    else if bitAt input i then
      setRuns alloc b start num input (i + 1) (some (firstSet.getD i)) bp
    else
      match firstSet with
      | none => setRuns alloc b start num input (i + 1) none bp
      | some first =>
        setRuns alloc b start num input (i + 1) none
          (rbInsertExtent alloc (sub64 (add64 start first) b.start) (i - first) bp).1
  else (bp, firstSet)
termination_by num - i

def rbSetBmapRange (alloc : Allocator) (b : Bounds) (bp : RbPrivate) (start num : Nat)
    (input : Buffer) : RbPrivate :=
  match setRuns alloc b start num input 0 none bp with
  | (bp, none) => bp
  | (bp, some first) =>
    (rbInsertExtent alloc (sub64 (add64 start first) b.start) (num - first) bp).1

/- The inner loop of `rb_get_bmap_range`: whole bytes where it can, else a bit. -/
def fillRun (start pos count : Nat) (out : Buffer) : Buffer :=
  if count = 0 then out
  else if 8 ≤ count ∧ (pos - start) % 8 = 0 then
    fillRun start (pos + count / 8 * 8) (count - count / 8 * 8)
      (memset out ((pos - start) / 8) 0xFF#8 (count / 8))
  else fillRun start (pos + 1) (count - 1) (setBit out (pos - start))
termination_by count

def fillRuns (start num : Nat) : List BmapRbExtent → Buffer → Buffer
  | [], out => out
  | ext :: rest, out =>
    if ext.start ≥ add64 start num then out
    else if ext.start < start ∧ ext.stop < start then fillRuns start num rest out
    else
      let count := if ext.start < start then sub64 ext.count (sub64 start ext.start) else ext.count
      let pos := if ext.start < start then start else ext.start
      let count := if add64 pos count > add64 start num then sub64 (add64 start num) pos else count
      fillRuns start num rest (fillRun start pos count out)

def rbGetBmapRange (b : Bounds) (bp : RbPrivate) (start num : Nat) (out : Buffer) : Buffer :=
  let start := sub64 start b.start
  if bp.root = .nil then out
  else
    let parent :=
      match descend (bitCmp start) bp.root [] with
      | (.node _ _ ext _, _) => some ext.addr
      | (.nil, up) => up.head?.map (·.value.addr)
    fillRuns start num (nodesFromOption bp.root parent) (memset out 0 0#8 ((num + 7) / 8))

def rbFindFirstZero (b : Bounds) (bp : RbPrivate) (start stop : Nat) : Except Errcode Nat :=
  let start := sub64 start b.start
  let stop := sub64 stop b.start
  if start > stop then .error .einval
  else if bp.root = .nil then .error .enoent
  else
    match descend (bitCmp start) bp.root [] with
    | (.node _ _ ext _, _) =>
      if ext.stop ≤ stop then .ok (add64 ext.stop b.start) else .error .enoent
    | (.nil, _) => .ok (add64 start b.start)

/- The extent to look at when `start` itself is clear: the node where the search
ended, or the one after it when that node lies before `start`. -/
def setAfter (root : RbTree BmapRbExtent) (start : Nat) (up : List (Frame BmapRbExtent)) :
    Option BmapRbExtent :=
  match up with
  | [] => none
  | frame :: _ =>
    if frame.value.start < start then nextOf root frame.value.addr else some frame.value

def rbFindFirstSet (b : Bounds) (bp : RbPrivate) (start stop : Nat) : Except Errcode Nat :=
  let start := sub64 start b.start
  let stop := sub64 stop b.start
  if start > stop then .error .einval
  else if bp.root = .nil then .error .enoent
  else
    match descend (bitCmp start) bp.root [] with
    | (.node _ _ _ _, _) => .ok (add64 start b.start)
    | (.nil, up) =>
      match setAfter bp.root start up with
      | none => .error .enoent
      | some ext => if ext.start ≤ stop then .ok (add64 ext.start b.start) else .error .enoent

end E2fs.Rb
