import E2fs.Bitmap.Generic

/-! e2fsck/journal.c: replaying fast-commit range records on the extent list of an
inode, together with the block bitmap. -/
namespace E2fs.FastCommit
open Word Rb Generic

structure Extent where
  pblk : Nat
  lblk : Nat
  len : Nat
  flags : Nat
  deriving DecidableEq, Repr

def Extent.uninit (e : Extent) : Nat := e.flags &&& 0x0002

def exEnd (e : Extent) : Nat := sub64 (add64 e.lblk e.len) 1

def exPend (e : Extent) : Nat := sub64 (add64 e.pblk e.len) 1

/- `qsort` of the C library; the standard asks it to sort by an order, and no more. -/
abbrev Qsort := (Extent → Extent → Int) → List Extent → List Extent

def exCompar (a b : Extent) : Int :=
  if a.lblk < b.lblk then -1
  else if a.lblk > b.lblk then 1
  else toInt32 (drop32 a.len b.len)

def exLenCompar (a b : Extent) : Int :=
  if a.len < b.len then 1
  else if a.lblk > b.lblk then -1
  else 0

/- The extent continues another one, logically and physically. -/
def continues (a b : Extent) : Prop :=
  add64 (exEnd a) 1 = b.lblk ∧ add64 (exPend a) 1 = b.pblk ∧ a.uninit = b.uninit

instance (a b : Extent) : Decidable (continues a b) := inferInstanceAs (Decidable (_ ∧ _))

/- The merging loop: `a` is the extent at `i`, the list what follows it. -/
def mergeFrom : Extent → List Extent → List Extent
  | a, [] => [a]
  | a, b :: rest =>
    if continues a b then mergeFrom { a with len := (a.len + b.len) % 2 ^ 32 } rest
    else a :: mergeFrom b rest

/- `none` stands for undefined behaviour: with no extent left the test
`i < list->count - 1` is made on unsigned numbers, so the loop runs off the array. -/
def exSortAndMerge (qsort : Qsort) (xs : List Extent) : Option (List Extent) :=
  if xs.length < 2 then some xs
  else
    let kept := (qsort exLenCompar xs).takeWhile fun e => decide (e.len ≠ 0)
    match qsort exCompar kept with
    | [] => none
    | a :: rest => some (mergeFrom a rest)

/- `offset` is an `int`. -/
def cutFront (add e : Extent) : Extent :=
  let offset := toInt32 (sub64 (add64 (exEnd add) 1) e.lblk)
  { e with
    lblk := offset64 e.lblk offset
    pblk := offset64 e.pblk offset
    len := drop32 e.len offset }

/- The loop that makes the hole. Every extent it touches is unmarked as a whole. -/
def cutHole (alloc : Allocator) (add : Extent) :
    List Extent → GenericBitmap64 → List Extent × GenericBitmap64
  | [], bm => ([], bm)
  | e :: rest, bm =>
    if exEnd e < add.lblk then
      let out := cutHole alloc add rest bm
      (e :: out.1, out.2)
    else if e.lblk > exEnd add then (e :: rest, bm)
    else
      let bm := ext2fsUnmarkBlockBitmapRange2 alloc bm e.pblk e.len
      if e.lblk < add.lblk ∧ exEnd e > exEnd add then
        -- case 2, split: `make_room` opens the slot for the right part
        ({ e with len := sub64 add.lblk e.lblk % 2 ^ 32 } :: cutFront add e :: rest, bm)
      else if add.lblk ≤ e.lblk ∧ exEnd e ≤ exEnd add then
        -- case 3, exact overlap
        let out := cutHole alloc add rest bm
        ({ e with len := 0 } :: out.1, out.2)
      else if exEnd e > exEnd add then
        -- case 4, partial overlap
        (cutFront add e :: rest, bm)
      else
        let out := cutHole alloc add rest bm
        let len := if add.lblk > e.lblk then sub64 add.lblk e.lblk % 2 ^ 32 else 0
        ({ e with len := len } :: out.1, out.2)

structure Replay where
  list : List Extent
  map : GenericBitmap64

def markAll (alloc : Allocator) (xs : List Extent) (bm : GenericBitmap64) : GenericBitmap64 :=
  xs.foldl (fun bm e => ext2fsMarkBlockBitmapRange2 alloc bm e.pblk e.len) bm

def ext4ModifyExtentList (qsort : Qsort) (alloc : Allocator) (s : Replay) (ex : Extent)
    (del : Bool) : Option Replay :=
  let cut := cutHole alloc ex s.list s.map
  let list := if ex.len ≠ 0 ∧ del = false then cut.1 ++ [ex] else cut.1
  (exSortAndMerge qsort list).map fun list => ⟨list, markAll alloc list cut.2⟩

/- The two replay tags; a deleted range has no physical blocks. -/
inductive FcOp where
  | addRange (ex : Extent)
  | delRange (lblk len : Nat)

def FcOp.extent : FcOp → Extent
  | .addRange ex => ex
  | .delRange lblk len => ⟨0, lblk, len, 0⟩

def FcOp.isDel : FcOp → Bool
  | .addRange _ => false
  | .delRange _ _ => true

def fcApply (qsort : Qsort) (alloc : Allocator) (s : Replay) (op : FcOp) : Option Replay :=
  ext4ModifyExtentList qsort alloc s op.extent op.isDel

end E2fs.FastCommit
