import E2fs.Lib.Loop
import E2fs.Iterate.Extents

/-! Moving about in an extent tree (lib/ext2fs/extent.c): `ext2fs_extent_get` with all its
operations and `ext2fs_extent_goto2`. -/
namespace E2fs.ExtentTree
open Loop
open Iterate (Entry extInitMaxLen)

inductive Errcode
  | noCurrentNode | noNext | noPrev | noUp | noDown | notFound | opNotSupported | headerBad
  | csumInvalid | roFilsys | invalidLength | cantSplit | cantInsert | io | noSpace
  deriving DecidableEq

/- A node below the root has an entry. `csum` tells whether its checksum is right. -/
structure Node where
  first : Entry
  others : List Entry
  maxEntries : Nat
  csum : Bool

def Node.entries (node : Node) : List Entry := node.first :: node.others

structure Extent where
  pblk : Nat
  lblk : Nat
  len : Nat
  leaf : Bool
  uninit : Bool
  deriving DecidableEq

/- One level of the path: the entry in hand, those before it, the nearest first, and the `left` ones
after it. No move reads the `visit_num` of a leaf. -/
structure Path where
  before : List Entry
  curr : Option Entry
  after : List Entry
  maxEntries : Nat
  visitNum : Nat
  endBlk : Nat

def Path.entries (p : Path) : List Entry := p.before.reverse ++ (p.curr.toList ++ p.after)

def Path.rewind (p : Path) : Path := { p with before := [], curr := none, after := p.entries }

/- `EXT_LAST_EXTENT`; in an empty root, which has none, it would point into the header. -/
def Path.toLast (p : Path) : Path :=
  match p.entries.reverse with
  | [] => p
  | ix :: before => { p with before := before, curr := some ix, after := [] }

/- `path` is the current level and `up` the levels above it. `nodes` reads a block and checks its
header; `failedCsum` is the variable `failed_csum` of the call under way. -/
structure Handle where
  nodes : Nat → Except Errcode Node
  maxDepth : Nat
  path : Path
  up : List Path
  failedCsum : Bool

def Handle.level (h : Handle) : Nat := h.up.length

def Handle.top (h : Handle) : Path := (h.path :: h.up).getLast (List.cons_ne_nil _ _)

def Handle.root (h : Handle) : List Entry := h.top.entries

/- The handle of `ext2fs_extent_open2`. `endBlk` comes from the size of the file. -/
def extentOpen (nodes : Nat → Except Errcode Node) (depth : Nat) (root : List Entry)
    (maxEntries endBlk : Nat) : Handle :=
  ⟨nodes, depth, ⟨[], none, root, maxEntries, 1, endBlk⟩, [], false⟩

def Path.nextBlk (p : Path) : Nat :=
  match p.after with
  | [] => p.endBlk
  | next :: _ => next.block

/- What the entry `ix` of the level `p` says. The length of an index is a 32-bit word. -/
def extentOf (leaf : Bool) (p : Path) (ix : Entry) : Extent where
  pblk := ix.start
  lblk := ix.block
  len := if leaf then ix.length else (2 ^ 64 + p.nextBlk - ix.block) % 2 ^ 32
  leaf := leaf
  uninit := leaf && extInitMaxLen < ix.len

@[simp] theorem extentOf_lblk (leaf : Bool) (p : Path) (ix : Entry) :
    (extentOf leaf p ix).lblk = ix.block := rfl

@[simp] theorem extentOf_len (p : Path) (ix : Entry) : (extentOf true p ix).len = ix.length := rfl

def Handle.extent (h : Handle) : Except Errcode Extent :=
  match h.path.curr with
  | none => .error .noCurrentNode
  | some ix => .ok (extentOf (h.level == h.maxDepth) h.path ix)

inductive Move
  | current | root | firstSib | nextSib | prevSib | lastSib | up | down | downAndLast
  deriving DecidableEq

def arrive (h : Handle) : Handle × Except Errcode Extent := (h, h.extent)

def nextSib (h : Handle) : Handle × Except Errcode Extent :=
  match h.path.after with
  | [] => (h, .error .noNext)
  | ix :: after =>
    arrive { h with path := { h.path with
      before := h.path.curr.toList ++ h.path.before
      curr := some ix, after := after, visitNum := 0 } }

def prevSib (h : Handle) : Handle × Except Errcode Extent :=
  match h.path.curr, h.path.before with
  | some ix, prev :: before =>
    arrive { h with path := { h.path with
      before := before, curr := some prev, after := ix :: h.path.after,
      visitNum := if h.level < h.maxDepth then 1 else h.path.visitNum } }
  | _, _ => (h, .error .noPrev)

/- Going up on the way back forgets that the node was visited. -/
def goUp (back : Bool) (h : Handle) : Handle × Except Errcode Extent :=
  match h.up with
  | [] => (h, .error .noUp)
  | above :: rest =>
    arrive { h with
      path := { above with visitNum := if back then 0 else above.visitNum }, up := rest }

/- The level of the node that the entry in hand leads to, at its first or its last entry. -/
def newPath (h : Handle) (node : Node) (last : Bool) : Path :=
  let p : Path := ⟨[], none, node.entries, node.maxEntries, 0, h.path.nextBlk⟩
  if last then { p.toLast with visitNum := if h.level + 1 < h.maxDepth then 1 else 0 }
  else { p with curr := some node.first, after := node.others }

def goDown (last : Bool) (h : Handle) : Handle × Except Errcode Extent :=
  match h.path.curr with
  | none => (h, .error .noDown)
  | some ix =>
    if h.level ≥ h.maxDepth then (h, .error .noDown)
    else
      match h.nodes ix.start with
      | .error errcode => (h, .error errcode)
      | .ok node =>
        arrive { h with path := newPath h node last, up := h.path :: h.up,
                        failedCsum := h.failedCsum || !node.csum }

def move (back : Bool) (h : Handle) : Move → Handle × Except Errcode Extent
  | .current => arrive h
  | .root => nextSib { h with path := h.top.rewind, up := [] }
  | .firstSib => nextSib { h with path := h.path.rewind }
  | .nextSib => nextSib h
  | .prevSib => prevSib h
  | .lastSib =>
    let path := { h.path.toLast with visitNum := 0 }
    arrive { h with path := path }
  | .up => goUp back h
  | .down => goDown false h
  | .downAndLast => goDown true h

def checked (out : Handle × Except Errcode Extent) : Handle × Except Errcode Extent :=
  if out.1.failedCsum ∧ out.2.isOk then (out.1, .error .csumInvalid) else out

/- `ext2fs_extent_get` for an operation that is one move. -/
def extentMove (m : Move) (h : Handle) : Handle × Except Errcode Extent :=
  checked (move false { h with failedCsum := false } m)

inductive Op
  | lastLeaf | next | nextLeaf | prev | prevLeaf
  deriving DecidableEq

def Op.back : Op → Bool
  | .prev | .prevLeaf => true
  | _ => false

/- The move made at `retry`. Going down by `EXT2_EXTENT_NEXT` counts a visit. -/
def nextMove (op : Op) (h : Handle) : Except Errcode (Handle × Move) :=
  match op with
  | .next | .nextLeaf =>
    if h.level < h.maxDepth ∧ h.path.visitNum = 0 then
      .ok ({ h with path := { h.path with visitNum := 1 } }, .down)
    else if h.path.after ≠ [] then .ok (h, .nextSib)
    else if h.level > 0 then .ok (h, .up)
    else .error .noNext
  | .prev | .prevLeaf =>
    if h.level < h.maxDepth ∧ h.path.visitNum > 0 then .ok (h, .downAndLast)
    else if h.path.before ≠ [] then .ok (h, .prevSib)
    else if h.level > 0 then .ok (h, .up)
    else .error .noPrev
  | .lastLeaf =>
    if h.level < h.maxDepth ∧ h.path.after = [] then .ok (h, .down) else .ok (h, .lastSib)

def retries (op : Op) (h : Handle) : Bool :=
  match op with
  | .nextLeaf | .prevLeaf => h.level ≠ h.maxDepth
  | .lastLeaf => h.level ≠ h.maxDepth ∨ h.path.after ≠ []
  | .next | .prev => false

/- From `retry` to `goto retry` or the end. -/
def getRound (op : Op) (h : Handle) : Round Handle (Handle × Except Errcode Extent) :=
  match nextMove op h with
  | .error errcode => .done (h, .error errcode)
  | .ok (h, m) =>
    let out := move op.back h m
    if out.2.isOk ∧ retries op out.1 then .again out.1 else .done (checked out)

def extentGet (fuel : Nat) (op : Op) (h : Handle) : Option (Handle × Except Errcode Extent) :=
  runLoop (getRound op) fuel { h with failedCsum := false }

structure Seeking where
  h : Handle
  extent : Extent

abbrev Seek := Round Seeking (Handle × Option Errcode)

def goDownTo (h : Handle) : Seek :=
  match extentMove .down h with
  | (h, .error errcode) => .done (h, some errcode)
  | (h, .ok extent) => .again ⟨h, extent⟩

def gotoRound (leafLevel blk : Nat) (s : Seeking) : Seek :=
  if s.h.maxDepth - s.h.level = leafLevel then
    if s.extent.lblk ≤ blk ∧ blk < s.extent.lblk + s.extent.len then .done (s.h, none)
    else if blk < s.extent.lblk then .done ((extentMove .prevSib s.h).1, some .notFound)
    else
      match extentMove .nextSib s.h with
      | (h, .error .noNext) => .done (h, some .notFound)
      | (h, .error errcode) => .done (h, some errcode)
      | (h, .ok extent) => .again ⟨h, extent⟩
  else
    match extentMove .nextSib s.h with
    | (h, .error .noNext) => goDownTo h
    | (h, .error errcode) => .done (h, some errcode)
    | (h, .ok extent) =>
      if blk = extent.lblk then goDownTo h
      else if blk > extent.lblk then .again ⟨h, extent⟩
      else
        match extentMove .prevSib h with
        | (h, .error errcode) => .done (h, some errcode)
        | (h, .ok _) => goDownTo h

def extentGoto2 (fuel leafLevel blk : Nat) (h : Handle) : Option (Handle × Option Errcode) :=
  match extentMove .root h with
  | (h, .error .noNext) => some (h, some .notFound)
  | (h, .error errcode) => some (h, some errcode)
  | (h, .ok extent) =>
    if leafLevel > h.maxDepth then some (h, some .opNotSupported)
    else runLoop (gotoRound leafLevel blk) fuel ⟨h, extent⟩

def extentGoto (fuel blk : Nat) (h : Handle) : Option (Handle × Option Errcode) :=
  extentGoto2 fuel 0 blk h

end E2fs.ExtentTree
