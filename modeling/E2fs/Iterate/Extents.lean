import Mathlib.Tactic

/-! Walking through an extent tree (lib/ext2fs/extent.c): `ext2fs_extent_open2` and the operations
`EXT2_EXTENT_ROOT` and `EXT2_EXTENT_NEXT` of `ext2fs_extent_get`. -/
namespace E2fs.Iterate

inductive Errcode
  | badIndBlock | badDindBlock | badTindBlock | roBlockIterate | inlineDataCantIterate | fileTooBig
  | extentNoNext | extentNoDown | noCurrentNode | io
  deriving DecidableEq

structure Entry where
  block : Nat
  len : Nat
  start : Nat
  deriving DecidableEq

/- A node below the root has an entry. -/
structure Node where
  first : Entry
  others : List Entry

def Node.entries (node : Node) : List Entry := node.first :: node.others

structure Extent where
  pblk : Nat
  lblk : Nat
  len : Nat
  leaf : Bool
  uninit : Bool
  secondVisit : Bool
  deriving DecidableEq

def extInitMaxLen : Nat := 32768

structure Path where
  curr : Option Entry
  left : List Entry
  visitNum : Nat

structure Handle where
  root : List Entry
  maxDepth : Nat
  path : List Path

def extentOpen (depth : Nat) (root : List Entry) : Handle where
  root := root
  maxDepth := depth
  path := [⟨none, root, 1⟩]

/- The number of blocks of an extent; that of an unwritten one is stored with
`extInitMaxLen` added. -/
def Entry.length (ix : Entry) : Nat :=
  if extInitMaxLen < ix.len then ix.len - extInitMaxLen else ix.len

/- What `ext2fs_extent_get` makes of the entry `ix`. The length above the leaves is not
used here. -/
def extentOf (leaf : Bool) (visitNum : Nat) (ix : Entry) : Extent where
  pblk := ix.start
  lblk := ix.block
  len := if leaf then ix.length else 0
  leaf := leaf
  uninit := leaf && extInitMaxLen < ix.len
  secondVisit := visitNum ≠ 0

/- `EXT2_EXTENT_NEXT_SIB` at the deepest level of the path `left`, below the levels `up`. -/
def nextSib (h : Handle) (left : List Entry) (up : List Path) : Handle × Except Errcode Extent :=
  match left with
  | [] => (h, .error .extentNoNext)
  | ix :: left =>
    ({ h with path := ⟨some ix, left, 0⟩ :: up }, .ok (extentOf (up.length == h.maxDepth) 0 ix))

inductive Op
  | current | root | next
  deriving DecidableEq

/- `nodes` reads a block and checks its header. Going down takes the first entry of the node. -/
def extentGet (nodes : Nat → Except Errcode Node) (op : Op) (h : Handle) :
    Handle × Except Errcode Extent :=
  match op, h.path with
  | .root, _ => nextSib h h.root []
  | _, [] => (h, .error .noCurrentNode)
  | .current, path :: up =>
    match path.curr with
    | none => (h, .error .noCurrentNode)
    | some ix => (h, .ok (extentOf (up.length == h.maxDepth) path.visitNum ix))
  | .next, path :: up =>
    if up.length < h.maxDepth ∧ path.visitNum = 0 then
      let path := { path with visitNum := 1 }
      let h := { h with path := path :: up }
      match path.curr with
      | none => (h, .error .extentNoDown)
      | some ix =>
        match nodes ix.start with
        | .error errcode => (h, .error errcode)
        | .ok node => nextSib h node.entries (path :: up)
    else if path.left ≠ [] then nextSib h path.left up
    else
      match up with
      | [] => (h, .error .extentNoNext)
      | above :: rest =>
        let h := { h with path := above :: rest }
        match above.curr with
        | none => (h, .error .noCurrentNode)
        | some ix => (h, .ok (extentOf (rest.length == h.maxDepth) above.visitNum ix))

end E2fs.Iterate
