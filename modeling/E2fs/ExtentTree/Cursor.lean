import E2fs.ExtentTree.Handle

/-! Canonical trees, and the place of a cursor among the extents of the leaves. -/
namespace E2fs.ExtentTree
open Loop List
open Iterate (Entry extInitMaxLen)

variable {es : List Entry}

section Tree

variable (nodes : Nat → Except Errcode Node)

def childEntries (e : Entry) : List Entry :=
  match nodes e.start with
  | .ok node => node.entries
  | .error _ => []

/- The extents in the leaves below the entries of a node, from left to right. -/
def leaves : Nat → List Entry → List Entry
  | 0, es => es
  | d + 1, es => es.flatMap fun e => leaves d (childEntries nodes e)

/- Every index leads to a node with a good checksum, and its key is the first block of the node. -/
def Indexed : Nat → List Entry → Prop
  | 0, _ => True
  | d + 1, es =>
    ∀ e ∈ es, (∃ node, nodes e.start = .ok node ∧ node.csum ∧ e.block = node.first.block) ∧
      Indexed d (childEntries nodes e)

/-- A canonical tree: its extents are neither empty nor out of order. -/
structure Canonical (depth : Nat) (root : List Entry) : Prop where
  indexed : Indexed nodes depth root
  filled : ∀ e ∈ leaves nodes depth root, 0 < e.length
  sorted : (leaves nodes depth root).Pairwise fun e e' => e.block + e.length ≤ e'.block

def Handle.leaves (h : Handle) : List Entry := ExtentTree.leaves h.nodes h.maxDepth h.root

/- The extents before and after the entries in hand of the levels of a path, the lowest of which is
at height `d`. -/
def leavesBefore : Nat → List Path → List Entry
  | _, [] => []
  | d, p :: up => leavesBefore (d + 1) up ++ leaves nodes d p.before.reverse

def leavesAfter : Nat → List Path → List Entry
  | _, [] => []
  | d, p :: up => leaves nodes d p.after ++ leavesAfter (d + 1) up

/- Each level holds the node that the entry in hand above it leads to. -/
def Linked (root : List Entry) : List Path → Prop
  | [] => False
  | [p] => p.entries = root
  | p :: above :: up =>
    (∃ e, above.curr = some e ∧ p.entries = childEntries nodes e) ∧ Linked root (above :: up)

/-- The handle is on the extent `c`, which has the extents `pre` before and `post` after it. -/
structure Cursor (depth : Nat) (root : List Entry) (h : Handle) (pre : List Entry) (c : Entry)
    (post : List Entry) : Prop where
  reads : h.nodes = nodes
  deep : h.maxDepth = depth
  leaf : h.level = depth
  here : h.path.curr = some c
  before : leavesBefore nodes 0 (h.path :: h.up) = pre
  after : leavesAfter nodes 0 (h.path :: h.up) = post
  linked : Linked nodes root (h.path :: h.up)

variable {nodes} {root : List Entry} {p' : Path}

@[simp] theorem leaves_nil (d : Nat) : leaves nodes d [] = [] := by
  cases d <;> rfl

@[simp] theorem leaves_append (d : Nat) (es es' : List Entry) :
    leaves nodes d (es ++ es') = leaves nodes d es ++ leaves nodes d es' := by
  cases d with
  | zero => rfl
  | succ d => exact flatMap_append

theorem leaves_cons (d : Nat) (e : Entry) (es : List Entry) :
    leaves nodes d (e :: es) = leaves nodes d [e] ++ leaves nodes d es := leaves_append d [e] es

@[simp] theorem leaves_index (d : Nat) (e : Entry) :
    leaves nodes (d + 1) [e] = leaves nodes d (childEntries nodes e) := by
  simp [leaves]

theorem Linked.same {p : Path} {up : List Path} (entries : p'.entries = p.entries)
    (linked : Linked nodes root (p :: up)) : Linked nodes root (p' :: up) := by
  cases up with
  | nil => exact entries.trans linked
  | cons q up => exact ⟨linked.1.imp fun e child => ⟨child.1, entries.trans child.2⟩, linked.2⟩

variable {e : Entry} {d : Nat}

theorem leaves_entries {p : Path} (here : p.curr = some e) (d : Nat) :
    leaves nodes d p.entries =
      leaves nodes d p.before.reverse ++ (leaves nodes d [e] ++ leaves nodes d p.after) := by
  rw [Path.entries, here, leaves_append, Option.toList_some, leaves_append]

theorem Linked.whole {p : Path} {up : List Path} (linked : Linked nodes root (p :: up)) :
    leavesBefore nodes (d + 1) up ++ (leaves nodes d p.entries ++ leavesAfter nodes (d + 1) up) =
      leaves nodes (d + up.length) root := by
  induction up generalizing d p with
  | nil =>
    obtain rfl : p.entries = root := linked
    simp [leavesBefore, leavesAfter]
  | cons q up ih =>
    obtain ⟨⟨e, here, entries⟩, rest⟩ := linked
    have above := @ih (d + 1) q rest
    rw [leaves_entries here, leaves_index, ← entries] at above
    rw [length_cons, show d + (up.length + 1) = d + 1 + up.length by omega, ← above, leavesBefore,
      leavesAfter]
    simp only [append_assoc]

theorem Cursor.whole {depth : Nat} {h : Handle} {pre post : List Entry} {c : Entry}
    (cursor : Cursor nodes depth root h pre c post) :
    pre ++ c :: post = leaves nodes depth root := by
  have whole := @Linked.whole _ _ 0 _ _ cursor.linked
  rw [leaves_entries cursor.here, show h.up.length = depth from cursor.leaf] at whole
  simpa [← cursor.before, ← cursor.after, leavesBefore, leavesAfter, leaves] using whole

theorem Linked.indexed {p : Path} {up : List Path} (linked : Linked nodes root (p :: up))
    (indexed : Indexed nodes (up.length + d) root) : Indexed nodes d p.entries := by
  induction up generalizing d p with
  | nil =>
    obtain rfl : p.entries = root := linked
    simpa using indexed
  | cons q up ih =>
    obtain ⟨⟨e, here, entries⟩, rest⟩ := linked
    have above := @ih (d + 1) q rest (by rwa [length_cons, Nat.succ_add_eq_add_succ] at indexed)
    exact entries ▸ (above e (by simp [Path.entries, here])).2

theorem Indexed.child (indexed : Indexed nodes (d + 1) es) (mem : e ∈ es) :
    ∃ node, nodes e.start = .ok node ∧ node.csum ∧ e.block = node.first.block ∧
      childEntries nodes e = node.first :: node.others ∧
      Indexed nodes d (node.first :: node.others) := by
  obtain ⟨⟨node, read, csum, key⟩, below⟩ := indexed e mem
  have entries : childEntries nodes e = node.first :: node.others := by
    rw [childEntries, read]
    rfl
  exact ⟨node, read, csum, key, entries, entries ▸ below⟩

theorem leaves_head (indexed : Indexed nodes d es) (mem : e ∈ es) :
    ∃ x xs, leaves nodes d [e] = x :: xs ∧ x.block = e.block := by
  induction d generalizing e es with
  | zero => exact ⟨e, [], rfl, rfl⟩
  | succ d ih =>
    obtain ⟨node, -, -, key, entries, below⟩ := indexed.child mem
    obtain ⟨x, xs, first, block⟩ := ih below (mem_cons_self ..)
    refine ⟨x, xs ++ leaves nodes d node.others, ?_, block.trans key.symm⟩
    rw [leaves_index, entries, leaves_cons, first, cons_append]

/- The entry in hand of a level at height `d`. -/
structure On (nodes : Nat → Except Errcode Node) (depth : Nat) (root : List Entry) (d : Nat)
    (p : Path) (e : Entry) (up : List Path) : Prop where
  here : p.curr = some e
  height : up.length + d = depth
  linked : Linked nodes root (p :: up)

@[simps]
def at_ (nodes : Nat → Except Errcode Node) (depth : Nat) (p : Path) (up : List Path) : Handle :=
  ⟨nodes, depth, p, up, false⟩

section On

variable {depth d : Nat} {p : Path} {e x : Entry} {up : List Path}

theorem On.shallow (on : On nodes depth root (d + 1) p e up) : up.length < depth := by
  have := on.height
  omega

theorem On.cursor (on : On nodes depth root 0 p e up) :
    Cursor nodes depth root (at_ nodes depth p up)
    (leavesBefore nodes 0 (p :: up)) e (leavesAfter nodes 0 (p :: up)) :=
  ⟨rfl, rfl, on.height, on.here, rfl, rfl, on.linked⟩

section

variable (on : On nodes depth root d p e up)
include on

theorem On.mem : e ∈ p.entries := by
  simp [Path.entries, on.here]

theorem On.indexed (indexed : Indexed nodes depth root) : Indexed nodes d p.entries :=
  on.linked.indexed (by rwa [on.height])

theorem On.sibling (here : p'.curr = some x) (entries : p'.entries = p.entries) :
    On nodes depth root d p' x up :=
  ⟨here, on.height, on.linked.same entries⟩

end

theorem On.below (on : On nodes depth root (d + 1) p e up) (here : p'.curr = some x)
    (entries : p'.entries = childEntries nodes e) : On nodes depth root d p' x (p :: up) :=
  ⟨here, by rw [length_cons, ← on.height]; omega, ⟨e, on.here, entries⟩, on.linked⟩

theorem On.goes_down (on : On nodes depth root (d + 1) p e up) (indexed : Indexed nodes depth root)
    (last : Bool) :
    ∃ node, childEntries nodes e = node.first :: node.others ∧ goDown last (at_ nodes depth p up) =
        arrive (at_ nodes depth (newPath (at_ nodes depth p up) node last) (p :: up)) := by
  obtain ⟨node, read, csum, -, child, -⟩ := (on.indexed indexed).child on.mem
  have deeper := Nat.not_le.mpr on.shallow
  exact ⟨node, child, by simp [goDown, on.here, Handle.level, deeper, read, csum, at_]⟩

end On

end Tree

/- `EXT2_EXTENT_ROOT` starts over, wherever the cursor was. -/
def Handle.start (h : Handle) (e : Entry) (es : List Entry) : Handle :=
  ⟨h.nodes, h.maxDepth,
    { h.top with before := [], curr := some e, after := es, visitNum := 0 }, [], false⟩

theorem extentMove_root {h : Handle} {e : Entry} (root : h.root = e :: es) :
    extentMove .root h =
      (h.start e es, .ok (extentOf (0 == h.maxDepth) (h.start e es).path e)) := by
  have rewound : h.top.rewind.after = e :: es := root
  rw [extentMove, move]
  have top : Handle.top { h with failedCsum := false } = h.top := rfl
  simp only [top, nextSib, rewound]
  rfl

/- A root with three leaves of one extent each, for the blocks 0 and 1, 10 and 11, 20 and 21. -/
def threeLeaves : Handle :=
  extentOpen (fun blk => if blk < 3 then .ok ⟨⟨10 * blk, 2, 500 + 10 * blk⟩, [], 84, true⟩
    else .error .headerBad) 1 [⟨0, 0, 0⟩, ⟨10, 0, 1⟩, ⟨20, 0, 2⟩] 4 22

theorem threeLeaves_canonical :
    Canonical threeLeaves.nodes threeLeaves.maxDepth threeLeaves.root := by
  refine ⟨?_, by decide, by decide⟩
  intro e mem
  have cases_ : e = ⟨0, 0, 0⟩ ∨ e = ⟨10, 0, 1⟩ ∨ e = ⟨20, 0, 2⟩ := by
    simpa [threeLeaves, extentOpen, Handle.root, Handle.top, Path.entries] using mem
  rcases cases_ with rfl | rfl | rfl <;> exact ⟨⟨_, rfl, rfl, rfl⟩, trivial⟩

end E2fs.ExtentTree
