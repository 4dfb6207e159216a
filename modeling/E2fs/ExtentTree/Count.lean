import E2fs.ExtentTree.Leaves

/-! `ext2fs_count_blocks` counts the changes of `end_blk` above the leaves, against an array that is
not initialised. -/
namespace E2fs.ExtentTree
open Loop List
open Iterate (Entry)

structure Counting where
  h : Handle
  extent : Extent
  blkcount : Nat
  intermediateNodes : List Nat

/- The `end_blk` of the levels above the current one, from the root on. -/
def Handle.ends (h : Handle) : List Nat := (h.up.map (·.endBlk)).reverse

def changes (ends nodes : List Nat) : Nat := (ends.zip nodes).countP fun pair => pair.1 ≠ pair.2

def countLeaf (s : Counting) : Counting :=
  if s.extent.leaf then
    { s with
      blkcount := s.blkcount + s.extent.len + changes s.h.ends s.intermediateNodes
      intermediateNodes := s.h.ends ++ s.intermediateNodes.drop s.h.ends.length }
  else s

/- The body of `while (!errcode)`. `EXT2_EXTENT_NEXT` never goes back to `retry`. -/
def countRound (s : Counting) : Round Counting Nat :=
  let s := countLeaf s
  match extentGet 1 .next s.h with
  | some (h, .ok extent) => .again { s with h := h, extent := extent }
  | _ => .done s.blkcount

/- `garbage` is what the new array holds. -/
def countBlocks (fuel : Nat) (garbage : List Nat) (h : Handle) : Option Nat :=
  match extentMove .root h with
  | (_, .error _) => some 0
  | (h, .ok extent) => runLoop countRound fuel ⟨h, extent, h.level, garbage⟩

def treeBlocks (nodes : Nat → Except Errcode Node) : Nat → List Entry → Nat
  | 0, _ => 0
  | d + 1, es => es.length + (es.map fun e => treeBlocks nodes d (childEntries nodes e)).sum

def Handle.blocks (h : Handle) : Nat :=
  (h.leaves.map Entry.length).sum + treeBlocks h.nodes h.maxDepth h.root

/-- The mapped blocks and the nodes outside the inode are counted, whatever the array holds. -/
def CountsBlocks (h : Handle) : Prop :=
  ∀ garbage, garbage.length = h.maxDepth → ∃ fuel, countBlocks fuel garbage h = some h.blocks

theorem changes_self (ends : List Nat) : changes ends ends = 0 := by
  induction ends with
  | nil => rfl
  | cons n ends ih => simpa [changes] using ih

theorem changes_all (ends : List Nat) : changes ends (ends.map (· + 1)) = ends.length := by
  induction ends with
  | nil => rfl
  | cons n ends ih => simpa [changes] using ih

theorem runLoop_shift (fuel : Nat) (s : Counting) (n : Nat) :
    runLoop countRound fuel { s with blkcount := s.blkcount + n } =
      (runLoop countRound fuel s).map (· + n) := by
  induction fuel generalizing s with
  | zero => rfl
  | succ fuel ih =>
    have leaf : countLeaf { s with blkcount := s.blkcount + n } =
        { countLeaf s with blkcount := (countLeaf s).blkcount + n } := by
      unfold countLeaf
      split
      · simp only [Counting.mk.injEq, true_and, and_true]
        omega
      · rfl
    simp only [runLoop, countRound, leaf]
    rcases extentGet 1 .next (countLeaf s).h with _ | ⟨h, _ | extent⟩
    · rfl
    · rfl
    · exact ih { countLeaf s with h := h, extent := extent }

section Rounds

variable {nodes : Nat → Except Errcode Node} {root : List Entry} {depth d c : Nat} {p p1 : Path}
  {e x : Entry} {up up1 : List Path} {garbage : List Nat} {m : Move} {h : Handle}

theorem extentGet_next (chosen : nextMove .next (at_ nodes depth p up) = .ok (h, m))
    (moved : move false h m = arrive (at_ nodes depth p1 up1)) (here : p1.curr = some x) :
    extentGet 1 .next (at_ nodes depth p up) =
      some (at_ nodes depth p1 up1, .ok (extentOf (up1.length == depth) p1 x)) := by
  have round : getRound .next { at_ nodes depth p up with failedCsum := false } = _ :=
    getRound_arrive chosen moved here
  rw [extentGet, runLoop, round]
  rfl

theorem reaches_leaf (indexed : Indexed nodes depth root) (on : On nodes depth root d p e up)
    (fresh : p.visitNum = 0) : ∃ p' up' x, up'.length = depth ∧ ∀ garbage, Reaches countRound
      ⟨at_ nodes depth p up, extentOf (up.length == depth) p e, c, garbage⟩
      ⟨at_ nodes depth p' up', extentOf true p' x, c, garbage⟩ := by
  induction d generalizing p e up with
  | zero =>
    obtain rfl : up.length = depth := on.height
    refine ⟨p, up, e, rfl, fun garbage => ?_⟩
    rw [beq_self_eq_true]
    exact .here _
  | succ d ih =>
    have shallow := on.shallow
    have on1 : On nodes depth root (d + 1) { p with visitNum := 1 } e up := on.sibling on.here rfl
    obtain ⟨node, child, down⟩ := on1.goes_down indexed false
    have chosen : nextMove .next (at_ nodes depth p up) =
        .ok (at_ nodes depth { p with visitNum := 1 } up, .down) := by
      simp [nextMove, Handle.level, shallow, fresh, at_]
    let q := newPath (at_ nodes depth { p with visitNum := 1 } up) node false
    obtain ⟨p', up', x, bottom, way⟩ := @ih q _ _ (on1.below rfl child.symm) rfl
    refine ⟨p', up', x, bottom, fun garbage => .step ?_ (way garbage)⟩
    have index : (extentOf (up.length == depth) p e).leaf = false := beq_false_of_ne shallow.ne
    rw [countRound, countLeaf, if_neg (by simp [index])]
    rw [extentGet_next chosen down rfl]

theorem counts_flat (here : p.curr = some e) : ∃ fuel, runLoop countRound fuel
    ⟨at_ nodes 0 p [], extentOf true p e, c, []⟩ =
      some (c + e.length + (p.after.map Entry.length).sum) := by
  have leaf : ∀ p c, countLeaf ⟨at_ nodes 0 p [], extentOf true p e, c, []⟩ =
      ⟨at_ nodes 0 p [], extentOf true p e, c + e.length, []⟩ := fun p c => rfl
  induction after : p.after generalizing p e c with
  | nil =>
    refine ⟨1, ?_⟩
    rw [runLoop, countRound, leaf]
    simp [extentGet, runLoop, getRound, nextMove, Handle.level, after]
  | cons x xs ih =>
    let p' : Path :=
      { p with before := p.curr.toList ++ p.before, curr := some x, after := xs, visitNum := 0 }
    obtain ⟨fuel, result⟩ := @ih (c + e.length) p' x rfl (fun _ _ => rfl) rfl
    refine ⟨fuel + 1, ?_⟩
    have chosen : nextMove .next (at_ nodes 0 p []) = .ok (at_ nodes 0 p [], .nextSib) := by
      simp [nextMove, Handle.level, after]
    have moved : move false (at_ nodes 0 p []) .nextSib = arrive (at_ nodes 0 p' []) := by
      simp [move, nextSib, after, p', at_]
    rw [runLoop, countRound, leaf]
    rw [extentGet_next chosen moved rfl]
    simpa [add_assoc] using result

end Rounds

/-- The count is right if and only if no node is outside the inode. -/
theorem countsBlocks_iff (h : Handle) (canonical : Canonical h.nodes h.maxDepth h.root) :
    CountsBlocks h ↔ h.maxDepth = 0 ∨ h.root = [] := by
  constructor
  · intro exact_
    by_contra other
    obtain ⟨deep, nonempty⟩ := not_or.mp other
    obtain ⟨e, es, list⟩ := exists_cons_of_ne_nil nonempty
    have on : On h.nodes h.maxDepth h.root h.maxDepth (h.start e es).path e [] :=
      ⟨rfl, zero_add _, list.symm⟩
    obtain ⟨p', up', x, bottom, way⟩ := @reaches_leaf _ _ _ _ 0 _ _ _ canonical.indexed on rfl
    let h' := at_ h.nodes h.maxDepth p' up'
    have length : h'.ends.length = h.maxDepth := by simpa [Handle.ends, h'] using bottom
    -- from the first extent on, with the array that the code finds
    have runs : ∀ garbage, garbage.length = h.maxDepth →
        ∃ fuel, runLoop countRound fuel ⟨h', extentOf true p' x, 0, garbage⟩ = some h.blocks := by
      intro garbage size
      obtain ⟨fuel, result⟩ := exact_ garbage size
      rw [countBlocks, extentMove_root list] at result
      exact (way garbage).onward result
    obtain ⟨fuel, result⟩ := runs h'.ends length
    obtain ⟨fuel', result'⟩ := runs (h'.ends.map (· + 1)) (by rw [length_map, length])
    have same : countRound ⟨h', extentOf true p' x, 0, h'.ends.map (· + 1)⟩ =
        countRound ⟨h', extentOf true p' x, 0 + h.maxDepth, h'.ends⟩ := by
      have leaf : countLeaf ⟨h', extentOf true p' x, 0, h'.ends.map (· + 1)⟩ =
          countLeaf ⟨h', extentOf true p' x, 0 + h.maxDepth, h'.ends⟩ := by
        simp only [countLeaf, extentOf, if_true, changes_self, changes_all, Counting.mk.injEq,
          true_and]
        exact ⟨by omega, by simp⟩
      rw [countRound, leaf, ← countRound]
    have shifted := runLoop_shift fuel ⟨h', extentOf true p' x, 0, h'.ends⟩ h.maxDepth
    rw [result, Option.map_some] at shifted
    have equal : runLoop countRound fuel ⟨h', extentOf true p' x, 0, h'.ends.map (· + 1)⟩ =
        some (h.blocks + h.maxDepth) := by
      rw [← shifted]
      cases fuel with
      | zero => rfl
      | succ fuel => rw [runLoop, runLoop, same]
    have := runLoop_unique result' equal
    omega
  · rintro small garbage size
    cases list : h.root with
    | nil =>
      refine ⟨0, ?_⟩
      have none_ : h.blocks = 0 := by
        rw [Handle.blocks, Handle.leaves, list]
        cases h.maxDepth <;> rfl
      have rewound : h.top.rewind.after = [] := list
      have top : Handle.top { h with failedCsum := false } = h.top := rfl
      simp [countBlocks, extentMove, move, top, nextSib, rewound, checked, none_, Except.isOk,
        Except.toBool]
    | cons e es =>
      have flat : h.maxDepth = 0 := small.resolve_right (by simp [list])
      rw [flat] at size
      obtain rfl := eq_nil_of_length_eq_zero size
      obtain ⟨fuel, result⟩ := @counts_flat h.nodes 0 (h.start e es).path e rfl
      refine ⟨fuel, ?_⟩
      have total : h.blocks = 0 + e.length + (es.map Entry.length).sum := by
        simp [Handle.blocks, Handle.leaves, flat, list, leaves, treeBlocks]
      rw [countBlocks, extentMove_root list, flat, total]
      simpa [Handle.start, Handle.level, flat, at_] using result

theorem countsBlocks_threeLeaves : CountsBlocks threeLeaves ↔
    threeLeaves.maxDepth = 0 ∨ threeLeaves.root = [] :=
  countsBlocks_iff threeLeaves threeLeaves_canonical

/- Six blocks are mapped by three leaves; the end of the root is counted as one node, or not at all
if the array happens to hold it. -/
theorem leaves_not_counted :
    countBlocks 9 [0] threeLeaves = some 7 ∧ countBlocks 9 [22] threeLeaves = some 6 ∧
    threeLeaves.blocks = 9 ∧ ¬ CountsBlocks threeLeaves := by
  refine ⟨rfl, rfl, rfl, fun exact_ => ?_⟩
  obtain ⟨fuel, result⟩ := exact_ [0] rfl
  cases runLoop_unique result (show countBlocks 9 [0] threeLeaves = some 7 from rfl)

end E2fs.ExtentTree
