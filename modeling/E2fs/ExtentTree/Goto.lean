import E2fs.ExtentTree.Cursor

/-! `ext2fs_extent_goto` ends at the extent of a block, or just before the hole the block is in. -/
namespace E2fs.ExtentTree
open Loop List
open Iterate (Entry)

def Holds (e : Entry) (blk : Nat) : Prop := e.block ≤ blk ∧ blk < e.block + e.length

/-- The seek has found the extent that holds the block, or none does and the cursor is at the last
extent that starts before the block, or at the first one. -/
def Sought (nodes : Nat → Except Errcode Node) (depth : Nat) (root : List Entry) (blk : Nat)
    (out : Handle × Option Errcode) : Prop :=
  ∃ pre c post, Cursor nodes depth root out.1 pre c post ∧
    (out.2 = none ∧ Holds c blk ∨
      out.2 = some .notFound ∧ ¬ Holds c blk ∧ (c.block ≤ blk ∨ pre = []) ∧ ∀ x ∈ post,
        blk < x.block)

section Search

variable {nodes : Nat → Except Errcode Node} {root : List Entry} {depth blk : Nat}

variable {d : Nat} {p : Path} {c : Entry} {up : List Path}

theorem leaves_ahead {e : Entry} {es es' rest : List Entry} (indexed : Indexed nodes d es')
    (mem : e ∈ es')
    (sorted : (leaves nodes d (e :: es) ++ rest).Pairwise fun a b => a.block < b.block) :
    (∀ x ∈ leaves nodes d [e], e.block ≤ x.block) ∧ ∀ x ∈ leaves nodes d es, e.block < x.block := by
  obtain ⟨y, ys, first, block⟩ := leaves_head indexed mem
  rw [leaves_cons, first, append_assoc, cons_append] at sorted
  have beyond : ∀ x ∈ ys ++ (leaves nodes d es ++ rest), e.block < x.block := by
    intro x mem
    exact block ▸ rel_of_pairwise_cons sorted mem
  rw [first]
  refine ⟨forall_mem_cons.mpr ⟨block.ge, fun x mem => (beyond x (by simp [mem])).le⟩,
    fun x mem => ?_⟩
  exact beyond x (by simp [mem])

/- A level of the search: the entries after the one in hand are still to be looked at. -/
structure Searching (nodes : Nat → Except Errcode Node) (depth : Nat) (root : List Entry)
    (blk d : Nat) (p : Path)
    (c : Entry) (up : List Path) : Prop extends On nodes depth root d p c up where
  sorted : (leaves nodes d (c :: p.after) ++ leavesAfter nodes (d + 1) up).Pairwise fun a b =>
    a.block < b.block
  right : ∀ x ∈ leavesAfter nodes (d + 1) up, blk < x.block

def seekingAt (nodes : Nat → Except Errcode Node) (depth : Nat) (p : Path) (c : Entry)
    (up : List Path) : Seeking :=
  ⟨at_ nodes depth p up, extentOf (up.length == depth) p c⟩

def Path.onto (p : Path) (x : Entry) (after : List Entry) : Path :=
  { p with before := p.curr.toList ++ p.before, curr := some x, after := after, visitNum := 0 }

section Siblings

variable {p : Path} {c x : Entry} {up : List Path} {xs : List Entry} (after : p.after = x :: xs)
include after

theorem extentMove_nextSib : extentMove .nextSib (at_ nodes depth p up) =
    (at_ nodes depth (p.onto x xs) up, .ok (extentOf (up.length == depth) (p.onto x xs) x)) := by
  simp [extentMove, move, nextSib, after, arrive, Handle.extent, Handle.level, checked, Path.onto,
    at_]

theorem extentMove_prevSib (here : p.curr = some c) :
    extentMove .prevSib (at_ nodes depth (p.onto x xs) up) =
    let p' := { p with visitNum := if up.length < depth then 1 else 0 }
    (at_ nodes depth p' up, .ok (extentOf (up.length == depth) p' c)) := by
  simp [extentMove, move, prevSib, after, here, arrive, Handle.extent, Handle.level, checked,
    Path.onto, at_]

end Siblings

theorem Searching.next {x : Entry} {xs : List Entry}
    (s : Searching nodes depth root blk d p c up) (after : p.after = x :: xs) :
    Searching nodes depth root blk d (p.onto x xs) x up := by
  have entries : (p.onto x xs).entries = p.entries := by
    simp [Path.onto, Path.entries, s.here, after]
  have sorted := s.sorted
  rw [after, leaves_cons, append_assoc] at sorted
  exact ⟨s.toOn.sibling rfl entries, (pairwise_append.mp sorted).2.1, s.right⟩

variable (indexed : Indexed nodes depth root)
include indexed

theorem Searching.down
    (s : Searching nodes depth root blk (d + 1) p c up)
    (beyond : ∀ x ∈ leaves nodes (d + 1) p.after, blk < x.block) :
    ∃ p' c', goDownTo (at_ nodes depth p up) = .again (seekingAt nodes depth p' c' (p :: up)) ∧
      Searching nodes depth root blk d p' c' (p :: up) ∧ c'.block = c.block ∧ p'.before = [] := by
  obtain ⟨on, sorted, right⟩ := s
  obtain ⟨node, read, csum, key, child, -⟩ := (on.indexed indexed).child on.mem
  have deeper := Nat.not_le.mpr on.shallow
  refine ⟨⟨[], some node.first, node.others, node.maxEntries, 0, p.nextBlk⟩, node.first, ?_, ?_,
    key.symm, rfl⟩
  · simp [goDownTo, extentMove, move, goDown, on.here, Handle.level, deeper, read, csum, checked,
      arrive, Handle.extent, newPath, seekingAt, at_]
  · rw [leaves_cons, leaves_index, child, append_assoc] at sorted
    exact ⟨on.below rfl child.symm, sorted, forall_mem_append.mpr ⟨beyond, right⟩⟩

/- On an index: to the last one that is not beyond the block, and down from there. -/
theorem Searching.row (s : Searching nodes depth root blk (d + 1) p c up)
    (low : c.block ≤ blk ∨ leavesBefore nodes (d + 1) (p :: up) = []) :
    ∃ p' c' up', Reaches (gotoRound 0 blk) (seekingAt nodes depth p c up)
    (seekingAt nodes depth p' c' up') ∧
      Searching nodes depth root blk d p' c' up' ∧
      (c'.block ≤ blk ∨ leavesBefore nodes d (p' :: up') = []) := by
  have deeper : ¬ depth - up.length = 0 := by
    have := s.height
    omega
  -- going down from an entry when all beyond it are beyond the block
  have enter :
    ∀ {q : Path} {e : Entry} {from_ : Seeking}, Searching nodes depth root blk (d + 1) q e up →
      (∀ x ∈ leaves nodes (d + 1) q.after, blk < x.block) →
      (e.block ≤ blk ∨ leavesBefore nodes (d + 1) (q :: up) = []) →
      gotoRound 0 blk from_ = goDownTo (at_ nodes depth q up) →
      ∃ p' c' up', Reaches (gotoRound 0 blk) from_ (seekingAt nodes depth p' c' up') ∧
        Searching nodes depth root blk d p' c' up' ∧
            (c'.block ≤ blk ∨ leavesBefore nodes d (p' :: up') = []) := by
    intro q e from_ now beyond low' round
    obtain ⟨p', c', again, searching, key, first⟩ := now.down indexed beyond
    refine ⟨p', c', q :: up, .step (round.trans again) (.here _), searching, ?_⟩
    rw [key, leavesBefore, first]
    simpa using low'
  generalize rest : p.after = es
  induction es generalizing p c with
  | nil =>
    refine enter s (by simp [rest]) low ?_
    simp [gotoRound, seekingAt, at_, Handle.level, deeper, extentMove, move, nextSib, rest, checked]
  | cons x xs ih =>
    have step := s.next rest
    obtain ⟨ahead, beyond⟩ := leaves_ahead (step.toOn.indexed indexed) step.mem step.sorted
    rcases lt_trichotomy blk x.block with less | equal | more
    · have back : Searching nodes depth root blk (d + 1) { p with visitNum := 1 } c up :=
        ⟨s.toOn.sibling s.here rfl, s.sorted, s.right⟩
      refine enter back ?_ low ?_
      · rw [show ({ p with visitNum := 1 } : Path).after = x :: xs from rest, leaves_cons]
        exact forall_mem_append.mpr ⟨fun z mem => lt_of_lt_of_le less (ahead z mem),
          fun z mem => less.trans (beyond z mem)⟩
      · have shallow : up.length < depth := by omega
        simp [gotoRound, seekingAt, Handle.level, deeper, extentMove_nextSib rest, ne_of_lt less,
          not_lt_of_gt less, extentMove_prevSib rest s.here, shallow]
    · refine enter step (equal ▸ beyond) (.inl equal.ge) ?_
      simp [gotoRound, seekingAt, Handle.level, deeper, extentMove_nextSib rest, equal]
    · have again : gotoRound 0 blk (seekingAt nodes depth p c up) =
          .again (seekingAt nodes depth (p.onto x xs) x up) := by
        simp [gotoRound, seekingAt, Handle.level, deeper, extentMove_nextSib rest, ne_of_gt more,
          more]
      obtain ⟨p', c', up', way, searching, low'⟩ := ih step (.inl more.le) rfl
      exact ⟨p', c', up', .step again way, searching, low'⟩

omit indexed in
/- Whether the extent in hand holds the block, and what is done when it does not begin before it. -/
theorem Searching.here_ends (s : Searching nodes depth root blk 0 p c up)
    (low : c.block ≤ blk ∨ leavesBefore nodes 0 (p :: up) = [])
    (ends : Holds c blk ∨ blk < c.block) :
    ∃ out, gotoRound 0 blk (seekingAt nodes depth p c up) = .done out ∧
    Sought nodes depth root blk out := by
  have bottom : up.length = depth := s.height
  rcases ends with holds | less
  · refine ⟨(at_ nodes depth p up, none), ?_, _, c, _, s.cursor, .inl ⟨rfl, holds⟩⟩
    simp [gotoRound, seekingAt, Handle.level, bottom, extentOf_len, show c.block ≤ blk ∧
      _ from holds]
  -- only at the very first extent
  have first := low.resolve_left (by omega)
  have alone : p.before = [] := by simpa [leavesBefore, leaves] using (append_eq_nil_iff.mp first).2
  have out := Nat.not_le_of_lt less
  refine ⟨(at_ nodes depth p up, some .notFound), ?_, _, c, _, s.cursor,
    .inr ⟨rfl, fun holds => out holds.1, .inr first, fun x mem => ?_⟩⟩
  · simp [gotoRound, seekingAt, Handle.level, bottom, less, out, extentMove, move, prevSib, alone,
      checked, s.here, at_]
  · exact less.trans (rel_of_pairwise_cons s.sorted mem)

omit indexed in
/- On the extents of a leaf: to the first one that does not end before the block. -/
theorem Searching.leaf (s : Searching nodes depth root blk 0 p c up)
    (low : c.block ≤ blk ∨ leavesBefore nodes 0 (p :: up) = []) :
    ∃ t out, Reaches (gotoRound 0 blk) (seekingAt nodes depth p c up) t ∧
      gotoRound 0 blk t = .done out ∧ Sought nodes depth root blk out := by
  have bottom : up.length = depth := s.height
  generalize size : p.after.length = n
  induction n using Nat.strong_induction_on generalizing p c with
  | _ n ih =>
    by_cases ends : Holds c blk ∨ blk < c.block
    · obtain ⟨out, done, sought⟩ := s.here_ends low ends
      exact ⟨_, out, .here _, done, sought⟩
    obtain ⟨out, more⟩ := not_or.mp ends
    have low' := Nat.le_of_not_lt more
    have passed : ¬ (c.block ≤ blk ∧ blk < c.block + c.length) := out
    cases rest : p.after with
    | nil =>
      refine ⟨_, (at_ nodes depth p up, some .notFound), .here _, ?_, _, c, _, s.cursor,
        .inr ⟨rfl, out, .inl low', ?_⟩⟩
      · simp [gotoRound, seekingAt, Handle.level, bottom, passed, more, extentMove, move, nextSib,
          rest, checked, at_]
      · simpa [leavesAfter, rest, leaves] using s.right
    | cons x xs =>
      have round : gotoRound 0 blk (seekingAt nodes depth p c up) =
          .again (seekingAt nodes depth (p.onto x xs) x up) := by
        simp [gotoRound, seekingAt, Handle.level, bottom, passed, more, extentMove_nextSib rest]
      by_cases next : blk < x.block
      · -- one too far: back to the extent before
        have back : Searching nodes depth root blk 0 { p with visitNum := 0 } c up :=
          ⟨s.toOn.sibling s.here rfl, s.sorted, s.right⟩
        refine ⟨_, (at_ nodes depth { p with visitNum := 0 } up, some .notFound),
          .step round (.here _), ?_, _, c, _, back.cursor, .inr ⟨rfl, out, .inl low', ?_⟩⟩
        · have beyond := Nat.not_le_of_lt next
          simp [gotoRound, seekingAt, Handle.level, bottom, beyond, next,
            extentMove_prevSib rest s.here]
        · rw [leavesAfter, show ({ p with visitNum := 0 } : Path).after = x :: xs from rest]
          exact forall_mem_cons.mpr
            ⟨next, fun z mem => next.trans (rel_of_pairwise_cons (s.next rest).sorted mem)⟩
      · obtain ⟨t, out', way, done, sought⟩ := ih xs.length (by simp [← size, rest]) (s.next rest)
          (.inl (Nat.le_of_not_lt next)) rfl
        exact ⟨t, out', .step round way, done, sought⟩

theorem Searching.ends
    (s : Searching nodes depth root blk d p c up)
    (low : c.block ≤ blk ∨ leavesBefore nodes d (p :: up) = []) :
    ∃ t out, Reaches (gotoRound 0 blk) (seekingAt nodes depth p c up) t ∧
      gotoRound 0 blk t = .done out ∧ Sought nodes depth root blk out := by
  induction d generalizing p c up with
  | zero => exact s.leaf low
  | succ d ih =>
    obtain ⟨p', c', up', way, searching, low'⟩ := s.row indexed low
    obtain ⟨t, out, rest, done, sought⟩ := ih searching low'
    exact ⟨t, out, way.trans rest, done, sought⟩

end Search

/-- Seeking a block finds the extent that holds it if there is one. If not it is left at the last
extent that starts before the block, or at the first extent when none does. -/
theorem goto_lands (h : Handle) (canonical : Canonical h.nodes h.maxDepth h.root)
    (nonempty : h.root ≠ []) (blk : Nat) :
    ∃ fuel h' err pre c post, extentGoto fuel blk h = some (h', err) ∧
    Cursor h.nodes h.maxDepth h.root h' pre c post ∧
      pre ++ c :: post = h.leaves ∧ (err = none ↔ ∃ e ∈ h.leaves, Holds e blk) ∧
      (err = none → Holds c blk) ∧
      (err ≠ none → err = some .notFound ∧ (c.block < blk ∧ (∀ x ∈ post, ¬ x.block < blk) ∨
        pre = [] ∧ ∀ x ∈ h.leaves, ¬ x.block < blk)) := by
  obtain ⟨e, es, root⟩ := exists_cons_of_ne_nil nonempty
  have strict : h.leaves.Pairwise fun a b => a.block < b.block := by
    refine canonical.sorted.imp_of_mem fun {a b} mem _ order => ?_
    have := canonical.filled a mem
    omega
  have start : Searching h.nodes h.maxDepth h.root blk h.maxDepth (h.start e es).path e [] := by
    refine ⟨⟨rfl, zero_add _, root.symm⟩, ?_, by simp [leavesAfter]⟩
    simpa [leavesAfter, Handle.leaves, root, Handle.start] using strict
  obtain ⟨t, ⟨h', err⟩, way, done, pre, c, post, cursor, outcome⟩ :=
    start.ends canonical.indexed (.inr (by simp [leavesBefore, Handle.start]))
  obtain ⟨fuel, result⟩ := way.returns done
  have call : extentGoto fuel blk h = some (h', err) := by
    rw [extentGoto, extentGoto2, extentMove_root root]
    exact (if_neg (Nat.not_lt_zero _)).trans result
  have whole : pre ++ c :: post = h.leaves := cursor.whole
  have mem : c ∈ h.leaves := by simp [← whole]
  refine ⟨fuel, h', err, pre, c, post, call, cursor, whole, ?_⟩
  rcases outcome with ⟨rfl, holds⟩ | ⟨rfl, misses, low, beyond⟩
  · exact ⟨⟨fun _ => ⟨c, mem, holds⟩, fun _ => rfl⟩, fun _ => holds, fun err => absurd rfl err⟩
  refine ⟨⟨by simp, ?_⟩, by simp, fun _ => ⟨rfl, ?_⟩⟩
  · rintro ⟨e', mem', holds⟩
    have sorted : (pre ++ c :: post).Pairwise _ := cursor.whole ▸ canonical.sorted
    rcases mem_append.mp (whole ▸ mem') with left | right
    · rcases low with low | none_
      · have order := (pairwise_append.mp sorted).2.2 e' left c (mem_cons_self ..)
        exact absurd holds.2 (by omega)
      · rw [none_] at left
        cases left
    · rcases mem_cons.mp right with rfl | right
      · exact absurd holds misses
      · exact absurd holds.1 (Nat.not_le_of_lt (beyond e' right))
  · have after : ∀ x ∈ post, ¬ x.block < blk := fun x mem => (beyond x mem).le.not_gt
    by_cases starts : c.block < blk
    · exact .inl ⟨starts, after⟩
    -- an extent that starts at the block would hold it
    have far : ¬ c.block ≤ blk := fun le => misses ⟨le, by have := canonical.filled c mem; omega⟩
    have alone := low.resolve_left far
    refine .inr ⟨alone, ?_⟩
    rw [← whole, alone]
    exact forall_mem_cons.mpr ⟨starts, after⟩

theorem goto_lands_in_hole :
    ∃ fuel h' err pre c post, extentGoto fuel 12 threeLeaves = some (h', err) ∧
    Cursor threeLeaves.nodes 1 threeLeaves.root h' pre c post ∧
    pre ++ c :: post = threeLeaves.leaves ∧
    (err = none ↔ ∃ e ∈ threeLeaves.leaves, Holds e 12) ∧ (err = none → Holds c 12) ∧
    (err ≠ none → err = some .notFound ∧ (c.block < 12 ∧ (∀ x ∈ post, ¬ x.block < 12) ∨
      pre = [] ∧ ∀ x ∈ threeLeaves.leaves, ¬ x.block < 12)) :=
  goto_lands threeLeaves threeLeaves_canonical (by decide) 12

end E2fs.ExtentTree
