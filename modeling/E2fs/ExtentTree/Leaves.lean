import E2fs.ExtentTree.Goto

/-! `EXT2_EXTENT_NEXT_LEAF` and `EXT2_EXTENT_PREV_LEAF` go from extent to extent, and the first one
comes back to a leaf that it does not know to be visited. -/
namespace E2fs.ExtentTree
open Loop List Prod
open Iterate (Entry extInitMaxLen)

def leafOf (ix : Entry) : Extent := ⟨ix.start, ix.block, ix.length, true, extInitMaxLen < ix.len⟩

def Gets (op : Op) (h : Handle) (out : Handle × Except Errcode Extent) : Prop :=
  ∃ fuel, extentGet fuel op h = some out

section Moves

variable {nodes : Nat → Except Errcode Node} {root : List Entry} {depth d : Nat} {p : Path}
  {e x : Entry} {up : List Path} {xs : List Entry}

def Lands (op : Op) (nodes : Nat → Except Errcode Node) (depth : Nat) (p : Path) (up : List Path)
    (p' : Path) (up' : List Path) (x : Entry) : Prop :=
  ∃ t, Reaches (getRound op) (at_ nodes depth p up) t ∧
    getRound op t = .done (at_ nodes depth p' up', .ok (leafOf x))

/- A call that gets to an entry, and ends there or goes on. -/
def Arrives (op : Op) (nodes : Nat → Except Errcode Node) (depth : Nat) (p : Path) (up : List Path)
    (p1 : Path) (up1 : List Path) (x : Entry) : Prop :=
  (retries op (at_ nodes depth p1 up1) = false → Lands op nodes depth p up p1 up1 x) ∧
  ∀ p' up' y, retries op (at_ nodes depth p1 up1) = true →
    Lands op nodes depth p1 up1 p' up' y → Lands op nodes depth p up p' up' y

variable {op : Op}

theorem leaf_of_ends (leafOp : op ≠ .next ∧ op ≠ .prev) {h : Handle} (ends : retries op h = false) :
    h.level = h.maxDepth := by
  cases op with
  | next => exact absurd rfl leafOp.1
  | prev => exact absurd rfl leafOp.2
  | nextLeaf | prevLeaf => simpa [retries] using ends
  | lastLeaf =>
    simp [retries] at ends
    exact ends.1

/- Above the leaves no call ends. -/
theorem arrives_here (leafOp : op ≠ .next ∧ op ≠ .prev) (shallow : up.length ≠ depth) :
    Arrives op nodes depth p up p up e :=
  ⟨fun ends => absurd (leaf_of_ends leafOp ends) shallow, fun _ _ _ _ lands => lands⟩

section Round

variable {p1 : Path} {up1 : List Path} {m : Move} {h : Handle}
  (chosen : nextMove op (at_ nodes depth p up) = .ok (h, m))
  (moved : move op.back h m = arrive (at_ nodes depth p1 up1)) (here : p1.curr = some x)
include chosen moved here

theorem getRound_arrive : getRound op (at_ nodes depth p up) =
    if retries op (at_ nodes depth p1 up1) then .again (at_ nodes depth p1 up1)
    else .done (at_ nodes depth p1 up1, .ok (extentOf (up1.length == depth) p1 x)) := by
  have out : arrive (at_ nodes depth p1 up1) =
      (at_ nodes depth p1 up1, .ok (extentOf (up1.length == depth) p1 x)) := by
    simp [arrive, Handle.extent, here, Handle.level]
  rw [getRound, chosen]
  dsimp only
  rw [moved, out]
  simp [checked, Except.isOk, Except.toBool]

theorem arrives_of_round (leafOp : op ≠ .next ∧ op ≠ .prev) :
    Arrives op nodes depth p up p1 up1 x := by
  have round := getRound_arrive chosen moved here
  constructor
  · intro ends
    refine ⟨_, .here _, round.trans ?_⟩
    have bottom : up1.length = depth := leaf_of_ends leafOp ends
    rw [ends, bottom, beq_self_eq_true]
    rfl
  · rintro p' up' y more ⟨t, way, done⟩
    exact ⟨t, .step (round.trans (if_pos more)) way, done⟩

end Round

/- The climb out of a leaf comes to an index that does not count as visited. -/
def Stale : List Path → Prop
  | p :: q :: up => p.after = [] ∧ (q.visitNum = 0 ∨ Stale (q :: up))
  | _ => False

theorem On.above {q : Path} (on : On nodes depth root d p e (q :: up)) :
    ∃ f, On nodes depth root (d + 1) q f up ∧ p.entries = childEntries nodes f := by
  obtain ⟨⟨f, here, entries⟩, linked⟩ := on.linked
  refine ⟨f, ⟨here, ?_, linked⟩, entries⟩
  rw [← on.height, length_cons]
  omega

/- Climbing to the next entry: what lies before and after stays the same. -/
theorem climb_next (on : On nodes depth root d p e up) (spent : d = 0 ∨ p.visitNum ≠ 0) :
    ∃ d' q f up', Reaches (getRound .nextLeaf) (at_ nodes depth p up) (at_ nodes depth q up') ∧
      On nodes depth root d' q f up' ∧ up' <:+ up ∧
      leavesAfter nodes d (p :: up) = leavesAfter nodes d' (q :: up') ∧
      leavesBefore nodes d (p :: up) ++ leaves nodes d [e] = leavesBefore nodes d' (q :: up') ++
        leaves nodes d' [f] ∧
      (Stale (p :: up) ∧ 0 < d' ∧ q.visitNum = 0 ∨
        ¬ Stale (p :: up) ∧ (d' = 0 ∨ q.visitNum ≠ 0) ∧ (q.after ≠ [] ∨ up' = [])) := by
  induction up generalizing d p e with
  | nil =>
    exact ⟨d, p, e, [], .here _, on, suffix_refl _, rfl, rfl, .inr ⟨not_false, spent, .inr rfl⟩⟩
  | cons q up ih =>
    by_cases more : p.after = []
    · obtain ⟨f, on', entries⟩ := on.above
      have stays : ¬ (up.length + 1 < depth ∧ p.visitNum = 0) := by
        have := on.height
        rw [length_cons] at this
        omega
      have chosen : nextMove .nextLeaf (at_ nodes depth p (q :: up)) =
          .ok (at_ nodes depth p (q :: up), .up) := by
        simp [nextMove, Handle.level, stays, more]
      have round :
          getRound .nextLeaf (at_ nodes depth p (q :: up)) = .again (at_ nodes depth q up) := by
        have shallow : up.length ≠ depth := by
          have := on'.height
          omega
        exact (getRound_arrive chosen rfl on'.here).trans
          (if_pos (by simp [retries, Handle.level, shallow]))
      have same : leavesBefore nodes d (p :: q :: up) ++ leaves nodes d [e] =
          leavesBefore nodes (d + 1) (q :: up) ++ leaves nodes (d + 1) [f] := by
        rw [leaves_index, ← entries, leaves_entries on.here, more, leaves_nil, append_nil,
          leavesBefore, append_assoc]
      have after : leavesAfter nodes d (p :: q :: up) = leavesAfter nodes (d + 1) (q :: up) := by
        rw [leavesAfter, more, leaves_nil, nil_append]
      by_cases visit : q.visitNum = 0
      · exact ⟨d + 1, q, f, up, .step round (.here _), on', suffix_cons _ _, after, same,
          .inl ⟨⟨more, .inl visit⟩, Nat.succ_pos d, visit⟩⟩
      · obtain ⟨d', r, g, up', way, on'', suffix, after', same', stop⟩ := ih on' (.inr visit)
        refine ⟨d', r, g, up', .step round way, on'', suffix.trans (suffix_cons _ _),
          after.trans after', same.trans same', ?_⟩
        have stale : Stale (p :: q :: up) ↔ Stale (q :: up) := by simp [Stale, more, visit]
        rwa [stale]
    · exact ⟨d, p, e, q :: up, .here _, on, suffix_refl _, rfl, rfl,
        .inr ⟨fun stale => more stale.1, spent, .inl more⟩⟩

theorem climb_prev (on : On nodes depth root d p e up) (spent : d = 0 ∨ p.visitNum = 0) :
    ∃ d' q f up', Reaches (getRound .prevLeaf) (at_ nodes depth p up) (at_ nodes depth q up') ∧
      On nodes depth root d' q f up' ∧
      leavesBefore nodes d (p :: up) = leavesBefore nodes d' (q :: up') ∧
      leaves nodes d [e] ++ leavesAfter nodes d (p :: up) = leaves nodes d' [f] ++
        leavesAfter nodes d' (q :: up') ∧
      (d' = 0 ∨ q.visitNum = 0) ∧ (q.before ≠ [] ∨ up' = []) := by
  induction up generalizing d p e with
  | nil => exact ⟨d, p, e, [], .here _, on, rfl, rfl, spent, .inr rfl⟩
  | cons q up ih =>
    by_cases more : p.before = []
    · obtain ⟨f, above, entries⟩ := on.above
      -- going back, the visit is forgotten
      have on' : On nodes depth root (d + 1) { q with visitNum := 0 } f up :=
        above.sibling above.here rfl
      have stays : ¬ (up.length + 1 < depth ∧ 0 < p.visitNum) := by
        have := on.height
        rw [length_cons] at this
        omega
      have chosen : nextMove .prevLeaf (at_ nodes depth p (q :: up)) =
          .ok (at_ nodes depth p (q :: up), .up) := by
        simp [nextMove, Handle.level, stays, more]
      have round : getRound .prevLeaf (at_ nodes depth p (q :: up)) =
          .again (at_ nodes depth { q with visitNum := 0 } up) := by
        have shallow : up.length ≠ depth := by
          have := above.height
          omega
        exact (getRound_arrive chosen rfl on'.here).trans
          (if_pos (by simp [retries, Handle.level, shallow]))
      obtain ⟨d', r, g, up', way, on'', before, same, stop⟩ := ih on' (.inr rfl)
      refine ⟨d', r, g, up', .step round way, on'', Eq.trans ?_ before, Eq.trans ?_ same, stop⟩
      · rw [leavesBefore, more, reverse_nil, leaves_nil, append_nil]
        rfl
      · rw [leaves_index, ← entries, leaves_entries on.here, more, reverse_nil, leaves_nil,
          nil_append, leavesAfter, append_assoc]
        rfl
    · exact ⟨d, p, e, q :: up, .here _, on, rfl, rfl, spent, .inl more⟩

theorem toLast_eq {z : Entry} {zs : List Entry} (entries : p.entries = zs ++ [z]) :
    p.toLast = { p with before := zs.reverse, curr := some z, after := [] } := by
  simp [Path.toLast, entries]

theorem lastSib_arrives (height : up.length + d = depth) (nonempty : p.entries ≠ [])
    (linked : Linked nodes root (p :: up)) (here : d = 0 ∨ p.after ≠ []) :
    ∃ p' z, On nodes depth root d p' z up ∧ p'.after = [] ∧ p'.entries = p.entries ∧
      Arrives .lastLeaf nodes depth p up p' up z := by
  obtain ⟨zs, z, split⟩ :
    ∃ zs z, p.entries = zs ++ [z] := ⟨_, _, (dropLast_concat_getLast nonempty).symm⟩
  have last := toLast_eq split
  have entries : ({ p.toLast with visitNum := 0 } : Path).entries = p.entries := by
    simp [last, Path.entries] at split ⊢
    exact split.symm
  have stays : ¬ (up.length < depth ∧ p.after = []) := by
    rintro ⟨shallow, none_⟩
    exact here.elim (by omega) (· none_)
  have chosen :
      nextMove .lastLeaf (at_ nodes depth p up) = .ok (at_ nodes depth p up, .lastSib) := by
    simp only [nextMove, Handle.level, at__up, at__maxDepth, at__path, if_neg stays]
  refine ⟨{ p.toLast with visitNum := 0 }, z,
    ⟨by rw [last], height, linked.same entries⟩, by rw [last], entries, ?_⟩
  exact arrives_of_round chosen rfl (by rw [last]) ⟨by simp, by simp⟩

variable {p0 : Path} {up0 : List Path}

/- `EXT2_EXTENT_LAST_LEAF` first goes to the last entry of a node. -/
theorem settle_last (on : On nodes depth root d p e up)
    (arrives : Arrives .lastLeaf nodes depth p0 up0 p up e) :
    ∃ p' z, On nodes depth root d p' z up ∧ p'.after = [] ∧ p'.entries = p.entries ∧
      Arrives .lastLeaf nodes depth p0 up0 p' up z := by
  by_cases last : p.after = []
  · exact ⟨p, e, on, last, rfl, arrives⟩
  obtain ⟨p', z, on', last', entries, arrives'⟩ :=
    lastSib_arrives on.height (ne_nil_of_mem on.mem) on.linked (.inr last)
  have more : retries .lastLeaf (at_ nodes depth p up) = true := by simp [retries, last]
  exact ⟨p', z, on', last', entries, fun ends => arrives.2 _ _ _ more (arrives'.1 ends),
    fun _ _ _ go lands => arrives.2 _ _ _ more (arrives'.2 _ _ _ go lands)⟩

variable (indexed : Indexed nodes depth root)
include indexed

section

variable (on : On nodes depth root d p e up)
include on

theorem descend_prev (visit : d = 0 ∨ 0 < p.visitNum)
    (arrives : Arrives .prevLeaf nodes depth p0 up0 p up e) :
    ∃ p' up' x xs, Lands .prevLeaf nodes depth p0 up0 p' up' x ∧ leaves nodes d [e] = xs ++ [x] ∧
      Cursor nodes depth root (at_ nodes depth p' up') (leavesBefore nodes d (p :: up) ++ xs) x
        (leavesAfter nodes d (p :: up)) := by
  induction d generalizing p e up p0 up0 with
  | zero =>
    refine ⟨p, up, e, [], arrives.1 (by simpa [retries, Handle.level] using on.height), rfl, ?_⟩
    simpa using on.cursor
  | succ d ih =>
    have shallow := on.shallow
    obtain ⟨node, child, down⟩ := on.goes_down indexed true
    obtain ⟨zs, z, split⟩ : ∃ zs z, node.entries = zs ++ [z] :=
      ⟨_, _, (dropLast_concat_getLast (cons_ne_nil node.first node.others)).symm⟩
    have last : newPath (at_ nodes depth p up) node true =
        ⟨zs.reverse, some z, [], node.maxEntries, if up.length + 1 < depth then 1 else 0,
            p.nextBlk⟩ := by
      simp [newPath, @toLast_eq ⟨[], none, node.entries, _, _, _⟩ z zs split, Handle.level]
    rw [last] at down
    have chosen :
        nextMove .prevLeaf (at_ nodes depth p up) = .ok (at_ nodes depth p up, .downAndLast) := by
      simp [nextMove, Handle.level, shallow, visit.resolve_left (Nat.succ_ne_zero d)]
    have on1 : On nodes depth root d
      ⟨zs.reverse, some z, [], node.maxEntries, if up.length + 1 < depth then 1 else 0,
        p.nextBlk⟩ z (p :: up) := by
      refine on.below rfl (Eq.trans ?_ child.symm)
      simpa [Path.entries, Node.entries] using split.symm
    have visit' : d = 0 ∨ 0 < if up.length + 1 < depth then 1 else 0 := by
      have := on.height
      split <;> omega
    obtain ⟨p', up', x, xs, lands, first, cursor⟩ := ih on1 visit'
      (arrives_of_round chosen down rfl ⟨by simp, by simp⟩)
    refine ⟨p', up', x, leaves nodes d zs ++ xs, arrives.2 _ _ _ ?_ lands, ?_, ?_⟩
    · simp [retries, Handle.level, shallow.ne]
    · rw [leaves_index, child, show node.first :: node.others = zs ++ [z] from split, leaves_append,
        first, append_assoc]
    · simpa [leavesBefore, leavesAfter] using cursor

theorem descend_last (last : p.after = []) (arrives : Arrives .lastLeaf nodes depth p0 up0 p up e) :
    ∃ p' up' x xs, Lands .lastLeaf nodes depth p0 up0 p' up' x ∧
    leaves nodes d p.entries = xs ++ [x] ∧
      Cursor nodes depth root (at_ nodes depth p' up') (leavesBefore nodes (d + 1) up ++ xs) x
        (leavesAfter nodes (d + 1) up) := by
  induction d generalizing p e up p0 up0 with
  | zero =>
    have bottom : up.length = depth := on.height
    refine ⟨p, up, e, p.before.reverse, arrives.1 (by simp [retries, Handle.level, bottom, last]),
      ?_, ?_⟩
    · simp [leaves, Path.entries, on.here, last]
    · simpa [leavesBefore, leavesAfter, leaves, last] using on.cursor
  | succ d ih =>
    have shallow := on.shallow
    obtain ⟨node, child, down⟩ := on.goes_down indexed false
    have chosen :
        nextMove .lastLeaf (at_ nodes depth p up) = .ok (at_ nodes depth p up, .down) := by
      simp [nextMove, Handle.level, shallow, last]
    have on1 :
        On nodes depth root d (newPath (at_ nodes depth p up) node false) node.first (p :: up) :=
      on.below rfl child.symm
    obtain ⟨p2, z, on2, last2, entries, arrives2⟩ := settle_last on1
      (arrives_of_round chosen down rfl ⟨by simp, by simp⟩)
    obtain ⟨p', up', x, xs, lands, first, cursor⟩ := ih on2 last2 arrives2
    refine ⟨p', up', x, leaves nodes (d + 1) p.before.reverse ++ xs, arrives.2 _ _ _ ?_ lands,
      ?_, ?_⟩
    · simp [retries, Handle.level, shallow.ne]
    · rw [leaves_entries on.here, last, leaves_nil, append_nil, leaves_index, child, append_assoc,
        ← first, entries]
      rfl
    · simpa [leavesBefore, leavesAfter, last] using cursor

theorem descend_next (fresh : p.visitNum = 0)
    (arrives : Arrives .nextLeaf nodes depth p0 up0 p up e) :
    ∃ p' up' x xs, Lands .nextLeaf nodes depth p0 up0 p' up' x ∧ leaves nodes d [e] = x :: xs ∧
      Cursor nodes depth root (at_ nodes depth p' up') (leavesBefore nodes d (p :: up)) x
        (xs ++ leavesAfter nodes d (p :: up)) ∧
        ((∀ q ∈ up, q.visitNum ≠ 0) → ∀ q ∈ up', q.visitNum ≠ 0) := by
  induction d generalizing p e up p0 up0 with
  | zero =>
    exact ⟨p, up, e, [], arrives.1 (by simpa [retries, Handle.level] using on.height), rfl,
      on.cursor, id⟩
  | succ d ih =>
    have shallow := on.shallow
    have on1 : On nodes depth root (d + 1) { p with visitNum := 1 } e up := on.sibling on.here rfl
    obtain ⟨node, child, down⟩ := on1.goes_down indexed false
    have chosen : nextMove .nextLeaf (at_ nodes depth p up) =
        .ok (at_ nodes depth { p with visitNum := 1 } up, .down) := by
      simp [nextMove, Handle.level, shallow, fresh, at_]
    have on2 : On nodes depth root d
      (newPath (at_ nodes depth { p with visitNum := 1 } up) node false) node.first
        ({ p with visitNum := 1 } :: up) := on1.below rfl child.symm
    obtain ⟨p', up', x, xs, lands, first, cursor, visited⟩ := ih on2 rfl
      (arrives_of_round chosen down rfl ⟨by simp, by simp⟩)
    refine ⟨p', up', x, xs ++ leaves nodes d node.others, arrives.2 _ _ _ ?_ lands, ?_, ?_, ?_⟩
    · simp [retries, Handle.level, shallow.ne]
    · rw [leaves_index, child, leaves_cons, first, cons_append]
    · simpa [leavesBefore, leavesAfter, newPath] using cursor
    · intro before
      exact visited (forall_mem_cons.mpr ⟨one_ne_zero, before⟩)

end

end Moves

section Steps

variable {nodes : Nat → Except Errcode Node} {root : List Entry} {depth : Nat} {h : Handle}
  {pre post : List Entry} {c y : Entry} {out : Handle × Except Errcode Extent}

theorem Cursor.on (cursor : Cursor nodes depth root h pre c post) :
    On nodes depth root 0 h.path c h.up :=
  ⟨cursor.here, cursor.leaf, cursor.linked⟩

theorem gets_of_reaches {op : Op} {t : Handle}
    (way : Reaches (getRound op) (at_ h.nodes h.maxDepth h.path h.up) t)
    (done : getRound op t = .done out) : Gets op h out := way.returns done

theorem Cursor.gets {op : Op} {t : Handle}
    (cursor : Cursor nodes depth root h pre c post)
    (way : Reaches (getRound op) (at_ nodes depth h.path h.up) t)
    (done : getRound op t = .done out) : Gets op h out := by
  rw [← cursor.reads, ← cursor.deep] at way
  exact gets_of_reaches way done

def Visited (h : Handle) : Prop := ∀ q ∈ h.up, q.visitNum ≠ 0

variable (indexed : Indexed nodes depth root)
include indexed

/-- `EXT2_EXTENT_NEXT_LEAF` on a leaf from which the climb knows where it has been. -/
theorem next_leaf (cursor : Cursor nodes depth root h pre c post)
    (fresh : ¬ Stale (h.path :: h.up)) : match post with
    | [] => ∃ h', Gets .nextLeaf h (h', .error .noNext)
    | y :: post =>
      ∃ h', Gets .nextLeaf h (h', .ok (leafOf y)) ∧ Cursor nodes depth root h' (pre ++ [c]) y post ∧
        (Visited h → Visited h') := by
  obtain ⟨d, q, f, up', way, on, suffix, after, before, stop⟩ := climb_next cursor.on (.inl rfl)
  obtain ⟨-, spent, more⟩ := stop.resolve_left fun stale => fresh stale.1
  rw [cursor.after] at after
  rw [cursor.before] at before
  have stays : ¬ (up'.length < depth ∧ q.visitNum = 0) := by
    have := on.height
    omega
  cases rest : q.after with
  | nil =>
    obtain rfl := more.resolve_left (not_not.mpr rest)
    obtain rfl : post = [] := by simpa [leavesAfter, rest] using after
    have stays : ¬ (0 < depth ∧ q.visitNum = 0) := stays
    have chosen : nextMove .nextLeaf (at_ nodes depth q []) = .error .noNext := by
      simp [nextMove, Handle.level, stays, rest]
    exact ⟨_, cursor.gets way (by rw [getRound, chosen])⟩
  | cons x xs =>
    have chosen :
        nextMove .nextLeaf (at_ nodes depth q up') = .ok (at_ nodes depth q up', .nextSib) := by
      simp [nextMove, Handle.level, stays, rest]
    have moved : move false (at_ nodes depth q up') .nextSib =
        arrive (at_ nodes depth (q.onto x xs) up') := by
      simp [move, nextSib, rest, at_, Path.onto]
    have on1 : On nodes depth root d (q.onto x xs) x up' :=
      on.sibling rfl (by simp [Path.entries, Path.onto, on.here, rest])
    obtain ⟨p', up'', x', xs', ⟨t, way', done⟩, first, cursor', visited⟩ :=
      descend_next indexed on1 rfl (arrives_of_round chosen moved rfl ⟨by simp, by simp⟩)
    have pre' : leavesBefore nodes d (q.onto x xs :: up') = pre ++ [c] := by
      refine Eq.trans ?_ before.symm
      simp [leavesBefore, Path.onto, on.here]
    obtain rfl : post = x' :: (xs' ++ leavesAfter nodes d (q.onto x xs :: up')) := by
      rw [after, leavesAfter, rest, leaves_cons, first]
      simp [leavesAfter, Path.onto]
    refine ⟨_, cursor.gets (way.trans way') done, pre' ▸ cursor', fun all => ?_⟩
    exact visited fun r mem => all r (suffix.subset mem)

/-- `EXT2_EXTENT_PREV_LEAF` on a leaf, whatever was visited. -/
theorem prev_leaf (cursor : Cursor nodes depth root h pre c post) :
    (pre = [] → ∃ h', Gets .prevLeaf h (h', .error .noPrev)) ∧
    ∀ pre' y, pre = pre' ++ [y] → ∃ h', Gets .prevLeaf h (h', .ok (leafOf y)) ∧
      Cursor nodes depth root h' pre' y (c :: post) := by
  obtain ⟨d, q, f, up', way, on, before, after, spent, more⟩ := climb_prev cursor.on (.inl rfl)
  rw [cursor.after] at after
  rw [cursor.before] at before
  have stays : ¬ (up'.length < depth ∧ 0 < q.visitNum) := by
    have := on.height
    omega
  cases rest : q.before with
  | nil =>
    obtain rfl := more.resolve_left (not_not.mpr rest)
    obtain rfl : pre = [] := by simpa [leavesBefore, rest] using before
    have stays : ¬ (0 < depth ∧ 0 < q.visitNum) := stays
    have chosen : nextMove .prevLeaf (at_ nodes depth q []) = .error .noPrev := by
      simp [nextMove, Handle.level, stays, rest]
    exact ⟨fun _ => ⟨at_ nodes depth q [], cursor.gets way (by rw [getRound, chosen])⟩, by simp⟩
  | cons x xs =>
    have chosen :
        nextMove .prevLeaf (at_ nodes depth q up') = .ok (at_ nodes depth q up', .prevSib) := by
      simp [nextMove, Handle.level, stays, rest]
    let q1 : Path :=
      ⟨xs, some x, f :: q.after, q.maxEntries, if up'.length < depth then 1 else q.visitNum,
        q.endBlk⟩
    have moved : move true (at_ nodes depth q up') .prevSib = arrive (at_ nodes depth q1 up') := by
      simp only [move, prevSib, at__path, on.here, rest]
      rfl
    have on1 :
      On nodes depth root d q1 x up' := on.sibling rfl (by simp [Path.entries, q1, on.here, rest])
    have visit : d = 0 ∨ 0 < q1.visitNum := by
      have := on.height
      simp only [q1]
      split <;> omega
    obtain ⟨p', up'', x', xs', ⟨t, way', done⟩, last, cursor'⟩ := descend_prev indexed on1 visit
      (arrives_of_round chosen moved rfl ⟨by simp, by simp⟩)
    have pre' : pre = leavesBefore nodes d (q1 :: up') ++ xs' ++ [x'] := by
      rw [before, leavesBefore, rest, reverse_cons, leaves_append, last]
      simp [leavesBefore, q1]
    have post' : leavesAfter nodes d (q1 :: up') = c :: post := by
      refine Eq.trans ?_ after.symm
      simp [leavesAfter, q1, leaves_cons d f q.after, -leaves_index]
    refine ⟨fun none_ => by simp [none_] at pre', fun pre'' y split => ?_⟩
    obtain ⟨rfl, same⟩ := append_inj' (pre'.symm.trans split) rfl
    obtain rfl := singleton_inj.mp same
    exact ⟨_, cursor.gets (way.trans way') done, post' ▸ cursor'⟩

end Steps

/- The calls return these extents, one after the other, and then the error. -/
def Visits (op : Op) (errcode : Errcode) : Handle → List Entry → Prop
  | h, [] => ∃ h', Gets op h (h', .error errcode)
  | h, x :: xs => ∃ h', Gets op h (h', .ok (leafOf x)) ∧ Visits op errcode h' xs

/-- `EXT2_EXTENT_ROOT` and then `EXT2_EXTENT_NEXT_LEAF` again and again. -/
def IteratesForward (h : Handle) : Prop :=
  ∃ h' first, extentMove .root h = (h', .ok first) ∧
    if h.maxDepth = 0 then ∃ e es, h.leaves = e :: es ∧ first = leafOf e ∧
      Visits .nextLeaf .noNext h' es
    else Visits .nextLeaf .noNext h' h.leaves

/-- `EXT2_EXTENT_LAST_LEAF` and then `EXT2_EXTENT_PREV_LEAF` again and again. -/
def IteratesBackward (h : Handle) : Prop :=
  ∃ h' x xs, h.leaves = xs ++ [x] ∧ Gets .lastLeaf h (h', .ok (leafOf x)) ∧
    Visits .prevLeaf .noPrev h' xs.reverse

/-- `EXT2_EXTENT_NEXT_LEAF` goes to the successor `y` of `c`, and `EXT2_EXTENT_PREV_LEAF` back to
`c`. -/
def ComesBack (h : Handle) (pre : List Entry) (c y : Entry) (post : List Entry) : Prop :=
  ∃ h' h'', Gets .nextLeaf h (h', .ok (leafOf y)) ∧ Gets .prevLeaf h' (h'', .ok (leafOf c)) ∧
    Cursor h.nodes h.maxDepth h.root h'' pre c (y :: post)

/- Another handle for the tree, on an entry of some level or at the root before the first one. -/
structure InTree (h h₀ : Handle) : Prop where
  reads : h₀.nodes = h.nodes
  deep : h₀.maxDepth = h.maxDepth
  level : h₀.level ≤ h.maxDepth
  linked : Linked h.nodes h.root (h₀.path :: h₀.up)
  first : h₀.path.curr = none → h₀.path.before = []

section Runs

variable {nodes : Nat → Except Errcode Node} {root : List Entry} {depth : Nat} {h : Handle}
  {pre post : List Entry} {c : Entry}

theorem not_stale {p : Path} {up : List Path} (visited : ∀ q ∈ up, q.visitNum ≠ 0) :
    ¬ Stale (p :: up) := by
  induction up generalizing p with
  | nil => exact not_false
  | cons q up ih =>
    obtain ⟨now, rest⟩ := forall_mem_cons.mp visited
    rintro ⟨-, fresh | stale⟩
    · exact now fresh
    · exact ih rest stale

section

variable (indexed : Indexed nodes depth root) (cursor : Cursor nodes depth root h pre c post)
include indexed cursor

theorem visits_next (visited : Visited h) : Visits .nextLeaf .noNext h post := by
  induction post generalizing h pre c with
  | nil => exact next_leaf indexed cursor (not_stale visited)
  | cons y post ih =>
    obtain ⟨h', gets, cursor', visited'⟩ := next_leaf indexed cursor (not_stale visited)
    exact ⟨h', gets, ih cursor' (visited' visited)⟩

theorem visits_prev : Visits .prevLeaf .noPrev h pre.reverse := by
  induction pre using List.reverseRecOn generalizing h c post with
  | nil => exact (prev_leaf indexed cursor).1 rfl
  | append_singleton pre y ih =>
    obtain ⟨h', gets, cursor'⟩ := (prev_leaf indexed cursor).2 pre y rfl
    rw [reverse_append]
    exact ⟨h', gets, ih cursor'⟩

/- After a stale climb the cursor is no further than it was, and stepping back takes it away. -/
theorem stale_leaf (stale : Stale (h.path :: h.up)) :
    ∃ h' x pre' post', Gets .nextLeaf h (h', .ok (leafOf x)) ∧
      Cursor nodes depth root h' pre' x post' ∧ pre'.length ≤ pre.length := by
  obtain ⟨d, q, f, up', way, on, -, -, before, stop⟩ := climb_next cursor.on (.inl rfl)
  obtain ⟨-, inner, fresh⟩ := stop.resolve_right fun other => other.1 stale
  have shallow : up'.length ≠ depth := by
    have := on.height
    omega
  obtain ⟨p', up'', x, xs, ⟨t, way', done⟩, first, cursor', -⟩ := descend_next indexed on fresh
    (arrives_here ⟨nofun, nofun⟩ shallow)
  refine ⟨_, x, _, _, cursor.gets (way.trans way') done, cursor', ?_⟩
  have lengths := congrArg List.length before
  rw [cursor.before, first] at lengths
  simp [leaves] at lengths
  omega

end

theorem not_comesBack {y : Entry} (indexed : Indexed h.nodes h.maxDepth h.root)
    (cursor : Cursor h.nodes h.maxDepth h.root h pre c (y :: post))
    (stale : Stale (h.path :: h.up)) : ¬ ComesBack h pre c y post := by
  rintro ⟨h', h'', ⟨fuel, next⟩, ⟨fuel', prev⟩, back⟩
  obtain ⟨h1, x, pre', post', ⟨fuel1, next1⟩, cursor', short⟩ := stale_leaf indexed cursor stale
  obtain ⟨rfl, -⟩ := mk.inj (runLoop_unique next next1)
  rcases eq_nil_or_concat pre' with rfl | ⟨pre'', z, rfl⟩
  · obtain ⟨h2, fuel2, none_⟩ := (prev_leaf indexed cursor').1 rfl
    cases (mk.inj (runLoop_unique prev none_)).2
  · obtain ⟨h2, ⟨fuel2, prev2⟩, cursor2⟩ := (prev_leaf indexed cursor').2 pre'' z (by simp)
    obtain ⟨rfl, -⟩ := mk.inj (runLoop_unique prev prev2)
    have same : pre = pre'' := back.before.symm.trans cursor2.before
    simp [same] at short

theorem iterates_forward (indexed : Indexed h.nodes h.maxDepth h.root) (nonempty : h.root ≠ []) :
    IteratesForward h := by
  obtain ⟨e, es, list⟩ := exists_cons_of_ne_nil nonempty
  refine ⟨_, _, extentMove_root list, ?_⟩
  have on : On h.nodes h.maxDepth h.root h.maxDepth (h.start e es).path e [] :=
    ⟨rfl, zero_add _, list.symm⟩
  by_cases flat : h.maxDepth = 0
  · rw [if_pos flat]
    refine ⟨e, es, ?_, ?_, ?_⟩
    · rw [Handle.leaves, flat, list]
      rfl
    · rw [flat]
      rfl
    · have cursor := On.cursor (flat ▸ on : On h.nodes h.maxDepth h.root 0 (h.start e es).path e [])
      have visits := visits_next indexed cursor (fun q mem => by cases mem)
      simpa [leavesAfter, leaves, Handle.start, at_] using visits
  · rw [if_neg flat]
    obtain ⟨p', up', x, xs, ⟨t, way, done⟩, first, cursor, visited⟩ := descend_next indexed on rfl
      (arrives_here ⟨by simp, by simp⟩ (Ne.symm flat))
    have all : h.leaves = x :: (xs ++ leavesAfter h.nodes h.maxDepth [(h.start e es).path]) := by
      rw [Handle.leaves, list, leaves_cons, first]
      simp [leavesAfter, Handle.start]
    rw [all]
    exact ⟨_, gets_of_reaches way done,
      visits_next indexed cursor (visited fun q mem => by cases mem)⟩

theorem Linked.root_eq {p : Path} {up : List Path} (linked : Linked nodes root (p :: up)) :
    ((p :: up).getLast (cons_ne_nil _ _)).entries = root := by
  induction up generalizing p with
  | nil => exact linked
  | cons q up ih =>
    rw [getLast_cons_cons]
    exact ih linked.2

theorem Linked.nonempty {p : Path} {up : List Path} (linked : Linked nodes root (p :: up))
    {d : Nat} (indexed : Indexed nodes (up.length + d) root) (some_ : root ≠ []) :
    p.entries ≠ [] := by
  cases up with
  | nil => rwa [show p.entries = root from linked]
  | cons q up =>
    obtain ⟨⟨e, here, entries⟩, rest⟩ := linked
    rw [length_cons, Nat.succ_add_eq_add_succ] at indexed
    obtain ⟨node, -, -, -, child, -⟩ :=
      (rest.indexed indexed).child (e := e) (by simp [Path.entries, here])
    rw [entries, child]
    exact cons_ne_nil _ _

/- There is an extent after a level if and only if an entry is left above it. -/
theorem Linked.after_eq_nil {p : Path} {up : List Path} {d : Nat}
    (linked : Linked nodes root (p :: up)) (indexed : Indexed nodes (up.length + d) root) :
    leavesAfter nodes (d + 1) up = [] ↔ ∀ q ∈ up, q.after = [] := by
  induction up generalizing p d with
  | nil => exact iff_of_true rfl nofun
  | cons q up ih =>
    rw [length_cons, Nat.succ_add_eq_add_succ] at indexed
    have below := linked.2.indexed indexed
    have own : leaves nodes (d + 1) q.after = [] ↔ q.after = [] := by
      refine ⟨fun none_ => ?_, fun none_ => by rw [none_, leaves_nil]⟩
      rcases rest : q.after with _ | ⟨y, ys⟩
      · rfl
      obtain ⟨x, xs, first, -⟩ := leaves_head below (e := y) (by simp [Path.entries, rest])
      rw [rest, leaves_cons, first] at none_
      cases none_
    rw [leavesAfter, append_eq_nil_iff, forall_mem_cons, own, ih linked.2 indexed]

theorem Visits.length_eq {op : Op} {errcode : Errcode} {xs ys : List Entry}
    (one : Visits op errcode h xs) (other : Visits op errcode h ys) : xs.length = ys.length := by
  induction xs generalizing h ys with
  | nil =>
    obtain ⟨h', fuel, gets⟩ := one
    rcases ys with _ | ⟨y, ys⟩
    · rfl
    obtain ⟨h'', ⟨fuel', gets'⟩, -⟩ := other
    cases (mk.inj (runLoop_unique gets gets')).2
  | cons x xs ih =>
    obtain ⟨h', ⟨fuel, gets⟩, rest⟩ := one
    rcases ys with _ | ⟨y, ys⟩
    · obtain ⟨h'', fuel', gets'⟩ := other
      cases (mk.inj (runLoop_unique gets gets')).2
    obtain ⟨h'', ⟨fuel', gets'⟩, rest'⟩ := other
    obtain ⟨rfl, -⟩ := mk.inj (runLoop_unique gets gets')
    rw [length_cons, length_cons, ih rest rest']

/- The call goes down from where the handle is, and what the levels above have left is not seen. -/
theorem iterates_backward_iff {h₀ : Handle} (indexed : Indexed h.nodes h.maxDepth h.root)
    (nonempty : h.root ≠ []) (place : InTree h h₀) :
    IteratesBackward h₀ ↔ ∀ q ∈ h₀.up, q.after = [] := by
  obtain ⟨reads, deep, level, linked, first⟩ := place
  obtain ⟨d, height⟩ := Nat.exists_eq_add_of_le level
  have height : h₀.up.length + d = h.maxDepth := height.symm
  have inside := linked.nonempty (height ▸ indexed) nonempty
  -- the last entry of the level, where the call stops or is already
  have last : ∃ p' z, On h.nodes h.maxDepth h.root d p' z h₀.up ∧ p'.after = [] ∧
      p'.entries = h₀.path.entries ∧
      Arrives .lastLeaf h.nodes h.maxDepth h₀.path h₀.up p' h₀.up z := by
    by_cases stays : d = 0 ∨ h₀.path.after ≠ []
    · exact lastSib_arrives height inside linked stays
    obtain ⟨upper, last⟩ := not_or.mp stays
    have last := not_not.mp last
    cases curr : h₀.path.curr with
    | none => exact absurd (by simp [Path.entries, curr, first curr, last]) inside
    | some e =>
      exact ⟨h₀.path, e, ⟨curr, height, linked⟩, last, rfl,
        arrives_here ⟨by simp, by simp⟩ (by omega)⟩
  obtain ⟨p', z, on, ends, entries, arrives⟩ := last
  obtain ⟨p'', up'', x, xs, ⟨t, way, done⟩, all, cursor⟩ := descend_last indexed on ends arrives
  have gets : Gets .lastLeaf h₀ (at_ h.nodes h.maxDepth p'' up'', .ok (leafOf x)) :=
    gets_of_reaches (by rwa [reads, deep]) done
  have visits := visits_prev indexed cursor
  have whole : h₀.leaves = leavesBefore h.nodes (d + 1) h₀.up ++ xs ++ [x] ++
      leavesAfter h.nodes (d + 1) h₀.up := by
    have whole := @Linked.whole _ _ d _ _ linked
    rw [← entries, all, add_comm d h₀.up.length, height] at whole
    rw [Handle.leaves, reads, deep, Handle.root, Handle.top, linked.root_eq, ← whole]
    simp only [append_assoc]
  rw [← linked.after_eq_nil (height ▸ indexed)]
  constructor
  · rintro ⟨h', x', xs', split, ⟨fuel, gets'⟩, visits'⟩
    obtain ⟨fuel', gets⟩ := gets
    obtain ⟨rfl, -⟩ := mk.inj (runLoop_unique gets' gets)
    have lengths := congrArg List.length (split.symm.trans whole)
    have same := visits'.length_eq visits
    simp only [length_append, length_reverse, length_singleton] at lengths same
    exact eq_nil_of_length_eq_zero (by omega)
  · intro none_
    rw [none_, append_nil] at whole
    exact ⟨_, x, _, whole, gets, visits⟩

end Runs

/-- The extents are visited in order forwards, backwards from a handle `h₀`, and a step forwards
from a leaf and back again returns, if and only if `h₀` has no entry left above it, and the climb
out of the leaf does not come to an index that counts as new. -/
theorem leaf_iteration_iff (h : Handle) (pre : List Entry) (c : Entry) (post : List Entry)
    (canonical : Canonical h.nodes h.maxDepth h.root)
    (cursor : Cursor h.nodes h.maxDepth h.root h pre c post) (h₀ : Handle) (place : InTree h h₀) :
    (IteratesForward h ∧ IteratesBackward h₀ ∧
      ∀ y post', post = y :: post' → ComesBack h pre c y post') ↔
    (∀ q ∈ h₀.up, q.after = []) ∧ (post ≠ [] → ¬ Stale (h.path :: h.up)) := by
  have indexed := canonical.indexed
  have nonempty : h.root ≠ [] := by
    intro empty
    have whole := cursor.whole
    simp [empty] at whole
  rw [iterates_backward_iff indexed nonempty place,
    and_iff_right (iterates_forward indexed nonempty)]
  refine and_congr_right fun _ => ⟨fun back more stale => ?_, fun fresh y post' more => ?_⟩
  · obtain ⟨y, post', rfl⟩ := exists_cons_of_ne_nil more
    exact not_comesBack indexed cursor stale (back y post' rfl)
  · subst more
    obtain ⟨h', gets, cursor', -⟩ := next_leaf indexed cursor (fresh (cons_ne_nil _ _))
    obtain ⟨h'', gets', back⟩ := (prev_leaf indexed cursor').2 pre c rfl
    exact ⟨h', h'', gets, gets', back⟩

/- Where `EXT2_EXTENT_ROOT` and `EXT2_EXTENT_NEXT_LEAF` lead. -/
def atFirstLeaf : Handle :=
  at_ threeLeaves.nodes 1 ⟨[], some ⟨0, 2, 500⟩, [], 84, 0, 10⟩
    [⟨[], some ⟨0, 0, 0⟩, [⟨10, 0, 1⟩, ⟨20, 0, 2⟩], 4, 1, 22⟩]

theorem atFirstLeaf_iteration : IteratesForward atFirstLeaf ∧ IteratesBackward threeLeaves ∧
    ∀ y post', [⟨10, 2, 510⟩, ⟨20, 2, 520⟩] = y :: post' →
      ComesBack atFirstLeaf [] ⟨0, 2, 500⟩ y post' :=
  (leaf_iteration_iff atFirstLeaf _ _ _ threeLeaves_canonical
      ⟨rfl, rfl, rfl, rfl, rfl, rfl, ⟨_, rfl, rfl⟩, rfl⟩ threeLeaves
      ⟨rfl, rfl, by decide, rfl, fun _ => rfl⟩).mpr
    ⟨nofun, fun _ stale => absurd stale.2 (by simp [Stale])⟩

/- Where seeking the first block of the second leaf leaves the handle: the index above is not
visited. -/
def atSecondLeaf : Handle :=
  at_ threeLeaves.nodes 1 ⟨[], some ⟨10, 2, 510⟩, [], 84, 0, 20⟩
    [⟨[⟨0, 0, 0⟩], some ⟨10, 0, 1⟩, [⟨20, 0, 2⟩], 4, 0, 22⟩]

theorem atSecondLeaf_cursor :
    Cursor atSecondLeaf.nodes atSecondLeaf.maxDepth atSecondLeaf.root atSecondLeaf
    [⟨0, 2, 500⟩] ⟨10, 2, 510⟩ [⟨20, 2, 520⟩] := ⟨rfl, rfl, rfl, rfl, rfl, rfl, ⟨_, rfl, rfl⟩, rfl⟩

/- The step forwards returns the extent that the handle is on, and the step back the one
before it. -/
theorem next_leaf_repeats : extentGoto 5 10 threeLeaves = some (atSecondLeaf, none) ∧
    (extentGet 5 .nextLeaf atSecondLeaf).map (·.2) = some (.ok (leafOf ⟨10, 2, 510⟩)) ∧
    ¬ ComesBack atSecondLeaf [⟨0, 2, 500⟩] ⟨10, 2, 510⟩ ⟨20, 2, 520⟩ [] :=
  ⟨rfl, rfl, not_comesBack threeLeaves_canonical.indexed atSecondLeaf_cursor ⟨rfl, .inl rfl⟩⟩

end E2fs.ExtentTree
