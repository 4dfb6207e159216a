import E2fs.Iterate.Quiet

/-! The same for a file that is mapped by extents: `EXT2_EXTENT_NEXT` goes through the tree in
order, and the loop of the iterator makes the calls for what it meets. -/
namespace E2fs.Iterate
open List Function

variable {e : Entry} {depth b : Nat} {root : List Entry}

section Tree

variable (nodes : Nat → Except Errcode Node)

def Entry.below (e : Entry) : List Entry :=
  match nodes e.start with
  | .ok node => node.entries
  | .error _ => []

def leaves : Nat → List Entry → List Entry
  | 0, es => es
  | d + 1, es => es.flatMap fun e => leaves d (e.below nodes)

def leafCalls (e : Entry) : List Call :=
  (List.range e.length).map fun j => ⟨e.start + j, (e.block + j : Nat), 0, 0⟩

def extentVisits (flags : Flags) : Nat → List Entry → List Call
  | 0, es => es.flatMap leafCalls
  | d + 1, es =>
    es.flatMap fun e => around flags ⟨e.start, -1, 0, 0⟩ (extentVisits flags d (e.below nodes))

def Readable : Nat → List Entry → Prop
  | 0, _ => True
  | d + 1, es => ∀ e ∈ es, (∃ node, nodes e.start = .ok node) ∧ Readable d (e.below nodes)

/-- The nodes can be read, and the extents are neither empty nor out of order. -/
structure Canonical (depth : Nat) (root : List Entry) : Prop where
  readable : Readable nodes depth root
  nonempty : ∀ e ∈ leaves nodes depth root, 0 < e.length
  apart : (leaves nodes depth root).Pairwise fun e e' => e.block + e.length ≤ e'.block

/- What `ext2fs_extent_get` returns one after the other. -/
def trace : Nat → List Entry → List Extent
  | 0, es => es.map (extentOf true 0)
  | d + 1, es =>
    es.flatMap fun e => extentOf false 0 e :: trace d (e.below nodes) ++ [extentOf false 1 e]

def Steps : Handle → List Extent → Prop
  | h, [] => extentGet nodes .next h = (h, .error .extentNoNext)
  | h, x :: xs => ∃ h', extentGet nodes .next h = (h', .ok x) ∧ Steps h' xs

variable {nodes}

variable {x : Extent} {xs : List Extent} {root : List Entry}

theorem Steps.of_same {h h' : Handle}
    (same : extentGet nodes .next h' = extentGet nodes .next h) (steps : Steps nodes h (x :: xs)) :
    Steps nodes h' (x :: xs) := by
  obtain ⟨next, get, rest⟩ := steps
  exact ⟨next, same.trans get, rest⟩

theorem trace_cons_ne_nil (nodes : Nat → Except Errcode Node) (d : Nat) (e : Entry)
    (es : List Entry) : ∃ x xs, trace nodes d (e :: es) = x :: xs := by
  cases d with
  | zero => exact ⟨_, _, rfl⟩
  | succ d => exact ⟨_, _, by rw [trace, flatMap_cons, cons_append, cons_append]⟩

section Moves

variable {root : List Entry} {maxDepth : Nat} {c : Option Entry} {v : Nat} {up : List Path}

theorem get_sibling (e : Entry) (es : List Entry) (stays : ¬ (up.length < maxDepth ∧ v = 0)) :
    extentGet nodes .next ⟨root, maxDepth, ⟨c, e :: es, v⟩ :: up⟩ =
      (⟨root, maxDepth, ⟨some e, es, 0⟩ :: up⟩, .ok (extentOf (up.length == maxDepth) 0 e)) := by
  simp only [extentGet, if_neg stays]
  rfl

theorem get_down {es : List Entry} {node : Node} (deeper : up.length < maxDepth)
    (read : nodes e.start = .ok node) :
    extentGet nodes .next ⟨root, maxDepth, ⟨some e, es, 0⟩ :: up⟩ =
      (⟨root, maxDepth, ⟨some node.first, node.others, 0⟩ :: ⟨some e, es, 1⟩ :: up⟩,
        .ok (extentOf (up.length + 1 == maxDepth) 0 node.first)) := by
  simp only [extentGet, deeper, true_and, if_true, read]
  rfl

theorem get_up {es : List Entry} (stays : ¬ (up.length + 1 < maxDepth ∧ v = 0)) :
    extentGet nodes .next ⟨root, maxDepth, ⟨c, [], v⟩ :: ⟨some e, es, 1⟩ :: up⟩ =
      (⟨root, maxDepth, ⟨some e, es, 1⟩ :: up⟩, .ok (extentOf (up.length == maxDepth) 1 e)) := by
  simp only [extentGet, length_cons, if_neg stays]
  rfl

end Moves

/- A row of entries at depth `d` above the leaves, when what comes after the row is known. -/
theorem steps_row {maxDepth : Nat} (d : Nat) (es : List Entry) (up : List Path)
    (ys : List Extent) (depth : up.length + d = maxDepth) (readable : Readable nodes d es)
    (done : ∀ c v, (d = 0 ∨ v ≠ 0) → Steps nodes ⟨root, maxDepth, ⟨c, [], v⟩ :: up⟩ ys)
    (c : Option Entry) (v : Nat)
    (visited : d = 0 ∨ v ≠ 0) :
    Steps nodes ⟨root, maxDepth, ⟨c, es, v⟩ :: up⟩ (trace nodes d es ++ ys) := by
  induction d generalizing es up ys c v with
  | zero =>
    induction es generalizing c v with
    | nil => exact done c v visited
    | cons e es ih =>
      have leaf : (up.length == maxDepth) = true := by simpa using depth
      have stays : ¬ (up.length < maxDepth ∧ v = 0) := by omega
      refine ⟨_, (get_sibling e es stays).trans (by rw [leaf]), ?_⟩
      exact ih trivial (some e) 0 (.inl rfl)
  | succ d ihd =>
    induction es generalizing c v with
    | nil => exact done c v visited
    | cons e es ih =>
      have inner : (up.length == maxDepth) = false := by
        simp
        omega
      obtain ⟨⟨⟨node, read⟩, below⟩, rest⟩ := forall_mem_cons.mp readable
      have entries : e.below nodes = node.first :: node.others := by
        rw [Entry.below, read]
        rfl
      -- what comes after the node below `e`
      have after := ih rest (some e) 1 (.inr one_ne_zero)
      have child := ihd (e.below nodes) (⟨some e, es, 1⟩ :: up)
        (extentOf false 1 e :: (trace nodes (d + 1) es ++ ys))
        (by rw [length_cons]; omega) below (fun c v visited => by
          have stays : ¬ (up.length + 1 < maxDepth ∧ v = 0) := by omega
          exact ⟨_, (get_up stays).trans (by rw [inner]), after⟩) none 1 (.inr one_ne_zero)
      -- going down takes the first entry of the node, as the next entry of a row is taken
      have down : Steps nodes ⟨root, maxDepth, ⟨some e, es, 0⟩ :: up⟩
          (trace nodes d (e.below nodes) ++ extentOf false 1 e ::
              (trace nodes (d + 1) es ++ ys)) := by
        have deeper : up.length < maxDepth := by omega
        have stays : ¬ ((Path.mk (some e) es 1 :: up).length < maxDepth ∧ 1 = 0) := by omega
        rw [entries] at child ⊢
        obtain ⟨x, xs, first⟩ := trace_cons_ne_nil nodes d node.first node.others
        rw [first] at child ⊢
        exact child.of_same ((get_down deeper read).trans (get_sibling _ _ stays).symm)
      have stays : ¬ (up.length < maxDepth ∧ v = 0) := by omega
      have first : Steps nodes ⟨root, maxDepth, ⟨c, e :: es, v⟩ :: up⟩ (extentOf false 0 e ::
          (trace nodes d (e.below nodes) ++ extentOf false 1 e ::
              (trace nodes (d + 1) es ++ ys))) :=
        ⟨_, (get_sibling e es stays).trans (by rw [inner]), down⟩
      simpa [trace] using first

theorem steps_open (readable : Readable nodes depth root) :
    Steps nodes (extentOpen depth root) (trace nodes depth root) := by
  have done : ∀ c v, (depth = 0 ∨ v ≠ 0) → Steps nodes ⟨root, depth, [⟨c, [], v⟩]⟩ [] := by
    intro c v visited
    have stays : ¬ (([] : List Path).length < depth ∧ v = 0) := by
      omega
    simp only [Steps, extentGet, if_neg stays]
    rfl
  have steps := steps_row depth root [] [] (zero_add depth) readable done none 1 (.inr one_ne_zero)
  rwa [append_nil] at steps

theorem get_root (depth : Nat) (root : List Entry) :
    extentGet nodes .root (extentOpen depth root) =
      extentGet nodes .next (extentOpen depth root) := by
  cases root with
  | nil | cons e es => simp [extentGet, extentOpen, nextSib]

def Extent.calls (flags : Flags) (x : Extent) : List Call :=
  if x.leaf then (List.range x.len).map fun j => ⟨x.pblk + j, (x.lblk + j : Nat), 0, 0⟩
  else if !flags.dataOnly && x.secondVisit == flags.depthTraverse then [⟨x.pblk, -1, 0, 0⟩] else []

theorem trace_calls (flags : Flags) (d : Nat) (es : List Entry) :
    (trace nodes d es).flatMap (Extent.calls flags) = extentVisits nodes flags d es := by
  induction d generalizing es with
  | zero =>
    rw [trace, extentVisits, flatMap_map]
    rfl
  | succ d ih =>
    rw [trace, extentVisits, flatMap_assoc]
    refine flatMap_congr fun e _ => ?_
    rw [flatMap_append, flatMap_cons, ih, flatMap_singleton, around_eq]
    simp [Extent.calls, extentOf, and_comm]

theorem trace_leaves (d : Nat) (es : List Entry) :
    (trace nodes d es).filter (·.leaf) = (leaves nodes d es).map (extentOf true 0) := by
  induction d generalizing es with
  | zero =>
    refine filter_eq_self.mpr fun x hx => ?_
    obtain ⟨e, -, rfl⟩ := mem_map.mp hx
    rfl
  | succ d ih =>
    rw [trace, leaves, filter_flatMap, map_flatMap]
    refine flatMap_congr fun e _ => ?_
    rw [← ih]
    simp [extentOf]

structure Ordered (b : Nat) (xs : List Extent) : Prop where
  apart : (xs.filter (·.leaf)).Pairwise fun x y => x.lblk + x.len ≤ y.lblk
  ahead : ∀ x ∈ xs.filter (·.leaf), b ≤ x.lblk ∧ 0 < x.len

theorem Ordered.tail_inner (ordered : Ordered b (x :: xs)) (inner : x.leaf = false) :
    Ordered b xs := by
  have same : (x :: xs).filter (·.leaf) = xs.filter (·.leaf) := filter_cons_of_neg (by simp [inner])
  exact ⟨same ▸ ordered.apart, same ▸ ordered.ahead⟩

theorem Ordered.tail_leaf (ordered : Ordered b (x :: xs))
    (leaf : x.leaf = true) : b ≤ x.lblk ∧ 0 < x.len ∧ Ordered (x.lblk + x.len) xs := by
  have same : (x :: xs).filter (·.leaf) = x :: xs.filter (·.leaf) := filter_cons_of_pos leaf
  obtain ⟨apart, ahead⟩ := ordered
  rw [same, pairwise_cons] at apart
  rw [same, forall_mem_cons] at ahead
  exact ⟨ahead.1.1, ahead.1.2, apart.2, fun y hy => ⟨apart.1 y hy, (ahead.2 y hy).2⟩⟩

theorem Canonical.ordered (canonical : Canonical nodes depth root) :
    Ordered 0 (trace nodes depth root) := by
  constructor
  · rw [trace_leaves, pairwise_map]
    exact canonical.apart
  · rw [trace_leaves, forall_mem_map]
    exact fun e he => ⟨Nat.zero_le _, canonical.nonempty e he⟩

end Tree

section Loop

variable {σ : Type} {n : Nat} {it : Iteration σ} {f : σ → Call → σ}

theorem Quiet.leafLoop (quiet : Quiet it f) (uninit : Bool) (len blk b : Nat) (h : Handle)
    (ctx : Ctx σ n) : leafLoop it uninit len blk b h Ret.zero ctx =
      (h, Ret.zero, ctx.after f ((List.range len).map fun j => ⟨blk + j, (b + j : Nat), 0, 0⟩) 0,
        true) := by
  induction len generalizing blk b ctx with
  | zero => rfl
  | succ len ih =>
    have start : { ctx with priv := f ctx.priv ⟨blk, b, 0, 0⟩ } = ctx.after f [⟨blk, b, 0, 0⟩] 0 :=
      rfl
    simp only [Iterate.leafLoop, quiet.func, Ret.zero_or, roViolation_zero, Ret.zero_changed,
      Ret.zero_abort, Bool.false_and, Bool.or_false, Bool.false_eq_true, if_false, start]
    rw [ih]
    simp [Ctx.after, range_succ_eq_map, comp_def, add_assoc, add_comm 1]

theorem extentLoop_move {op : Op} (moves : op ≠ .current) {y : Extent} (x : Extent) {h h' : Handle}
    (b : Nat) (get : extentGet it.fs.nodes op h = (h', .ok y)) (ctx : Ctx σ n) (fuel : Nat) :
    extentLoop it (fuel + 1) ⟨op, x, h, b⟩ Ret.zero ctx =
      extentLoop it (fuel + 1) ⟨.current, y, h', b⟩ Ret.zero ctx := by
  simp only [extentLoop, if_neg moves, get, if_true]

variable (quiet : Quiet it f) (ctx : Ctx σ n) (clean : ctx.errcode = none)
include quiet clean

theorem Quiet.extentLoop_end {op : Op} (moves : op ≠ .current) (x : Extent) (h : Handle) (b : Nat)
    (last : extentGet it.fs.nodes op h = (h, .error .extentNoNext)) (fuel : Nat) :
    extentLoop it (fuel + 1) ⟨op, x, h, b⟩ Ret.zero ctx = some ctx := by
  have keep : { ctx with errcode := none } = ctx := by rw [← clean]
  simp only [Iterate.extentLoop, if_neg moves, last, ne_eq, not_true_eq_false, if_false,
    quiet.append, Bool.not_false, if_true, keep]

theorem Quiet.extentLoop_inner {x : Extent} (inner : x.leaf = false) (h : Handle) (b fuel : Nat) :
    extentLoop it (fuel + 1) ⟨.current, x, h, b⟩ Ret.zero ctx =
      extentLoop it fuel ⟨.next, x, h, b⟩ Ret.zero (ctx.after f (x.calls it.flags) 0) := by
  have keep : { ctx with errcode := none } = ctx := by rw [← clean]
  have start : { ctx with priv := f ctx.priv ⟨x.pblk, -1, 0, 0⟩, errcode := none } =
      ctx.after f [⟨x.pblk, -1, 0, 0⟩] 0 := by simp [Ctx.after, clean]
  simp only [Iterate.extentLoop, if_true, inner, Bool.not_false, quiet.func, Ret.zero_or, keep,
    Ret.zero_changed,
    Ret.zero_abort, Bool.false_eq_true, if_false, Option.isSome_none, Bool.or_false, Extent.calls,
    start]
  split <;> rfl

/- The extent that was fetched ahead is taken, and the end of the tree is looked for again. -/
def Cursor.following (x : Extent) (h : Handle) : Except Errcode Extent → Cursor
  | .ok y => ⟨.current, y, h, x.lblk + x.len⟩
  | .error _ => ⟨.next, x, h, x.lblk + x.len⟩

theorem Quiet.extentLoop_leaf {x : Extent} (leaf : x.leaf = true) {h h' : Handle}
    {got : Except Errcode Extent}
    (get : extentGet it.fs.nodes .next h = (h', got)) (ahead : b ≤ x.lblk) (nonempty : 0 < x.len)
    (fuel : Nat) : extentLoop it (fuel + 1) ⟨.current, x, h, b⟩ Ret.zero ctx =
      extentLoop it fuel (.following x h' got) Ret.zero (ctx.after f (x.calls it.flags) 0) := by
  have keep : { ctx with errcode := none } = ctx := by rw [← clean]
  have new : ¬ x.lblk + x.len ≤ b := by omega
  have first : x.pblk + (max x.lblk b - x.lblk) = x.pblk := by omega
  simp only [Iterate.extentLoop, if_true, leaf, Bool.not_true, Bool.false_eq_true, if_false, keep,
    get, new, first, quiet.leafLoop, Extent.calls]
  cases got <;> rfl

theorem Quiet.extentLoop_current (xs : List Extent) (x : Extent) (h : Handle) (b : Nat)
    (steps : Steps it.fs.nodes h xs) (ordered : Ordered b (x :: xs)) (fuel : Nat)
    (enough : xs.length + 2 ≤ fuel) : extentLoop it fuel ⟨.current, x, h, b⟩ Ret.zero ctx =
      some (ctx.after f ((x :: xs).flatMap (Extent.calls it.flags)) 0) := by
  induction xs generalizing x h b ctx fuel with
  | nil =>
    obtain ⟨fuel, rfl⟩ : ∃ k, fuel = k + 2 := ⟨fuel - 2, by rw [length_nil] at enough; omega⟩
    rw [flatMap_singleton]
    cases leaf : x.leaf with
    | false =>
      rw [quiet.extentLoop_inner ctx clean leaf h b]
      exact quiet.extentLoop_end (ctx.after f _ 0) clean (by decide) x h b steps fuel
    | true =>
      obtain ⟨ahead, nonempty, -⟩ := ordered.tail_leaf leaf
      rw [quiet.extentLoop_leaf ctx clean leaf steps ahead nonempty]
      exact quiet.extentLoop_end (ctx.after f _ 0) clean (by decide) x h _ steps fuel
  | cons y ys ih =>
    obtain ⟨h', get, rest⟩ := steps
    rw [length_cons] at enough
    obtain ⟨fuel, rfl⟩ : ∃ k, fuel = k + 2 := ⟨fuel - 2, by omega⟩
    rw [flatMap_cons, ← zero_add 0, ← Ctx.after_after]
    cases leaf : x.leaf with
    | false =>
      rw [quiet.extentLoop_inner ctx clean leaf h b, extentLoop_move (by decide) x b get]
      exact ih (ctx.after f _ 0) clean y h' b rest (ordered.tail_inner leaf) (fuel + 1) (by omega)
    | true =>
      obtain ⟨ahead, nonempty, tail⟩ := ordered.tail_leaf leaf
      rw [quiet.extentLoop_leaf ctx clean leaf get ahead nonempty]
      exact ih (ctx.after f _ 0) clean y h' _ rest tail (fuel + 1) (by omega)

theorem Quiet.extentLoop_root (canonical : Canonical it.fs.nodes depth root)
    (x : Extent) (fuel : Nat) (enough : (trace it.fs.nodes depth root).length + 1 ≤ fuel) :
    extentLoop it fuel ⟨.root, x, extentOpen depth root, 0⟩ Ret.zero ctx =
      some (ctx.after f (extentVisits it.fs.nodes it.flags depth root) 0) := by
  have steps := steps_open canonical.readable
  have ordered := canonical.ordered
  obtain ⟨fuel, rfl⟩ : ∃ k, fuel = k + 1 := ⟨fuel - 1, by omega⟩
  rw [← trace_calls]
  generalize trace it.fs.nodes depth root = xs at steps ordered enough
  rcases xs with _ | ⟨y, ys⟩
  · exact quiet.extentLoop_end ctx clean (by decide) x _ 0 ((get_root depth root).trans steps) fuel
  obtain ⟨h', get, rest⟩ := steps
  rw [extentLoop_move (by decide) x 0 ((get_root depth root).trans get)]
  exact quiet.extentLoop_current ctx clean ys y h' 0 rest ordered (fuel + 1) (by simpa using enough)

end Loop

/-! ### Data blocks -/

theorem dataOf_flatMap {α : Type} (xs : List α) (g : α → List Call) :
    dataOf (xs.flatMap g) = xs.flatMap fun x => dataOf (g x) := by
  induction xs with
  | nil => rfl
  | cons x xs ih => rw [flatMap_cons, dataOf_append, ih, flatMap_cons]

def leafBlocks (e : Entry) : List (Int × Nat) :=
  (List.range e.length).map fun j => (((e.block + j : Nat) : Int), e.start + j)

theorem dataOf_extentVisits (nodes : Nat → Except Errcode Node) (flags : Flags) (d : Nat)
    (es : List Entry) :
    dataOf (extentVisits nodes flags d es) = (leaves nodes d es).flatMap leafBlocks := by
  induction d generalizing es with
  | zero =>
    rw [extentVisits, dataOf_flatMap, leaves]
    refine flatMap_congr fun e _ => ?_
    rw [dataOf, leafCalls, filterMap_map, leafBlocks, ← filterMap_eq_map]
    refine filterMap_congr fun j _ => ?_
    simp only [comp_apply, if_pos (Int.natCast_nonneg (e.block + j))]
  | succ d ih =>
    rw [extentVisits, dataOf_flatMap, leaves, flatMap_assoc]
    refine flatMap_congr fun e _ => ?_
    rw [← ih]
    exact dataOf_around flags 0 e.start 0 0 _

theorem mem_leafBlocks {l : Int} {p : Nat} :
    (l, p) ∈ leafBlocks e ↔ ∃ j < e.length, l = ((e.block + j : Nat) : Int) ∧ p = e.start + j := by
  simp only [leafBlocks, mem_map, mem_range, Prod.mk.injEq, eq_comm]

theorem Canonical.increasing {nodes : Nat → Except Errcode Node}
    (canonical : Canonical nodes depth root) :
    ((leaves nodes depth root).flatMap leafBlocks).Pairwise fun x y => x.1 < y.1 := by
  rw [pairwise_flatMap]
  constructor
  · intro e _
    rw [leafBlocks, pairwise_map]
    exact pairwise_lt_range.imp fun lt => Int.ofNat_lt.mpr (Nat.add_lt_add_left lt e.block)
  · refine canonical.apart.imp fun {e e'} apart x hx y hy => ?_
    obtain ⟨j, inside, eq, -⟩ := mem_leafBlocks.mp hx
    obtain ⟨j', -, eq', -⟩ := mem_leafBlocks.mp hy
    omega

end E2fs.Iterate
