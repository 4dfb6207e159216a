import E2fs.Lib.ListSplit
import E2fs.Bitmap.Rb

/-! The red-black-tree backend keeps its extents apart and its cursors alive, and
each of its operations is the corresponding operation on a set of bits. -/
namespace E2fs.Rb
open Word Rbtree ListSplit List

section Pointers

variable {root : RbTree BmapRbExtent} {as bs : List BmapRbExtent} {x : BmapRbExtent}

section

variable (nodup : (root.inorder.map (·.addr)).Nodup) (here : root.inorder = as ++ x :: bs)
include nodup here

theorem locate_at :
    ∃ c l r up, locate (fun e => e.addr == x.addr) root [] = some (.node c l x r, up) ∧
      lefts up ++ l.inorder = as ∧ r.inorder ++ rights up = bs := by
  cases found : locate (fun e => e.addr == x.addr) root [] with
  | none =>
    have miss := locate_none _ root [] found x (by simp [here])
    simp at miss
  | some z =>
    obtain ⟨whole, c, l, y, r, node, hit⟩ := locate_some _ root [] z found
    obtain ⟨t, up⟩ := z
    subst node
    have eq : as ++ x :: bs = (lefts up ++ l.inorder) ++ y :: (r.inorder ++ rights up) := by
      have h := congrArg RbTree.inorder whole
      rw [inorder_plug] at h
      rw [← here]
      simpa [plug] using h.symm
    have unique := split_unique (·.addr) as bs _ _ x y (here ▸ nodup)
      (by simpa using (beq_iff_eq.mp hit).symm) eq
    obtain ⟨hl, rfl, hr⟩ := unique
    exact ⟨c, l, r, up, rfl, hl.symm, hr.symm⟩

theorem deref_at : deref root x.addr = x := by
  obtain ⟨c, l, r, up, found, -⟩ := locate_at nodup here
  simp [deref, found]

theorem nextOf_at : nextOf root x.addr = bs.head? := by
  obtain ⟨c, l, r, up, found, -, right⟩ := locate_at nodup here
  simp only [nextOf, found, rbNext_spec, right]

theorem prevOf_at : prevOf root x.addr = as.getLast? := by
  obtain ⟨c, l, r, up, found, left, -⟩ := locate_at nodup here
  simp only [prevOf, found, rbPrev_spec, left]

theorem addr_ne {e : BmapRbExtent} (other : e ∈ as ++ bs) : e.addr ≠ x.addr := by
  rw [here, map_append, map_cons, nodup_middle, ← map_append] at nodup
  exact fun same => (nodup_cons.mp nodup).1 (same ▸ mem_map_of_mem other)

theorem nodesFrom_at : nodesFrom root x.addr = x :: bs := by
  have apart : ∀ a ∈ as, a.addr ≠ x.addr := fun a ha => addr_ne nodup here (mem_append_left _ ha)
  rw [nodesFrom, here, dropWhile_append_of_pos (by simpa using apart)]
  simp

theorem store_at (start count : Nat) :
    (store root x.addr start count).inorder = as ++ ⟨x.addr, start, count⟩ :: bs := by
  have same : ∀ ys, ys ⊆ as ++ bs →
      ys.map (fun e => if e.addr = x.addr then ⟨x.addr, start, count⟩ else e) = ys := by
    intro ys sub
    exact (map_congr_left fun e he => if_neg (addr_ne nodup here (sub he))).trans (map_id _)
  rw [store, inorder_map, here, map_append, map_cons, same as (subset_append_left _ _),
    same bs (subset_append_right _ _), if_pos rfl]

end

theorem eraseExtent_at (bp : RbPrivate) (nodup : bp.live.Nodup)
    (here : bp.extents = as ++ x :: bs) : (eraseExtent bp x.addr).extents = as ++ bs := by
  obtain ⟨c, l, r, up, found, left, right⟩ := locate_at nodup here
  simp only [eraseExtent, rbFreeExtent, RbPrivate.extents, found, inorder_rbErase]
  simp [← left, ← right]

end Pointers

def Covered (xs : List BmapRbExtent) (b : Nat) : Prop :=
  ∃ e ∈ xs, e.start ≤ b ∧ b < e.start + e.count

/-- Sorted, non-empty, disjoint and never adjacent extents inside `[0, size)`, each
at its own address. This is what `check_tree` of the source tests. -/
structure Apart (size : Nat) (xs : List BmapRbExtent) : Prop where
  gaps : xs.Pairwise fun a b => a.start + a.count < b.start
  filled : ∀ e ∈ xs, 0 < e.count
  inside : ∀ e ∈ xs, e.start + e.count ≤ size
  distinct : (xs.map (·.addr)).Nodup

/-- Every cursor is null or points to a live extent, and the cached successor is
the successor. -/
structure Cursors (bp : RbPrivate) : Prop where
  write : ∀ a, bp.wcursor = some a → a ∈ bp.live
  read : ∀ a, bp.rcursor = some a → a ∈ bp.live
  next : ∀ a, bp.rcursorNext = some a → a ∈ bp.live
  successor : ∀ a b, bp.rcursor = some a → bp.rcursorNext = some b → [a, b] <:+: bp.live

structure Sound (size : Nat) (bp : RbPrivate) : Prop where
  apart : Apart size bp.extents
  cursors : Cursors bp

variable {size start count : Nat} {as bs xs : List BmapRbExtent} {x : BmapRbExtent} {bp : RbPrivate}

@[simp] theorem covered_nil (b : Nat) : Covered [] b ↔ False := by simp [Covered]

@[simp] theorem covered_cons (e : BmapRbExtent) (xs : List BmapRbExtent) (b : Nat) :
    Covered (e :: xs) b ↔ (e.start ≤ b ∧ b < e.start + e.count) ∨ Covered xs b := by
  simp [Covered]

@[simp] theorem covered_append (xs ys : List BmapRbExtent) (b : Nat) :
    Covered (xs ++ ys) b ↔ Covered xs b ∨ Covered ys b := by
  simp [Covered, or_and_right, exists_or]

theorem covered_lt {m b : Nat} (below : ∀ e ∈ xs, e.start + e.count ≤ m) (h : Covered xs b) :
    b < m := by
  obtain ⟨e, he, -, hb⟩ := h
  exact lt_of_lt_of_le hb (below e he)

theorem covered_ge {m b : Nat} (above : ∀ e ∈ xs, m ≤ e.start) (h : Covered xs b) : m ≤ b := by
  obtain ⟨e, he, hb, -⟩ := h
  exact le_trans (above e he) hb

theorem Apart.sublist {ys : List BmapRbExtent} (apart : Apart size xs) (sub : ys.Sublist xs) :
    Apart size ys :=
  ⟨apart.gaps.sublist sub, fun e he => apart.filled e (sub.subset he),
    fun e he => apart.inside e (sub.subset he), apart.distinct.sublist (sub.map _)⟩

structure Between (size : Nat) (as : List BmapRbExtent) (x : BmapRbExtent)
    (bs : List BmapRbExtent) : Prop where
  rest : Apart size (as ++ bs)
  filled : 0 < x.count
  inside : x.start + x.count ≤ size
  distinct : ((as ++ x :: bs).map (·.addr)).Nodup
  before : ∀ a ∈ as, a.start + a.count < x.start
  after : ∀ b ∈ bs, x.start + x.count < b.start

theorem Apart.between (apart : Apart size (as ++ x :: bs)) : Between size as x bs := by
  obtain ⟨-, gaps, cross⟩ := pairwise_append.mp apart.gaps
  exact ⟨apart.sublist (Sublist.append_left (sublist_cons_self _ _) _), apart.filled x (by simp),
    apart.inside x (by simp), apart.distinct, fun a ha => cross a ha x (by simp),
    fun b hb => rel_of_pairwise_cons gaps hb⟩

theorem Apart.first_le (apart : Apart size (x :: bs)) {p : Nat} (h : Covered (x :: bs) p) :
    x.start ≤ p := by
  refine covered_ge (forall_mem_cons.mpr ⟨le_refl _, fun e he => ?_⟩) h
  have := rel_of_pairwise_cons apart.gaps he
  omega

section

variable (place : Between size as x bs)
include place

theorem Between.apart : Apart size (as ++ x :: bs) := by
  obtain ⟨gapsA, gapsB, cross⟩ := pairwise_append.mp place.rest.gaps
  have every : ∀ P : BmapRbExtent → Prop, P x → (∀ e ∈ as ++ bs, P e) →
      ∀ e ∈ as ++ x :: bs, P e := by
    exact fun P here others e he => forall_mem_cons.mpr ⟨here, others⟩ e (perm_middle.subset he)
  refine ⟨?_, every _ place.filled place.rest.filled, every _ place.inside place.rest.inside,
    place.distinct⟩
  refine pairwise_append.mpr ⟨gapsA, pairwise_cons.mpr ⟨place.after, gapsB⟩,
    fun a ha => forall_mem_cons.mpr ⟨place.before a ha, cross a ha⟩⟩

theorem Between.covered_before {p : Nat} (covered : Covered as p) : p < x.start :=
  covered_lt (fun a ha => (place.before a ha).le) covered

theorem Between.covered_after {p : Nat} (covered : Covered bs p) : x.start + x.count < p :=
  covered_ge (fun b hb => place.after b hb) covered

theorem Between.covered_minus {stop : Nat} (low : x.start ≤ start)
    (high : start ≤ x.start + x.count) (order : start ≤ stop) (p : Nat) :
    Covered (as ++ x :: bs) p ∧ ¬ (start ≤ p ∧ p < stop) ↔
    Covered as p ∨ (x.start ≤ p ∧ p < start) ∨
      (stop ≤ p ∧ p < x.start + x.count) ∨ (Covered bs p ∧ stop ≤ p) := by
  have left : Covered as p → ¬ (start ≤ p ∧ p < stop) := fun h => by
    have := place.covered_before h
    omega
  have own : (x.start ≤ p ∧ p < x.start + x.count) ∧ ¬ (start ≤ p ∧ p < stop) ↔
      (x.start ≤ p ∧ p < start) ∨ (stop ≤ p ∧ p < x.start + x.count) := by omega
  have right : Covered bs p → (¬ (start ≤ p ∧ p < stop) ↔ stop ≤ p) := fun h => by
    have := place.covered_after h
    omega
  rw [covered_append, covered_cons, or_and_right, or_and_right, and_iff_left_of_imp left, own,
    and_congr_right right, or_assoc]

end

variable {e y : BmapRbExtent} {root : RbTree BmapRbExtent} {size start bit : Nat}
  {xs : List BmapRbExtent}

theorem stop_eq (bounded : size < 2 ^ 64) (inside : e.start + e.count ≤ size) :
    e.stop = e.start + e.count :=
  add64_eq (lt_of_le_of_lt inside bounded)

theorem eraseExtent_cursors (nodup : bp.live.Nodup) (here : bp.extents = as ++ x :: bs)
    (ok : Cursors bp) : Cursors (eraseExtent bp x.addr) := by
  have rest := eraseExtent_at bp nodup here
  have old : bp.live = as.map (·.addr) ++ x.addr :: bs.map (·.addr) := by
    simp [RbPrivate.live, here]
  have new : (eraseExtent bp x.addr).live = as.map (·.addr) ++ bs.map (·.addr) := by
    simp [RbPrivate.live, rest]
  have keep : ∀ c : Option Nat, (∀ a, c = some a → a ∈ bp.live) →
      ∀ a, (if c = some x.addr then none else c) = some a →
          c = some a ∧ a ∈ (eraseExtent bp x.addr).live := by
    intro c live a cursor
    split at cursor
    · contradiction
    rename_i ne
    have mem := live a cursor
    rw [old, mem_append, mem_cons] at mem
    rw [new, mem_append]
    refine ⟨cursor, mem.imp_right fun h => h.resolve_left ?_⟩
    exact fun same => ne (same ▸ cursor)
  have read := keep bp.rcursor ok.read
  have next := keep bp.rcursorNext ok.next
  refine ⟨fun a ha => (keep _ ok.write a ha).2, fun a ha => (read a ha).2,
    fun a ha => (next a ha).2, ?_⟩
  intro a b ha hb
  obtain ⟨cursor, alive⟩ := read a ha
  obtain ⟨cursor', alive'⟩ := next b hb
  refine infix_pair_of_sublist nodup ?_ (ok.successor a b cursor cursor') alive alive'
  rw [old, new]
  exact Sublist.append_left (sublist_cons_self _ _) _

theorem eraseExtent_sound (nodup : bp.live.Nodup) (here : bp.extents = as ++ x :: bs)
    (ok : Cursors bp) (rest : Apart size (as ++ bs)) : Sound size (eraseExtent bp x.addr) :=
  ⟨eraseExtent_at bp nodup here ▸ rest, eraseExtent_cursors nodup here ok⟩

theorem cursors_congr (bp : RbPrivate) {bp' : RbPrivate} (live : bp'.live = bp.live)
    (w : bp'.wcursor = bp.wcursor) (r : bp'.rcursor = bp.rcursor)
    (n : bp'.rcursorNext = bp.rcursorNext) (ok : Cursors bp) : Cursors bp' := by
  refine ⟨?_, ?_, ?_, ?_⟩
  · rw [w, live]; exact ok.write
  · rw [r, live]; exact ok.read
  · rw [n, live]; exact ok.next
  · rw [r, n, live]; exact ok.successor

theorem sound_replace (ok : Cursors bp)
    (here : bp.extents = as ++ x :: bs) (new : root.inorder = as ++ y :: bs)
    (addr : y.addr = x.addr)
    (place : Between size as y bs) : Sound size { bp with root := root } := by
  refine ⟨?_, cursors_congr bp ?_ rfl rfl rfl ok⟩
  · rw [RbPrivate.extents, new]
    exact place.apart
  · simp only [RbPrivate.live, here]
    simp [RbPrivate.extents, new, addr]

/- An extent may be cut down in place: addresses and order stay as they are. -/
theorem Between.shrink (place : Between size as x bs) (addr : y.addr = x.addr)
    (low : x.start ≤ y.start)
    (high : y.start + y.count ≤ x.start + x.count) (pos : 0 < y.count) : Between size as y bs := by
  refine ⟨place.rest, pos, le_trans high place.inside, ?_, ?_, ?_⟩
  · simpa [addr] using place.distinct
  · exact fun a ha => lt_of_lt_of_le (place.before a ha) low
  · exact fun b hb => lt_of_le_of_lt high (place.after b hb)

theorem sound_shrink (sound : Sound size bp) (here : bp.extents = as ++ x :: bs)
    (new : root.inorder = as ++ y :: bs)
    (addr : y.addr = x.addr) (low : x.start ≤ y.start)
    (high : y.start + y.count ≤ x.start + x.count)
    (pos : 0 < y.count) : Sound size { bp with root := root } :=
  sound_replace sound.cursors here new addr ((here ▸ sound.apart).between.shrink addr low high pos)

theorem Sound.at (sound : Sound size bp) {a : Nat} (alive : a ∈ bp.live) :
    ∃ as x bs, bp.extents = as ++ x :: bs ∧ x.addr = a ∧ deref bp.root a = x ∧
    x.start + x.count ≤ size := by
  obtain ⟨x, mem, rfl⟩ := mem_map.mp alive
  obtain ⟨as, bs, here⟩ := append_of_mem mem
  exact ⟨as, x, bs, here, rfl, deref_at sound.apart.distinct here, sound.apart.inside x mem⟩

section

variable (bounded : size < 2 ^ 64)
include bounded

theorem mergeRight_spec (count : Nat) (bp : RbPrivate) (here : bp.extents = as ++ x :: bs)
    (nodup : bp.live.Nodup) (apart : Apart size bs) (right : ∀ e ∈ bs, start < e.start)
    (fits : start + count ≤ size) (ok : Cursors bp) :
    let out := mergeRight start bs count bp
    ∃ cs, cs.Sublist bs ∧ out.2.extents = as ++ x :: cs ∧ count ≤ out.1 ∧ start + out.1 ≤ size ∧
      (∀ e ∈ cs, start + out.1 < e.start) ∧ Cursors out.2 ∧
        (∀ b, (start ≤ b ∧ b < start + out.1) ∨ Covered cs b ↔
        (start ≤ b ∧ b < start + count) ∨ Covered bs b) := by
  induction bs generalizing count bp with
  | nil => exact ⟨[], by simp, here, le_refl _, fits, by simp, ok, fun b => Iff.rfl⟩
  | cons e rest ih =>
    have place : Between size [] e rest := Apart.between apart
    obtain ⟨apart', -, room, -, -, beyond⟩ := place
    have stop := stop_eq bounded room
    have sum := add64_eq (lt_of_le_of_lt fits bounded)
    have after := right e (by simp)
    simp only [mergeRight, stop, sum]
    rw [if_neg (by omega)]
    by_cases far : start + count < e.start
    · -- the next extent lies beyond the new one: nothing more to merge
      rw [if_pos far]
      refine ⟨e :: rest, Sublist.refl _, here, le_refl _, fits, ?_, ok, fun b => Iff.rfl⟩
      exact forall_mem_cons.mpr ⟨far, fun f hf => by have := beyond f hf; dsimp only; omega⟩
    rw [if_neg far]
    have here' : bp.extents = (as ++ [x]) ++ e :: rest := by simp [here]
    have erased := eraseExtent_at bp nodup here'
    have ok' := eraseExtent_cursors nodup here' ok
    have nodup' : (eraseExtent bp e.addr).live.Nodup := by
      have sub : (eraseExtent bp e.addr).live.Sublist bp.live := by
        simp only [RbPrivate.live, erased, here']
        exact (Sublist.append_left (sublist_cons_self _ _) _).map _
      exact nodup.sublist sub
    by_cases embedded : start + count ≥ e.start + e.count
    · rw [if_pos embedded]
      obtain ⟨cs, sub, ext, grow, fit, clear, cur, same⟩ :=
        ih count (eraseExtent bp e.addr) (by simpa using erased) nodup' apart'
          (fun f hf => right f (by simp [hf])) fits ok'
      refine ⟨cs, sub.cons _, ext, grow, fit, clear, cur, ?_⟩
      intro b
      have inner : e.start ≤ b ∧ b < e.start + e.count → start ≤ b ∧ b < start + count := by omega
      rw [same, covered_cons]
      tauto
    · rw [if_neg embedded]
      have diff : sub64 (e.start + e.count) (start + count) = e.start + e.count - (start + count) :=
        sub64_eq (by omega) (by omega)
      have total :
          add64 count (sub64 (e.start + e.count) (start + count)) = e.start + e.count - start := by
        rw [diff, add64_eq (by omega)]
        omega
      refine ⟨rest, sublist_cons_self _ _, by simpa using erased, ?_, ?_, ?_, ok', ?_⟩
      · dsimp only; omega
      · dsimp only; omega
      · intro f hf
        have := beyond f hf
        omega
      · intro b
        have joined : start ≤ b ∧ b < start + (e.start + e.count - start) ↔
            (start ≤ b ∧ b < start + count) ∨ (e.start ≤ b ∧ b < e.start + e.count) := by omega
        rw [covered_cons, total, joined, or_assoc]

theorem skipInsert_spec (start count retval : Nat) (bp : RbPrivate)
    (here : bp.extents = as ++ x :: bs) (nodup : bp.live.Nodup) (apart : Apart size (as ++ bs))
    (left : ∀ e ∈ as, e.start + e.count < start) (right : ∀ e ∈ bs, start < e.start)
    (pos : 0 < count) (fits : start + count ≤ size) (ok : Cursors bp) :
    let out := skipInsert x.addr start count retval bp
    Sound size out.1 ∧ out.2 = retval ∧ ∀ b, Covered out.1.extents b ↔
        Covered as b ∨ (start ≤ b ∧ b < start + count) ∨ Covered bs b := by
  simp only [skipInsert, nodesFrom_at nodup here, tail_cons]
  obtain ⟨cs, sub, ext, grow, fit, clear, cur, same⟩ :=
    mergeRight_spec bounded count bp here nodup (apart.sublist (sublist_append_right _ _)) right
      fits ok
  generalize mergeRight start bs count bp = merged at ext grow fit clear cur same ⊢
  obtain ⟨count', bp'⟩ := merged
  have nodup' : bp'.live.Nodup := by
    refine nodup.sublist ?_
    simp only [RbPrivate.live, ext, here]
    exact (Sublist.append_left (sub.cons_cons _) _).map _
  have final := @store_at bp'.root _ _ _ nodup' ext start count'
  have place : Between size as ⟨x.addr, start, count'⟩ cs :=
    ⟨apart.sublist (sub.append_left _), lt_of_lt_of_le pos grow, fit,
      by simpa [RbPrivate.live, ext] using nodup', left, clear⟩
  refine ⟨sound_replace cur ext final rfl place, trivial, fun b => ?_⟩
  simp only [RbPrivate.extents, final, covered_append, covered_cons, same]

def Inserted (size start count : Nat) (xs : List BmapRbExtent) (found : Prop)
    (out : RbPrivate × Nat) : Prop :=
  Sound size out.1 ∧ (out.2 ≠ 0 ↔ found) ∧
    ∀ b, Covered out.1.extents b ↔ Covered xs b ∨ (start ≤ b ∧ b < start + count)

theorem gotExtent_spec (here : bp.extents = as ++ x :: bs) (sound : Sound size bp)
    (low : x.start ≤ start)
    (high : start ≤ x.start + x.count) (pos : 0 < count) (fits : start + count ≤ size) :
    Inserted size start count bp.extents (start < x.start + x.count)
    (gotExtent x start count bp) := by
  have place := (here ▸ sound.apart).between
  have stop := stop_eq bounded place.inside
  have sum := add64_eq (lt_of_le_of_lt fits bounded)
  simp only [gotExtent, stop, sum]
  by_cases within : start + count ≤ x.start + x.count
  · rw [if_pos within]
    refine ⟨sound, by simp only [ne_eq, one_ne_zero, not_false_eq_true, true_iff]; omega, ?_⟩
    intro b
    simp only [here, covered_append, covered_cons]
    exact (or_iff_left_of_imp fun h => .inr (.inl (by omega))).symm
  rw [if_neg within]
  have back : add64 count (sub64 start x.start) = start + count - x.start := by
    rw [sub64_eq low (by omega), add64_eq (by omega)]
    omega
  rw [back]
  have spec := skipInsert_spec bounded (x := x) x.start (start + count - x.start)
    (if x.start + x.count = start then 0 else 1) bp here sound.apart.distinct place.rest
    place.before (fun e he => lt_of_le_of_lt (Nat.le_add_right _ _) (place.after e he))
    (by omega) (by omega) sound.cursors
  refine ⟨spec.1, ?_, ?_⟩
  · rw [spec.2.1]
    split <;> simp <;> omega
  · intro b
    have joined : x.start ≤ b ∧ b < x.start + (start + count - x.start) ↔
        (x.start ≤ b ∧ b < x.start + x.count) ∨ (start ≤ b ∧ b < start + count) := by omega
    rw [spec.2.2 b, here, covered_append, covered_cons, joined]
    tauto

end

/- Where a descent to a position ends: at the extent that holds it, or between two extents. An
insertion also stops at an extent that ends at the position. -/
theorem descend_spec (apart : Apart size bp.extents) {cmp : BmapRbExtent → Ordering} {t : Nat}
    (decides : ∀ e ∈ bp.extents, cmp e =
      if bit < e.start then .lt else if e.start + e.count + t ≤ bit then .gt else .eq) :
    (∃ c l x r up, descend cmp bp.root [] = (.node c l x r, up) ∧ x.start ≤ bit ∧
      bit < x.start + x.count + t ∧
      bp.extents = (lefts up ++ l.inorder) ++ x :: (r.inorder ++ rights up)) ∨
    (∃ up, descend cmp bp.root [] = (.nil, up) ∧ plug .nil up = bp.root ∧
      bp.extents = lefts up ++ rights up ∧
      (∀ a ∈ lefts up, a.start + a.count + t ≤ bit) ∧ ∀ b ∈ rights up, bit < b.start) := by
  have ordered : CutOrdered cmp bp.extents := by
    refine apart.gaps.imp_of_mem fun {a b} ha hb gap => ?_
    rw [decides a ha, decides b hb]
    constructor <;> intro h <;> split_ifs at h ⊢ <;> first | rfl | omega
  have whole := descend_plug cmp bp.root []
  have sides := descend_sides cmp bp.root [] ordered (by simp [lefts]) (by simp [rights])
  have hit := descend_hit cmp bp.root []
  have here : _ = bp.extents := congrArg RbTree.inorder whole
  rw [inorder_plug] at here
  generalize descend cmp bp.root [] = z at whole sides hit here ⊢
  obtain ⟨t, up⟩ := z
  cases t with
  | nil =>
    have here : bp.extents = lefts up ++ rights up := by simpa using here.symm
    refine .inr ⟨up, rfl, whole, here, fun a ha => ?_, fun b hb => ?_⟩
    · have is := sides.1 a ha
      rw [decides a (by simp [here, ha])] at is
      split_ifs at is
      assumption
    · have is := sides.2 b hb
      rw [decides b (by simp [here, hb])] at is
      split_ifs at is
      assumption
  | node c l x r =>
    have here : bp.extents = (lefts up ++ l.inorder) ++ x :: (r.inorder ++ rights up) := by
      simpa using here.symm
    have is := hit c l x r rfl
    rw [decides x (by simp [here])] at is
    split_ifs at is
    exact .inl ⟨c, l, x, r, up, rfl, by omega, by omega, here⟩

theorem bit_search (bounded : size < 2 ^ 64) (apart : Apart size bp.extents) (bit : Nat) :
    (∃ c l x r up, descend (bitCmp bit) bp.root [] = (.node c l x r, up) ∧ x.start ≤ bit ∧
      bit < x.start + x.count ∧
      bp.extents = (lefts up ++ l.inorder) ++ x :: (r.inorder ++ rights up)) ∨
    (∃ up, descend (bitCmp bit) bp.root [] = (.nil, up) ∧ plug .nil up = bp.root ∧
      bp.extents = lefts up ++ rights up ∧
      (∀ a ∈ lefts up, a.start + a.count ≤ bit) ∧ ∀ b ∈ rights up, bit < b.start) :=
  descend_spec (t := 0) apart fun e mem => by
    rw [bitCmp, stop_eq bounded (apart.inside e mem)]
    rfl

theorem not_covered_of_gap (before : ∀ a ∈ as, a.start + a.count ≤ bit)
    (after : ∀ b ∈ bs, bit < b.start) : ¬ Covered (as ++ bs) bit := by
  rw [covered_append]
  rintro (h | h)
  · exact absurd (covered_lt before h) (lt_irrefl _)
  · exact absurd (covered_ge after h) (Nat.lt_irrefl _)

theorem inorder_link (x : BmapRbExtent) (up : List (Frame BmapRbExtent)) :
    (rbInsertColor (.node .red .nil x .nil) up).inorder = lefts up ++ x :: rights up := by
  simp [inorder_rbInsertColor, inorder_plug]

/- The new node's left neighbour ends before it, so the merge with it that the
source provides for never happens after a search. -/
theorem linkNew_spec (bounded : size < 2 ^ 64) {new : Nat} {up : List (Frame BmapRbExtent)}
    (sound : Sound size bp) (here : bp.extents = lefts up ++ rights up) (unused : new ∉ bp.live)
    (before : ∀ a ∈ lefts up, a.start + a.count < start) (after : ∀ b ∈ rights up, start < b.start)
    (noNext : bp.rcursorNext = none) (pos : 0 < count) (fits : start + count ≤ size) :
    Inserted size start count bp.extents False (linkNew new start count up bp) := by
  let bp' := { bp with
    root := rbInsertColor (.node .red .nil ⟨new, start, count⟩ .nil) up, wcursor := some new }
  have linked : bp'.extents = lefts up ++ ⟨new, start, count⟩ :: rights up := inorder_link _ up
  have live : bp.live = (lefts up).map (·.addr) ++ (rights up).map (·.addr) := by
    simp [RbPrivate.live, here]
  have live' : bp'.live = (lefts up).map (·.addr) ++ new :: (rights up).map (·.addr) := by
    simp [RbPrivate.live, linked]
  have nodup' : bp'.live.Nodup := by
    rw [live']
    have old := sound.apart.distinct
    change bp.live.Nodup at old
    rw [live] at old unused
    exact nodup_middle.mpr (nodup_cons.mpr ⟨unused, old⟩)
  have keep : ∀ a ∈ bp.live, a ∈ bp'.live := by
    intro a ha
    rw [live] at ha
    rw [live']
    simp only [mem_append, mem_cons] at ha ⊢
    tauto
  have ok : Cursors bp' := by
    refine ⟨?_, fun a ha => keep a (sound.cursors.read a ha), ?_, ?_⟩
    · intro a ha
      cases ha
      rw [live']
      simp
    · intro a ha
      simp [bp', noNext] at ha
    · intro a b _ hb
      simp [bp', noNext] at hb
  have apart := sound.apart
  rw [here] at apart
  have plain : linkNew new start count up bp = skipInsert new start count 0 bp' := by
    have prev := prevOf_at nodup' linked
    unfold linkNew
    dsimp only
    split
    case h_1 e last =>
      have mem := mem_of_getLast? (prev.symm.trans last)
      have stop := stop_eq bounded (apart.inside e (by simp [mem]))
      have gap := before e mem
      exact if_neg (by omega)
    case h_2 => rfl
  have spec := skipInsert_spec bounded (x := ⟨new, start, count⟩) start count 0 bp' linked nodup'
    apart before after pos fits ok
  rw [plain]
  refine ⟨spec.1, by simp [spec.2.1], fun b => ?_⟩
  rw [spec.2.2 b, here, covered_append]
  tauto

theorem rbInsertExtent_spec (bounded : size < 2 ^ 64) (alloc : Allocator)
    (start count : Nat) (bp : RbPrivate) (sound : Sound size bp) (pos : 0 < count)
    (fits : start + count ≤ size) :
    Inserted size start count bp.extents (Covered bp.extents start)
    (rbInsertExtent alloc start count bp) := by
  -- clearing the cached successor loses nothing
  have sound' : Sound size { bp with rcursorNext := none } := by
    refine ⟨sound.apart, ⟨sound.cursors.write, sound.cursors.read, ?_, ?_⟩⟩ <;> simp
  have got : ∀ as x bs, bp.extents = as ++ x :: bs → x.start ≤ start → start ≤ x.start + x.count →
      Inserted size start count bp.extents (Covered bp.extents start)
        (gotExtent x start count { bp with rcursorNext := none }) := by
    intro as x bs here low high
    have place := (here ▸ sound.apart).between
    have touch : Covered bp.extents start ↔ start < x.start + x.count := by
      rw [here, covered_append, covered_cons,
        or_iff_right fun h => (place.covered_before h).not_ge low,
        or_iff_left fun h => by have := place.covered_after h; omega, and_iff_right low]
    rw [touch]
    exact gotExtent_spec bounded here sound' low high pos fits
  simp only [rbInsertExtent, if_neg (Nat.pos_iff_ne_zero.mp pos)]
  split
  · rename_i ext cached
    obtain ⟨hit, range⟩ := Option.filter_eq_some_iff.mp cached
    obtain ⟨w, hw, rfl⟩ := Option.map_eq_some_iff.mp hit
    obtain ⟨as, x, bs, here, rfl, is, inside⟩ := sound.at (sound.cursors.write w hw)
    rw [is] at range ⊢
    rw [decide_eq_true_eq, stop_eq bounded inside] at range
    exact got as x bs here range.1 range.2
  have decides : ∀ e ∈ bp.extents, insertCmp start e =
      if start < e.start then .lt else if e.start + e.count + 1 ≤ start then .gt else .eq := by
    intro e mem
    rw [insertCmp, stop_eq bounded (sound.apart.inside e mem)]
    rfl
  rcases descend_spec sound.apart decides with
    ⟨c, l, x, r, up, stopped, low, high, here⟩ | ⟨up, stopped, -, here, before, after⟩
  · simp only [stopped]
    exact got _ x _ here low (Nat.le_of_lt_succ high)
  simp only [stopped]
  rw [here, eq_false (not_covered_of_gap (fun e he => le_of_lt (before e he)) after), ← here]
  exact linkNew_spec bounded sound' here (alloc.unused bp.live) before after rfl pos fits

/- The last node visited by a search that found nothing is the neighbour of the
searched place on one side or the other. -/
theorem nodes_from_parent (up : List (Frame BmapRbExtent))
    (nodup : ((plug .nil up).inorder.map (·.addr)).Nodup) :
    let nodes := nodesFromOption (plug .nil up) (up.head?.map (·.value.addr))
    nodes = rights up ∨ ∃ as e, lefts up = as ++ [e] ∧ nodes = e :: rights up := by
  have whole := inorder_plug .nil up
  rcases up with _ | ⟨f, up⟩
  · exact .inl rfl
  cases f with
  | left c x r =>
    left
    exact @nodesFrom_at _ (lefts up) _ x nodup (by rw [whole]; simp [lefts, rights])
  | right c l x =>
    right
    refine ⟨lefts up ++ l.inorder, x, by simp [lefts], ?_⟩
    exact @nodesFrom_at _ (lefts up ++ l.inorder) _ x nodup (by rw [whole]; simp [lefts, rights])

/- A loop that passes over extents before `start` may as well begin after the place of
the search. -/
theorem skip_parent {β : Type} (f : List BmapRbExtent → β)
    (skips : ∀ e rest, e.stop ≤ start → f (e :: rest) = f rest)
    {up : List (Frame BmapRbExtent)} (bounded : size < 2 ^ 64)
    (apart : Apart size (lefts up ++ rights up))
    (before : ∀ a ∈ lefts up, a.start + a.count ≤ start) :
    f (nodesFromOption (plug .nil up) (up.head?.map (·.value.addr))) = f (rights up) := by
  rcases nodes_from_parent up (by simpa [inorder_plug] using apart.distinct)
    with h | ⟨as, e, last, h⟩
  · rw [h]
  · rw [h, skips]
    rw [stop_eq bounded (apart.inside e (by simp [last]))]
    exact before e (by simp [last])

theorem nodes_from_head (nodup : (root.inorder.map (·.addr)).Nodup)
    (here : root.inorder = as ++ bs) : nodesFromOption root (bs.head?.map (·.addr)) = bs := by
  cases bs with
  | nil => rfl
  | cons b bs => exact nodesFrom_at nodup here

/- When everything below a position lies to the right, the search of
`rb_remove_extent` runs down the left edge and changes nothing. -/
theorem removeSearch_left_edge (start count : Nat) {t : RbTree BmapRbExtent}
    (up : List (Frame BmapRbExtent)) (retval : Nat) (right : ∀ e ∈ t.inorder, start < e.start) :
    ∃ up', removeSearch start count t up retval = .passed (plug .nil up')
    (up'.head?.map (·.value.addr)) retval ∧
      lefts up' = lefts up ∧ rights up' = t.inorder ++ rights up := by
  induction t generalizing up with
  | nil => exact ⟨up, rfl, rfl, by simp⟩
  | node c l e r ihl ihr =>
    obtain ⟨up', search, hl, hr⟩ := ihl (.left c e r :: up) (fun b hb => right b (by simp [hb]))
    refine ⟨up', ?_, by simpa [lefts] using hl, by simpa [rights] using hr⟩
    rw [removeSearch, if_pos (right e (by simp)), search]

/-- Everything the search loop of `rb_remove_extent` can end with. -/
inductive RemovalSpec (size start count : Nat) (xs : List BmapRbExtent) : Removal → Prop where
  | split (as bs : List BmapRbExtent) (x : BmapRbExtent) (root : RbTree BmapRbExtent)
      (here : xs = as ++ x :: bs) (low : x.start < start) (high : start + count < x.start + x.count)
      (cut : root.inorder = as ++ { x with count := start - x.start } :: bs) :
      RemovalSpec size start count xs
        (.split root (start + count) (x.start + x.count - (start + count)))
  | trimmed (as bs : List BmapRbExtent) (x : BmapRbExtent) (root : RbTree BmapRbExtent)
      (here : xs = as ++ x :: bs) (low : x.start = start) (high : start + count < x.start + x.count)
      (cut : root.inorder = as ++ ⟨x.addr, start + count, x.count - count⟩ :: bs) :
      RemovalSpec size start count xs (.trimmed root)
  | emptied (as bs : List BmapRbExtent) (x : BmapRbExtent) (root : RbTree BmapRbExtent)
      (here : xs = as ++ x :: bs) (low : x.start = start)
      (high : x.start + x.count ≤ start + count)
      (cut : root.inorder = as ++ ⟨x.addr, start, 0⟩ :: bs) :
      RemovalSpec size start count xs (.emptied root x.addr 1)
  | passed (up : List (Frame BmapRbExtent)) (retval m : Nat)
    (apart : Apart size (lefts up ++ rights up))
      (live : (lefts up ++ rights up).map (·.addr) = xs.map (·.addr))
      (before : ∀ a ∈ lefts up, a.start + a.count ≤ start)
        (after : ∀ b ∈ rights up, start < b.start)
      (short : m ≤ start + count) (hit : retval ≠ 0 ↔ start < m)
      (old : ∀ p, Covered xs p ↔ Covered (lefts up) p ∨ (start ≤ p ∧ p < m) ∨
        Covered (rights up) p) :
      RemovalSpec size start count xs (.passed (plug .nil up) (up.head?.map (·.value.addr)) retval)

/- The end of an extent is cut off, and the search goes on to the right of it. -/
theorem removal_of_cut {c : Color} {l r : RbTree BmapRbExtent} {e : BmapRbExtent}
    {up : List (Frame BmapRbExtent)}
    (place : Between size (lefts up ++ l.inorder) e (r.inorder ++ rights up))
    (low : e.start < start) (past : start < e.start + e.count)
    (covered : e.start + e.count ≤ start + count) :
    RemovalSpec size start count (lefts up ++ l.inorder ++ e :: (r.inorder ++ rights up))
      (removeSearch start count r (.right c l { e with count := start - e.start } :: up) 1) := by
  obtain ⟨up', search, hl, hr⟩ := removeSearch_left_edge start count
    (.right c l { e with count := start - e.start } :: up) 1 (by
      intro b hb
      have := place.after b (mem_append_left _ hb)
      omega)
  rw [search]
  have cut : lefts up' = lefts up ++ l.inorder ++ [{ e with count := start - e.start }] := by
    rw [hl]
    simp [lefts]
  replace hr : rights up' = r.inorder ++ rights up := hr
  refine .passed up' 1 (e.start + e.count) ?_ (by simp [cut, hr]) ?_ ?_ covered
    (by simp; omega) fun p => ?_
  · rw [cut, hr, append_assoc, singleton_append]
    exact Between.apart
      (place.shrink rfl (le_refl _) (by dsimp only; omega) (by dsimp only; omega))
  · rw [cut, forall_mem_append, forall_mem_singleton]
    exact ⟨fun a ha => by have := place.before a ha; omega, by dsimp only; omega⟩
  · rw [hr]
    exact fun b hb => by have := place.after b hb; omega
  · have own : e.start ≤ p ∧ p < e.start + e.count ↔
        (e.start ≤ p ∧ p < start) ∨ (start ≤ p ∧ p < e.start + e.count) := by omega
    rw [cut, hr, covered_append, covered_cons, covered_append (lefts up ++ l.inorder),
      covered_cons, Nat.add_sub_cancel' low.le, own]
    simp only [covered_nil, or_false, or_assoc]

section

variable (bounded : size < 2 ^ 64)
include bounded

theorem removeSearch_spec (fits : start + count ≤ size) {t : RbTree BmapRbExtent}
    (up : List (Frame BmapRbExtent)) (apart : Apart size (lefts up ++ t.inorder ++ rights up))
    (before : ∀ a ∈ lefts up, a.start + a.count ≤ start)
    (after : ∀ b ∈ rights up, start < b.start) :
    RemovalSpec size start count (lefts up ++ t.inorder ++ rights up)
    (removeSearch start count t up 0) := by
  have sum := add64_eq (lt_of_le_of_lt fits bounded)
  induction t generalizing up with
  | nil =>
    have none : ∀ p, ¬ (start ≤ p ∧ p < start) := by omega
    exact .passed up 0 start (by simpa using apart) (by simp) before after (Nat.le_add_right ..)
      (by simp) (by simp [none])
  | node c l e r ihl ihr =>
    have eq : lefts up ++ (RbTree.node c l e r).inorder ++ rights up =
        (lefts up ++ l.inorder) ++ e :: (r.inorder ++ rights up) := by simp
    rw [eq] at apart ⊢
    have place := apart.between
    have he := place.inside
    have stop := stop_eq bounded he
    rw [removeSearch]
    by_cases low : start < e.start
    · rw [if_pos low]
      have h := ihl (.left c e r :: up) (by simpa [lefts, rights] using apart)
        (by simpa [lefts] using before) (by
          intro b hb
          simp only [rights, cons_append, mem_cons, mem_append] at hb
          rcases hb with rfl | hb
          · exact low
          · have := place.after b (mem_append.mpr hb)
            omega)
      simpa [lefts, rights] using h
    rw [if_neg low, stop]
    by_cases past : start ≥ e.start + e.count
    · rw [if_pos past]
      have h := ihr (.right c l e :: up) (by simpa [lefts, rights] using apart) (by
          intro a ha
          simp only [lefts, mem_append, mem_singleton] at ha
          rcases ha with ha | ha | rfl
          · exact before a ha
          · have := place.before a (by simp [ha])
            omega
          · exact past) (by simpa [rights] using after)
      simpa [lefts, rights] using h
    rw [if_neg past, sum]
    have back : sub64 start e.start = start - e.start := sub64_eq (by omega) (by omega)
    by_cases inner : start > e.start ∧ start + count < e.start + e.count
    · rw [if_pos inner, sub64_eq inner.2.le (by omega), back]
      exact .split _ _ e _ rfl inner.1 inner.2 (by simp [inorder_plug])
    rw [if_neg inner, back]
    by_cases covered : start + count ≥ e.start + e.count
    · simp only [covered, decide_true, if_true]
      by_cases first : start - e.start = 0
      · rw [if_pos first]
        have same : e.start = start := by omega
        have h :=
          @RemovalSpec.emptied size start count _ (lefts up ++ l.inorder) (r.inorder ++ rights up) e
          (plug (.node c l { e with count := start - e.start } r) up) rfl same covered
          (by simp [inorder_plug, same])
        exact h
      · rw [if_neg first, if_neg (by omega)]
        exact removal_of_cut place (by omega) (not_le.mp past) covered
    · simp only [covered, decide_false, Bool.false_eq_true, if_false]
      have same : start = e.start := by omega
      rw [if_neg (by omega), if_pos same]
      have h :=
        @RemovalSpec.trimmed size start count _ (lefts up ++ l.inorder) (r.inorder ++ rights up) e
        (plug
          (.node c l { e with start := add64 e.start count, count := sub64 e.count count } r) up)
        rfl same.symm (by omega) (by
          have he' : add64 e.start count = start + count := by rw [← same, sum]
          rw [he', sub64_eq (by omega) (by omega)]
          simp [inorder_plug])
      exact h

theorem sweepRight_spec (fits : start + count ≤ size) (retval : Nat) (bp : RbPrivate)
    (here : bp.extents = as ++ bs) (sound : Sound size bp) (after : ∀ b ∈ bs, start < b.start) :
    let out := sweepRight start count bs retval bp
    Sound size out.1 ∧ (out.2 ≠ 0 ↔ retval ≠ 0 ∨ ∃ p, Covered bs p ∧ p ≤ start + count) ∧
      ∀ p, Covered out.1.extents p ↔ Covered as p ∨ (Covered bs p ∧ start + count ≤ p) := by
  have sum := add64_eq (lt_of_le_of_lt fits bounded)
  induction bs generalizing retval bp with
  | nil => exact ⟨sound, by simp [sweepRight], by simp [sweepRight, here]⟩
  | cons e rest ih =>
    obtain ⟨rest_apart, pos, room, -, -, beyond⟩ := (here ▸ sound.apart).between
    have stop := stop_eq bounded room
    have low := after e (by simp)
    simp only [sweepRight, stop, sum]
    rw [if_neg (by omega)]
    by_cases apart' : start + count < e.start
    · rw [if_pos apart']
      have far : ∀ p, Covered (e :: rest) p → start + count < p := fun p hp =>
        apart'.trans_le (((here ▸ sound.apart).sublist (sublist_append_right _ _)).first_le hp)
      refine ⟨sound, ⟨.inl, ?_⟩, ?_⟩
      · rintro (h | ⟨p, hp, le⟩)
        · exact h
        · have := far p hp
          omega
      · intro p
        rw [here, covered_append, and_iff_left_of_imp fun h => (far p h).le]
    rw [if_neg apart']
    have meets : ∃ p, Covered (e :: rest) p ∧ p ≤ start + count :=
      ⟨e.start, (covered_cons _ _ _).mpr (.inl ⟨le_refl _, by omega⟩), by omega⟩
    by_cases whole : start + count ≥ e.start + e.count
    · rw [if_pos whole]
      have sound' := eraseExtent_sound sound.apart.distinct here sound.cursors rest_apart
      obtain ⟨done, ret, same⟩ :=
        ih 1 (eraseExtent bp e.addr) (eraseExtent_at bp sound.apart.distinct here) sound'
        (fun b hb => after b (by simp [hb]))
      refine ⟨done, ?_, ?_⟩
      · rw [ret]
        exact ⟨fun _ => .inr meets, fun _ => .inl one_ne_zero⟩
      · intro p
        have gone : start + count ≤ p → ¬ (e.start ≤ p ∧ p < e.start + e.count) := by omega
        rw [same p, covered_cons]
        tauto
    · rw [if_neg whole]
      have left :
          sub64 e.count (sub64 (start + count) e.start) = e.start + e.count - (start + count) := by
        have inner : sub64 (start + count) e.start = start + count - e.start :=
          sub64_eq (by omega) (by omega)
        rw [inner, sub64_eq (by omega) (by omega)]
        omega
      rw [left]
      have cut := @store_at bp.root _ _ _ sound.apart.distinct here (start + count)
        (e.start + e.count - (start + count))
      refine ⟨sound_shrink sound here cut rfl (by simp only; omega) (by simp only; omega)
        (by simp only; omega), ⟨fun _ => .inr meets, fun _ => one_ne_zero⟩, ?_⟩
      · intro p
        have own : start + count ≤ p ∧ p < start + count + (e.start + e.count - (start + count)) ↔
            (e.start ≤ p ∧ p < e.start + e.count) ∧ start + count ≤ p := by omega
        have far : Covered rest p → start + count ≤ p := fun h => by
          have := covered_ge (fun f hf => (beyond f hf).le) h
          omega
        simp only [RbPrivate.extents, cut, covered_append, covered_cons, own]
        tauto

def Removed (size start count : Nat) (xs : List BmapRbExtent) (out : RbPrivate × Nat) : Prop :=
  Sound size out.1 ∧ (out.2 ≠ 0 ↔ ∃ p, Covered xs p ∧ start ≤ p ∧ p ≤ start + count) ∧
    ∀ p, Covered out.1.extents p ↔ Covered xs p ∧ ¬ (start ≤ p ∧ p < start + count)

theorem sweepRight_removes (fits : start + count ≤ size) {retval m : Nat}
    (here : bp.extents = as ++ bs)
    (sound : Sound size bp) (before : ∀ a ∈ as, a.start + a.count ≤ start)
    (after : ∀ b ∈ bs, start < b.start) (short : m ≤ start + count) (hit : retval ≠ 0 ↔ start < m)
    (old : ∀ p, Covered xs p ↔ Covered as p ∨ (start ≤ p ∧ p < m) ∨ Covered bs p) :
    Removed size start count xs (sweepRight start count bs retval bp) := by
  obtain ⟨done, ret, bits⟩ := sweepRight_spec bounded fits retval bp here sound after
  have below : ∀ p, Covered as p → p < start := fun p => covered_lt before
  have above : ∀ p, Covered bs p → start < p := fun p => covered_ge after
  refine ⟨done, ?_, fun p => ?_⟩
  · rw [ret, hit]
    constructor
    · rintro (lt | ⟨p, covered, le⟩)
      · exact ⟨start, (old _).mpr (.inr (.inl ⟨le_rfl, lt⟩)), le_rfl, Nat.le_add_right ..⟩
      · exact ⟨p, (old p).mpr (.inr (.inr covered)), (above p covered).le, le⟩
    · rintro ⟨p, covered, low, le⟩
      rcases (old p).mp covered with h | h | h
      · exact absurd (below p h) low.not_gt
      · exact .inl (by omega)
      · exact .inr ⟨p, h, le⟩
  · rw [bits, old]
    constructor
    · rintro (h | ⟨h, le⟩)
      · exact ⟨.inl h, fun inside => inside.1.not_gt (below p h)⟩
      · exact ⟨.inr (.inr h), fun inside => inside.2.not_ge le⟩
    · rintro ⟨h | h | h, outside⟩
      · exact .inl h
      · omega
      · exact .inr ⟨h, by have := above p h; omega⟩

theorem rbRemoveExtent_spec (alloc : Allocator)
    (start count : Nat) (bp : RbPrivate) (sound : Sound size bp) (fits : start + count ≤ size) :
    Removed size start count bp.extents (rbRemoveExtent alloc start count bp) := by
  unfold rbRemoveExtent
  by_cases empty : bp.root = .nil
  · have none : bp.extents = [] := by simp [RbPrivate.extents, empty]
    rw [if_pos empty]
    exact ⟨sound, by simp [none], by simp [none]⟩
  rw [if_neg empty]
  have search := removeSearch_spec bounded fits []
    (by simpa [lefts, rights, RbPrivate.extents] using sound.apart) (by simp [lefts])
      (by simp [rights])
  have same : lefts [] ++ bp.root.inorder ++ rights [] = bp.extents := by
    simp [lefts, rights, RbPrivate.extents]
  rw [same] at search
  have hits : ∀ as x bs, bp.extents = as ++ x :: bs → x.start ≤ start → start < x.start + x.count →
      ∃ p, Covered bp.extents p ∧ start ≤ p ∧ p ≤ start + count := by
    intro as x bs here low high
    exact ⟨start, ⟨x, by simp [here], low, high⟩, le_refl _, Nat.le_add_right _ _⟩
  generalize removeSearch start count bp.root [] 0 = removal at search
  cases search with
  | split as bs x root here low high cut =>
    have place := (here ▸ sound.apart).between
    have shrunk :=
      sound_shrink sound here cut rfl (le_refl _) (by simp only; omega) (by simp only; omega)
    have room := place.inside
    obtain ⟨done, -, bits⟩ := rbInsertExtent_spec bounded alloc (start + count)
      (x.start + x.count - (start + count)) { bp with root := root } shrunk (by omega) (by omega)
    refine ⟨done, iff_of_true one_ne_zero (hits as x bs here low.le (by omega)), fun p => ?_⟩
    have right : Covered bs p ∧ start + count ≤ p ↔ Covered bs p :=
      and_iff_left_of_imp fun h => by have := place.covered_after h; omega
    rw [bits p, here, place.covered_minus low.le (by omega) (Nat.le_add_right _ _), right]
    simp only [RbPrivate.extents, cut, covered_append, covered_cons]
    rw [Nat.add_sub_cancel' low.le, Nat.add_sub_cancel' high.le]
    tauto
  | trimmed as bs x root here low high cut =>
    have place := (here ▸ sound.apart).between
    have shrunk := sound_shrink sound here cut rfl (by simp only; omega) (by simp only; omega)
      (by simp only; omega)
    refine ⟨shrunk, iff_of_true one_ne_zero (hits as x bs here low.le (by omega)), fun p => ?_⟩
    have right : Covered bs p ∧ start + count ≤ p ↔ Covered bs p :=
      and_iff_left_of_imp fun h => by have := place.covered_after h; omega
    have left : ¬ (x.start ≤ p ∧ p < start) := by omega
    rw [here, place.covered_minus low.le (by omega) (Nat.le_add_right _ _), right,
      or_iff_right left]
    simp only [RbPrivate.extents, cut, covered_append, covered_cons]
    rw [show start + count + (x.count - count) = x.start + x.count by omega]
  | emptied as bs x root here low high cut =>
    have place := (here ▸ sound.apart).between
    have nodup : (root.inorder.map (·.addr)).Nodup := by simpa [cut] using place.distinct
    have next := nextOf_at (x := ⟨x.addr, start, 0⟩) nodup cut
    have ok : Cursors { bp with root := root } := by
      refine cursors_congr bp ?_ rfl rfl rfl sound.cursors
      simp only [RbPrivate.live, here]
      simp [RbPrivate.extents, cut]
    have gone : (eraseExtent { bp with root := root } x.addr).extents = as ++ bs :=
      eraseExtent_at (x := ⟨x.addr, start, 0⟩) { bp with root := root } nodup cut
    have sound' : Sound size (eraseExtent { bp with root := root } x.addr) :=
      eraseExtent_sound (x := ⟨x.addr, start, 0⟩) nodup cut ok place.rest
    have pos := place.filled
    simp only [next]
    rw [@nodes_from_head _ _ (eraseExtent { bp with root := root } x.addr).root
      sound'.apart.distinct gone]
    exact sweepRight_removes bounded fits gone sound'
      (fun a ha => by have := place.before a ha; omega)
      (fun b hb => by have := place.after b hb; omega) high (by simp; omega)
      fun p => by rw [here, covered_append, covered_cons, low]
  | passed up retval m apart live before after short hit old =>
    have ext : ({ bp with root := plug .nil up } : RbPrivate).extents = lefts up ++ rights up := by
      simp [RbPrivate.extents, inorder_plug]
    have sound' : Sound size { bp with root := plug .nil up } := by
      refine ⟨ext ▸ apart, cursors_congr bp ?_ rfl rfl rfl sound.cursors⟩
      rw [RbPrivate.live, ext, live, RbPrivate.live]
    have skip := skip_parent (sweepRight start count · retval { bp with root := plug .nil up })
      (fun e rest passed => if_pos passed) bounded apart before
    simp only [skip]
    exact sweepRight_removes bounded fits ext sound' before after short hit old

def Tested (size : Nat) (bp : RbPrivate) (bit : Nat) (out : RbPrivate × Nat) : Prop :=
  Sound size out.1 ∧ out.1.root = bp.root ∧ (out.2 ≠ 0 ↔ Covered bp.extents bit)

theorem searchTree_spec (bit : Nat) (sound : Sound size bp) :
    Tested size bp bit (searchTree bp bit) := by
  unfold searchTree
  rcases bit_search bounded sound.apart bit with
    ⟨c, l, x, r, up, stopped, low, high, here⟩ | ⟨up, stopped, -, here, before, after⟩
  · have mem : x ∈ bp.extents := by simp [here]
    simp only [stopped]
    refine ⟨⟨sound.apart, sound.cursors.write, ?_, ?_, ?_⟩, rfl, ?_⟩
    · intro a ha
      cases ha
      exact mem_map_of_mem mem
    · simp
    · simp
    · exact ⟨fun _ => ⟨x, mem, low, high⟩, fun _ => one_ne_zero⟩
  · simp only [stopped]
    have miss : ¬ Covered bp.extents bit := here ▸ not_covered_of_gap before after
    exact ⟨sound, rfl, by simp [miss]⟩

end

theorem not_covered_between (apart : Apart size (as ++ x :: y :: bs))
    (low : x.start + x.count ≤ bit) (high : bit < y.start) :
    ¬ Covered (as ++ x :: y :: bs) bit := by
  obtain ⟨-, gapsX, cross⟩ := pairwise_append.mp apart.gaps
  simp only [covered_append, covered_cons]
  rintro (h | h | h | h)
  · have := covered_lt (fun a ha => (cross a ha x (by simp)).le) h
    omega
  · omega
  · omega
  · have := covered_ge (fun b hb => rel_of_pairwise_cons gapsX.of_cons hb) h
    omega

/- The successor that the cursor or the tree supplies sits right after `r`. -/
theorem successor_at (nodup : bp.live.Nodup) (ok : Cursors bp) (here : bp.extents = as ++ x :: bs)
    (cursor : bp.rcursor = some x.addr) {n : Nat} (next : readNext bp x.addr = some n) :
    ∃ y cs, bs = y :: cs ∧ y.addr = n := by
  unfold readNext at next
  cases cached : bp.rcursorNext with
  | none =>
    simp only [cached, nextOf_at nodup here] at next
    cases bs with
    | nil => simp at next
    | cons y cs => exact ⟨y, cs, rfl, by simpa using next⟩
  | some m =>
    simp only [cached, Option.some.injEq] at next
    subst next
    obtain ⟨s, t, eq⟩ := ok.successor x.addr m cursor cached
    have live : bp.live = as.map (·.addr) ++ x.addr :: bs.map (·.addr) := by
      simp [RbPrivate.live, here]
    rw [live] at nodup eq
    have unique := split_unique id (as.map (·.addr)) (bs.map (·.addr)) s (m :: t) x.addr x.addr
      (by simpa using nodup) rfl (by simpa using eq.symm)
    cases bs with
    | nil => simp at unique
    | cons y cs => exact ⟨y, cs, rfl, by simpa using (cons.inj unique.2.2).1⟩

section

variable (bounded : size < 2 ^ 64)
include bounded

theorem testWcursor_spec (bit : Nat) (sound : Sound size bp) :
    Tested size bp bit (testWcursor bp bit) := by
  unfold testWcursor
  rcases cached : bp.wcursor with _ | w
  · exact searchTree_spec bounded bit sound
  obtain ⟨as, y, bs, here, rfl, is, inside⟩ := sound.at (sound.cursors.write w cached)
  simp only [is, stop_eq bounded inside]
  by_cases hit : bit ≥ y.start ∧ bit < y.start + y.count
  · rw [if_pos hit]
    exact ⟨sound, rfl, fun _ => ⟨y, by simp [here], hit⟩, fun _ => one_ne_zero⟩
  · rw [if_neg hit]
    exact searchTree_spec bounded bit sound

theorem rbTestBit_spec (bit : Nat) (bp : RbPrivate) (sound : Sound size bp) :
    Tested size bp bit (rbTestBit bp bit) := by
  unfold rbTestBit
  rcases cursor : bp.rcursor with _ | r
  · exact searchTree_spec bounded bit sound
  obtain ⟨as, x, bs, here, rfl, is, room⟩ := sound.at (sound.cursors.read r cursor)
  simp only [is, stop_eq bounded room]
  by_cases inside : bit ≥ x.start ∧ bit < x.start + x.count
  · rw [if_pos inside]
    exact ⟨sound, rfl, fun _ => ⟨x, by simp [here], inside⟩, fun _ => one_ne_zero⟩
  rw [if_neg inside]
  by_cases gap : bit ≥ x.start + x.count ∧ beforeNext bp.root bit (readNext bp x.addr) = true
  · rw [if_pos gap]
    obtain ⟨low, high⟩ := gap
    rcases next : readNext bp x.addr with _ | n
    · simp [next, beforeNext] at high
    obtain ⟨y, cs, rfl, rfl⟩ := successor_at sound.apart.distinct sound.cursors here cursor next
    have here' : bp.extents = (as ++ [x]) ++ y :: cs := by simp [here]
    rw [next, beforeNext, deref_at sound.apart.distinct here', decide_eq_true_eq] at high
    have live : bp.live = as.map (·.addr) ++ [x.addr, y.addr] ++ cs.map (·.addr) := by
      simp [RbPrivate.live, here]
    refine ⟨⟨sound.apart, sound.cursors.write, cursor ▸ sound.cursors.read, ?_, ?_⟩, rfl, ?_⟩
    · intro a ha
      cases ha
      change y.addr ∈ bp.live
      simp [live]
    · intro a b ha hb
      cases ha
      cases hb
      exact ⟨_, _, live.symm⟩
    · have miss : ¬ Covered bp.extents bit := by
        rw [here]
        exact not_covered_between (here ▸ sound.apart) low high
      simp [miss]
  · rw [if_neg gap]
    exact testWcursor_spec bounded bit ⟨sound.apart, sound.cursors.write, by simp, by simp, by simp⟩

theorem clearFrom_spec {len : Nat} (fits : start + len ≤ size)
    (apart : Apart size bs) (after : ∀ b ∈ bs, start < b.start) : clearFrom start len bs ≠ 0 ↔
      ∀ p, start ≤ p → p < start + len → ¬ Covered bs p := by
  rcases bs with _ | ⟨e, rest⟩
  · simp [clearFrom]
  have place : Between size [] e rest := Apart.between apart
  obtain ⟨-, pos, room, -, -, beyond⟩ := place
  have stop := stop_eq bounded room
  have low := after e (by simp)
  rw [clearFrom, if_neg (by omega), add64_eq (lt_of_le_of_lt fits bounded)]
  by_cases far : start + len ≤ e.start
  · rw [if_pos far]
    refine ⟨fun _ p _ high hp => ?_, fun _ => one_ne_zero⟩
    have := apart.first_le hp
    omega
  · rw [if_neg far]
    refine ⟨fun h => absurd rfl h, fun h => ?_⟩
    exact absurd ((covered_cons _ _ _).mpr (.inl ⟨le_refl _, by omega⟩))
      (h e.start (by omega) (by omega))

theorem testClear_spec (start len : Nat)
    (bp : RbPrivate) (sound : Sound size bp) (fits : start + len ≤ size) :
      testClear bp start len ≠ 0 ↔ ∀ p, start ≤ p → p < start + len → ¬ Covered bp.extents p := by
  unfold testClear
  by_cases trivial : len = 0 ∨ bp.root = .nil
  · rw [if_pos trivial]
    refine ⟨fun _ p low high => ?_, fun _ => one_ne_zero⟩
    rcases trivial with rfl | empty
    · omega
    · simp [RbPrivate.extents, empty]
  rw [if_neg trivial]
  rcases bit_search bounded sound.apart start with
    ⟨c, l, x, r, up, stopped, low, high, here⟩ | ⟨up, stopped, root, here, before, after⟩
  · simp only [stopped]
    refine ⟨fun h => absurd rfl h, fun h => ?_⟩
    exact absurd ⟨x, by simp [here], low, high⟩ (h start le_rfl (by omega))
  simp only [stopped]
  have apart : Apart size (lefts up ++ rights up) := here ▸ sound.apart
  have skip :=
    skip_parent (clearFrom start len) (fun e rest passed => if_pos passed) bounded apart before
  rw [root] at skip
  rw [skip, clearFrom_spec bounded fits (apart.sublist (sublist_append_right _ _)) after, here]
  refine forall_congr' fun p => forall_congr' fun low => forall_congr' fun high => ?_
  rw [covered_append, not_or]
  exact ⟨fun h => ⟨fun hp => absurd (covered_lt before hp) (by omega), h⟩, fun h => h.2⟩

end

end E2fs.Rb
