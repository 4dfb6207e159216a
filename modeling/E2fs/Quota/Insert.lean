import E2fs.Lib.Radix
import E2fs.Quota.Entries

/-! The tree over ids, and what inserting an id does to it. -/
namespace E2fs.Quota
open Memory Word Function

section Nodes

/-- The block of the tree at a depth, zero for none; at depth four it is a data block. -/
def nodeOf (h : QuotaHandle) (d p : Nat) : Nat :=
  Radix.node 256 (fun b i => ref (view h b) i) treeoff d p

def pre (id : UInt32) (d : Nat) : Nat := id.toNat / 256 ^ (4 - d)

def home (h : QuotaHandle) (id : UInt32) : Nat := nodeOf h 4 id.toNat

theorem pre_four (id : UInt32) : pre id 4 = id.toNat := by simp [pre]

variable {d : Nat}

theorem pre_div (id : UInt32) (lt : d < 4) : pre id (d + 1) / 256 = pre id d := by
  rw [pre, pre, Nat.div_div_eq_div_mul, ← pow_succ, show 4 - (d + 1) + 1 = 4 - d by omega]

theorem pre_lt (id : UInt32) (le : d ≤ 4) : pre id d < 256 ^ d := by
  rw [pre, Nat.div_lt_iff_lt_mul (by positivity), ← pow_add, show d + (4 - d) = 4 by omega]
  exact id.toNat_lt

theorem getIndex_eq (id : UInt32) (d : Nat) : getIndex id d = pre id (d + 1) % 256 := by
  rw [getIndex, pre, Nat.shiftRight_eq_div_pow, show (0xff : Nat) = 2 ^ 8 - 1 from rfl,
    Nat.and_two_pow_sub_one_eq_mod, mul_comm, pow_mul, show 4 - d - 1 = 4 - (d + 1) by omega]
  rfl

variable {h h' : QuotaHandle}

@[simp] theorem nodeOf_zero (p : Nat) : nodeOf h 0 p = 1 := rfl

theorem nodeOf_next (id : UInt32) (lt : d < 4) : nodeOf h (d + 1) (pre id (d + 1)) =
    if nodeOf h d (pre id d) = 0 then 0 else ref (view h (nodeOf h d (pre id d)))
    (getIndex id d) := by
  rw [nodeOf, Radix.node_succ, pre_div id lt, getIndex_eq]
  rfl

theorem home_eq (id : UInt32) : home h id = nodeOf h 4 (pre id 4) := by rw [home, pre_four]

theorem nodeOf_congr (h' : QuotaHandle)
    (same : ∀ d < 4, ∀ p < 256 ^ d, nodeOf h d p ≠ 0 → view h' (nodeOf h d p) =
    view h (nodeOf h d p)) : ∀ d ≤ 4, ∀ p < 256 ^ d, nodeOf h' d p = nodeOf h d p := by
  refine Radix.node_congr fun d lt p small nonzero i _ => ?_
  have := same d lt p small nonzero
  rw [nodeOf] at this
  rw [this]

/-- The blocks of the tree are in use, hold no records and have one place each. -/
structure Tree (h : QuotaHandle) (U : Nat → Prop) (L : List Nat) : Prop where
  used : ∀ d < 4, ∀ p < 256 ^ d, nodeOf h d p ≠ 0 → U (nodeOf h d p) ∧ nodeOf h d p ∉ L
  inj : ∀ d < 4, ∀ p < 256 ^ d, ∀ d' < 4, ∀ p' < 256 ^ d', nodeOf h d p ≠ 0 →
    nodeOf h d p = nodeOf h d' p' → d = d' ∧ p = p'

theorem Tree.congr {U U' : Nat → Prop} {L L' : List Nat} (tree : Tree h U L)
    (same : ∀ c, U c → c ∉ L → view h' c = view h c) (more : ∀ c, U c → U' c)
    (less : ∀ c, U c → c ∉ L → c ∉ L') :
    (∀ d ≤ 4, ∀ p < 256 ^ d, nodeOf h' d p = nodeOf h d p) ∧ Tree h' U' L' := by
  have nodes := nodeOf_congr h' fun d lt p small nonzero =>
    have here := tree.used d lt p small nonzero
    same _ here.1 here.2
  refine ⟨nodes, fun d lt p small nonzero => ?_, fun d lt p small d' lt' p' small' nonzero eq => ?_⟩
  · rw [nodes d lt.le p small] at nonzero ⊢
    have here := tree.used d lt p small nonzero
    exact ⟨more _ here.1, less _ here.1 here.2⟩
  · rw [nodes d lt.le p small] at nonzero eq
    rw [nodes d' lt'.le p' small'] at eq
    exact tree.inj d lt p small d' lt' p' small' nonzero eq

/- A path from a depth on, whose block at that depth is another one. -/
@[elab_as_elim]
theorem update_from {path : Nat → Nat} {b : Nat} {motive : Nat → Nat → Prop} (here : motive d b)
    (below : ∀ j, d + 1 ≤ j → motive j (path j)) (j : Nat) (low : d ≤ j) :
    motive j (update path d b j) := by
  rcases eq_or_lt_of_le low with rfl | more
  · rwa [update_self]
  · rw [update_of_ne (by omega)]
    exact below j more

end Nodes

section Insert

/- A path to an id, from a depth on: where there was a node it stays, with one reference
more; new nodes have no other reference. -/
structure Inserted (h h' : QuotaHandle) (id : UInt32) (U : Nat → Prop) (F F' L L' : List Nat)
    (d : Nat) (path : Nat → Nat) (i : Nat) (old : Buf) : Prop where
  nonzero : ∀ j, d ≤ j → j < 4 → path j ≠ 0
  kept : ∀ j, d ≤ j → j < 4 → nodeOf h j (pre id j) ≠ 0 → path j = nodeOf h j (pre id j)
  fresh : ∀ j, d ≤ j → j < 4 → nodeOf h j (pre id j) = 0 → ¬ U (path j)
  distinct : ∀ j j', d ≤ j → j < j' → j' ≤ 4 → path j ≠ path j'
  refs : ∀ j, d ≤ j → j < 4 → ∀ i < 256, ref (view h' (path j)) i =
    if i = getIndex id j then path (j + 1)
    else if nodeOf h j (pre id j) = 0 then 0 else ref (view h (nodeOf h j (pre id j))) i
  took : Took h h' U L L' (path 4) i old
  pool : Pool h' (fun c => (∃ j, d ≤ j ∧ j ≤ 4 ∧ c = path j) ∨ U c) F'
  same : ∀ c, U c → c ∉ L → (∀ j, d ≤ j → j ≤ 4 → c ≠ path j) → view h' c = view h c
  blocks : h'.blocks ≤ h.blocks + (5 - d)
  empty : F = [] → F' = [] ∧ (L = [] → h.blocks ≤ path 4)

variable {h : QuotaHandle} {id : UInt32} {U : Nat → Prop} {F L : List Nat}

structure Opened (h h1 : QuotaHandle) (U : Nat → Prop) (F F1 : List Nat) (n b : Nat) (buf : Buf) :
    Prop where
  pool : Pool h1 (fun c => c = b ∨ U c) F1
  same : ∀ c, U c → view h1 c = view h c
  head : h1.freeEntry = h.freeEntry
  kept : n ≠ 0 → b = n ∧ buf = view h n
  fresh : n = 0 → ¬ U b ∧ buf = getdqbuf
  blocks : h1.blocks ≤ h.blocks + 1
  empty : F = [] → F1 = [] ∧ h.blocks ≤ h1.blocks

theorem opened (pool : Pool h U F) (room : h.blocks < 2 ^ 22) {n : Nat} (there : n ≠ 0 → U n) :
    ∃ h1 b buf F1, openTree h n = (h1, b, buf) ∧ Opened h h1 U F F1 n b buf := by
  unfold openTree
  by_cases zero : n = 0
  · obtain ⟨h1, b, F1, got, fresh, pool', same, head, blocks, empty⟩ := getFreeDqblk_spec pool room
    refine ⟨h1, b, getdqbuf, F1, ?_, pool', same, head, fun nonzero => absurd zero nonzero,
      fun _ => ⟨fresh, rfl⟩, blocks, fun none =>
        ⟨(empty none).2.1, (empty none).2.2 ▸ Nat.le_succ _⟩⟩
    rw [if_pos zero, got]
  · refine ⟨h, n, view h n, F, ?_, pool.add (there zero), fun _ _ => rfl, rfl, fun _ => ⟨rfl, rfl⟩,
      fun is => absurd is zero, Nat.le_succ _, fun none => ⟨none, le_refl _⟩⟩
    rw [if_neg zero, readBlk_eq (pool.lt_bound (there zero))]

variable {h1 h2 : QuotaHandle} {F1 F' L' : List Nat} {d i b : Nat} {path : Nat → Nat} {old : Buf}

theorem Opened.outside {buf : Buf} (lt : d < 4) (sub : ∀ c ∈ L, U c) (tree : Tree h U L)
    (first : Opened h h1 U F F1 (nodeOf h d (pre id d)) b buf) : b ∉ L := by
  by_cases zero : nodeOf h d (pre id d) = 0
  · exact fun mem => (first.fresh zero).1 (sub b mem)
  · rw [(first.kept zero).1]
    exact (tree.used d lt _ (pre_lt id lt.le) zero).2

theorem Opened.nodes {n : Nat} {buf : Buf} (tree : Tree h U L)
    (first : Opened h h1 U F F1 n b buf) :
    (∀ d ≤ 4, ∀ p < 256 ^ d, nodeOf h1 d p = nodeOf h d p) ∧ Tree h1 (fun c => c = b ∨ U c) L :=
  tree.congr (fun c own _ => first.same c own) (fun _ own => .inr own) fun _ _ out => out

theorem linkSon_spec {son k : Nat} {buf : Buf} (small : b < 2 ^ 22) (small' : son < 2 ^ 32)
    (there : ref buf k ≠ 0 → son = ref buf k ∧ view h2 b = buf) :
    let h' := linkSon h2 b buf k son
    h'.freeEntry = h2.freeEntry ∧ h'.freeBlk = h2.freeBlk ∧ h'.blocks = h2.blocks ∧
      (∀ c, c ≠ b → view h' c = view h2 c) ∧
      ∀ i < 256, ref (view h' b) i = if i = k then son else ref buf i := by
  unfold linkSon
  split_ifs with nonzero
  · refine ⟨rfl, rfl, rfl, fun c ne => ?_, fun i lt => ?_⟩
    · exact view_unwritten small ne
    · rw [view_written small, ref_clip lt, ref_setRef small']
  · obtain ⟨isSon, isBuf⟩ := there nonzero
    refine ⟨rfl, rfl, rfl, fun _ _ => rfl, fun i lt => ?_⟩
    rw [isBuf]
    split_ifs with own
    · rw [own, isSon]
    · rfl

theorem Opened.next {buf : Buf} (lt : d < 4)
    (first : Opened h h1 U F F1 (nodeOf h d (pre id d)) b buf) :
    ref buf (getIndex id d) = nodeOf h (d + 1) (pre id (d + 1)) := by
  rw [nodeOf_next id lt]
  split_ifs with zero
  · rw [(first.fresh zero).2, ref_getdqbuf]
  · rw [(first.kept zero).2]

section

variable {b : Nat} {buf : Buf} (lt : d < 4) (sub : ∀ c ∈ L, U c) (tree : Tree h U L)
  (first : Opened h h1 U F F1 (nodeOf h d (pre id d)) b buf)
  (inner : Inserted h1 h2 id (fun c => c = b ∨ U c) F1 F' L L' (d + 1) path i old)
include lt sub tree first inner

theorem Inserted.apart : ∀ j, d < j → j ≤ 4 → b ≠ path j := by
  obtain ⟨nodes, -⟩ := first.nodes tree
  intro j more small same
  by_cases last : j = 4
  · subst last
    rcases inner.took.old_is with ⟨mem, -⟩ | ⟨-, new, -⟩
    · exact first.outside lt sub tree (same ▸ mem)
    · exact new (.inl same.symm)
  · have small' : j < 4 := by omega
    have node1 := nodes j small _ (pre_lt id small)
    by_cases zero : nodeOf h1 j (pre id j) = 0
    · exact inner.fresh j more small' zero (.inl same.symm)
    rw [inner.kept j more small' zero, node1] at same
    rw [node1] at zero
    by_cases zero' : nodeOf h d (pre id d) = 0
    · exact (first.fresh zero').1 (same ▸ (tree.used j small' _ (pre_lt id small) zero).1)
    · rw [(first.kept zero').1] at same
      have := (tree.inj d lt _ (pre_lt id lt.le) j small' _ (pre_lt id small) zero' same).1
      omega

/- One level more: `h1` is opened, the levels below give `h2`, and the reference is set. -/
theorem Inserted.extend (none : home h id = 0) :
    Inserted h (linkSon h2 b buf (getIndex id d) (path (d + 1))) id U F F' L L' d (update path d b)
      i old := by
  obtain ⟨nodes, -⟩ := first.nodes tree
  have deeper : ∀ j, d < j → update path d b j = path j := fun j more => update_of_ne (by omega) _ _
  have node1 : ∀ j, j < 4 → nodeOf h1 j (pre id j) = nodeOf h j (pre id j) :=
    fun j small => nodes j small.le _ (pre_lt id small.le)
  have uses : ∀ j, j < 4 → nodeOf h j (pre id j) ≠ 0 → U (nodeOf h j (pre id j)) :=
    fun j small nonzero => (tree.used j small _ (pre_lt id small.le) nonzero).1
  have outside : b ∉ L := first.outside lt sub tree
  have apart := inner.apart lt sub tree first
  have start : b ≠ 0 := first.pool.nonzero (.inl rfl)
  have small' := inner.pool.lt_bound (.inl ⟨d + 1, le_refl _, lt, rfl⟩)
  have there : ref buf (getIndex id d) ≠ 0 → path (d + 1) = ref buf (getIndex id d) ∧
      view h2 b = buf := by
    intro nonzero
    have next := first.next lt
    have inside : d + 1 < 4 := by
      by_contra last
      obtain rfl : d = 3 := by omega
      exact nonzero (by rw [next, ← home_eq, none])
    have kept := first.kept fun zero => nonzero (by rw [(first.fresh zero).2, ref_getdqbuf])
    constructor
    · rw [inner.kept (d + 1) (le_refl _) inside (by rwa [node1 _ inside, ← next]), node1 _ inside,
        next]
    · rw [inner.same b (.inl rfl) outside apart, kept.2, kept.1]
      exact first.same _ (uses d lt (kept.1 ▸ start))
  obtain ⟨head, free, blocks, other, refs⟩ :=
    linkSon_spec (first.pool.lt_bound (.inl rfl)) (small'.trans (by decide)) there
  refine ⟨update_from (fun _ => start) inner.nonzero,
    update_from (fun _ nonzero => (first.kept nonzero).1)
      fun j more small nonzero => by
        rw [inner.kept j more small (by rwa [node1 j small]), node1 j small],
    update_from (fun _ zero => (first.fresh zero).1) fun j more small zero own =>
      inner.fresh j more small (by rwa [node1 j small]) (.inr own),
    fun j j' low more small => ?_, fun j low => ?_, ?_, ?_, fun c own out away => ?_, ?_,
    fun none => ?_⟩
  · rw [deeper j' (by omega)]
    revert more
    exact update_from (fun more => apart j' more small)
      (fun j low more => inner.distinct j j' low more small) j low
  · rw [deeper (j + 1) (by omega)]
    refine update_from (fun _ k lt' => ?_) (fun j more small k lt' => ?_) j low
    · rw [refs k lt']
      split
      · rfl
      · split_ifs with zero
        · rw [(first.fresh zero).2, ref_getdqbuf]
        · rw [(first.kept zero).2]
    · rw [other _ (apart j more small.le).symm, inner.refs j more small k lt', node1 j small]
      split
      · rfl
      · split_ifs with nonzero
        · rfl
        · rw [first.same _ (uses j small nonzero)]
  · rw [deeper 4 lt]
    refine (inner.took.widen sub (fun _ own => .inr own) first.same).later head fun c either =>
      other c ?_
    rcases either with rfl | mem
    · exact (apart 4 lt (le_refl 4)).symm
    · rintro rfl
      exact outside mem
  · refine (inner.pool.congr blocks free fun c mem => other c ?_).of_iff fun c => ?_
    · rintro rfl
      exact inner.pool.free c mem (.inr (.inl rfl))
    · constructor
      · rintro (⟨j, low, small, is⟩ | own)
        · revert small is
          exact update_from (fun _ is => .inr (.inl is))
            (fun j more small is => .inl ⟨j, more, small, is⟩) j low
        · exact .inr (.inr own)
      · rintro (⟨j, low, small, is⟩ | is | own)
        · exact .inl ⟨j, by omega, small, by rw [deeper j (by omega), is]⟩
        · exact .inl ⟨d, le_refl d, lt.le, by rw [update_self, is]⟩
        · exact .inr own
  · have notHere := away d (le_refl d) lt.le
    rw [update_self] at notHere
    rw [other c notHere, inner.same c (.inr own) out fun j low small => ?_, first.same c own]
    have := away j (by omega) small
    rwa [deeper j (by omega)] at this
  · have := inner.blocks
    have := first.blocks
    omega
  · obtain ⟨none', le⟩ := first.empty none
    obtain ⟨none'', le'⟩ := inner.empty none'
    rw [deeper 4 lt]
    exact ⟨none'', fun noL => le.trans (le' noL)⟩

end

theorem Found.inserted {h' : QuotaHandle} {blk : Nat}
    (found : Found h h' U F F' L L' blk i old) :
    Inserted h h' id U F F' L L' 4 (fun _ => blk) i old where
  nonzero j low small := by omega
  kept j low small := by omega
  fresh j low small := by omega
  distinct j j' low more small := by omega
  refs j low small := by omega
  took := found.toTook
  pool := found.pool.of_iff fun c =>
    or_congr_left ⟨fun ⟨_, _, _, is⟩ => is, fun is => ⟨4, le_refl 4, le_refl 4, is⟩⟩
  same c own out _ := found.same c own out
  blocks := found.blocks
  empty none := ⟨(found.fresh none).1, fun noL => ((found.fresh none).2 noL).ge⟩

theorem doInsertTree_spec (levels : Nat) (le : levels ≤ 3) (pool : Pool h U F) (partly : Partly h L)
    (sub : ∀ c ∈ L, U c)
    (counts : ∀ c ∈ L, entries (view h c) = used (view h c) ∧ used (view h c) < 14)
    (tree : Tree h U L) (none : home h id = 0) (room : h.blocks + levels + 2 ≤ 2 ^ 22) :
    ∃ h' path i F' L' old, doInsertTree id levels h (nodeOf h (3 - levels) (pre id (3 - levels))) =
        (h', path (3 - levels), toInt32 (path 4 * 1024) + 16 + 72 * (i : Nat)) ∧
      Inserted h h' id U F F' L L' (3 - levels) path i old := by
  induction levels generalizing h U F with
  | zero =>
    have lt : 3 < 4 := by decide
    obtain ⟨h1, b, buf, F1, is, first⟩ := opened (n := nodeOf h 3 (pre id 3)) pool (by omega)
      fun nonzero => (tree.used 3 lt _ (pre_lt id lt.le) nonzero).1
    have blocks1 := first.blocks
    obtain ⟨h2, blk, i, F', L', old, took, found⟩ := findFreeDqentry_spec first.pool
      (partly.congr first.head fun c mem => first.same c (sub c mem))
        (fun c mem => .inr (sub c mem)) (by omega)
      (fun c mem => by rw [first.same c (sub c mem)]; exact counts c mem)
    refine ⟨_, update (fun _ => blk) 3 b, i, F', L', old, ?_,
      found.inserted.extend lt sub tree first none⟩
    simp only [doInsertTree, is, took]
    rw [update_self, update_of_ne (by decide)]
  | succ levels ih =>
    obtain ⟨d, isd⟩ : ∃ d, d = 3 - (levels + 1) := ⟨_, rfl⟩
    have lt : d < 4 := by omega
    have up : 3 - levels = d + 1 := by omega
    rw [← isd]
    rw [up] at ih
    obtain ⟨h1, b, buf, F1, is, first⟩ := opened (n := nodeOf h d (pre id d)) pool (by omega)
      fun nonzero => (tree.used d lt _ (pre_lt id lt.le) nonzero).1
    obtain ⟨nodes, tree1⟩ := first.nodes tree
    have blocks1 := first.blocks
    obtain ⟨h2, path, i, F', L', old, inserted, inner⟩ := ih (by omega) first.pool
      (partly.congr first.head fun c mem => first.same c (sub c mem))
        (fun c mem => .inr (sub c mem))
      (fun c mem => by rw [first.same c (sub c mem)]; exact counts c mem) tree1
      (by rw [home_eq, nodes 4 (le_refl 4) _ (pre_lt id (le_refl 4)), ← home_eq, none]) (by omega)
    rw [nodes (d + 1) (by omega) _ (pre_lt id (by omega)), ← first.next lt] at inserted
    refine ⟨_, update path d b, i, F', L', old, ?_, inner.extend lt sub tree first none⟩
    simp only [doInsertTree, show 2 - levels = d by omega, is, inserted]
    rw [update_self, update_of_ne (by omega)]

theorem Inserted.nodes {h' : QuotaHandle} (inserted : Inserted h h' id U F F' L L' 0 path i old)
    (tree : Tree h U L) :
    ∀ d ≤ 4, ∀ p < 256 ^ d, nodeOf h' d p = if p = pre id d then path d else nodeOf h d p := by
  refine Radix.node_path (fun d lt => pre_div id lt) ?_ (fun d lt p small ne nonzero k _ => ?_)
    (fun d lt _ k lt' => ?_) fun d lt zero => absurd zero (inserted.nonzero d (Nat.zero_le d) lt)
  · exact inserted.kept 0 (le_refl 0) (by decide) (by rw [nodeOf_zero]; decide)
  · obtain ⟨own, out⟩ := tree.used d lt p small nonzero
    have same := inserted.same _ own out fun j _ le is => ?_
    · rw [nodeOf] at same
      rw [same]
    · by_cases last : j = 4
      · subst last
        rcases inserted.took.old_is with ⟨mem, -⟩ | ⟨-, new, -⟩
        · exact out (is ▸ mem)
        · exact new (is ▸ own)
      · have lt' : j < 4 := by omega
        by_cases zero : nodeOf h j (pre id j) = 0
        · exact inserted.fresh j (Nat.zero_le j) lt' zero (is ▸ own)
        · rw [inserted.kept j (Nat.zero_le j) lt' zero] at is
          obtain ⟨rfl, rfl⟩ := tree.inj d lt p small j lt' _ (pre_lt id le) nonzero is
          exact ne rfl
  · rw [← getIndex_eq]
    exact inserted.refs d (Nat.zero_le d) lt k lt'

end Insert

end E2fs.Quota
