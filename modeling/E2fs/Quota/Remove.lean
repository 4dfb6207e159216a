import E2fs.Quota.Invariant

/-! Removing an id from the tree: its record, and the blocks that get empty. -/
namespace E2fs.Quota
open Memory Word Finset
open Function (update update_of_ne update_self)

variable {h h1 h' : QuotaHandle} {m : UInt32 → Option Dqblk} {F F' L L' : List Nat}
  {place : UInt32 → Nat} {id : UInt32} {path : Nat → Nat} {i : Nat}

section Path

theorem node_of_home (live : home h id ≠ 0) {d : Nat} (le : d ≤ 4) : nodeOf h d (pre id d) ≠ 0 := by
  obtain ⟨k, rfl⟩ : ∃ k, d = 4 - k := ⟨4 - d, by omega⟩
  induction k with
  | zero => rwa [Nat.sub_zero, ← home_eq]
  | succ k ih =>
    by_cases small : k < 4
    · have below := ih (by omega)
      rw [show 4 - k = 4 - (k + 1) + 1 by omega, nodeOf_next id (by omega)] at below
      intro zero
      rw [if_pos zero] at below
      exact below rfl
    · rw [show 4 - (k + 1) = 4 - k by omega]
      exact ih (by omega)

/- A path to an id, from a depth on, after the id was removed: a node is gone with the ones
below it, or it stays. -/
structure Removed (h h' : QuotaHandle) (id : UInt32) (F' L L' : List Nat) (d : Nat)
    (path : Nat → Nat) (i : Nat) : Prop where
  last : path 4 = 0
  kinds : ∀ j, d ≤ j → j < 4 → path j = 0 ∨ path j = nodeOf h j (pre id j)
  root : ∀ j, d ≤ j → j < 4 → nodeOf h j (pre id j) = treeoff → path j ≠ 0
  refs : ∀ j, d ≤ j → j < 4 → path j ≠ 0 → ∀ i < 256, ref (view h' (path j)) i =
    if i = getIndex id j then path (j + 1) else ref (view h (nodeOf h j (pre id j))) i
  cut : ∀ j, d ≤ j → j < 4 → path j = 0 → path (j + 1) = 0 ∧ ∀ i < 256, i ≠ getIndex id j →
    ref (view h (nodeOf h j (pre id j))) i = 0
  dropped : Dropped h h' L L' (home h id) i
  pool : Pool h' (fun c => InUse h c ∧ (c = home h id → 1 < used (view h c)) ∧
    ∀ j, d ≤ j → j < 4 → c = nodeOf h j (pre id j) → path j ≠ 0) F'
  same : ∀ c, InUse h c → c ∉ L → c ≠ home h id → (∀ j, d ≤ j → j < 4 → c ≠ nodeOf h j (pre id j)) →
    view h' c = view h c
  blocks : h'.blocks = h.blocks

theorem Freed.removed (freed : Freed h h' (InUse h) L L' F' (home h id) i) :
    Removed h h' id F' L L' 4 (fun _ => 0) i where
  last := rfl
  kinds j low small := by omega
  root j low small := by omega
  refs j low small := by omega
  cut j low small := by omega
  dropped := freed.toDropped
  pool := freed.pool.of_iff fun c => and_congr_right fun _ =>
    ⟨fun both isc => isc ▸ both.1 isc,
      fun more => ⟨fun isc => isc ▸ more isc, fun j low small => by omega⟩⟩
  same c own out ne _ := freed.same c own out ne
  blocks := freed.blocks

structure Unlinked (h1 h2 : QuotaHandle) (b b' k son : Nat) (buf : Buf) : Prop where
  head : h2.freeEntry = h1.freeEntry
  blocks : h2.blocks = h1.blocks
  other : ∀ c, c ≠ b → view h2 c = view h1 c
  kept : b' ≠ 0 → b' = b ∧ (∀ i < 256, ref (view h2 b) i = if i = k then son else ref buf i) ∧
    h2.freeBlk = h1.freeBlk
  gone : b' = 0 → son = 0 ∧ b ≠ treeoff ∧ (∀ i < 256, i ≠ k → ref buf i = 0) ∧
    ∃ buf', h2 = putFreeDqblk h1 buf' b

theorem unlinkSon_spec {b k son : Nat} {buf : Buf} (small : b < 2 ^ 22) (nonzero : b ≠ 0)
    (there : son ≠ 0 → son = ref buf k ∧ view h1 b = buf) :
    ∃ h2 b', unlinkSon h1 b buf k son = (h2, b') ∧ Unlinked h1 h2 b b' k son buf := by
  unfold unlinkSon
  by_cases zero : son = 0
  · dsimp only
    split_ifs with empty
    · refine ⟨_, 0, rfl, rfl, rfl, fun c ne => ?_, fun no => absurd rfl no,
        fun _ => ⟨zero, empty.2, ?_, _, rfl⟩⟩
      · exact view_unwritten small ne
      · intro i lt' ne
        have all : ref (setRef buf k 0) i = 0 := load_of_zero fun q low high => by
          have := List.all_eq_true.mp empty.1 q.toNat (List.mem_range.mpr (by omega))
          rw [decide_eq_true_eq] at this
          rwa [show ((q.toNat : Nat) : Int) = q by omega] at this
        rwa [ref_setRef (by decide), if_neg ne] at all
    · refine ⟨_, b, rfl, rfl, rfl, fun c ne => ?_, fun _ => ⟨rfl, fun i lt' => ?_, rfl⟩,
        fun no => absurd no nonzero⟩
      · exact view_unwritten small ne
      · rw [view_written small, ref_clip lt', ref_setRef (by decide), zero]
  · rw [if_neg zero]
    obtain ⟨isSon, isBuf⟩ := there zero
    refine ⟨h1, b, rfl, rfl, rfl, fun _ _ => rfl, fun _ => ⟨rfl, fun i _ => ?_, rfl⟩,
      fun no => absurd no nonzero⟩
    rw [isBuf]
    split_ifs with own
    · rw [own, isSon]
    · rfl

section

variable {d : Nat} (lt : d < 4) (inv : Inv h m F L place) (live : home h id ≠ 0)
  (inner : Removed h h1 id F' L L' (d + 1) path i)
include lt inv live inner

theorem Removed.there : path (d + 1) ≠ 0 → path (d + 1) = ref (view h (nodeOf h d (pre id d)))
      (getIndex id d) ∧ view h1 (nodeOf h d (pre id d)) = view h (nodeOf h d (pre id d)) := by
  intro stays
  have nonzero := node_of_home live lt.le
  have tree := isTree_node lt (pre_lt id lt.le) nonzero
  have inside : d + 1 < 4 := by
    by_contra outside
    obtain rfl : d = 3 := by omega
    exact stays inner.last
  constructor
  · rw [(inner.kinds (d + 1) (le_refl _) inside).resolve_left stays, nodeOf_next id lt,
      if_neg nonzero]
  · refine inner.same _ (.inl tree) (fun mem => inv.apart _ tree (inv.data_of_mem mem))
      (fun is => inv.apart _ tree ⟨nonzero, id, is.symm⟩) fun j low small is => ?_
    have := (inv.inj d lt _ (pre_lt id lt.le) j small _ (pre_lt id small.le) nonzero is).1
    omega

theorem Removed.extend :
    ∃ h2 b' F'', unlinkSon h1 (nodeOf h d (pre id d)) (view h (nodeOf h d (pre id d)))
    (getIndex id d)
      (path (d + 1)) = (h2, b') ∧ Removed h h2 id F'' L L' d (update path d b') i := by
  have nonzero := node_of_home live lt.le
  let node := nodeOf h d (pre id d)
  have tree : IsTree h (node) := isTree_node lt (pre_lt id lt.le) nonzero
  obtain ⟨h2, b', ran, unlinked⟩ :=
    unlinkSon_spec (k := getIndex id d) (inv.pool.lt_bound (.inl tree)) nonzero
    (inner.there lt inv live)
  have notHome : node ≠ home h id := fun is => inv.apart _ tree ⟨nonzero, id, is.symm⟩
  have outside : node ∉ L := fun mem => inv.apart _ tree (inv.data_of_mem mem)
  have apart : ∀ j, d < j → j < 4 → node ≠ nodeOf h j (pre id j) := by
    intro j more small is
    have := (inv.inj d lt _ (pre_lt id lt.le) j small _ (pre_lt id small.le) nonzero is).1
    omega
  have deeper : ∀ j, d < j → update path d b' j = path j :=
    fun j more => update_of_ne (by omega) _ _
  have ownUse : InUse h (node) ∧
      (node = home h id → 1 < used (view h (node))) ∧
      ∀ j, d + 1 ≤ j → j < 4 → node = nodeOf h j (pre id j) → path j ≠ 0 :=
    ⟨.inl tree, fun is => absurd is notHome, fun j more small is => absurd is (apart j more small)⟩
  -- at this depth the condition is about this block alone
  have uses : ∀ c, (∀ j, d ≤ j → j < 4 → c = nodeOf h j (pre id j) → update path d b' j ≠ 0) ↔
      (∀ j, d + 1 ≤ j → j < 4 → c = nodeOf h j (pre id j) → path j ≠ 0) ∧
        (c = node → b' ≠ 0) := by
    intro c
    constructor
    · intro all
      refine ⟨fun j low small is => deeper j low ▸ all j (by omega) small is, fun is => ?_⟩
      rw [← update_self d b' path]
      exact all d (le_refl d) lt is
    · rintro ⟨below, here⟩
      exact update_from (fun _ => here) below
  obtain ⟨F'', pool⟩ : ∃ F'', Pool h2 (fun c => InUse h c ∧ (c = home h id → 1 < used (view h c)) ∧
      ∀ j, d ≤ j → j < 4 → c = nodeOf h j (pre id j) → update path d b' j ≠ 0) F'' := by
    by_cases gone : b' = 0
    · obtain ⟨-, -, -, buf', is⟩ := unlinked.gone gone
      obtain ⟨pool, -⟩ := putFreeDqblk_spec inner.pool buf' ownUse
      rw [← is] at pool
      refine ⟨_, pool.of_iff fun c => ?_⟩
      rw [uses c]
      simp only [gone, ne_eq, not_true_eq_false, imp_false, and_assoc]
    · refine ⟨F',
          Pool.of_iff (inner.pool.congr unlinked.blocks (unlinked.kept gone).2.2 fun c mem =>
        unlinked.other c fun is => inner.pool.free c mem (is ▸ ownUse)) fun c => ?_⟩
      rw [uses c]
      simp only [gone, ne_eq, not_false_eq_true, implies_true, and_true]
  refine ⟨h2, b', F'', ran, by rw [deeper 4 lt, inner.last],
    update_from (fun _ => or_iff_not_imp_left.mpr fun stays => (unlinked.kept stays).1) inner.kinds,
    update_from (fun _ is gone => (unlinked.gone gone).2.1 is) inner.root, fun j low => ?_,
    fun j low => ?_, ?_, pool,
    fun c own out ne away => ?_, unlinked.blocks.trans inner.blocks⟩
  · rw [deeper (j + 1) (by omega)]
    refine update_from (fun _ stays => ?_) (fun j more small stays => ?_) j low
    · obtain ⟨is, refs, -⟩ := unlinked.kept stays
      rwa [is]
    · have is := (inner.kinds j more small).resolve_left stays
      rw [unlinked.other (path j) (is ▸ (apart j more small).symm)]
      exact inner.refs j more small stays
  · rw [deeper (j + 1) (by omega)]
    refine update_from (fun _ gone => ?_) inner.cut j low
    obtain ⟨son, -, empty, -⟩ := unlinked.gone gone
    exact ⟨son, empty⟩
  · refine inner.dropped.later unlinked.head fun c either => unlinked.other c ?_
    rcases either with is | mem
    · exact fun is' => notHome (is'.symm.trans is)
    · exact fun is' => outside (is' ▸ mem)
  · rw [unlinked.other c (away d (le_refl d) lt),
      inner.same c own out ne fun j low small => away j (by omega) small]

end

theorem removeTree_spec (levels : Nat) (le : levels ≤ 3) (inv : Inv h m F L place)
    (live : home h id ≠ 0) (lt : i < 14) (filled : slot (view h (home h id)) i ≠ blank) :
    ∃ h' path F' L', removeTree id (1024 * home h id + 16 + 72 * i) levels h
        (nodeOf h (3 - levels) (pre id (3 - levels))) = (h', path (3 - levels)) ∧
      Removed h h' id F' L L' (3 - levels) path i := by
  have inside : ∀ d < 4, nodeOf h d (pre id d) < 2 ^ 22 := fun d lt =>
    inv.pool.lt_bound (.inl (isTree_node lt (pre_lt id lt.le) (node_of_home live lt.le)))
  induction levels with
  | zero =>
    have lt3 : 3 < 4 := by decide
    have data : IsData h (home h id) := ⟨live, id, rfl⟩
    have next : ref (view h (nodeOf h 3 (pre id 3))) (getIndex id 3) = home h id := by
      rw [home_eq, nodeOf_next id lt3, if_neg (node_of_home live lt3.le)]
    obtain ⟨L', F', freed⟩ := freeDqentry_spec (b := home h id) (i := i) inv.pool inv.partly
      (fun c mem => .inr (inv.data_of_mem mem)) (.inr data) lt filled (inv.counts _ data)
      ((inv.members _).trans (and_iff_right data))
    obtain ⟨h2, b', F'', is, removed⟩ := freed.removed.extend lt3 inv live
    refine ⟨h2, _, F'', L', ?_, removed⟩
    simp only [removeTree, readBlk_eq (inside 3 lt3), next]
    rw [is, update_self]
  | succ levels ih =>
    obtain ⟨d, isd⟩ : ∃ d, d = 3 - (levels + 1) := ⟨_, rfl⟩
    have ltd : d < 4 := by omega
    have up : 3 - levels = d + 1 := by omega
    rw [← isd]
    rw [up] at ih
    obtain ⟨h1, path, F', L', removed, inner⟩ := ih (by omega)
    rw [nodeOf_next id ltd, if_neg (node_of_home live ltd.le)] at removed
    obtain ⟨h2, b', F'', is, removed'⟩ := inner.extend ltd inv live
    refine ⟨h2, _, F'', L', ?_, removed'⟩
    simp only [removeTree, show 2 - levels = d by omega, readBlk_eq (inside d ltd), removed]
    rw [is, update_self]

end Path

section Delete

section

variable (inv : Inv h m F L place) (live : home h id ≠ 0)
include inv live

theorem Inv.place_inj {id' : UInt32} (same : Quota.home h id = Quota.home h id')
    (same' : place id = place id') : id = id' := by
  have record :
      ∀ x, Quota.home h x ≠ 0 → ∃ v, slot (view h (Quota.home h x)) (place x) = mem2disk x v := by
    intro x there
    cases found : m x with
    | none => exact absurd (inv.absent x found) there
    | some v => exact ⟨v, (inv.stored x v found).2.2.2⟩
  obtain ⟨v, is⟩ := record id live
  obtain ⟨v', is'⟩ := record id' (same ▸ live)
  rw [← same, ← same', is] at is'
  have := congrArg diskId is'
  rwa [diskId_mem2disk, diskId_mem2disk] at this

theorem Inv.live_slot : place id < 14 ∧ slot (view h (Quota.home h id)) (place id) ≠ blank := by
  rcases found : m id with _ | v
  · exact absurd (inv.absent id found) live
  obtain ⟨used, -, lt, is⟩ := inv.stored id v found
  exact ⟨lt, is ▸ mem2disk_not_blank used⟩

theorem Inv.more_iff : 1 < used (view h (Quota.home h id)) ↔
    ∃ id', id' ≠ id ∧ Quota.home h id' = Quota.home h id := by
  obtain ⟨lt, filled⟩ := inv.live_slot live
  constructor
  · intro more
    obtain ⟨k, mem, ne⟩ := exists_mem_ne more (place id)
    rw [mem_filter, mem_range] at mem
    obtain ⟨id', isHome, isPlace⟩ := inv.owned _ k ⟨live, id, rfl⟩ mem.1 mem.2
    refine ⟨id', ?_, isHome⟩
    rintro rfl
    exact ne isPlace.symm
  · rintro ⟨id', ne, same⟩
    obtain ⟨lt', filled'⟩ := inv.live_slot fun zero => live (same.symm.trans zero)
    rw [same] at filled'
    apply one_lt_card.mpr
    refine ⟨place id, mem_filter.mpr ⟨mem_range.mpr lt, filled⟩, place id',
      mem_filter.mpr ⟨mem_range.mpr lt', filled'⟩, fun samePlace => ?_⟩
    exact ne (inv.place_inj live same.symm samePlace).symm

end

section

variable (removed : Removed h h' id F' L L' 0 path i) (inv : Inv h m F L place)
  (live : Quota.home h id ≠ 0)
include removed inv live

theorem Removed.nodes :
    ∀ d ≤ 4, ∀ p < 256 ^ d, nodeOf h' d p = if p = pre id d then path d else nodeOf h d p := by
  refine Radix.node_path (fun d lt => pre_div id lt) ?_ (fun d lt p small ne nonzero k _ => ?_)
    (fun d lt stays k lt' => ?_) fun d lt gone => ?_
  · exact (removed.kinds 0 (le_refl 0) (by decide)).resolve_left
      (removed.root 0 (le_refl 0) (by decide) rfl)
  · have tree := isTree_node (h := h) lt small nonzero
    have same := removed.same _ (.inl tree) (fun mem => inv.apart _ tree (inv.data_of_mem mem))
      (fun is => inv.apart _ tree ⟨nonzero, id, is.symm⟩) fun j _ lt' is => ?_
    · rw [nodeOf] at same
      rw [same]
    · obtain ⟨rfl, rfl⟩ := inv.inj d lt p small j lt' _ (pre_lt id lt'.le) nonzero is
      exact ne rfl
  · have there : Radix.node 256 (fun b i => ref (view h b) i) treeoff d (pre id d) ≠ 0 :=
      node_of_home live lt.le
    rw [← getIndex_eq, if_neg there]
    exact removed.refs d (Nat.zero_le d) lt stays k lt'
  · obtain ⟨next, empty⟩ := removed.cut d (Nat.zero_le d) lt gone
    rw [← getIndex_eq]
    exact ⟨next, fun k lt' other _ => empty k lt' other⟩

theorem Removed.isTree (b : Nat) :
    IsTree h' b ↔ IsTree h b ∧ ∀ j, 0 ≤ j → j < 4 → b = nodeOf h j (pre id j) → path j ≠ 0 := by
  have nodes := removed.nodes inv live
  constructor
  · rintro ⟨nonzero, d, lt, p, small, is⟩
    rw [nodes d lt.le p small] at is
    by_cases on : p = pre id d
    · rw [if_pos on] at is
      have same := (removed.kinds d (Nat.zero_le d) lt).resolve_left (by rwa [is])
      rw [is] at same
      refine ⟨⟨nonzero, d, lt, pre id d, pre_lt id lt.le, same.symm⟩, fun j _ lt' same' => ?_⟩
      obtain ⟨rfl, -⟩ :=
        inv.inj d lt _ (pre_lt id lt.le) j lt' _ (pre_lt id lt'.le) (same ▸ nonzero)
        (same.symm.trans same')
      rwa [is]
    · rw [if_neg on] at is
      refine ⟨⟨nonzero, d, lt, p, small, is⟩, fun j _ lt' same' => ?_⟩
      obtain ⟨rfl, rfl⟩ :=
        inv.inj d lt p small j lt' _ (pre_lt id lt'.le) (is ▸ nonzero) (is.trans same')
      exact absurd rfl on
  · rintro ⟨⟨nonzero, d, lt, p, small, is⟩, stays⟩
    refine ⟨nonzero, d, lt, p, small, ?_⟩
    rw [nodes d lt.le p small]
    split_ifs with on
    · subst on
      rw [(removed.kinds d (Nat.zero_le d) lt).resolve_left (stays d (Nat.zero_le d) lt is.symm),
        is]
    · exact is

theorem Removed.home (id' : UInt32) :
    Quota.home h' id' = if id' = id then 0 else Quota.home h id' := by
  have same : pre id' 4 = pre id 4 ↔ id' = id := by
    rw [pre_four, pre_four, UInt32.toNat_inj]
  rw [home_eq, removed.nodes inv live 4 (le_refl 4) _ (pre_lt id' (le_refl 4)), ← home_eq,
    removed.last]
  simp only [same]

theorem Removed.isData (b : Nat) :
    IsData h' b ↔ IsData h b ∧ (b = Quota.home h id → 1 < used (view h b)) := by
  constructor
  · rintro ⟨nonzero, id', is⟩
    rw [removed.home inv live] at is
    have ne : id' ≠ id := by
      rintro rfl
      rw [if_pos rfl] at is
      exact nonzero is.symm
    rw [if_neg ne] at is
    refine ⟨⟨nonzero, id', is⟩, fun same => ?_⟩
    rw [same]
    exact (inv.more_iff live).mpr ⟨id', ne, is.trans same⟩
  · rintro ⟨⟨nonzero, id', is⟩, more⟩
    by_cases same : id' = id
    · subst same
      obtain ⟨id'', ne, is'⟩ := (inv.more_iff live).mp (is ▸ more is.symm)
      refine ⟨nonzero, id'', ?_⟩
      rw [removed.home inv live, if_neg ne, is', is]
    · refine ⟨nonzero, id', ?_⟩
      rw [removed.home inv live, if_neg same, is]

theorem Removed.records {b : Nat} (data : IsData h b) (ne : b ≠ Quota.home h id) :
    SameRecords (view h' b) (view h b) := by
  by_cases mem : b ∈ L
  · exact removed.dropped.others b mem ne
  · rw [removed.same b (.inr data) mem ne fun j _ lt is => ?_]
    · exact SameRecords.refl _
    · exact inv.apart b (is ▸ isTree_node lt (pre_lt id lt.le) (node_of_home live lt.le)) data

theorem Removed.inUse (c : Nat) :
    InUse h' c ↔ InUse h c ∧ (c = Quota.home h id → 1 < used (view h c)) ∧
    ∀ j, 0 ≤ j → j < 4 → c = nodeOf h j (pre id j) → path j ≠ 0 := by
  rw [InUse, removed.isTree inv live, removed.isData inv live, InUse, or_and_right]
  refine or_congr (and_congr_right fun tree => (and_iff_right fun is => ?_).symm)
    (and_congr_right fun data => (and_iff_left fun j _ lt is => ?_).symm)
  · exact absurd ⟨tree.1, id, is.symm⟩ (inv.apart c tree)
  · exact absurd data
      (inv.apart c (is ▸ isTree_node lt (pre_lt id lt.le) (node_of_home live lt.le)))

theorem Removed.node_eq {d p : Nat} (lt : d < 4) (small : p < 256 ^ d)
    (nonzero : nodeOf h' d p ≠ 0) : nodeOf h' d p = nodeOf h d p := by
  rw [removed.nodes inv live d lt.le p small] at nonzero ⊢
  split_ifs with on
  · rw [if_pos on] at nonzero
    rw [on]
    exact (removed.kinds d (Nat.zero_le d) lt).resolve_left nonzero
  · rfl

end

section

variable (removed : Removed h h' id F' L L' 0 path (place id)) (inv : Inv h m F L place)
  (live : Quota.home h id ≠ 0)
include removed inv live

theorem Removed.used (more : 1 < used (view h (Quota.home h id))) :
    Quota.used (view h (Quota.home h id)) = Quota.used (view h' (Quota.home h id)) + 1 := by
  obtain ⟨lt, filled⟩ := inv.live_slot live
  refine used_fill lt ?_ filled fun j small ne => ?_
  · rw [removed.dropped.slots more _ lt, if_pos rfl]
  · rw [removed.dropped.slots more _ small, if_neg ne]

theorem Removed.members (b : Nat) : b ∈ L' ↔ IsData h' b ∧ Quota.used (view h' b) < 14 := by
  rw [removed.dropped.members b, removed.isData inv live b]
  by_cases own : b = Quota.home h id
  · have fewer := removed.used inv live
    have le := used_le (view h (Quota.home h id))
    rw [own]
    simp only [ne_eq, not_true_eq_false, and_false, true_and, false_or, forall_const]
    constructor
    · intro more
      exact ⟨⟨⟨live, id, rfl⟩, more⟩, by omega⟩
    · exact fun all => all.1.2
  · rw [inv.members b]
    simp only [own, ne_eq, not_false_eq_true, and_true, false_and, or_false, false_imp_iff]
    exact and_congr_right fun data => by rw [used_congr (removed.records inv live data own).2]

theorem Removed.counts {b : Nat} (data : IsData h' b) :
    entries (view h' b) = Quota.used (view h' b) := by
  obtain ⟨data, more⟩ := (removed.isData inv live b).mp data
  by_cases own : b = Quota.home h id
  · have more := more own
    rw [own] at more ⊢
    have fewer := removed.used inv live more
    rw [removed.dropped.entries more]
    omega
  · have same := removed.records inv live data own
    rw [same.1, inv.counts b data, used_congr same.2]

theorem Removed.stored {id' : UInt32} {v : Dqblk} (mine : update m id none id' = some v) :
    v.Used ∧ Quota.home h' id' ≠ 0 ∧ place id' < 14 ∧
      slot (view h' (Quota.home h' id')) (place id') = mem2disk id' v := by
  have ne : id' ≠ id := by
    rintro rfl
    simp at mine
  rw [update_of_ne ne] at mine
  obtain ⟨usedv, nonzero, small, stored⟩ := inv.stored id' v mine
  rw [removed.home inv live, if_neg ne]
  refine ⟨usedv, nonzero, small, ?_⟩
  by_cases own : Quota.home h id' = Quota.home h id
  · have more := (inv.more_iff live).mpr ⟨id', ne, own⟩
    rw [own] at stored ⊢
    rw [removed.dropped.slots more _ small, if_neg, stored]
    exact fun same => ne (inv.place_inj nonzero own same)
  · rw [(removed.records inv live ⟨nonzero, id', rfl⟩ own).2 _ small, stored]

theorem Removed.owned {b j : Nat} (data : IsData h' b) (small : j < 14)
    (busy : slot (view h' b) j ≠ blank) : ∃ id', Quota.home h' id' = b ∧ place id' = j := by
  obtain ⟨data, more⟩ := (removed.isData inv live b).mp data
  have known : slot (view h b) j ≠ blank ∧ (b = Quota.home h id → j ≠ place id) := by
    by_cases own : b = Quota.home h id
    · rw [own, removed.dropped.slots (own ▸ more own) j small] at busy
      by_cases mine : j = place id
      · rw [if_pos mine] at busy
        exact absurd rfl busy
      · rw [if_neg mine] at busy
        exact ⟨own ▸ busy, fun _ => mine⟩
    · rw [(removed.records inv live data own).2 j small] at busy
      exact ⟨busy, fun is => absurd is own⟩
  obtain ⟨id', isHome, isPlace⟩ := inv.owned b j data small known.1
  have ne : id' ≠ id := by
    rintro rfl
    exact known.2 isHome.symm isPlace.symm
  exact ⟨id', by rw [removed.home inv live, if_neg ne, isHome], isPlace⟩

end

theorem Inv.delete (inv : Inv h m F L place) (live : Quota.home h id ≠ 0)
    (removed : Removed h h' id F' L L' 0 path (place id)) :
    Inv h' (update m id none) F' L' place := by
  have datas := removed.isData inv live
  refine ⟨removed.pool.of_iff (removed.inUse inv live), removed.dropped.partly, ?_,
    fun b tree data => ?_,
    removed.members inv live, fun b => removed.counts inv live, fun id' v =>
      removed.stored inv live,
    fun id' none => ?_, fun b j => removed.owned inv live, fun b data =>
      inv.small b ((datas b).mp data).1⟩
  · intro d lt p below d' lt' p' below' nonzero same
    have first := removed.node_eq inv live lt below nonzero
    have second := removed.node_eq inv live lt' below' (same ▸ nonzero)
    exact inv.inj d lt p below d' lt' p' below' (first ▸ nonzero)
      (first.symm.trans (same.trans second))
  · exact inv.apart b ((removed.isTree inv live b).mp tree).1 ((datas b).mp data).1
  · rw [removed.home inv live]
    split_ifs with ne
    · rfl
    · rw [update_of_ne ne] at none
      exact inv.absent id' none

end Delete

end E2fs.Quota
