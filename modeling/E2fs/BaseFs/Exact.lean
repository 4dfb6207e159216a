import E2fs.BaseFs.Pools

/-! No block is handed out twice and none is lost. A block reserved for one file stays in the list
of some file until it is handed out or free, so that the clean-up finds it. -/
namespace E2fs.BaseFs
open Word Run List Function

variable {pool' : Nat → Pool} {i : Nat} {rest : List BlockRange}

section History

variable {geo : Geometry} {used : Bits} {out : List Nat} {pool : Nat → Pool} {b c : Nat}

structure History (geo : Geometry) (used : Bits) (out : List Nat) (pool : Nat → Pool) : Prop where
  used : ∀ c, Inside geo c → (pool c = .used ↔ used c = true)
  handed : ∀ c, Inside geo c → (pool c = .handed ↔ ∃ b ∈ out, cluster geo b = c)

def Fresh (geo : Geometry) (used : Bits) (out : List Nat) (b : Nat) : Prop :=
  b < geo.blocksCount ∧ used (cluster geo b) = false ∧ ∀ b' ∈ out, cluster geo b' ≠ cluster geo b

def Kept (p : Pool) : Prop := p = .used ∨ p = .handed

section

variable (history : History geo used out pool)
include history

theorem History.fresh (high : b < geo.blocksCount) (inside : Inside geo (cluster geo b))
    (open_ : ¬ Kept (pool (cluster geo b))) : Fresh geo used out b := by
  refine ⟨high, ?_, fun b' mem same => open_ (.inr ((history.handed _ inside).mpr ⟨b', mem, same⟩))⟩
  by_contra set
  exact open_ (.inl ((history.used _ inside).mpr (by simpa using set)))

theorem History.hand (open_ : ¬ Kept (pool (cluster geo b))) :
    History geo used (out ++ [b]) (update pool (cluster geo b) .handed) where
  used := fun c inside => by
    rcases eq_or_ne c (cluster geo b) with rfl | other
    · rw [update_self, ← history.used _ inside]
      exact iff_of_false nofun fun is => open_ (.inl is)
    · rw [update_of_ne other, history.used c inside]
  handed := fun c inside => by
    rcases eq_or_ne c (cluster geo b) with rfl | other
    · rw [update_self]
      exact iff_of_true rfl ⟨b, by simp, rfl⟩
    · rw [update_of_ne other, history.handed c inside]
      simp [other.symm]

theorem History.moved
    (same : ∀ c, Inside geo c → pool' c = pool c ∨ ¬ Kept (pool c) ∧ ¬ Kept (pool' c)) :
    History geo used out pool' where
  used := fun c inside => by
    rw [← history.used c inside]
    rcases same c inside with is | ⟨before, after⟩
    · rw [is]
    · exact iff_of_false (fun is => after (.inl is)) fun is => before (.inl is)
  handed := fun c inside => by
    rw [← history.handed c inside]
    rcases same c inside with is | ⟨before, after⟩
    · rw [is]
    · exact iff_of_false (fun is => after (.inr is)) fun is => before (.inr is)

end

theorem freed_cases (geo : Geometry) (pool : Nat → Pool) (blocks : List Nat) (c : Nat) :
    freed geo pool blocks c = pool c ∨ ¬ Kept (pool c) ∧ ¬ Kept (freed geo pool blocks c) := by
  rw [freed]
  split_ifs with is
  · exact .inr ⟨by simp [is.1, Kept], by simp [Kept]⟩
  · exact .inl rfl

theorem freed_exclusive {blocks : List Nat} (is : freed geo pool blocks c = .exclusive) :
    pool c = .exclusive ∧ c ∉ blocks.map (cluster geo) := by
  rw [freed] at is
  split at is
  · cases is
  · rename_i other
    exact ⟨is, fun mem => other ⟨is, mem⟩⟩

end History

section Covered

variable {geo : Geometry} {pool pool' : Nat → Pool} {s : State}

def Covered (geo : Geometry) (pool : Nat → Pool) (entries : List Entry) : Prop :=
  ∀ c, Inside geo c → pool c = .exclusive →
    ∃ i : Nat, ∃ e : Entry, entries[i]? = some e ∧ ∃ b ∈ listed e.blocks, b < geo.blocksCount ∧
      cluster geo b = c

theorem Covered.setList (covered : Covered geo pool s.entries)
    (sub : ∀ c, Inside geo c → pool' c = .exclusive → pool c = .exclusive)
    (gone : ∀ b ∈ listed (s.list i), b < geo.blocksCount → Inside geo (cluster geo b) →
      b ∉ listed rest →
      pool' (cluster geo b) ≠ .exclusive) : Covered geo pool' (s.setList i rest).entries := by
  intro c inside is
  obtain ⟨j, e, at_, b, mem, high, rfl⟩ := covered c inside (sub c inside is)
  rcases eq_or_ne i j with rfl | other
  · refine ⟨i, { e with blocks := rest }, by simp [State.setList, at_], b, ?_, high, rfl⟩
    by_contra absent
    exact gone b (by simpa [State.list, at_] using mem) high inside absent is
  · exact ⟨j, e, by simp [State.setList, at_, other], b, mem, high, rfl⟩

end Covered

section Invariant

variable {geo : Geometry} {used : Bits} {out : List Nat} {pool : Nat → Pool} {s : State}

structure Inv (geo : Geometry) (used : Bits) (out : List Nat) (s : State) (pool : Nat → Pool) :
    Prop where
  shows : Show geo s.maps pool
  history : History geo used out pool
  covered : Covered geo pool s.entries
  bounded : ∀ i, Bounded (s.list i)

theorem Inv.bounded_set (inv : Inv geo used out s pool) (bounded : Bounded rest) (i j : Nat) :
    Bounded ((s.setList i rest).list j) := by
  have old := inv.bounded j
  rw [State.list] at old ⊢
  simp only [State.setList, getElem?_modify]
  rcases is : s.entries[j]? with _ | e
  · simp [Bounded]
  rw [is] at old
  by_cases same : i = j
  · simpa [same] using bounded
  · simpa [same] using old

def Took (geo : Geometry) (used : Bits) (out : List Nat) : State × Option Nat → Prop
  | (s, some b) => Fresh geo used out b ∧ ∃ pool, Inv geo used (out ++ [b]) s pool
  | (s, none) => ∃ pool, Inv geo used out s pool

theorem Inv.consumed {maps' : Maps} {out' : List Nat} {b n : Nat}
    (inv : Inv geo used out s pool) (took : consumeNextBlock (s.list i) = some (b, rest))
    (shows : Show geo maps' pool')
    (history : History geo used out' pool')
    (sub : ∀ c, Inside geo c → pool' c = .exclusive → pool c = .exclusive)
    (there : b < geo.blocksCount → Inside geo (cluster geo b) →
      pool' (cluster geo b) ≠ .exclusive) :
    Inv geo used out' { s.setList i rest with maps := maps', nextLblk := n } pool' := by
  obtain ⟨boundedRest, blocks⟩ := consumeNextBlock_some (inv.bounded i) took
  refine ⟨shows, history, inv.covered.setList sub ?_, inv.bounded_set boundedRest i⟩
  intro q mem high inside absent
  rw [blocks, mem_cons, or_iff_left absent] at mem
  subst mem
  exact there high inside

theorem update_handed_exclusive {c c' : Nat} (is : update pool c .handed c' = .exclusive) :
    pool c' = .exclusive := by
  rcases eq_or_ne c' c with rfl | other
  · rw [update_self] at is
    cases is
  · rwa [update_of_ne other] at is

section

variable (inv : Inv geo used out s pool)
include inv

theorem Inv.getNext (i : Nat) : Took geo used out (getNextBlock geo s i) := by
  rw [getNextBlock]
  rcases took : consumeNextBlock (s.list i) with _ | next
  · exact ⟨pool, inv⟩
  obtain ⟨b, rest⟩ := next
  -- What is handed out was reserved.
  have hand : ∀ {maps' : Maps}, b < geo.blocksCount → Inside geo (cluster geo b) →
      ¬ Kept (pool (cluster geo b)) → Show geo maps' (update pool (cluster geo b) .handed) →
      Took geo used out ({ s.setList i rest with maps := maps' }, some b) :=
          fun high inside open_ shows =>
    ⟨inv.history.fresh high inside open_, _, inv.consumed took shows (inv.history.hand open_)
      (fun _ _ => update_handed_exclusive) fun _ _ => by rw [update_self]; nofun⟩
  dsimp only
  split
  · rename_i beyond
    exact ⟨pool, inv.consumed took inv.shows inv.history (fun _ _ is => is) fun high =>
      absurd high (Nat.not_lt.mpr beyond)⟩
  rename_i high
  rw [ge_iff_le, not_le] at high
  split
  · rename_i set
    change testBlockBitmap2 geo s.maps.exclusive b = true at set
    have inside := inside_of_test set
    rw [inv.shows.test_exclusive inside, decide_eq_true_eq] at set
    exact hand high inside (by simp [set, Kept]) (inv.shows.hand_exclusive inside set)
  · rename_i notExclusive
    change ¬ testBlockBitmap2 geo s.maps.exclusive b = true at notExclusive
    split_ifs with set
    · change testBlockBitmap2 geo s.maps.dedup b = true at set
      have inside := inside_of_test set
      rw [inv.shows.test_dedup inside, decide_eq_true_eq] at set
      exact hand high inside (by simp [set, Kept]) (inv.shows.hand_dedup inside set)
    · refine ⟨pool, inv.consumed took inv.shows inv.history (fun _ _ is => is)
        fun _ inside is => ?_⟩
      rw [inv.shows.test_exclusive inside, is] at notExclusive
      exact notExclusive rfl

theorem Inv.skip (lblk i fuel : Nat) :
    ∃ pool, Inv geo used out (skipLoop geo lblk i fuel s) pool := by
  induction fuel generalizing s pool with
  | zero => exact ⟨pool, inv⟩
  | succ fuel ih =>
    rw [skipLoop]
    rcases took : consumeNextBlock (s.list i) with _ | next
    · exact ⟨pool, inv⟩
    obtain ⟨b, rest⟩ := next
    dsimp only
    split
    · split_ifs with beyond
      · exact ih (inv.consumed took inv.shows inv.history (fun _ _ is => is) fun high =>
          absurd high (Nat.not_lt.mpr beyond))
      · refine ih (inv.consumed took (inv.shows.release b)
          (inv.history.moved fun c _ => freed_cases geo pool [b] c)
            (fun _ _ is => (freed_exclusive is).1) fun _ _ is => ?_)
        exact (freed_exclusive is).2 (by simp)
    · exact ⟨pool, inv⟩

theorem Inv.takeListed (ctx : Option Ctx) : Took geo used out (fromList geo s ctx) := by
  unfold fromList
  split
  · rename_i i ctx _
    split
    · have skipped : ∃ pool, Inv geo used out
          (if s.nextLblk < ctx.lblk then skipBlocks geo s i ctx.lblk else s) pool := by
        split
        · exact inv.skip ctx.lblk i _
        · exact ⟨pool, inv⟩
      generalize (if s.nextLblk < ctx.lblk then skipBlocks geo s i ctx.lblk else s) = s' at skipped
      obtain ⟨pool', inv'⟩ := skipped
      have next : Inv geo used out { s' with nextLblk := add64 ctx.lblk 1 } pool' :=
        { inv' with }
      exact next.getNext i
    · exact ⟨pool, inv⟩
  · exact ⟨pool, inv⟩

def After (geo : Geometry) (used : Bits) (out : List Nat) (s : State) : Answer → Prop
  | .block b => Fresh geo used out b ∧ ∃ pool, Inv geo used (out ++ [b]) s pool
  | .nullPointer => False
  | _ => ∃ pool, Inv geo used out s pool

theorem Inv.last (i fuel : Nat) :
    After geo used out (lastResort geo i fuel s).1 (lastResort geo i fuel s).2 := by
  induction fuel generalizing s pool with
  | zero => exact ⟨pool, inv⟩
  | succ fuel ih =>
    rw [lastResort]
    split
    · exact ⟨pool, inv⟩
    have took := inv.getNext i
    generalize getNextBlock geo s i = next at took
    obtain ⟨s', _ | b⟩ := next
    · obtain ⟨pool', inv'⟩ := took
      exact ih inv'
    · exact took

end

theorem getNextBlock_curEntry (s : State) (i : Nat) :
    (getNextBlock geo s i).1.curEntry = s.curEntry := by
  unfold getNextBlock
  split
  · rfl
  · dsimp only
    split_ifs <;> rfl

theorem skipLoop_curEntry (lblk i fuel : Nat) (s : State) :
    (skipLoop geo lblk i fuel s).curEntry = s.curEntry := by
  induction fuel generalizing s with
  | zero => rfl
  | succ fuel ih =>
    rw [skipLoop]
    split
    · rfl
    · split_ifs
      · exact ih _
      · exact ih _
      · rfl

theorem fromList_curEntry (s : State) (ctx : Option Ctx) :
    (fromList geo s ctx).1.curEntry = s.curEntry := by
  unfold fromList
  split
  · split
    · rw [getNextBlock_curEntry]
      split
      · exact skipLoop_curEntry _ _ _ s
      · rfl
    · rfl
  · rfl

/- The file is in the base map, a block is free, or one is left that several files had. -/
def Served (geo : Geometry) (s : State) : Op → Prop
  | .alloc _ _ => s.curEntry ≠ none ∨
      (∃ b < geo.blocksCount, geo.firstDataBlock ≤ b ∧
        testBlockBitmap2 geo s.maps.blockMap b = false) ∨
      ∃ b < geo.blocksCount, geo.firstDataBlock ≤ b ∧ testBlockBitmap2 geo s.maps.dedup b = true
  | _ => True

instance (geo : Geometry) (s : State) : (op : Op) → Decidable (Served geo s op)
  | .alloc _ _ => inferInstanceAs (Decidable (_ ∨ _ ∨ _))
  | .setTarget _ _ => inferInstanceAs (Decidable True)
  | .unsetTarget _ => inferInstanceAs (Decidable True)

theorem Inv.alloc (inv : Inv geo used out s pool) (goal : Nat) (ctx : Option Ctx)
    (served : Served geo s (.alloc goal ctx)) :
    After geo used out (basefsBlockAllocator geo s goal ctx).1
      (basefsBlockAllocator geo s goal ctx).2 := by
  have took := inv.takeListed ctx
  have cur := @fromList_curEntry geo s ctx
  rw [basefsBlockAllocator]
  have same : s.curEntry = none → (fromList geo s ctx).1 = s := fun none => by
    unfold fromList
    rw [none]
  generalize fromList geo s ctx = next at took cur same
  obtain ⟨s', _ | b⟩ := next
  · obtain ⟨pool', inv'⟩ := took
    dsimp only at cur same ⊢
    have lt := geo.first_lt
    cases new : newBlock2 geo goal s'.maps.blockMap with
    | some b =>
      obtain ⟨low, high, free⟩ := newBlock2_some new
      have inside := cluster_inside low high
      rw [inv'.shows.test_blockMap inside] at free
      have is : pool' (cluster geo b) = .free := by simpa using free
      have open_ : ¬ Kept (pool' (cluster geo b)) := by simp [is, Kept]
      exact ⟨inv'.history.fresh high inside open_, _, inv'.shows.hand_free inside is,
        inv'.history.hand open_,
        fun c at_ excl => inv'.covered c at_ (update_handed_exclusive excl), inv'.bounded⟩
    | none =>
      cases steal : findFirst (testBlockBitmap2 geo s'.maps.dedup) geo.firstDataBlock
          (geo.blocksCount - 1) with
      | some b =>
        obtain ⟨low, high, set⟩ := findFirst_some steal
        have inside := cluster_inside low (show b < geo.blocksCount by omega)
        rw [inv'.shows.test_dedup inside, decide_eq_true_eq] at set
        have open_ : ¬ Kept (pool' (cluster geo b)) := by simp [set, Kept]
        exact ⟨inv'.history.fresh (by omega) inside open_, _, inv'.shows.hand_dedup inside set,
          inv'.history.hand open_,
          fun c at_ excl => inv'.covered c at_ (update_handed_exclusive excl), inv'.bounded⟩
      | none =>
        cases entry : s'.curEntry with
        | some i => exact inv'.last i _
        | none =>
          rw [entry] at cur
          have unchanged := same cur.symm
          subst unchanged
          rcases served with there | ⟨b, high, low, free⟩ | ⟨b, high, low, set⟩
          · exact absurd entry there
          · rw [newBlock2_none new low high] at free
            cases free
          · rw [findFirst_none.mp steal b low (by omega)] at set
            cases set
  · exact took

theorem Inv.unsetTarget (inv : Inv geo used out s pool) (regular : Bool) :
    ∃ pool, Inv geo used out (baseFsAllocUnsetTarget geo s regular) pool := by
  unfold baseFsAllocUnsetTarget
  split
  · exact ⟨pool, inv⟩
  rename_i i _
  split
  · refine ⟨freed geo pool (listed (s.list i)), inv.shows.freeRange (inv.bounded i),
      inv.history.moved fun c _ => freed_cases geo pool _ c,
      inv.covered.setList (fun _ _ is => (freed_exclusive is).1) ?_,
      inv.bounded_set (by simp [Bounded]) i⟩
    intro b mem _ _ _ is
    exact (freed_exclusive is).2 (mem_map_of_mem mem)
  · exact ⟨pool, inv⟩

theorem Inv.next (inv : Inv geo used out s pool) (op : Op) (served : Served geo s op) :
    After geo used out (step geo s op).1 (step geo s op).2 := by
  cases op with
  | setTarget path regular =>
    refine ⟨pool, ?_⟩
    change Inv geo used out (baseFsAllocSetTarget s path regular) pool
    rw [baseFsAllocSetTarget]
    split
    · exact { inv with }
    · exact inv
  | alloc goal ctx => exact inv.alloc goal ctx served
  | unsetTarget regular => exact inv.unsetTarget regular

/- A call that is not served reads through a null pointer. -/
theorem step_not_served {op : Op} (not : ¬ Served geo s op) : (step geo s op).2 = .nullPointer := by
  cases op with
  | setTarget | unsetTarget => exact absurd trivial not
  | alloc goal ctx =>
    rw [Served, not_or, not_or, not_not] at not
    obtain ⟨entry, full, empty⟩ := not
    have lt := geo.first_lt
    have unlisted : fromList geo s ctx = (s, none) := by
      unfold fromList
      rw [entry]
    have new : newBlock2 geo goal s.maps.blockMap = none := by
      rcases found : newBlock2 geo goal s.maps.blockMap with _ | b
      · rfl
      obtain ⟨low, high, free⟩ := newBlock2_some found
      exact absurd ⟨b, high, low, free⟩ full
    have steal : findFirst (testBlockBitmap2 geo s.maps.dedup) geo.firstDataBlock
        (geo.blocksCount - 1) = none :=
      findFirst_none.mpr fun b low high => by
        by_contra set
        exact empty ⟨b, by omega, low, by simpa using set⟩
    change (basefsBlockAllocator geo s goal ctx).2 = _
    rw [basefsBlockAllocator, unlisted]
    dsimp only
    rw [new]
    rw [steal]
    rw [entry]

end Invariant

section Load

variable {geo : Geometry} {used : Bits} {entries : List Entry} {maps : Maps}

def Loading (geo : Geometry) (used : Bits) (entries : List Entry) (maps : Maps) : Prop :=
  ∃ pool, Show geo maps pool ∧ History geo used [] pool ∧ Covered geo pool entries

theorem Loading.reserve {b : Nat} {e : Entry} (loading : Loading geo used entries maps)
    (at_ : entries[i]? = some e)
    (mem : b ∈ listed e.blocks) : Loading geo used entries (fsReserveBlock geo maps b).1 := by
  obtain ⟨pool, shows, history, covered⟩ := loading
  rw [fsReserveBlock]
  split_ifs with beyond marked notExclusive
  · exact ⟨pool, shows, history, covered⟩
  · exact ⟨pool, shows, history, covered⟩
  · -- A second file has the block.
    have set : testBlockBitmap2 geo maps.exclusive b = true := by simpa using notExclusive
    have inside := inside_of_test set
    rw [shows.test_exclusive inside, decide_eq_true_eq] at set
    have old := shows _ inside
    refine ⟨update pool (cluster geo b) .dedup, ?_, history.moved fun c _ => ?_, fun c at_ is => ?_⟩
    · rw [unmarkBlockBitmap2, markBlockBitmap2, setBlockBitmap2_eq inside,
        setBlockBitmap2_eq inside]
      refine shows.move _ ⟨?_, update_self .., update_self ..⟩ (fun _ _ => rfl) ?_ ?_
      · simp [old.blockMap, set]
      all_goals exact fun c other => update_of_ne other ..
    · rcases eq_or_ne c (cluster geo b) with rfl | other
      · exact .inr ⟨by simp [set, Kept], by simp [Kept]⟩
      · exact .inl (update_of_ne other ..)
    · rcases eq_or_ne c (cluster geo b) with rfl | other
      · rw [update_self] at is
        cases is
      · rw [update_of_ne other] at is
        exact covered c at_ is
  · by_cases inside : Inside geo (cluster geo b)
    · rw [shows.test_blockMap inside] at marked
      have free : pool (cluster geo b) = .free := by simpa using marked
      have old := shows _ inside
      refine ⟨update pool (cluster geo b) .exclusive, ?_, history.moved fun c _ => ?_,
        fun c within is => ?_⟩
      · rw [markBlockBitmap2, setBlockBitmap2_eq inside, setBlockBitmap2_eq inside]
        refine shows.move _ ⟨update_self .., update_self .., ?_⟩ ?_ ?_ fun _ _ => rfl
        · simp [old.dedup, free]
        all_goals exact fun c other => update_of_ne other ..
      · rcases eq_or_ne c (cluster geo b) with rfl | other
        · exact .inr ⟨by simp [free, Kept], by simp [Kept]⟩
        · exact .inl (update_of_ne other ..)
      · rcases eq_or_ne c (cluster geo b) with rfl | other
        · exact ⟨i, e, at_, b, mem, by omega, rfl⟩
        · rw [update_of_ne other] at is
          exact covered c within is
    · -- A block in front of the bitmap is not marked.
      rw [markBlockBitmap2, setBlockBitmap2, setBlockBitmap2, if_neg inside, if_neg inside]
      exact ⟨pool, shows, history, covered⟩

theorem Loading.reserveAll {needed : Nat} {e : Entry} {blocks : List Nat} (acquired : Nat)
    (loading : Loading geo used entries maps) (at_ : entries[i]? = some e)
    (sub : ∀ b ∈ blocks, b ∈ listed e.blocks) :
    Loading geo used entries (reserveLoop geo needed blocks acquired maps) := by
  induction blocks generalizing maps acquired with
  | nil => exact loading
  | cons b rest ih =>
    have next := loading.reserve at_ (sub b (mem_cons_self ..))
    rw [reserveLoop]
    dsimp only
    generalize (if (fsReserveBlock geo maps b).2 = true then acquired + 1 else acquired) = acquired'
    split
    · exact next
    · exact ih _ next fun q mem => sub q (mem_cons_of_mem _ mem)

theorem Loading.reserveFiles {rest : List Entry} (loading : Loading geo used entries maps)
    (fileSize : String → Option Nat) (sub : ∀ e ∈ rest, e ∈ entries) :
    Loading geo used entries (fsReserveBlocks geo fileSize maps rest) := by
  rw [fsReserveBlocks]
  induction rest generalizing maps with
  | nil => exact loading
  | cons e rest ih =>
    rw [foldl_cons]
    refine ih ?_ fun e' mem => sub e' (mem_cons_of_mem _ mem)
    split
    · obtain ⟨i, at_⟩ := getElem?_of_mem (sub e (mem_cons_self ..))
      refine loading.reserveAll 0 at_ fun b mem => ?_
      obtain ⟨r, rIn, bIn⟩ := mem_flatMap.mp mem
      refine mem_flatMap.mpr ⟨r, rIn, ?_⟩
      rw [mem_range'_1] at bIn
      rw [BlockRange.blocks, mem_cons, mem_range'_1]
      omega
    · exact loading

theorem baseFsAllocLoad_inv (geo : Geometry) (used : Bits) (lines : List Line)
    (fileSize : String → Option Nat) :
    ∃ pool, Inv geo used [] (baseFsAllocLoad geo lines fileSize used) pool := by
  have start : Loading geo used (basefsParse lines) ⟨used, fun _ => false, fun _ => false⟩ := by
    refine ⟨fun c => if used c then .used else .free, fun c _ => ?_, ⟨fun c _ => ?_, fun c _ => ?_⟩,
      fun c _ is => ?_⟩
    · cases is : used c <;> exact ⟨by simp [is], by simp [is], by simp [is]⟩
    · cases used c <;> simp
    · cases used c <;> simp
    · dsimp only at is
      split at is <;> cases is
  obtain ⟨pool, shows, history, covered⟩ := start.reserveFiles fileSize fun _ mem => mem
  refine ⟨pool, shows, history, covered, fun i => ?_⟩
  change Bounded (((basefsParse lines)[i]?).elim [] Entry.blocks)
  rcases is : (basefsParse lines)[i]? with _ | e
  · simp [Bounded]
  have mem := mem_of_getElem? is
  rw [basefsParse, mem_reverse, mem_map] at mem
  obtain ⟨line, -, rfl⟩ := mem
  exact basefsReadline_bounded line

end Load

section Result

variable {geo : Geometry} {used : Bits} {out : List Nat} {s : State}

def Exact (geo : Geometry) (used : Bits) (out : List Nat) (blockMap : Bits) : Prop :=
  ∀ c, Inside geo c → (blockMap c = true ↔ used c = true ∨ ∃ b ∈ out, cluster geo b = c)

variable {pool : Nat → Pool}

theorem Show.cleanup {maps : Maps} {entries : List Entry} (shows : Show geo maps pool)
    (bounded : ∀ e ∈ entries, Bounded e.blocks) :
    Show geo (entries.foldl (fun maps e => fsFreeBlocksRange geo maps e.blocks) maps)
      (freed geo pool (entries.flatMap fun e => listed e.blocks)) := by
  induction entries generalizing maps pool with
  | nil =>
    intro c inside
    simpa [freed] using shows c inside
  | cons e entries ih =>
    have rest := ih (shows.freeRange (bounded e (mem_cons_self ..))) fun e' mem =>
      bounded e' (mem_cons_of_mem _ mem)
    rw [freed_freed] at rest
    exact rest

theorem Inv.cleanup (inv : Inv geo used out s pool) :
    Exact geo used out (baseFsAllocCleanup geo s) := by
  intro c inside
  have bounded : ∀ e ∈ s.entries, Bounded e.blocks := fun e mem => by
    obtain ⟨i, at_⟩ := getElem?_of_mem mem
    simpa [State.list, at_] using inv.bounded i
  have shown := inv.shows.cleanup bounded c inside
  have history :=
    inv.history.moved fun c _ => freed_cases geo pool (s.entries.flatMap fun e => listed e.blocks) c
  rw [← history.used c inside, ← history.handed c inside]
  -- Nothing is left that is reserved for one file.
  have none : freed geo pool (s.entries.flatMap fun e => listed e.blocks) c ≠ .exclusive :=
      fun is => by
    obtain ⟨was, absent⟩ := freed_exclusive is
    obtain ⟨i, e, at_, b, mem, -, rfl⟩ := inv.covered c inside was
    exact absent (mem_map_of_mem (mem_flatMap.mpr ⟨e, mem_of_getElem? at_, mem⟩))
  rw [baseFsAllocCleanup, fsFreeBlocksBitmap_eq inside, shown.blockMap, shown.dedup]
  cases is : freed geo pool (s.entries.flatMap fun e => listed e.blocks) c <;> simp [is] at none ⊢

def Answer.blocks : Answer → List Nat
  | .block b => [b]
  | _ => []

def Right (geo : Geometry) (used : Bits) (out : List Nat) : Answer → Prop
  | .block b => Fresh geo used out b
  | .nullPointer => False
  | _ => True

/- Every call of the run returns a fresh block or fails, and the clean-up after it leaves the right
bitmap. -/
def AllRight (geo : Geometry) (used : Bits) : List Nat → State → List Op → Prop
  | out, s, [] => Exact geo used out (baseFsAllocCleanup geo s)
  | out, s, op :: ops => Right geo used out (step geo s op).2 ∧
      AllRight geo used (out ++ (step geo s op).2.blocks) (step geo s op).1 ops

theorem allRight_iff (inv : Inv geo used out s pool) (ops : List Op) :
    AllRight geo used out s ops ↔ Along (fun s op => (step geo s op).1) (Served geo) s ops := by
  induction ops generalizing out s pool with
  | nil => exact iff_of_true inv.cleanup trivial
  | cons op ops ih =>
    by_cases served : Served geo s op
    · have after := inv.next op served
      rw [AllRight, Along]
      cases is : (step geo s op).2 with
      | block b =>
        rw [is] at after
        obtain ⟨fresh, pool', inv'⟩ := after
        exact and_congr (iff_of_true fresh served) (ih inv')
      | nullPointer =>
        rw [is] at after
        exact after.elim
      | done | blockAllocFail =>
        rw [is] at after
        obtain ⟨pool', inv'⟩ := after
        refine and_congr (iff_of_true trivial served) ?_
        rw [Answer.blocks, append_nil]
        · exact ih inv'
        · simp
    · refine iff_of_false (fun all => ?_) fun along => served along.1
      have bad := all.1
      rw [step_not_served served] at bad
      exact bad

/-- After the base map is loaded, every call hands out a block that was neither in use nor handed
out before, or fails, and the clean-up leaves exactly the blocks in use, if and only if no call is
made for a file that is not in the base map when no block is free and none is shared. -/
theorem base_allocator_exact (geo : Geometry) (lines : List Line) (fileSize : String → Option Nat)
    (used : Bits)
    (ops : List Op) : AllRight geo used [] (baseFsAllocLoad geo lines fileSize used) ops ↔
      Along (fun s op => (step geo s op).1) (Served geo)
      (baseFsAllocLoad geo lines fileSize used) ops := by
  obtain ⟨pool, inv⟩ := baseFsAllocLoad_inv geo used lines fileSize
  exact allRight_iff inv ops

/- Eight blocks, two of them in use. Both files had block 3, and the second one is not there any
more. -/
def sampleGeometry : Geometry := ⟨1, 8, 0, 1024, by decide, by decide, by decide⟩

def sampleLines : List Line := [⟨"/a", [(2, 4)]⟩, ⟨"/b", [(3, 3), (5, 9)]⟩]

def sampleSize (path : String) : Option Nat := if path = "/a" then some 3072 else none

def sampleOps : List Op :=
  [.setTarget "/a" true, .alloc 0 (some ⟨true, 1⟩), .unsetTarget true, .setTarget "/c" true,
    .alloc 3 (some ⟨true, 0⟩)]

theorem sample_run_right : AllRight sampleGeometry (fun c => c < 2) []
    (baseFsAllocLoad sampleGeometry sampleLines sampleSize fun c => c < 2) sampleOps :=
  (base_allocator_exact ..).mpr (by decide +kernel)

/- No block is free, and the file is not in the base map. -/
theorem full_image_null_pointer :
    (step sampleGeometry
      (step sampleGeometry (baseFsAllocLoad sampleGeometry [] sampleSize fun _ => true)
      (.setTarget "/new" true)).1 (.alloc 0 (some ⟨true, 0⟩))).2 = .nullPointer ∧
    ¬ AllRight sampleGeometry (fun _ => true) []
    (baseFsAllocLoad sampleGeometry [] sampleSize fun _ => true)
      [.setTarget "/new" true, .alloc 0 (some ⟨true, 0⟩)] := by
  have null : (step sampleGeometry
    (step sampleGeometry (baseFsAllocLoad sampleGeometry [] sampleSize fun _ => true)
      (.setTarget "/new" true)).1 (.alloc 0 (some ⟨true, 0⟩))).2 = .nullPointer :=
    step_not_served (by decide +kernel)
  refine ⟨null, fun all => ?_⟩
  have bad := all.2.1
  exact bad

end Result

end E2fs.BaseFs
