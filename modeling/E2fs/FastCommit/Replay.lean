import E2fs.FastCommit.ExtentListSound

/-! Runs of fast-commit range records: each record is a range update of the
mapping and of the blocks in use, as long as it meets the condition below. -/
namespace E2fs.FastCommit
open Word Comparator Bitmap Rb Generic Run List

def Updated (op : FcOp) (s : Replay) (l p u : Nat) : Prop :=
  (op.isDel = false ∧ op.extent.Holds l ∧ p = op.extent.pblk + (l - op.extent.lblk) ∧
      u = op.extent.uninit) ∨
    (¬ op.extent.Holds l ∧ Maps s.list l p u)

def unmapped (op : FcOp) (s : Replay) : Set Nat :=
  {p | ∃ l u, op.extent.Holds l ∧ Maps s.list l p u}

def mapped (xs : List Extent) : Set Nat := {p | ∃ l u, Maps xs l p u}

/-- The record was a range update: the list is sorted, disjoint and without empty
extents, it maps exactly what was asked for, and the blocks in use are the old ones
without those unmapped and with those mapped (in units of the bitmap's clusters). -/
structure RangeUpdate (op : FcOp) (s s' : Replay) : Prop where
  wf : ListWf s'.list
  maps : ∀ l p u, Maps s'.list l p u ↔ Updated op s l p u
  bits : s'.map.bits = (s.map.bits \ clustersOf s.map.clusterBits (unmapped op s)) ∪
    clustersOf s.map.clusterBits (mapped s'.list)

/- What replay starts from: a sorted and disjoint list, its blocks in the bitmap. -/
structure ReplayWf (s : Replay) : Prop where
  list : ListWf s.list
  inside : ∀ e ∈ s.list, InMap s.map e
  sound : s.map.Sound

/- The extents that go into the sorting: what the hole leaves of the old ones, an empty one
for each that it covers, and the new one. -/
def holed (op : FcOp) (s : Replay) : List Extent :=
  s.list.flatMap (remnants op.extent) ++ if op.isDel then [] else [op.extent]

/-- The condition on a record and on the state before it: an added range lies in the
bitmap; a deleted one leaves something of a list that was not empty; no extent that
sticks out on the right loses `2 ^ 31` blocks; of two extents that are sorted the longer one
is the later one; and the result is not one run over the whole logical space. -/
structure Admissible (op : FcOp) (s : Replay) : Prop where
  range : RangeWf op.extent
  inside : op.isDel = false → InMap s.map op.extent
  survivor : op.isDel = true → s.list = [] ∨ ∃ l p u, Maps s.list l p u ∧ ¬ op.extent.Holds l
  narrow : Narrow op.extent s.list
  sortable : (holed op s).length < 2 ∨ Together (holed op s)
  partly : ¬ Everything (Updated op s)

variable {op : FcOp} {s : Replay}

theorem maps_holed (l p u : Nat) : Maps (holed op s) l p u ↔ Updated op s l p u := by
  unfold holed Updated
  rw [maps_append, maps_left]
  cases op.isDel with
  | true =>
    simp only [if_true, maps_nil, or_false, Bool.true_eq_false, false_and, false_or]
    exact and_comm
  | false =>
    simp only [Bool.false_eq_true, if_false, maps_cons, maps_nil, or_false, true_and]
    exact or_comm.trans (or_congr_right and_comm)

theorem live_holed (wf : ReplayWf s) (admissible : Admissible op s) :
    (live (holed op s)).Pairwise Apart ∧
      ∀ e ∈ live (holed op s), e.lblk + e.len ≤ 2 ^ 32 ∧ InMap s.map e := by
  have nonzero : op.extent.len ≠ 0 := admissible.range.filled.ne'
  have old : ∀ e ∈ live (s.list.flatMap (remnants op.extent)),
      e.lblk + e.len ≤ 2 ^ 32 ∧ InMap s.map e := by
    intro e he
    obtain ⟨⟨f, hf, piece⟩, -⟩ := left_pieces he
    have below := wf.list.below f hf
    have high := piece.high
    exact ⟨by omega, piece.inMap (pos_of_ne_zero (mem_live.mp he).2) (wf.inside f hf)⟩
  have ordered : (live (s.list.flatMap (remnants op.extent))).Pairwise Apart :=
    (left_ordered wf.list).imp .inl
  rw [holed, live_append]
  cases del : op.isDel with
  | true =>
    rw [if_pos rfl, show live [] = [] from rfl, append_nil]
    exact ⟨ordered, old⟩
  | false =>
    have last : live [op.extent] = [op.extent] := by simp [live, nonzero]
    rw [if_neg Bool.false_ne_true, last]
    refine ⟨pairwise_append.mpr ⟨ordered, pairwise_singleton _ _, ?_⟩, ?_⟩
    · intro a ha b hb
      rw [mem_singleton.mp hb]
      exact (left_pieces ha).2
    · exact forall_mem_append.mpr ⟨old, forall_mem_singleton.mpr
        ⟨admissible.range.below, admissible.inside del⟩⟩

theorem holed_left (admissible : Admissible op s) : holed op s = [] ∨ live (holed op s) ≠ [] := by
  have filled := admissible.range.filled
  have of_maps : (∃ l p u, Updated op s l p u) → live (holed op s) ≠ [] := by
    rintro ⟨l, p, u, h⟩ none
    rw [← maps_holed, ← maps_live, none] at h
    simp at h
  cases del : op.isDel with
  | false => exact .inr (of_maps ⟨_, _, _, .inl ⟨del, ⟨le_refl _, by omega⟩, rfl, rfl⟩⟩)
  | true =>
    rcases admissible.survivor del with empty | ⟨l, p, u, old, out⟩
    · simp [holed, empty, del]
    · exact .inr (of_maps ⟨l, p, u, .inr ⟨out, old⟩⟩)

theorem mapped_eq (xs : List Extent) : mapped xs = {p | ∃ e ∈ xs, p ∈ physOf e} := by
  ext p
  constructor
  · rintro ⟨l, u, e, he, held, rfl, -⟩
    obtain ⟨low, high⟩ := held
    exact ⟨e, he, Nat.le_add_right _ _, by omega⟩
  · rintro ⟨e, he, low, high⟩
    exact ⟨e.lblk + (p - e.pblk), e.uninit, e, he, ⟨by omega, by omega⟩, by omega, rfl⟩

/- Unmarking a touched extent as a whole is undone for the blocks that stay mapped. -/
theorem touched_or_kept {ys : List Extent} (maps : ∀ l p u, Maps ys l p u ↔ Updated op s l p u) :
    touchedPhys op.extent s.list ⊆ unmapped op s ∪ mapped ys ∧
    unmapped op s ⊆ touchedPhys op.extent s.list := by
  constructor
  · rintro p ⟨e, he, -, low, high⟩
    have here : Maps s.list (e.lblk + (p - e.pblk)) p e.uninit :=
      ⟨e, he, ⟨by omega, by omega⟩, by omega, rfl⟩
    by_cases held : op.extent.Holds (e.lblk + (p - e.pblk))
    · exact .inl ⟨_, _, held, here⟩
    · exact .inr ⟨_, _, (maps _ _ _).mpr (.inr ⟨held, here⟩)⟩
  · rintro p ⟨l, u, ⟨h1, h2⟩, e, he, ⟨h3, h4⟩, rfl, -⟩
    exact ⟨e, he, ⟨by omega, by omega⟩, by simp only [physOf, Set.mem_Ico]; omega⟩

theorem update_bits {old touched gone new : Set Nat} {clusterBits : Nat}
    (covered : touched ⊆ gone ∪ new) (inside : gone ⊆ touched) :
    (old \ clustersOf clusterBits touched) ∪ clustersOf clusterBits new =
      (old \ clustersOf clusterBits gone) ∪ clustersOf clusterBits new := by
  have covered' :
      clustersOf clusterBits touched ⊆ clustersOf clusterBits gone ∪ clustersOf clusterBits new :=
    (Set.image_mono covered).trans (Set.image_union ..).subset
  have inside' : clustersOf clusterBits gone ⊆ clustersOf clusterBits touched :=
    Set.image_mono inside
  ext c
  have cover := @covered' c
  have within := @inside' c
  simp only [Set.mem_union, Set.mem_sdiff] at cover ⊢
  tauto

/-- One admissible record is a range update, and replay can go on from there. -/
theorem fcApply_spec {qsort : Qsort} (sorts : Sorts qsort) (alloc : Allocator) (wf : ReplayWf s)
    (admissible : Admissible op s) :
    ∃ s', fcApply qsort alloc s op = some s' ∧ ReplayWf s' ∧ RangeUpdate op s s' := by
  have hole := cutHole_spec alloc admissible.range s.map wf.list admissible.narrow
    wf.inside wf.sound
  have list : (if op.extent.len ≠ 0 ∧ op.isDel = false
      then (cutHole alloc op.extent s.list s.map).1 ++ [op.extent]
      else (cutHole alloc op.extent s.list s.map).1) = holed op s := by
    rw [hole.list, holed]
    cases op.isDel <;> simp [admissible.range.filled.ne']
  obtain ⟨apart, bounded⟩ := live_holed wf admissible
  obtain ⟨ys, merged, wf', inside', maps⟩ := exSortAndMerge_spec sorts s.map
    (holed_left admissible) admissible.sortable apart (fun e he => (bounded e he).1)
    (fun e he => (bounded e he).2) (by
      rintro ⟨p, u, all⟩
      exact admissible.partly ⟨p, u, fun l hl => (maps_holed _ _ _).mp (all l hl)⟩)
  have maps' : ∀ l p u, Maps ys l p u ↔ Updated op s l p u := fun l p u =>
    (maps l p u).trans (maps_holed l p u)
  obtain ⟨bounds, cells, sound, bits⟩ := markAll_spec alloc ys _ hole.sound (fun e he => by
    have := inside' e he
    simpa only [InMap, hole.bounds, hole.cells] using this)
  refine ⟨⟨ys, markAll alloc ys (cutHole alloc op.extent s.list s.map).2⟩, ?_,
    ⟨wf', ?_, sound⟩, wf', maps', ?_⟩
  · rw [fcApply, ext4ModifyExtentList]
    simp only [list, merged, Option.map_some]
  · intro e he
    have := inside' e he
    simpa only [InMap, bounds, cells, hole.bounds, hole.cells] using this
  · obtain ⟨covered, unmappedIn⟩ := touched_or_kept maps'
    rw [bits, hole.bits, hole.cells, ← mapped_eq]
    exact update_bits covered unmappedIn

/- Replay stops being defined once a record runs off the list. -/
def fcStep (qsort : Qsort) (alloc : Allocator) (s : Option Replay) (op : FcOp) :
    Option Replay × Unit :=
  (s.bind fun s => fcApply qsort alloc s op, ())

/-- In every run whose records are admissible when they are replayed, every record is
a range update, whatever `qsort` does with what is not ordered. -/
theorem replay_updates_ranges {qsort : Qsort} (sorts : Sorts qsort) (alloc : Allocator)
    (s : Replay) (wf : ReplayWf s) (ops : List FcOp)
    (admissible : ∀ e ∈ events (fcStep qsort alloc) (some s) ops,
      ∀ before, e.before = some before → Admissible e.op before) :
    ∀ e ∈ events (fcStep qsort alloc) (some s) ops, ∃ before after, e.before = some before ∧
      e.after = some after ∧ RangeUpdate e.op before after := by
  induction ops generalizing s with
  | nil => simp [events]
  | cons op ops ih =>
    obtain ⟨s', applied, wf', update⟩ :=
      fcApply_spec sorts alloc wf (admissible _ (by rw [events]; exact mem_cons_self) s rfl)
    have step : (fcStep qsort alloc (some s) op).1 = some s' := by simp [fcStep, applied]
    intro e he
    rw [events, step, mem_cons] at he
    rcases he with rfl | he
    · exact ⟨s, s', rfl, rfl, update⟩
    · refine ih s' wf' (fun e he => admissible e ?_) e he
      rw [events, step]
      exact mem_cons_of_mem _ he

def smallFile : Replay where
  list := [⟨100, 0, 10, 0⟩]
  map := ⟨⟨0, 255, 255, by decide, by decide, by decide, by decide⟩, 0,
    .rbtree rbAllocPrivateData⟩

theorem smallFile_wf : ReplayWf smallFile := by
  refine ⟨⟨pairwise_singleton _ _, ?_, ?_, ?_⟩, ?_, sound_empty _⟩
  · simp [smallFile]
  · simp [smallFile]
  · simp [smallFile]
  · intro e he
    obtain rfl : e = ⟨100, 0, 10, 0⟩ := by simpa [smallFile] using he
    exact ⟨by decide, by decide, by decide, by decide, by decide⟩

theorem replay_updates_small_file : ∃ before after, some smallFile = some before ∧
      (fcStep sortBy bumpAllocator (some smallFile) (.delRange 3 2)).1 = some after ∧
      RangeUpdate (.delRange 3 2) before after := by
  refine replay_updates_ranges sorts_sortBy bumpAllocator smallFile smallFile_wf [.delRange 3 2] ?_
    ⟨some smallFile, .delRange 3 2,
      (fcStep sortBy bumpAllocator (some smallFile) (.delRange 3 2)).2,
      (fcStep sortBy bumpAllocator (some smallFile) (.delRange 3 2)).1⟩ mem_cons_self
  intro e he before same
  obtain ⟨op, first⟩ : e.op = .delRange 3 2 ∧ e.before = some smallFile := by
    rw [events, events, mem_singleton] at he
    rw [he]
    exact ⟨rfl, rfl⟩
  obtain rfl : smallFile = before := Option.some.inj (first.symm.trans same)
  rw [op]
  have parts : holed (.delRange 3 2) smallFile = [⟨100, 0, 3, 0⟩, ⟨105, 5, 5, 0⟩] := rfl
  refine ⟨⟨by decide, by decide, by decide⟩, by rintro ⟨⟩, fun _ => .inr ?_, ?_, ?_, ?_⟩
  · refine ⟨0, 100, 0, ⟨⟨100, 0, 10, 0⟩, by simp [smallFile], ⟨by decide, by decide⟩, rfl, rfl⟩, ?_⟩
    simp [FcOp.extent, Extent.Holds]
  · intro f hf
    obtain rfl : f = ⟨100, 0, 10, 0⟩ := by simpa [smallFile] using hf
    decide
  · simp [parts, Together]
  · rintro ⟨p, u, all⟩
    rcases all 3 (by decide) with h | h
    · cases h.1
    · exact h.1 ⟨by decide, by decide⟩

/- Deleting all of it leaves an empty extent behind: the list is too short to be
sorted, and only the sorting strips. -/
theorem delete_all_leaves_empty_extent : ReplayWf smallFile ∧
    ∀ qsort, ∃ s', fcApply qsort bumpAllocator smallFile (.delRange 0 10) = some s' ∧
      s'.list = [⟨100, 0, 0, 0⟩] ∧ ¬ RangeUpdate (.delRange 0 10) smallFile s' := by
  have cut : (cutHole bumpAllocator ⟨0, 0, 10, 0⟩ smallFile.list smallFile.map).1 =
      [⟨100, 0, 0, 0⟩] := by decide +kernel
  have applied : ∀ qsort, fcApply qsort bumpAllocator smallFile (.delRange 0 10) =
      some ⟨[⟨100, 0, 0, 0⟩], markAll bumpAllocator [⟨100, 0, 0, 0⟩]
        (cutHole bumpAllocator ⟨0, 0, 10, 0⟩ smallFile.list smallFile.map).2⟩ := by
    intro qsort
    rw [fcApply, ext4ModifyExtentList]
    simp only [FcOp.extent, FcOp.isDel, Bool.true_eq_false, and_false, if_false, cut]
    rfl
  refine ⟨smallFile_wf, fun qsort => ⟨_, applied qsort, rfl, fun update => ?_⟩⟩
  exact absurd (update.wf.filled ⟨100, 0, 0, 0⟩ (by simp)) (by decide)

end E2fs.FastCommit
