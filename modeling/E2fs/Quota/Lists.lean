import E2fs.Lib.Links
import E2fs.Quota.View

/-! The two lists of a quota file: free blocks, and blocks with free entries. -/
namespace E2fs.Quota
open Memory Links List Function

variable {h : QuotaHandle} {U : Nat → Prop} {F L : List Nat} {b : Nat} {buf : Buf}

section Pool

/-- The blocks of the file are in use or in the list of free blocks. -/
structure Pool (h : QuotaHandle) (U : Nat → Prop) (F : List Nat) : Prop where
  chain : Chain (fun b => nextFree (view h b)) h.freeBlk F
  nodup : F.Nodup
  free : ∀ b ∈ F, ¬ U b
  cover : ∀ b, 1 ≤ b ∧ b < h.blocks ↔ U b ∨ b ∈ F
  start : 1 ≤ h.blocks
  small : h.blocks ≤ 2 ^ 22

theorem Pool.congr {h' : QuotaHandle} (pool : Pool h U F) (blocks : h'.blocks = h.blocks)
    (head : h'.freeBlk = h.freeBlk) (same : ∀ c ∈ F, view h' c = view h c) : Pool h' U F where
  __ := pool
  chain := by
    rw [head]
    exact pool.chain.congr fun c mem => by rw [same c mem]
  cover := blocks ▸ pool.cover
  start := blocks ▸ pool.start
  small := blocks ▸ pool.small

theorem Pool.of_iff {U' : Nat → Prop} (pool : Pool h U F) (same : ∀ c, U' c ↔ U c) :
    Pool h U' F := by
  obtain rfl : U' = U := funext fun c => propext (same c)
  exact pool

variable (pool : Pool h U F)
include pool

theorem Pool.add (used : U b) : Pool h (fun c => c = b ∨ U c) F :=
  pool.of_iff fun _ => or_iff_right_of_imp fun same => same ▸ used

theorem Pool.lt (used : U b) : 1 ≤ b ∧ b < h.blocks := (pool.cover b).mpr (.inl used)

theorem Pool.lt_bound (used : U b) : b < 2 ^ 22 := lt_of_lt_of_le (pool.lt used).2 pool.small

theorem Pool.nonzero (used : U b) : b ≠ 0 := ne_of_gt (pool.lt used).1

theorem Pool.written (used : U b) (buf : Buf) : Pool (writeBlk h b buf) U F :=
  pool.congr rfl rfl fun c mem => view_unwritten (pool.lt_bound used) fun same =>
    pool.free c mem (same ▸ used)

theorem Pool.free_nonzero {c : Nat} (mem : c ∈ F) : c ≠ 0 := pool.chain.nonzero c mem

theorem getFreeDqblk_spec (room : h.blocks < 2 ^ 22) :
    ∃ h' b F', getFreeDqblk h = (h', b) ∧ ¬ U b ∧ Pool h' (fun c => c = b ∨ U c) F' ∧
      (∀ c, U c → view h' c = view h c) ∧ h'.freeEntry = h.freeEntry ∧ h'.blocks ≤ h.blocks + 1 ∧
      (F = [] → b = h.blocks ∧ F' = [] ∧ h'.blocks = h.blocks + 1) := by
  unfold getFreeDqblk
  cases F with
  | cons b F =>
    obtain ⟨head, nonzero, rest⟩ := pool.chain
    have free := pool.free b mem_cons_self
    have own := (pool.cover b).mpr (.inr mem_cons_self)
    have small := pool.small
    have nodup := nodup_cons.mp pool.nodup
    rw [if_pos (head ▸ nonzero), head, readBlk_eq (by omega)]
    refine ⟨_, b, F, rfl, free, ⟨rest, nodup.2, fun c mem => ?_, fun c => ?_, pool.start, small⟩,
      fun c _ => rfl, rfl, by simp, fun no => absurd no (cons_ne_nil _ _)⟩
    · rintro (rfl | used)
      · exact nodup.1 mem
      · exact pool.free c (mem_cons_of_mem _ mem) used
    · rw [pool.cover c, mem_cons]
      tauto
  | nil =>
    have head : h.freeBlk = 0 := pool.chain
    have fresh : ¬ U h.blocks := fun used => by
      have := (pool.lt used).2
      omega
    have start := pool.start
    rw [if_neg (not_not.mpr head)]
    refine ⟨_, h.blocks, [], rfl, fresh, ⟨head, nodup_nil, by simp, fun c => ?_,
      Nat.le_add_left 1 _, room⟩, fun c used => ?_, rfl, le_refl _, fun _ => ⟨rfl, rfl, rfl⟩⟩
    · have := pool.cover c
      simp only [not_mem_nil, or_false] at this ⊢
      rw [← this]
      omega
    · have other : c ≠ h.blocks := by
        rintro rfl
        exact fresh used
      exact view_unwritten room other

theorem putFreeDqblk_spec (buf : Buf) (used : U b) :
    Pool (putFreeDqblk h buf b) (fun c => U c ∧ c ≠ b) (b :: F) ∧
      (∀ c, c ≠ b → view (putFreeDqblk h buf b) c = view h c) := by
  have small := pool.lt_bound used
  have head : h.freeBlk < 2 ^ 32 := by
    have chain := pool.chain
    cases F with
    | nil =>
      rw [show h.freeBlk = 0 from chain]
      decide
    | cons c F =>
      have inside := (pool.cover c).mpr (.inr mem_cons_self)
      have := pool.small
      rw [chain.1]
      omega
  have fresh : b ∉ F := fun mem => pool.free b mem used
  refine ⟨⟨⟨rfl, pool.nonzero used, ?_⟩, nodup_cons.mpr ⟨fresh, pool.nodup⟩,
    forall_mem_cons.mpr ⟨fun both => both.2 rfl, fun c mem both => pool.free c mem both.1⟩, fun c =>
      ?_, pool.start, pool.small⟩, fun c other => ?_⟩
  · dsimp only [putFreeDqblk]
    rw [view_written small, nextFree_clip, nextFree_setEntries, nextFree_setPrevFree,
      nextFree_setNextFree head]
    refine pool.chain.congr fun c mem => congrArg nextFree ?_
    exact view_unwritten small fun same => fresh (same ▸ mem)
  · refine (pool.cover c).trans ?_
    by_cases same : c = b
    · subst same
      simp [used]
    · simp [same]
  · exact view_unwritten small other

end Pool

section Partly

/- The same records; the links may differ. -/
def SameRecords (x y : Buf) : Prop := entries x = entries y ∧ ∀ i < 14, slot x i = slot y i

theorem SameRecords.refl (x : Buf) : SameRecords x x := ⟨rfl, fun _ _ => rfl⟩

theorem sameRecords_next (x : Buf) (v : Nat) : SameRecords (clip (setNextFree x v)) x :=
  ⟨by simp, fun i lt => by rw [slot_clip lt, slot_setNextFree]⟩

theorem sameRecords_prev (x : Buf) (v : Nat) : SameRecords (clip (setPrevFree x v)) x :=
  ⟨by simp, fun i lt => by rw [slot_clip lt, slot_setPrevFree]⟩

structure Partly (h : QuotaHandle) (L : List Nat) : Prop where
  linked : Linked (fun b => nextFree (view h b)) (fun b => prevFree (view h b)) 0 h.freeEntry L
  nodup : L.Nodup
  small : ∀ b ∈ L, b < 2 ^ 22

theorem Partly.of_links {h' : QuotaHandle} (partly : Partly h L) (head : h'.freeEntry = h.freeEntry)
    (next : ∀ c ∈ L, nextFree (view h' c) = nextFree (view h c))
    (prev : ∀ c ∈ L, prevFree (view h' c) = prevFree (view h c)) : Partly h' L where
  __ := partly
  linked := by
    rw [head]
    exact partly.linked.congr next prev

theorem Partly.congr {h' : QuotaHandle} (partly : Partly h L) (head : h'.freeEntry = h.freeEntry)
    (same : ∀ c ∈ L, view h' c = view h c) : Partly h' L :=
  partly.of_links head (fun c mem => by rw [same c mem]) fun c mem => by rw [same c mem]

theorem Partly.written {buf : Buf} (partly : Partly h L) (small : b < 2 ^ 22)
    (next : nextFree buf = nextFree (view h b)) (prev : prevFree buf = prevFree (view h b)) :
    Partly (writeBlk h b buf) L := by
  refine partly.of_links rfl (fun c _ => ?_) fun c _ => ?_ <;> by_cases own : c = b
  · rw [own, view_written small, nextFree_clip, next]
  · rw [view_unwritten small own]
  · rw [own, view_written small, prevFree_clip, prev]
  · rw [view_unwritten small own]

theorem neighbours_spec {N P : Nat} (small : N < 2 ^ 22) (small' : P < 2 ^ 22)
    (apart : N = P → N = 0)
    {h1 h2 : QuotaHandle}
    (is : h1 = if N ≠ 0 then writeBlk h N (setPrevFree (readBlk h N) P) else h)
    (is' : h2 = if P ≠ 0 then writeBlk h1 P (setNextFree (readBlk h1 P) N)
      else { h1 with freeEntry := N }) :
    (∀ c, c ≠ 0 → nextFree (view h2 c) = (if c = P then N else nextFree (view h c)) ∧
      prevFree (view h2 c) = (if c = N then P else prevFree (view h c)) ∧
      SameRecords (view h2 c) (view h c)) ∧ (∀ c, c ≠ N → c ≠ P → view h2 c = view h c) ∧
    h2.freeEntry = (if P = 0 then N else h.freeEntry) ∧ h2.blocks = h.blocks ∧
        h2.freeBlk = h.freeBlk := by
  have first : (∀ c, c ≠ N → view h1 c = view h c) ∧
      (N ≠ 0 → view h1 N = clip (setPrevFree (view h N) P)) ∧ h1.freeEntry = h.freeEntry ∧
      h1.blocks = h.blocks ∧ h1.freeBlk = h.freeBlk := by
    subst is
    split_ifs with zero
    · rw [readBlk_eq small]
      exact ⟨fun c => view_unwritten small, fun _ => view_written small, rfl, rfl, rfl⟩
    · exact ⟨fun _ _ => rfl, fun nonzero => absurd nonzero zero, rfl, rfl, rfl⟩
  have second :
    (∀ c, c ≠ P → view h2 c = view h1 c) ∧ (P ≠ 0 → view h2 P = clip (setNextFree (view h1 P) N)) ∧
      h2.freeEntry = (if P = 0 then N else h1.freeEntry) ∧ h2.blocks = h1.blocks ∧
          h2.freeBlk = h1.freeBlk := by
    subst is'
    split
    · rw [readBlk_eq small']
      exact ⟨fun c => view_unwritten small', fun _ => view_written small', rfl, rfl, rfl⟩
    · rename_i zero
      rw [if_pos (not_not.mp zero)]
      exact ⟨fun _ _ => rfl, fun nonzero => absurd nonzero zero, rfl, rfl, rfl⟩
  obtain ⟨other, own, head, blocks, free⟩ := first
  obtain ⟨other', own', head', blocks', free'⟩ := second
  refine ⟨fun c nonzero => ?_,
    fun c ne ne' => (other' c ne').trans (other c ne), by rw [head', head],
    blocks'.trans blocks, free'.trans free⟩
  by_cases isP : c = P
  · have notN : c ≠ N := fun isN => nonzero (isN.trans (apart (isN.symm.trans isP)))
    rw [if_pos isP, if_neg notN]
    subst isP
    rw [own' nonzero, other c notN, nextFree_clip, nextFree_setNextFree (by omega), prevFree_clip,
      prevFree_setNextFree]
    exact ⟨rfl, rfl, sameRecords_next _ _⟩
  · rw [if_neg isP, other' c isP]
    by_cases isN : c = N
    · subst isN
      rw [if_pos rfl, own nonzero, nextFree_clip, nextFree_setPrevFree, prevFree_clip,
        prevFree_setPrevFree (by omega)]
      exact ⟨rfl, rfl, sameRecords_prev _ _⟩
    · rw [if_neg isN, other c isN]
      exact ⟨rfl, rfl, SameRecords.refl _⟩

theorem removeFreeDqentry_spec {A C : List Nat} (partly : Partly h (A ++ b :: C))
    (next : nextFree buf = nextFree (view h b)) (prev : prevFree buf = prevFree (view h b)) :
    ∃ h', removeFreeDqentry h buf b = (h', setPrevFree (setNextFree buf 0) 0) ∧
      Partly h' (A ++ C) ∧ view h' b = clip (setPrevFree (setNextFree buf 0) 0) ∧
      (∀ c ∈ A ++ C, SameRecords (view h' c) (view h c)) ∧
      (∀ c, c ≠ 0 → c ∉ A ++ b :: C → view h' c = view h c) ∧
      h'.blocks = h.blocks ∧ h'.freeBlk = h.freeBlk := by
  obtain ⟨linked, nodup, small⟩ := partly
  obtain ⟨before, nonzero, after⟩ := linked.middle
  have own : b < 2 ^ 22 := small b (by simp)
  have apart : b ∉ A ++ C ∧ (A ++ C).Nodup := by
    have := nodup_middle.mp nodup
    exact nodup_cons.mp this
  have all : ∀ c ∈ A ++ C, c ∈ A ++ b :: C := by
    intro c mem
    simp only [mem_append, mem_cons] at mem ⊢
    tauto
  have members : ∀ c ∈ A ++ C, c ≠ 0 ∧ c ≠ b := fun c mem =>
    ⟨linked.chain.nonzero c (all c mem), fun same => apart.1 (same ▸ mem)⟩
  have after' := after.imp_right (mem_append_right A)
  have before' := before.imp (fun all => all.2.2) (mem_append_left C)
  have bound : ∀ c, c = 0 ∨ c ∈ A ++ C → c < 2 ^ 22 := by
    rintro c (rfl | mem)
    · decide
    · exact small c (all c mem)
  have notSame : nextFree (view h b) = prevFree (view h b) → nextFree (view h b) = 0 := by
    intro same
    rcases after with zero | mem
    · exact zero
    · rcases before with ⟨-, -, zero⟩ | mem'
      · exact same.trans zero
      · have disjoint := (nodup_append.mp apart.2).2.2
        exact absurd same.symm (disjoint _ mem' _ mem)
  unfold removeFreeDqentry
  dsimp only
  rw [next, prev]
  generalize is : (if nextFree (view h b) ≠ 0 then
    writeBlk h _ (setPrevFree (readBlk h (nextFree (view h b))) (prevFree (view h b))) else h) = h1
  generalize is' : (if prevFree (view h b) ≠ 0 then writeBlk h1 _ _ else _) = h2
  obtain ⟨links, same, head, blocks, free⟩ :=
    neighbours_spec (bound _ after') (bound _ before') notSame is.symm is'.symm
  refine ⟨_, rfl, ⟨?_, apart.2, fun c mem => small c (all c mem)⟩, ?_, fun c mem => ?_,
    fun c nonzero' out => ?_, blocks, free⟩
  · have front : h2.freeEntry = if A = [] then nextFree (view h b) else h.freeEntry := by
      rw [head]
      rcases before with ⟨empty, -, zero⟩ | mem
      · rw [if_pos zero, if_pos empty]
      · rw [if_neg, if_neg (ne_nil_of_mem mem)]
        exact linked.chain.nonzero _ (mem_append_left _ mem)
    show Linked _ _ 0 h2.freeEntry (A ++ C)
    rw [front]
    refine linked.remove nodup (fun zero => linked.chain.nonzero 0 zero rfl) (fun c mem => ?_)
      fun c mem => ?_
    · rw [view_unwritten own (members c mem).2, (links c (members c mem).1).1]
    · rw [view_unwritten own (members c mem).2, (links c (members c mem).1).2.1]
  · exact view_written own
  · rw [view_unwritten own (members c mem).2]
    exact (links c (members c mem).1).2.2
  · have other : c ≠ b := by
      rintro rfl
      exact out (by simp)
    have away : ∀ d, d = 0 ∨ d ∈ A ++ C → c ≠ d := by
      rintro d (rfl | mem) rfl
      · exact nonzero' rfl
      · exact out (all c mem)
    rw [view_unwritten own other]
    exact same c (away _ after') (away _ before')

theorem insertFreeDqentry_spec (partly : Partly h L) (new : b ∉ L) (nonzero : b ≠ 0)
    (small : b < 2 ^ 22) :
    let h' := insertFreeDqentry h buf b
    Partly h' (b :: L) ∧ SameRecords (view h' b) buf ∧
      (∀ c ∈ L, SameRecords (view h' c) (view h c)) ∧
      (∀ c, c ≠ 0 → c ∉ b :: L → view h' c = view h c) ∧ h'.blocks = h.blocks ∧
          h'.freeBlk = h.freeBlk := by
  obtain ⟨linked, nodup, smalls⟩ := partly
  have front : h.freeEntry = 0 ∨ h.freeEntry ∈ L := by
    cases L with
    | nil => exact .inl linked
    | cons c L => exact .inr (mem_cons.mpr (.inl linked.1))
  have small' : h.freeEntry < 2 ^ 22 := by
    rcases front with zero | mem
    · omega
    · exact smalls _ mem
  have notOwn : h.freeEntry ≠ 0 → h.freeEntry ≠ b := by
    intro used same
    rcases front with zero | mem
    · exact used zero
    · exact new (same ▸ mem)
  generalize is : insertFreeDqentry h buf b = h'
  have views :
    ∀ c, c ≠ 0 → view h' c = if c = b then clip (setPrevFree (setNextFree buf h.freeEntry) 0)
      else if c = h.freeEntry then clip (setPrevFree (view h c) b) else view h c := by
    intro c used
    rw [← is]
    unfold insertFreeDqentry
    split
    · rename_i some
      show view (writeBlk _ h.freeEntry _) c = _
      rw [view_writeBlk small', readBlk_eq small', view_writeBlk small]
      simp only [update_apply]
      rw [if_neg (notOwn some)]
      by_cases own : c = b
      · subst own
        rw [if_neg (Ne.symm (notOwn some)), if_pos rfl, if_pos rfl]
      · by_cases first : c = h.freeEntry
        · rw [if_pos first, if_neg own, if_pos first, first]
        · rw [if_neg first, if_neg own, if_neg own, if_neg first]
    · rename_i zero
      show view (writeBlk h b _) c = _
      have other : c ≠ h.freeEntry := fun first => used (first.trans (not_not.mp zero))
      rw [view_writeBlk small, update_apply, if_neg other]
  have head : h'.freeEntry = b ∧ h'.blocks = h.blocks ∧ h'.freeBlk = h.freeBlk := by
    rw [← is]
    unfold insertFreeDqentry
    split <;> exact ⟨rfl, rfl, rfl⟩
  have members : ∀ c ∈ L, c ≠ 0 ∧ c ≠ b := fun c mem =>
    ⟨linked.chain.nonzero c mem, fun same => new (same ▸ mem)⟩
  refine ⟨⟨?_, nodup_cons.mpr ⟨new, nodup⟩, forall_mem_cons.mpr ⟨small, smalls⟩⟩, ?_,
    fun c mem => ?_, fun c used out => ?_, head.2⟩
  · rw [head.1]
    refine linked.push new nonzero ?_ ?_ (fun c mem => ?_) (fun some => ?_)
      (fun c mem other => ?_) nodup
    · rw [views b nonzero, if_pos rfl, nextFree_clip, nextFree_setPrevFree,
        nextFree_setNextFree (by omega)]
    · rw [views b nonzero, if_pos rfl, prevFree_clip, prevFree_setPrevFree (by omega)]
    · rw [views c (members c mem).1, if_neg (members c mem).2]
      split
      · rw [nextFree_clip, nextFree_setPrevFree]
      · rfl
    · rw [views _ some, if_neg (notOwn some), if_pos rfl, prevFree_clip,
        prevFree_setPrevFree (by omega)]
    · rw [views c (members c mem).1, if_neg (members c mem).2, if_neg other]
  · rw [views b nonzero, if_pos rfl]
    exact ⟨by simp, fun i lt => by rw [slot_clip lt, slot_setPrevFree, slot_setNextFree]⟩
  · rw [views c (members c mem).1, if_neg (members c mem).2]
    split
    · exact sameRecords_prev _ _
    · exact SameRecords.refl _
  · rw [mem_cons, not_or] at out
    rw [views c used, if_neg out.1, if_neg]
    rintro rfl
    rcases front with zero | mem
    · exact used zero
    · exact out.2 mem

end Partly

end E2fs.Quota
