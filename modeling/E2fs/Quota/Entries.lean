import E2fs.Quota.Lists

/-! Records in data blocks: finding a free one and freeing one, with both lists. -/
namespace E2fs.Quota
open Memory Links Word List Function

variable {h h0 h1 h' : QuotaHandle} {U : Nat → Prop} {F L L' : List Nat} {b : Nat} {buf : Buf}

section Used

def used (buf : Buf) : Nat := ((Finset.range 14).filter fun i => slot buf i ≠ blank).card

variable {buf' : Buf}

theorem used_of_blanks (same : ∀ i < 14, slot buf' i = blank ↔ slot buf i = blank) :
    used buf' = used buf := by
  unfold used
  congr 1
  apply Finset.filter_congr
  intro i mem
  exact not_congr (same i (Finset.mem_range.mp mem))

theorem used_congr (same : ∀ i < 14, slot buf' i = slot buf i) : used buf' = used buf :=
  used_of_blanks fun i lt => by rw [same i lt]

theorem used_le (buf : Buf) : used buf ≤ 14 := (Finset.card_filter_le _ _).trans (by simp)

theorem exists_blank (lt : used buf < 14) : ∃ i < 14, slot buf i = blank := by
  by_contra none
  have all : (Finset.range 14).filter (fun i => slot buf i ≠ blank) = Finset.range 14 := by
    apply Finset.filter_true_of_mem
    intro i mem blank
    exact none ⟨i, Finset.mem_range.mp mem, blank⟩
  rw [used, all] at lt
  simp at lt

theorem used_fill {i : Nat} (lt : i < 14) (before : slot buf i = blank)
    (after : slot buf' i ≠ blank) (same : ∀ j < 14, j ≠ i → slot buf' j = slot buf j) :
    used buf' = used buf + 1 := by
  have grown : (Finset.range 14).filter (fun j => slot buf' j ≠ blank) =
      insert i ((Finset.range 14).filter fun j => slot buf j ≠ blank) := by
    ext j
    simp only [Finset.mem_filter, Finset.mem_range, Finset.mem_insert]
    by_cases own : j = i
    · subst own
      simp [lt, after]
    rw [or_iff_right own]
    exact and_congr_right fun small => by rw [same j small own]
  rw [used, used, grown, Finset.card_insert_of_notMem]
  simp [before]

theorem used_pos {i : Nat} (lt : i < 14) (filled : slot buf i ≠ blank) : 0 < used buf := by
  apply Finset.card_pos.mpr
  exact ⟨i, Finset.mem_filter.mpr ⟨Finset.mem_range.mpr lt, filled⟩⟩

theorem findSlot_spec {found : List UInt8 → Bool} (some : ∃ i < 14, found (slot buf i)) :
    findSlot buf found < 14 ∧ found (slot buf (findSlot buf found)) := by
  unfold findSlot dqstrInBlk
  cases first : (range 14).find? fun i => found (slot buf i) with
  | none =>
    obtain ⟨i, lt, good⟩ := some
    have := find?_eq_none.mp first i (mem_range.mpr lt)
    exact absurd good this
  | some i =>
    exact ⟨mem_range.mp (mem_of_find?_eq_some first), by simpa using find?_some first⟩

end Used

section Find

structure Took (h h' : QuotaHandle) (U : Nat → Prop) (L L' : List Nat) (blk i : Nat) (old : Buf) :
    Prop where
  old_is : blk ∈ L ∧ old = view h blk ∨ L = [] ∧ ¬ U blk ∧ old = getdqbuf
  room : used old < 14
  partly : Partly h' L'
  members : ∀ c, c ∈ L' ↔ c ∈ L ∧ c ≠ blk ∨ c = blk ∧ used old + 1 < 14
  entries : entries (view h' blk) = used old + 1
  slots : ∀ j < 14, slot (view h' blk) j = slot old j
  lt : i < 14
  free : slot old i = blank
  others : ∀ c ∈ L, c ≠ blk → SameRecords (view h' c) (view h c)

structure Found (h h' : QuotaHandle) (U : Nat → Prop) (F F' L L' : List Nat) (blk i : Nat)
    (old : Buf) : Prop extends Took h h' U L L' blk i old where
  pool : Pool h' (fun c => c = blk ∨ U c) F'
  same : ∀ c, U c → c ∉ L → view h' c = view h c
  blocks : h'.blocks ≤ h.blocks + 1
  fresh : F = [] → F' = [] ∧ (L = [] → blk = h.blocks)

variable {old : Buf}

/- The end of the search: the count goes up, and the first blank record is taken. -/
theorem take_record (small : b < 2 ^ 22) (counted : entries buf = used old) (room : used old < 14)
    (slots : ∀ j, slot buf j = slot old j) {i : Nat}
    (is : i = findSlot (setEntries buf (entries buf + 1)) entryUnused) (h : QuotaHandle) :
    i < 14 ∧ slot old i = blank ∧
      entries (view (writeBlk h b (setEntries buf (entries buf + 1))) b) = used old + 1 ∧
      ∀ j < 14, slot (view (writeBlk h b (setEntries buf (entries buf + 1))) b) j = slot old j := by
  obtain ⟨j, lt, free⟩ := exists_blank room
  obtain ⟨lt', unused⟩ := @findSlot_spec (setEntries buf (entries buf + 1)) entryUnused
    ⟨j, lt, by rw [slot_setEntries, slots, free]; decide⟩
  rw [← is] at lt' unused
  rw [slot_setEntries, slots] at unused
  rw [view_written small]
  refine ⟨lt', (entryUnused_iff ?_).mp unused, ?_, fun j lt => ?_⟩
  · rw [← slots, length_slot]
  · rw [entries_clip, entries_setEntries (by omega), counted]
  · rw [slot_clip lt, slot_setEntries, slots]

theorem findFreeDqentry_spec (pool : Pool h U F) (partly : Partly h L) (sub : ∀ c ∈ L, U c)
    (room : h.blocks < 2 ^ 22)
    (counts : ∀ c ∈ L, entries (view h c) = used (view h c) ∧ used (view h c) < 14) :
    ∃ h' blk i F' L' old,
    findFreeDqentry h = (h', blk, toInt32 (blk * 1024) + 16 + 72 * (i : Nat)) ∧
      Found h h' U F F' L L' blk i old := by
  unfold findFreeDqentry
  cases L with
  | nil =>
    -- a new block, which becomes the only one in the list
    have head : h.freeEntry = 0 := partly.linked
    obtain ⟨h1, blk, F', got, fresh, pool', same, -, blocks, empty⟩ := getFreeDqblk_spec pool room
    have small : blk < 2 ^ 22 := pool'.lt_bound (.inl rfl)
    have nonzero : blk ≠ 0 := pool'.nonzero (.inl rfl)
    have blank : used getdqbuf = 0 := by simp [used]
    simp only [head, got, ne_eq, not_true, if_false, entries_getdqbuf, dqstrInBlk]
    obtain ⟨lt, free, entries, slots⟩ :=
      @take_record blk getdqbuf getdqbuf small (by simp [blank]) (by omega)
      (fun j => rfl) _ rfl { h1 with freeEntry := blk }
    refine ⟨_, blk, _, F', [blk], getdqbuf, rfl,
      ⟨.inr ⟨rfl, fresh, rfl⟩, by omega, ?_, by simp [blank], entries, slots,
      lt, free, by simp⟩, ?_, fun c usedc _ => ?_, blocks, fun none => ⟨(empty none).2.1, fun _ =>
        (empty none).1⟩⟩
    · refine ⟨⟨rfl, nonzero, ?_, ?_⟩, nodup_singleton _, by simpa using small⟩
      all_goals simp [Linked, view_written small]
    · refine pool'.congr rfl rfl fun c mem => view_unwritten small ?_
      rintro rfl
      exact pool'.free c mem (.inl rfl)
    · refine (view_unwritten small ?_).trans (same c usedc)
      rintro rfl
      exact fresh usedc
  | cons b C =>
    obtain ⟨head, nonzero, -⟩ := partly.linked
    have small := partly.small b mem_cons_self
    obtain ⟨counted, room'⟩ := counts b mem_cons_self
    simp only [head, ne_eq, nonzero, not_false_eq_true, if_true, dqstrInBlk, readBlk_eq small]
    by_cases full : entries (view h b) + 1 ≥ 14
    · obtain ⟨h1, removed, partly', own, same, away, blocks, free⟩ :=
        @removeFreeDqentry_spec h b (view h b) [] C partly rfl rfl
      rw [if_pos full, removed]
      generalize isbuf : setPrevFree (setNextFree (view h b) 0) 0 = buf
      have slots : ∀ j, slot buf j = slot (view h b) j := by simp [← isbuf]
      have counted' : entries buf = used (view h b) := by simpa [← isbuf] using counted
      obtain ⟨lt, blank, entries, slots'⟩ := take_record small counted' room' slots rfl h1
      have apart := nodup_cons.mp partly.nodup
      refine ⟨_, b, _, F, C, view h b, rfl,
        ⟨.inl ⟨mem_cons_self, rfl⟩, room', ?_, fun c => ?_, entries, slots',
        lt, blank, fun c mem ne => ?_⟩, ?_, fun c usedc out => ?_, ?_, fun none => ⟨none, by simp⟩⟩
      · exact partly'.congr rfl fun c mem => view_unwritten small fun same => apart.1 (same ▸ mem)
      · have : ¬ used (view h b) + 1 < 14 := by omega
        rw [mem_cons]
        simp only [this, and_false, or_false]
        exact ⟨fun mem => ⟨.inr mem, ne_of_mem_of_not_mem mem apart.1⟩,
          fun both => both.1.resolve_left both.2⟩
      · rw [view_unwritten small ne]
        exact same c (mem_of_ne_of_mem ne mem)
      · refine ((pool.congr blocks free fun c mem => ?_).written (sub b mem_cons_self) _).add
          (sub b mem_cons_self)
        exact away c (pool.free_nonzero mem) fun mem' => pool.free c mem (sub c mem')
      · rw [view_unwritten small fun same => out (same ▸ mem_cons_self),
          away c (pool.nonzero usedc) out]
      · exact blocks.le.trans (Nat.le_succ _)
    · rw [if_neg full]
      obtain ⟨lt, blank, entries, slots⟩ := take_record small counted room' (fun j => rfl) rfl h
      refine ⟨_, b, _, F, b :: C, view h b, rfl,
        ⟨.inl ⟨mem_cons_self, rfl⟩, room', ?_, fun c => ?_, entries, slots,
        lt, blank, fun c mem ne => ?_⟩,
        (pool.written (sub b mem_cons_self) _).add (sub b mem_cons_self),
        fun c usedc out => ?_, Nat.le_succ _, fun none => ⟨none, by simp⟩⟩
      · exact partly.written small (by simp) (by simp)
      · have : used (view h b) + 1 < 14 := by omega
        by_cases own : c = b
        · simp [own, this]
        · simp [own]
      · rw [view_unwritten small ne]
        exact SameRecords.refl _
      · rw [view_unwritten small fun same => out (same ▸ mem_cons_self)]

theorem Took.widen {U1 : Nat → Prop} {blk i : Nat}
    (took : Took h1 h' U1 L L' blk i old) (sub : ∀ c ∈ L, U c) (more : ∀ c, U c → U1 c)
    (same : ∀ c, U c → view h1 c = view h0 c) : Took h0 h' U L L' blk i old :=
  { took with
    old_is := by
      rcases took.old_is with ⟨mem, is⟩ | ⟨none, new, is⟩
      · exact .inl ⟨mem, by rw [is, same blk (sub blk mem)]⟩
      · exact .inr ⟨none, fun own => new (more blk own), is⟩
    others := fun c mem ne => by
      rw [← same c (sub c mem)]
      exact took.others c mem ne }

theorem Took.later {blk i : Nat} (took : Took h0 h1 U L L' blk i old)
    (head : h'.freeEntry = h1.freeEntry)
    (same : ∀ c, c = blk ∨ c ∈ L → view h' c = view h1 c) : Took h0 h' U L L' blk i old :=
  have members : ∀ c ∈ L', c = blk ∨ c ∈ L := fun c mem =>
    ((took.members c).mp mem).elim (fun both => .inr both.1) fun both => .inl both.1
  { took with
    partly := took.partly.congr head fun c mem => same c (members c mem)
    entries := by rw [same blk (.inl rfl), took.entries]
    slots := by
      rw [same blk (.inl rfl)]
      exact took.slots
    others := fun c mem ne => by
      rw [same c (.inr mem)]
      exact took.others c mem ne }

end Find

section Free

structure Dropped (h h' : QuotaHandle) (L L' : List Nat) (b i : Nat) : Prop where
  partly : Partly h' L'
  members : ∀ c, c ∈ L' ↔ c ∈ L ∧ c ≠ b ∨ c = b ∧ 1 < used (view h b)
  entries : 1 < used (view h b) → entries (view h' b) = used (view h b) - 1
  slots : 1 < used (view h b) → ∀ j < 14, slot (view h' b) j = if j = i then blank
    else slot (view h b) j
  others : ∀ c ∈ L, c ≠ b → SameRecords (view h' c) (view h c)

/- With its block, which goes to the free blocks with the last record. -/
structure Freed (h h' : QuotaHandle) (U : Nat → Prop) (L L' F' : List Nat) (b i : Nat) : Prop
    extends Dropped h h' L L' b i where
  pool : Pool h' (fun c => U c ∧ (c = b → 1 < used (view h b))) F'
  same : ∀ c, U c → c ∉ L → c ≠ b → view h' c = view h c
  blocks : h'.blocks = h.blocks

theorem freeDqentry_spec {i : Nat} (pool : Pool h U F) (partly : Partly h L) (sub : ∀ c ∈ L, U c)
    (own : U b) (lt : i < 14) (filled : slot (view h b) i ≠ blank)
    (counted : entries (view h b) = used (view h b)) (member : b ∈ L ↔ used (view h b) < 14) :
    ∃ L' F', Freed h (freeDqentry h (1024 * b + 16 + 72 * i) b) U L L' F' b i := by
  have small := pool.lt_bound own
  have pos := used_pos lt filled
  have le := used_le (view h b)
  have nonzero : b ≠ 0 := pool.nonzero own
  have place : (1024 * (b : Int) + 16 + 72 * i) % 1024 = 16 + 72 * i := by omega
  unfold freeDqentry
  rw [readBlk_eq small, place]
  dsimp only
  generalize isbuf : setEntries (view h b) ((entries (view h b) + 65535) % 65536) = buf
  have entriesBuf : entries buf = used (view h b) - 1 := by
    rw [← isbuf, entries_setEntries (by omega), counted]
    omega
  by_cases last : used (view h b) = 1
  · obtain ⟨A, C, rfl⟩ := append_of_mem (member.mpr (by omega))
    obtain ⟨h1, removed, partly', ownView, same, away, blocks, free⟩ :=
      @removeFreeDqentry_spec h b buf A C partly (by simp [← isbuf]) (by simp [← isbuf])
    rw [if_pos (by omega), removed]
    have apart := nodup_cons.mp (nodup_middle.mp partly.nodup)
    have pool1 : Pool h1 U F := pool.congr blocks free fun c mem =>
      away c (pool.free_nonzero mem) fun mem' => pool.free c mem (sub c mem')
    obtain ⟨pool', other⟩ := putFreeDqblk_spec pool1 (setPrevFree (setNextFree buf 0) 0) own
    refine ⟨A ++ C, b :: F, ⟨?_, fun c => ?_, by omega, by omega, fun c mem ne => ?_⟩, ?_,
      fun c usedc out ne => ?_, blocks⟩
    · exact partly'.congr rfl fun c mem => other c fun same => apart.1 (same ▸ mem)
    · rw [last]
      simp only [mem_append, mem_cons, lt_irrefl, and_false, or_false]
      exact ⟨fun mem => ⟨mem.imp_right .inr, ne_of_mem_of_not_mem (mem_append.mpr mem) apart.1⟩,
        fun both => both.1.imp_right fun either => either.resolve_left both.2⟩
    · rw [other c ne]
      refine same c ?_
      simp only [mem_append, mem_cons] at mem ⊢
      exact mem.imp_right fun either => either.resolve_left ne
    · refine pool'.of_iff fun c => ?_
      rw [last]
      simp
    · rw [other c ne, away c (pool.nonzero usedc) out]
  · have more : 1 < used (view h b) := by omega
    rw [if_neg (by omega)]
    have slots :
        ∀ j, slot (zero buf (16 + 72 * i) 72) j = if j = i then blank else slot (view h b) j := by
      intro j
      rw [slot_zero, ← isbuf, slot_setEntries]
    have header : entries (zero buf (16 + 72 * i) 72) = used (view h b) - 1 :=
      (header_zero (by omega)).trans entriesBuf
    by_cases full : used (view h b) = 14
    · have new : b ∉ L := fun mem => by
        have := member.mp mem
        omega
      rw [if_pos (by rw [header, full]; rfl)]
      obtain ⟨partly', own', others, same, blocks, free⟩ :=
        @insertFreeDqentry_spec h L b (zero buf (16 + 72 * i) 72) partly new nonzero small
      refine ⟨b :: L, F, ⟨partly', fun c => ?_, fun _ => own'.1.trans header,
        fun _ j small => (own'.2 j small).trans (slots j), fun c mem _ => others c mem⟩, ?_,
        fun c usedc out ne => ?_, blocks⟩
      · by_cases isb : c = b
        · simp [isb, more]
        · simp [isb]
      · refine Pool.of_iff (U := U) (pool.congr blocks free fun c mem => ?_) fun c => ?_
        · exact same c (pool.free_nonzero mem) fun mem' =>
            pool.free c mem (forall_mem_cons.mpr ⟨own, sub⟩ c mem')
        · exact ⟨And.left, fun usedc => ⟨usedc, fun _ => more⟩⟩
      · exact same c (pool.nonzero usedc) (not_mem_cons_of_ne_of_not_mem ne out)
    · have mem : b ∈ L := member.mpr (by omega)
      rw [if_neg (by rw [header, dqstrInBlk]; omega)]
      refine ⟨L, F, ⟨?_, fun c => ?_, fun _ => ?_, fun _ j lt => ?_, fun c _ ne => ?_⟩, ?_,
        fun c _ _ ne => view_unwritten small ne, rfl⟩
      · exact partly.written small ((header_zero (by omega)).trans (isbuf ▸ nextFree_setEntries))
          ((header_zero (by omega)).trans (isbuf ▸ prevFree_setEntries))
      · by_cases isb : c = b
        · simp [isb, more, mem]
        · simp [isb]
      · rw [view_written small, entries_clip, header]
      · rw [view_written small, slot_clip lt, slots]
      · rw [view_unwritten small ne]
        exact SameRecords.refl _
      · exact (pool.written own _).of_iff fun c => ⟨And.left, fun usedc => ⟨usedc, fun _ => more⟩⟩

theorem Dropped.later {i : Nat} (dropped : Dropped h0 h1 L L' b i)
    (head : h'.freeEntry = h1.freeEntry) (same : ∀ c, c = b ∨ c ∈ L → view h' c = view h1 c) :
    Dropped h0 h' L L' b i := have members : ∀ c ∈ L', c = b ∨ c ∈ L := fun c mem =>
    ((dropped.members c).mp mem).elim (fun both => .inr both.1) fun both => .inl both.1
  { dropped with
    partly := dropped.partly.congr head fun c mem => same c (members c mem)
    entries := fun more => by rw [same b (.inl rfl), dropped.entries more]
    slots := fun more => by
      rw [same b (.inl rfl)]
      exact dropped.slots more
    others := fun c mem ne => by
      rw [same c (.inr mem)]
      exact dropped.others c mem ne }

end Free

end E2fs.Quota
