import E2fs.Unix.Channel

/-! When the cached channel is a plain block device. Lines and device hold one content together,
and every request leaves it so, apart from zeroing behind the cache and turning a cache on that
is out of date. -/
namespace E2fs.Unix
open Device BlockCache Run List Function Nat

section Lines

variable {ch : Channel} {R : Nat → Bool → Prop} {E : Nat → Prop} {c : Content} {block b : Nat}
  {i : Fin 8}

def Found.Right (ch : Channel) (block : Nat) (l : List (Fin 8)) : Found → Prop
  | .hit i => (ch.store.line i).used ∧ (ch.store.line i).block = block
  | .miss _ => ∀ i ∈ l, (ch.store.line i).used → (ch.store.line i).block ≠ block

theorem Found.Right.cons {l : List (Fin 8)} {found : Found} (right : found.Right ch block l)
    (not : (ch.store.line i).used → (ch.store.line i).block ≠ block) :
    found.Right ch block (i :: l) := by
  cases found with
  | hit k => exact right
  | miss k => exact forall_mem_cons.mpr ⟨not, right⟩

theorem findLoop_right (l : List (Fin 8)) (unused oldest : Option (Fin 8)) :
    (findLoop ch block l unused oldest).Right ch block l := by
  induction l generalizing unused oldest with
  | nil => exact nofun
  | cons i rest ih =>
    rw [findLoop]
    by_cases free : (ch.store.line i).used = false
    · rw [if_pos free]
      exact (ih _ _).cons fun used => absurd used (by simp [free])
    rw [if_neg free]
    by_cases own : (ch.store.line i).block = block
    · rw [if_pos own]
      exact ⟨by simpa using free, own⟩
    · rw [if_neg own]
      exact (ih _ _).cons fun _ => own

theorem findCachedBlock_hit (found : findCachedBlock ch block = .hit i) :
    (ch.store.line i).used ∧ (ch.store.line i).block = block := by
  have right : (findCachedBlock ch block).Right ch block _ := findLoop_right (finRange 8) none none
  rw [found] at right
  exact right

theorem findCachedBlock_miss (found : findCachedBlock ch block = .miss i) :
    ch.store.Absent block := by
  have right : (findCachedBlock ch block).Right ch block _ := findLoop_right (finRange 8) none none
  rw [found] at right
  exact fun k => right k (mem_finRange k)

theorem miss_put (holds : Holds R E ch.store c) (absent : ch.store.Absent b)
    (bytes : Content) (dirty : Bool) (known : R b dirty)
    (agrees : dirty = false → ∀ j < ch.blockSize, c (ch.store.pos b + j) = bytes j) :
    Holds R (fun a => E a ∧ a ≠ b) (fillLine (reuseCache ch i b) i bytes dirty).store
      (patch c (ch.store.pos b) ch.blockSize bytes) := by
  have store : (fillLine (reuseCache ch i b) i bytes dirty).store =
      (if (ch.store.line i).dirty && (ch.store.line i).used then ch.store.writeBack i
        else ch.store).setLine i ⟨b, bytes, dirty, true⟩ := by
    simp only [fillLine, reuseCache, touch, Store.setLine, update_self, update_idem]
  rw [store]
  exact holds.reuse i b bytes dirty absent known agrees

theorem hit_put (holds : Holds R E ch.store c) (found : findCachedBlock ch b = .hit i)
    {bytes : Content} {dirty : Bool} (known : R b dirty)
    (agrees : dirty = false → E b ∧ ∀ j < ch.blockSize, c (ch.store.pos b + j) = bytes j) :
    Holds R (fun a => E a ∧ a ≠ b) (fillLine (touch ch i) i bytes dirty).store
      (patch c (ch.store.pos b) ch.blockSize bytes) := by
  obtain ⟨used, block⟩ := findCachedBlock_hit found
  have line :
      ({ ch.store.line i with buf := bytes, dirty := dirty } : Line) = ⟨b, bytes, dirty, true⟩ := by
    rw [← used, ← block]
  have store :
      (fillLine (touch ch i) i bytes dirty).store = ch.store.setLine i ⟨b, bytes, dirty, true⟩ :=
    congrArg (ch.store.setLine i) line
  rw [store]
  refine holds.put i b bytes dirty (fun k usedk => ?_) known fun clean j lt => ?_
  · exact ⟨fun same => holds.distinct k i usedk used (same.trans block.symm), fun is => is ▸ block⟩
  · obtain ⟨exempt, same⟩ := agrees clean
    rw [← same j lt]
    exact (holds.absent (fun k _ counts is => counts (is ▸ exempt)) lt).symm

structure Same (ch ch' : Channel) : Prop where
  size : ch'.store.size = ch.store.size
  base : ch'.store.base = ch.store.base
  nocache : ch'.nocache = ch.nocache
  writethrough : ch'.writethrough = ch.writethrough

theorem Same.refl (ch : Channel) : Same ch ch := ⟨rfl, rfl, rfl, rfl⟩

theorem Same.trans {ch1 ch2 : Channel} (first : Same ch ch1) (second : Same ch1 ch2) :
    Same ch ch2 :=
  ⟨second.size.trans first.size, second.base.trans first.base, second.nocache.trans first.nocache,
    second.writethrough.trans first.writethrough⟩

theorem reuseCache_same (ch : Channel) (i : Fin 8) (block : Nat) :
    Same ch (reuseCache ch i block) := by
  unfold reuseCache touch
  dsimp only
  split <;> exact ⟨rfl, rfl, rfl, rfl⟩

def Flushed (invalidate : Bool) (l : Line) : Prop := l.used → l.dirty = false ∧ invalidate = false

section

variable (holds : Holds R E ch.store c) (weaken : ∀ b, R b true → R b false) (invalidate : Bool)
include holds weaken invalidate

theorem flushOne_holds (i : Fin 8) :
    let ch' := flushOne invalidate ch i
    Holds R E ch'.store c ∧ Same ch ch' ∧ Flushed invalidate (ch'.store.line i) ∧
      ∀ k, k ≠ i → ch'.store.line k = ch.store.line k := by
  dsimp only
  by_cases free : (ch.store.line i).used = false
  · have is : flushOne invalidate ch i = ch := by simp only [flushOne, if_pos free]
    rw [is]
    exact ⟨holds, Same.refl ch, fun used => absurd used (by simp [free]), fun _ _ => rfl⟩
  have used : (ch.store.line i).used = true := by simpa using free
  by_cases clean : (ch.store.line i).dirty = false
  · have is : flushOne invalidate ch i =
        { ch with store := ch.store.setLine i { ch.store.line i with used := !invalidate } } := by
      simp only [flushOne, if_neg free, if_pos clean]
    rw [is]
    refine ⟨?_, ⟨rfl, rfl, rfl, rfl⟩, ?_, fun k ne => setLine_other _ ne⟩
    · cases invalidate with
      | true => exact holds.drop (fun _ counts j lt => holds.clean i used counts clean j lt) rfl
      | false =>
        have line : ({ ch.store.line i with used := !false } : Line) = ch.store.line i := by
          rw [Bool.not_false, ← used]
        have same : ch.store.setLine i (ch.store.line i) = ch.store := by
          simp only [Store.setLine, update_eq_self]
        rw [line, same]
        exact holds
    · rw [setLine_same]
      exact fun still => ⟨clean, by simpa using still⟩
  · have dirty : (ch.store.line i).dirty = true := by simpa using clean
    have counts : ¬ E (ch.store.line i).block := fun exempt => clean (holds.stale i used exempt)
    have is : (flushOne invalidate ch i).store =
        (ch.store.writeBack i).setLine i { ch.store.line i with
            used := !invalidate, dirty := false } := by
      simp only [flushOne, if_neg free, if_neg clean]
    have same : Same ch (flushOne invalidate ch i) := by
      simp only [flushOne, if_neg free, if_neg clean]
      exact ⟨rfl, rfl, rfl, rfl⟩
    rw [is]
    refine ⟨?_, same, ?_, fun k ne => setLine_other _ ne⟩
    · cases invalidate with
      | true => exact (holds.writeBack used counts).drop (fun _ _ j lt => patch_block_same lt) rfl
      | false =>
        have known := weaken _ (dirty ▸ holds.known i used)
        have line : ({ ch.store.line i with used := !false, dirty := false } : Line) =
            { ch.store.line i with dirty := false } := by rw [Bool.not_false, ← used]
        rw [line]
        exact holds.flush used dirty known
    · rw [setLine_same]
      exact fun still => ⟨rfl, by simpa using still⟩

theorem flushLoop_holds (l : List (Fin 8)) :
    let ch' := l.foldl (flushOne invalidate) ch
    Holds R E ch'.store c ∧ Same ch ch' ∧ ∀ k, k ∈ l ∨ Flushed invalidate (ch.store.line k) →
        Flushed invalidate (ch'.store.line k) := by
  induction l generalizing ch with
  | nil => exact ⟨holds, Same.refl ch, fun k done => done.resolve_left nofun⟩
  | cons i rest ih =>
    obtain ⟨holds1, same1, own, other⟩ := flushOne_holds holds weaken invalidate i
    obtain ⟨holds', same', flushed⟩ := ih holds1
    refine ⟨holds', same1.trans same', fun k done => flushed k ?_⟩
    by_cases is : k = i
    · rw [is]
      exact .inr own
    · rw [other k is]
      exact done.imp_left fun mem => (mem_cons.mp mem).resolve_left is

theorem flushCachedBlocks_holds :
    let ch' := flushCachedBlocks ch invalidate
    Holds R E ch'.store c ∧ Same ch ch' ∧ (∀ k, Flushed invalidate (ch'.store.line k)) ∧
        ch'.store.dev = c := by
  obtain ⟨holds', same, flushed⟩ := flushLoop_holds holds weaken invalidate (finRange 8)
  have all := fun k => flushed k (.inl (mem_finRange k))
  exact ⟨holds', same, all, (holds'.eq_dev fun k used => (all k used).1).symm⟩

end

end Lines

section Requests

variable {ch : Channel} {R : Nat → Bool → Prop} {E : Nat → Prop} {c : Content} {block : Nat}

theorem Same.pos {ch' : Channel} (same : Same ch ch') (b : Nat) :
    ch'.store.pos b = ch.store.pos b := by
  rw [Store.pos, Store.pos, same.size, same.base]

theorem pos_next (ch : Channel) (block : Nat) :
    ch.store.pos (block + 1) = ch.store.pos block + ch.blockSize := by
  rw [Store.pos, Store.pos, Nat.add_one_mul, Channel.blockSize]
  omega

theorem writeLoop_succ (count : Nat) (ch : Channel) (block : Nat) (buf : Content) : ∃ ch1 i,
    writeLoop (count + 1) ch block buf =
      writeLoop count (fillLine ch1 i buf (!ch.writethrough)) (block + 1)
      (fun j => buf (ch.blockSize + j)) ∧
    Same ch ch1 ∧ (findCachedBlock ch block = .hit i ∧ ch1 = touch ch i ∨
      findCachedBlock ch block = .miss i ∧ ch1 = reuseCache ch i block) := by
  cases found : findCachedBlock ch block with
  | hit i =>
    refine ⟨touch ch i, i, ?_, ⟨rfl, rfl, rfl, rfl⟩, .inl ⟨rfl, rfl⟩⟩
    simp only [writeLoop, found]
    rfl
  | miss i =>
    have same := reuseCache_same ch i block
    refine ⟨_, i, ?_, same, .inr ⟨rfl, rfl⟩⟩
    simp only [writeLoop, found, same.writethrough, Channel.blockSize, same.size]

/- The blocks that the loop still has to fill count only afterwards; with write-through the device
has their bytes. -/
def Ahead (ch : Channel) (block count a : Nat) : Prop :=
  ch.writethrough = true ∧ block ≤ a ∧ a < block + count

theorem writeLoop_holds (count : Nat) (buf : Content)
    (holds : Holds R (Ahead ch block count) ch.store c)
    (known : ∀ k < count, R (block + k) (!ch.writethrough))
    (bytes : ch.writethrough = true → ∀ j < count * ch.blockSize,
      c (ch.store.pos block + j) = buf j) :
    Holds R (fun _ => False) (writeLoop count ch block buf).store
        (patch c (ch.store.pos block) (count * ch.blockSize) buf) ∧
        Same ch (writeLoop count ch block buf) := by
  induction count generalizing ch block buf c with
  | zero =>
    have none : Ahead ch block 0 = fun _ => False :=
      funext fun a => propext ⟨fun ⟨_, low, high⟩ => by omega, nofun⟩
    rw [none] at holds
    rw [Nat.zero_mul, patch_none]
    exact ⟨holds, Same.refl ch⟩
  | succ count ih =>
    obtain ⟨ch1, i, is, same, how⟩ := writeLoop_succ count ch block buf
    rw [Nat.add_one_mul] at bytes
    have first : (!ch.writethrough) = false → ch.writethrough = true := by simp
    have put : Holds R (fun a => Ahead ch block (count + 1) a ∧ a ≠ block)
      (fillLine ch1 i buf (!ch.writethrough)).store
        (patch c (ch.store.pos block) ch.blockSize buf) := by
      rcases how with ⟨found, rfl⟩ | ⟨found, rfl⟩
      · exact hit_put holds found (known 0 (succ_pos _)) fun clean =>
          ⟨⟨first clean, le_refl _, by omega⟩, fun j lt => bytes (first clean) j (by omega)⟩
      · exact miss_put holds (findCachedBlock_miss found) buf _ (known 0 (succ_pos _))
            fun clean j lt =>
          bytes (first clean) j (by omega)
    have same1 : Same ch (fillLine ch1 i buf (!ch.writethrough)) := { same with }
    have ahead : (fun a => Ahead ch block (count + 1) a ∧ a ≠ block) =
        Ahead (fillLine ch1 i buf (!ch.writethrough)) (block + 1) count := by
      funext a
      rw [Ahead, Ahead, same1.writethrough]
      exact propext ⟨fun ⟨⟨wt, low, high⟩, ne⟩ => ⟨wt, by omega, by omega⟩,
        fun ⟨wt, low, high⟩ => ⟨⟨wt, by omega, by omega⟩, by omega⟩⟩
    rw [ahead] at put
    have size : (fillLine ch1 i buf (!ch.writethrough)).blockSize = ch.blockSize := same1.size
    have at_ : (fillLine ch1 i buf (!ch.writethrough)).store.pos (block + 1) =
        ch.store.pos block + ch.blockSize := by
      rw [same1.pos, pos_next]
    obtain ⟨holds', same'⟩ := ih (fun j => buf (ch.blockSize + j)) put (by
        intro k lt
        rw [same1.writethrough, add_assoc, add_comm 1 k]
        exact known (k + 1) (by omega))
      (by
        intro wt j lt
        rw [same1.writethrough] at wt
        rw [size] at lt
        rw [at_, patch_apart (by omega), add_assoc]
        exact bytes wt _ (by omega))
    rw [is]
    refine ⟨?_, same1.trans same'⟩
    rw [at_, size, patch_more, add_comm ch.blockSize] at holds'
    rwa [Nat.add_one_mul]

theorem reused_lines (ch : Channel) (i : Fin 8) (b : Nat) (bytes : Content) (dirty : Bool)
    (k : Fin 8) : (fillLine (reuseCache ch i b) i bytes dirty).store.line k =
      if k = i then ⟨b, bytes, dirty, true⟩ else ch.store.line k := by
  simp only [fillLine, reuseCache, touch, Store.setLine, update_self, update_idem, update_apply]
  split
  · rfl
  · split <;> rfl

theorem reused_dev (holds : Holds R E ch.store c) {b : Nat}
    (absent : ch.store.Absent b) (i : Fin 8) {j : Nat} (lt : j < ch.blockSize) :
    rawReadBlk (reuseCache ch i b) b j = c (ch.store.pos b + j) := by
  rw [rawReadBlk, (reuseCache_same ch i b).pos, holds.absent (fun k used _ => absent k used) lt]
  unfold reuseCache touch Store.setLine
  dsimp only
  split_ifs with both
  · exact patch_block_apart (absent i (Bool.and_eq_true_iff.mp both).2) lt
  · rfl

theorem absent_range (holds : Holds R E ch.store c) {n : Nat}
    (absent : ∀ m < n, ch.store.Absent (block + m)) {j : Nat} (lt : j < n * ch.blockSize) :
    c (ch.store.pos block + j) = rawReadBlk ch block j := by
  have pos := holds.pos
  have split := div_add_mod' j ch.blockSize
  have at_ :
      ch.store.pos block + j = ch.store.pos (block + j / ch.blockSize) + j % ch.blockSize := by
    rw [Store.pos, Store.pos, add_mul]
    show _ + j = _ + j / ch.blockSize * ch.blockSize + _ + _
    omega
  rw [rawReadBlk, at_]
  exact holds.absent (fun k used _ => absent _ (Nat.div_lt_of_lt_mul (by rwa [mul_comm] at lt)) k
    used) (mod_lt _ pos)

theorem scanMisses_spec (left : Nat) (ch : Channel) (block : Nat) (reuse : List (Fin 8)) : ∃ more,
    (scanMisses left ch block reuse).2 = reuse ++ more ∧ more.length ≤ left ∧
      (scanMisses left ch block reuse).1.store = ch.store ∧
      Same ch (scanMisses left ch block reuse).1 ∧
      ∀ m < more.length, ch.store.Absent (block + m) := by
  induction left generalizing block reuse with
  | zero => exact ⟨[], (append_nil _).symm, le_refl _, rfl, Same.refl ch, nofun⟩
  | succ left ih =>
    rw [scanMisses]
    cases found : findCachedBlock ch block with
    | hit i => exact ⟨[], (append_nil _).symm, Nat.zero_le _, rfl, ⟨rfl, rfl, rfl, rfl⟩, nofun⟩
    | miss eldest =>
      obtain ⟨more, is, le, store, same, absent⟩ := ih (block + 1) (reuse ++ [eldest])
      refine ⟨eldest :: more, by rw [is]; simp, succ_le_succ le, store, same, fun m lt k used => ?_⟩
      rcases m with _ | m
      · exact findCachedBlock_miss found k used
      have := absent m (lt_of_succ_lt_succ lt) k used
      rwa [add_assoc, add_comm 1] at this

theorem none_ahead (block : Nat) : (fun a => False ∧ a ≠ block) = fun _ => False :=
  funext fun _ => propext ⟨And.left, False.elim⟩

theorem saveBlocks_holds {l : List (Fin 8)} (bytes : Content)
    (holds : Holds R (fun _ => False) ch.store c)
    (absent : ∀ m < l.length, ch.store.Absent (block + m))
    (known : ∀ m < l.length, R (block + m) false)
    (same : ∀ j < l.length * ch.blockSize, c (ch.store.pos block + j) = bytes j) :
    Holds R (fun _ => False) (saveBlocks l ch block bytes).store c ∧
    Same ch (saveBlocks l ch block bytes) := by
  induction l generalizing ch block bytes with
  | nil => exact ⟨holds, Same.refl ch⟩
  | cons i rest ih =>
    rw [length_cons, Nat.add_one_mul] at same
    have own : ∀ j < ch.blockSize, c (ch.store.pos block + j) = bytes j :=
      fun j lt => same j (by omega)
    have put := miss_put (i := i) holds (absent 0 (succ_pos _)) bytes false (known 0 (succ_pos _))
      fun _ => own
    rw [add_zero, none_ahead, patch_same own] at put
    have same1 : Same ch (fillLine (reuseCache ch i block) i bytes false) := by
      have := reuseCache_same ch i block
      exact { this with }
    have at_ : (fillLine (reuseCache ch i block) i bytes false).store.pos (block + 1) =
        ch.store.pos block + ch.blockSize := by rw [same1.pos, pos_next]
    obtain ⟨holds', same'⟩ := ih (fun j => bytes (ch.blockSize + j)) put (by
        intro m lt k used
        rw [reused_lines] at used ⊢
        split_ifs at used with is
        · rw [if_pos is]
          show block ≠ block + 1 + m
          omega
        · rw [if_neg is]
          have := absent (m + 1) (succ_lt_succ lt) k used
          omega)
      (by
        intro m lt
        have := known (m + 1) (succ_lt_succ lt)
        rwa [add_comm m, ← add_assoc] at this)
      (by
        intro j lt
        rw [show (fillLine (reuseCache ch i block) i bytes false).blockSize = ch.blockSize
          from same1.size] at lt
        rw [at_, add_assoc]
        exact same _ (by omega))
    exact ⟨holds', same1.trans same'⟩

section

variable (holds : Holds R (fun _ => False) ch.store c)
  (absent : ch.store.Absent block)
include holds absent

theorem readOne_holds (known : R block false) (i : Fin 8) :
    let ch' := fillLine (reuseCache ch i block) i (rawReadBlk (reuseCache ch i block) block) false
    Holds R (fun _ => False) ch'.store c ∧ Same ch ch' := by
  have bytes :
      ∀ j < ch.blockSize, c (ch.store.pos block + j) = rawReadBlk (reuseCache ch i block) block j :=
    fun j lt => (reused_dev holds absent i lt).symm
  have put := miss_put (i := i) holds absent (rawReadBlk (reuseCache ch i block) block) false known
    fun _ => bytes
  have same := reuseCache_same ch i block
  rw [none_ahead, patch_same bytes] at put
  exact ⟨put, same.size, same.base, same.nocache, same.writethrough⟩

theorem readSeveral_holds (first : Fin 8) (left : Nat)
    (known : ∀ m < left + 1, R (block + m) false) : ∃ ch1 reuse,
    scanMisses left ch (block + 1) [first] = (ch1, reuse) ∧ 0 < reuse.length ∧
      reuse.length ≤ left + 1 ∧ ch1.blockSize = ch.blockSize ∧
      (∀ j < reuse.length * ch.blockSize, rawReadBlk ch1 block j = c (ch.store.pos block + j)) ∧
      Holds R (fun _ => False) (saveBlocks reuse ch1 block (rawReadBlk ch1 block)).store c ∧
      Same ch (saveBlocks reuse ch1 block (rawReadBlk ch1 block)) := by
  obtain ⟨more, is, le, store, same, apart⟩ := scanMisses_spec left ch (block + 1) [first]
  generalize scanMisses left ch (block + 1) [first] = scanned at is store same
  obtain ⟨ch1, reuse⟩ := scanned
  simp only at is store same ⊢
  have length : reuse.length = more.length + 1 := by simp [is]
  have away : ∀ m < reuse.length, ch.store.Absent (block + m) := by
    intro m lt k used
    rcases m with _ | m
    · exact absent k used
    have := apart m (by omega) k used
    omega
  have bytes :
      ∀ j < reuse.length * ch.blockSize, c (ch.store.pos block + j) = rawReadBlk ch1 block j := by
    intro j lt
    rw [absent_range holds away lt, rawReadBlk, rawReadBlk, store]
  have size : ch1.blockSize = ch.blockSize := same.size
  have holds1 : Holds R (fun _ => False) ch1.store c := store ▸ holds
  obtain ⟨saved, same1⟩ :=
    saveBlocks_holds (rawReadBlk ch1 block) holds1 (by rw [store]; exact away)
    (fun m lt => known m (by omega)) (by rw [store, size]; exact bytes)
  exact ⟨ch1, reuse, rfl, by omega, by omega, size, fun j lt => (bytes j lt).symm, saved,
    same.trans same1⟩

end

/- What the read loop leaves: the same content, and `count` blocks of it in the buffer. -/
structure ReadsOn (R : Nat → Bool → Prop) (c : Content) (ch : Channel) (block count cp : Nat)
    (out : Content) (result : Channel × Content) : Prop where
  holds : Holds R (fun _ => False) result.1.store c
  same : Same ch result.1
  out : result.2 = patch out cp (count * ch.blockSize) fun j => c (ch.store.pos block + j)

theorem ReadsOn.after {ch1 : Channel} {n count cp : Nat} {out bytes : Content}
    {result : Channel × Content}
    (rest : ReadsOn R c ch1 (block + n) (count - n) (cp + n * ch.blockSize)
      (patch out cp (n * ch.blockSize) bytes) result)
    (le : n ≤ count) (same : Same ch ch1)
    (right : ∀ j < n * ch.blockSize, bytes j = c (ch.store.pos block + j)) :
    ReadsOn R c ch block count cp out result := by
  refine ⟨rest.holds, same.trans rest.same, ?_⟩
  have at_ : ch1.store.pos (block + n) = ch.store.pos block + n * ch.blockSize := by
    rw [same.pos, Store.pos, Store.pos, add_mul, Channel.blockSize]
    omega
  have size : ch1.blockSize = ch.blockSize := same.size
  have total : count * ch.blockSize = n * ch.blockSize + (count - n) * ch.blockSize := by
    rw [← add_mul, Nat.add_sub_cancel' le]
  rw [rest.out, patch_congr right, at_, size, total, ← patch_more]
  simp only [add_assoc]

theorem readLoop_holds (fuel : Nat) (count cp : Nat) (out : Content) (enough : count ≤ fuel)
    (holds : Holds R (fun _ => False) ch.store c) (known : ∀ m < count, R (block + m) false) :
    ReadsOn R c ch block count cp out (readLoop fuel ch block count cp out) := by
  induction fuel generalizing ch block count cp out with
  | zero =>
    obtain rfl : count = 0 := by omega
    exact ⟨holds, Same.refl ch, by rw [Nat.zero_mul, patch_none]; rfl⟩
  | succ fuel ih =>
    rw [readLoop]
    by_cases none : count = 0
    · rw [if_pos none, none]
      exact ⟨holds, Same.refl ch, by rw [Nat.zero_mul, patch_none]⟩
    rw [if_neg none]
    have later : ∀ n, ∀ m < count - n, R (block + n + m) false := fun n m lt => by
      rw [add_assoc]
      exact known _ (by omega)
    cases found : findCachedBlock ch block with
    | hit i =>
      obtain ⟨used, own⟩ := findCachedBlock_hit found
      have rest := ih (count - 1) (cp + 1 * ch.blockSize)
        (patch out cp (1 * ch.blockSize) (ch.store.line i).buf)
        (by omega) (show Holds R _ (touch ch i).store c from holds) (later 1)
      have same : Same ch (touch ch i) := ⟨rfl, rfl, rfl, rfl⟩
      have all := rest.after (by omega) same fun j lt => by
        rw [one_mul] at lt
        rw [← own]
        exact (holds.fresh i used nofun j lt).symm
      rw [one_mul] at all
      exact all
    | miss eldest =>
      have absent := findCachedBlock_miss found
      dsimp only
      by_cases single : count = 1
      · rw [if_pos single, single]
        obtain ⟨put, same⟩ := readOne_holds holds absent (known 0 (by omega)) eldest
        have size : (reuseCache ch eldest block).blockSize = ch.blockSize :=
          (reuseCache_same ch eldest block).size
        refine ⟨put, same, ?_⟩
        rw [size, one_mul]
        exact patch_congr fun j lt => reused_dev holds absent eldest lt
      · rw [if_neg single]
        obtain ⟨ch1, reuse, is, some_, le, size, bytes, holds1, same1⟩ :=
          readSeveral_holds holds absent eldest (count - 1) fun m lt => known m (by omega)
        rw [is]
        dsimp only
        rw [size]
        exact (ih _ _ _ (by omega) holds1 (later _)).after (by omega) same1 bytes

end Requests

end E2fs.Unix
