import E2fs.Unix.Coherent

/-! The cached channel against a plain block device. A run of requests agrees with the device all
the way exactly when no range is zeroed under cached bytes that are not zero, and the cache is
turned on again only while it agrees with the device. -/
namespace E2fs.Unix
open Device BlockCache Run List

/-- A plain block device: every request changes the bytes it names, at once. -/
structure Plain where
  base : Nat
  blockSize : Nat
  content : Content

def Plain.pos (d : Plain) (block : Nat) : Nat := block * d.blockSize + d.base

def Plain.byteSize (d : Plain) (count : Int) : Nat :=
  if count < 0 then count.natAbs else count.toNat * d.blockSize

def Plain.put (d : Plain) (p n : Nat) (new : Content) : Plain :=
  { d with content := patch d.content p n new }

def Plain.step (d : Plain) : Op → Plain
  | .read _ _ | .flush | .setCache _ => d
  | .write block count buf => d.put (d.pos block) (d.byteSize count) buf
  | .writeByte offset size buf => d.put (offset + d.base) size buf
  | .zeroout block count => d.put (d.pos block) (count * d.blockSize) zeros
  | .setBlksize blksize => { d with blockSize := blksize }

/- Positions are kept in an `off_t`, a `long long`. -/
def Inside (ch : Channel) : Op → Prop
  | .read block count | .write block count _ => ch.store.pos block + byteSize ch count ≤ 2 ^ 63
  | .writeByte offset size _ => offset + ch.store.base + size ≤ 2 ^ 63
  | .zeroout block count => ch.store.pos block + count * ch.blockSize ≤ 2 ^ 63
  | .setBlksize blksize => 0 < blksize
  | .flush | .setCache _ => True

/-- Every read returns the bytes of the device, and a flush brings them all to the file. -/
def Right (ch : Channel) (d : Plain) : Prop :=
  (∀ block count out, ch.store.pos block + byteSize ch count ≤ 2 ^ 63 → ∀ j < byteSize ch count,
    (unixReadBlk64 ch block count out).2 j = d.content (d.pos block + j)) ∧
  (unixFlush ch).store.dev = d.content

/-- Zeroing finds only zeros in the cache, and a cache that is turned on agrees with the device. -/
def Harmless (ch : Channel) : Op → Prop
  | .zeroout block count => ch.nocache = false → ∀ i, (ch.store.line i).used → ∀ j < ch.blockSize,
      ch.store.pos block ≤ ch.store.pos (ch.store.line i).block + j →
      ch.store.pos (ch.store.line i).block + j < ch.store.pos block + count * ch.blockSize →
        (ch.store.line i).buf j = 0
  | .setCache true => ch.nocache = true → ∀ i, (ch.store.line i).used → ∀ j < ch.blockSize,
      ch.store.dev (ch.store.pos (ch.store.line i).block + j) = (ch.store.line i).buf j
  | .setCache false | .read _ _ | .write _ _ _ | .writeByte _ _ _ | .flush | .setBlksize _ => True

/- What is known of a cached block: it lies inside, and with write-through it is clean. -/
def Known (s : Store (Fin 8)) (writethrough : Bool) (b : Nat) (dirty : Bool) : Prop :=
  s.pos b + s.size ≤ 2 ^ 63 ∧ (writethrough = true → dirty = false)

/-- The channel holds the bytes of the device; while the cache is off its lines do not count. -/
structure Coherent (ch : Channel) (d : Plain) : Prop where
  base : ch.store.base = d.base
  size : ch.store.size = d.blockSize
  holds : Holds (Known ch.store ch.writethrough) (fun _ => ch.nocache = true) ch.store d.content

section Steps

variable {ch ch' : Channel} {d : Plain} {block : Nat} {count : Int}

theorem Known.weaken {s : Store (Fin 8)} {writethrough : Bool} (b : Nat)
    (known : Known s writethrough b true) : Known s writethrough b false :=
  ⟨known.1, fun _ => rfl⟩

theorem Same.known (same : Same ch ch') :
    Known ch'.store ch'.writethrough = Known ch.store ch.writethrough := by
  funext b dirty
  rw [Known, Known, same.pos, same.size, same.writethrough]

section

variable (coherent : Coherent ch d)
include coherent

theorem Coherent.pos (block : Nat) : d.pos block = ch.store.pos block := by
  rw [Plain.pos, Store.pos, coherent.base, coherent.size]

theorem Coherent.byteSize (count : Int) : d.byteSize count = Unix.byteSize ch count := by
  rw [Plain.byteSize, Unix.byteSize, Channel.blockSize, coherent.size]

theorem Coherent.cached (on : ch.nocache = false) :
    Holds (Known ch.store ch.writethrough) (fun _ => False) ch.store d.content := by
  have holds := coherent.holds
  simpa only [on, Bool.false_eq_true] using holds

theorem Coherent.uncached (off : ch.nocache = true) : d.content = ch.store.dev :=
  funext fun q => coherent.holds.device q fun _ _ counts => absurd off counts

theorem Coherent.of_same {content : Content} (same : Same ch ch')
    (holds : Holds (Known ch.store ch.writethrough) (fun _ => ch.nocache = true) ch'.store
      content) :
    Coherent ch' { d with content := content } where
  base := same.base.trans coherent.base
  size := same.size.trans coherent.size
  holds := by
    rw [same.known, same.nocache]
    exact holds

theorem Coherent.of_cached {content : Content} (on : ch.nocache = false) (same : Same ch ch')
    (holds : Holds (Known ch.store ch.writethrough) (fun _ => False) ch'.store content) :
    Coherent ch' { d with content := content } := by
  refine coherent.of_same same ?_
  simpa only [on, Bool.false_eq_true] using holds

theorem Coherent.flushed (invalidate : Bool) : Coherent (flushCachedBlocks ch invalidate) d := by
  obtain ⟨holds, same, _⟩ := flushCachedBlocks_holds coherent.holds Known.weaken invalidate
  exact coherent.of_same same holds

theorem Coherent.direct (p n : Nat) (new : Content) :
    Coherent { flushCachedBlocks ch true with
      store := (flushCachedBlocks ch true).store.write p n new } (d.put p n new) := by
  obtain ⟨holds, same, flushed, _⟩ := flushCachedBlocks_holds coherent.holds Known.weaken true
  have written := holds.write p n new fun i used _ => absurd (flushed i used).2 (by simp)
  exact coherent.of_same { same with } written

end

theorem known_blocks {n : Nat} {wt dirty : Bool}
    (inside : ch.store.pos block + n * ch.blockSize ≤ 2 ^ 63)
    (clean : wt = true → dirty = false) : ∀ m < n, Known ch.store wt (block + m) dirty := by
  intro m lt
  have le := Nat.mul_le_mul_right ch.blockSize (Nat.succ_le_of_lt lt)
  rw [Nat.succ_mul] at le
  refine ⟨?_, clean⟩
  show (block + m) * ch.blockSize + ch.store.base + ch.blockSize ≤ 2 ^ 63
  change block * ch.blockSize + _ + _ ≤ _ at inside
  rw [add_mul]
  omega

theorem small_count (small : ¬ (count < 0 ∨ writeDirectSize < count)) :
    byteSize ch count = count.toNat * ch.blockSize := if_neg fun neg => small (.inl neg)

theorem Coherent.read (coherent : Coherent ch d) (out : Content)
    (inside : ch.store.pos block + Unix.byteSize ch count ≤ 2 ^ 63) :
    Coherent (unixReadBlk64 ch block count out).1 d ∧
      ∀ j < Unix.byteSize ch count,
      (unixReadBlk64 ch block count out).2 j = d.content (d.pos block + j) := by
  -- the bytes of the file, where the file has everything
  have raw {ch' : Channel} (same : Same ch ch') (dev : ch'.store.dev = d.content) :
    ∀ j < Unix.byteSize ch count,
      patch out 0 (Unix.byteSize ch' count) (rawReadBlk ch' block) j =
          d.content (d.pos block + j) := by
    intro j lt
    have size : Unix.byteSize ch' count = Unix.byteSize ch count := by
      rw [Unix.byteSize, Unix.byteSize, Channel.blockSize, Channel.blockSize, same.size]
    rw [size, patch_inside (Nat.zero_le _) (by omega), Nat.sub_zero, rawReadBlk, dev, same.pos,
      coherent.pos]
  unfold unixReadBlk64
  by_cases off : ch.nocache = true
  · rw [if_pos off]
    exact ⟨coherent, raw (Same.refl ch) (coherent.uncached off).symm⟩
  rw [if_neg off]
  have on : ch.nocache = false := by simpa using off
  by_cases large : count < 0 ∨ writeDirectSize < count
  · rw [if_pos large]
    obtain ⟨_, same, _, dev⟩ := flushCachedBlocks_holds coherent.holds Known.weaken false
    exact ⟨coherent.flushed false, raw same dev⟩
  · rw [if_neg large]
    rw [small_count large] at inside ⊢
    have reads := readLoop_holds count.toNat count.toNat 0 out (le_refl _) (coherent.cached on)
      (known_blocks inside fun _ => rfl)
    refine ⟨coherent.of_cached on reads.same reads.holds, fun j lt => ?_⟩
    rw [reads.out, patch_inside (Nat.zero_le _) (by omega), Nat.sub_zero, coherent.pos]

/- With write-through the bytes are on the device before the lines are filled. -/
theorem through_holds {R : Nat → Bool → Prop} {c : Content}
    (holds : Holds R (fun _ => False) ch.store c)
    (clean : ∀ i, (ch.store.line i).used → (ch.store.line i).dirty = false)
    (wt : ch.writethrough = true)
    (small : ¬ (count < 0 ∨ writeDirectSize < count)) (block : Nat) (buf : Content) :
    Holds R (Ahead (rawWriteBlk ch block count buf) block count.toNat)
    (rawWriteBlk ch block count buf).store
      (patch c (ch.store.pos block) (byteSize ch count) buf) := by
  have counted := holds.recount (holds.eq_dev clean) (Ahead ch block count.toNat) clean
    fun i used _ j lt => holds.clean i used nofun (clean i used) j lt
  refine counted.write _ _ _ fun i _ counts j lt low high => absurd ⟨wt, ?_⟩ counts
  rw [small_count small] at high
  change (ch.store.line i).block * ch.blockSize + _ + _ < block * ch.blockSize + _ + _ at high
  change block * ch.blockSize + _ ≤ (ch.store.line i).block * ch.blockSize + _ + _ at low
  change j < ch.blockSize at lt
  constructor
  · by_contra less
    have := Nat.mul_le_mul_right ch.blockSize (Nat.succ_le_of_lt (Nat.lt_of_not_le less))
    rw [Nat.succ_mul] at this
    omega
  · by_contra more
    have := Nat.mul_le_mul_right ch.blockSize (Nat.le_of_not_lt more)
    rw [Nat.add_mul] at this
    omega

section

variable (coherent : Coherent ch d)
include coherent

theorem Coherent.write (buf : Content)
    (inside : ch.store.pos block + Unix.byteSize ch count ≤ 2 ^ 63) :
    Coherent (unixWriteBlk64 ch block count buf) (d.put (d.pos block) (d.byteSize count) buf) := by
  rw [coherent.pos, coherent.byteSize]
  unfold unixWriteBlk64
  by_cases off : ch.nocache = true
  · rw [if_pos off]
    exact coherent.of_same ⟨rfl, rfl, rfl, rfl⟩
      (coherent.holds.write _ _ _ fun _ _ counts => absurd off counts)
  rw [if_neg off]
  have on : ch.nocache = false := by simpa using off
  by_cases large : count < 0 ∨ writeDirectSize < count
  · rw [if_pos large]
    have direct := coherent.direct (ch.store.pos block) (Unix.byteSize ch count) buf
    have same := (flushCachedBlocks_holds coherent.holds Known.weaken true).2.1
    rw [rawWriteBlk, same.pos, Unix.byteSize, Channel.blockSize, same.size]
    exact direct
  rw [if_neg large]
  rw [small_count large] at inside ⊢
  have holds := coherent.cached on
  by_cases wt : ch.writethrough = true
  · rw [if_pos wt]
    have clean : ∀ i, (ch.store.line i).used → (ch.store.line i).dirty = false :=
      fun i used => (holds.known i used).2 wt
    have through := through_holds holds clean wt large block buf
    rw [small_count large] at through
    have bytes : ∀ j < count.toNat * ch.blockSize,
        patch d.content (ch.store.pos block) (count.toNat * ch.blockSize) buf
            (ch.store.pos block + j) = buf j :=
      fun j lt => patch_add lt
    obtain ⟨holds', same⟩ := writeLoop_holds count.toNat buf through
      (known_blocks inside fun _ => by simp [rawWriteBlk, wt]) fun _ => bytes
    have twice : patch (patch d.content (ch.store.pos block) (count.toNat * ch.blockSize) buf)
        ((rawWriteBlk ch block count buf).store.pos block)
          (count.toNat * (rawWriteBlk ch block count buf).blockSize) buf =
        patch d.content (ch.store.pos block) (count.toNat * ch.blockSize) buf := patch_same bytes
    rw [twice] at holds'
    exact coherent.of_cached on { same with } holds'
  · rw [if_neg wt]
    have none : Ahead ch block count.toNat = fun _ => False :=
      funext fun a => propext ⟨fun ahead => wt ahead.1, (by simp)⟩
    obtain ⟨holds', same⟩ := writeLoop_holds count.toNat buf (none ▸ holds)
      (known_blocks inside fun is => absurd is wt) fun is => absurd is wt
    exact coherent.of_cached on same holds'

theorem Coherent.zeroout {count : Nat} (harmless : Harmless ch (.zeroout block count)) :
    Coherent (unixZeroout ch block count) (d.put (d.pos block) (count * d.blockSize) zeros) := by
  rw [coherent.pos, ← coherent.size]
  refine coherent.of_same ⟨rfl, rfl, rfl, rfl⟩
    (coherent.holds.write _ _ _ fun i used counts j lt low high => ?_)
  exact harmless (by simpa using counts) i used j lt low high

theorem Coherent.setBlksize {blksize : Nat} (pos : 0 < blksize) :
    Coherent (unixSetBlksize ch blksize) { d with blockSize := blksize } := by
  unfold unixSetBlksize
  by_cases is : ch.blockSize = blksize
  · rw [if_pos is]
    have same := coherent.size.symm.trans is
    rw [← same]
    exact coherent
  · rw [if_neg is]
    obtain ⟨_, same, _, dev⟩ := flushCachedBlocks_holds coherent.holds Known.weaken false
    exact ⟨same.base.trans coherent.base, rfl, pos, nofun, nofun, nofun, nofun, nofun,
      fun q _ => congrFun dev.symm q⟩

theorem Coherent.cacheOff : Coherent (unixSetCache ch false) d := by
  obtain ⟨holds, same, flushed, dev⟩ := flushCachedBlocks_holds coherent.holds Known.weaken false
  refine ⟨same.base.trans coherent.base, same.size.trans coherent.size, ?_⟩
  have off := holds.recount dev.symm (fun _ => true = true) (fun i used => (flushed i used).1)
    fun _ _ counts => absurd rfl counts
  rw [← same.known] at off
  exact off

theorem Coherent.cacheOn (harmless : Harmless ch (.setCache true)) :
    Coherent (unixSetCache ch true) d := by
  refine ⟨coherent.base, coherent.size, ?_⟩
  by_cases off : ch.nocache = true
  · exact coherent.holds.recount (coherent.uncached off) (fun _ => false = true)
      (fun i used => coherent.holds.stale i used off) fun i used _ => harmless off i used
  · have same : (fun _ : Nat => ch.nocache = true) = fun _ => false = true := by
      funext _
      rw [show ch.nocache = false by simpa using off]
    exact same ▸ coherent.holds

theorem Coherent.right : Right ch d := ⟨fun _ _ out inside => (coherent.read out inside).2,
    (flushCachedBlocks_holds coherent.holds Known.weaken false).2.2.2⟩

theorem Coherent.step {op : Op} (inside : Inside ch op) (harmless : Harmless ch op) :
    Coherent (Unix.step ch op) (d.step op) := by
  cases op with
  | read block count => exact (coherent.read zeros inside).1
  | write block count buf => exact coherent.write buf inside
  | writeByte offset size buf =>
    have base := (flushCachedBlocks_holds coherent.holds Known.weaken true).2.1.base
    have direct := coherent.direct (offset + ch.store.base) size buf
    rw [← base] at direct
    show Coherent _ (d.put (offset + d.base) size buf)
    rw [← coherent.base, ← base]
    exact direct
  | zeroout block count => exact coherent.zeroout harmless
  | flush => exact coherent.flushed false
  | setBlksize blksize => exact coherent.setBlksize inside
  | setCache on =>
    cases on with
    | true => exact coherent.cacheOn harmless
    | false => exact coherent.cacheOff

end

end Steps

section Stale

variable {ch : Channel} {d : Plain} {i : Fin 8}

theorem findLoop_hit {l : List (Fin 8)} (unused oldest : Option (Fin 8)) (mem : i ∈ l)
    (used : (ch.store.line i).used)
    (distinct : ∀ k, (ch.store.line k).used → (ch.store.line k).block = (ch.store.line i).block →
      k = i) :
    findLoop ch (ch.store.line i).block l unused oldest = .hit i := by
  induction l generalizing unused oldest with
  | nil => cases mem
  | cons k rest ih =>
    rw [findLoop]
    by_cases is : k = i
    · rw [is, if_neg (by simp [used]), if_pos rfl]
    have later := (mem_cons.mp mem).resolve_left (Ne.symm is)
    by_cases free : (ch.store.line k).used = false
    · rw [if_pos free]
      exact ih _ _ later
    · rw [if_neg free, if_neg fun same => is (distinct k (by simpa using free) same)]
      exact ih _ _ later

section

variable (on : ch.nocache = false) (used : (ch.store.line i).used)
  (distinct : ∀ k, (ch.store.line k).used → (ch.store.line k).block = (ch.store.line i).block →
    k = i)
include on used distinct

theorem read_line {j : Nat} (lt : j < ch.blockSize) (out : Content) :
    (unixReadBlk64 ch (ch.store.line i).block 1 out).2 j = (ch.store.line i).buf j := by
  have found : findCachedBlock ch (ch.store.line i).block = .hit i :=
    findLoop_hit none none (mem_finRange i) used distinct
  have loop : (readLoop 1 ch (ch.store.line i).block 1 0 out).2 =
      patch out 0 ch.blockSize (ch.store.line i).buf := by
    rw [readLoop, if_neg one_ne_zero, found]
    rfl
  unfold unixReadBlk64
  rw [if_neg (by simp [on]), if_neg (by decide)]
  exact (congrFun loop j).trans (patch_inside (Nat.zero_le _) (by omega))

/- So a line with another byte than the device shows. -/
theorem not_right_of_line
    (inside : ch.store.pos (ch.store.line i).block + ch.blockSize ≤ 2 ^ 63) {j : Nat}
    (lt : j < ch.blockSize)
    (other : (ch.store.line i).buf j ≠ d.content (d.pos (ch.store.line i).block + j)) :
    ¬ Right ch d := by
  intro right
  have size : byteSize ch 1 = ch.blockSize := by
    exact one_mul _
  have reads := right.1 (ch.store.line i).block 1 zeros (by rwa [size]) j (by rwa [size])
  rw [read_line on used distinct lt] at reads
  exact other reads

end

theorem not_right_of_harm (coherent : Coherent ch d) {op : Op} (harm : ¬ Harmless ch op) :
    ¬ Right (step ch op) (d.step op) := by
  have distinct : ∀ i k, (ch.store.line i).used → (ch.store.line k).used →
      (ch.store.line k).block = (ch.store.line i).block → k = i :=
    fun i k usedi usedk same => coherent.holds.distinct k i usedk usedi same
  have inside := fun i used => (coherent.holds.known i used).1
  cases op with
  | zeroout block count =>
    simp only [Harmless, not_forall] at harm
    obtain ⟨on, i, used, j, lt, low, high, other⟩ := harm
    refine not_right_of_line (i := i) on used (fun k => distinct i k used) (inside i used) lt ?_
    show (ch.store.line i).buf j ≠
      patch d.content (d.pos block) (count * d.blockSize) zeros (d.pos (ch.store.line i).block + j)
    rw [coherent.pos, coherent.pos, ← coherent.size]
    exact (patch_inside low high).symm ▸ other
  | setCache on =>
    cases on with
    | false => exact absurd trivial harm
    | true =>
      simp only [Harmless, not_forall] at harm
      obtain ⟨off, i, used, j, lt, other⟩ := harm
      refine not_right_of_line (i := i) rfl used (fun k => distinct i k used) (inside i used) lt ?_
      show (ch.store.line i).buf j ≠ d.content (d.pos (ch.store.line i).block + j)
      rw [coherent.pos, coherent.uncached off]
      exact Ne.symm other
  | read | write | writeByte | flush | setBlksize => exact absurd trivial harm

end Stale

theorem newChannel_coherent (dev : Content) (offset : Nat) {blockSize : Nat} (pos : 0 < blockSize)
    (nocache writethrough : Bool) :
    Coherent (newChannel dev offset blockSize nocache writethrough) ⟨offset, blockSize, dev⟩ :=
  ⟨rfl, rfl, pos, nofun, nofun, nofun, nofun, nofun, fun _ _ => rfl⟩

/-- From a channel that was just opened, with any offset, block size and flags, a run of requests
is right after each of them exactly when every one is harmless in the state it finds. -/
theorem unix_channel_plain_iff (dev : Content) (offset blockSize : Nat)
    (nocache writethrough : Bool) (ops : List Op)
    (pos : 0 < blockSize)
    (inside : Along step Inside (newChannel dev offset blockSize nocache writethrough) ops) :
    (∀ pre, pre <+: ops → Right (runOps (newChannel dev offset blockSize nocache writethrough) pre)
        (pre.foldl Plain.step ⟨offset, blockSize, dev⟩)) ↔
      Along step Harmless (newChannel dev offset blockSize nocache writethrough) ops := by
  refine right_iff Coherent ?_ ?_ ?_ (newChannel_coherent dev offset pos nocache writethrough)
    ops inside
  · intro ch d coherent
    exact coherent.right
  · intro ch d op coherent may now
    exact coherent.step may now
  · intro ch d op coherent _ harm
    exact not_right_of_harm coherent harm

/- Cached and direct writes, a block zeroed that is not cached, and the cache turned off and on. -/
def sampleOps : List Op :=
  [.write 0 1 fun _ => 7, .write 3 (-1) fun _ => 9, .read 0 1, .zeroout 2 1, .setCache false,
    .setCache true, .setBlksize 4, .writeByte 1 2 fun _ => 5]

theorem sample_channel_right : Right (runOps (newChannel zeros 0 2 false false) sampleOps)
    (sampleOps.foldl Plain.step ⟨0, 2, zeros⟩) := by
  refine (unix_channel_plain_iff zeros 0 2 false false sampleOps (by decide) ?_).mpr ?_ sampleOps
    (prefix_refl _)
  · refine ⟨?_, ?_, ?_, ?_, trivial, trivial, ?_, ?_, trivial⟩ <;> unfold Inside <;> decide +kernel
  · refine ⟨trivial, trivial, trivial, ?_, trivial, ?_, trivial, trivial, trivial⟩ <;>
      unfold Harmless <;> decide +kernel

/- A block is written, and zeroed while it is cached: the old byte is read. And one is read, written
with the cache off, and read again with the cache on. -/
def zeroedOps : List Op := [.write 0 1 fun _ => 1, .zeroout 0 1]

def staleOps : List Op := [.read 0 1, .setCache false, .write 0 1 fun _ => 1, .setCache true]

theorem channel_reads_stale :
    (unixReadBlk64 (runOps (newChannel zeros 0 1024 false false) zeroedOps) 0 1 zeros).2 0 = 1 ∧
      (zeroedOps.foldl Plain.step ⟨0, 1024, zeros⟩).content 0 = 0 ∧
      (unixReadBlk64 (runOps (newChannel zeros 0 1024 false false) staleOps) 0 1 zeros).2 0 = 0 ∧
      (staleOps.foldl Plain.step ⟨0, 1024, zeros⟩).content 0 = 1 := by
  decide +kernel

end E2fs.Unix
