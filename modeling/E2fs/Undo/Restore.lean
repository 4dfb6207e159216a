import E2fs.Undo.Covered

/-! Runs of requests through the undo channel: what a request modifies is in the undo file, and
`e2undo` brings the old device back. -/
namespace E2fs.Undo
open Device Word Run List Option

/-- A request that writes `n` bytes from `p` on, for which `count` blocks from `block` on are
captured. Each of its bytes is in an undo block that was captured before, or behind the captured
start of its first undo block; only requests below `2 ^ 31` bytes capture what they say. -/
structure ReachesOver (ch : Channel) (block : Nat) (count : Int) (p n : Nat) : Prop where
  above : ch.offset ≤ ch.pos block
  below : ch.pos block ≤ 2 ^ 62
  inside : p + n ≤ ch.devSize
  start : 0 < ch.pos block + byteSize ch count
  length : byteSize ch count < 2 ^ 31 ∨ 2 ^ 31 < ch.pos block
  reach : ∀ q, p ≤ q → q < p + n → (∃ m, ch.written m = true ∧ InBlock ch m q) ∨
    byteSize ch count < 2 ^ 31 ∧ q < ch.pos block + byteSize ch count ∧
      ch.pos block / ch.tdbDataSize * ch.tdbDataSize + ch.offset % ch.tdbDataSize ≤ q

def byteLocation (ch : Channel) (offset : Nat) : Nat := (offset + ch.offset) % 2 ^ 64

def byteCount (ch : Channel) (offset size : Nat) : Nat :=
  (size + byteLocation ch offset % ch.blockSize + ch.blockSize - 1) / ch.blockSize

def Reaches (ch : Channel) : Op → Prop
  | .write block count _ => ReachesOver ch block count (ch.pos block) (byteSize ch count)
  | .writeByte offset size _ =>
    ReachesOver ch (byteLocation ch offset / ch.blockSize)
      ((byteCount ch offset size : Int).bmod (2 ^ 32)) (byteLocation ch offset) size
  | .zeroout block count | .discard block count _ =>
    count ≤ intMax → ReachesOver ch block count (ch.pos block) (count * ch.blockSize)

/-- The bytes of the device that a request modifies. -/
def Modifies (ch : Channel) : Op → Nat → Prop
  | .write block count _, q => ch.pos block ≤ q ∧ q < ch.pos block + byteSize ch count
  | .writeByte offset size _, q => byteLocation ch offset ≤ q ∧ q < byteLocation ch offset + size
  | .zeroout block count, q | .discard block count _, q =>
    count ≤ intMax ∧ ch.pos block ≤ q ∧ q < ch.pos block + count * ch.blockSize

section Requests

variable {orig : Content} {ch : Channel} {block p n : Nat} {count : Int}

theorem mem_tdbBlocks {m : Nat} : m ∈ tdbBlocks ch block count ↔
    ch.pos block / ch.tdbDataSize ≤ m ∧ m ≤ endBlock ch (ch.pos block) (requestSize ch count) := by
  rw [tdbBlocks, mem_range'_1]
  omega

theorem requestSize_eq (short : byteSize ch count < 2 ^ 31) :
    requestSize ch count = byteSize ch count := by
  have keep : ∀ x : Int, x = byteSize ch count → x.bmod (2 ^ 32) = byteSize ch count := fun x is =>
    (Int.bmod_eq_of_le (by omega) (by omega)).trans is
  rw [byteSize] at keep ⊢
  rw [requestSize]
  by_cases one : count = 1
  · rw [if_pos one, one, if_neg (by decide)]
    simp
  rw [if_neg one]
  by_cases negative : count < 0
  · rw [if_pos negative] at keep ⊢
    rw [if_pos negative]
    exact keep _ (by omega)
  · rw [if_neg negative] at keep ⊢
    rw [if_neg negative]
    refine keep _ ?_
    rw [Nat.cast_mul, Int.toNat_of_nonneg (by omega)]

theorem requestSize_bounds (small : ch.blockSize ≤ 2 ^ 20) :
    -2 ^ 31 ≤ requestSize ch count ∧ requestSize ch count < 2 ^ 31 := by
  unfold requestSize
  split_ifs
  · omega
  · exact ⟨Int.le_bmod (by decide), Int.bmod_lt (by decide)⟩
  · exact ⟨Int.le_bmod (by decide), Int.bmod_lt (by decide)⟩

/- The last undo block that is captured begins at or before the end of the request. -/
theorem endBlock_le (reaches : ReachesOver ch block count p n) (sizes : Sizes ch) :
    endBlock ch (ch.pos block) (requestSize ch count) * ch.tdbDataSize < ch.pos block + 2 ^ 31 := by
  have low := reaches.start
  obtain ⟨above, below⟩ := @requestSize_bounds ch count sizes.block
  have some_ : 0 < (ch.pos block : Int) + requestSize ch count := by
    rcases reaches.length with short | far
    · rw [requestSize_eq short]
      omega
    · omega
  refine (Nat.div_mul_le_self _ _).trans_lt ?_
  have bound := reaches.below
  omega

theorem request_covered (covered : Covered orig ch) (reaches : ReachesOver ch block count p n)
    (bytes : Content) :
    Covered orig (request ch block count p n bytes) ∧ Same ch (request ch block count p n bytes) ∧
      ∀ q, p ≤ q → q < p + n → q < ch.devSize ∧
        ∃ m, (request ch block count p n bytes).written m = true ∧ InBlock ch m q := by
  have pos : 0 < ch.tdbDataSize := by
    have := covered.sizes.large
    omega
  obtain ⟨covered', same, written⟩ := captureAll covered (tdbBlocks ch block count) fun m mem => by
    obtain ⟨low, high⟩ := mem_tdbBlocks.mp mem
    have := Nat.mul_le_mul_right ch.tdbDataSize high
    have := endBlock_le reaches covered.sizes
    have := Nat.mod_lt ch.offset pos
    have := reaches.below
    have := covered.sizes.small
    exact ⟨(Nat.div_le_div_right reaches.above).trans low, by omega⟩
  have blocks : ∀ q, p ≤ q → q < p + n → q < ch.devSize ∧
      ∃ m, (undoWriteTdb ch block count).written m = true ∧ InBlock ch m q := by
    intro q low high
    have inside := reaches.inside
    refine ⟨by omega, ?_⟩
    rcases reaches.reach q low high with ⟨m, is, block⟩ | ⟨short, last, first⟩
    · exact ⟨m, written m (.inr is), block⟩
    have split := Nat.div_add_mod' (q - ch.offset % ch.tdbDataSize) ch.tdbDataSize
    have lt := Nat.mod_lt (q - ch.offset % ch.tdbDataSize) pos
    refine ⟨(q - ch.offset % ch.tdbDataSize) / ch.tdbDataSize,
      written _ (.inl (mem_tdbBlocks.mpr ⟨?_, ?_⟩)), ?_, ?_⟩
    · exact (Nat.le_div_iff_mul_le pos).mpr (by omega)
    · have below := reaches.below
      rw [endBlock, requestSize_eq short]
      exact Nat.div_le_div_right (by omega)
    · omega
    · omega
  refine ⟨⟨{ covered'.sizes with }, ?_, fun q other => ?_⟩, { same with }, blocks⟩
  · obtain ⟨groups, recorded, ranges⟩ := covered'.recorded
    exact ⟨groups, recorded.outside _ _,
      ranges.covered, ranges.inside, ranges.disjoint, ranges.some_, ranges.whole⟩
  · by_cases own : p ≤ q ∧ q < p + n
    · obtain ⟨lt, m, is, block⟩ := blocks q own.1 own.2
      exact ⟨lt.trans_eq same.devSize.symm, m, is, same.inBlock.mpr block⟩
    · refine covered'.changed q fun old => other ?_
      exact (patch_apart (by omega)).trans old

theorem step_covered (covered : Covered orig ch) {op : Op} (reaches : Reaches ch op) :
    Covered orig (step ch op) ∧ Same ch (step ch op) ∧ ∀ q, Modifies ch op q → q < ch.devSize ∧
      ∃ m, (step ch op).written m = true ∧ InBlock ch m q := by
  have done : ∀ block count p n bytes, ReachesOver ch block count p n →
      Covered orig (request ch block count p n bytes) ∧ Same ch (request ch block count p n bytes) ∧
        ∀ q, p ≤ q ∧ q < p + n → q < ch.devSize ∧
          ∃ m, (request ch block count p n bytes).written m = true ∧ InBlock ch m q :=
              fun _ _ _ _ bytes reaches => by
    obtain ⟨covered', same, blocks⟩ := request_covered covered reaches bytes
    exact ⟨covered', same, fun q own => blocks q own.1 own.2⟩
  cases op with
  | write block count buf | writeByte offset size buf => exact done _ _ _ _ buf reaches
  | zeroout block count | discard block count rest =>
    simp only [step, undoZeroout, undoDiscard]
    by_cases long : intMax < count
    · rw [if_pos long]
      exact ⟨covered, Same.refl ch, fun q own => absurd own.1 (Nat.not_le.mpr long)⟩
    · rw [if_neg long]
      obtain ⟨covered', same, blocks⟩ := done _ _ _ _ _ (reaches (Nat.le_of_not_lt long))
      exact ⟨covered', same, fun q own => blocks q own.2⟩

section New

variable {devSize blockSize offset tdbDataSize : Nat}

/- An undo file without keys says nothing about the device. -/
theorem newChannel_recorded (dev : Content) (large : 32 ≤ tdbDataSize) :
    Recorded orig (newChannel dev devSize blockSize offset tdbDataSize) [] := by
  refine ⟨⟨rfl, Nat.zero_le _, rfl, rfl, by rintro _ ⟨⟩, by rintro _ ⟨⟩⟩, ?_,
    fun some => absurd rfl some, rfl⟩
  show 0 < keysPerBlock tdbDataSize
  rw [keysPerBlock]
  omega

theorem newChannel_covered (sizes : Sizes (newChannel orig devSize blockSize offset tdbDataSize)) :
    Covered orig (newChannel orig devSize blockSize offset tdbDataSize) := by
  have large : 32 ≤ tdbDataSize := Nat.le_trans (by decide) sizes.large
  refine ⟨sizes, ⟨[], newChannel_recorded orig large, by rintro _ _ ⟨⟩, ?_, List.Pairwise.nil,
    by rintro _ ⟨⟩, by rintro _ ⟨⟩⟩, fun q other => absurd rfl other⟩
  rintro q ⟨info, mem, _⟩
  cases mem

end New

end Requests

section Reading

variable {orig : Content} {ch : Channel} {groups : List (List Key)}

theorem Recorded.keyPos_eq (recorded : Recorded orig ch groups)
    (ranges : Ranges ch (infos ch groups)) (sizes : Sizes ch)
    {key : KeyInfo} (mem : key ∈ infos ch groups) : keyPos ch.hdr key = ch.start key.fsblk := by
  have some_ := ranges.some_ key mem
  have inside :=
    (ranges.inside (ch.start key.fsblk + key.size - 1) ⟨key, mem, by omega, by omega⟩).1
  have dev := sizes.dev
  rw [keyPos, recorded.hdr]
  exact Nat.mod_eq_of_lt (show ch.start key.fsblk < 2 ^ 64 by omega)

/-- A byte of a block that was written is in the undo file under a key. -/
theorem Covered.key (covered : Covered orig ch) {n q : Nat} (written : ch.written n = true)
    (block : InBlock ch n q)
    (inside : q < ch.devSize) : ∃ keys key, e2undoKeys ch.hdr ch.file = some keys ∧ key ∈ keys ∧
      keyPos ch.hdr key ≤ q ∧ q < keyPos ch.hdr key + key.size ∧
      ch.file (key.fileblk * ch.tdbDataSize + (q - keyPos ch.hdr key)) = orig q := by
  obtain ⟨groups, recorded, ranges⟩ := covered.recorded
  have large := covered.sizes.large
  obtain ⟨key, mem, low, high⟩ := ranges.covered n q written block inside
  have pos := recorded.keyPos_eq ranges covered.sizes mem
  refine ⟨_, key, recorded.keys (by omega), mem, pos.trans_le low, by omega, ?_⟩
  rw [pos, (recorded.stored key mem).data _ (by omega), Nat.add_sub_cancel' low]

theorem replay_all {hdr : Header} {file dev : Content} {l : List KeyInfo}
    (old : ∀ key ∈ l, ∀ j < key.size,
      file (key.fileblk * hdr.blockSize + j) = orig (keyPos hdr key + j)) {q : Nat}
    (known : dev q = orig q ∨ ∃ key ∈ l, keyPos hdr key ≤ q ∧ q < keyPos hdr key + key.size) :
    l.foldl (replayKey hdr file) dev q = orig q := by
  induction l generalizing dev with
  | nil => exact known.resolve_right (fun ⟨_, mem, _⟩ => nomatch mem)
  | cons key l ih =>
    refine ih (fun other mem => old other (mem_cons_of_mem _ mem)) ?_
    by_cases own : keyPos hdr key ≤ q ∧ q < keyPos hdr key + key.size
    · left
      rw [replayKey, patch_inside own.1 own.2, old key (mem_cons_self ..) _ (by omega),
        Nat.add_sub_cancel' own.1]
    rcases known with same | ⟨other, mem, covers⟩
    · left
      rw [replayKey, patch_apart (by omega), same]
    · rcases mem_cons.mp mem with rfl | mem
      · exact absurd covers own
      · exact .inr ⟨other, mem, covers⟩

/- What replaying the keys leaves where the device is old or a key covers it. -/
theorem Recorded.replayed (recorded : Recorded orig ch groups) (large : 32 ≤ ch.tdbDataSize)
    (pos : ∀ key ∈ infos ch groups, keyPos ch.hdr key = ch.start key.fsblk) (dev : Content) :
    ∃ out, e2undo ch.hdr ch.file dev = some out ∧ ∀ q, (dev q = orig q ∨
      ∃ key ∈ infos ch groups, Covers ch key q) → out q = orig q := by
  rw [e2undo, recorded.keys large, map_some]
  refine ⟨_, rfl, fun q known => replay_all (fun key mem j lt => ?_) (known.imp_right ?_)⟩
  · rw [mem_mergeSort] at mem
    rw [pos key mem, show ch.hdr.blockSize = ch.tdbDataSize by rw [recorded.hdr]]
    exact (recorded.stored key mem).data j lt
  · rintro ⟨key, mem, low, high⟩
    exact ⟨key, mem_mergeSort.mpr mem, by rwa [pos key mem], by rwa [pos key mem]⟩

theorem Covered.restores_mixed (covered : Covered orig ch) {dev : Content}
    (mixed : ∀ q, dev q = ch.dev q ∨ dev q = orig q) : e2undo ch.hdr ch.file dev = some orig := by
  obtain ⟨groups, recorded, ranges⟩ := covered.recorded
  have large := covered.sizes.large
  obtain ⟨out, done, old⟩ := recorded.replayed (by omega)
    (fun key mem => recorded.keyPos_eq ranges covered.sizes mem) dev
  rw [done]
  refine congrArg some (funext fun q => old q ?_)
  by_cases same : dev q = orig q
  · exact .inl same
  · obtain ⟨lt, n, written, block⟩ := covered.changed q (((mixed q).resolve_right same) ▸ same)
    exact .inr (ranges.covered n q written block lt)

theorem Covered.restores (covered : Covered orig ch) : e2undo ch.hdr ch.file ch.dev = some orig :=
  covered.restores_mixed fun _ => .inl rfl

theorem Covered.keys (covered : Covered orig ch) : ∃ keys, e2undoKeys ch.hdr ch.file = some keys ∧
    keys.length = ch.hdr.numKeys ∧
    keys.Pairwise (fun a b => ∀ q, keyPos ch.hdr a ≤ q → q < keyPos ch.hdr a + a.size →
      ¬ (keyPos ch.hdr b ≤ q ∧ q < keyPos ch.hdr b + b.size)) ∧
    ∀ key ∈ keys,
    key.blkCrc = crc32c 0xFFFFFFFF (bytesAt ch.file (key.fileblk * ch.tdbDataSize) key.size) := by
  obtain ⟨groups, recorded, ranges⟩ := covered.recorded
  have large := covered.sizes.large
  refine ⟨_, recorded.keys (by omega), ?_, ?_, fun key mem => ?_⟩
  · rw [recorded.hdr, recorded.num, infos, length_append, length_walkAll recorded.laid, length_walk]
  · refine ranges.disjoint.imp_of_mem fun memA memB apart q low high => ?_
    rw [recorded.keyPos_eq ranges covered.sizes memA] at low high
    rw [recorded.keyPos_eq ranges covered.sizes memB]
    exact apart q ⟨low, high⟩
  · rw [(recorded.stored key mem).crc]
    exact congrArg _ (bytesAt_congr (recorded.stored key mem).data).symm

end Reading

/-- Nothing is overwritten before its old bytes are in the undo file, under a key that covers them,
if the undo blocks of every request reach over it. -/
theorem undo_captures_first (orig : Content) (devSize blockSize offset tdbDataSize : Nat)
    (ops : List Op) (sizes : Sizes (newChannel orig devSize blockSize offset tdbDataSize))
    (reaches : Along step Reaches (newChannel orig devSize blockSize offset tdbDataSize) ops)
    (pre : List Op) (op : Op) (is : pre ++ [op] <+: ops) (q : Nat)
    (modifies : Modifies (runOps (newChannel orig devSize blockSize offset tdbDataSize) pre) op q) :
    let ch := step (runOps (newChannel orig devSize blockSize offset tdbDataSize) pre) op
    ∃ keys key, e2undoKeys ch.hdr ch.file = some keys ∧ key ∈ keys ∧
      keyPos ch.hdr key ≤ q ∧ q < keyPos ch.hdr key + key.size ∧
      ch.file (key.fileblk * tdbDataSize + (q - keyPos ch.hdr key)) = orig q := by
  obtain ⟨rest, rfl⟩ := is
  obtain ⟨before, now, _⟩ := Along.append.mp (Along.append.mp reaches).1
  obtain ⟨covered, same⟩ := before.keeps
    (fun ch => Covered orig ch ∧ Same (newChannel orig devSize blockSize offset tdbDataSize) ch)
    (fun ch op kept reaches => by
      obtain ⟨covered, same, _⟩ := step_covered kept.1 reaches
      exact ⟨covered, kept.2.trans same⟩) ⟨newChannel_covered sizes, Same.refl _⟩
  obtain ⟨covered', same', blocks⟩ := step_covered covered now
  obtain ⟨lt, m, written, block⟩ := blocks q modifies
  obtain ⟨keys, key, read, mem, low, high, old⟩ :=
    covered'.key written (same'.inBlock.mpr block) (lt.trans_eq same'.devSize.symm)
  refine ⟨keys, key, read, mem, low, high, ?_⟩
  rw [← old]
  congr 3
  exact (same.trans same').tdbDataSize.symm

def sampleDevice : Content := fun q => q.toUInt8

theorem sample_sizes : Sizes (newChannel sampleDevice 8192 1024 0 2048) :=
  ⟨by decide, by decide, by decide, by decide, by decide, by decide, by decide⟩

/- Two blocks from the second one on, which begins in the middle of an undo block. -/
theorem sample_reaches :
    Along step Reaches (newChannel sampleDevice 8192 1024 0 2048) [.zeroout 1 2] :=
  ⟨fun _ => ⟨by decide, by decide +kernel, by decide +kernel, by decide +kernel,
    .inl (by decide +kernel), fun _ low high => .inr ⟨by decide +kernel, high, by
      exact (show _ ≤ 1024 by decide +kernel).trans low⟩⟩, trivial⟩

theorem sample_captured :
    let ch := step (runOps (newChannel sampleDevice 8192 1024 0 2048) []) (.zeroout 1 2)
    ∃ keys key, e2undoKeys ch.hdr ch.file = some keys ∧ key ∈ keys ∧ keyPos ch.hdr key ≤ 2050 ∧
      2050 < keyPos ch.hdr key + key.size ∧
      ch.file (key.fileblk * 2048 + (2050 - keyPos ch.hdr key)) = 2 :=
  undo_captures_first sampleDevice 8192 1024 0 2048 [.zeroout 1 2] sample_sizes sample_reaches
    [] (.zeroout 1 2) (prefix_refl _) 2050 ⟨by decide, by decide +kernel, by decide +kernel⟩

/- A request whose length is a multiple of `2 ^ 32` is taken for an empty one. -/
theorem zeroout_of_4g_not_captured :
    let ch := newChannel (fun _ => 1) (2 ^ 34) 4096 0 4096
    let ch' := step ch (.zeroout (2 ^ 20) (2 ^ 20))
    Sizes ch ∧ Modifies ch (.zeroout (2 ^ 20) (2 ^ 20)) (2 ^ 32) ∧ ch.dev (2 ^ 32) = 1 ∧
      ch'.dev (2 ^ 32) = 0 ∧ e2undoKeys ch'.hdr ch'.file = some [] := by
  refine ⟨⟨by decide, by decide, by decide, by decide, by decide, by decide, by decide⟩,
    ⟨by decide, by decide +kernel, by decide +kernel⟩, rfl, ?_, ?_⟩
  · rfl
  · rfl

section Session

/- Requests inside the device, with lengths below `2 ^ 31`. -/
def Within (ch : Channel) : Op → Prop
  | .write block count _ =>
    block * ch.blockSize + byteSize ch count ≤ ch.devSize ∧ byteSize ch count < 2 ^ 31
  | .writeByte offset size _ => offset + size ≤ ch.devSize ∧ size < 2 ^ 31
  | .zeroout block count | .discard block count _ =>
    block * ch.blockSize + count * ch.blockSize ≤ ch.devSize ∧ count * ch.blockSize < 2 ^ 31

/- What else a request needs: it is not an empty one at the start of the device, and a byte request
is below `2 ^ 31` with the rest of its first and last block. -/
def Measured (ch : Channel) : Op → Prop
  | .write block count _ => 0 < block * ch.blockSize + byteSize ch count
  | .writeByte offset size _ => 0 < offset + size ∧ byteCount ch offset size * ch.blockSize < 2 ^ 31
  | .zeroout block count | .discard block count _ => 0 < block * ch.blockSize + count * ch.blockSize

variable {ch : Channel} {block p n len : Nat} {count : Int}

theorem pos_eq (zero : ch.offset = 0) (block : Nat) (below : block * ch.blockSize < 2 ^ 64) :
    ch.pos block = block * ch.blockSize := by
  rw [Channel.pos, zero, add_zero, Nat.mod_eq_of_lt below]

/- The bytes of a request lie behind the captured start if there is no offset. -/
theorem reachesOver (zero : ch.offset = 0) (below : block * ch.blockSize ≤ 2 ^ 62)
    (some_ : 0 < block * ch.blockSize + byteSize ch count) (short : byteSize ch count < 2 ^ 31)
    (low : block * ch.blockSize ≤ p) (high : p + n ≤ block * ch.blockSize + byteSize ch count)
    (inside : p + n ≤ ch.devSize) : ReachesOver ch block count p n := by
  have pos := pos_eq zero block (by omega)
  have start := Nat.div_mul_le_self (block * ch.blockSize) ch.tdbDataSize
  refine ⟨?_, pos ▸ below, inside, pos ▸ some_, .inl short,
    fun q first last => .inr ⟨short, ?_, ?_⟩⟩
  · rw [zero]
    exact Nat.zero_le _
  · rw [pos]
    omega
  · rw [pos, zero, Nat.zero_mod, add_zero]
    omega

theorem byteSize_ofNat (ch : Channel) (count : Nat) : byteSize ch count = count * ch.blockSize := by
  rw [byteSize, if_neg (by omega), Int.toNat_natCast]

/- Requests of whole blocks, or of some bytes from the start of a block. -/
theorem reachesOver_blocks (sizes : Sizes ch) (zero : ch.offset = 0)
    (inside : block * ch.blockSize + byteSize ch count ≤ ch.devSize)
    (short : byteSize ch count < 2 ^ 31)
    (some_ : 0 < block * ch.blockSize + byteSize ch count) :
    ReachesOver ch block count (ch.pos block) (byteSize ch count) := by
  have dev := sizes.dev
  rw [pos_eq zero block (by omega)]
  exact reachesOver zero (by omega) some_ short le_rfl le_rfl inside

theorem reaches_of_within (sizes : Sizes ch) (zero : ch.offset = 0) {op : Op}
    (within : Within ch op) (measured : Measured ch op) : Reaches ch op := by
  cases op with
  | write block count buf => exact reachesOver_blocks sizes zero within.1 within.2 measured
  | writeByte offset size buf =>
    obtain ⟨inside, short⟩ := within
    obtain ⟨some_, round⟩ := measured
    have dev := sizes.dev
    have location : byteLocation ch offset = offset := by
      rw [byteLocation, zero, add_zero, Nat.mod_eq_of_lt (by omega)]
    have start := Nat.div_add_mod' offset ch.blockSize
    have span := Nat.div_add_mod' (size + offset % ch.blockSize + ch.blockSize - 1) ch.blockSize
    have rest := Nat.mod_lt (size + offset % ch.blockSize + ch.blockSize - 1) sizes.pos
    have isCount : byteCount ch offset size =
        (size + offset % ch.blockSize + ch.blockSize - 1) / ch.blockSize := by
      rw [byteCount, location]
    rw [← isCount] at span
    have small : byteCount ch offset size < 2 ^ 31 :=
      (Nat.le_mul_of_pos_right _ sizes.pos).trans_lt round
    have count : (byteCount ch offset size : Int).bmod (2 ^ 32) = byteCount ch offset size :=
      Int.bmod_eq_of_le (by omega) (by omega)
    have length := byteSize_ofNat ch (byteCount ch offset size)
    show ReachesOver ch (byteLocation ch offset / ch.blockSize) _ (byteLocation ch offset) size
    rw [location, count]
    rw [← length] at span round
    exact reachesOver zero (by omega) (by omega) round (by omega) (by omega) inside
  | zeroout block count | discard block count rest =>
    intro _
    have blocks := byteSize_ofNat ch count
    have :=
      reachesOver_blocks sizes zero (blocks ▸ within.1) (blocks ▸ within.2) (blocks ▸ measured)
    rwa [blocks] at this

end Session

/-- The undo file restores the device after every request of a session without offset. -/
theorem undo_file_restores (orig : Content) (devSize blockSize tdbDataSize : Nat) (ops : List Op)
    (sizes : Sizes (newChannel orig devSize blockSize 0 tdbDataSize))
    (within : Along step Within (newChannel orig devSize blockSize 0 tdbDataSize) ops)
    (measured : Along step Measured (newChannel orig devSize blockSize 0 tdbDataSize) ops)
    (pre : List Op) (is : pre <+: ops) :
    let ch := runOps (newChannel orig devSize blockSize 0 tdbDataSize) pre
    e2undo ch.hdr ch.file ch.dev = some orig ∧ ∃ keys, e2undoKeys ch.hdr ch.file = some keys ∧
      keys.length = ch.hdr.numKeys ∧
      keys.Pairwise (fun a b => ∀ q, keyPos ch.hdr a ≤ q → q < keyPos ch.hdr a + a.size →
        ¬ (keyPos ch.hdr b ≤ q ∧ q < keyPos ch.hdr b + b.size)) ∧
      ∀ key ∈ keys, key.blkCrc =
          crc32c 0xFFFFFFFF (bytesAt ch.file (key.fileblk * ch.tdbDataSize) key.size) := by
  obtain ⟨rest, rfl⟩ := is
  have before := (Along.append.mp (within.and measured)).1
  obtain ⟨covered, _⟩ :=
      before.keeps (fun ch => Covered orig ch ∧ ch.offset = 0) (fun ch op kept meets => by
      obtain ⟨covered, same, _⟩ :=
        step_covered kept.1 (reaches_of_within kept.1.sizes kept.2 meets.1 meets.2)
      exact ⟨covered, same.offset.trans kept.2⟩) ⟨newChannel_covered sizes, rfl⟩
  exact ⟨covered.restores, covered.keys⟩

theorem sample_restored :
    let ch := runOps (newChannel sampleDevice 8192 1024 0 2048) [Op.writeByte 1000 100 fun _ => 1]
    e2undo ch.hdr ch.file ch.dev = some sampleDevice ∧
      ∃ keys, e2undoKeys ch.hdr ch.file = some keys ∧ keys.length = ch.hdr.numKeys ∧
      keys.Pairwise (fun a b => ∀ q, keyPos ch.hdr a ≤ q → q < keyPos ch.hdr a + a.size →
        ¬ (keyPos ch.hdr b ≤ q ∧ q < keyPos ch.hdr b + b.size)) ∧
      ∀ key ∈ keys, key.blkCrc =
        crc32c 0xFFFFFFFF (bytesAt ch.file (key.fileblk * ch.tdbDataSize) key.size) :=
  undo_file_restores sampleDevice 8192 1024 2048 [Op.writeByte 1000 100 fun _ => 1] sample_sizes
    ⟨⟨by decide +kernel, by decide +kernel⟩, trivial⟩
    ⟨⟨by decide +kernel, by decide +kernel⟩, trivial⟩ _ (prefix_refl _)

/- Of a single block that the device ends in zeros are recorded. -/
theorem captureBlock_short {ch : Channel} {n backing len : Nat} (fresh : ch.written n = false)
    (one : ch.tdbDataSize = ch.blockSize) (isBacking : backingBlkNum ch n = backing)
    (isLen : ch.devSize - ch.pos backing = len) (some_ : 0 < len) (short : len < ch.tdbDataSize) :
    captureBlock ch n = writeUndoIndexes (appendData (addKey
      { ch with written := Function.update ch.written n true } backing (replicate len 0))
      (replicate len 0)) := by
  have read : readBacking { ch with written := Function.update ch.written n true } backing =
      replicate len 0 := by
    change readBacking ch backing = _
    rw [readBacking, isLen, min_eq_right short.le, if_pos ⟨short, one⟩]
  rw [captureBlock, if_neg (by simp [fresh])]
  change (if readBacking _ (backingBlkNum ch n) = [] then _ else writeUndoIndexes (appendData
    (addKey _ (backingBlkNum ch n) (readBacking _ (backingBlkNum ch n)))
      (readBacking _ (backingBlkNum ch n)))) = _
  rw [isBacking, read, if_neg (by simp [some_.ne'])]

def unevenChannel : Channel := newChannel (fun _ => 1) 2500 1024 0 1024

theorem partial_block_not_restored :
    let op := Op.write 2 (-452) zeros
    let ch := step unevenChannel op
    Within unevenChannel op ∧ Measured unevenChannel op ∧
      (e2undo ch.hdr ch.file ch.dev).map (· 2048) = some 0 := by
  refine ⟨⟨by decide +kernel, by decide +kernel⟩, show 0 < 2500 by decide, ?_⟩
  have none : Recorded zeros unevenChannel [] := newChannel_recorded _ (by decide)
  have bytes : ∀ p n, replicate n 0 = bytesAt zeros p n := fun p n => by simp [bytesAt, zeros]
  have blocks : tdbBlocks unevenChannel 2 (-452) = [2] := by decide +kernel
  have captured := @captureBlock_short unevenChannel 2 2 452 rfl rfl (by decide) (by decide)
    (by decide) (by decide)
  rw [step, undoWriteBlk64, request, undoWriteTdb, blocks, foldl_cons, foldl_nil]
  generalize captureBlock unevenChannel 2 = last at captured
  obtain ⟨groups, recorded, added, same, -⟩ := addKey_recorded (none.outside _ _) (by decide)
    (by decide) (by decide) (bytes _ 452) (by decide) (show 2 < 2 ^ 64 by decide)
      (fun _ last => by cases last) captured
  have first : ∀ key ∈ infos last groups, key.fsblk = 2 := by
    generalize infos last groups = keys at added
    generalize old : infos _ [] = none at added
    change [] = none at old
    cases added with
    | new _ key fsblk => rw [← old]; exact forall_mem_singleton.mpr fsblk
    | more front => simp at old
  obtain ⟨out, done, old⟩ := recorded.replayed (by rw [same.tdbDataSize]; decide) (fun key mem => by
    rw [keyPos, recorded.hdr, Channel.start, first key mem, same.blockSize, same.offset]
    rfl) (patch last.dev (unevenChannel.pos 2) (byteSize unevenChannel (-452)) zeros)
  have value := old 2048 (.inl (patch_inside (by decide +kernel) (by decide +kernel)))
  exact (congrArg (Option.map (· 2048)) done).trans (congrArg some value)

end E2fs.Undo
