import E2fs.Undo.Record

/-! Which bytes of the device are in the undo file. An undo block is captured once, before anything
in it is written, and its bytes are then covered by one key. -/
namespace E2fs.Undo
open Device Word List Function Nat

def InBlock (ch : Channel) (n q : Nat) : Prop :=
  n * ch.tdbDataSize + ch.offset % ch.tdbDataSize ≤ q ∧
    q < n * ch.tdbDataSize + ch.offset % ch.tdbDataSize + ch.tdbDataSize

def Covers (ch : Channel) (info : KeyInfo) (q : Nat) : Prop :=
  ch.start info.fsblk ≤ q ∧ q < ch.start info.fsblk + info.size

/-- The keys cover what the blocks that were written cover, each byte once. -/
structure Ranges (ch : Channel) (l : List KeyInfo) : Prop where
  covered : ∀ n q, ch.written n = true → InBlock ch n q → q < ch.devSize →
    ∃ info ∈ l, Covers ch info q
  inside : ∀ q, (∃ info ∈ l, Covers ch info q) → q < ch.devSize ∧ ∃ n, ch.written n = true ∧
    InBlock ch n q
  disjoint : l.Pairwise fun a b => ∀ q, Covers ch a q → ¬ Covers ch b q
  some_ : ∀ info ∈ l, 0 < info.size
  whole : ∀ info ∈ l, info.size % ch.tdbDataSize = 0

/-- The sizes that the channel accepts, on a device that ends with an undo block. -/
structure Sizes (ch : Channel) : Prop where
  large : 1024 ≤ ch.tdbDataSize
  small : ch.tdbDataSize ≤ 2 ^ 20
  pos : 0 < ch.blockSize
  block : ch.blockSize ≤ 2 ^ 20
  dvd : ch.blockSize ∣ ch.tdbDataSize
  dev : ch.devSize ≤ 2 ^ 62
  whole : ch.devSize % ch.tdbDataSize = ch.offset % ch.tdbDataSize

/-- The undo file has what it needs: where the device changed, the old bytes are covered. -/
structure Covered (orig : Content) (ch : Channel) : Prop where
  sizes : Sizes ch
  recorded : ∃ groups, Recorded orig ch groups ∧ Ranges ch (infos ch groups)
  changed : ∀ q, ch.dev q ≠ orig q → q < ch.devSize ∧ ∃ n, ch.written n = true ∧ InBlock ch n q

section Blocks

variable {orig : Content} {ch ch' : Channel} {l l' : List KeyInfo} {n m q backing len : Nat}
  {groups : List (List Key)}

theorem InBlock.unique (first : InBlock ch n q) (second : InBlock ch m q) : n = m := by
  have is : ∀ k, InBlock ch k q → (q - ch.offset % ch.tdbDataSize) / ch.tdbDataSize = k :=
      fun k block => by
    obtain ⟨low, high⟩ := block
    refine Nat.div_eq_of_lt_le (by omega) ?_
    rw [succ_mul]
    omega
  exact (is n first).symm.trans (is m second)

theorem Same.sizes (same : Same ch ch') (sizes : Sizes ch) : Sizes ch' where
  large := same.tdbDataSize ▸ sizes.large
  small := same.tdbDataSize ▸ sizes.small
  pos := same.blockSize ▸ sizes.pos
  block := same.blockSize ▸ sizes.block
  dvd := by rw [same.blockSize, same.tdbDataSize]; exact sizes.dvd
  dev := same.devSize ▸ sizes.dev
  whole := by rw [same.devSize, same.tdbDataSize, same.offset]; exact sizes.whole

theorem Same.inBlock (same : Same ch ch') : InBlock ch' n q ↔ InBlock ch n q := by
  rw [InBlock, InBlock, same.tdbDataSize, same.offset]

theorem Same.covers (same : Same ch ch') {info : KeyInfo} : Covers ch' info q ↔
    Covers ch info q := by
  rw [Covers, Covers, same.start]

theorem backing_start (sizes : Sizes ch) (above : ch.offset / ch.tdbDataSize ≤ n)
    (bound : n * ch.tdbDataSize + ch.offset % ch.tdbDataSize < 2 ^ 63) :
    ch.start (backingBlkNum ch n) = n * ch.tdbDataSize + ch.offset % ch.tdbDataSize ∧
    backingBlkNum ch n < 2 ^ 64 ∧
      ch.pos (backingBlkNum ch n) = n * ch.tdbDataSize + ch.offset % ch.tdbDataSize := by
  obtain ⟨r, is⟩ := sizes.dvd
  have pos := sizes.pos
  have split := div_add_mod' ch.offset ch.tdbDataSize
  obtain ⟨k, rfl⟩ := Nat.exists_eq_add_of_le above
  have start : (ch.offset / ch.tdbDataSize + k) * ch.tdbDataSize + ch.offset % ch.tdbDataSize =
      ch.offset + k * r * ch.blockSize := by
    calc (ch.offset / ch.tdbDataSize + k) * ch.tdbDataSize + ch.offset % ch.tdbDataSize
        = ch.offset / ch.tdbDataSize * ch.tdbDataSize + ch.offset % ch.tdbDataSize +
          k * ch.tdbDataSize := by ring
      _ = ch.offset + k * r * ch.blockSize := by rw [split, is]; ring
  rw [start] at bound ⊢
  have less : k * r ≤ k * r * ch.blockSize := Nat.le_mul_of_pos_right _ pos
  have exactly : (((ch.offset + k * r * ch.blockSize : Nat) : Int) - ch.offset).tdiv ch.blockSize =
      (k * r : Nat) := by
    rw [cast_add, add_sub_cancel_left, ← Int.ofNat_tdiv, Nat.mul_div_cancel _ pos]
  have value : backingBlkNum ch (ch.offset / ch.tdbDataSize + k) = k * r := by
    unfold backingBlkNum
    simp only [start, bmod64_eq bound, exactly]
    exact toNat_mod64 (by omega)
  have at_ : ch.start (k * r) = ch.offset + k * r * ch.blockSize := by
    rw [Channel.start, add_comm]
  rw [value]
  refine ⟨at_, by omega, ?_⟩
  change ch.start (k * r) % 2 ^ 64 = _
  rw [at_]
  exact mod_eq_of_lt (by omega)

theorem Added.covers_iff (added : Added ch.start ch.tdbDataSize backing len l l') :
    (∃ info ∈ l', Covers ch info q) ↔
      (∃ info ∈ l, Covers ch info q) ∨ ch.start backing ≤ q ∧ q < ch.start backing + len := by
  cases added with
  | new _ info fsblk size =>
    simp only [mem_append, mem_singleton, or_and_right, exists_or, exists_eq_left, Covers, fsblk,
      size]
  | more front old info fsblk size whole next =>
    simp only [mem_append, mem_singleton, or_and_right, exists_or, exists_eq_left, Covers, fsblk,
      size, or_assoc]
    refine or_congr_right ?_
    omega

theorem Ranges.add (ranges : Ranges ch l)
    (added : Added ch.start ch.tdbDataSize backing ch.tdbDataSize l l')
    (fresh : ch.written n = false)
    (start : ch.start backing = n * ch.tdbDataSize + ch.offset % ch.tdbDataSize)
    (fits : ch.start backing + ch.tdbDataSize ≤ ch.devSize) (some_ : 0 < ch.tdbDataSize)
    (same : Same ch ch') (written : ch'.written = update ch.written n true) : Ranges ch' l' := by
  have old : ∀ m, ch.written m = true → ch'.written m = true := fun m is => by
    rw [written, update_apply]
    split
    · rfl
    · exact is
  -- a byte of the new block is covered by no key that was there
  have apart : ∀ q, ch.start backing ≤ q → q < ch.start backing + ch.tdbDataSize →
      ¬ ∃ info ∈ l, Covers ch info q := by
    rintro q low high covers
    obtain ⟨_, m, is, block⟩ := ranges.inside q covers
    have own : InBlock ch n q := ⟨by omega, by omega⟩
    rw [block.unique own, fresh] at is
    cases is
  refine ⟨fun m q is block lt => ?_, fun q covers => ?_, ?_, ?_, ?_⟩
  · rw [same.inBlock] at block
    rw [same.devSize] at lt
    simp only [same.covers]
    rw [added.covers_iff]
    by_cases own : m = n
    · obtain ⟨low, high⟩ := block
      rw [own] at low high
      exact .inr ⟨by omega, by omega⟩
    · rw [written, update_of_ne own] at is
      exact .inl (ranges.covered m q is block lt)
  · simp only [same.covers] at covers
    simp only [same.inBlock, same.devSize]
    rcases added.covers_iff.mp covers with before | ⟨low, high⟩
    · obtain ⟨lt, m, is, block⟩ := ranges.inside q before
      exact ⟨lt, m, old m is, block⟩
    · exact ⟨by omega, n, by rw [written, update_self], by omega, by omega⟩
  · simp only [same.covers]
    cases added with
    | new _ info fsblk size' =>
      refine pairwise_append.mpr
        ⟨ranges.disjoint, pairwise_singleton .., fun a mem b memb q first second => ?_⟩
      rw [mem_singleton.mp memb, Covers, fsblk, size'] at second
      exact apart q second.1 second.2 ⟨a, mem, first⟩
    | more front old info fsblk size' whole' next =>
      obtain ⟨pairs, _, across⟩ := pairwise_append.mp ranges.disjoint
      refine pairwise_append.mpr
        ⟨pairs, pairwise_singleton .., fun a mem b memb q first second => ?_⟩
      rw [mem_singleton.mp memb, Covers, fsblk, size'] at second
      by_cases before : q < ch.start old.fsblk + old.size
      · exact across a mem old (mem_singleton_self _) q first ⟨second.1, before⟩
      · exact apart q (by omega) (by omega) ⟨a, mem_append_left _ mem, first⟩
  · cases added with
    | new _ info fsblk size' =>
      exact forall_mem_append.mpr ⟨ranges.some_, forall_mem_singleton.mpr (size' ▸ some_)⟩
    | more front old info fsblk size' whole' next =>
      exact forall_mem_append.mpr
        ⟨(forall_mem_append.mp ranges.some_).1, forall_mem_singleton.mpr (by omega)⟩
  · rw [same.tdbDataSize]
    cases added with
    | new _ info fsblk size' =>
      refine forall_mem_append.mpr ⟨ranges.whole, forall_mem_singleton.mpr ?_⟩
      rw [size', mod_self]
    | more front old info fsblk size' whole' next =>
      refine forall_mem_append.mpr
        ⟨(forall_mem_append.mp ranges.whole).1, forall_mem_singleton.mpr ?_⟩
      rw [size', add_mod_right, whole']

theorem exists_info (T lblk : Nat) {keys : List Key} {key : Key} (mem : key ∈ keys) :
    ∃ info ∈ walk T lblk keys, info.fsblk = key.fsblk ∧ info.size = key.size := by
  induction keys generalizing lblk with
  | nil => cases mem
  | cons other keys ih =>
    rcases mem_cons.mp mem with rfl | mem
    · exact ⟨_, mem_cons_self .., rfl, rfl⟩
    · obtain ⟨info, is, same⟩ := ih _ mem
      exact ⟨info, mem_cons_of_mem _ is, same⟩

/- A key is only extended by the block behind its data. -/
theorem Ranges.follows (ranges : Ranges ch (infos ch groups)) (sizes : Sizes ch) :
    Follows ch backing len := by
  intro key last merges
  obtain ⟨info, mem, fsblk, size⟩ :=
    exists_info ch.tdbDataSize (ch.keyBlkNum + 1) (List.mem_of_getLast? last)
  have mem' : info ∈ infos ch groups := mem_append_right _ mem
  have pos := sizes.pos
  have some_ := ranges.some_ info mem'
  have inside :=
    (ranges.inside (ch.start info.fsblk + info.size - 1) ⟨info, mem', by omega, by omega⟩).1
  have whole := ranges.whole info mem'
  rw [fsblk, size] at inside
  rw [size] at whole
  have block := (of_decide_eq_true merges).1
  have dev := sizes.dev
  have small := sizes.block
  rw [Channel.start] at inside
  rw [mod_eq_of_lt (by omega)] at block
  refine ⟨whole, ?_⟩
  obtain ⟨k, is⟩ := dvd_trans sizes.dvd (dvd_of_mod_eq_zero whole)
  have value : (key.fsblk * ch.blockSize + ch.blockSize - 1 + key.size) / ch.blockSize =
      key.fsblk + k := by
    rw [is, show key.fsblk * ch.blockSize + ch.blockSize - 1 + ch.blockSize * k =
      ch.blockSize - 1 + (key.fsblk + k) * ch.blockSize by rw [add_mul, mul_comm k]; omega,
      add_mul_div_right _ _ pos, div_eq_of_lt (by omega), zero_add]
  rw [Channel.start, Channel.start, ← block, value, is, add_mul, mul_comm k]
  omega

/- The undo file is all that it is about. -/
theorem Recorded.outside (recorded : Recorded orig ch groups) (written : Nat → Bool)
    (dev : Content) : Recorded orig { ch with written := written, dev := dev } groups :=
  ⟨⟨recorded.laid, recorded.few, recorded.next, recorded.num, recorded.fits, fun info mem =>
      ⟨(recorded.stored info mem).data, (recorded.stored info mem).crc,
        (recorded.stored info mem).small⟩⟩,
    recorded.room, recorded.keyb, recorded.hdr⟩

structure Captured (orig : Content) (ch : Channel) (n : Nat) (ch' : Channel) : Prop where
  covered : Covered orig ch'
  same : Same ch ch'
  dev : ch'.dev = ch.dev
  own : ch'.written n = true
  others : ∀ m, ch.written m = true → ch'.written m = true

theorem update_written (n : Nat) : ∀ m, ch.written m = true → update ch.written n true m = true :=
  fun m is => by
  rw [update_apply]
  split
  · rfl
  · exact is

theorem Covered.fresh_bytes (covered : Covered orig ch) (fresh : ch.written n = false) {p : Nat}
    (start : p = n * ch.tdbDataSize + ch.offset % ch.tdbDataSize) (le : len ≤ ch.tdbDataSize) :
    bytesAt ch.dev p len = bytesAt orig p len := by
  refine bytesAt_congr fun j lt => ?_
  by_contra other
  obtain ⟨_, m, is, block⟩ := covered.changed _ other
  have own : InBlock ch n (p + j) := ⟨by omega, by omega⟩
  rw [block.unique own, fresh] at is
  cases is

/- An undo block is read whole, or it starts behind the device. -/
theorem Covered.readBacking_eq (covered : Covered orig ch) (fresh : ch.written n = false)
    (start : ch.start backing = n * ch.tdbDataSize + ch.offset % ch.tdbDataSize)
    (place : ch.pos backing = ch.start backing) (pos : 0 < ch.tdbDataSize) :
    ch.devSize ≤ ch.start backing ∧
        readBacking { ch with written := update ch.written n true } backing = [] ∨
      ch.start backing + ch.tdbDataSize ≤ ch.devSize ∧
        readBacking { ch with written := update ch.written n true } backing =
          bytesAt orig (ch.start backing) ch.tdbDataSize := by
  have split := div_add_mod' ch.devSize ch.tdbDataSize
  rw [covered.sizes.whole] at split
  change _ ∧ readBacking ch backing = [] ∨ _ ∧ readBacking ch backing = _
  rw [readBacking, place]
  by_cases before : n < ch.devSize / ch.tdbDataSize
  · have fits := Nat.mul_le_mul_right ch.tdbDataSize (succ_le_of_lt before)
    rw [succ_mul] at fits
    have length : min ch.tdbDataSize (ch.devSize - ch.start backing) = ch.tdbDataSize := by omega
    rw [length, if_neg fun short => lt_irrefl _ short.1]
    exact .inr ⟨by omega, covered.fresh_bytes fresh start le_rfl⟩
  · have past := Nat.mul_le_mul_right ch.tdbDataSize (Nat.le_of_not_lt before)
    have length : min ch.tdbDataSize (ch.devSize - ch.start backing) = 0 := by omega
    rw [length]
    exact .inl ⟨by omega, ite_self _⟩

theorem captureBlock_captured (covered : Covered orig ch) (above : ch.offset / ch.tdbDataSize ≤ n)
    (bound : n * ch.tdbDataSize + ch.offset % ch.tdbDataSize < 2 ^ 63) :
    Captured orig ch n (captureBlock ch n) := by
  rw [captureBlock]
  by_cases before : ch.written n = true
  · rw [if_pos before]
    exact ⟨covered, ⟨rfl, rfl, rfl, rfl⟩, rfl, before, fun _ is => is⟩
  rw [if_neg before]
  rw [Bool.not_eq_true] at before
  obtain ⟨start, fit, place⟩ := backing_start covered.sizes above bound
  have large := covered.sizes.large
  have small := covered.sizes.small
  obtain ⟨groups, recorded, ranges⟩ := covered.recorded
  have bytes := covered.readBacking_eq before start (place.trans start.symm) (by omega)
  have changed : ∀ q, ch.dev q ≠ orig q → q < ch.devSize ∧
      ∃ m, update ch.written n true m = true ∧ InBlock ch m q := fun q other => by
    obtain ⟨lt, m, is, block⟩ := covered.changed q other
    exact ⟨lt, m, update_written n m is, block⟩
  change Captured orig ch n (if readBacking _ (backingBlkNum ch n) = [] then _ else
    writeUndoIndexes
      (appendData (addKey _ (backingBlkNum ch n) (readBacking _ (backingBlkNum ch n)))
      (readBacking _ (backingBlkNum ch n))))
  rcases bytes with ⟨past, none⟩ | ⟨fits, bytes⟩
  · rw [none, if_pos rfl]
    refine ⟨⟨{ covered.sizes with }, ⟨groups, recorded.outside _ _, ?_⟩, changed⟩,
      ⟨rfl, rfl, rfl, rfl⟩, rfl, update_self .., update_written n⟩
    refine ⟨fun m q is block lt => ?_, fun q covers => ?_, ranges.disjoint, ranges.some_,
      ranges.whole⟩
    · by_cases own : m = n
      · obtain ⟨low, high⟩ := block
        rw [own] at low
        change q < ch.devSize at lt
        change n * ch.tdbDataSize + ch.offset % ch.tdbDataSize ≤ q at low
        omega
      · change update ch.written n true m = true at is
        rw [update_of_ne own] at is
        exact ranges.covered m q is block lt
    · obtain ⟨lt, m, is, block⟩ := ranges.inside q covers
      exact ⟨lt, m, update_written n m is, block⟩
  · have some_ : 0 < ch.tdbDataSize := by omega
    have notNil : bytesAt orig (ch.start (backingBlkNum ch n)) ch.tdbDataSize ≠ [] := fun nil => by
      have := congrArg List.length nil
      rw [length_bytesAt, length_nil] at this
      omega
    rw [bytes, if_neg notNil]
    have follows : Follows ch (backingBlkNum ch n) ch.tdbDataSize := ranges.follows covered.sizes
    obtain ⟨groups', recorded', added, same, dev, written⟩ := addKey_recorded
      (recorded.outside (update ch.written n true) ch.dev) some_ le_rfl small rfl
      (show 32 ≤ ch.tdbDataSize by omega) fit follows rfl
    have same' : Same ch _ := { same with }
    refine ⟨⟨same'.sizes covered.sizes, ⟨groups', recorded', ?_⟩, fun q other => ?_⟩, same', dev,
      ?_, ?_⟩
    · exact ranges.add added before start fits some_ same' written
    · obtain ⟨lt, m, is, block⟩ := changed q fun old => other ((congrFun dev q).trans old)
      exact ⟨lt.trans_eq same'.devSize.symm, m, (congrFun written m).trans is,
        same'.inBlock.mpr block⟩
    · exact (congrFun written n).trans (update_self ..)
    · exact fun m is => (congrFun written m).trans (update_written n m is)

theorem captureAll (covered : Covered orig ch) (blocks : List Nat)
    (may : ∀ n ∈ blocks, ch.offset / ch.tdbDataSize ≤ n ∧
      n * ch.tdbDataSize + ch.offset % ch.tdbDataSize < 2 ^ 63) :
    let ch' := blocks.foldl captureBlock ch
    Covered orig ch' ∧ Same ch ch' ∧ ∀ n, n ∈ blocks ∨ ch.written n = true →
        ch'.written n = true := by
  induction blocks generalizing ch with
  | nil => exact ⟨covered, Same.refl ch, fun n is => is.resolve_left nofun⟩
  | cons n blocks ih =>
    obtain ⟨above, bound⟩ := may n (mem_cons_self ..)
    have captured := captureBlock_captured covered above bound
    obtain ⟨covered', same, written⟩ := ih captured.covered fun m mem => by
      rw [captured.same.offset, captured.same.tdbDataSize]
      exact may m (mem_cons_of_mem _ mem)
    refine ⟨covered', captured.same.trans same, fun m is => written m ?_⟩
    rcases is with mem | before
    · rcases mem_cons.mp mem with rfl | mem
      · exact .inr captured.own
      · exact .inl mem
    · exact .inr (captured.others m before)

end Blocks

end E2fs.Undo
