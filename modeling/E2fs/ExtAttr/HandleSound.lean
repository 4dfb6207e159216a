import E2fs.ExtAttr.Accepted
import E2fs.ExtAttr.Handle

/-! Where the reader looks after a write: at the inode's buffer and at the block, as the
writer left them. -/
namespace E2fs.ExtAttr
open Memory Loop Function List

variable {fs : EaFs} {f m : Mem} {q : Int}

structure Context.Like (ctx ctx' : Context) : Prop where
  signedChar : ctx.signedChar = ctx'.signedChar
  eaInode : ctx.eaInode = ctx'.eaInode
  inode : ctx.inode = ctx'.inode

theorem Context.Like.symm {ctx ctx' : Context} (like : ctx.Like ctx') : ctx'.Like ctx :=
  ⟨like.signedChar.symm, like.eaInode.symm, like.inode.symm⟩

section Parts

variable {alloc : Option fs.FreeBlock} {d d' : Disk} {h : Handle} {runs : List BufferRun}

theorem xattrsWrite_cases (ok : xattrsWrite fs alloc d h = .ok (d', runs)) :
    extraIsize (setExtraIsize fs (readInodeFull fs d)) % 4 = 0 ∧ ∃ inode ibody inode' blocks block,
      writeIbody fs (setExtraIsize fs (readInodeFull fs d))
      (h.attrs.take h.ibodyCount) = .ok (inode, ibody) ∧
      writeEaBlock fs alloc inode d.blocks (h.attrs.drop h.ibodyCount) =
        .ok (inode', blocks, block) ∧
      d' = ⟨inode', blocks⟩ ∧ runs = ibody ++ block := by
  dsimp only [xattrsWrite] at ok
  split at ok
  · cases ok
  rename_i aligned
  split at ok
  · cases ok
  rename_i inode ibody first
  split at ok
  · cases ok
  rename_i inode' blocks block second
  cases ok
  exact ⟨not_not.mp aligned, inode, ibody, inode', blocks, block, first, second, rfl, rfl⟩

variable {inode inode' : Mem} {attrs : List Xattr}

theorem writeIbody_cases (ok : writeIbody fs inode attrs = .ok (inode', runs)) :
    (noSpace fs inode ∧ inode' = inode ∧ runs = []) ∨
    (¬ noSpace fs inode ∧ ∃ ctx run, writeXattrsToBuffer ctx 0 false attrs
        (shift (store inode (128 + extraIsize inode) 4 extAttrMagic) (ibodyStart inode))
        (ibodySize fs inode) = .ok run ∧ (∀ m, ctx.Like (context fs m)) ∧
      inode' = shift run.mem (-(ibodyStart inode : Int)) ∧ runs = [⟨run, ibodySize fs inode⟩]) := by
  unfold writeIbody at ok
  split_ifs at ok with space
  · cases ok
    exact .inl ⟨‹_›, rfl, rfl⟩
  dsimp only at ok
  split at ok
  · cases ok
  rename_i run written
  cases ok
  exact .inr ⟨space, _, run, written, fun m => ⟨rfl, rfl, rfl⟩, rfl, rfl⟩

theorem prepEaBlockForWrite_cases {blocks blocks' : Nat → Mem}
    (ok : prepEaBlockForWrite fs alloc inode blocks = .ok (inode', blocks')) :
    fileAclBlock fs inode' ≠ 0 ∧ ¬ blockOutside fs (fileAclBlock fs inode') ∧
      ∀ q : Int, 120 ≤ q → inode' q = inode q := by
  have new : ∀ blk : fs.FreeBlock, fileAclBlock fs (fileAclBlockSet fs inode blk.1) = blk.1 ∧
      ∀ q : Int, 120 ≤ q → fileAclBlockSet fs inode blk.1 q = inode q := by
    intro blk
    have inside := blk.2.2.1
    have bound := fs.count_le
    unfold fileAclBlock fileAclBlockSet
    cases wide : fs.has64bit with
    | true =>
      simp only [wide, if_true] at bound ⊢
      refine ⟨?_, fun q high => ?_⟩
      · rw [load_store_apart (by omega), load_store, load_store_of_lt (by omega)]
        omega
      · rw [store_apart (by omega), store_apart (by omega)]
    | false =>
      simp only [wide, Bool.false_eq_true, if_false] at bound ⊢
      refine ⟨?_, fun q high => ?_⟩
      · rw [load_store_of_lt (by omega), add_zero]
      · rw [store_apart (by omega)]
  have outside : ∀ blk : fs.FreeBlock, ¬ blockOutside fs blk.1 := by
    rintro ⟨blk, low, high, -⟩
    show ¬ (blk < fs.firstDataBlock ∨ fs.blocksCount ≤ blk)
    omega
  unfold prepEaBlockForWrite at ok
  dsimp only at ok
  split at ok
  · split at ok
    · cases ok
    · rename_i blk
      cases ok
      rw [(new blk).1]
      exact ⟨blk.2.2.2, outside blk, (new blk).2⟩
  rename_i used
  split at ok
  · cases ok
  rename_i range
  split at ok
  · cases ok
  split at ok
  · cases ok
    exact ⟨used, range, fun _ _ => rfl⟩
  split at ok
  · cases ok
  · rename_i blk
    cases ok
    rw [(new blk).1]
    exact ⟨blk.2.2.2, outside blk, (new blk).2⟩

theorem writeEaBlock_cases {blocks blocks' : Nat → Mem}
    (ok : writeEaBlock fs alloc inode blocks attrs = .ok (inode', blocks', runs)) :
    (attrs = [] ∧ fileAclBlock fs inode = 0 ∧ inode' = inode ∧ blocks' = blocks ∧ runs = []) ∨
    ∃ ctx run blocks1, (attrs ≠ [] ∨ fileAclBlock fs inode ≠ 0) ∧
      writeXattrsToBuffer ctx 32 true attrs (fun _ => 0) (fs.blocksize - 32) = .ok run ∧
      (∀ m, ctx.Like (context fs m)) ∧
      prepEaBlockForWrite fs alloc inode blocks = .ok (inode', blocks1) ∧
      blocks' = update blocks1 (fileAclBlock fs inode')
        (fs.csumSet (fileAclBlock fs inode') (writeHeader (shift run.mem (-32)))) ∧
      runs = [⟨run, fs.blocksize - 32⟩] := by
  unfold writeEaBlock at ok
  split_ifs at ok with nothing
  · cases ok
    exact .inl ⟨nothing.1, nothing.2, rfl, rfl, rfl⟩
  dsimp only at ok
  split at ok
  · cases ok
  rename_i run written
  split at ok
  · cases ok
  rename_i inode1 blocks1 prepared
  cases ok
  exact .inr
    ⟨_, run, blocks1, not_and_or.mp nothing, written, fun m => ⟨rfl, rfl, rfl⟩, prepared, rfl, rfl⟩

theorem writeEaBlock_high {blocks blocks' : Nat → Mem}
    (ok : writeEaBlock fs alloc inode blocks attrs = .ok (inode', blocks', runs)) (q : Int)
    (low : 120 ≤ q) : inode' q = inode q := by
  rcases writeEaBlock_cases ok with ⟨-, -, rfl, -⟩ | ⟨_, _, _, _, _, _, prepared, _⟩
  · rfl
  · exact (prepEaBlockForWrite_cases prepared).2.2 q low

end Parts

section Views

theorem readEaBlock_view {blocks : Nat → Mem} {run : WriteState}
    (some : fileAclBlock fs f ≠ 0) (inside : ¬ blockOutside fs (fileAclBlock fs f))
    (written : blocks (fileAclBlock fs f) =
      fs.csumSet (fileAclBlock fs f) (writeHeader (shift run.mem (-32)))) :
    ∃ m, readEaBlock fs f blocks = readXattrsFromBuffer (context fs f) m (fs.blocksize - 32) 32 ∧
      ∀ q : Int, 0 ≤ q → m q = run.mem q := by
  have header : ∀ (p : Int) (w : Nat), p + w ≤ 16 →
      load (blocks (fileAclBlock fs f)) p w = load (writeHeader (shift run.mem (-32))) p w := by
    intro p w le
    rw [written]
    exact load_congr fun q low high => fs.csum_keeps _ _ q (by omega)
  have magic : load (blocks (fileAclBlock fs f)) 0 4 = extAttrMagic := by
    rw [header 0 4 (by decide), writeHeader, load_store_apart (by decide),
      load_store_apart (by decide), load_store_of_lt (by decide)]
  have count : load (blocks (fileAclBlock fs f)) 8 4 = 1 := by
    rw [header 8 4 (by decide), writeHeader, load_store_of_lt (by decide)]
  have verified : fs.csumVerify (fileAclBlock fs f) (blocks (fileAclBlock fs f)) = true := by
    rw [written]
    exact fs.csum_accepts _ _
  have buf : readExtAttr3 fs blocks (fileAclBlock fs f) = .ok (blocks (fileAclBlock fs f)) := by
    simp [readExtAttr3, magic, count, verified]
  refine ⟨shift (blocks (fileAclBlock fs f)) 32, ?_, fun q low => ?_⟩
  · rw [readEaBlock, if_neg some, if_neg inside, buf]
    rfl
  · rw [shift, written, fs.csum_keeps _ _ _ (by omega), writeHeader, store_apart (by omega),
      store_apart (by omega), store_apart (by omega), shift]
    congr 1
    omega

variable {inode : Mem}

section

variable {run : WriteState} (below : ∀ q : Int, q < 0 → run.mem q =
    shift (store inode (128 + extraIsize inode) 4 extAttrMagic) (ibodyStart inode) q)
include below

theorem readIbody_view (space : ¬ noSpace fs inode) (aligned : extraIsize inode % 4 = 0)
    (same : ∀ q : Int, 128 ≤ q → q < fs.inodeSize →
      f q = shift run.mem (-(ibodyStart inode : Int)) q) :
    ∃ m, readIbody fs f = readXattrsFromBuffer (context fs f) m (ibodySize fs inode) 0 ∧
      ∀ q : Int, 0 ≤ q → q < ibodySize fs inode → m q = run.mem q := by
  have room : 2 ≤ extraIsize inode ∧ 128 + extraIsize inode + 4 < fs.inodeSize := by
    rw [noSpace, not_or] at space
    omega
  have low : ∀ q : Int, 128 ≤ q → q < 128 + extraIsize inode + 4 →
      f q = store inode (128 + extraIsize inode) 4 extAttrMagic q := by
    intro q least below'
    rw [same q least (by omega), shift, below _ (by rw [ibodyStart]; push_cast; omega), shift]
    congr 1
    omega
  have extra : extraIsize f = extraIsize inode := by
    refine load_congr fun q least most => ?_
    rw [low q least (by omega), store_apart (by omega)]
  have magic : load f (128 + extraIsize inode) 4 = extAttrMagic := by
    rw [load_congr fun q least most => low q (by omega) (by omega), load_store_of_lt (by decide)]
  have space' : ¬ noSpace fs f := by
    rw [noSpace, extra]
    exact space
  have start : ibodyStart f = ibodyStart inode := by rw [ibodyStart, extra, ibodyStart]
  have size : ibodySize fs f = ibodySize fs inode := by rw [ibodySize, extra, ibodySize]
  refine ⟨shift f (ibodyStart inode), ?_, fun q least most => ?_⟩
  · rw [readIbody, if_neg space', extra, if_neg (not_not.mpr aligned), if_pos magic, start, size]
  · rw [ibodySize] at most
    rw [shift, same _ (by rw [ibodyStart]; push_cast; omega) (by rw [ibodyStart]; push_cast; omega),
      shift]
    congr 1
    omega

theorem ibody_low (low : q < 128 + extraIsize inode) :
    shift run.mem (-(ibodyStart inode : Int)) q = inode q := by
  have start : ibodyStart inode = 128 + extraIsize inode + 4 := rfl
  rw [shift, below _ (by omega), shift, store_apart (by omega)]
  congr 1
  omega

end

theorem readIbody_noSpace (none : noSpace fs inode) : readIbody fs inode = .ok [] := if_pos none

end Views

section Buffers

variable {ctx ctx' : Context} {corr storageSize : Nat} {writeHash : Bool} {xs : List Xattr}

theorem Xattr.Stored.of_same {x : Xattr} (stored : x.Stored ctx) (like : ctx'.Like ctx) :
    x.Stored ctx' := by
  refine ⟨stored.index_lt, stored.name_eq, stored.clean, stored.short, stored.value_le,
    stored.ino_lt, fun inum => ?_⟩
  rw [like.eaInode, like.inode]
  exact stored.inode inum

theorem AttrAt.of_same {e : Nat} {x : Xattr} {place : Int} (at_ : AttrAt ctx m corr e x place)
    (like : ctx'.Like ctx) : AttrAt ctx' m corr e x place := by
  refine ⟨at_.toEntryAt, at_.value, ?_⟩
  have hash : extAttrHashEntry2 ctx' m e place = extAttrHashEntry2 ctx m e place := by
    simp only [extAttrHashEntry2, like.inode, like.signedChar]
  rw [hash]
  exact at_.hash

theorem Laid.of_same {m' : Mem} {e : Nat} {stop : Int} (laid : Laid ctx m corr xs e stop)
    (like : ctx'.Like ctx) (same : ∀ q : Int, 0 ≤ q → q < storageSize → m' q = m q)
    (entries : e + entriesSize xs ≤ storageSize) (values : valuesSize xs ≤ stop)
    (high : stop ≤ storageSize) : Laid ctx' m' corr xs e stop := by
  induction xs generalizing e stop with
  | nil => trivial
  | cons x xs ih =>
    rw [entriesSize_cons] at entries
    rw [valuesSize_cons] at values
    have place : x.place stop = stop - x.room := rfl
    refine ⟨(laid.1.congr (fun q low high' => ?_) fun _ _ q low high' => ?_).of_same like,
      ih laid.2 (by omega) (by omega) (by omega)⟩
    · exact same q (by omega) (by omega)
    · exact same q (by omega) (by omega)

/-- The condition for a buffer: room for everything, and no entry that looks like the end. -/
structure AreaOk (xs : List Xattr) (storageSize corr : Nat) : Prop where
  fits : FitsIn xs storageSize
  visible : AllVisible corr xs storageSize

/-- No value was copied over the entries or outside of the buffer. -/
def BufferRun.Clear (r : BufferRun) : Prop :=
  ∀ v ∈ r.run.values, 0 < v.2 → (r.run.entry : Int) ≤ v.1 ∧ v.1 + v.2 ≤ r.size

theorem buffer_written (start : Mem) (stored : ∀ x ∈ xs, x.Stored ctx)
    (area : AreaOk xs storageSize corr) :
    ∃ run, writeXattrsToBuffer ctx corr writeHash xs start storageSize = .ok run ∧
      BufferRun.Clear ⟨run, storageSize⟩ ∧ (∀ q : Int, q < 0 → run.mem q = start q) ∧
      ∀ (ctx' : Context) (m : Mem), ctx'.Like ctx →
        storageSize + corr ≤ 2 ^ 16 → (∀ q : Int, 0 ≤ q → q < storageSize → m q = run.mem q) →
        readXattrsFromBuffer ctx' m storageSize corr = .ok xs := by
  obtain ⟨entries, values⟩ := area.fits
  have fits : Fits xs 0 storageSize := by
    rw [Fits]
    omega
  obtain ⟨run, written, entry, laid, ends, frame, spans⟩ :=
    @writeXattrs_laid ctx corr writeHash ⟨zero start 0 storageSize, 0, storageSize, []⟩ xs
      stored fits
  dsimp only at entry laid ends frame spans
  rw [zero_add] at entry
  refine ⟨run, written, fun v mem pos => ?_, fun q low => ?_, fun ctx' m like small same => ?_⟩
  · rcases spans v mem with none | placed
    · cases none
    · dsimp only
      omega
  · rw [frame q (.inl (by omega)) (by omega), zero_apart (.inl low)]
  · refine read_of_laid (fun x mem => (stored x mem).of_same like)
      (laid.of_same like same (by omega) (by omega) (le_refl _)) area.visible small
        ⟨entries, values⟩
      fun room => ?_
    have zeros : load (zero start 0 storageSize) (0 : Nat) 4 = 0 :=
      load_of_zero fun q low high => zero_inside low (by omega)
    have last := ends zeros
    rw [entry] at last
    rw [← last]
    exact load_congr fun q low high => same q (by omega) (by omega)

end Buffers

section Inode

variable {inode : Mem}

theorem setExtraIsize_low (low : q < 128) : setExtraIsize fs inode q = inode q := by
  unfold setExtraIsize
  split
  · rw [store_apart (.inl low), zero_apart (.inl low)]
  · rfl

theorem fileAclBlock_congr {m' : Mem} (same : ∀ q : Int, 104 ≤ q → q < 120 → m' q = m q) :
    fileAclBlock fs m' = fileAclBlock fs m := by
  have low : load m' 104 4 = load m 104 4 := load_congr fun q least most => same q least (by omega)
  have high :
    load m' 118 2 = load m 118 2 := load_congr fun q least most => same q (by omega) (by omega)
  rw [fileAclBlock, fileAclBlock, low, high]

theorem readInodeFull_same {d : Disk} (low : 0 ≤ q) (high : q < fs.inodeSize) :
    readInodeFull fs d q = d.inode q := if_pos ⟨low, high⟩

theorem noSpace_of_same (same : ∀ q : Int, 128 ≤ q → q < fs.inodeSize → f q = inode q)
    (clipped : ∀ q : Int, (fs.inodeSize : Int) ≤ q → f q = 0) (none : noSpace fs inode) :
    noSpace fs f := by
  have aligned := fs.inode_aligned
  rcases lt_or_ge fs.inodeSize 132 with small | large
  · left
    have : extraIsize f = 0 := load_of_zero fun q low high => clipped q (by omega)
    omega
  · have extra :
      extraIsize f = extraIsize inode := load_congr fun q low high => same q low (by omega)
    rw [noSpace, extra]
    exact none

end Inode

section ReadBack

variable {alloc : Option fs.FreeBlock} {d d' : Disk} {h : Handle} {runs : List BufferRun}

/-- The condition for the attributes of an inode to be written and read again. -/
structure HandleOk (fs : EaFs) (d : Disk) (h : Handle) : Prop where
  stored : ∀ x ∈ h.attrs, x.Stored (context fs (readInodeFull fs d))
  count : h.ibodyCount ≤ h.attrs.length
  none : noSpace fs (setExtraIsize fs (readInodeFull fs d)) → h.ibodyCount = 0
  ibody : ¬ noSpace fs (setExtraIsize fs (readInodeFull fs d)) →
    AreaOk (h.attrs.take h.ibodyCount) (ibodySize fs (setExtraIsize fs (readInodeFull fs d))) 0
  block : h.attrs.drop h.ibodyCount ≠ [] ∨ fileAclBlock fs (readInodeFull fs d) ≠ 0 →
    AreaOk (h.attrs.drop h.ibodyCount) (fs.blocksize - 32) 32

theorem ibody_written (good : HandleOk fs d h)
    (aligned : extraIsize (setExtraIsize fs (readInodeFull fs d)) % 4 = 0) :
    ∃ inode ibody, writeIbody fs (setExtraIsize fs (readInodeFull fs d))
    (h.attrs.take h.ibodyCount) =
        .ok (inode, ibody) ∧ extraIsize inode = extraIsize (setExtraIsize fs (readInodeFull fs d)) ∧
      (∀ r ∈ ibody, r.Clear) ∧ (∀ q : Int, q < 128 → inode q = readInodeFull fs d q) ∧
      ∀ f : Mem, (∀ q : Int, 128 ≤ q → q < fs.inodeSize → f q = inode q) →
        (∀ q : Int, (fs.inodeSize : Int) ≤ q → f q = 0) →
        readIbody fs f = .ok (h.attrs.take h.ibodyCount) := by
  generalize base : setExtraIsize fs (readInodeFull fs d) = inode at *
  have low : ∀ q : Int, q < 128 → inode q = readInodeFull fs d q := fun q small => by
    rw [← base, setExtraIsize_low small]
  by_cases space : noSpace fs inode
  · refine ⟨inode, [], if_pos space, rfl, by simp, low, fun f view clipped => ?_⟩
    rw [readIbody_noSpace (noSpace_of_same view clipped space), good.none (base ▸ space), take_zero]
  obtain ⟨run, written, clear, below, reads⟩ := @buffer_written
    (context fs (store inode (128 + extraIsize inode) 4 extAttrMagic)) 0
    (ibodySize fs inode) false (h.attrs.take h.ibodyCount)
    (shift (store inode (128 + extraIsize inode) 4 extAttrMagic) (ibodyStart inode))
    (fun x mem => (good.stored x (mem_of_mem_take mem)).of_same ⟨rfl, rfl, rfl⟩)
      (base ▸ good.ibody (base ▸ space))
  have extra : 2 ≤ extraIsize inode := by
    rw [noSpace, not_or] at space
    omega
  refine ⟨_, [⟨run, ibodySize fs inode⟩], ?_,
    load_congr fun q _ high => ibody_low below (by omega), by simpa using clear, fun q small => ?_,
    fun f view clipped => ?_⟩
  · rw [writeIbody, if_neg space]
    dsimp only
    rw [written]
  · rw [ibody_low below (by omega), low q small]
  · obtain ⟨m, read, agrees⟩ := readIbody_view below space aligned view
    have inodeLe := fs.inode_le
    have blockLe := fs.block_le
    rw [read]
    refine reads _ m ⟨rfl, rfl, rfl⟩ ?_ agrees
    rw [ibodySize]
    omega

theorem read_of_write (good : HandleOk fs d h) (ok : xattrsWrite fs alloc d h = .ok (d', runs)) :
    xattrsRead fs d' = .ok h ∧ ∀ r ∈ runs, r.Clear := by
  obtain ⟨aligned, inode, ibody, inode', blocks, block, first, second, rfl, rfl⟩ :=
    xattrsWrite_cases ok
  have blockLe := fs.block_le
  have least := fs.good_old
  obtain ⟨inode1, ibody1, written, -, clear, low, reads⟩ := ibody_written good aligned
  cases Except.ok.inj (first.symm.trans written)
  -- the attributes in the block
  have blockRead :
    (∀ r ∈ block, r.Clear) ∧ ∀ f : Mem, (∀ q : Int, 0 ≤ q → q < 128 → f q = inode' q) →
      readEaBlock fs f blocks = .ok (h.attrs.drop h.ibodyCount) := by
    have acl : fileAclBlock fs inode = fileAclBlock fs (readInodeFull fs d) :=
      fileAclBlock_congr fun q _ high => low q (by omega)
    rcases writeEaBlock_cases second with ⟨none, zero, rfl, rfl, rfl⟩ |
      ⟨ctx, run, blocks1, some, written, same, prepared, updated, rfl⟩
    · refine ⟨by simp, fun f view => ?_⟩
      have zero' : fileAclBlock fs f = 0 :=
        (fileAclBlock_congr fun q low high => view q (by omega) (by omega)).trans zero
      rw [readEaBlock, if_pos zero', none]
    rw [acl] at some
    obtain ⟨used, inside, -⟩ := prepEaBlockForWrite_cases prepared
    obtain ⟨run', written', clear, -, reads⟩ := @buffer_written ctx 32 (fs.blocksize - 32) true
      (h.attrs.drop h.ibodyCount) (fun _ => 0)
      (fun x mem => (good.stored x (mem_of_mem_drop mem)).of_same (same _)) (good.block some)
    obtain rfl : run = run' := Except.ok.inj (written.symm.trans written')
    refine ⟨by simpa using clear, fun f view => ?_⟩
    have acl' : fileAclBlock fs f = fileAclBlock fs inode' :=
      fileAclBlock_congr fun q low high => view q (by omega) (by omega)
    obtain ⟨m, read, agrees⟩ := @readEaBlock_view fs f blocks run (acl' ▸ used) (acl' ▸ inside)
      (by rw [acl', updated, update_self])
    rw [read]
    refine reads _ m (same f).symm ?_ fun q low _ => agrees q low
    omega
  obtain ⟨clear', reads'⟩ := blockRead
  refine ⟨?_, fun r mem => (mem_append.mp mem).elim (clear r) (clear' r)⟩
  have ibody := reads (readInodeFull fs ⟨inode', blocks⟩) (fun q low high' => by
    rw [readInodeFull_same (by omega) high']
    exact writeEaBlock_high second q (by omega)) fun q high' => if_neg (by omega)
  have block := reads' (readInodeFull fs ⟨inode', blocks⟩) fun q low high' =>
    readInodeFull_same low (by omega)
  have count := good.count
  simp only [xattrsRead, ibody, block, bind, Except.bind, take_append_drop, length_take,
    min_eq_left count]

/- The extra fields of an inode are as long after a write as the writer has made them. -/
theorem extra_of_write (good : HandleOk fs d h) (ok : xattrsWrite fs alloc d h = .ok (d', runs))
    (large : 128 < fs.inodeSize) :
    extraIsize (readInodeFull fs d') = extraIsize (setExtraIsize fs (readInodeFull fs d)) := by
  obtain ⟨aligned, inode, ibody, inode', blocks, block, first, second, rfl, rfl⟩ :=
    xattrsWrite_cases ok
  obtain ⟨inode1, ibody1, written, extra, -⟩ := ibody_written good aligned
  cases Except.ok.inj (first.symm.trans written)
  have divides := fs.inode_aligned
  rw [← extra]
  refine load_congr fun q low high' => ?_
  rw [readInodeFull_same (by omega) (by omega)]
  exact writeEaBlock_high second q (by omega)

end ReadBack

theorem xattrsRead_cases {fs : EaFs} {d : Disk} {h : Handle} (ok : xattrsRead fs d = .ok h) :
    ∃ ibody block, readIbody fs (readInodeFull fs d) = .ok ibody ∧
      readEaBlock fs (readInodeFull fs d) d.blocks = .ok block ∧
      h = ⟨ibody ++ block, ibody.length⟩ := by
  obtain ⟨ibody, first, ok⟩ := bind_ok ok
  obtain ⟨block, second, ⟨⟩⟩ := bind_ok ok
  exact ⟨ibody, block, first, second, rfl⟩

def sampleFs : EaFs :=
  { signedChar := false, inodeSize := 256, blocksize := 1024, wantExtraIsize := 32
    firstDataBlock := 1, blocksCount := 8192
    has64bit := false, eaInode := false, inode := fun _ => none, ino := 12
    csumVerify := fun _ _ => true, csumSet := fun _ m => m
    inode_aligned := by decide, good_old := by decide, inode_le := by decide
    block_aligned := by decide, block_ge := by decide, block_le := by decide, want_lt := by decide
    count_le := by decide, no_zero := rfl, csum_accepts := fun _ _ => rfl
    csum_keeps := fun _ _ _ _ => rfl }

end E2fs.ExtAttr
