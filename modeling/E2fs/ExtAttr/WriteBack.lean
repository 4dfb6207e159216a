import E2fs.ExtAttr.HandleSound

/-! Writing back the attributes that were read. The reader counts values without their padding,
the writer pads them and checks no bounds, so not every layout that is accepted can be
written again. -/
namespace E2fs.ExtAttr
open Memory Loop List

variable {fs : EaFs} {ibody block : List Xattr}

section Accepted

variable {d : Disk} {h : Handle}

theorem readIbody_accepted {inode : Mem} (ok : readIbody fs inode = .ok ibody) :
    (∀ x ∈ ibody, x.Stored (context fs inode)) ∧
    (ibody = [] ∨ setExtraIsize fs inode = inode ∧ ¬ noSpace fs inode ∧
        entriesSize ibody ≤ ibodySize fs inode) := by
  unfold readIbody at ok
  split at ok
  · cases ok
    exact ⟨by simp, .inl rfl⟩
  rename_i space
  split at ok
  · cases ok
  split at ok
  · have inodeLe := fs.inode_le
    have blockLe := fs.block_le
    obtain ⟨stored, size⟩ := accepted_stored (by rw [ibodySize]; omega) ok
    refine ⟨stored, .inr ⟨if_neg fun zero => space (.inl ?_), space, size⟩⟩
    omega
  · cases ok
    exact ⟨by simp, .inl rfl⟩

theorem readExtAttr3_eq {blocks : Nat → Mem} {blk : Nat} {buf : Mem}
    (ok : readExtAttr3 fs blocks blk = .ok buf) : buf = blocks blk := by
  unfold readExtAttr3 at ok
  dsimp only at ok
  repeat' split at ok
  all_goals cases ok
  rfl

theorem readEaBlock_accepted {inode : Mem} {blocks : Nat → Mem}
    (ok : readEaBlock fs inode blocks = .ok block) :
    (∀ x ∈ block, x.Stored (context fs inode)) ∧ ((fileAclBlock fs inode = 0 ∧ block = []) ∨
        (fileAclBlock fs inode ≠ 0 ∧ ¬ blockOutside fs (fileAclBlock fs inode) ∧
          readExtAttr3 fs blocks (fileAclBlock fs inode) = .ok (blocks (fileAclBlock fs inode)) ∧
          entriesSize block ≤ fs.blocksize - 32)) := by
  unfold readEaBlock at ok
  dsimp only at ok
  split at ok
  · rename_i zero
    cases ok
    exact ⟨by simp, .inl ⟨zero, rfl⟩⟩
  rename_i used
  obtain ⟨inside, ok⟩ := check_ok.mp ok
  obtain ⟨buf, found, ok⟩ := bind_ok ok
  have same := readExtAttr3_eq found
  have blockLe := fs.block_le
  obtain ⟨stored, size⟩ := accepted_stored (by omega) ok
  exact ⟨stored, .inr ⟨used, inside, same ▸ found, size⟩⟩

end Accepted

/-- A handle is written back: no value is copied over an entry or out of its buffer, and
reading again gives the same attributes in the same places. -/
def WritesBack (fs : EaFs) (alloc : Option fs.FreeBlock) (d : Disk) (h : Handle) : Prop :=
  ∃ d' runs, xattrsWrite fs alloc d h = .ok (d', runs) ∧ (∀ r ∈ runs, r.Clear) ∧
    ∃ h', xattrsRead fs d' = .ok h' ∧ h'.ibodyCount = h.ibodyCount ∧
      h'.attrs.map (fun x => (x.nameIndex, x.name, x.value)) =
        h.attrs.map fun x => (x.nameIndex, x.name, x.value)

/- Room for the values with their padding, and no entry that looks like the end of the list. -/
structure Roomy (xs : List Xattr) (storageSize corr : Nat) : Prop where
  room : valuesSize xs = 0 ∨ entriesSize xs + valuesSize xs + 4 ≤ storageSize
  visible : AllVisible corr xs storageSize

structure Writable (fs : EaFs) (alloc : Option fs.FreeBlock) (d : Disk) (h : Handle) : Prop where
  aligned : extraIsize (setExtraIsize fs (readInodeFull fs d)) % 4 = 0
  ibody : ¬ noSpace fs (setExtraIsize fs (readInodeFull fs d)) →
    Roomy (h.attrs.take h.ibodyCount) (ibodySize fs (setExtraIsize fs (readInodeFull fs d))) 0
  block : fileAclBlock fs (readInodeFull fs d) ≠ 0 →
    Roomy (h.attrs.drop h.ibodyCount) (fs.blocksize - 32) 32
  free : fileAclBlock fs (readInodeFull fs d) ≠ 0 →
    load (d.blocks (fileAclBlock fs (readInodeFull fs d))) 4 4 ≠ 1 → alloc ≠ none

section Sufficient

variable {alloc : Option fs.FreeBlock} {d : Disk} {h : Handle}

theorem handleOk_of_writable (read : xattrsRead fs d = .ok h) (good : Writable fs alloc d h) :
    HandleOk fs d h := by
  obtain ⟨ibody, block, first, second, rfl⟩ := xattrsRead_cases read
  obtain ⟨stored, found⟩ := readIbody_accepted first
  obtain ⟨stored', found'⟩ := readEaBlock_accepted second
  have take : (ibody ++ block).take ibody.length = ibody := take_left
  have drop : (ibody ++ block).drop ibody.length = block := drop_left
  obtain ⟨-, ibodyRoom, blockRoom, -⟩ := good
  rw [take] at ibodyRoom
  rw [drop] at blockRoom
  refine ⟨fun x mem => (mem_append.mp mem).elim (stored x) (stored' x), by simp, fun none => ?_,
    fun space => ?_, fun some => ?_⟩
  · rcases found with rfl | ⟨same, space, -⟩
    · rfl
    · rw [same] at none
      exact absurd none space
  · rw [take]
    refine ⟨⟨?_, (ibodyRoom space).room⟩, (ibodyRoom space).visible⟩
    rcases found with rfl | ⟨same, -, size⟩
    · exact Nat.zero_le _
    · rw [same]
      exact size
  · rw [drop] at some ⊢
    rcases found' with ⟨zero, rfl⟩ | ⟨used, -, -, size⟩
    · exact absurd some (by simp [zero])
    · exact ⟨⟨size, (blockRoom used).room⟩, (blockRoom used).visible⟩

/- The block of an inode can be prepared when it can be kept or replaced. -/
theorem prepEaBlockForWrite_ok {inode : Mem} {blocks : Nat → Mem}
    (used : fileAclBlock fs inode ≠ 0) (inside : ¬ blockOutside fs (fileAclBlock fs inode))
    (found : readExtAttr3 fs blocks (fileAclBlock fs inode) = .ok (blocks (fileAclBlock fs inode)))
    (free : load (blocks (fileAclBlock fs inode)) 4 4 ≠ 1 → alloc ≠ none) :
    ∃ out, prepEaBlockForWrite fs alloc inode blocks = .ok out := by
  unfold prepEaBlockForWrite
  rw [if_neg used, if_neg inside, found]
  dsimp only
  by_cases single : load (blocks (fileAclBlock fs inode)) 4 4 = 1
  · exact ⟨_, if_pos single⟩
  · rw [if_neg single]
    cases new : alloc with
    | none => exact absurd new (free single)
    | some blk => exact ⟨_, rfl⟩

theorem write_ok (read : xattrsRead fs d = .ok h) (good : Writable fs alloc d h) :
    ∃ out, xattrsWrite fs alloc d h = .ok out := by
  have handle := handleOk_of_writable read good
  obtain ⟨inode, ibody, first, -, -, low, -⟩ := ibody_written handle good.aligned
  have acl : fileAclBlock fs inode = fileAclBlock fs (readInodeFull fs d) :=
    fileAclBlock_congr fun q _ high => low q (by omega)
  obtain ⟨out, second⟩ : ∃ out, writeEaBlock fs alloc inode d.blocks (h.attrs.drop h.ibodyCount) =
      .ok out := by
    by_cases nothing : h.attrs.drop h.ibodyCount = [] ∧ fileAclBlock fs inode = 0
    · exact ⟨_, if_pos nothing⟩
    obtain ⟨ibody', block, -, second, rfl⟩ := xattrsRead_cases read
    obtain ⟨-, found⟩ := readEaBlock_accepted second
    rcases found with ⟨zero, rfl⟩ | ⟨used, inside, buf, -⟩
    · exact absurd ⟨by simp, acl.trans zero⟩ nothing
    obtain ⟨run, written, -⟩ := @buffer_written (context fs inode) 32 (fs.blocksize - 32) true _
      (fun _ => 0) (fun x mem => (handle.stored x (mem_of_mem_drop mem)).of_same ⟨rfl, rfl, rfl⟩)
      (handle.block (.inr used))
    obtain ⟨prep, prepared⟩ := @prepEaBlockForWrite_ok fs alloc inode d.blocks (acl ▸ used)
      (acl ▸ inside) (acl ▸ buf) (acl ▸ good.free used)
    rw [writeEaBlock, if_neg nothing]
    dsimp only
    rw [written, prepared]
    exact ⟨_, rfl⟩
  refine ⟨(⟨out.1, out.2.1⟩, ibody ++ out.2.2), ?_⟩
  simp only [xattrsWrite, good.aligned, ne_eq, not_true_eq_false, if_false, first, second]

end Sufficient

section Necessary

variable {alloc : Option fs.FreeBlock} {d : Disk} {h : Handle}

variable {xs : List Xattr} {inode : Mem} {runs : List BufferRun}

theorem PlacesFrom.mono {low low' : Int} {stop : Int}
    (places : PlacesFrom low xs stop) (le : low' ≤ low) : PlacesFrom low' xs stop := by
  induction xs generalizing stop with
  | nil => trivial
  | cons x xs ih => exact ⟨fun inline some => le.trans (places.1 inline some), ih places.2⟩

section

variable {ctx : Context} {writeHash : Bool} {corr storageSize : Nat} {start : Mem}
  {run : WriteState}
  (stored : ∀ x ∈ xs, x.Stored ctx)
    (written : writeXattrsToBuffer ctx corr writeHash xs start storageSize = .ok run)
  (clear : BufferRun.Clear ⟨run, storageSize⟩)
include stored written clear

/- A buffer without overlaps that is read back in full had room. -/
theorem roomy_of_read {ctx' : Context} {m : Mem} {ys : List Xattr}
    (size : entriesSize xs ≤ storageSize)
    (agrees : ∀ q : Int, 0 ≤ q → q < storageSize → m q = run.mem q)
    (read : readXattrsFromBuffer ctx' m storageSize corr = .ok ys) (same : ys.length = xs.length) :
    Roomy xs storageSize corr := by
  obtain ⟨described, -, places⟩ := writeXattrs_described stored written fun v mem pos =>
    (clear v mem pos).1
  obtain ⟨room, visible⟩ := fits_of_read
    (described.congr fun q low high => agrees q low (by dsimp only at high; omega))
    (places.mono (Int.natCast_nonneg _)) read same
  exact ⟨room, visible⟩

theorem below_of_clear (q : Int) (low : q < 0) : run.mem q = start q := by
  obtain ⟨-, below, -⟩ := writeXattrs_described stored written fun v mem pos => (clear v mem pos).1
  rw [below q (by dsimp only; omega)]
  exact zero_apart (.inl low)

end

theorem ibody_necessary {inode' f : Mem} {ibody' : List Xattr}
    (ok : writeIbody fs inode ibody = .ok (inode', runs)) (clear : ∀ r ∈ runs, r.Clear)
    (aligned : extraIsize inode % 4 = 0) (stored : ∀ x ∈ ibody, x.Stored (context fs f))
    (size : entriesSize ibody ≤ ibodySize fs inode)
    (view : ∀ q : Int, 128 ≤ q → q < fs.inodeSize → f q = inode' q)
    (read : readIbody fs f = .ok ibody') (same : ibody'.length = ibody.length) :
    (∀ q : Int, q < 128 → inode' q = inode q) ∧
    (¬ noSpace fs inode → Roomy ibody (ibodySize fs inode) 0) := by
  rcases writeIbody_cases ok with ⟨none, rfl, rfl⟩ | ⟨space, ctx, run, written, alike, rfl, rfl⟩
  · exact ⟨fun _ _ => rfl, fun space => absurd none space⟩
  have clear := clear _ (mem_singleton_self _)
  have stored : ∀ x ∈ ibody, x.Stored ctx := fun x mem =>
    (stored x mem).of_same (alike f)
  have below := below_of_clear stored written clear
  obtain ⟨m, again, agrees⟩ := readIbody_view below space aligned view
  rw [again] at read
  exact ⟨fun q small => ibody_low below (by omega),
    fun _ => roomy_of_read stored written clear size agrees read same⟩

theorem block_necessary {inode' f : Mem} {blocks blocks' : Nat → Mem} {block' : List Xattr}
    (ok : writeEaBlock fs alloc inode blocks block = .ok (inode', blocks', runs))
    (clear : ∀ r ∈ runs, r.Clear) (stored : ∀ x ∈ block, x.Stored (context fs f))
    (size : entriesSize block ≤ fs.blocksize - 32)
    (view : ∀ q : Int, 0 ≤ q → q < 128 → f q = inode' q)
    (read : readEaBlock fs f blocks' = .ok block') (same : block'.length = block.length)
    (used : fileAclBlock fs inode ≠ 0) :
    Roomy block (fs.blocksize - 32) 32 ∧
    ∃ out, prepEaBlockForWrite fs alloc inode blocks = .ok out := by
  rcases writeEaBlock_cases ok with ⟨-, zero, -⟩ |
    ⟨ctx, run, blocks1, -, written, alike, prepared, updated, rfl⟩
  · exact absurd zero used
  obtain ⟨used', inside, -⟩ := prepEaBlockForWrite_cases prepared
  have acl : fileAclBlock fs f = fileAclBlock fs inode' :=
    fileAclBlock_congr fun q low high => view q (by omega) (by omega)
  obtain ⟨m, again, agrees⟩ := @readEaBlock_view fs f blocks' run (acl ▸ used') (acl ▸ inside)
    (by rw [acl, updated, Function.update_self])
  rw [again] at read
  exact ⟨roomy_of_read (fun x mem => (stored x mem).of_same (alike f)) written
    (clear _ (mem_singleton_self _)) size (fun q low _ => agrees q low) read same, _, prepared⟩

/- A shared block is replaced, so another one must be free. -/
theorem free_of_prepared {blocks : Nat → Mem} {out : Mem × (Nat → Mem)}
    (ok : prepEaBlockForWrite fs alloc inode blocks = .ok out) (used : fileAclBlock fs inode ≠ 0)
    (shared : load (blocks (fileAclBlock fs inode)) 4 4 ≠ 1) : alloc ≠ none := by
  rintro rfl
  unfold prepEaBlockForWrite at ok
  rw [if_neg used] at ok
  split at ok
  · cases ok
  split at ok
  · cases ok
  rename_i buf found
  rw [if_neg (readExtAttr3_eq found ▸ shared)] at ok
  cases ok

theorem writable_of_writesBack (read : xattrsRead fs d = .ok h) (back : WritesBack fs alloc d h) :
    Writable fs alloc d h := by
  obtain ⟨d', runs, ok, clear, h', read', count, same⟩ := back
  obtain ⟨aligned, inode, ibodyRuns, inode', blocks, blockRuns, first, second, rfl, rfl⟩ :=
    xattrsWrite_cases ok
  obtain ⟨ibody, block, found, found', rfl⟩ := xattrsRead_cases read
  obtain ⟨ibody', block', again, again', rfl⟩ := xattrsRead_cases read'
  dsimp only at first second count same
  rw [take_left] at first
  rw [drop_left] at second
  have lengths : block'.length = block.length := by
    have := congrArg List.length same
    simp only [length_map, length_append] at this
    omega
  obtain ⟨stored, accepted⟩ := readIbody_accepted found
  obtain ⟨stored', accepted'⟩ := readEaBlock_accepted found'
  have least := fs.good_old
  have size : entriesSize ibody ≤ ibodySize fs (setExtraIsize fs (readInodeFull fs d)) := by
    rcases accepted with rfl | ⟨unchanged, -, size⟩
    · exact Nat.zero_le _
    · rw [unchanged]
      exact size
  have view : ∀ q : Int, 128 ≤ q → q < fs.inodeSize →
      readInodeFull fs ⟨inode', blocks⟩ q = inode q := fun q low high' => by
    rw [readInodeFull_same (by omega) high']
    exact writeEaBlock_high second q (by omega)
  have view' : ∀ q : Int, 0 ≤ q → q < 128 → readInodeFull fs ⟨inode', blocks⟩ q = inode' q :=
      fun q low high' =>
    readInodeFull_same low (by omega)
  have kept : ∀ x : Xattr, x.Stored (context fs (readInodeFull fs d)) →
      x.Stored (context fs (readInodeFull fs ⟨inode', blocks⟩)) :=
        fun x good => good.of_same ⟨rfl, rfl, rfl⟩
  obtain ⟨low, ibodyRoom⟩ := ibody_necessary first
    (fun r mem => clear r (mem_append_left _ mem)) aligned (fun x mem => kept x (stored x mem))
    size view again count
  have acl : fileAclBlock fs inode = fileAclBlock fs (readInodeFull fs d) :=
    fileAclBlock_congr fun q _ high => by rw [low q (by omega), setExtraIsize_low (by omega)]
  have blockRoom : fileAclBlock fs (readInodeFull fs d) ≠ 0 → Roomy block (fs.blocksize - 32) 32 ∧
      ∃ out, prepEaBlockForWrite fs alloc inode d.blocks = .ok out := by
    intro used
    rcases accepted' with ⟨zero, -⟩ | ⟨-, -, -, size⟩
    · exact absurd zero used
    · exact block_necessary second (fun r mem => clear r (mem_append_right _ mem))
        (fun x mem => kept x (stored' x mem)) size view' again' lengths (acl ▸ used)
  refine ⟨aligned, fun space => ?_, fun used => ?_, fun used shared => ?_⟩
  · rw [take_left]
    exact ibodyRoom space
  · rw [drop_left]
    exact (blockRoom used).1
  · obtain ⟨-, out, prepared⟩ := blockRoom used
    exact free_of_prepared prepared (acl ▸ used) (acl ▸ shared)

end Necessary

/-- The attributes of an inode can be written back as they were read exactly if the extra fields
end at a multiple of four, the values have room with their padding, no entry looks like the
end of the list, and a shared block can be replaced. -/
theorem writes_back_iff (fs : EaFs) (alloc : Option fs.FreeBlock) (d : Disk) (h : Handle)
    (read : xattrsRead fs d = .ok h) : WritesBack fs alloc d h ↔ Writable fs alloc d h := by
  constructor
  · exact writable_of_writesBack read
  · intro good
    obtain ⟨⟨d', runs⟩, written⟩ := write_ok read good
    obtain ⟨again, clear⟩ := read_of_write (handleOk_of_writable read good) written
    exact ⟨d', runs, written, clear, h, again, rfl, rfl⟩

def sampleEntry (letter : UInt8) (offs size : UInt8) : List UInt8 :=
  [1, 1, offs, 0, 0, 0, 0, 0, size, 0, 0, 0, 0, 0, 0, 0, letter, 0, 0, 0]

def sampleDisk (area : List UInt8) : Disk where
  inode := fun q => if q = 128 then 32 else
    if 160 ≤ q then ([0, 0, 2, 0xea] ++ area).getD (q - 160).toNat 0 else 0
  blocks := fun _ _ => 0

def sampleXattr (letter : Char) (value : List UInt8) : Xattr :=
  ⟨1, bytes (("user.").push letter), bytes (String.singleton letter), value, 0⟩

def tidyDisk : Disk := sampleDisk (sampleEntry 97 88 4 ++ List.replicate 68 0 ++ [1, 2, 3, 4])

theorem tidy_writes_back :
    WritesBack sampleFs none tidyDisk ⟨[sampleXattr 'a' [1, 2, 3, 4]], 1⟩ := by
  refine (writes_back_iff sampleFs none tidyDisk _ (by decide +kernel)).mpr
    ⟨by decide +kernel, fun _ => ?_,
    fun used => absurd (by decide +kernel) used, fun used => absurd (by decide +kernel) used⟩
  exact ⟨.inr (by decide +kernel), fun hidden => absurd hidden.1 (by decide), trivial⟩

def packedDisk : Disk :=
  sampleDisk (sampleEntry 97 64 9 ++ sampleEntry 98 73 9 ++ sampleEntry 99 82 9 ++ [0, 0, 0, 0] ++
    List.replicate 9 1 ++ List.replicate 9 2 ++ List.replicate 9 3)

def packedHandle : Handle :=
  ⟨[sampleXattr 'a' (List.replicate 9 1), sampleXattr 'b' (List.replicate 9 2),
    sampleXattr 'c' (List.replicate 9 3)], 3⟩

/- The third value is copied over the name of its own entry. -/
theorem packed_not_written_back : xattrsRead sampleFs packedDisk = .ok packedHandle ∧
      (xattrsWrite sampleFs none packedDisk packedHandle).map (fun out =>
        out.2.map fun r => (r.run.entry, r.run.values, r.size)) =
        .ok [(60, [(80, 9), (68, 9), (56, 9)], 92)] ∧
      ((xattrsWrite sampleFs none packedDisk packedHandle).bind fun out =>
        xattrsRead sampleFs out.1) = .error .eaBadValueOffset ∧
      ¬ WritesBack sampleFs none packedDisk packedHandle := by
  have again : ((xattrsWrite sampleFs none packedDisk packedHandle).bind fun out =>
      xattrsRead sampleFs out.1) = .error .eaBadValueOffset := by decide +kernel
  refine ⟨by decide +kernel, by decide +kernel, again, ?_⟩
  rintro ⟨d, runs, ok, -, h, read, -⟩
  rw [ok, Except.bind, read] at again
  cases again

end E2fs.ExtAttr
