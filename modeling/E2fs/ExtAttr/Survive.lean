import E2fs.ExtAttr.UpdateSound

/-! Attributes survive: after every run of calls that succeed, reading the inode again gives
what was set last, as long as the short names have less than 256 bytes. -/
namespace E2fs.ExtAttr
open Memory Word List Function

variable {fs : EaFs} {alloc : Option fs.FreeBlock} {d d' : Disk} {ib bl ib' bl' : List Xattr}

section Room

variable {x : Xattr}

theorem Xattr.Plain.ino (plain : x.Plain fs) : x.eaIno = 0 := by
  rw [plain.split]
  rfl

theorem Xattr.Plain.shortName_eq (plain : x.Plain fs) :
    x.shortName = (findEaIndex x.name).1 := congrArg Xattr.shortName plain.split

theorem Xattr.Plain.nameIndex_eq (plain : x.Plain fs) :
    x.nameIndex = (findEaIndex x.name).2 := congrArg Xattr.nameIndex plain.split

theorem givesBack_eq {old : Xattr} (plain : old.Plain fs) (own : x.Plain fs)
    (same : old.name = x.name) :
    givesBack x.shortName.length old = (old.entrySize + old.room : Nat) := by
  have short : x.shortName = old.shortName := by rw [own.shortName_eq, plain.shortName_eq, same]
  rw [givesBack, Xattr.entrySize, Xattr.room, short, plain.ino]
  simp

theorem extraIsize_set {inode : Mem} (large : 128 < fs.inodeSize) :
    extraIsize (setExtraIsize fs inode) = (if extraIsize inode = 0 then
      (if fs.wantExtraIsize = 0 then 4 else fs.wantExtraIsize) else extraIsize inode) ∧
    extraIsize (setExtraIsize fs inode) ≠ 0 := by
  have want := fs.want_lt
  unfold setExtraIsize
  by_cases zero : extraIsize inode = 0
  · rw [if_pos ⟨zero, large⟩, if_pos zero]
    have lt : (if fs.wantExtraIsize = 0 then 4 else fs.wantExtraIsize) < 256 ^ 2 := by
      split <;> omega
    rw [extraIsize, load_store_of_lt lt]
    refine ⟨rfl, ?_⟩
    split <;> omega
  · rw [if_neg (fun both => zero both.1), if_neg zero]
    exact ⟨rfl, zero⟩

theorem noSpace_of_small {inode : Mem} (small : ¬ 128 < fs.inodeSize) : noSpace fs inode := by
  right
  omega

theorem ibody_room {needed : Nat}
    (aligned : extraIsize (setExtraIsize fs (readInodeFull fs d)) % 4 = 0)
    (some : 16 ≤ needed) (fits : (needed : Int) ≤ ibodyFree fs d ⟨ib ++ bl, ib.length⟩) :
    ¬ noSpace fs (setExtraIsize fs (readInodeFull fs d)) ∧
    entriesSize ib + valuesSize ib + needed + 4 ≤
        ibodySize fs (setExtraIsize fs (readInodeFull fs d)) := by
  unfold ibodyFree at fits
  split at fits
  · rename_i large
    obtain ⟨extra, nonzero⟩ := @extraIsize_set fs (readInodeFull fs d) large
    dsimp only at fits
    rw [← extra, take_left, spaceUsed_eq] at fits
    rw [noSpace, ibodySize]
    omega
  · omega

theorem block_free_eq : blockFree fs ⟨ib ++ bl, ib.length⟩ =
    (fs.blocksize : Int) - 36 - (entriesSize bl + valuesSize bl : Nat) := by
  rw [blockFree, drop_left, spaceUsed_eq]
  ring

/- With less than no space left the inode can still take a smaller value. -/
theorem ibody_free_eq (space : ¬ noSpace fs (setExtraIsize fs (readInodeFull fs d)))  :
    ibodyFree fs d ⟨ib ++ bl, ib.length⟩ =
      (ibodySize fs (setExtraIsize fs (readInodeFull fs d)) : Int) - 4 -
        (entriesSize ib + valuesSize ib : Nat) := by
  have large : 128 < fs.inodeSize := by
    by_contra small
    exact space (noSpace_of_small small)
  obtain ⟨extra, -⟩ := @extraIsize_set fs (readInodeFull fs d) large
  rw [ibodyFree, if_pos large]
  dsimp only
  rw [← extra, take_left, spaceUsed_eq, ibodySize]
  rw [noSpace, not_or] at space
  omega

theorem Updated.kept {free' : Int} (kept : Kept fs d ib bl) (own : x.Plain fs)
    (aligned : extraIsize (setExtraIsize fs (readInodeFull fs d)) % 4 = 0)
    (free : free' ≤ blockFree fs ⟨ib ++ bl, ib.length⟩)
    (updated : Updated x (x.entrySize + x.room : Nat) (ibodyFree fs d ⟨ib ++ bl, ib.length⟩) free'
      ib bl ib' bl') : Kept fs d ib' bl' := by
  obtain ⟨plain, names, -⟩ := updated.values kept.plain kept.names own
  have block := kept.block
  have size := le_entrySize x
  rw [block_free_eq] at free
  refine ⟨plain, names, fun some => ?_, ?_⟩
  · cases updated with
    | newIbody fits perm block fresh | toIbody old name fits before perm =>
      obtain ⟨space, room⟩ := ibody_room aligned (by omega) fits
      rw [(sizes_perm perm).1, (sizes_perm perm).2]
      exact ⟨space, by omega⟩
    | newBlock fits same block fresh | inBlock old rest name fits before block same =>
      rw [same] at some ⊢
      exact kept.ibody some
    | inIbody old rest name fits before perm block =>
      have mem : old ∈ ib := before.mem_iff.mpr mem_cons_self
      obtain ⟨space, room⟩ := kept.ibody (ne_nil_of_mem mem)
      rw [givesBack_eq (kept.plain old (mem_append_left _ mem)) own name, ibody_free_eq space]
        at fits
      rw [(sizes_perm before).1, (sizes_perm before).2] at room fits
      rw [(sizes_perm perm).1, (sizes_perm perm).2]
      exact ⟨space, by omega⟩
    | toBlock old name fits before block =>
      obtain ⟨space, room⟩ := kept.ibody (ne_nil_of_mem (before.mem_iff.mpr mem_cons_self))
      rw [(sizes_perm before).1, (sizes_perm before).2] at room
      exact ⟨space, by omega⟩
  · cases updated with
    | newIbody fits ibody same fresh => rwa [same]
    | newBlock fits ibody perm fresh | toBlock old name fits before perm =>
      rw [(sizes_perm perm).1, (sizes_perm perm).2]
      omega
    | inIbody old rest name fits before ibody same => rwa [same]
    | toIbody old name fits before ibody =>
      rw [(sizes_perm before).1, (sizes_perm before).2] at block
      omega
    | inBlock old rest name fits before perm same =>
      rw [givesBack_eq (kept.plain old (mem_append_right _ (before.mem_iff.mpr mem_cons_self)))
        own name] at fits
      rw [(sizes_perm before).1, (sizes_perm before).2] at block free
      rw [(sizes_perm perm).1, (sizes_perm perm).2]
      omega

theorem value_le_of_room {xs : List Xattr} {size : Nat} (room : valuesSize xs ≤ size)
    (mem : x ∈ xs) (ino : x.eaIno = 0) : x.value.length ≤ size := by
  induction xs with
  | nil => cases mem
  | cons y xs ih =>
    rw [valuesSize_cons] at room
    rcases mem_cons.mp mem with rfl | mem
    · have fits := (le_extAttrSize x.value.length).1
      rw [Xattr.room, if_neg (not_not.mpr ino)] at room
      omega
    · exact ih (by omega) mem

theorem Xattr.Plain.stored {ctx : Context} (plain : x.Plain fs)
    (value_le : x.value.length ≤ 2 ^ 16) : x.Stored ctx := by
  obtain ⟨whole, index, clean⟩ := findEaIndex_spec plain.clean
  refine ⟨?_, ?_, ?_, plain.short, value_le, ?_, fun ino => absurd plain.ino ino⟩
  · rw [plain.nameIndex_eq]
    exact index
  · rw [plain.nameIndex_eq, plain.shortName_eq]
    exact whole
  · rw [plain.shortName_eq]
    exact clean
  · rw [plain.ino]
    decide

/- No entry looks like the end of the list: an empty name with an empty value would only do
so at the end of a block of 64 KiB. -/
theorem allVisible_of_plain {xs : List Xattr} {size corr : Nat} {stop : Int}
    (plain : ∀ x ∈ xs, x.Plain fs) (low : 0 < stop - valuesSize xs) (high : stop ≤ size)
    (small : size + corr ≤ 2 ^ 16) (last : size + corr = 2 ^ 16 → fs.blocksize = 2 ^ 16) :
    AllVisible corr xs stop := by
  induction xs generalizing stop with
  | nil => trivial
  | cons x xs ih =>
    have own := plain x mem_cons_self
    rw [valuesSize_cons] at low
    have place : x.place stop = stop - x.room := rfl
    refine ⟨?_, ih (fun y mem => plain y (mem_cons_of_mem _ mem)) (by omega) (by omega)⟩
    rintro ⟨index, short, hidden⟩
    rcases hidden with ino | zero
    · exact ino own.ino
    have name : x.name = [] := by
      have whole := (findEaIndex_spec own.clean).1
      rw [← own.nameIndex_eq, ← own.shortName_eq, index, short] at whole
      exact whole
    by_cases empty : x.value = []
    · have := own.shown name empty
      omega
    · have := room_pos own.ino empty
      omega

theorem Kept.handleOk (kept : Kept fs d ib bl) : HandleOk fs d ⟨ib ++ bl, ib.length⟩ := by
  have inodeLe := fs.inode_le
  have blockLe := fs.block_le
  have block := kept.block
  have ibodyRoom : valuesSize ib ≤ 2 ^ 16 := by
    by_cases empty : ib = []
    · simp [empty]
    · have := (kept.ibody empty).2
      rw [ibodySize] at this
      omega
  refine ⟨fun x mem => ?_, by simp, fun none => ?_, fun space => ?_, fun _ => ?_⟩
  · have own := kept.plain x mem
    rcases mem_append.mp mem with mem | mem
    · exact own.stored (value_le_of_room ibodyRoom mem own.ino)
    · exact own.stored (value_le_of_room (by omega) mem own.ino)
  · by_contra some
    exact (kept.ibody fun empty => some (by simp [empty])).1 none
  · rw [take_left]
    by_cases empty : ib = []
    · subst empty
      exact ⟨⟨Nat.zero_le _, .inl rfl⟩, trivial⟩
    · have room := (kept.ibody empty).2
      refine ⟨⟨by omega, .inr room⟩, allVisible_of_plain
        (fun x mem => kept.plain x (mem_append_left _ mem)) (by omega) (le_refl _) ?_ ?_⟩
      all_goals rw [ibodySize]; omega
  · rw [drop_left]
    refine ⟨⟨by omega, .inr (by omega)⟩, allVisible_of_plain
      (fun x mem => kept.plain x (mem_append_right _ mem)) (by omega) (le_refl _) ?_ ?_⟩
    all_goals omega

theorem Kept.written {runs : List BufferRun} (kept : Kept fs d ib bl)
    (ok : xattrsWrite fs alloc d ⟨ib ++ bl, ib.length⟩ = .ok (d', runs)) :
    Kept fs d' ib bl ∧ xattrsRead fs d' = .ok ⟨ib ++ bl, ib.length⟩ := by
  refine ⟨⟨kept.plain, kept.names, fun some => ?_, kept.block⟩, (read_of_write kept.handleOk ok).1⟩
  obtain ⟨space, room⟩ := kept.ibody some
  have large : 128 < fs.inodeSize := by
    by_contra small
    exact space (noSpace_of_small small)
  have extra := extra_of_write kept.handleOk ok large
  have nonzero := (@extraIsize_set fs (readInodeFull fs d) large).2
  have same : setExtraIsize fs (readInodeFull fs d') = readInodeFull fs d' :=
    if_neg fun both => nonzero (extra.symm.trans both.1)
  rw [noSpace, ibodySize] at *
  rw [same, extra]
  exact ⟨space, room⟩

end Room

section Runs

/-- The calls for which the layout on disk is enough: the length of a short name is a byte, that
of a value is counted in an `int`, and an entry without name and value must not begin with
four zeros. -/
def Op.Storable (fs : EaFs) : Op → Prop
  | .set name value => (findEaIndex name.1).1.length < 256 ∧ value.length < 2 ^ 30 ∧
      (name.1 = [] → value = [] → fs.blocksize < 2 ^ 16)
  | .remove _ => True

instance decidableStorable (fs : EaFs) : (op : Op) → Decidable (op.Storable fs)
  | .set name value => inferInstanceAs (Decidable ((findEaIndex name.1).1.length < 256 ∧
      value.length < 2 ^ 30 ∧ (name.1 = [] → value = [] → fs.blocksize < 2 ^ 16)))
  | .remove _ => .isTrue trivial

def Op.apply (m : List UInt8 → Option (List UInt8)) : Op → List UInt8 → Option (List UInt8)
  | .set name value => Function.update m name.1 (some value)
  | .remove key => Function.update m key.1 none

/-- A state that stands for a map: in memory and on disk. -/
structure Holds (fs : EaFs) (st : Disk × Handle) (m : List UInt8 → Option (List UInt8)) : Prop where
  kept : ∃ ib bl, st.2 = ⟨ib ++ bl, ib.length⟩ ∧ Kept fs st.1 ib bl
  read : xattrsRead fs st.1 = .ok st.2
  values : ∀ key, xattrGet st.2 key = m key

variable {name : CString} {value : List UInt8} {m : List UInt8 → Option (List UInt8)} {h : Handle}
  {st st' : Disk × Handle}

theorem plain_xattrFor (good : (Op.set name value).Storable fs) :
    (xattrFor name.1 value).Plain fs := ⟨rfl, name.2, good.1, good.2.2⟩

theorem Holds.update {h' : Handle} {free' : Int} {runs : List BufferRun} (holds : Holds fs (d, h) m)
    (good : (Op.set name value).Storable fs) (free : free' ≤ max 0 (blockFree fs h))
    (ok : xattrArrayUpdate h name.1 value (ibodyFree fs d h) free'
      (h.attrs.findIdx? (·.name = name.1)) = .ok h') (written :
      xattrsWrite fs alloc d h' = .ok (d', runs)) :
    Holds fs (d', h') ((Op.set name value).apply m) := by
  obtain ⟨⟨ib, bl, rfl, kept⟩, -, values⟩ := holds
  have own := plain_xattrFor good
  obtain ⟨ib', bl', rfl, updated⟩ := xattrArrayUpdate_cases kept.plain good.2.1 ok
  have needed : toInt32 (extAttrLen (findEaIndex name.1).1.length + extAttrSize value.length) =
      ((xattrFor name.1 value).entrySize + (xattrFor name.1 value).room : Nat) := by
    have short := good.1
    have small := good.2.1
    have size := le_extAttrSize value.length
    have size' := le_extAttrSize (findEaIndex name.1).1.length
    have len := extAttrLen_eq (findEaIndex name.1).1.length
    rw [toInt32_eq (by omega)]
    rfl
  rw [needed] at updated
  have aligned := (xattrsWrite_cases written).1
  have block := kept.block
  obtain ⟨kept', read⟩ := (updated.kept kept own aligned (by
    rw [block_free_eq] at free ⊢
    omega)).written written
  refine ⟨⟨ib', bl', rfl, kept'⟩, read, fun key => ?_⟩
  have lookup := (updated.values kept.plain kept.names own).2.2 key
  rw [show xattrGet ⟨ib' ++ bl', ib'.length⟩ key = valueOf (ib' ++ bl') key from rfl, lookup,
    show valueOf (ib ++ bl) key = m key from values key, Op.apply, update_apply]
  simp only [eq_comm, xattrFor]

theorem xattrSetHandle_cases {name : List UInt8} {out : Option Handle}
    (ok : xattrSetHandle fs d h name value = .ok out) :
    (out = none ∧ valueOf h.attrs name = some value) ∨
      ∃ h' free', out = some h' ∧ free' ≤ max 0 (blockFree fs h) ∧
        xattrArrayUpdate h name value (ibodyFree fs d h) free' (h.attrs.findIdx? (·.name = name)) =
          .ok h' := by
  unfold xattrSetHandle at ok
  dsimp only at ok
  split at ok
  · rename_i same
    cases ok
    obtain ⟨x, found, -, value⟩ := by simpa [Option.any_eq_true] using same
    refine .inl ⟨rfl, ?_⟩
    rw [valueOf]
    simp [found, value]
  right
  have updated : ∀ {free' : Int} {run : Except Errcode Handle},
      run = xattrArrayUpdate h name value (ibodyFree fs d h) free'
        (h.attrs.findIdx? (·.name = name)) → free' ≤ max 0 (blockFree fs h) →
      run.map some = .ok out → ∃ h' free', out = some h' ∧ free' ≤ max 0 (blockFree fs h) ∧
        xattrArrayUpdate h name value (ibodyFree fs d h) free'
          (h.attrs.findIdx? (·.name = name)) = .ok h' := by
    intro free' run is free ok
    cases run with
    | error code => cases ok
    | ok h' => exact ⟨h', free', (Except.ok.inj ok).symm, free, is.symm⟩
  split at ok
  · split at ok
    · cases ok
    · exact updated rfl (le_max_left _ _) ok
  · exact updated rfl (le_max_right _ _) ok

theorem Holds.set (holds : Holds fs st m) (good : (Op.set name value).Storable fs)
    (ok : xattrSet fs alloc st.1 st.2 name.1 value = .ok st') :
    Holds fs st' ((Op.set name value).apply m) := by
  obtain ⟨d, h⟩ := st
  unfold xattrSet at ok
  rcases set : xattrSetHandle fs d h name.1 value with code | out
  · simp [set] at ok
  rcases xattrSetHandle_cases set with ⟨rfl, there⟩ | ⟨h', free', rfl, free, updated⟩
  · obtain rfl : (d, h) = st' := by simpa [set] using ok
    refine ⟨holds.kept, holds.read, fun key => ?_⟩
    rw [Op.apply, update_apply]
    split_ifs with same
    · rw [same]
      exact there
    · exact holds.values key
  · simp only [set] at ok
    split at ok
    · cases ok
    · rename_i written
      cases ok
      exact holds.update good free updated written

theorem Kept.of_perm {x : Xattr} (kept : Kept fs d ib bl) (plain : ∀ y ∈ ib' ++ bl', y ∈ ib ++ bl)
    (names : ((ib' ++ bl').map (·.name)).Nodup) (ibody : ib = ib' ∨ ib.Perm (x :: ib'))
    (block : bl = bl' ∨ bl.Perm (x :: bl')) : Kept fs d ib' bl' := by
  refine ⟨fun y mem => kept.plain y (plain y mem), names, fun some => ?_, ?_⟩
  · rcases ibody with rfl | perm
    · exact kept.ibody some
    · obtain ⟨space, room⟩ := kept.ibody (ne_nil_of_mem (perm.mem_iff.mpr mem_cons_self))
      rw [(sizes_perm perm).1, (sizes_perm perm).2] at room
      exact ⟨space, by omega⟩
  · have room := kept.block
    rcases block with rfl | perm
    · exact room
    · rw [(sizes_perm perm).1, (sizes_perm perm).2] at room
      omega

theorem erase_parts {i : Nat} (lt : i < (ib ++ bl).length) : ∃ x ib' bl', (ib ++ bl)[i] = x ∧
      (⟨(ib ++ bl).eraseIdx i, if i < ib.length then ib.length - 1 else ib.length⟩ : Handle) =
        ⟨ib' ++ bl', ib'.length⟩ ∧ (ib = ib' ∨ ib.Perm (x :: ib')) ∧
        (bl = bl' ∨ bl.Perm (x :: bl')) := by
  by_cases inIbody : i < ib.length
  · refine ⟨_, ib.eraseIdx i, bl, rfl, ?_, .inr ?_, .inl rfl⟩
    · rw [eraseIdx_append_of_lt_length inIbody, if_pos inIbody, length_eraseIdx_of_lt inIbody]
    · rw [getElem_append_left inIbody]
      exact (getElem_cons_eraseIdx_perm inIbody).symm
  · have inBlock : i - ib.length < bl.length := by
      rw [length_append] at lt
      omega
    refine ⟨_, ib, bl.eraseIdx (i - ib.length), rfl, ?_, .inl rfl, .inr ?_⟩
    · rw [eraseIdx_append_of_length_le (by omega), if_neg inIbody]
    · rw [getElem_append_right (by omega)]
      exact (getElem_cons_eraseIdx_perm inBlock).symm

theorem Holds.remove {key : CString} (holds : Holds fs st m)
    (ok : xattrRemove fs alloc st.1 st.2 key.1 = .ok st') :
    Holds fs st' ((Op.remove key).apply m) := by
  obtain ⟨d, h⟩ := st
  obtain ⟨⟨ib, bl, same, kept⟩, read, values⟩ := holds
  subst same
  unfold xattrRemove at ok
  cases found : (ib ++ bl).findIdx? (·.name = key.1) with
  | none =>
    obtain rfl : (d, (⟨ib ++ bl, ib.length⟩ : Handle)) = st' := by simpa [found] using ok
    refine ⟨⟨ib, bl, rfl, kept⟩, read, fun name => ?_⟩
    rw [Op.apply, update_apply]
    split_ifs with same
    · rw [same]
      refine valueOf_of_fresh fun x mem => ?_
      simpa using List.findIdx?_eq_none_iff.mp found x mem
    · exact values name
  | some i =>
    obtain ⟨lt, name, -⟩ := List.findIdx?_eq_some_iff_getElem.mp found
    simp only [decide_eq_true_eq] at name
    obtain ⟨x, ib', bl', is, split_, ibody, block⟩ := erase_parts lt
    rw [is] at name
    have erased : (ib ++ bl).eraseIdx i = ib' ++ bl' := congrArg Handle.attrs split_
    have perm : (ib ++ bl).Perm (x :: (ib' ++ bl')) := by
      rw [← erased, ← is]
      exact (getElem_cons_eraseIdx_perm lt).symm
    have names := kept.names
    rw [(perm.map _).nodup_iff, map_cons, nodup_cons] at names
    simp only [found, split_] at ok
    split at ok
    · cases ok
    rename_i written
    cases ok
    obtain ⟨kept', read'⟩ := (kept.of_perm
      (fun y mem => perm.mem_iff.mpr (mem_cons_of_mem _ mem)) names.2 ibody block).written written
    refine ⟨⟨ib', bl', rfl, kept'⟩, read', fun name' => ?_⟩
    have before := valueOf_perm perm ((perm.map _).nodup_iff.mp kept.names) name'
    rw [valueOf_cons, name] at before
    rw [Op.apply, update_apply]
    split_ifs with same
    · refine valueOf_of_fresh fun y mem other => ?_
      exact names.1 (mem_map.mpr ⟨y, mem, other.trans (same.trans name.symm)⟩)
    · rw [if_neg (Ne.symm same)] at before
      exact before.symm.trans (values name')

theorem Holds.step {op : Op} (holds : Holds fs st m) (good : op.Storable fs)
    (ok : step fs alloc st op = .ok st') : Holds fs st' (op.apply m) := by
  cases op with
  | set name value => exact holds.set good ok
  | remove key => exact holds.remove ok

def current (m : List UInt8 → Option (List UInt8)) (ops : List Op) :
    List UInt8 → Option (List UInt8) :=
  ops.foldl Op.apply m

theorem Holds.runOps {ops : List (Op × Option fs.FreeBlock)} (holds : Holds fs st m)
    (good : ∀ op ∈ ops, op.1.Storable fs) (ok : runOps fs st ops = .ok st') :
    Holds fs st' (current m (ops.map (·.1))) := by
  induction ops generalizing st m with
  | nil =>
    cases ok
    exact holds
  | cons op ops ih =>
    obtain ⟨op, alloc⟩ := op
    unfold ExtAttr.runOps at ok
    cases ran : ExtAttr.step fs alloc st op with
    | error code =>
      rw [ran] at ok
      cases ok
    | ok next =>
      rw [ran] at ok
      exact ih (holds.step (good _ mem_cons_self) ran)
        (fun op mem => good op (mem_cons_of_mem _ mem)) ok

theorem holds_of_none (read : xattrsRead fs d = .ok h) (none : h.attrs = []) :
    Holds fs (d, h) fun _ => .none := by
  have blockGe := fs.block_ge
  obtain ⟨ib, bl, -, -, rfl⟩ := xattrsRead_cases read
  obtain ⟨rfl, rfl⟩ := append_eq_nil_iff.mp none
  refine ⟨⟨[], [], rfl, by simp, by simp, by simp, ?_⟩, read, fun key => rfl⟩
  simp only [entriesSize_nil, valuesSize_nil]
  omega

end Runs

/-- After every run of calls that succeed, reading the inode again gives the attributes that
are set, if each call can be stored. -/
theorem attributes_survive (fs : EaFs) (_plain : fs.eaInode = false) (d₀ : Disk) (h₀ : Handle)
    (read : xattrsRead fs d₀ = .ok h₀) (none : h₀.attrs = [])
    (ops : List (Op × Option fs.FreeBlock)) (good : ∀ op ∈ ops, op.1.Storable fs)
    (d : Disk) (h : Handle) (ok : runOps fs (d₀, h₀) ops = .ok (d, h)) :
    ∃ h', xattrsRead fs d = .ok h' ∧
      ∀ name : CString, xattrGet h' name.1 = current (fun _ => .none) (ops.map (·.1)) name.1 := by
  have holds := (holds_of_none read none).runOps good ok
  exact ⟨h, holds.read, fun name => holds.values name.1⟩

def bareDisk : Disk := ⟨fun _ => 0, fun _ _ => 0⟩

def sampleBlock : sampleFs.FreeBlock := ⟨100, by decide⟩

def nameA : CString := ⟨bytes "user.a", by decide⟩

def nameB : CString := ⟨bytes "user.b", by decide⟩

/- The second value of the first name goes to the block. -/
def sampleOps : List (Op × Option sampleFs.FreeBlock) :=
  [(.set nameA [1, 2], none), (.set nameB [3], none),
    (.set nameA (List.replicate 90 7), some sampleBlock), (.remove nameB, none)]

theorem sample_survives : ∃ d h, runOps sampleFs (bareDisk, ⟨[], 0⟩) sampleOps = .ok (d, h) ∧
    ∃ h', xattrsRead sampleFs d = .ok h' ∧ ∀ name : CString, xattrGet h' name.1 =
      current (fun _ => .none) (sampleOps.map (·.1)) name.1 := by
  have ran : (runOps sampleFs (bareDisk, ⟨[], 0⟩) sampleOps).isOk = true := by decide +kernel
  cases run : runOps sampleFs (bareDisk, ⟨[], 0⟩) sampleOps with
  | error code =>
    rw [run] at ran
    cases ran
  | ok out =>
    exact ⟨out.1, out.2, rfl, attributes_survive sampleFs rfl bareDisk ⟨[], 0⟩ (by decide +kernel)
      rfl sampleOps (by decide +kernel) out.1 out.2 run⟩

/- A short name of 256 bytes; its length is stored as zero. -/
def longName : CString := ⟨bytes "user." ++ List.replicate 256 97, by decide⟩

def longOps : List (Op × Option sampleFs.FreeBlock) := [(.set longName [118], some sampleBlock)]

theorem long_name_lost : xattrsRead sampleFs bareDisk = .ok ⟨[], 0⟩ ∧
    ((runOps sampleFs (bareDisk, ⟨[], 0⟩) longOps).bind fun st => xattrsRead sampleFs st.1) =
      .ok ⟨[⟨1, bytes "user.", [], [118], 0⟩], 0⟩ ∧
    xattrGet ⟨[⟨1, bytes "user.", [], [118], 0⟩], 0⟩ longName.1 = none ∧
    current (fun _ => .none) (longOps.map (·.1)) longName.1 = some [118] := by
  decide +kernel

end E2fs.ExtAttr
