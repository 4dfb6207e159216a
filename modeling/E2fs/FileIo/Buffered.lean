import E2fs.FileIo.File

/-! What an open file holds: the buffered block is in the buffer, the others are on the disk. Every
part of a call that succeeds keeps this. -/
namespace E2fs.FileIo
open Device Option Function Bool

def onDisk (s : State) (block j : Nat) : UInt8 :=
  match s.file.map.lookup block with
  | some m => if m.uninit then 0 else s.fs.blocks m.phys j
  | none => 0

def inFile (s : State) (block j : Nat) : UInt8 :=
  if s.file.valid ∧ block = s.file.blockno then s.file.buf j else onDisk s block j

/-- The file has these bytes, and the buffer belongs to its block. -/
structure Agrees (s : State) (bytes : Content) : Prop where
  pos : 0 < s.fs.blocksize
  plain : s.fs.shareDup = false
  bytes : ∀ block j, j < s.fs.blocksize → inFile s block j = bytes (block * s.fs.blocksize + j)
  mapped : ∀ block m, s.file.map.lookup block = some m →
    m.phys ≠ 0 ∧ s.fs.used m.phys = true ∧ (m.uninit = true → s.file.extents = true)
  apart : ∀ block block' m m', s.file.map.lookup block = some m →
    s.file.map.lookup block' = some m' → m.phys = m'.phys → block = block'
  clean : s.file.valid = true → s.file.dirty = false →
    ∀ j < s.fs.blocksize, onDisk s s.file.blockno j = s.file.buf j
  dirty : s.file.dirty = true → s.file.valid = true
  phys :
    s.file.valid = true → s.file.physblock = (s.file.map.lookup s.file.blockno).elim 0 Mapped.phys
  writes : ∀ w ∈ s.writes, ∃ m, w.mapped = some m ∧ m.phys = w.phys

/-- What is not the buffer and not the map stays. -/
structure Same (s s' : State) : Prop where
  blocksize : s'.fs.blocksize = s.fs.blocksize
  size : s'.file.size = s.file.size
  pos : s'.file.pos = s.file.pos

section Flush

variable {env : Env} {s s' : State} {bytes : Content}

theorem Same.refl (s : State) : Same s s := ⟨rfl, rfl, rfl⟩

theorem Same.trans {s'' : State} (first : Same s s') (second : Same s' s'') : Same s s'' :=
  ⟨second.blocksize.trans first.blocksize, second.size.trans first.size, second.pos.trans first.pos⟩

variable {block : Nat}

theorem onDisk_of_mapped {m : Mapped} (is : s.file.map.lookup block = some m) (j : Nat) :
    onDisk s block j = if m.uninit then 0 else s.fs.blocks m.phys j := by
  rw [onDisk, is]

theorem onDisk_of_none (none : s.file.map.lookup block = none) (j : Nat) :
    onDisk s block j = 0 := by
  rw [onDisk, none]

theorem onDisk_congr (map : s'.file.map.lookup block = s.file.map.lookup block)
    (blocks : ∀ m, s.file.map.lookup block = some m → s'.fs.blocks m.phys = s.fs.blocks m.phys)
    (j : Nat) : onDisk s' block j = onDisk s block j := by
  rw [onDisk, onDisk, map]
  cases is : s.file.map.lookup block with
  | none => rfl
  | some m => simp only [blocks m is]

theorem inFile_buffered (valid : s.file.valid = true) (own : block = s.file.blockno) (j : Nat) :
    inFile s block j = s.file.buf j := if_pos ⟨valid, own⟩

theorem inFile_other (other : s.file.valid = true → block ≠ s.file.blockno) (j : Nat) :
    inFile s block j = onDisk s block j := if_neg fun h => other h.1 h.2

theorem inFile_congr {j : Nat} (valid : s'.file.valid = s.file.valid)
    (blockno : s'.file.blockno = s.file.blockno) (buf : s'.file.buf j = s.file.buf j)
    (disk : (s.file.valid = true → block ≠ s.file.blockno) → onDisk s' block j = onDisk s block j) :
    inFile s' block j = inFile s block j := by
  rw [inFile, inFile, valid, blockno, buf]
  by_cases own : s.file.valid = true ∧ block = s.file.blockno
  · rw [if_pos own, if_pos own]
  · rw [if_neg own, if_neg own]
    exact disk fun valid eq => own ⟨valid, eq⟩

theorem Agrees.place (agrees : Agrees s bytes) (valid : s.file.valid = true)
    (dirty : s.file.dirty = true)
    {p : Nat} {used : Nat → Bool} {blocks : Nat → Content} (nonzero : p ≠ 0)
    (grows : ∀ q, s.fs.used q = true → used q = true)
    (isUsed : used p = true)
    (free : ∀ block m, s.file.map.lookup block = some m → m.phys = p → block = s.file.blockno)
    (same : ∀ block m, block ≠ s.file.blockno → s.file.map.lookup block = some m →
      blocks m.phys = s.fs.blocks m.phys) :
    Agrees { s with
      fs := { s.fs with used := used, blocks := blocks }
      file := { s.file with map := s.file.map.set s.file.blockno ⟨p, false⟩, physblock := p } }
          bytes where
  __ := agrees
  bytes := fun block j lt => by
    refine Eq.trans (inFile_congr (s := s) rfl rfl rfl fun other => ?_) (agrees.bytes block j lt)
    exact onDisk_congr (s := s) (lookup_set_other (other valid))
      (fun m is => same block m (other valid) is) j
  mapped := fun block m is => by
    by_cases own : block = s.file.blockno
    · rw [own, lookup_set_same] at is
      cases is
      exact ⟨nonzero, isUsed, nofun⟩
    · rw [lookup_set_other own] at is
      obtain ⟨ne, is, ext⟩ := agrees.mapped block m is
      exact ⟨ne, grows _ is, ext⟩
  apart := fun block block' m m' is is' eq => by
    by_cases own : block = s.file.blockno
    · by_cases own' : block' = s.file.blockno
      · rw [own, own']
      · rw [own, lookup_set_same] at is
        rw [lookup_set_other own'] at is'
        cases is
        exact own.trans (free block' m' is' eq.symm).symm
    · rw [lookup_set_other own] at is
      by_cases own' : block' = s.file.blockno
      · rw [own', lookup_set_same] at is'
        cases is'
        exact (free block m is eq).trans own'.symm
      · rw [lookup_set_other own'] at is'
        exact agrees.apart block block' m m' is is' eq
  clean := fun _ clean => absurd (dirty.symm.trans clean) nofun
  dirty := fun _ => valid
  phys := fun _ => by
    show p = ((s.file.map.set s.file.blockno ⟨p, false⟩).lookup s.file.blockno).elim 0 Mapped.phys
    rw [lookup_set_same]
    rfl

/-- A dirty buffer with a place for it. -/
structure Placed (s : State) (bytes : Content) : Prop extends Agrees s bytes where
  valid : s.file.valid = true
  isDirty : s.file.dirty = true
  place : s.file.map.lookup s.file.blockno = some ⟨s.file.physblock, false⟩

theorem bmapGet_of_small (small : tooBig s block = false) : bmapGet s block =
    some ((s.file.map.lookup block).elim 0 Mapped.phys,
      (s.file.map.lookup block).elim false Mapped.uninit) := by
  rw [bmapGet, small, if_neg Bool.false_ne_true]
  cases s.file.map.lookup block <;> rfl

theorem bmapGet_eq {found : Nat × Bool} (get : bmapGet s block = some found) :
    found = ((s.file.map.lookup block).elim 0 Mapped.phys,
      (s.file.map.lookup block).elim false Mapped.uninit) := by
  cases big : tooBig s block with
  | true =>
    rw [bmapGet, big] at get
    cases get
  | false =>
    rw [bmapGet_of_small big] at get
    exact (Option.some.inj get).symm

section

variable (agrees : Agrees s bytes) (valid : s.file.valid = true) (dirty : s.file.dirty = true)
include agrees valid dirty

theorem initBlock_agrees
    (init : initBlock env s = some s') :
    Agrees s' bytes ∧ Same s s' ∧ s'.file.valid = true ∧ s'.file.dirty = true ∧
      ∀ m, s'.file.map.lookup s'.file.blockno = some m → m.uninit = false := by
  have phys := agrees.phys valid
  rw [initBlock] at init
  split at init
  · rename_i has
    obtain ⟨found, get, init⟩ := bind_eq_some_iff.mp init
    rw [bmapGet_eq get] at init
    cases is : s.file.map.lookup s.file.blockno with
    | none =>
      rw [is] at phys
      exact absurd phys has.1
    | some m =>
      rw [is] at init phys
      split_ifs at init with written
      · rw [bmapSet] at init
        split at init
        · cases init
        cases init
        have nonzero := agrees.mapped _ m is
        refine ⟨agrees.place valid dirty has.1 (fun q used => ?_) ?_ (fun block m' is' eq => ?_)
          (fun _ _ _ _ => rfl), ⟨rfl, rfl, rfl⟩, valid, dirty, fun m' is' => ?_⟩
        · simp [used]
        · rw [phys, elim_some, nonzero.2.1, Bool.true_or]
        · exact agrees.apart _ _ m' m is' is (eq.trans phys)
        · rw [lookup_set_same] at is'
          rw [← Option.some.inj is']
      · cases init
        refine ⟨agrees, Same.refl _, valid, dirty, fun m' is' => ?_⟩
        rw [is] at is'
        rw [← Option.some.inj is']
        exact eq_false_of_not_eq_true written
  · rename_i has
    cases init
    refine ⟨agrees, Same.refl _, valid, dirty, fun m is => ?_⟩
    obtain ⟨nonzero, _, ext⟩ := agrees.mapped _ m is
    rw [is] at phys
    refine eq_false_of_not_eq_true fun uninit => has ⟨?_, ext uninit⟩
    rw [phys]
    exact nonzero

theorem bmapAlloc_placed (none : s.file.physblock = 0)
    (alloc : bmapAlloc env s s.file.blockno = some s') : Placed s' bytes ∧ Same s s' := by
  have unmapped : s.file.map.lookup s.file.blockno = Option.none := by
    rcases is : s.file.map.lookup s.file.blockno with _ | m
    · rfl
    have phys := agrees.phys valid
    rw [is, none] at phys
    exact absurd phys.symm (agrees.mapped _ m is).1
  rw [bmapAlloc, unmapped] at alloc
  split at alloc
  · cases alloc
  obtain ⟨⟨b, tree⟩, pick, rfl⟩ := map_eq_some_iff.mp alloc
  obtain ⟨nonzero, free⟩ := env.alloc.pick_free _ _ _ _ _ pick
  have other : ∀ block m, s.file.map.lookup block = some m → m.phys ≠ b := fun block m is eq => by
    have used := (agrees.mapped block m is).2.1
    rw [eq, free] at used
    cases used
  refine ⟨⟨agrees.place valid dirty nonzero (fun q used => ?_) ?_
    (fun block m is eq => absurd eq (other block m is))
    (fun block m _ is => update_of_ne (other block m is) ..), valid, dirty, lookup_set_same⟩, ⟨rfl,
      rfl, rfl⟩⟩
  · simp [used]
  · simp

theorem allocBlock_placed
    (written : ∀ m, s.file.map.lookup s.file.blockno = some m → m.uninit = false)
    (alloc : allocBlock env s = some s') : Placed s' bytes ∧ Same s s' := by
  rw [allocBlock] at alloc
  split_ifs at alloc with none
  · exact bmapAlloc_placed agrees valid dirty none alloc
  cases alloc
  refine ⟨⟨agrees, valid, dirty, ?_⟩, Same.refl _⟩
  have phys := agrees.phys valid
  cases is : s.file.map.lookup s.file.blockno with
  | none =>
    rw [is] at phys
    exact absurd phys none
  | some m =>
    rw [is, elim_some] at phys
    rw [phys, ← written m is]

end

theorem Placed.written (placed : Placed s bytes) : Agrees (writeBuffer s) bytes where
  __ := placed
  bytes := fun block j lt => by
    refine Eq.trans (inFile_congr (s := s) rfl rfl rfl fun other => ?_) (placed.bytes block j lt)
    refine onDisk_congr (by rfl) (fun m is => ?_) j
    exact update_of_ne (fun eq => other placed.valid (placed.apart _ _ m _ is placed.place eq)) ..
  clean := fun _ _ j lt => by
    refine (onDisk_of_mapped (s := writeBuffer s) placed.place j).trans ?_
    exact congrFun (update_self ..) j
  dirty := nofun
  writes :=
    List.forall_mem_append.mpr ⟨placed.writes, List.forall_mem_singleton.mpr ⟨_, placed.place, rfl⟩⟩

theorem fileFlush_agrees (agrees : Agrees s bytes) (flush : fileFlush env s = some s') :
    Agrees s' bytes ∧ Same s s' ∧ s'.file.dirty = false := by
  rw [fileFlush] at flush
  split_ifs at flush with has
  · obtain ⟨s2, both, rfl⟩ := map_eq_some_iff.mp flush
    obtain ⟨s1, init, alloc⟩ := bind_eq_some_iff.mp both
    obtain ⟨agrees1, same1, valid1, dirty1, written⟩ := initBlock_agrees agrees has.1 has.2 init
    obtain ⟨placed, same2⟩ := allocBlock_placed agrees1 valid1 dirty1 written alloc
    have same := same1.trans same2
    exact ⟨placed.written, { same with }, rfl⟩
  · cases flush
    exact ⟨agrees, Same.refl _,
      eq_false_of_not_eq_true fun dirty => has ⟨agrees.dirty dirty, dirty⟩⟩

theorem Agrees.invalidate (agrees : Agrees s bytes) (clean : s.file.dirty = false) (blockno : Nat) :
    Agrees { s with file := { s.file with valid := false, blockno := blockno } } bytes where
  __ := agrees
  bytes := fun block j lt => by
    refine Eq.trans ?_ (agrees.bytes block j lt)
    refine (inFile_other (fun valid => Bool.noConfusion valid) j).trans ?_
    by_cases own : s.file.valid = true ∧ block = s.file.blockno
    · rw [inFile_buffered own.1 own.2, own.2]
      exact agrees.clean own.1 clean j lt
    · rw [inFile_other fun valid eq => own ⟨valid, eq⟩]
      rfl
  clean := nofun
  dirty := fun dirty => absurd (clean.symm.trans dirty) nofun
  phys := nofun

theorem sync_agrees (agrees : Agrees s bytes) (sync : syncBufferPosition env s = some s') :
    Agrees s' bytes ∧ Same s s' ∧ s'.file.blockno = s.file.pos / s.fs.blocksize ∧
      (s'.file.valid = true → s'.file.blockno = s.file.blockno ∧ s.file.valid = true) := by
  rw [syncBufferPosition] at sync
  split_ifs at sync with here
  · obtain ⟨s1, flush, rfl⟩ := map_eq_some_iff.mp sync
    obtain ⟨agrees1, same, clean⟩ := fileFlush_agrees agrees flush
    exact ⟨agrees1.invalidate clean _, { same with }, rfl, nofun⟩
  · cases sync
    exact ⟨agrees, Same.refl _, (not_not.mp here).symm, fun valid => ⟨rfl, valid⟩⟩

end Flush

section Load

variable {env : Env} {s s' : State} {bytes : Content}

theorem loaded_eq {block : Nat} (nonzero : ∀ m, s.file.map.lookup block = some m → m.phys ≠ 0)
    (j : Nat) :
    (if (s.file.map.lookup block).elim 0 Mapped.phys ≠ 0 ∧
      (s.file.map.lookup block).elim false Mapped.uninit = false then
      s.fs.blocks ((s.file.map.lookup block).elim 0 Mapped.phys)
      else zeros) j = onDisk s block j := by
  cases is : s.file.map.lookup block with
  | none =>
    rw [onDisk_of_none is, if_neg fun h => h.1 rfl]
    rfl
  | some m =>
    rw [onDisk_of_mapped is, elim_some, elim_some]
    cases uninit : m.uninit with
    | true =>
      rw [if_neg fun h => Bool.noConfusion h.2, if_pos rfl]
      rfl
    | false => rw [if_pos ⟨nonzero m is, rfl⟩, if_neg Bool.false_ne_true]

theorem Agrees.load (agrees : Agrees s bytes) (invalid : s.file.valid = false) {buf : Content}
    (is : ∀ j < s.fs.blocksize, buf j = onDisk s s.file.blockno j) :
    Agrees { s with file := { s.file with
      physblock := (s.file.map.lookup s.file.blockno).elim 0 Mapped.phys, buf := buf,
      valid := true } } bytes where
  __ := agrees
  bytes := fun block j lt => by
    refine Eq.trans ?_ (agrees.bytes block j lt)
    rw [inFile_other fun valid => absurd (invalid.symm.trans valid) nofun]
    by_cases own : block = s.file.blockno
    · refine Eq.trans (inFile_buffered (by rfl) (by exact own) j) ?_
      rw [own]
      exact is j lt
    · exact inFile_other (by exact fun _ => own) j
  clean := fun _ _ j lt => (is j lt).symm
  dirty := fun _ => rfl
  phys := fun _ => rfl

theorem loadBuffer_agrees (agrees : Agrees s bytes) (load : loadBuffer s false = some s') :
    Agrees s' bytes ∧ Same s s' ∧ s'.file.valid = true ∧ s'.file.blockno = s.file.blockno := by
  rw [loadBuffer] at load
  split at load
  · rename_i valid
    cases load
    exact ⟨agrees, Same.refl _, valid, rfl⟩
  · rename_i invalid
    obtain ⟨found, get, rfl⟩ := map_eq_some_iff.mp load
    rw [bmapGet_eq get]
    refine ⟨agrees.load (eq_false_of_not_eq_true invalid) fun j _ => ?_, ⟨rfl, rfl, rfl⟩, rfl, rfl⟩
    exact loaded_eq (fun m is => (agrees.mapped _ m is).1) j

theorem Agrees.congr_buf (agrees : Agrees s bytes) {buf : Content}
    (same : ∀ j < s.fs.blocksize, buf j = s.file.buf j) :
    Agrees { s with file := { s.file with buf := buf } } bytes where
  __ := agrees
  bytes := fun block j lt =>
    Eq.trans (inFile_congr (s := s) rfl rfl (same j lt) fun _ => rfl) (agrees.bytes block j lt)
  clean := fun valid clean j lt => (agrees.clean valid clean j lt).trans (same j lt).symm

theorem block_of_pos (block : Nat) {blocksize j : Nat} (lt : j < blocksize) :
    (block * blocksize + j) / blocksize = block := by
  rw [mul_comm, Nat.mul_add_div (by omega), Nat.div_eq_of_lt lt, add_zero]

theorem Agrees.fill (agrees : Agrees s bytes) (valid : s.file.valid = true) (start : Nat)
    (data : List UInt8)
    (room : start + data.length ≤ s.fs.blocksize) : Agrees (fillBuffer s start data)
      (patch bytes (s.file.blockno * s.fs.blocksize + start) data.length fun j => data.getD j 0)
        where
  __ := agrees
  bytes := fun block j lt => by
    change j < s.fs.blocksize at lt
    show _ = patch bytes _ _ _ (block * s.fs.blocksize + j)
    have before := agrees.bytes block j lt
    rw [patch_block room lt]
    split_ifs with own
    · rw [inFile_buffered valid own, own] at before
      refine Eq.trans (inFile_buffered (by exact valid) (by exact own) j) ?_
      change patch s.file.buf start data.length (fun j => data.getD j 0) j = _
      rw [patch, patch, before]
    · rw [inFile_other fun _ => own] at before
      exact (inFile_other (by exact fun _ => own) j).trans before
  clean := nofun
  dirty := fun _ => valid

/-- A chunk of data goes into the buffer; a whole block is not read first. -/
theorem load_fill (agrees : Agrees s bytes) {dontfill : Bool}
    (load : loadBuffer s dontfill = some s') (start : Nat)
    (data : List UInt8) (room : start + data.length ≤ s.fs.blocksize)
    (whole : dontfill = true → data.length = s.fs.blocksize) : Agrees (fillBuffer s' start data)
        (patch bytes (s.file.blockno * s.fs.blocksize + start) data.length fun j => data.getD j 0) ∧
      Same s s' ∧ s'.file.valid = true := by
  cases dontfill with
  | false =>
    obtain ⟨agrees', same, valid, blockno⟩ := loadBuffer_agrees agrees load
    have filled := agrees'.fill valid start data (by rw [same.blocksize]; exact room)
    rw [same.blocksize, blockno] at filled
    exact ⟨filled, same, valid⟩
  | true =>
    have all := whole rfl
    rw [loadBuffer] at load
    split at load
    · rename_i valid
      cases load
      exact ⟨agrees.fill valid start data room, Same.refl _, valid⟩
    rename_i invalid
    obtain ⟨found, get, rfl⟩ := map_eq_some_iff.mp load
    rw [bmapGet_eq get]
    refine ⟨?_, ⟨rfl, rfl, rfl⟩, rfl⟩
    have loaded := agrees.load (eq_false_of_not_eq_true invalid) (fun _ _ => rfl)
    refine (loaded.fill rfl start data room).congr_buf fun j lt => ?_
    change j < s.fs.blocksize at lt
    have new : ∀ c, patch c start data.length (fun j => data.getD j 0) j =
        data.getD (j - start) 0 := fun c =>
      patch_inside (by omega) (by omega)
    exact (new _).trans (new _).symm

theorem chooseBlock_agrees (agrees : Agrees s bytes) (valid : s.file.valid = true)
    (dirty : s.file.dirty = true)
    (choose : chooseBlock env s = some s') : Agrees s' bytes ∧ Same s s' := by
  rw [chooseBlock] at choose
  split at choose
  · cases choose
    exact ⟨agrees, Same.refl _⟩
  · rename_i none
    rw [if_neg (by rw [agrees.plain]; nofun)] at choose
    obtain ⟨placed, same⟩ := bmapAlloc_placed agrees valid dirty (not_not.mp none) choose
    exact ⟨placed.toAgrees, same⟩

end Load

end E2fs.FileIo
