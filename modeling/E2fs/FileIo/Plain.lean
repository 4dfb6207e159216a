import E2fs.FileIo.Buffered

/-! An open file is a byte array: reads, writes and changes of its size, in any order, for runs in
which no call cuts the block that is in the buffer. -/
namespace E2fs.FileIo
open Device Run List Option Nat Function Bool

section Loops

variable {env : Env} {s s' : State} {bytes : Content}

theorem bytesAt_chunk {buf : Content} {b p c n size : Nat} (pos : 0 < b)
    (buffer : ∀ j < b, buf j = bytes (p / b * b + j))
    (is : min (min (b - p % b) n) (size - p) = c) :
    bytesAt buf (p % b) c ++ bytesAt bytes (p + c)
    (min (n - c) (size - (p + c))) = bytesAt bytes p (min n (size - p)) := by
  have split := div_add_mod' p b
  have lt := mod_lt p pos
  rw [show min n (size - p) = c + min (n - c) (size - (p + c)) by omega, bytesAt_add]
  congr 1
  refine bytesAt_congr fun j small => ?_
  rw [buffer _ (by omega), ← add_assoc, split]

theorem readLoop_agrees (fuel wanted : Nat) (enough : wanted ≤ fuel) (agrees : Agrees s bytes)
    {out : List UInt8}
    (read : readLoop env fuel s wanted = some (s', out)) :
    Agrees s' bytes ∧ s'.file.size = s.file.size ∧
      s'.file.pos = s.file.pos + min wanted (s.file.size - s.file.pos) ∧
      out = bytesAt bytes s.file.pos (min wanted (s.file.size - s.file.pos)) := by
  induction fuel generalizing s wanted out with
  | zero =>
    cases some.inj read
    obtain rfl : wanted = 0 := by omega
    exact ⟨agrees, rfl, rfl, rfl⟩
  | succ fuel ih =>
    rw [readLoop] at read
    split_ifs at read with more
    · obtain ⟨s2, both, read⟩ := bind_eq_some_iff.mp read
      obtain ⟨s1, sync, load⟩ := bind_eq_some_iff.mp both
      obtain ⟨⟨s3, rest⟩, later, is⟩ := map_eq_some_iff.mp read
      cases is
      obtain ⟨agrees1, same1, here, _⟩ := sync_agrees agrees sync
      obtain ⟨agrees2, same2, valid, block2⟩ := loadBuffer_agrees agrees1 load
      have same := same1.trans same2
      have split := div_add_mod' s.file.pos s.fs.blocksize
      have lt := mod_lt s.file.pos agrees.pos
      rw [same.pos, same.size, same.blocksize] at later
      rw [same.pos, same.size, same.blocksize]
      generalize isC : min (min (s.fs.blocksize - s.file.pos % s.fs.blocksize) wanted)
        (s.file.size - s.file.pos) = c at later ⊢
      have advanced : Agrees (advance s2 c) bytes := { agrees2 with }
      obtain ⟨agrees3, size, pos, rfl⟩ := ih (wanted - c) (by omega) advanced later
      have newPos : (advance s2 c).file.pos = s.file.pos + c := congrArg (· + c) same.pos
      have newSize : (advance s2 c).file.size = s.file.size := same.size
      rw [newPos, newSize] at pos ⊢
      refine ⟨agrees3, size.trans newSize, by omega,
        bytesAt_chunk agrees.pos (fun j small => ?_) isC⟩
      have byte := agrees2.bytes s2.file.blockno j (by rw [same.blocksize]; exact small)
      rwa [inFile_buffered valid rfl, block2, here, same.blocksize] at byte
    · obtain ⟨rfl, rfl⟩ := Prod.mk.inj (some.inj read)
      have none : min wanted (s.file.size - s.file.pos) = 0 := by omega
      rw [none]
      exact ⟨agrees, rfl, rfl, rfl⟩

theorem patch_chunk (data : List UInt8) {c p : Nat} (le : c ≤ data.length) :
    patch (patch bytes p (data.take c).length fun j => (data.take c).getD j 0) (p + c)
    (data.drop c).length
      (fun j => (data.drop c).getD j 0) = patch bytes p data.length fun j => data.getD j 0 := by
  have first : ∀ j < c, (data.take c).getD j 0 = data.getD j 0 := fun j lt => by
    rw [getD_eq_getElem?_getD, getD_eq_getElem?_getD, List.getElem?_take_of_lt lt]
  have rest : ∀ j, (data.drop c).getD j 0 = data.getD (c + j) 0 := fun j => by
    rw [getD_eq_getElem?_getD, getD_eq_getElem?_getD, List.getElem?_drop]
  rw [length_take_of_le le, length_drop, patch_congr first, funext rest, patch_more,
    Nat.add_sub_cancel' le]

theorem writeLoop_agrees {fuel : Nat} (data : List UInt8) (enough : data.length ≤ fuel)
    (agrees : Agrees s bytes) (write : writeLoop env fuel s data = some s') :
    Agrees s' (patch bytes s.file.pos data.length fun j => data.getD j 0) ∧
      s'.file.size = s.file.size ∧ s'.file.pos = s.file.pos + data.length := by
  induction fuel generalizing s data bytes with
  | zero =>
    cases write
    rw [eq_nil_of_length_eq_zero (le_zero.mp enough), length_nil, patch_none]
    exact ⟨agrees, rfl, rfl⟩
  | succ fuel ih =>
    rw [writeLoop] at write
    split_ifs at write with none
    · cases write
      rw [none, length_nil, patch_none]
      exact ⟨agrees, rfl, rfl⟩
    · obtain ⟨s1, sync, write⟩ := bind_eq_some_iff.mp write
      obtain ⟨s2, load, write⟩ := bind_eq_some_iff.mp write
      obtain ⟨s3, choose, write⟩ := bind_eq_some_iff.mp write
      obtain ⟨agrees1, same1, here, _⟩ := sync_agrees agrees sync
      have split := div_add_mod' s.file.pos s.fs.blocksize
      have lt := mod_lt s.file.pos agrees.pos
      rw [same1.pos, same1.blocksize] at load choose write
      generalize isC :
        min (s.fs.blocksize - s.file.pos % s.fs.blocksize) data.length = c at load choose write
      have chunk : (data.take c).length = c := length_take_of_le (by omega)
      obtain ⟨agrees2, same2, valid⟩ := load_fill agrees1 load (s.file.pos % s.fs.blocksize)
        (data.take c) (by rw [chunk, same1.blocksize]; omega) fun whole => by
          rw [chunk, same1.blocksize]
          exact of_decide_eq_true whole
      obtain ⟨agrees3, same3⟩ := chooseBlock_agrees agrees2 valid rfl choose
      have filled : Same s2 (fillBuffer s2 (s.file.pos % s.fs.blocksize) (data.take c)) :=
        ⟨rfl, rfl, rfl⟩
      have same := (same1.trans same2).trans (filled.trans same3)
      have advanced : Agrees (advance s3 c) _ := { agrees3 with }
      obtain ⟨agrees4, size, pos⟩ := ih (data.drop c) (by rw [length_drop]; omega) advanced write
      have newPos : (advance s3 c).file.pos = s.file.pos + c := congrArg (· + c) same.pos
      have place :
          s1.file.blockno * s1.fs.blocksize + s.file.pos % s.fs.blocksize = s.file.pos := by
        rw [here, same1.blocksize]
        omega
      rw [newPos, place, patch_chunk data (by omega)] at agrees4
      rw [newPos, length_drop] at pos
      exact ⟨agrees4, size.trans same.size, by omega⟩

end Loops

section Truncate

variable {env : Env} {s s' : State} {bytes : Content}

theorem Agrees.congr_bytes {bytes' : Content} (agrees : Agrees s bytes)
    (same : ∀ q, bytes' q = bytes q) : Agrees s bytes' := by
  rw [show bytes' = bytes from funext same]
  exact agrees

/- Behind the end of the file there is nothing but zeros. -/
def cutAt (bytes : Content) (size : Nat) : Content := fun q => if q < size then bytes q else 0

def zeroTail (bytes : Content) (blocksize offset : Nat) : Content := fun q =>
  if q / blocksize = offset / blocksize ∧ offset ≤ q then 0 else bytes q

variable {block start : Nat} {m : Mapped}

section

variable (agrees : Agrees s bytes) (is : s.file.map.lookup block = some m)
  (written : m.uninit = false)
include agrees is written

theorem Agrees.onDisk_zeroed {off : Nat} (other : Nat) {j : Nat} (lt : j < s.fs.blocksize) :
    onDisk (writeBlk s block m.phys (patch (s.fs.blocks m.phys) off (s.fs.blocksize - off) zeros))
      other j = if other = block ∧ off ≤ j then 0 else onDisk s other j := by
  by_cases own : other = block
  · subst own
    refine Eq.trans (onDisk_of_mapped (m := m) (by exact is) j) ?_
    rw [written, if_neg Bool.false_ne_true, onDisk_of_mapped is, written, if_neg Bool.false_ne_true]
    refine (congrFun (update_self ..) j).trans ?_
    by_cases behind : off ≤ j
    · rw [if_pos ⟨rfl, behind⟩]
      exact patch_inside behind (by omega)
    · rw [if_neg fun h => behind h.2]
      exact patch_apart (by omega)
  · rw [if_neg fun h => own h.1]
    refine onDisk_congr (by rfl) (fun m' is' => ?_) j
    exact update_of_ne (fun eq => own (agrees.apart _ _ m' m is' is eq)) ..

theorem Agrees.zeroBlock (off : Nat) (inside : off < s.fs.blocksize)
    (safe : s.file.valid = true → block = s.file.blockno → ∀ j, off ≤ j → j < s.fs.blocksize →
      s.file.buf j = 0) :
    Agrees (writeBlk s block m.phys (patch (s.fs.blocks m.phys) off (s.fs.blocksize - off) zeros))
      (zeroTail bytes s.fs.blocksize (block * s.fs.blocksize + off)) where
  __ := agrees
  bytes := fun other j lt => by
    change j < s.fs.blocksize at lt
    show _ = zeroTail _ _ _ (other * s.fs.blocksize + j)
    have before := agrees.bytes other j lt
    have tail : (other = block ∧ block * s.fs.blocksize + off ≤ other * s.fs.blocksize + j) ↔
        other = block ∧ off ≤ j :=
      and_congr_right fun eq => by rw [eq]; omega
    rw [zeroTail, block_of_pos other lt, block_of_pos block inside, ← before]
    simp only [tail]
    by_cases own : s.file.valid = true ∧ other = s.file.blockno
    · rw [inFile_buffered own.1 own.2]
      refine Eq.trans (inFile_buffered (by exact own.1) (by exact own.2) j) ?_
      split_ifs with zeroed
      · exact safe own.1 (zeroed.1.symm.trans own.2) j zeroed.2 lt
      · rfl
    · have apart : s.file.valid = true → other ≠ s.file.blockno := fun valid eq => own ⟨valid, eq⟩
      rw [inFile_other apart]
      exact (inFile_other (by exact apart) j).trans (agrees.onDisk_zeroed is written other lt)
  clean := fun valid clean j lt => by
    refine Eq.trans (agrees.onDisk_zeroed is written s.file.blockno lt) ?_
    by_cases zeroed : s.file.blockno = block ∧ off ≤ j
    · rw [if_pos zeroed]
      exact (safe valid zeroed.1.symm j zeroed.2 lt).symm
    · rw [if_neg zeroed]
      exact agrees.clean valid clean j lt
  writes := forall_mem_append.mpr ⟨agrees.writes, forall_mem_singleton.mpr ⟨m, is, rfl⟩⟩

end

theorem Agrees.zeroTail_of_zero (agrees : Agrees s bytes) {offset : Nat}
    (zero : ∀ q, offset ≤ q → q / s.fs.blocksize = offset / s.fs.blocksize → bytes q = 0) :
    Agrees s (zeroTail bytes s.fs.blocksize offset) := agrees.congr_bytes fun q => by
    rw [zeroTail]
    split_ifs with tail
    · exact (zero q tail.2 tail.1).symm
    · rfl

theorem zeroPastOffset_agrees (agrees : Agrees s bytes) {offset : Nat}
    (safe : s.file.valid = true → s.file.blockno = offset / s.fs.blocksize →
      s.file.pos / s.fs.blocksize = s.file.blockno →
      ∀ q, offset ≤ q → q / s.fs.blocksize = offset / s.fs.blocksize → bytes q = 0)
    (zero : zeroPastOffset env s offset = some s') :
    Agrees s' (if offset % s.fs.blocksize = 0 then bytes
      else zeroTail bytes s.fs.blocksize offset) ∧ Same s s' ∧
      (s'.file.valid = true → s'.file.blockno = s.file.blockno ∧ s.file.valid = true ∧
        (offset % s.fs.blocksize ≠ 0 → s.file.pos / s.fs.blocksize = s.file.blockno)) := by
  rw [zeroPastOffset] at zero
  split_ifs at zero with whole
  · cases zero
    rw [if_pos whole]
    exact ⟨agrees, Same.refl _, fun valid => ⟨rfl, valid, fun part => absurd whole part⟩⟩
  obtain ⟨s1, sync, zero⟩ := bind_eq_some_iff.mp zero
  obtain ⟨agrees1, same, here, kept⟩ := sync_agrees agrees sync
  obtain ⟨found, get, rfl⟩ := map_eq_some_iff.mp zero
  have size := same.blocksize
  have clear : s1.file.valid = true → s1.file.blockno = offset / s.fs.blocksize →
      ∀ q, offset ≤ q → q / s.fs.blocksize = offset / s.fs.blocksize → bytes q = 0 :=
          fun valid block => by
    obtain ⟨blockno, valid⟩ := kept valid
    exact safe valid (blockno.symm.trans block) (here.symm.trans blockno)
  have buffered : s1.file.valid = true → s1.file.blockno = s.file.blockno ∧ s.file.valid = true ∧
      (offset % s.fs.blocksize ≠ 0 → s.file.pos / s.fs.blocksize = s.file.blockno) :=
          fun valid => by
    obtain ⟨blockno, valid⟩ := kept valid
    exact ⟨blockno, valid, fun _ => here.symm.trans blockno⟩
  rw [bmapGet_eq get, size]
  dsimp only
  split_ifs with none
  · refine ⟨?_, same, buffered⟩
    rw [← size] at clear ⊢
    refine agrees1.zeroTail_of_zero fun q behind block => ?_
    by_cases own : s1.file.valid = true ∧ s1.file.blockno = offset / s1.fs.blocksize
    · exact clear own.1 own.2 q behind block
    have byte := agrees1.bytes (q / s1.fs.blocksize) (q % s1.fs.blocksize) (mod_lt _ agrees1.pos)
    rw [inFile_other fun valid eq => own ⟨valid, eq.symm.trans block⟩, div_add_mod', block] at byte
    rw [← byte]
    rw [size]
    rcases is : s1.file.map.lookup (offset / s.fs.blocksize) with _ | m
    · exact onDisk_of_none is _
    rw [is, elim_some, elim_some] at none
    rw [onDisk_of_mapped is, if_pos (none.resolve_left (agrees1.mapped _ m is).1)]
  · cases is : s1.file.map.lookup (offset / s.fs.blocksize) with
    | none =>
      rw [is] at none
      exact absurd (Or.inl rfl) none
    | some m =>
      rw [is, elim_some, elim_some] at none
      have written : m.uninit = false := eq_false_of_not_eq_true fun uninit => none (.inr uninit)
      have zeroed := agrees1.zeroBlock is written (offset % s.fs.blocksize)
        (by rw [size]; exact mod_lt _ agrees.pos) fun valid block j behind lt => by
          have byte := agrees1.bytes s1.file.blockno j lt
          rw [inFile_buffered valid rfl] at byte
          rw [byte, ← block, size]
          have := div_add_mod' offset s.fs.blocksize
          exact clear valid block.symm _ (by omega) (block_of_pos _ (size ▸ lt))
      rw [size, div_add_mod'] at zeroed
      exact ⟨zeroed, { same with }, buffered⟩

theorem lookup_punch (env : Env) (s : State) (start block : Nat) :
    (punch env s start).file.map.lookup block = if block < start then s.file.map.lookup block
    else none :=
  lookup_cut

theorem lookup_of_punch (is : (punch env s start).file.map.lookup block = some m) :
    block < start ∧ s.file.map.lookup block = some m := by
  rw [lookup_punch] at is
  split at is
  · rename_i below
    exact ⟨below, is⟩
  · cases is

theorem used_punch (agrees : Agrees s bytes) (below : block < start)
    (is : s.file.map.lookup block = some m) : (punch env s start).fs.used m.phys = true := by
  have notGone : ((s.file.map.filter fun e => start ≤ e.1).filterMap fun e =>
      (s.file.map.lookup e.1).map Mapped.phys).contains m.phys = false := by
    refine eq_false_of_not_eq_true fun gone => ?_
    obtain ⟨e, mem, phys⟩ := mem_filterMap.mp (contains_iff_mem.mp gone)
    obtain ⟨m', is', eq⟩ := map_eq_some_iff.mp phys
    have behind := of_decide_eq_true (mem_filter.mp mem).2
    have same := agrees.apart _ _ m' m is' is eq
    omega
  have notDropped : (env.alloc.drop s.fs.used s.file.map start).contains m.phys = false :=
    eq_false_of_not_eq_true fun drop =>
      env.alloc.drop_apart _ _ _ _ (contains_iff_mem.mp drop) block m is rfl
  show (s.fs.used m.phys && !_ && !_) = true
  rw [(agrees.mapped block m is).2.1, notGone, notDropped]
  rfl

theorem punch_agrees (env : Env) (agrees : Agrees s bytes)
    (apart : s.file.valid = true → s.file.blockno < start) :
    Agrees (punch env s start) (fun q => if q / s.fs.blocksize < start then bytes q else 0) where
  __ := agrees
  bytes := fun block j lt => by
    change j < s.fs.blocksize at lt
    show _ = if (block * s.fs.blocksize + j) / s.fs.blocksize < start
      then bytes (block * s.fs.blocksize + j) else 0
    rw [block_of_pos block lt, ← agrees.bytes block j lt]
    by_cases below : block < start
    · rw [if_pos below]
      refine inFile_congr rfl rfl rfl fun _ => onDisk_congr ?_ (fun _ _ => ?_) j
      · exact (lookup_punch ..).trans (if_pos below)
      · rfl
    · rw [if_neg below]
      refine Eq.trans (inFile_other ?_ j) (onDisk_of_none ?_ j)
      · exact fun valid eq => below (eq ▸ apart valid)
      · exact (lookup_punch ..).trans (if_neg below)
  mapped := fun block m is => by
    obtain ⟨below, is⟩ := lookup_of_punch is
    obtain ⟨nonzero, _, extents⟩ := agrees.mapped block m is
    exact ⟨nonzero, used_punch agrees below is, extents⟩
  apart := fun block block' m m' is is' eq =>
    agrees.apart block block' m m' (lookup_of_punch is).2 (lookup_of_punch is').2 eq
  clean := fun valid clean j lt => by
    refine Eq.trans (onDisk_congr ?_ (fun _ _ => ?_) j) (agrees.clean valid clean j lt)
    · exact (lookup_punch ..).trans (if_pos (apart valid))
    · rfl
  phys := fun valid => by
    rw [lookup_punch]
    refine (agrees.phys valid).trans ?_
    exact congrArg (fun found : Option Mapped => found.elim 0 Mapped.phys)
      (if_pos (apart valid)).symm

/-- A call that cuts the file does not cut the block in the buffer: there is none, or it is in
front of the new end, or it is written back first because the position is in another block. -/
def SafeSize (s : State) (size : Nat) : Prop :=
  size < s.file.size → s.file.valid = true →
    (s.file.blockno + 1) * s.fs.blocksize ≤ size ∨
      size % s.fs.blocksize ≠ 0 ∧ s.file.pos / s.fs.blocksize ≠ s.file.blockno

def blocksTo (blocksize size : Nat) : Nat := (size + blocksize - 1) / blocksize

theorem le_blocksTo {b : Nat} (pos : 0 < b) (size : Nat) : size ≤ blocksTo b size * b := by
  have := lt_div_mul_add (a := size + b - 1) pos
  rw [blocksTo]
  omega

theorem lt_blocksTo_iff {b size q : Nat} (pos : 0 < b) (behind : size ≤ q) :
    q / b < blocksTo b size ↔ size % b ≠ 0 ∧ q / b = size / b := by
  have split := div_add_mod' size b
  have small := mod_lt size pos
  have mono := Nat.div_le_div_right (c := b) behind
  have is : blocksTo b size = if size % b = 0 then size / b else size / b + 1 := by
    split
    · exact Nat.div_eq_of_lt_le (by omega) (by rw [Nat.add_one_mul]; omega)
    · exact Nat.div_eq_of_lt_le (by rw [Nat.add_one_mul]; omega)
        (by rw [Nat.add_one_mul, Nat.add_one_mul]; omega)
  rw [is]
  split <;> omega

theorem setSize2_agrees (agrees : Agrees s bytes) {size : Nat}
    (clear : ∀ q, s.file.size ≤ q → size ≤ q → bytes q = 0)
    (safe : SafeSize s size) (set : fileSetSize2 env s size = some s') :
    Agrees s' (cutAt bytes size) ∧ s'.file.size = size ∧ s'.file.pos = s.file.pos := by
  have pos := agrees.pos
  have sized : Agrees { s with file := { s.file with size := size } } bytes := { agrees with }
  rw [fileSetSize2] at set
  split at set
  · cases set
  obtain ⟨s1, zero, rfl⟩ := map_eq_some_iff.mp set
  obtain ⟨agrees1, same, buffered⟩ :=
      zeroPastOffset_agrees sized (fun valid block here q behind _ => by
    change s.file.blockno = size / s.fs.blocksize at block
    rcases lt_or_ge size s.file.size with shorter | longer
    · rcases safe shorter valid with inside | ⟨_, elsewhere⟩
      · rw [block] at inside
        have := lt_div_mul_add (a := size) pos
        rw [Nat.add_one_mul] at inside
        omega
      · exact absurd here elsewhere
    · exact clear q (longer.trans behind) behind) zero
  have size1 := same.blocksize
  have front : ∀ q, q < size → (if size % s.fs.blocksize = 0 then bytes
      else zeroTail bytes s.fs.blocksize size) q = bytes q := by
    intro q lt
    split
    · rfl
    · exact if_neg fun tail => absurd tail.2 (Nat.not_le.mpr lt)
  have tail : ∀ q, size ≤ q → q / s.fs.blocksize < blocksTo s.fs.blocksize size →
      (if size % s.fs.blocksize = 0 then bytes else zeroTail bytes s.fs.blocksize size) q = 0 := by
    intro q behind lt
    obtain ⟨part, block⟩ := (lt_blocksTo_iff pos behind).mp lt
    rw [if_neg part]
    exact if_pos ⟨block, behind⟩
  split_ifs with noPunch
  · change blocksTo s.fs.blocksize s.file.size ≤ blocksTo s.fs.blocksize size at noPunch
    refine ⟨agrees1.congr_bytes fun q => ?_, same.size, same.pos⟩
    rw [cutAt]
    split
    · rename_i lt
      exact (front q lt).symm
    rename_i behind
    by_cases lt : q / s.fs.blocksize < blocksTo s.fs.blocksize size
    · exact (tail q (Nat.le_of_not_lt behind) lt).symm
    have old := le_blocksTo pos s.file.size
    have := Nat.mul_le_mul_right s.fs.blocksize (noPunch.trans (Nat.le_of_not_lt lt))
    have := div_mul_le_self q s.fs.blocksize
    have zero : bytes q = 0 := clear q (old.trans (by omega)) (Nat.le_of_not_lt behind)
    split
    · exact zero.symm
    · rw [zeroTail, zero, ite_self]
  · have shorter :
      size < s.file.size := Nat.lt_of_not_le fun longer => noPunch (Nat.div_le_div_right (by omega))
    have room := le_blocksTo pos size
    have apart : s1.file.valid = true → s1.file.blockno < blocksTo s.fs.blocksize size :=
        fun valid => by
      obtain ⟨blockno, valid, here⟩ := buffered valid
      rw [blockno]
      rcases safe shorter valid with inside | ⟨part, elsewhere⟩
      · exact le_of_mul_le_mul_right (inside.trans room) pos
      · exact absurd (here part) elsewhere
    have punched := punch_agrees env agrees1 apart
    rw [size1] at punched
    refine ⟨punched.congr_bytes fun q => ?_, same.size, same.pos⟩
    rw [cutAt]
    split
    · rename_i lt
      rw [if_pos ((Nat.div_lt_iff_lt_mul pos).mpr (lt.trans_le room)), front q lt]
    · rename_i behind
      split
      · rename_i lt
        exact (tail q (Nat.le_of_not_lt behind) lt).symm
      · rfl

end Truncate

inductive Op where
  | seek (whence : Whence) (offset : Nat)
  | read (wanted : Nat)
  | write (data : List UInt8)
  | setSize (size : Nat)
  | flush
  | reopen

/- A call: what it leaves and what it reads, if it succeeds. -/
def call (env : Env) (s : State) : Op → Option (State × List UInt8)
  | .seek whence offset => some (fileLlseek s whence offset, [])
  | .read wanted => fileRead env s wanted
  | .write data => (fileWrite env s data).map fun s => (s, [])
  | .setSize size => (fileSetSize2 env s size).map fun s => (s, [])
  | .flush => (fileFlush env s).map fun s => (s, [])
  | .reopen => (fileReopen env s).map fun s => (s, [])

def step (env : Env) (s : State) (op : Op) : State × List UInt8 := (call env s op).getD (s, [])

/-- A file as an array of bytes, with zeros behind its end. -/
structure ByteFile where
  bytes : Content
  size : Nat
  pos : Nat

def want (f : ByteFile) : Op → ByteFile × List UInt8
  | .seek .set offset => ({ f with pos := offset % 2 ^ 64 }, [])
  | .seek .cur offset => ({ f with pos := (f.pos + offset) % 2 ^ 64 }, [])
  | .seek .end_ offset => ({ f with pos := (f.size + offset) % 2 ^ 64 }, [])
  | .read wanted =>
    let c := min wanted (f.size - f.pos)
    ({ f with pos := f.pos + c }, bytesAt f.bytes f.pos c)
  | .write data =>
    (⟨patch f.bytes f.pos data.length fun j => data.getD j 0,
      if data = [] then f.size else max f.size (f.pos + data.length), f.pos + data.length⟩, [])
  | .setSize size => (⟨cutAt f.bytes size, size, f.pos⟩, [])
  | .flush => (f, [])
  | .reopen => ({ f with pos := 0 }, [])

def Safe (s : State) : Op → Prop
  | .setSize size => SafeSize s size
  | _ => True

def Succeeds (env : Env) (s : State) (op : Op) : Prop := (call env s op).isSome = true

instance (env : Env) (s : State) (op : Op) : Decidable (Succeeds env s op) :=
  inferInstanceAs (Decidable (_ = true))

instance (s : State) (size : Nat) : Decidable (SafeSize s size) :=
  inferInstanceAs (Decidable (_ → _ → _ ∨ _))

instance (s : State) : (op : Op) → Decidable (Safe s op)
  | .setSize size => inferInstanceAs (Decidable (SafeSize s size))
  | .seek _ _ | .read _ | .write _ | .flush | .reopen => inferInstanceAs (Decidable True)

structure Holds (s : State) (f : ByteFile) : Prop where
  agrees : Agrees s f.bytes
  size : s.file.size = f.size
  pos : s.file.pos = f.pos
  clear : ∀ q, f.size ≤ q → f.bytes q = 0

section Run

variable {env : Env} {s s' : State} {f : ByteFile}

theorem Holds.write (holds : Holds s f) {data : List UInt8}
    (write : fileWrite env s data = some s') : Holds s' (want f (.write data)).1 := by
  obtain ⟨s1, loop, write⟩ := bind_eq_some_iff.mp write
  obtain ⟨agrees, size, pos⟩ := writeLoop_agrees data (le_refl _) holds.agrees loop
  rw [holds.pos] at agrees pos
  rw [holds.size] at size
  have clear : ∀ q, max f.size (f.pos + data.length) ≤ q →
      patch f.bytes f.pos data.length (fun j => data.getD j 0) q = 0 := fun q behind => by
    rw [patch_apart (by omega), holds.clear q (by omega)]
  rw [want]
  split_ifs at write with longer
  · obtain ⟨some_, lt⟩ := longer
    rw [pos, size] at lt
    obtain ⟨agrees', size', pos'⟩ := setSize2_agrees agrees
      (fun q _ behind => clear q (by rw [pos] at behind; omega))
        (fun shorter => by rw [size, pos] at shorter; omega) write
    rw [pos] at agrees' size'
    refine ⟨agrees'.congr_bytes fun q => ?_, ?_, pos'.trans pos, ?_⟩
    · change patch f.bytes f.pos data.length (fun j => data.getD j 0) q = cutAt _ _ q
      rw [cutAt]
      split
      · rfl
      · exact clear q (by omega)
    · rw [size', if_neg some_]
      exact (max_eq_right lt.le).symm
    · rw [if_neg some_]
      exact clear
  · cases write
    by_cases none : data = []
    · refine ⟨agrees, ?_, pos, fun q behind => ?_⟩
      · rw [if_pos none]
        exact size
      · rw [if_pos none] at behind
        rw [none, length_nil, patch_none]
        exact holds.clear q behind
    · have le : f.pos + data.length ≤ f.size := by
        rw [size, pos] at longer
        exact Nat.le_of_not_lt fun lt => longer ⟨none, lt⟩
      rw [if_neg none]
      exact ⟨agrees, size.trans (max_eq_left le).symm, pos, clear⟩

theorem Holds.call (holds : Holds s f) {op : Op} (safe : Safe s op) {out : List UInt8}
    (is : call env s op = some (s', out)) : Holds s' (want f op).1 ∧ out = (want f op).2 := by
  cases op with
  | seek whence offset =>
    cases some.inj is
    have agrees := holds.agrees
    have moved : ∀ pos, Holds { s with file := { s.file with pos := pos } } { f with pos := pos } :=
        fun pos =>
      ⟨{ agrees with }, holds.size, rfl, holds.clear⟩
    cases whence with
    | set => exact ⟨moved _, rfl⟩
    | cur =>
      rw [want, ← holds.pos]
      exact ⟨moved _, rfl⟩
    | end_ =>
      have new :
          (want f (.seek .end_ offset)).1 = { f with pos := (s.file.size + offset) % 2 ^ 64 } := by
        rw [want, holds.size]
      rw [new]
      exact ⟨moved _, rfl⟩
  | read wanted =>
    obtain ⟨agrees, size, pos, rfl⟩ := readLoop_agrees wanted wanted (le_refl _) holds.agrees is
    rw [holds.size, holds.pos] at pos
    rw [holds.size, holds.pos]
    exact ⟨⟨agrees, size.trans holds.size, pos, holds.clear⟩, rfl⟩
  | write data =>
    obtain ⟨s1, write, eq⟩ := map_eq_some_iff.mp is
    cases eq
    exact ⟨holds.write write, rfl⟩
  | setSize size =>
    obtain ⟨s1, set, eq⟩ := map_eq_some_iff.mp is
    cases eq
    obtain ⟨agrees, size', pos⟩ := setSize2_agrees holds.agrees
      (fun q behind _ => holds.clear q (holds.size ▸ behind)) safe set
    exact ⟨⟨agrees, size', pos.trans holds.pos,
      fun q behind => if_neg (Nat.not_lt.mpr behind)⟩, rfl⟩
  | flush =>
    obtain ⟨s1, flush, eq⟩ := map_eq_some_iff.mp is
    cases eq
    obtain ⟨agrees, same, -⟩ := fileFlush_agrees holds.agrees flush
    exact ⟨⟨agrees, same.size.trans holds.size, same.pos.trans holds.pos, holds.clear⟩, rfl⟩
  | reopen =>
    obtain ⟨s1, reopen, eq⟩ := map_eq_some_iff.mp is
    cases eq
    obtain ⟨s2, flush, rfl⟩ := map_eq_some_iff.mp reopen
    obtain ⟨agrees, same, clean⟩ := fileFlush_agrees holds.agrees flush
    have closed := agrees.invalidate clean 0
    exact ⟨⟨⟨closed.pos, closed.plain, closed.bytes, closed.mapped, closed.apart, nofun, nofun,
      nofun, closed.writes⟩, same.size.trans holds.size, rfl, holds.clear⟩, rfl⟩

end Run

/-- A file that was just opened: its blocks are in use and apart, and the disk has zeros behind its
end. -/
structure Opened (s : State) : Prop where
  file : s.file = openFile s.file.map s.file.extents s.file.size
  blocksize : 0 < s.fs.blocksize
  plain : s.fs.shareDup = false
  mapped : ∀ block m, s.file.map.lookup block = some m →
    m.phys ≠ 0 ∧ s.fs.used m.phys = true ∧ (m.uninit = true → s.file.extents = true)
  apart : ∀ block block' m m', s.file.map.lookup block = some m →
    s.file.map.lookup block' = some m' → m.phys = m'.phys → block = block'
  clear : ∀ q, s.file.size ≤ q → onDisk s (q / s.fs.blocksize) (q % s.fs.blocksize) = 0
  writes : s.writes = []

def contents (s : State) : ByteFile :=
  ⟨fun q => onDisk s (q / s.fs.blocksize) (q % s.fs.blocksize), s.file.size, 0⟩

theorem Opened.holds {s : State} (opened : Opened s) : Holds s (contents s) := by
  have valid : s.file.valid = false := by rw [opened.file]; rfl
  have dirty : s.file.dirty = false := by rw [opened.file]; rfl
  refine ⟨⟨opened.blocksize, opened.plain, fun block j lt => ?_, opened.mapped, opened.apart, ?_,
    ?_, ?_, ?_⟩, rfl, ?_, opened.clear⟩
  · rw [inFile_other fun is => absurd (valid.symm.trans is) nofun]
    show _ = onDisk s ((block * s.fs.blocksize + j) / s.fs.blocksize)
      ((block * s.fs.blocksize + j) % s.fs.blocksize)
    rw [block_of_pos block lt, mul_add_mod', mod_eq_of_lt lt]
  · exact fun is => absurd (valid.symm.trans is) nofun
  · exact fun is => absurd (dirty.symm.trans is) nofun
  · exact fun is => absurd (valid.symm.trans is) nofun
  · rw [opened.writes]
    nofun
  · rw [opened.file]
    rfl

/-- An open file behaves as an array of bytes, and every block that is written is one of its own,
if no call cuts the block in the buffer. -/
theorem open_file_is_array (env : Env) (s : State) (opened : Opened s) (ops : List Op)
    (succeed : Along (fun s op => (step env s op).1) (Succeeds env) s ops)
    (safe : Along (fun s op => (step env s op).1) Safe s ops) :
    Answers (step env) want (fun s' out wanted => out = wanted ∧ ∀ w ∈ s'.writes, ∃ m,
      w.mapped = some m ∧ m.phys = w.phys) s (contents s) ops := by
  refine (succeed.and safe).answers Holds (fun s f op holds meets => ?_) opened.holds
  obtain ⟨⟨s', out⟩, is⟩ := isSome_iff_exists.mp meets.1
  obtain ⟨holds', eq⟩ := holds.call meets.2 is
  rw [step, is, getD_some]
  exact ⟨⟨eq, holds'.agrees.writes⟩, holds'⟩

def sampleEnv : Env where
  alloc :=
    { pick := fun used _ block => if used (block + 1) then none else some (block + 1, [])
      nodes := fun _ _ _ => []
      drop := fun _ _ _ => []
      pick_free := fun used _ block b tree pick => by
        split at pick
        · cases pick
        · rename_i free
          obtain ⟨rfl, _⟩ := Prod.mk.inj (Option.some.inj pick)
          exact ⟨succ_ne_zero block, Bool.eq_false_of_not_eq_true free⟩
      drop_apart := nofun }
  sha512 := id

def emptyFile : State :=
  ⟨⟨1024, fun _ => zeros, fun _ => false, false, hashmapCreate false⟩, openFile [] true 0, []⟩

theorem emptyFile_opened : Opened emptyFile :=
  ⟨rfl, by decide, rfl, nofun, nofun, fun _ _ => rfl, rfl⟩

theorem sample_file_is_array :
    Answers (step sampleEnv) want (fun s' out wanted => out = wanted ∧ ∀ w ∈ s'.writes, ∃ m,
      w.mapped = some m ∧ m.phys = w.phys)
      emptyFile (contents emptyFile)
      [.write [1, 2], .seek .set 2000, .setSize 1, .seek .set 0, .read 2] :=
  open_file_is_array sampleEnv emptyFile emptyFile_opened _ (by decide +kernel) (by decide +kernel)

/- The byte that was cut off comes back from the buffer; and a block that was given back
is written. -/
theorem cut_buffer_stays :
    let run := List.foldl (fun s op => (step sampleEnv s op).1) emptyFile
    let ops : List Op := [.write [7, 7], .setSize 1, .setSize 2, .seek .set 1]
    Along (fun s op => (step sampleEnv s op).1) (Succeeds sampleEnv) emptyFile (ops ++ [.read 1]) ∧
      (step sampleEnv (run ops) (.read 1)).2 = [7] ∧
      (want (ops.foldl (fun f op => (want f op).1) (contents emptyFile)) (.read 1)).2 = [0] ∧
      Along (fun s op => (step sampleEnv s op).1) (Succeeds sampleEnv) emptyFile
        [.write [7], .setSize 0, .flush] ∧
      (run [.write [7], .setSize 0, .flush]).writes.map (fun w => (w.phys, w.mapped)) =
        [(1, some ⟨1, false⟩), (1, none)] := by
  decide +kernel

end E2fs.FileIo
