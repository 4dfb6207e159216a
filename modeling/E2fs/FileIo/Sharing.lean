import E2fs.FileIo.Plain

/-! Block sharing, `EXT2_FLAG_SHARE_DUP`: a new block whose bytes are already on the disk is mapped
to the block that has them. Writes to blocks without a place keep what all files hold. -/
namespace E2fs.FileIo
open Device Run List Function Option Nat Bool

section Reading

variable {env : Env} {s s' : State} {bytes : Content}

def ReadsBack (env : Env) (fs : Filsys) (file : File) (f : ByteFile) : Prop :=
  ∀ pos n, (fileRead env ⟨fs, { file with pos := pos }, []⟩ n).map Prod.snd =
    some (bytesAt f.bytes pos (min n (f.size - pos)))

/-- Nothing is to be written, and the disk has these bytes. -/
structure Quiet (s : State) (bytes : Content) : Prop where
  pos : 0 < s.fs.blocksize
  clean : s.file.dirty = false
  disk : ∀ block j, j < s.fs.blocksize → onDisk s block j = bytes (block * s.fs.blocksize + j)
  buffer : s.file.valid = true →
    ∀ j < s.fs.blocksize, s.file.buf j = bytes (s.file.blockno * s.fs.blocksize + j)
  mapped : ∀ block m, s.file.map.lookup block = some m → m.phys ≠ 0
  small : ∀ block, block * s.fs.blocksize < s.file.size → tooBig s block = false

theorem Quiet.sync (env : Env) (quiet : Quiet s bytes) : ∃ s', syncBufferPosition env s = some s' ∧
    Quiet s' bytes ∧ Same s s' ∧ s'.file.blockno = s.file.pos / s.fs.blocksize := by
  have flush : fileFlush env s = some s := if_neg fun h => by
    rw [quiet.clean] at h
    exact absurd h.2 (by simp)
  rw [syncBufferPosition, flush]
  by_cases here : s.file.pos / s.fs.blocksize = s.file.blockno
  · exact ⟨s, if_neg (not_not.mpr here), quiet, Same.refl _, here.symm⟩
  · exact ⟨_, if_pos here, { quiet with buffer := (by simp) }, ⟨rfl, rfl, rfl⟩, rfl⟩

theorem Quiet.load (quiet : Quiet s bytes)
    (inside : s.file.blockno * s.fs.blocksize < s.file.size) :
    ∃ s', loadBuffer s false = some s' ∧ Quiet s' bytes ∧ Same s s' ∧ s'.file.valid = true ∧
      s'.file.blockno = s.file.blockno := by
  rw [loadBuffer]
  by_cases valid : s.file.valid = true
  · exact ⟨s, if_pos valid, quiet, Same.refl _, valid, rfl⟩
  rw [if_neg valid, bmapGet_of_small (quiet.small _ inside)]
  refine ⟨_, rfl, { quiet with buffer := fun _ j lt => ?_ }, ⟨rfl, rfl, rfl⟩, rfl, rfl⟩
  refine Eq.trans ?_ (quiet.disk s.file.blockno j lt)
  exact loaded_eq (fun m is => quiet.mapped _ m is) j

theorem Quiet.read (env : Env) (fuel wanted : Nat) (enough : wanted ≤ fuel)
    (quiet : Quiet s bytes) :
    ∃ s', readLoop env fuel s wanted =
      some (s', bytesAt bytes s.file.pos (min wanted (s.file.size - s.file.pos))) := by
  induction fuel generalizing s wanted with
  | zero =>
    obtain rfl : wanted = 0 := by omega
    exact ⟨s, rfl⟩
  | succ fuel ih =>
    rw [readLoop]
    split_ifs with more
    · obtain ⟨s1, sync, quiet1, same1, here⟩ := quiet.sync env
      have split := div_add_mod' s.file.pos s.fs.blocksize
      have lt := mod_lt s.file.pos quiet.pos
      obtain ⟨s2, load, quiet2, same2, valid, block2⟩ :=
        quiet1.load (by rw [here, same1.blocksize, same1.size]; omega)
      have same := same1.trans same2
      rw [sync, bind_some, load, bind_some]
      dsimp only
      rw [same.pos, same.size, same.blocksize]
      generalize isC : min (min (s.fs.blocksize - s.file.pos % s.fs.blocksize) wanted)
        (s.file.size - s.file.pos) = c
      obtain ⟨s3, rest⟩ := ih (s := advance s2 c) (wanted - c) (by omega) { quiet2 with }
      have newPos : (advance s2 c).file.pos = s.file.pos + c := congrArg (· + c) same.pos
      have newSize : (advance s2 c).file.size = s.file.size := same.size
      rw [newPos, newSize] at rest
      refine ⟨s3, ?_⟩
      rw [rest, map_some]
      congr 2
      refine bytesAt_chunk quiet.pos (fun j small => ?_) isC
      rw [quiet2.buffer valid j (by rw [same.blocksize]; exact small), block2, here, same.blocksize]
    · have none : min wanted (s.file.size - s.file.pos) = 0 := by omega
      rw [none]
      exact ⟨s, rfl⟩

theorem Quiet.readsBack {fs : Filsys} {file : File} {f : ByteFile}
    (quiet : Quiet ⟨fs, file, []⟩ f.bytes)
    (size : file.size = f.size) : ReadsBack env fs file f := fun pos n => by
  obtain ⟨s', read⟩ :=
    Quiet.read env (s := ⟨fs, { file with pos := pos }, []⟩) n n (le_refl _) { quiet with }
  rw [fileRead, read, map_some, ← size]

end Reading

def held (s : State) (p : Nat) : Content :=
  if s.file.valid ∧ s.file.physblock = p then s.file.buf else s.fs.blocks p

/-- The blocks of a file hold its bytes, and holes are zeros. -/
structure Maps (s : State) (map : BlockMap) (bytes : Content) : Prop where
  known : ∀ block m, map.lookup block = some m → m.phys ≠ 0 ∧ s.fs.used m.phys = true ∧
    m.uninit = false
  data : ∀ block m, map.lookup block = some m →
    ∀ j < s.fs.blocksize, held s m.phys j = bytes (block * s.fs.blocksize + j)
  hole :
    ∀ block, map.lookup block = none → ∀ j < s.fs.blocksize, bytes (block * s.fs.blocksize + j) = 0

/-- All files have their bytes; what is not in the buffer is on the disk, and what has an entry in
the hash map has the content of its key. -/
structure Sharing (env : Env) (s : State) (others : List (BlockMap × Content)) (bytes : Content) :
    Prop where
  pos : 0 < s.fs.blocksize
  share : s.fs.shareDup = true
  own : Maps s s.file.map bytes
  earlier : ∀ o ∈ others, Maps s o.1 o.2
  stored : ∀ block m, s.file.map.lookup block = some m →
    (s.file.valid = true → block ≠ s.file.blockno) →
    ∀ j < s.fs.blocksize, s.fs.blocks m.phys j = held s m.phys j
  storedOthers : ∀ o ∈ others, ∀ block m, o.1.lookup block = some m →
    ∀ j < s.fs.blocksize, s.fs.blocks m.phys j = held s m.phys j
  sha : ∀ l p, l.length = s.fs.blocksize → hashmapLookup s.fs.blockShaMap (env.sha512 l) = some p →
    p ≠ 0 ∧ s.fs.used p = true ∧ bytesAt (held s p) 0 s.fs.blocksize = l
  buffer : s.file.valid = true →
    s.file.map.lookup s.file.blockno = some ⟨s.file.physblock, false⟩ ∧
      tooBig s s.file.blockno = false
  clean : s.file.valid = true → s.file.dirty = false →
    ∀ j < s.fs.blocksize, s.fs.blocks s.file.physblock j = s.file.buf j
  dirty : s.file.dirty = true → s.file.valid = true

section Sharing

variable {env : Env} {s s' : State} {bytes : Content} {others : List (BlockMap × Content)}

theorem held_buffer (valid : s.file.valid = true) : held s s.file.physblock = s.file.buf :=
  if_pos ⟨valid, rfl⟩

theorem held_other {p : Nat} (other : s.file.valid = true → s.file.physblock ≠ p) :
    held s p = s.fs.blocks p :=
  if_neg fun h => other h.1 h.2

/- The content of blocks may change where the files and the hash map do not look. -/
theorem Maps.congr {map : BlockMap} (maps : Maps s map bytes)
    (size : s'.fs.blocksize = s.fs.blocksize) (used : ∀ p, s.fs.used p = true → s'.fs.used p = true)
    (same : ∀ p, s.fs.used p = true → ∀ j < s.fs.blocksize, held s' p j = held s p j) :
    Maps s' map bytes where
  known := fun block m is => by
    obtain ⟨nonzero, isUsed, written⟩ := maps.known block m is
    exact ⟨nonzero, used _ isUsed, written⟩
  data := fun block m is j lt => by
    rw [size] at lt ⊢
    rw [same _ (maps.known block m is).2.1 j lt, maps.data block m is j lt]
  hole := fun block none j lt => by
    rw [size] at lt ⊢
    exact maps.hole block none j lt

theorem Sharing.move (sharing : Sharing env s others bytes) (pos size : Nat) (writes : List Write) :
    Sharing env ⟨s.fs, { s.file with pos := pos, size := size }, writes⟩ others bytes :=
  { sharing with
    own := { sharing.own with }
    earlier := fun o mem => { sharing.earlier o mem with } }

theorem held_writeBlk (valid : s.file.valid = true) (content : Content) (p : Nat) :
    held (writeBlk s s.file.blockno s.file.physblock content) p = held s p := by
  by_cases own : s.file.physblock = p
  · rw [← own, held_buffer valid]
    exact if_pos ⟨valid, rfl⟩
  · rw [held_other fun _ => own]
    exact (if_neg fun h => own h.2).trans (update_of_ne (Ne.symm own) ..)

section

variable (sharing : Sharing env s others bytes)
include sharing

/- Only the buffer and the blocks are others, and the blocks hold the same. -/
theorem Sharing.congr (fs : ∃ blocks, s'.fs = { s.fs with blocks := blocks })
    (map : s'.file.map = s.file.map)
    (same : ∀ p, ∀ j < s.fs.blocksize, held s' p j = held s p j)
    (stored : ∀ p, ∀ j < s.fs.blocksize, s'.file.valid = false ∨ s.fs.blocks p j = held s p j →
      s'.fs.blocks p j = held s' p j)
    (here : s'.file.valid = true → s.file.valid = true ∧ s'.file.blockno = s.file.blockno ∧
      s'.file.physblock = s.file.physblock ∧ s'.file.extents = s.file.extents)
    (clean : s'.file.valid = true → s'.file.dirty = false → ∀ j < s.fs.blocksize,
      s'.fs.blocks s'.file.physblock j = s'.file.buf j)
    (dirty : s'.file.dirty = true → s'.file.valid = true) : Sharing env s' others bytes := by
  obtain ⟨fs', file', writes'⟩ := s'
  obtain ⟨blocks, rfl⟩ := fs
  have maps : ∀ map bytes, Maps s map bytes →
      Maps ⟨{ s.fs with blocks := blocks }, file', writes'⟩ map bytes :=
    fun _ _ old => old.congr rfl (fun _ is => is) fun p _ => same p
  refine ⟨sharing.pos, sharing.share, map ▸ maps _ _ sharing.own,
    fun o mem => maps _ _ (sharing.earlier o mem), fun block m is other j lt => stored _ j lt ?_,
    fun o mem block m is j lt => stored _ j lt (.inr (sharing.storedOthers o mem block m is j lt)),
    fun l p length is => ?_,
    fun valid => ?_, clean, dirty⟩
  · cases valid : file'.valid with
    | false => exact .inl rfl
    | true =>
      refine .inr (sharing.stored block m (map ▸ is) (fun _ => ?_) j lt)
      rw [← (here valid).2.1]
      exact other valid
  · obtain ⟨nonzero, used, content⟩ := sharing.sha l p length is
    exact ⟨nonzero, used,
      (bytesAt_congr fun j lt => same p (0 + j) (by rw [zero_add]; exact lt)).trans content⟩
  · obtain ⟨old, blockno, phys, extents⟩ := here valid
    dsimp only [tooBig] at blockno phys extents map ⊢
    rw [map, blockno, phys, extents]
    exact sharing.buffer old

theorem Sharing.flush : ∃ s', fileFlush env s = some s' ∧
    Sharing env s' others bytes ∧ s'.file.dirty = false ∧ Same s s' ∧ s'.file.map = s.file.map ∧
    s'.file.extents = s.file.extents := by
  rw [fileFlush]
  by_cases has : s.file.valid = true ∧ s.file.dirty = true
  · rw [if_pos has]
    obtain ⟨place, small⟩ := sharing.buffer has.1
    have nonzero : s.file.physblock ≠ 0 := (sharing.own.known _ _ place).1
    have init : initBlock env s = some s := by
      rw [initBlock, bmapGet_of_small small, place]
      split <;> rfl
    have alloc : allocBlock env s = some s := if_neg nonzero
    rw [init, bind_some, alloc, map_some]
    have same : ∀ p, held (writeBuffer s) p = held s p := held_writeBlk has.1 s.file.buf
    refine ⟨_, rfl, sharing.congr ⟨_, rfl⟩ rfl (fun p j _ => by rw [same]) (fun p j _ old => ?_)
      (fun valid => ⟨valid, rfl, rfl, rfl⟩)
      (fun _ _ j _ => congrFun (update_self ..) j) (by rintro ⟨⟩), rfl, ⟨rfl, rfl, rfl⟩, rfl, rfl⟩
    have old := old.resolve_left fun invalid => absurd (has.1.symm.trans invalid) (by simp)
    rw [same]
    by_cases own : p = s.file.physblock
    · rw [own, held_buffer has.1]
      exact congrFun (update_self ..) j
    · rw [← old]
      exact congrFun (update_of_ne own ..) j
  · rw [if_neg has]
    refine ⟨s, rfl, sharing, ?_, Same.refl _, rfl, rfl⟩
    exact eq_false_of_not_eq_true fun dirty => has ⟨sharing.dirty dirty, dirty⟩

theorem Sharing.invalidate (clean : s.file.dirty = false) (blockno : Nat) :
    Sharing env { s with file := { s.file with valid := false, blockno := blockno } } others
      bytes := by
  have disk : ∀ p, ∀ j < s.fs.blocksize, s.fs.blocks p j = held s p j := fun p j lt => by
    by_cases own : s.file.valid = true ∧ s.file.physblock = p
    · rw [← own.2, held_buffer own.1]
      exact sharing.clean own.1 clean j lt
    · rw [held_other fun valid eq => own ⟨valid, eq⟩]
  have now : ∀ p, held { s with file := { s.file with valid := false, blockno := blockno } } p =
      s.fs.blocks p :=
    fun p => held_other nofun
  exact sharing.congr ⟨_, rfl⟩ rfl (fun p j lt => by rw [now, disk p j lt])
    (fun p j _ _ => by rw [now]) nofun nofun fun dirty => absurd (clean.symm.trans dirty) nofun

theorem Sharing.sync (fresh : s.file.map.lookup (s.file.pos / s.fs.blocksize) = none) :
    ∃ s', syncBufferPosition env s = some s' ∧ Sharing env s' others bytes ∧ s'.file.valid = false ∧
    Same s s' ∧
      s'.file.map = s.file.map ∧ s'.file.blockno = s.file.pos / s.fs.blocksize ∧
      s'.file.extents = s.file.extents := by
  by_cases here : s.file.pos / s.fs.blocksize = s.file.blockno
  · have invalid : s.file.valid = false := eq_false_of_not_eq_true fun valid => by
      rw [here, (sharing.buffer valid).1] at fresh
      cases fresh
    exact ⟨s, if_neg (not_not.mpr here), sharing, invalid, Same.refl _, rfl, here.symm, rfl⟩
  · obtain ⟨s1, flush, sharing1, clean, same, map, extents⟩ := sharing.flush
    refine ⟨_, (if_pos here).trans (by rw [flush]; rfl), sharing1.invalidate clean _, rfl,
      { same with }, map, rfl, extents⟩

/-- The new buffer is mapped to a block that has its content, or to a free one. -/
theorem Sharing.place (invalid : s.file.valid = false)
    (small : tooBig s s.file.blockno = false) {p : Nat} {buf : Content}
    {used : Nat → Bool} {blocks : Nat → Content} {map : Hashmap} (nonzero : p ≠ 0)
    (isUsed : used p = true)
    (grows : ∀ q, s.fs.used q = true → used q = true)
    (same : ∀ q, s.fs.used q = true → ∀ j < s.fs.blocksize,
      blocks q j = s.fs.blocks q j ∧ (q = p → buf j = s.fs.blocks q j))
    (entries : ∀ l q, l.length = s.fs.blocksize → hashmapLookup map (env.sha512 l) = some q →
      hashmapLookup s.fs.blockShaMap (env.sha512 l) = some q ∨ q = p ∧
      l = bytesAt buf 0 s.fs.blocksize)
    {bytes' : Content} {s' : State}
    (own : ∀ j < s.fs.blocksize, bytes' (s.file.blockno * s.fs.blocksize + j) = buf j)
    (rest : ∀ block, block ≠ s.file.blockno → ∀ j < s.fs.blocksize,
      bytes' (block * s.fs.blocksize + j) = bytes (block * s.fs.blocksize + j))
    (isNew : { s with
      fs := { s.fs with used := used, blocks := blocks, blockShaMap := map }
      file := { s.file with
        map := s.file.map.set s.file.blockno ⟨p, false⟩, physblock := p, buf := buf,
        valid := true, dirty := true } } = s') : Sharing env s' others bytes' := by
  have old : ∀ q, held s q = s.fs.blocks q :=
    fun q => held_other fun valid => absurd (invalid.symm.trans valid) nofun
  have heldP : held s' p = buf := by
    rw [← isNew]
    exact if_pos ⟨rfl, rfl⟩
  have kept : ∀ q, s.fs.used q = true → ∀ j < s.fs.blocksize, held s' q j = held s q j :=
      fun q was j lt => by
    rw [old]
    by_cases eq : q = p
    · rw [eq, heldP, ← eq]
      exact (same q was j lt).2 eq
    · rw [held_other (by rw [← isNew]; exact fun _ => Ne.symm eq), ← isNew]
      exact (same q was j lt).1
  have stored : ∀ q, s.fs.used q = true → ∀ j < s.fs.blocksize, s'.fs.blocks q j = held s' q j :=
      fun q was j lt => by
    rw [kept q was j lt, old, ← isNew]
    exact (same q was j lt).1
  subst isNew
  refine ⟨sharing.pos, sharing.share,
    ⟨fun block m is => ?_, fun block m is j lt => ?_, fun block none j lt => ?_⟩,
    fun o mem => (sharing.earlier o mem).congr rfl grows kept, fun block m is other j lt => ?_,
    fun o mem block m is j lt => stored _ ((sharing.earlier o mem).known block m is).2.1 j lt,
    fun l q length is => ?_, fun _ => ⟨lookup_set_same, small⟩, fun _ clean =>
      Bool.noConfusion clean, fun _ => rfl⟩
  · by_cases eq : block = s.file.blockno
    · rw [eq, lookup_set_same] at is
      rw [← some.inj is]
      exact ⟨nonzero, isUsed, rfl⟩
    · rw [lookup_set_other eq] at is
      obtain ⟨ne, was, written⟩ := sharing.own.known block m is
      exact ⟨ne, grows _ was, written⟩
  · by_cases eq : block = s.file.blockno
    · rw [eq, lookup_set_same] at is
      rw [← some.inj is, heldP, eq]
      exact (own j lt).symm
    · rw [lookup_set_other eq] at is
      rw [kept _ (sharing.own.known block m is).2.1 j lt, sharing.own.data block m is j lt]
      exact (rest block eq j lt).symm
  · by_cases eq : block = s.file.blockno
    · rw [eq, lookup_set_same] at none
      cases none
    · rw [lookup_set_other eq] at none
      exact (rest block eq j lt).trans (sharing.own.hole block none j lt)
  · rw [lookup_set_other (other rfl)] at is
    exact stored _ (sharing.own.known block m is).2.1 j lt
  · rcases entries l q length is with entry | ⟨rfl, rfl⟩
    · obtain ⟨ne, was, content⟩ := sharing.sha l q length entry
      refine ⟨ne, grows q was, ?_⟩
      rw [← content]
      exact bytesAt_congr fun j lt => kept q was (0 + j) (by rw [zero_add]; exact lt)
    · exact ⟨nonzero, isUsed, by rw [heldP]⟩

end

theorem byte_of_bytesAt {c c' : Content} {n j : Nat} (same : bytesAt c 0 n = bytesAt c' 0 n)
    (lt : j < n) : c j = c' j := by
  have get : ∀ c : Content, (bytesAt c 0 n)[j]? = some (c j) := fun c => by
    rw [bytesAt, List.getElem?_map, List.getElem?_range lt, map_some, zero_add]
  exact some.inj ((get c).symm.trans ((congrArg (fun l : List UInt8 => l[j]?) same).trans (get c')))

theorem Sharing.chunk (inj : Injective env.sha512) (sharing : Sharing env s others bytes)
    (invalid : s.file.valid = false) (fresh : s.file.map.lookup s.file.blockno = none)
    {dontfill : Bool} {s1 s2 : State}
    (load : loadBuffer s dontfill = some s1) (start : Nat) (data : List UInt8)
    (room : start + data.length ≤ s.fs.blocksize)
    (whole : dontfill = true → data.length = s.fs.blocksize)
    (choose : chooseBlock env (fillBuffer s1 start data) = some s2) :
    Sharing env s2 others
      (patch bytes (s.file.blockno * s.fs.blocksize + start) data.length fun j => data.getD j 0) ∧
      Same s s2 ∧ s2.file.valid = true ∧ s2.file.blockno = s.file.blockno ∧
      s2.file.extents = s.file.extents ∧
      ∀ block, block ≠ s.file.blockno → s2.file.map.lookup block = s.file.map.lookup block := by
  have small : tooBig s s.file.blockno = false := by
    cases big : tooBig s s.file.blockno with
    | false => rfl
    | true =>
      rw [loadBuffer, invalid, if_neg Bool.false_ne_true, bmapGet, big] at load
      cases load
  rw [loadBuffer, invalid, if_neg Bool.false_ne_true, bmapGet_of_small small, fresh] at load
  cases load
  generalize isBuf :
    patch (if dontfill then s.file.buf else zeros) start data.length (fun j => data.getD j 0) = buf
  have filled : ∀ old, fillBuffer { s with file := { s.file with
      physblock := 0, buf := if dontfill then s.file.buf else if 0 ≠ 0 ∧ false = false then old
        else zeros, valid := true } }
      start data = { s with file := { s.file with
          physblock := 0, buf := buf, valid := true, dirty := true } } := fun old => by
    have base : (if (0 : Nat) ≠ 0 ∧ false = false then old else zeros) = zeros :=
      if_neg fun h => h.1 rfl
    rw [base, ← isBuf]
    rfl
  have own : ∀ j < s.fs.blocksize,
    patch bytes (s.file.blockno * s.fs.blocksize + start) data.length (fun j => data.getD j 0)
      (s.file.blockno * s.fs.blocksize + j) = buf j := fun j lt => by
    rw [patch_block room lt, if_pos rfl, ← isBuf, patch, patch]
    split_ifs with inside all
    · rfl
    · have := whole all
      omega
    · exact sharing.own.hole _ fresh j lt
  have rest : ∀ block, block ≠ s.file.blockno → ∀ j < s.fs.blocksize,
      patch bytes (s.file.blockno * s.fs.blocksize + start) data.length (fun j => data.getD j 0)
        (block * s.fs.blocksize + j) = bytes (block * s.fs.blocksize + j) :=
    fun block other j lt => (patch_block room lt).trans (if_neg other)
  have choose := (congrArg (chooseBlock env) (filled _)).symm.trans choose
  rw [chooseBlock, if_neg (not_not.mpr rfl), if_pos sharing.share] at choose
  dsimp only at choose
  cases entry : hashmapLookup s.fs.blockShaMap (env.sha512 (bytesAt buf 0 s.fs.blocksize)) with
  | some p =>
    rw [entry] at choose
    obtain ⟨nonzero, isUsed, content⟩ := sharing.sha _ p (length_bytesAt ..) entry
    have disk : held s p = s.fs.blocks p :=
      held_other fun valid => absurd (invalid.symm.trans valid) (by simp)
    rw [disk] at content
    dsimp only [bmapSet] at choose
    split at choose
    · cases choose
    cases choose
    refine ⟨sharing.place invalid small nonzero (by simp [isUsed]) (fun q was => by simp [was])
      (fun q _ j lt => ⟨rfl, fun eq => ?_⟩) (fun l q _ is => .inl is) own rest rfl, ⟨rfl, rfl, rfl⟩,
        rfl, rfl, rfl,
      fun block other => lookup_set_other other⟩
    rw [eq]
    exact (byte_of_bytesAt content lt).symm
  | none =>
    rw [entry] at choose
    obtain ⟨s3, alloc, rfl⟩ := map_eq_some_iff.mp choose
    dsimp only [bmapAlloc] at alloc
    rw [fresh] at alloc
    split at alloc
    · cases alloc
    obtain ⟨⟨b, tree⟩, pick, rfl⟩ := map_eq_some_iff.mp alloc
    obtain ⟨nonzero, free⟩ := env.alloc.pick_free _ _ _ _ _ pick
    refine ⟨sharing.place invalid small nonzero (by simp) (fun q was => by simp [was])
      (fun q was j _ => ?_)
      (fun l q _ is => ?_) own rest rfl, ⟨rfl, rfl, rfl⟩, rfl, rfl, rfl, fun block other =>
        lookup_set_other other⟩
    · have other : q ≠ b := fun eq => by
        rw [eq, free] at was
        cases was
      exact ⟨congrFun (update_of_ne other ..) j, fun eq => absurd eq other⟩
    · rw [lookup_add] at is
      split_ifs at is with same
      · exact .inr ⟨(some.inj is).symm, inj same⟩
      · exact .inl is

def Unmapped (s : State) (n : Nat) : Prop :=
  0 < n → ∀ block, s.file.pos / s.fs.blocksize ≤ block → block * s.fs.blocksize < s.file.pos + n →
    s.file.map.lookup block = none

/-- After a write the buffer has the block in front of the position. -/
structure Wrote (env : Env) (s s' : State) (others : List (BlockMap × Content)) (bytes : Content)
    (n : Nat) : Prop where
  sharing : Sharing env s' others bytes
  blocksize : s'.fs.blocksize = s.fs.blocksize
  size : s'.file.size = s.file.size
  pos : s'.file.pos = s.file.pos + n
  extents : s'.file.extents = s.file.extents
  buffer : 0 < n → s'.file.valid = true ∧ s'.file.blockno = (s'.file.pos - 1) / s'.fs.blocksize

theorem writeLoop_nil (env : Env) (fuel : Nat) (s : State) : writeLoop env fuel s [] = some s := by
  cases fuel with
  | zero => rfl
  | succ fuel => exact if_pos rfl

theorem Sharing.writeLoop (inj : Injective env.sha512) (fuel : Nat) (data : List UInt8)
    (enough : data.length ≤ fuel)
    (sharing : Sharing env s others bytes) (unmapped : Unmapped s data.length)
    (write : writeLoop env fuel s data = some s') :
    Wrote env s s' others (patch bytes s.file.pos data.length fun j => data.getD j 0)
      data.length := by
  induction fuel generalizing s data bytes with
  | zero =>
    cases write
    rw [eq_nil_of_length_eq_zero (le_zero.mp enough), length_nil, patch_none]
    exact ⟨sharing, rfl, rfl, rfl, rfl, nofun⟩
  | succ fuel ih =>
    rw [FileIo.writeLoop] at write
    split at write
    · rename_i none
      cases write
      rw [none, length_nil, patch_none]
      exact ⟨sharing, rfl, rfl, rfl, rfl, nofun⟩
    rename_i some_
    have length := length_pos_of_ne_nil some_
    have split := div_add_mod' s.file.pos s.fs.blocksize
    have lt := mod_lt s.file.pos sharing.pos
    obtain ⟨s1, sync, sharing1, invalid, same1, map1, here, extents1⟩ :=
      sharing.sync (unmapped length _ (le_refl _) (by omega))
    rw [sync, bind_some] at write
    obtain ⟨s2, load, write⟩ := bind_eq_some_iff.mp write
    obtain ⟨s3, choose, write⟩ := bind_eq_some_iff.mp write
    rw [same1.pos, same1.blocksize] at load choose write
    generalize isC :
      min (s.fs.blocksize - s.file.pos % s.fs.blocksize) data.length = c at load choose write
    have taken : (data.take c).length = c := length_take_of_le (by omega)
    have fresh : s1.file.map.lookup s1.file.blockno = none := by
      rw [map1, here]
      exact unmapped length _ (le_refl _) (by omega)
    obtain ⟨sharing2, same2, valid, blockno, extents2, map2⟩ :=
      sharing1.chunk inj invalid fresh load
      (s.file.pos % s.fs.blocksize) (data.take c) (by rw [taken, same1.blocksize]; omega)
      (fun whole => by rw [taken, same1.blocksize]; exact of_decide_eq_true whole) choose
    have same := same1.trans same2
    have place : s1.file.blockno * s1.fs.blocksize + s.file.pos % s.fs.blocksize = s.file.pos := by
      rw [here, same1.blocksize]
      omega
    have newPos : (advance s3 c).file.pos = s.file.pos + c := congrArg (· + c) same.pos
    have newSize : (advance s3 c).fs.blocksize = s.fs.blocksize := same.blocksize
    rw [place] at sharing2
    have advanced : Sharing env (advance s3 c) others _ :=
      sharing2.move (s3.file.pos + c) s3.file.size s3.writes
    have later : Unmapped (advance s3 c) (data.drop c).length := fun more block from_ below => by
      rw [length_drop] at more below
      rw [newPos, newSize] at from_ below
      have next : s.file.pos + c = (s.file.pos / s.fs.blocksize + 1) * s.fs.blocksize := by
        rw [Nat.add_one_mul]
        omega
      rw [next, Nat.mul_div_cancel _ sharing.pos] at from_
      refine (map2 block (by rw [here]; omega)).trans ?_
      rw [map1]
      exact unmapped length block (by omega) (by omega)
    obtain ⟨sharing', blocksize, size, pos, extents, buffer⟩ :=
      ih (data.drop c) (by rw [length_drop]; omega) advanced later write
    rw [newPos, patch_chunk data (by omega)] at sharing'
    rw [newPos, length_drop] at pos
    refine ⟨sharing', blocksize.trans newSize, size.trans same.size, by omega,
      extents.trans (extents2.trans extents1), fun _ => ?_⟩
    by_cases more : 0 < (data.drop c).length
    · exact buffer more
    have nil := eq_nil_of_length_eq_zero (Nat.eq_zero_of_not_pos more)
    rw [nil, writeLoop_nil] at write
    cases write
    refine ⟨valid, blockno.trans (here.trans ?_)⟩
    rw [newPos, newSize]
    have whole : s.file.pos + c - 1 = s.file.pos / s.fs.blocksize * s.fs.blocksize +
      (s.file.pos % s.fs.blocksize + c - 1) := by omega
    rw [whole, block_of_pos _ (by omega)]

theorem Sharing.rezero (sharing : Sharing env s others bytes) (valid : s.file.valid = true)
    (off : Nat) (zero : ∀ j, off ≤ j → j < s.fs.blocksize → s.file.buf j = 0) :
    Sharing env (writeBlk s s.file.blockno s.file.physblock
      (patch (s.fs.blocks s.file.physblock) off (s.fs.blocksize - off) zeros)) others bytes := by
  have kept :=
    held_writeBlk valid (patch (s.fs.blocks s.file.physblock) off (s.fs.blocksize - off) zeros)
  have stored : ∀ p, ∀ j < s.fs.blocksize, s.fs.blocks p j = held s p j →
      update s.fs.blocks s.file.physblock
        (patch (s.fs.blocks s.file.physblock) off (s.fs.blocksize - off) zeros) p j =
        held s p j := fun p j lt old => by
    by_cases own : p = s.file.physblock
    · subst own
      rw [update_self]
      by_cases behind : off ≤ j
      · rw [patch_inside behind (by omega), held_buffer valid, zero j behind lt]
        rfl
      · rw [patch_apart (by omega), old]
    · rw [← old, update_of_ne own]
  refine sharing.congr ⟨_, rfl⟩ rfl (fun p j _ => by rw [kept]) (fun p j lt old => ?_)
    (fun valid => ⟨valid, rfl, rfl, rfl⟩) (fun _ clean j lt => ?_) fun _ => valid
  · rw [kept]
    exact stored p j lt (old.resolve_left fun invalid => absurd (valid.symm.trans invalid) nofun)
  · have old := sharing.clean valid clean j lt
    rw [← held_buffer valid] at old
    exact (stored _ j lt old).trans (by rw [held_buffer valid]; rfl)

theorem Sharing.grow (sharing : Sharing env s others bytes) (valid : s.file.valid = true)
    (blockno : s.file.blockno = (s.file.pos - 1) / s.fs.blocksize)
    (longer : s.file.size < s.file.pos)
    (clear : ∀ q, s.file.pos ≤ q → bytes q = 0) (set : fileSetSize2 env s s.file.pos = some s') :
    Sharing env s' others bytes ∧ s'.file.size = s.file.pos ∧ s'.fs.blocksize = s.fs.blocksize ∧
      s'.file.extents = s.file.extents ∧ tooBig s ((s.file.pos - 1) / s.fs.blocksize) = false := by
  have sized : Sharing env { s with file := { s.file with size := s.file.pos } } others bytes :=
    sharing.move s.file.pos s.file.pos s.writes
  rw [fileSetSize2] at set
  split at set
  · cases set
  rename_i fits
  have small : tooBig s ((s.file.pos - 1) / s.fs.blocksize) = false :=
    eq_false_of_not_eq_true fun big => fits ⟨by omega, big⟩
  obtain ⟨s1, zero, rfl⟩ := map_eq_some_iff.mp set
  rw [if_pos (Nat.div_le_div_right (by omega))]
  rw [zeroPastOffset] at zero
  split_ifs at zero with part
  · cases zero
    exact ⟨sized, rfl, rfl, rfl, small⟩
  change ¬ s.file.pos % s.fs.blocksize = 0 at part
  have split := div_add_mod' s.file.pos s.fs.blocksize
  have lt := mod_lt s.file.pos sharing.pos
  have here : s.file.pos / s.fs.blocksize = s.file.blockno := by
    rw [blockno, show s.file.pos - 1 = s.file.pos / s.fs.blocksize * s.fs.blocksize +
      (s.file.pos % s.fs.blocksize - 1) by omega, block_of_pos _ (by omega)]
  have sync : syncBufferPosition env { s with file := { s.file with size := s.file.pos } } =
      some { s with file := { s.file with size := s.file.pos } } := if_neg (not_not.mpr here)
  rw [sync, bind_some] at zero
  obtain ⟨found, get, rfl⟩ := map_eq_some_iff.mp zero
  have place := (sharing.buffer valid).1
  have nonzero := (sharing.own.known _ _ place).1
  rw [bmapGet_eq get]
  have found :
      s.file.map.lookup (s.file.pos / s.fs.blocksize) = some ⟨s.file.physblock, false⟩ := by
    rw [here]
    exact place
  dsimp only
  rw [found, elim_some, elim_some, if_neg (by simp [nonzero]), here]
  refine ⟨sized.rezero valid _ fun j behind inside => ?_, rfl, rfl, rfl, small⟩
  have byte := sharing.own.data _ _ place j inside
  rw [held_buffer valid] at byte
  refine byte.trans (clear _ ?_)
  rw [← here]
  omega

theorem tooBig_congr {block : Nat} (size : s'.fs.blocksize = s.fs.blocksize)
    (extents : s'.file.extents = s.file.extents) : tooBig s' block = tooBig s block := by
  rw [tooBig, tooBig, size, extents]

theorem tooBig_mono {block block' : Nat} (le : block ≤ block') (small : tooBig s block' = false) :
    tooBig s block = false := by
  have not := of_decide_eq_false small
  refine decide_eq_false fun big => not ?_
  rcases big with big | big
  · exact .inl (big.trans le)
  · exact .inr ⟨big.1, big.2.trans le⟩

structure Sized (s : State) (f : ByteFile) : Prop where
  size : s.file.size = f.size
  clear : ∀ q, f.size ≤ q → f.bytes q = 0
  small : ∀ block, block * s.fs.blocksize < s.file.size → tooBig s block = false

theorem Sharing.write (inj : Injective env.sha512) {f : ByteFile}
    (sharing : Sharing env s others f.bytes)
    (sized : Sized s f) {data : List UInt8} (unmapped : Unmapped s data.length)
    (write : fileWrite env s data = some s') :
    Sharing env s' others (want { f with pos := s.file.pos } (.write data)).1.bytes ∧
      Sized s' (want { f with pos := s.file.pos } (.write data)).1 ∧
          s'.fs.blocksize = s.fs.blocksize := by
  obtain ⟨s1, loop, write⟩ := bind_eq_some_iff.mp write
  obtain ⟨sharing1, blocksize, size, pos, extents, buffer⟩ :=
    sharing.writeLoop inj data.length data (le_refl _) unmapped loop
  have old := sized.size
  have clear : ∀ q, max f.size (s.file.pos + data.length) ≤ q →
      patch f.bytes s.file.pos data.length (fun j => data.getD j 0) q = 0 := fun q behind => by
    rw [patch_apart (by omega), sized.clear q (by omega)]
  rw [want]
  split_ifs at write with longer
  · obtain ⟨some_, lt⟩ := longer
    have length := length_pos_of_ne_nil some_
    obtain ⟨valid, blockno⟩ := buffer length
    obtain ⟨sharing2, size2, blocksize2, extents2, small⟩ := sharing1.grow valid blockno lt
      (fun q behind => clear q (by omega)) write
    rw [if_neg some_]
    refine ⟨sharing2, ⟨by dsimp only; omega, clear, fun block below => ?_⟩,
      blocksize2.trans blocksize⟩
    rw [tooBig_congr blocksize2 extents2]
    refine tooBig_mono ?_ small
    rw [blocksize2, size2] at below
    exact (Nat.le_div_iff_mul_le sharing1.pos).mpr (by omega)
  · obtain rfl := some.inj write
    have still : ∀ block, block * s1.fs.blocksize < s1.file.size → tooBig s1 block = false :=
        fun block below => by
      rw [blocksize, size] at below
      rw [tooBig_congr blocksize extents]
      exact sized.small block below
    by_cases none : data = []
    · rw [if_pos none]
      refine ⟨sharing1, ⟨size.trans old, fun q behind => ?_, still⟩, blocksize⟩
      rw [none, length_nil, patch_none]
      exact sized.clear q behind
    · have le : s1.file.pos ≤ s1.file.size := Nat.le_of_not_lt fun lt => longer ⟨none, lt⟩
      rw [if_neg none]
      exact ⟨sharing1, ⟨by dsimp only; omega, clear, still⟩, blocksize⟩

end Sharing

end E2fs.FileIo
