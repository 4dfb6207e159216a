import E2fs.FileIo.Sharing

/-! Files that are made one after the other and share their blocks. -/
namespace E2fs.FileIo
open Device Run List Option

structure Session where
  fs : Filsys
  closed : List File
  file : File

inductive SharedOp where
  | create (extents : Bool)
  | write (pos : Nat) (data : List UInt8)

/- The open file is closed before the next one is made. -/
def sharedCall (env : Env) (st : Session) : SharedOp → Option Session
  | .create extents => (fileReopen env ⟨st.fs, st.file, []⟩).map fun s =>
    ⟨s.fs, st.closed ++ [s.file], openFile [] extents 0⟩
  | .write pos data => (fileWrite env ⟨st.fs, { st.file with pos := pos }, []⟩ data).map fun s =>
    ⟨s.fs, st.closed, s.file⟩

def sharedStep (env : Env) (st : Session) (op : SharedOp) : Session :=
  (sharedCall env st op).getD st

structure Files where
  closed : List ByteFile
  file : ByteFile

def sharedWant (w : Files) : SharedOp → Files
  | .create _ => ⟨w.closed ++ [w.file], ⟨zeros, 0, 0⟩⟩
  | .write pos data => { w with file := (want { w.file with pos := pos } (.write data)).1 }

structure RightFiles (env : Env) (st : Session) (w : Files) : Prop where
  length : st.closed.length = w.closed.length
  closed : ∀ p ∈ st.closed.zip w.closed, ReadsBack env st.fs p.1 p.2
  opened : ∃ s, fileReopen env ⟨st.fs, st.file, []⟩ = some s ∧ ReadsBack env s.fs s.file w.file
  shared : ∀ p ∈ (st.closed ++ [st.file]).zip (w.closed ++ [w.file]),
    ∀ q ∈ (st.closed ++ [st.file]).zip (w.closed ++ [w.file]), ∀ block block' m m',
    p.1.map.lookup block = some m → q.1.map.lookup block' = some m' → m.phys = m'.phys →
    ∀ j < st.fs.blocksize,
      p.2.bytes (block * st.fs.blocksize + j) = q.2.bytes (block' * st.fs.blocksize + j)

structure Keeps (env : Env) (st : Session) (w : Files) : Prop where
  length : st.closed.length = w.closed.length
  sharing : Sharing env ⟨st.fs, st.file, []⟩
    ((st.closed.zip w.closed).map fun p => (p.1.map, p.2.bytes)) w.file.bytes
  sized : Sized ⟨st.fs, st.file, []⟩ w.file
  closed : ∀ p ∈ st.closed.zip w.closed, p.1 = openFile p.1.map p.1.extents p.1.size ∧
    Sized ⟨st.fs, p.1, []⟩ p.2

/- The condition on a call: a write only has blocks without a place. -/
def Fresh (st : Session) : SharedOp → Prop
  | .create _ => True
  | .write pos data => Unmapped ⟨st.fs, { st.file with pos := pos }, []⟩ data.length

def SharedSucceeds (env : Env) (st : Session) (op : SharedOp) : Prop :=
  (sharedCall env st op).isSome = true

instance (env : Env) (st : Session) (op : SharedOp) : Decidable (SharedSucceeds env st op) :=
  inferInstanceAs (Decidable (_ = true))

section Session

variable {env : Env} {st : Session} {w : Files}

variable {s : State} {bytes : Content} {others : List (BlockMap × Content)}

section

variable {file : File}
  (stored : ∀ block m, file.map.lookup block = some m → ∀ j < s.fs.blocksize,
    s.fs.blocks m.phys j = held s m.phys j)
include stored

theorem Maps.onDisk (maps : Maps s file.map bytes) (block : Nat) {j : Nat}
    (lt : j < s.fs.blocksize) :
    FileIo.onDisk ⟨s.fs, file, []⟩ block j = bytes (block * s.fs.blocksize + j) := by
  rcases found : file.map.lookup block with _ | m
  · rw [onDisk_of_none found, maps.hole block found j lt]
  rw [onDisk_of_mapped found, (maps.known block m found).2.2, if_neg Bool.false_ne_true,
    stored block m found j lt, maps.data block m found j lt]

theorem Sharing.readsBack (sharing : Sharing env s others bytes) {f : ByteFile}
    (maps : Maps s file.map f.bytes)
    (isOpen : file = openFile file.map file.extents file.size) (sized : Sized ⟨s.fs, file, []⟩ f) :
    ReadsBack env s.fs file f := by
  refine Quiet.readsBack ⟨sharing.pos, ?_, fun block j lt => maps.onDisk stored block lt,
    fun valid => ?_, fun block m is => (maps.known block m is).1, sized.small⟩ sized.size
  · rw [isOpen]
    rfl
  · rw [isOpen] at valid
    cases valid

end

theorem zip_snoc {α β : Type} {l : List α} {l' : List β} (length : l.length = l'.length) (a : α)
    (b : β) : (l ++ [a]).zip (l' ++ [b]) = l.zip l' ++ [(a, b)] := zip_append length

theorem Keeps.right (keeps : Keeps env st w) : RightFiles env st w := by
  have mem : ∀ p ∈ st.closed.zip w.closed, (p.1.map, p.2.bytes) ∈ (st.closed.zip w.closed).map
      fun p => (p.1.map, p.2.bytes) :=
    fun p mem => mem_map.mpr ⟨p, mem, rfl⟩
  refine ⟨keeps.length, fun p isP => ?_, ?_,
    fun p isP q isQ block block' m m' is is' same j lt => ?_⟩
  · obtain ⟨isOpen, sized⟩ := keeps.closed p isP
    exact keeps.sharing.readsBack (keeps.sharing.storedOthers _ (mem p isP))
      (keeps.sharing.earlier _ (mem p isP)) isOpen sized
  · obtain ⟨s, flush, sharing, clean, same, map, extents⟩ := keeps.sharing.flush
    refine ⟨_, by rw [fileReopen, flush]; rfl, ?_⟩
    have closed := sharing.invalidate clean 0
    refine closed.readsBack ?_ closed.own
      rfl ⟨same.size.trans keeps.sized.size, keeps.sized.clear, fun block below => ?_⟩
    · exact fun block m is => closed.stored block m is nofun
    change block * s.fs.blocksize < s.file.size at below
    rw [same.blocksize, same.size] at below
    refine Eq.trans (tooBig_congr ?_ ?_) (keeps.sized.small block below)
    · exact same.blocksize
    · exact extents
  · have data : ∀ p ∈ (st.closed ++ [st.file]).zip (w.closed ++ [w.file]),
        Maps ⟨st.fs, st.file, []⟩ p.1.map p.2.bytes := by
      intro p isP
      rw [zip_snoc keeps.length, mem_append, mem_singleton] at isP
      rcases isP with isP | rfl
      · exact keeps.sharing.earlier _ (mem p isP)
      · exact keeps.sharing.own
    rw [← (data p isP).data block m is j lt, ← (data q isQ).data block' m' is' j lt, same]

theorem Sized.congr {s' : State} {f : ByteFile} (sized : Sized s f)
    (blocksize : s'.fs.blocksize = s.fs.blocksize)
    (extents : s'.file.extents = s.file.extents) (size : s'.file.size = s.file.size) :
    Sized s' f where
  size := size.trans sized.size
  clear := sized.clear
  small := fun block below => by
    rw [blocksize, size] at below
    rw [tooBig_congr blocksize extents]
    exact sized.small block below

theorem Sharing.next (sharing : Sharing env s others bytes) (invalid : s.file.valid = false)
    (extents : Bool) :
    Sharing env ⟨s.fs, openFile [] extents 0, []⟩ (others ++ [(s.file.map, bytes)]) zeros := by
  have now : ∀ p, held ⟨s.fs, openFile [] extents 0, []⟩ p = held s p := fun p => by
    rw [held_other fun valid => absurd (invalid.symm.trans valid) nofun]
    exact held_other nofun
  have maps : ∀ map bytes, Maps s map bytes → Maps ⟨s.fs, openFile [] extents 0, []⟩ map bytes :=
      fun _ _ old =>
    old.congr rfl (fun _ is => is) fun p _ j _ => by rw [now]
  refine ⟨sharing.pos, sharing.share, ⟨nofun, nofun, fun _ _ _ _ => rfl⟩, ?_, nofun,
    fun o mem block m is j lt => ?_, fun l p length is => ?_, nofun, nofun, nofun⟩
  · exact forall_mem_append.mpr ⟨fun o mem => maps _ _ (sharing.earlier o mem),
      forall_mem_singleton.mpr (maps _ _ sharing.own)⟩
  · rw [now]
    rcases mem_append.mp mem with mem | mem
    · exact sharing.storedOthers o mem block m is j lt
    · rw [mem_singleton.mp mem] at is
      exact sharing.stored block m is (fun valid => absurd (invalid.symm.trans valid) nofun) j lt
  · rw [now]
    exact sharing.sha l p length is

theorem Keeps.call (inj : Function.Injective env.sha512) (keeps : Keeps env st w) {op : SharedOp}
    (fresh : Fresh st op)
    {st' : Session} (call : sharedCall env st op = some st') : Keeps env st' (sharedWant w op) := by
  cases op with
  | write pos data =>
    obtain ⟨s, write, rfl⟩ := map_eq_some_iff.mp call
    obtain ⟨sharing, sized, blocksize⟩ := (keeps.sharing.move pos st.file.size []).write inj
      (keeps.sized.congr rfl rfl rfl) fresh write
    refine ⟨keeps.length, sharing.move s.file.pos s.file.size [], sized.congr rfl rfl rfl,
      fun p mem => ?_⟩
    obtain ⟨isOpen, old⟩ := keeps.closed p mem
    exact ⟨isOpen, old.congr blocksize rfl rfl⟩
  | create extents =>
    obtain ⟨s, reopen, rfl⟩ := map_eq_some_iff.mp call
    obtain ⟨s1, flush, sharing, clean, same, map, extents1⟩ := keeps.sharing.flush
    rw [fileReopen, flush] at reopen
    cases reopen
    have next := (sharing.invalidate clean 0).next rfl extents
    refine ⟨?_, ?_, ⟨rfl, fun _ _ => rfl, fun _ below => absurd below (Nat.not_lt_zero _)⟩,
      fun p mem => ?_⟩
    · show (st.closed ++ [_]).length = (w.closed ++ [_]).length
      rw [length_append, length_append, keeps.length]
      rfl
    · show Sharing env _ (((st.closed ++ [_]).zip (w.closed ++ [_])).map _) _
      rw [zip_snoc keeps.length, map_append]
      exact next
    · change p ∈ (st.closed ++ [_]).zip (w.closed ++ [_]) at mem
      rw [zip_snoc keeps.length, mem_append, mem_singleton] at mem
      rcases mem with mem | rfl
      · obtain ⟨isOpen, old⟩ := keeps.closed p mem
        exact ⟨isOpen, old.congr same.blocksize rfl rfl⟩
      · exact ⟨rfl, keeps.sized.congr same.blocksize extents1 same.size⟩

end Session

/-- Sharing blocks changes no file, if every write only has blocks without a place. -/
theorem sharing_changes_no_file (env : Env) (inj : Function.Injective env.sha512) (fs : Filsys)
    (pos : 0 < fs.blocksize)
    (share : fs.shareDup = true) {signed : Bool} (map : fs.blockShaMap = hashmapCreate signed)
    (extents : Bool) (ops : List SharedOp)
    (succeed : Along (sharedStep env) (SharedSucceeds env) ⟨fs, [], openFile [] extents 0⟩ ops)
    (fresh : Along (sharedStep env) Fresh ⟨fs, [], openFile [] extents 0⟩ ops) (pre : List SharedOp)
    (is : pre <+: ops) : RightFiles env (pre.foldl (sharedStep env) ⟨fs, [], openFile [] extents 0⟩)
      (pre.foldl sharedWant ⟨[], ⟨zeros, 0, 0⟩⟩) := by
  have start : Keeps env ⟨fs, [], openFile [] extents 0⟩ ⟨[], ⟨zeros, 0, 0⟩⟩ := by
    refine ⟨rfl, ⟨pos, share, ⟨nofun, nofun, fun _ _ _ _ => rfl⟩, nofun, nofun, nofun,
      fun l p _ entry => ?_, nofun, nofun, nofun⟩,
      ⟨rfl, fun _ _ => rfl, fun _ below => absurd below (Nat.not_lt_zero _)⟩, nofun⟩
    rw [map] at entry
    cases entry
  refine Keeps.right ((succeed.and fresh).simulates (fun st w op keeps meets => ?_) start is)
  obtain ⟨st', call⟩ := isSome_iff_exists.mp meets.1
  rw [sharedStep, call, getD_some]
  exact keeps.call inj meets.2 call

def sharedFilsys : Filsys := ⟨1024, fun _ => zeros, fun _ => false, true, hashmapCreate false⟩

theorem sample_files_right : RightFiles sampleEnv
    ([.write 0 [1, 2], .create true, .write 0 [1, 2]].foldl (sharedStep sampleEnv)
      ⟨sharedFilsys, [], openFile [] true 0⟩)
    ([.write 0 [1, 2], .create true, .write 0 [1, 2]].foldl sharedWant ⟨[], ⟨zeros, 0, 0⟩⟩) :=
  sharing_changes_no_file sampleEnv (fun _ _ same => same) sharedFilsys (by decide) rfl rfl true
    [.write 0 [1, 2], .create true, .write 0 [1, 2]]
    ⟨by decide +kernel, by decide +kernel, by decide +kernel, trivial⟩
      ⟨fun _ _ _ _ => rfl, trivial, fun _ _ _ _ => rfl, trivial⟩
    _ (prefix_refl _)

/- The block was hashed when only its first byte was written. -/
theorem partial_block_shared :
    let ops : List SharedOp :=
  [.write 0 [1], .write 1 [2], .create true, .write 0 [1], .create true]
    let st := ops.foldl (sharedStep sampleEnv) ⟨sharedFilsys, [], openFile [] true 0⟩
    let w := ops.foldl sharedWant ⟨[], ⟨zeros, 0, 0⟩⟩
    Along (sharedStep sampleEnv) (SharedSucceeds sampleEnv) ⟨sharedFilsys, [], openFile [] true 0⟩
      ops ∧
      st.closed.head?.map (fun file => (fileRead sampleEnv ⟨st.fs, file, []⟩ 2).map Prod.snd) =
        some (some [1, 0]) ∧
      w.closed.head?.map (fun f => (f.size, f.bytes 0, f.bytes 1)) = some (2, 1, 2) := by
  decide +kernel

end E2fs.FileIo
