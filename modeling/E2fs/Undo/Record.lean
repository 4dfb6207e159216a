import E2fs.Undo.Layout

/-! One captured block: its bytes go behind the data that is there, the last key is extended or a
new one added, and the file stays one that `e2undo` can walk. -/
namespace E2fs.Undo
open Memory Device List Nat

def Channel.start (ch : Channel) (fsblk : Nat) : Nat := fsblk * ch.blockSize + ch.offset

/-- The file has the bytes of the old device for a key. -/
structure Stored (orig : Content) (ch : Channel) (info : KeyInfo) : Prop where
  data :
    ∀ j < info.size, ch.file (info.fileblk * ch.tdbDataSize + j) = orig (ch.start info.fsblk + j)
  crc : info.blkCrc = crc32c 0xFFFFFFFF (bytesAt orig (ch.start info.fsblk) info.size)
  small : info.size ≤ maxExtentBlocks * ch.tdbDataSize

def infos (ch : Channel) (groups : List (List Key)) : List KeyInfo :=
  walkAll ch.tdbDataSize firstKeyBlk groups ++ walk ch.tdbDataSize (ch.keyBlkNum + 1) ch.keyb

/-- The keys in memory and their data on the file; the current key block may have to be written. -/
structure Pending (orig : Content) (ch : Channel) (groups : List (List Key)) : Prop where
  laid : Laid ch.file ch.tdbDataSize firstKeyBlk groups ch.keyBlkNum
  few : ch.keyb.length ≤ keysPerBlock ch.tdbDataSize
  next : ch.undoBlkNum = after ch.tdbDataSize (ch.keyBlkNum + 1) ch.keyb
  num : ch.numKeys = keysPerBlock ch.tdbDataSize * groups.length + ch.keyb.length
  fits : ∀ key ∈ groups.flatten ++ ch.keyb, key.Fits
  stored : ∀ info ∈ infos ch groups, Stored orig ch info

/-- And the current key block is on the file, with room in it. -/
structure Recorded (orig : Content) (ch : Channel) (groups : List (List Key)) :
    Prop extends Pending orig ch groups where
  room : ch.keyb.length < keysPerBlock ch.tdbDataSize
  keyb : ch.keyb ≠ [] → IsKeyb ch.file ch.tdbDataSize ch.keyBlkNum ch.keyb
  hdr : ch.hdr = ⟨ch.numKeys, firstKeyBlk, ch.tdbDataSize, ch.blockSize, ch.offset⟩

structure Same (ch ch' : Channel) : Prop where
  devSize : ch'.devSize = ch.devSize
  blockSize : ch'.blockSize = ch.blockSize
  offset : ch'.offset = ch.offset
  tdbDataSize : ch'.tdbDataSize = ch.tdbDataSize

section Indexes

variable {orig : Content} {ch ch' : Channel} {groups : List (List Key)} {info : KeyInfo}

theorem Same.refl (ch : Channel) : Same ch ch := ⟨rfl, rfl, rfl, rfl⟩

theorem Same.trans {ch'' : Channel} (first : Same ch ch') (second : Same ch' ch'') : Same ch ch'' :=
  ⟨second.devSize.trans first.devSize, second.blockSize.trans first.blockSize,
    second.offset.trans first.offset, second.tdbDataSize.trans first.tdbDataSize⟩

theorem Same.start (same : Same ch ch') (fsblk : Nat) : ch'.start fsblk = ch.start fsblk := by
  rw [Channel.start, Channel.start, same.blockSize, same.offset]

theorem Stored.congr (stored : Stored orig ch info) (same : Same ch ch')
    (file : ∀ j < info.size,
      ch'.file (info.fileblk * ch.tdbDataSize + j) = ch.file (info.fileblk * ch.tdbDataSize + j)) :
    Stored orig ch' info where
  data := fun j lt => by rw [same.tdbDataSize, file j lt, same.start, stored.data j lt]
  crc := by rw [same.start]; exact stored.crc
  small := by rw [same.tdbDataSize]; exact stored.small

section

variable (pending : Pending orig ch groups) (pos : 0 < ch.tdbDataSize)
  (mem : info ∈ infos ch groups)
include pending pos mem

/- The data of the current keys lies between the key block and the next free block. -/
theorem Pending.places : info.fileblk * ch.tdbDataSize + info.size ≤ ch.keyBlkNum * ch.tdbDataSize ∨
      (ch.keyBlkNum + 1) * ch.tdbDataSize ≤ info.fileblk * ch.tdbDataSize ∧
        info.fileblk * ch.tdbDataSize + info.size ≤ ch.undoBlkNum * ch.tdbDataSize := by
  rcases mem_append.mp mem with mem | mem
  · exact .inl (walkAll_bounds pending.laid pos mem)
  · obtain ⟨low, high⟩ := walk_bounds pos mem
    rw [pending.next]
    exact .inr ⟨Nat.mul_le_mul_right _ low, high⟩

theorem Pending.before_next :
    info.fileblk * ch.tdbDataSize + info.size ≤ ch.undoBlkNum * ch.tdbDataSize := by
  have next : ch.keyBlkNum + 1 ≤ ch.undoBlkNum := by
    rw [pending.next]
    exact le_after ..
  have := Nat.mul_le_mul_right ch.tdbDataSize next
  rw [add_mul] at this
  rcases pending.places pos mem with low | ⟨_, high⟩ <;> omega

end

theorem writeKeyb_recorded (pending : Pending orig ch groups) (some_ : ch.keyb ≠ [])
    (large : 32 ≤ ch.tdbDataSize) :
    ∃ groups', Recorded orig (writeUndoIndexes ch) groups' ∧
    infos (writeUndoIndexes ch) groups' = infos ch groups ∧
      Same ch (writeUndoIndexes ch) ∧ (writeUndoIndexes ch).dev = ch.dev ∧
      (writeUndoIndexes ch).written = ch.written := by
  have pos : 0 < ch.tdbDataSize := by omega
  generalize isFile : patch ch.file (ch.keyBlkNum * ch.tdbDataSize) ch.tdbDataSize
    (keyBlock ch.tdbDataSize ch.keyb) = file
  have keyb : IsKeyb file ch.tdbDataSize ch.keyBlkNum ch.keyb := fun j lt => by
    rw [← isFile, patch_add (by omega)]
  have laid : Laid file ch.tdbDataSize firstKeyBlk groups ch.keyBlkNum :=
      pending.laid.congr fun q lt => by
    rw [← isFile, patch_apart (.inl lt)]
  have data : ∀ info ∈ infos ch groups, ∀ j < info.size,
      file (info.fileblk * ch.tdbDataSize + j) = ch.file (info.fileblk * ch.tdbDataSize + j) :=
          fun info mem j lt => by
    rw [← isFile]
    refine patch_apart ?_
    have places := pending.places pos mem
    rw [Nat.add_one_mul] at places
    omega
  rw [writeUndoIndexes, writeKeyb, if_neg some_]
  rw [isFile]
  by_cases full : ch.keyb.length = keysPerBlock ch.tdbDataSize
  · rw [if_pos full]
    have list : walkAll ch.tdbDataSize firstKeyBlk (groups ++ [ch.keyb]) = infos ch groups :=
      walkAll_snoc laid ch.keyb
    have laid' := laid.snoc full keyb
    rw [← pending.next] at laid'
    refine ⟨_, ⟨⟨laid', Nat.zero_le _, rfl, ?_, ?_, fun info mem => ?_⟩, ?_, nofun, rfl⟩, ?_,
      ⟨rfl, rfl, rfl, rfl⟩, rfl, rfl⟩
    · rw [pending.num, full, length_append, length_singleton]
      show _ = keysPerBlock ch.tdbDataSize * (groups.length + 1) + 0
      ring
    · intro key mem
      refine pending.fits key ?_
      simpa using mem
    · have old : info ∈ infos ch groups := by
        rw [← list]
        simpa [infos, walk] using mem
      exact (pending.stored info old).congr ⟨rfl, rfl, rfl, rfl⟩ (data info old)
    · show 0 < keysPerBlock ch.tdbDataSize
      rw [keysPerBlock]
      omega
    · exact (append_nil _).trans list
  · rw [if_neg full]
    refine ⟨groups,
      ⟨⟨laid, pending.few, pending.next, pending.num, pending.fits, fun info mem => ?_⟩,
      lt_of_le_of_ne pending.few full, fun _ => keyb, rfl⟩, rfl, ⟨rfl, rfl, rfl, rfl⟩, rfl, rfl⟩
    exact (pending.stored info mem).congr ⟨rfl, rfl, rfl, rfl⟩ (data info mem)

end Indexes

section Added

variable {orig : Content} {ch : Channel} {groups : List (List Key)} {backing len : Nat}

/-- How one block changes the list of keys. -/
inductive Added (start : Nat → Nat) (T backing len : Nat) : List KeyInfo → List KeyInfo → Prop where
  | new (l : List KeyInfo) (info : KeyInfo) (fsblk : info.fsblk = backing)
    (size : info.size = len) :
      Added start T backing len l (l ++ [info])
  | more (front : List KeyInfo) (old info : KeyInfo) (fsblk : info.fsblk = old.fsblk)
    (size : info.size = old.size + len)
      (whole : old.size % T = 0) (next : start old.fsblk + old.size = start backing) :
      Added start T backing len (front ++ [old]) (front ++ [info])

theorem dataBlocks_one {T n : Nat} (pos : 0 < n) (le : n ≤ T) : dataBlocks T n = 1 := by
  rw [dataBlocks, Nat.div_eq_of_lt_le] <;> omega

theorem dataBlocks_zero {T : Nat} (pos : 0 < T) : dataBlocks T 0 = 0 := by
  exact div_eq_of_lt (by omega)

theorem dataBlocks_add {T m n : Nat} (pos : 0 < T) (whole : m % T = 0) :
    dataBlocks T (m + n) = m / T + dataBlocks T n := by
  obtain ⟨k, rfl⟩ := dvd_of_mod_eq_zero whole
  rw [dataBlocks, dataBlocks, Nat.mul_div_cancel_left _ pos,
    show T * k + n + T - 1 = n + T - 1 + T * k by omega, add_mul_div_left _ _ pos, Nat.add_comm]

theorem buffer_bytesAt {c : Content} {p n j : Nat} (lt : j < n) :
    buffer (bytesAt c p n) j = c (p + j) := by
  rw [buffer, getD_eq_getElem?_getD, List.getElem?_eq_getElem (by simpa using lt), Option.getD_some]
  simp [bytesAt]

/- The state in front of the key block's write: the keys of `keyb`, and the new data at the end. -/
def withKeyb (ch : Channel) (numKeys : Nat) (keyb : List Key) (bytes : List UInt8) : Channel :=
  appendData { ch with numKeys := numKeys, keyb := keyb } bytes

theorem Pending.stored_append (pending : Pending orig ch groups) (pos : 0 < ch.tdbDataSize)
    (numKeys : Nat) (keyb : List Key)
    (bytes : List UInt8) : ∀ info ∈ infos ch groups,
    Stored orig (withKeyb ch numKeys keyb bytes) info := fun info mem => by
  refine (pending.stored info mem).congr ⟨rfl, rfl, rfl, rfl⟩ fun j lt => patch_apart (.inl ?_)
  have := pending.before_next pos mem
  show _ < ch.undoBlkNum * ch.tdbDataSize
  omega

theorem Pending.laid_append (pending : Pending orig ch groups) (numKeys : Nat) (keyb : List Key)
    (bytes : List UInt8) :
    Laid (withKeyb ch numKeys keyb bytes).file ch.tdbDataSize firstKeyBlk groups ch.keyBlkNum := by
  refine pending.laid.congr fun q lt => patch_apart (.inl ?_)
  have next : ch.keyBlkNum ≤ ch.undoBlkNum := by
    rw [pending.next]
    exact (le_succ _).trans (le_after ..)
  exact lt_of_lt_of_le lt (Nat.mul_le_mul_right _ next)

/- With the data at the end, the keys of `keyb` hold one block more. -/
def Appended (orig : Content) (ch : Channel) (groups : List (List Key)) (backing len numKeys : Nat)
    (keyb : List Key) (bytes : List UInt8) : Prop :=
  Pending orig (withKeyb ch numKeys keyb bytes) groups ∧
    Added ch.start ch.tdbDataSize backing len (infos ch groups)
      (infos (withKeyb ch numKeys keyb bytes) groups)

section Append

variable (recorded : Recorded orig ch groups) (pos : 0 < len) (le : len ≤ ch.tdbDataSize)
  (small : ch.tdbDataSize ≤ 2 ^ 20)
  {bytes : List UInt8} (isBytes : bytes = bytesAt orig (ch.start backing) len)
include recorded pos le small isBytes

theorem Recorded.append_new (fit : backing < 2 ^ 64) {key : Key}
    (isKey : key = ⟨backing, crc32c 0xFFFFFFFF bytes, bytes.length⟩) :
    Appended orig ch groups backing len (ch.numKeys + 1) (ch.keyb ++ [key]) bytes := by
  have length : bytes.length = len := by rw [isBytes, length_bytesAt]
  have size : key.size = len := by rw [isKey, length]
  have list : infos (withKeyb ch (ch.numKeys + 1) (ch.keyb ++ [key]) bytes) groups =
      infos ch groups ++ [⟨key.fsblk, ch.undoBlkNum, key.blkCrc, key.size⟩] := by
    show walkAll ch.tdbDataSize firstKeyBlk groups ++ walk ch.tdbDataSize (ch.keyBlkNum + 1)
      (ch.keyb ++ [key]) = _
    rw [walk_append, ← recorded.next, ← append_assoc]
    rfl
  refine ⟨⟨recorded.laid_append .., ?_, ?_, ?_, ?_, ?_⟩, ?_⟩
  · show (ch.keyb ++ [key]).length ≤ keysPerBlock ch.tdbDataSize
    rw [length_append, length_singleton]
    exact recorded.room
  · show ch.undoBlkNum + 1 = after ch.tdbDataSize (ch.keyBlkNum + 1) (ch.keyb ++ [key])
    rw [after_append, ← recorded.next, after, after, size, dataBlocks_one pos le]
  · show ch.numKeys + 1 = keysPerBlock ch.tdbDataSize * groups.length + (ch.keyb ++ [key]).length
    rw [length_append, length_singleton, recorded.num, add_assoc]
  · show ∀ other ∈ groups.flatten ++ (ch.keyb ++ [key]), other.Fits
    rw [← append_assoc]
    refine forall_mem_append.mpr ⟨recorded.fits, forall_mem_singleton.mpr ?_⟩
    rw [isKey]
    exact ⟨fit, show bytes.length < 2 ^ 32 by omega⟩
  · rw [list]
    intro info mem
    rcases mem_append.mp mem with old | own
    · exact recorded.stored_append (by omega) _ _ _ info old
    rw [mem_singleton.mp own, isKey, length]
    refine ⟨fun j lt => ?_, ?_, ?_⟩
    · show patch ch.file (ch.undoBlkNum * ch.tdbDataSize) bytes.length (buffer bytes)
        (ch.undoBlkNum * ch.tdbDataSize + j) = orig (ch.start backing + j)
      change j < len at lt
      rw [patch_add (by omega), isBytes, buffer_bytesAt lt]
    · exact congrArg _ isBytes
    · show len ≤ 512 * ch.tdbDataSize
      omega
  · rw [list]
    exact .new _ _ (by rw [isKey]) size

theorem Recorded.append_more {front : List Key} {key key' : Key} (is : ch.keyb = front ++ [key])
    (limit : key.size + len < maxExtentBlocks * ch.tdbDataSize)
    (whole : key.size % ch.tdbDataSize = 0)
    (next : ch.start key.fsblk + key.size = ch.start backing)
    (isKey : key' = ⟨key.fsblk, crc32c key.blkCrc bytes, key.size + bytes.length⟩) :
    Appended orig ch groups backing len ch.numKeys (front ++ [key']) bytes := by
  have length : bytes.length = len := by rw [isBytes, length_bytesAt]
  have size : key'.size = key.size + len := by rw [isKey, length]
  have tpos : 0 < ch.tdbDataSize := by omega
  generalize isPlace : after ch.tdbDataSize (ch.keyBlkNum + 1) front = place
  generalize isFront : walkAll ch.tdbDataSize firstKeyBlk groups ++
    walk ch.tdbDataSize (ch.keyBlkNum + 1) front = frontInfos
  have old : infos ch groups = frontInfos ++ [⟨key.fsblk, place, key.blkCrc, key.size⟩] := by
    rw [infos, is, walk_append, isPlace, ← append_assoc, isFront]
    rfl
  have new : infos (withKeyb ch ch.numKeys (front ++ [key']) bytes) groups =
      frontInfos ++ [⟨key'.fsblk, place, key'.blkCrc, key'.size⟩] := by
    show walkAll ch.tdbDataSize firstKeyBlk groups ++ walk ch.tdbDataSize (ch.keyBlkNum + 1)
      (front ++ [key']) = _
    rw [walk_append, isPlace, ← append_assoc, isFront]
    rfl
  -- whole blocks of the key's data end where the new data starts
  have blocks : dataBlocks ch.tdbDataSize key.size = key.size / ch.tdbDataSize := by
    have := dataBlocks_add (n := 0) tpos whole
    rwa [add_zero, dataBlocks_zero tpos, add_zero] at this
  have undo : ch.undoBlkNum = place + key.size / ch.tdbDataSize := by
    rw [recorded.next, is, after_append, isPlace, after, after, blocks]
  have ends : ch.undoBlkNum * ch.tdbDataSize = place * ch.tdbDataSize + key.size := by
    have := div_add_mod' key.size ch.tdbDataSize
    rw [undo, add_mul]
    omega
  have oldStored := recorded.stored ⟨key.fsblk, place, key.blkCrc, key.size⟩ (by rw [old]; simp)
  refine ⟨⟨recorded.laid_append .., ?_, ?_, ?_, ?_, ?_⟩, ?_⟩
  · have few := recorded.few
    rw [is, length_append, length_singleton] at few
    show (front ++ [key']).length ≤ _
    rwa [length_append, length_singleton]
  · show ch.undoBlkNum + 1 = after ch.tdbDataSize (ch.keyBlkNum + 1) (front ++ [key'])
    rw [after_append, isPlace, after, after, size, dataBlocks_add tpos whole, dataBlocks_one pos le,
      undo, add_assoc]
  · show ch.numKeys = keysPerBlock ch.tdbDataSize * groups.length + (front ++ [key']).length
    rw [recorded.num, is]
    simp
  · show ∀ other ∈ groups.flatten ++ (front ++ [key']), other.Fits
    have fits := recorded.fits
    rw [is] at fits
    simp only [forall_mem_append, forall_mem_singleton] at fits ⊢
    refine ⟨fits.1, fits.2.1, ?_⟩
    rw [isKey, length]
    have limit' : key.size + len < 512 * ch.tdbDataSize := limit
    exact ⟨fits.2.2.1, show key.size + len < 2 ^ 32 by omega⟩
  · rw [new]
    intro info mem
    rcases mem_append.mp mem with before | own
    · exact recorded.stored_append tpos _ _ _ info (by rw [old]; exact mem_append_left _ before)
    rw [mem_singleton.mp own, isKey, length]
    refine ⟨fun j lt => ?_, ?_, limit.le⟩
    · show patch ch.file (ch.undoBlkNum * ch.tdbDataSize) bytes.length (buffer bytes)
        (place * ch.tdbDataSize + j) = orig (ch.start key.fsblk + j)
      change j < key.size + len at lt
      by_cases first : j < key.size
      · rw [patch_apart (by omega)]
        exact oldStored.data j first
      · rw [patch_inside (by omega) (by omega), ends, isBytes, buffer_bytesAt (by omega), ← next]
        congr 1
        omega
    · show crc32c key.blkCrc _ =
        crc32c 0xFFFFFFFF (bytesAt orig (ch.start key.fsblk) (key.size + len))
      rw [bytesAt_add, crc32c_append, next, show key.blkCrc = _ from oldStored.crc, isBytes]
  · rw [old, new]
    exact .more frontInfos _ _ (by rw [isKey]) size whole next

/- When the last key is extended, the new data has to follow its own. -/
def Follows (ch : Channel) (backing len : Nat) : Prop :=
  ∀ key, ch.keyb.getLast? = some key → extends_ ch key backing len = true →
    key.size % ch.tdbDataSize = 0 ∧ ch.start key.fsblk + key.size = ch.start backing

theorem addKey_recorded (large : 32 ≤ ch.tdbDataSize) (fit : backing < 2 ^ 64)
    (follows : Follows ch backing len)
    {ch' : Channel} (is : ch' = writeUndoIndexes (appendData (addKey ch backing bytes) bytes)) :
    ∃ groups', Recorded orig ch' groups' ∧
    Added ch.start ch.tdbDataSize backing len (infos ch groups) (infos ch' groups') ∧
      Same ch ch' ∧ ch'.dev = ch.dev ∧ ch'.written = ch.written := by
  have length : bytes.length = len := by rw [isBytes, length_bytesAt]
  -- either way the state before the key block's write is `withKeyb`
  have front : ∃ numKeys keyb, keyb ≠ [] ∧
    appendData (addKey ch backing bytes) bytes = withKeyb ch numKeys keyb bytes ∧
      Appended orig ch groups backing len numKeys keyb bytes := by
    by_cases more : ∃ key, ch.keyb.getLast? = some key ∧ extends_ ch key backing bytes.length = true
    · obtain ⟨key, last, more⟩ := more
      obtain ⟨whole, next⟩ := follows key last (length ▸ more)
      have split : ch.keyb = ch.keyb.dropLast ++ [key] := (dropLast_append_getLast? key last).symm
      have limit : key.size + len < maxExtentBlocks * ch.tdbDataSize := by
        have := of_decide_eq_true more
        rw [length] at this
        exact this.2
      refine ⟨_, _, by simp, ?_,
        recorded.append_more pos le small isBytes split limit whole next rfl⟩
      rw [addKey, last]
      dsimp only
      rw [if_pos more]
      rfl
    · refine ⟨_, _, by simp, ?_, recorded.append_new pos le small isBytes fit rfl⟩
      rw [addKey]
      rcases last : ch.keyb.getLast? with _ | key
      · rfl
      dsimp only
      rw [if_neg fun is => more ⟨key, last, is⟩]
      rfl
  obtain ⟨numKeys, keyb, some_, state, pending, added⟩ := front
  obtain ⟨groups', recorded', same, fields, dev, written⟩ := writeKeyb_recorded pending some_ large
  rw [is, state]
  exact ⟨groups', recorded', same ▸ added, { fields with }, dev, written⟩

end Append

theorem Recorded.keys (recorded : Recorded orig ch groups) (large : 32 ≤ ch.tdbDataSize) :
    e2undoKeys ch.hdr ch.file = some (infos ch groups) := by
  have kpb : 0 < keysPerBlock ch.tdbDataSize := by
    rw [keysPerBlock]
    omega
  rw [e2undoKeys, recorded.hdr, recorded.num]
  refine loadKeys_laid large recorded.laid recorded.room recorded.keyb recorded.fits
    (fun info mem => ?_) _ ?_
  · have stored := recorded.stored info mem
    refine decide_eq_true ⟨stored.small, ?_⟩
    rw [stored.crc]
    exact congrArg _ (bytesAt_congr stored.data)
  · have := Nat.mul_le_mul_right groups.length (succ_le_of_lt kpb)
    show groups.length + ch.keyb.length <
      keysPerBlock ch.tdbDataSize * groups.length + ch.keyb.length + 1
    omega

end Added

end E2fs.Undo
