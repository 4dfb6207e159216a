import E2fs.Undo.Reader

/-! The undo file as it is written and as `e2undo` walks it: full key blocks, each with the data of
its keys behind it, and the key block that is being filled. -/
namespace E2fs.Undo
open Memory Device List Nat

section Codec

variable {file : Content} {T lblk : Nat} {keys : List Key} {a b c l : List UInt8}

theorem bytesAt_middle (a b c : List UInt8) :
    bytesAt (buffer (a ++ (b ++ c))) a.length b.length = b := by
  refine ext_getElem (length_bytesAt ..) fun i low high => ?_
  simp only [bytesAt, buffer, getElem_map, getElem_range, getD_eq_getElem?_getD]
  rw [getElem?_append_right (Nat.le_add_right ..), Nat.add_sub_cancel_left,
    getElem?_append_left high, getElem?_eq_getElem high, Option.getD_some]

theorem bytesAt_at {i n : Nat} (atA : a.length = i) (lenB : b.length = n) :
    bytesAt (buffer (a ++ (b ++ c))) i n = b := by
  subst atA lenB
  exact bytesAt_middle a b c

def Key.Fits (key : Key) : Prop := key.fsblk < 2 ^ 64 ∧ key.size < 2 ^ 32

theorem length_encodeKey (key : Key) : (encodeKey key).length = 16 := by
  simp [encodeKey]

theorem ofNat_crc (crc : UInt32) : UInt32.ofNat (ofBytes (toBytes 4 crc.toNat)) = crc := by
  rw [ofBytes_toBytes, mod_eq_of_lt (by simpa using crc.toNat_lt), UInt32.ofNat_toNat]

theorem readKey_buffer {key : Key} (fits : key.Fits) (a c : List UInt8) :
    readKey (buffer (a ++ (encodeKey key ++ c))) a.length = key := by
  have fsblk : bytesAt (buffer (a ++ (encodeKey key ++ c))) a.length 8 = toBytes 8 key.fsblk := by
    rw [encodeKey, append_assoc, append_assoc]
    exact bytesAt_at rfl (length_toBytes ..)
  have crc : bytesAt (buffer (a ++ (encodeKey key ++ c))) (a.length + 8) 4 =
      toBytes 4 key.blkCrc.toNat := by
    rw [encodeKey, append_assoc, append_assoc, ← append_assoc a]
    exact bytesAt_at (by simp) (length_toBytes ..)
  have size :
      bytesAt (buffer (a ++ (encodeKey key ++ c))) (a.length + 12) 4 = toBytes 4 key.size := by
    rw [encodeKey, append_assoc, ← append_assoc a]
    exact bytesAt_at (by simp) (length_toBytes ..)
  rw [readKey, fsblk, crc, size, ofNat_crc, ofBytes_toBytes, ofBytes_toBytes,
    mod_eq_of_lt (by simpa using fits.1), mod_eq_of_lt (by simpa using fits.2)]

theorem readKeys_buffer (head : List UInt8) (fits : ∀ key ∈ keys, key.Fits) :
    (range keys.length).map (fun j => readKey (buffer (head ++ keys.flatMap encodeKey))
      (head.length + 16 * j)) = keys := by
  induction keys generalizing head with
  | nil => rfl
  | cons key keys ih =>
    have first := readKey_buffer (fits key (mem_cons_self ..)) head (keys.flatMap encodeKey)
    have rest := ih (head ++ encodeKey key) fun other mem => fits other (mem_cons_of_mem _ mem)
    rw [length_cons, range_succ_eq_map, map_cons, map_map, flatMap_cons, Nat.mul_zero, add_zero,
      first]
    refine congrArg (key :: ·) (Eq.trans ?_ rest)
    refine map_congr_left fun j _ => ?_
    rw [Function.comp_apply, append_assoc, length_append, length_encodeKey]
    congr 1
    omega

/-- The block `lblk` of a file is a key block. -/
def IsKeyb (file : Content) (T lblk : Nat) (keys : List Key) : Prop :=
  ∀ j < T, file (lblk * T + j) = keyBlock T keys j

theorem buffer_zeroed (l m r : List UInt8) (j : Nat) :
    (if l.length ≤ j ∧ j < l.length + m.length then 0 else buffer (l ++ (m ++ r)) j) =
      buffer (l ++ (replicate m.length 0 ++ r)) j := by
  simp only [buffer, getD_eq_getElem?_getD]
  by_cases front : j < l.length
  · rw [if_neg (by omega), getElem?_append_left front, getElem?_append_left front]
  have behind : ∀ d : List UInt8, (l ++ d)[j]? = d[j - l.length]? :=
    fun d => getElem?_append_right (by omega)
  rw [behind, behind]
  have length : (replicate m.length (0 : UInt8)).length = m.length := length_replicate
  by_cases field : j < l.length + m.length
  · rw [if_pos ⟨by omega, field⟩, getElem?_append_left (by omega), getElem?_replicate,
      if_pos (by omega)]
    rfl
  · have beyond : ∀ d : List UInt8, d.length = m.length →
        (d ++ r)[j - l.length]? = r[j - l.length - m.length]? :=
      fun d same => by rw [getElem?_append_right (by omega), same]
    rw [if_neg (by omega), beyond m rfl, beyond _ length]

theorem readKeyb_keys (is : IsKeyb file T lblk keys) (room : 16 + 16 * keys.length ≤ T)
    (fits : ∀ key ∈ keys, key.Fits) : readKeyb file T lblk keys.length = some keys := by
  have part : ∀ i n, i + n ≤ T →
      bytesAt file (lblk * T + i) n = bytesAt (buffer (encodeKeyb (keybCrc T keys) keys)) i n :=
    fun i n le => bytesAt_congr fun j lt => by
      rw [add_assoc]
      exact is (i + j) (by omega)
  have magic : bytesAt file (lblk * T) 4 = toBytes 4 0xCADECADE := by
    rw [← add_zero (lblk * T), part 0 4 (by omega), encodeKeyb, append_assoc, append_assoc,
      ← nil_append (toBytes 4 0xCADECADE ++ _)]
    exact bytesAt_at rfl (length_toBytes ..)
  have crc : bytesAt file (lblk * T + 4) 4 = toBytes 4 (keybCrc T keys).toNat := by
    rw [part 4 4 (by omega), encodeKeyb, append_assoc, append_assoc]
    exact bytesAt_at (length_toBytes ..) (length_toBytes ..)
  have whole : bytesAt (patch file (lblk * T + 4) 4 zeros) (lblk * T) T =
      bytesAt (buffer (encodeKeyb 0 keys)) 0 T := by
    have split : ∀ crc : UInt32, encodeKeyb crc keys =
        toBytes 4 0xCADECADE ++ (toBytes 4 crc.toNat ++ (toBytes 8 0 ++ keys.flatMap encodeKey)) :=
            fun crc => by
      rw [encodeKeyb, append_assoc, append_assoc]
    have zero :
        toBytes 4 (0 : UInt32).toNat = replicate (toBytes 4 (keybCrc T keys).toNat).length 0 := by
      rw [length_toBytes]
      decide
    refine bytesAt_congr fun j lt => ?_
    rw [zero_add, split 0, zero, ← buffer_zeroed, ← split, length_toBytes, length_toBytes, patch,
      is j lt, keyBlock]
    by_cases field : 4 ≤ j ∧ j < 4 + 4
    · rw [if_pos field, if_pos (by omega)]
      rfl
    · rw [if_neg field, if_neg (by omega)]
  have each : (range keys.length).map (fun j => readKey file (lblk * T + 16 + 16 * j)) = keys := by
    obtain ⟨front, head, length⟩ :
      ∃ front, encodeKeyb (keybCrc T keys) keys = front ++ keys.flatMap encodeKey ∧
        front.length = 16 := ⟨_, rfl, by simp⟩
    have read := readKeys_buffer front fits
    rw [← head, length] at read
    refine Eq.trans (map_congr_left fun j mem => ?_) read
    have lt := mem_range.mp mem
    rw [readKey, readKey, add_assoc (lblk * T), add_assoc (lblk * T), add_assoc (lblk * T),
      part _ 8 (by omega), part _ 4 (by omega), part _ 4 (by omega)]
  have right : ofBytes (toBytes 4 0xCADECADE) = 0xCADECADE := by
    rw [ofBytes_toBytes]
    norm_num
  simp only [readKeyb, magic, right, ne_eq, not_true_eq_false, if_false, crc, whole, ofNat_crc]
  rw [if_neg (by rw [keybCrc]; simp), each]

end Codec

section Walk

variable {file file' : Content} {T lblk last : Nat} {keys keys' : List Key}
  {groups : List (List Key)} {info : KeyInfo}

theorem walk_append (lblk : Nat) (keys keys' : List Key) :
    walk T lblk (keys ++ keys') = walk T lblk keys ++ walk T (after T lblk keys) keys' := by
  induction keys generalizing lblk with
  | nil => rfl
  | cons key keys ih => rw [cons_append, walk, walk, after, ih, cons_append]

theorem after_append (lblk : Nat) (keys keys' : List Key) :
    after T lblk (keys ++ keys') = after T (after T lblk keys) keys' := by
  induction keys generalizing lblk with
  | nil => rfl
  | cons key keys ih => rw [cons_append, after, after, ih]

theorem le_after (T lblk : Nat) (keys : List Key) : lblk ≤ after T lblk keys := by
  induction keys generalizing lblk with
  | nil => exact le_refl _
  | cons key keys ih => exact (Nat.le_add_right ..).trans (ih _)

theorem size_le_blocks (pos : 0 < T) (size : Nat) : size ≤ dataBlocks T size * T := by
  have := div_add_mod' (size + T - 1) T
  have := mod_lt (size + T - 1) pos
  rw [dataBlocks]
  omega

theorem walk_bounds (pos : 0 < T) (mem : info ∈ walk T lblk keys) :
    lblk ≤ info.fileblk ∧ info.fileblk * T + info.size ≤ after T lblk keys * T := by
  induction keys generalizing lblk with
  | nil => cases mem
  | cons key keys ih =>
    rcases mem_cons.mp mem with rfl | mem
    · refine ⟨le_refl _, ?_⟩
      have blocks := size_le_blocks pos key.size
      have le := Nat.mul_le_mul_right T (le_after T (lblk + dataBlocks T key.size) keys)
      rw [add_mul] at le
      rw [after]
      dsimp only
      omega
    · obtain ⟨low, high⟩ := ih mem
      exact ⟨(Nat.le_add_right ..).trans low, high⟩

/-- Full key blocks from `lblk` on, each behind the data of the one before; `last` comes
after them. -/
def Laid (file : Content) (T : Nat) : Nat → List (List Key) → Nat → Prop
  | lblk, [], last => lblk = last
  | lblk, keys :: groups, last =>
    keys.length = keysPerBlock T ∧ IsKeyb file T lblk keys ∧
      Laid file T (after T (lblk + 1) keys) groups last

def walkAll (T : Nat) : Nat → List (List Key) → List KeyInfo
  | _, [] => []
  | lblk, keys :: groups => walk T (lblk + 1) keys ++ walkAll T (after T (lblk + 1) keys) groups

theorem Laid.le (laid : Laid file T lblk groups last) : lblk ≤ last := by
  induction groups generalizing lblk with
  | nil => exact laid.le
  | cons keys groups ih =>
    have := le_after T (lblk + 1) keys
    have := ih laid.2.2
    omega

theorem length_walk (T lblk : Nat) (keys : List Key) : (walk T lblk keys).length = keys.length := by
  induction keys generalizing lblk with
  | nil => rfl
  | cons key keys ih => rw [walk, length_cons, length_cons, ih]

section

variable (laid : Laid file T lblk groups last)
include laid

theorem length_walkAll : (walkAll T lblk groups).length = keysPerBlock T * groups.length := by
  induction groups generalizing lblk with
  | nil => rfl
  | cons keys groups ih =>
    rw [walkAll, length_append, length_walk, laid.1, ih laid.2.2, length_cons]
    ring

theorem walkAll_bounds (pos : 0 < T) (mem : info ∈ walkAll T lblk groups) :
    info.fileblk * T + info.size ≤ last * T := by
  induction groups generalizing lblk with
  | nil => cases mem
  | cons keys groups ih =>
    rcases mem_append.mp mem with mem | mem
    · exact (walk_bounds pos mem).2.trans (Nat.mul_le_mul_right T laid.2.2.le)
    · exact ih laid.2.2 mem

theorem Laid.congr (same : ∀ q < last * T, file' q = file q) : Laid file' T lblk groups last := by
  induction groups generalizing lblk with
  | nil => exact laid
  | cons keys groups ih =>
    obtain ⟨length, keyb, rest⟩ := laid
    refine ⟨length, fun j lt => ?_, ih rest⟩
    rw [same]
    · exact keyb j lt
    · have le : lblk + 1 ≤ last := (le_after T (lblk + 1) keys).trans rest.le
      exact lt_of_block le lt

theorem Laid.snoc (full : keys.length = keysPerBlock T) (keyb : IsKeyb file T last keys) :
    Laid file T lblk (groups ++ [keys]) (after T (last + 1) keys) := by
  induction groups generalizing lblk with
  | nil =>
    obtain rfl : lblk = last := laid
    exact ⟨full, keyb, rfl⟩
  | cons other groups ih => exact ⟨laid.1, laid.2.1, ih laid.2.2⟩

theorem walkAll_snoc (keys : List Key) :
    walkAll T lblk (groups ++ [keys]) = walkAll T lblk groups ++ walk T (last + 1) keys := by
  induction groups generalizing lblk with
  | nil =>
    obtain rfl : lblk = last := laid
    exact append_nil _
  | cons other groups ih => rw [cons_append, walkAll, walkAll, ih laid.2.2, append_assoc]

end

theorem room_of_le {n : Nat} (le : n ≤ keysPerBlock T) (large : 16 ≤ T) : 16 + 16 * n ≤ T := by
  rw [keysPerBlock] at le
  omega

theorem loadKeys_laid (large : 32 ≤ T) (laid : Laid file T lblk groups last)
    (few : keys.length < keysPerBlock T)
    (keyb : keys ≠ [] → IsKeyb file T last keys) (fits : ∀ key ∈ groups.flatten ++ keys, key.Fits)
    (checked : ∀ info ∈ walkAll T lblk groups ++ walk T (last + 1) keys,
      checkKey file T info = true)
    (fuel : Nat) (enough : groups.length + keys.length < fuel) :
    loadKeys file T fuel (keysPerBlock T * groups.length + keys.length) lblk =
      some (walkAll T lblk groups ++ walk T (last + 1) keys) := by
  induction groups generalizing lblk fuel with
  | nil =>
    obtain rfl : lblk = last := laid
    obtain ⟨fuel, rfl⟩ : ∃ n, fuel = n + 1 := ⟨fuel - 1, by omega⟩
    rw [length_nil, Nat.mul_zero, zero_add, loadKeys]
    by_cases none : keys = []
    · rw [none]
      rfl
    have some_ : keys.length ≠ 0 := fun zero => none (eq_nil_of_length_eq_zero zero)
    obtain ⟨fuel, rfl⟩ : ∃ n, fuel = n + 1 := ⟨fuel - 1, by simp at enough; omega⟩
    have read := readKeyb_keys (keyb none) (room_of_le few.le (by omega)) fits
    have all : (walk T (lblk + 1) keys).all (checkKey file T) = true := all_eq_true.mpr checked
    rw [if_neg some_, Nat.min_eq_left few.le, read, Option.bind_some, if_pos all, Nat.sub_self,
      loadKeys, if_pos rfl, Option.map_some, append_nil]
    rfl
  | cons group groups ih =>
    obtain ⟨full, isKeyb, rest⟩ := laid
    obtain ⟨fuel, rfl⟩ : ∃ n, fuel = n + 1 := ⟨fuel - 1, by omega⟩
    have total : keysPerBlock T * (group :: groups).length + keys.length =
        keysPerBlock T + (keysPerBlock T * groups.length + keys.length) := by
      rw [length_cons]
      ring
    have read := readKeyb_keys isKeyb (room_of_le full.le (by omega)) fun key mem =>
      fits key (mem_append_left _ (mem_flatten.mpr ⟨group, mem_cons_self .., mem⟩))
    have others := ih rest (fun key mem => fits key (by
        rw [flatten_cons, append_assoc]
        exact mem_append_right _ mem))
      (fun info mem => checked info (by
        rw [walkAll, append_assoc]
        exact mem_append_right _ mem))
      fuel (by simp at enough ⊢; omega)
    have own : (walk T (lblk + 1) group).all (checkKey file T) = true :=
        all_eq_true.mpr fun info mem =>
      checked info (by
        rw [walkAll, append_assoc]
        exact mem_append_left _ mem)
    rw [full] at read
    rw [total, loadKeys, if_neg (by omega), Nat.min_eq_right (Nat.le_add_right ..), read,
      Option.bind_some, if_pos own,
      Nat.add_sub_cancel_left, others, Option.map_some, walkAll, append_assoc]

end Walk

end E2fs.Undo
