import E2fs.Quota.Tree

/-! The file as blocks: what each write of the quota code leaves in them, field by field. -/
namespace E2fs.Quota
open Memory Word Function List

def view (h : QuotaHandle) (b : Nat) : Buf := fun q =>
  if 0 ≤ q ∧ q < 1024 then h.file (1024 * b + q) else 0

def clip (buf : Buf) : Buf := fun q => if 0 ≤ q ∧ q < 1024 then buf q else 0

section File

variable {h : QuotaHandle} {b : Nat} {buf : Buf}

section

variable (small : b < 2 ^ 22)
include small

theorem blkOff_eq : blkOff b = b * 1024 := by
  rw [blkOff]
  omega

theorem readBlk_eq : readBlk h b = view h b := by
  funext q
  rw [readBlk, view, blkOff_eq small]
  push_cast
  rw [mul_comm]

theorem view_writeBlk : view (writeBlk h b buf) = update (view h) b (clip buf) := by
  funext c q
  rw [view, update_apply]
  by_cases same : c = b
  · subst same
    rw [if_pos rfl, clip]
    split_ifs with inside
    · rw [writeBlk, blkOff_eq small]
      dsimp only
      rw [if_pos (by push_cast; omega)]
      congr 1
      push_cast
      ring
    · rfl
  · rw [if_neg same, view]
    split_ifs with inside
    · rw [writeBlk, blkOff_eq small]
      dsimp only
      rw [if_neg]
      omega
    · rfl

theorem view_written : view (writeBlk h b buf) b = clip buf := by
  rw [view_writeBlk small, update_self]

theorem view_unwritten {c : Nat} (ne : c ≠ b) : view (writeBlk h b buf) c = view h c := by
  rw [view_writeBlk small, update_of_ne ne]

end

theorem view_record {l : List UInt8} {i : Nat} (len : l.length = 72) (lt : i < 14) :
    view (e2fsWrite h (1024 * b + 16 + 72 * i) l) =
      update (view h) b (writeBytes (view h b) (16 + 72 * i) l) := by
  funext c q
  rw [view, update_apply, e2fsWrite]
  dsimp only
  by_cases same : c = b
  · subst same
    rw [if_pos rfl]
    by_cases inside : 0 ≤ q ∧ q < 1024
    · rw [if_pos inside, writeBytes, writeBytes, view, if_pos inside, len]
      split
      · rename_i within
        rw [if_pos (by omega)]
        congr 1
        omega
      · rw [if_neg (by omega)]
    · rw [if_neg inside, writeBytes, len, if_neg (by omega), view, if_neg inside]
  · rw [if_neg same, view]
    split
    · rw [writeBytes, len, if_neg (by omega)]
    · rfl

end File

section Fields

variable {buf : Buf} {i j v : Nat}

variable {p : Int} {w : Nat} {l : List UInt8}

theorem load_clip (low : 0 ≤ p) (high : p + w ≤ 1024) : load (clip buf) p w = load buf p w :=
  load_congr fun q low' high' => if_pos ⟨by omega, by omega⟩

@[simp]
theorem nextFree_clip : nextFree (clip buf) = nextFree buf := load_clip (by omega) (by omega)

@[simp]
theorem prevFree_clip : prevFree (clip buf) = prevFree buf := load_clip (by omega) (by omega)

@[simp] theorem entries_clip : entries (clip buf) = entries buf := load_clip (by omega) (by omega)

theorem ref_clip (lt : i < 256) : ref (clip buf) i = ref buf i := load_clip (by omega) (by omega)

theorem slot_clip (lt : i < 14) : slot (clip buf) i = slot buf i :=
  readBytes_congr fun q low high => if_pos ⟨by omega, by omega⟩

theorem nextFree_setNextFree (lt : v < 2 ^ 32) : nextFree (setNextFree buf v) = v :=
  load_store_of_lt lt

@[simp] theorem nextFree_setPrevFree : nextFree (setPrevFree buf v) = nextFree buf :=
  load_store_apart (by omega)

@[simp] theorem nextFree_setEntries : nextFree (setEntries buf v) = nextFree buf :=
  load_store_apart (by omega)

theorem prevFree_setPrevFree (lt : v < 2 ^ 32) : prevFree (setPrevFree buf v) = v :=
  load_store_of_lt lt

@[simp] theorem prevFree_setNextFree : prevFree (setNextFree buf v) = prevFree buf :=
  load_store_apart (by omega)

@[simp] theorem prevFree_setEntries : prevFree (setEntries buf v) = prevFree buf :=
  load_store_apart (by omega)

theorem entries_setEntries (lt : v < 2 ^ 16) : entries (setEntries buf v) = v := load_store_of_lt lt

@[simp] theorem entries_setNextFree : entries (setNextFree buf v) = entries buf :=
  load_store_apart (by omega)

@[simp] theorem entries_setPrevFree : entries (setPrevFree buf v) = entries buf :=
  load_store_apart (by omega)

@[simp] theorem slot_setNextFree : slot (setNextFree buf v) i = slot buf i :=
  readBytes_store_apart (by omega)

@[simp] theorem slot_setPrevFree : slot (setPrevFree buf v) i = slot buf i :=
  readBytes_store_apart (by omega)

@[simp]
theorem slot_setEntries : slot (setEntries buf v) i = slot buf i := readBytes_store_apart (by omega)

theorem ref_setRef (lt : v < 2 ^ 32) : ref (setRef buf i v) j = if j = i then v else ref buf j := by
  split_ifs with same
  · subst same
    exact load_store_of_lt lt
  · exact load_store_apart (by omega)

@[simp] theorem ref_getdqbuf : ref getdqbuf i = 0 := load_of_zero fun _ _ _ => rfl

@[simp] theorem nextFree_getdqbuf : nextFree getdqbuf = 0 := load_of_zero fun _ _ _ => rfl

@[simp] theorem prevFree_getdqbuf : prevFree getdqbuf = 0 := load_of_zero fun _ _ _ => rfl

@[simp] theorem entries_getdqbuf : entries getdqbuf = 0 := load_of_zero fun _ _ _ => rfl

def blank : List UInt8 := List.replicate 72 0

theorem readBytes_eq_blank {m : Mem} (zeros : ∀ q, p ≤ q → q < p + 72 → m q = 0) :
    readBytes m p 72 = blank := by
  refine eq_replicate_iff.mpr ⟨length_readBytes _ _ _, fun b mem => ?_⟩
  obtain ⟨k, small, rfl⟩ := mem_map.mp mem
  have := mem_range.mp small
  exact zeros (p + k) (by omega) (by omega)

@[simp] theorem slot_getdqbuf : slot getdqbuf i = blank := readBytes_eq_blank fun _ _ _ => rfl

@[simp] theorem length_slot : (slot buf i).length = 72 := length_readBytes _ _ _

theorem entryUnused_iff (len : l.length = 72) : entryUnused l ↔ l = blank := by
  rw [entryUnused, all_eq_true, blank, eq_replicate_iff]
  simp [len]

theorem slot_zero (buf : Buf) (i j : Nat) :
    slot (zero buf (16 + 72 * i) 72) j = if j = i then blank else slot buf j := by
  split_ifs with same
  · subst same
    exact readBytes_eq_blank fun q low high => zero_inside low (by omega)
  · exact readBytes_congr fun q low high => zero_apart (by omega)

theorem header_zero (high : p + w ≤ 16) : load (zero buf (16 + 72 * i) 72) p w = load buf p w :=
  load_congr fun q low high => zero_apart (by omega)

theorem slot_writeBytes (len : l.length = 72) (buf : Buf) (i j : Nat) :
    slot (writeBytes buf (16 + 72 * i) l) j = if j = i then l else slot buf j := by
  split_ifs with same
  · subst same
    have same := readBytes_writeBytes buf (16 + 72 * j) l
    rwa [len] at same
  · exact readBytes_writeBytes_apart (by omega)

theorem header_writeBytes (high : p + w ≤ 16) :
    load (writeBytes buf (16 + 72 * i) l) p w = load buf p w :=
  load_writeBytes_apart (by omega)

end Fields

end E2fs.Quota
