import E2fs.Iterate.ExtentWalk

/-! Which calls `ext2fs_block_iterate3` makes for a callback that only looks, and when they are the
calls that the mapping asks for. -/
namespace E2fs.Iterate
open BlockTree Punch List Bool

section Exact

variable {n : Nat} {fs : Fs} {flags : Flags} {inode : Inode} {d : Disk n}

/-- Whatever a quiet callback does with its private data, it is called with `calls`, and there is no
error. -/
def Produces (fs : Fs) (flags : Flags) (inode : Inode) (d : Disk n) (calls : List Call) : Prop :=
  ∀ (σ : Type) (it : Iteration σ) (f : σ → Call → σ) (priv : σ), it.fs = fs → it.flags = flags →
    Quiet it f → ∃ bound, ∀ fuel ≥ bound, ∃ ctx : Ctx σ n,
      ext2fsBlockIterate3 it fuel inode d priv = some (ctx, none, none) ∧
        ctx.priv = calls.foldl f priv

def Maps (fs : Fs) (d : Disk n) : Mapping → Nat → Nat → Prop
  | .inlineData, _, _ => False
  | .extents depth root, l, p =>
    ∃ e ∈ leaves fs.nodes depth root, e.block ≤ l ∧ l < e.block + e.length ∧
      p = e.start + (l - e.block)
  | .blocks iBlock, l, p => bmapWalk d iBlock l = p ∧ p ≠ 0

/- The calls for the mapping, each mapping block before its contents or after them. -/
def mappingVisits (fs : Fs) (flags : Flags) (d : Disk n) : Mapping → List Call
  | .inlineData => []
  | .extents depth root => extentVisits fs.nodes flags depth root
  | .blocks iBlock => fileVisits flags d iBlock

def translatorVisits (fs : Fs) (flags : Flags) (inode : Inode) : List Call :=
  if fs.hurd && !flags.dataOnly && inode.translator ≠ 0 then
    [⟨inode.translator, blockCountTranslator, 0, 0⟩] else []

/-- The mapped blocks are called once each, in increasing order with their numbers, and the mapping
blocks and the places of all pointers are right. -/
structure Exact (fs : Fs) (flags : Flags) (inode : Inode) (d : Disk n) (calls : List Call) :
    Prop where
  increasing : (dataOf calls).Pairwise fun x y => x.1 < y.1
  mapped : ∀ (l : Int) p, (l, p) ∈ dataOf calls ↔ ∃ k : Nat, l = k ∧ Maps fs d inode.mapping k p
  visits : calls = translatorVisits fs flags inode ++ mappingVisits fs flags d inode.mapping

def WellFormed (fs : Fs) (d : Disk n) : Mapping → Prop
  | .inlineData => False
  | .extents depth root => Canonical fs.nodes depth root
  | .blocks iBlock => iBlock.length = 15 ∧ ∀ i p, iBlock[i]? = some p → InRange fs d (rootLevel i) p

/-- The file is not refused as too large, and no block of the double and triple indirect trees has a
hole before a pointer, unless mapping blocks are left out. -/
structure Meets (flags : Flags) (inode : Inode) (d : Disk n) : Prop where
  allowed : (flags.noLarge && !inode.isDir && inode.sizeHigh ≠ 0) = false
  holes : flags.dataOnly = true ∨
    ∀ iBlock, inode.mapping = .blocks iBlock → ∀ i p, iBlock[i]? = some p →
      HolesLast d (rootLevel i) p

def codeCalls (fs : Fs) (flags : Flags) (inode : Inode) (d : Disk n) : List Call :=
  translatorVisits fs flags inode ++
    match inode.mapping with
    | .blocks iBlock => codeVisits flags d iBlock
    | mapping => mappingVisits fs flags d mapping

theorem Quiet.translatorPart {σ : Type} {it : Iteration σ} {f : σ → Call → σ} (quiet : Quiet it f)
    (inode : Inode) (ctx : Ctx σ n) : ∃ translator, translatorPart it inode ctx =
      (ctx.after f (translatorVisits it.fs it.flags inode) 0, translator, Ret.zero) := by
  rw [Iterate.translatorPart, translatorVisits]
  split
  · refine ⟨inode.translator % 2 ^ 32, ?_⟩
    simp only [quiet.call, roViolation_zero, Bool.and_false, false_eq_true, if_false]
  · exact ⟨_, rfl⟩

theorem produces_codeCalls (wellFormed : WellFormed fs d inode.mapping)
    (append : flags.append = false)
    (allowed : (flags.noLarge && !inode.isDir && inode.sizeHigh ≠ 0) = false) :
    Produces fs flags inode d (codeCalls fs flags inode d) := by
  rintro σ it f priv rfl rfl quiet
  obtain ⟨translator, start⟩ := quiet.translatorPart inode (⟨priv, d, 0, none⟩ : Ctx σ n)
  unfold ext2fsBlockIterate3 codeCalls
  cases kind : inode.mapping with
  | inlineData =>
    rw [kind] at wellFormed
    exact wellFormed.elim
  | extents depth root =>
    rw [kind] at wellFormed
    refine ⟨(trace it.fs.nodes depth root).length + 1, fun fuel enough => ?_⟩
    have loop := quiet.extentLoop_root
      (Ctx.after f ⟨priv, d, 0, none⟩ (translatorVisits it.fs it.flags inode) 0) rfl
      wellFormed ⟨0, 0, 0, false, false, false⟩ fuel enough
    simp only [allowed, start, Ret.zero_abort, false_eq_true, if_false, loop, Ctx.after_after]
    exact ⟨_, rfl, rfl⟩
  | blocks iBlock =>
    rw [kind] at wellFormed
    refine ⟨0, fun fuel _ => ?_⟩
    obtain ⟨iBlock', width, run⟩ := quiet.blockMapped iBlock wellFormed.1 wellFormed.2
      (Ctx.after f ⟨priv, d, 0, none⟩ (translatorVisits it.fs it.flags inode) 0) rfl rfl rfl
    simp only [allowed, start, Ret.zero_abort, false_eq_true, if_false, run, Ctx.after_after]
    exact ⟨_, rfl, rfl⟩

def collector (fs : Fs) (flags : Flags) : Iteration (List Call) :=
  ⟨fs, flags, fun s c => (s ++ [c], c.blk, Ret.zero), fun h _ => (h, none),
    fun h _ _ _ => (h, none)⟩

theorem Produces.unique {calls calls' : List Call} (made : Produces fs flags inode d calls)
    (made' : Produces fs flags inode d calls') (append : flags.append = false) :
    calls = calls' := by
  have collect : ∀ xs : List Call, xs.foldl (fun s c => s ++ [c]) [] = xs := by
    intro xs
    induction xs using reverseRecOn with
    | nil => rfl
    | append_singleton xs x ih => rw [foldl_append, ih, foldl_cons, foldl_nil]
  obtain ⟨b, run⟩ :=
    made _ (collector fs flags) (fun s c => s ++ [c]) [] rfl rfl ⟨fun _ _ => rfl, append⟩
  obtain ⟨b', run'⟩ :=
    made' _ (collector fs flags) (fun s c => s ++ [c]) [] rfl rfl ⟨fun _ _ => rfl, append⟩
  obtain ⟨ctx, eq, calls_eq⟩ := run (max b b') (le_max_left b b')
  obtain ⟨ctx', eq', calls_eq'⟩ := run' (max b b') (le_max_right b b')
  rw [eq] at eq'
  cases eq'
  rw [← collect calls, ← collect calls', ← calls_eq, ← calls_eq']

theorem allowed_of_produces {calls : List Call} (made : Produces fs flags inode d calls)
    (wellFormed : WellFormed fs d inode.mapping) (append : flags.append = false) :
    (flags.noLarge && !inode.isDir && inode.sizeHigh ≠ 0) = false := by
  rw [eq_false_iff]
  intro large
  obtain ⟨b, run⟩ :=
    made _ (collector fs flags) (fun s c => s ++ [c]) [] rfl rfl ⟨fun _ _ => rfl, append⟩
  obtain ⟨ctx, eq, -⟩ := run b (le_refl b)
  have refused : ext2fsBlockIterate3 (collector fs flags) b inode d [] =
      some (⟨[], d, 0, none⟩, none, some .fileTooBig) := by
    unfold ext2fsBlockIterate3
    cases kind : inode.mapping with
    | inlineData =>
      rw [kind] at wellFormed
      exact wellFormed.elim
    | extents depth root | blocks iBlock =>
      simp only [collector, large, false_eq_true, if_false, if_true]
  rw [refused] at eq
  cases eq

theorem dataOf_codeCalls (flags : Flags) (pos : 0 < n)
    (wellFormed : WellFormed fs d inode.mapping) :
    (dataOf (codeCalls fs flags inode d)).Pairwise (fun x y => x.1 < y.1) ∧
      ∀ (l : Int) p, (l, p) ∈ dataOf (codeCalls fs flags inode d) ↔
      ∃ k : Nat, l = k ∧ Maps fs d inode.mapping k p := by
  have none_ : dataOf (translatorVisits fs flags inode) = [] := by
    rw [translatorVisits]
    split <;> rfl
  rw [codeCalls, dataOf_append, none_, nil_append]
  cases kind : inode.mapping with
  | inlineData =>
    rw [kind] at wellFormed
    exact wellFormed.elim
  | extents depth root =>
    rw [kind] at wellFormed
    dsimp only [mappingVisits]
    rw [dataOf_extentVisits]
    refine ⟨wellFormed.increasing, fun l p => ?_⟩
    simp only [mem_flatMap, mem_leafBlocks, Maps]
    constructor
    · rintro ⟨e, he, j, inside, rfl, rfl⟩
      exact ⟨e.block + j, rfl, e, he, by omega, by omega, by rw [Nat.add_sub_cancel_left]⟩
    · rintro ⟨k, rfl, e, he, low, high, rfl⟩
      exact ⟨e, he, k - e.block, by omega, by rw [Nat.add_sub_cancel' low], rfl⟩
  | blocks iBlock =>
    rw [kind] at wellFormed
    rw [dataOf_codeVisits pos iBlock wellFormed.1]
    refine ⟨mappedBlocks_increasing _ _ _, fun l p => ?_⟩
    rw [mem_mappedBlocks]
    constructor
    · rintro ⟨k, -, rfl, eq, nonzero⟩
      exact ⟨k, rfl, eq, nonzero⟩
    · rintro ⟨k, rfl, eq, nonzero⟩
      refine ⟨k, ?_, rfl, eq, nonzero⟩
      by_contra past
      refine nonzero (eq ▸ ?_)
      rw [bmapWalk, if_neg (by omega), if_neg (by omega), if_neg (by omega)]
      exact blockTindBmap_past d _ _ pos (by omega)

theorem codeCalls_visits_iff (wellFormed : WellFormed fs d inode.mapping) :
    codeCalls fs flags inode d = translatorVisits fs flags inode ++ mappingVisits fs flags d
      inode.mapping ↔ (flags.dataOnly = true ∨
        ∀ iBlock, inode.mapping = .blocks iBlock → ∀ i p, iBlock[i]? = some p →
        HolesLast d (rootLevel i) p) := by
  rw [codeCalls, append_right_inj]
  cases kind : inode.mapping with
  | inlineData => simp
  | extents depth root => simp
  | blocks iBlock =>
    rw [kind] at wellFormed
    dsimp only [mappingVisits]
    rw [codeVisits_eq_iff iBlock wellFormed.1]
    simp

/-- Without `BLOCK_FLAG_APPEND`, and for a callback that changes nothing and does not abort, the
iterator makes the calls that the mapping asks for just when the condition is met. -/
theorem block_iterate3_exact_iff (pos : 0 < n) (wellFormed : WellFormed fs d inode.mapping)
    (append : flags.append = false) :
    (∃ calls, Produces fs flags inode d calls ∧ Exact fs flags inode d calls) ↔
    Meets flags inode d := by
  constructor
  · rintro ⟨calls, made, exact_⟩
    have allowed := allowed_of_produces made wellFormed append
    have same := made.unique (produces_codeCalls wellFormed append allowed) append
    exact ⟨allowed, (codeCalls_visits_iff wellFormed).mp (same ▸ exact_.visits)⟩
  · intro meets
    refine ⟨_, produces_codeCalls wellFormed append meets.allowed, ?_⟩
    have data := dataOf_codeCalls flags pos wellFormed
    exact ⟨data.1, data.2, (codeCalls_visits_iff wellFormed).mpr meets.holes⟩

end Exact

/- A file with one data block below its double indirect block, at entry `slot` of that block. -/
def slotRow (slot p : Nat) : List Nat := (List.replicate 256 0).set slot p

theorem length_slotRow (slot p : Nat) : (slotRow slot p).length = 256 := by
  rw [slotRow, length_set, length_replicate]

theorem mem_slotRow {slot p q : Nat} (mem : q ∈ slotRow slot p) : q = 0 ∨ q = p :=
  (mem_or_eq_of_mem_set mem).imp_left eq_of_mem_replicate

def slotDisk (slot : Nat) : Disk 256 where
  read b := if b = 20 then slotRow slot 21 else slotRow 0 22
  length_read b := by split <;> exact length_slotRow _ _

def slotInode : Inode := ⟨false, 0, 0, .blocks ((List.replicate 15 0).set 13 20)⟩

def slotFs : Fs := ⟨8192, 1, false, fun _ => .error .io, fun _ => false, fun _ => false, false⟩

def noFlags : Flags := ⟨false, false, false, false, false⟩

theorem slotInode_entry {i p : Nat} (found : ((replicate 15 0).set 13 20)[i]? = some p) :
    p = 0 ∨ (i = 13 ∧ p = 20) := by
  rw [getElem?_set] at found
  split at found
  · simp at found
    omega
  · exact .inl (eq_of_mem_replicate (mem_of_getElem? found))

theorem slot_wellFormed (slot : Nat) : WellFormed slotFs (slotDisk slot) slotInode.mapping := by
  have level1 : InRange slotFs (slotDisk slot) 1 21 :=
    .inr ⟨by decide, by decide, by decide, rfl, fun q _ => trivial⟩
  have level2 : InRange slotFs (slotDisk slot) 2 20 := by
    refine .inr ⟨by decide, by decide, by decide, rfl, fun q mem => ?_⟩
    rcases mem_slotRow mem with rfl | rfl
    · exact .inl rfl
    · exact level1
  refine ⟨rfl, fun i p found => ?_⟩
  rcases slotInode_entry found with rfl | ⟨rfl, rfl⟩
  · cases rootLevel i with
    | zero => exact trivial
    | succ k => exact .inl rfl
  · exact level2

theorem slot_meets : Meets noFlags slotInode (slotDisk 0) := by
  have level1 : HolesLast (slotDisk 0) 1 21 := .inr ⟨.inl rfl, fun _ _ => trivial⟩
  refine ⟨rfl, .inr ?_⟩
  rintro _ ⟨⟩ i p found
  rcases slotInode_entry found with rfl | ⟨rfl, rfl⟩
  · cases rootLevel i with
    | zero => exact trivial
    | succ k => exact .inl rfl
  · refine .inr ⟨.inr ?_, fun q mem => ?_⟩
    · have row : (slotDisk 0).read 20 = 21 :: replicate 255 0 := rfl
      rw [row, pairwise_cons]
      refine ⟨fun _ _ no => absurd no (by decide), ?_⟩
      exact pairwise_of_forall_mem_list fun q _ r mem _ => eq_of_mem_replicate mem
    · rcases mem_slotRow mem with rfl | rfl
      · exact .inl rfl
      · exact level1

theorem slot_exact : ∃ calls, Produces slotFs noFlags slotInode (slotDisk 0) calls ∧
    Exact slotFs noFlags slotInode (slotDisk 0) calls :=
  (block_iterate3_exact_iff (by decide) (slot_wellFormed 0) rfl).mpr slot_meets

/- With the entry behind a hole, the indirect block 21 is called with the offset of the hole. -/
theorem entry_after_hole_misplaced : WellFormed slotFs (slotDisk 1) slotInode.mapping ∧
    (ext2fsBlockIterate3 (collector slotFs noFlags) 0 slotInode (slotDisk 1) []).map
      (fun r => r.1.priv) = some [⟨20, -2, 0, 13⟩, ⟨21, -1, 20, 0⟩, ⟨22, 524, 21, 0⟩] ∧
    ((slotDisk 1).read 20)[0]? = some 0 ∧ ((slotDisk 1).read 20)[1]? = some 21 ∧
    ¬ ∃ calls, Produces slotFs noFlags slotInode (slotDisk 1) calls ∧
      Exact slotFs noFlags slotInode (slotDisk 1) calls := by
  refine ⟨slot_wellFormed 1, by decide +kernel, rfl, rfl, ?_⟩
  rintro ⟨calls, made, exact_⟩
  have same := made.unique (produces_codeCalls (slot_wellFormed 1) rfl rfl) rfl
  rcases (codeCalls_visits_iff (slot_wellFormed 1)).mp (same ▸ exact_.visits) with no | holes
  · cases no
  rcases holes _ rfl 13 20 rfl with no | ⟨no | row, -⟩
  · cases no
  · cases no
  · have first : (slotDisk 1).read 20 = 0 :: 21 :: replicate 254 0 := rfl
    rw [first, pairwise_cons] at row
    cases row.1 21 mem_cons_self rfl

end E2fs.Iterate
