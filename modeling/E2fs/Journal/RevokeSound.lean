import E2fs.Journal.Log

/-! The revoke table keeps, for every block, the last transaction that revokes it. -/
namespace E2fs.Jbd2
open Word BigEndian Option

variable {k n b old seq : Nat} {t : RevokeTable} {j : Journal} {entries : List Entry}

theorem tidGt_iff (j : Journal) {k' : Nat} (half : n ≤ 2 ^ 31) (hk : k < n) (hk' : k' < n) :
    tidGt (tid j k) (tid j k') = true ↔ k' < k := by
  unfold tidGt tid toInt32
  rw [decide_eq_true_iff, Int.bmod_def]
  omega

theorem tidGeq_iff (j : Journal) (half : n ≤ 2 ^ 31) (hk : k ≤ n) :
    tidGeq (tid j k) (tid j n) = true ↔ k = n := by
  unfold tidGeq tid toInt32
  rw [decide_eq_true_iff, Int.bmod_def]
  omega

/- More than 2^31 transactions look like none. -/
theorem tidGeq_past (j : Journal) (past : 2 ^ 31 < n) (lt : n < 2 ^ 32) :
    tidGeq (tid j 0) (tid j n) = true := by
  unfold tidGeq tid toInt32
  rw [decide_eq_true_iff, Int.bmod_def]
  omega

theorem find_setSequence (b seq b' : Nat) (rs : List RevokeRecord) :
    (setSequence b seq rs).find? (fun r => r.blocknr == b') =
      if b' = b then (rs.find? fun r => r.blocknr == b).map fun r => { r with sequence := seq }
      else rs.find? fun r => r.blocknr == b' := by
  induction rs with
  | nil => simp [setSequence]
  | cons r rs ih =>
    by_cases own : r.blocknr = b
    · by_cases same : b' = b
      · simp [setSequence, own, same]
      · have other : ¬ b = b' := fun h => same h.symm
        simp [setSequence, own, same, other]
    · by_cases same : b' = b
      · subst same
        simpa [setSequence, own] using ih
      · by_cases here : r.blocknr = b'
        · simp [setSequence, same, here]
        · simp [setSequence, own, same, here, ih]

def latest (t : RevokeTable) (b : Nat) : Option Nat :=
  (findRevokeRecord t b).map RevokeRecord.sequence

theorem latest_eq_none (unknown : latest t b = none) : findRevokeRecord t b = none := by
  simpa [latest] using unknown

theorem latest_eq_some (known : latest t b = some old) :
    ∃ record, findRevokeRecord t b = some record ∧ record.sequence = old := by
  simpa [latest] using known

theorem setRevoke_new (unknown : latest t b = none) :
    jbd2JournalSetRevoke t b seq = insertRevokeHash t b seq := by
  unfold jbd2JournalSetRevoke
  rw [latest_eq_none unknown, elim_none]

theorem setRevoke_later (known : latest t b = some old)
    (later : tidGt seq old = true) : jbd2JournalSetRevoke t b seq = updateRevokeHash t b seq := by
  obtain ⟨record, found, rfl⟩ := latest_eq_some known
  unfold jbd2JournalSetRevoke
  rw [found, elim_some, if_pos later]

theorem setRevoke_earlier (known : latest t b = some old)
    (earlier : ¬ tidGt seq old = true) : jbd2JournalSetRevoke t b seq = t := by
  obtain ⟨record, found, rfl⟩ := latest_eq_some known
  unfold jbd2JournalSetRevoke
  rw [found, elim_some, if_neg earlier]

theorem latest_insert (t : RevokeTable) (b seq b' : Nat) :
    latest (insertRevokeHash t b seq) b' = if b' = b then some seq else latest t b' := by
  by_cases same : b' = b
  · simp [latest, same, findRevokeRecord, insertRevokeHash]
  · have other : ¬ b = b' := fun h => same h.symm
    by_cases slot : hash b' = hash b
    · simp [latest, same, other, findRevokeRecord, insertRevokeHash, slot]
    · simp [latest, same, findRevokeRecord, insertRevokeHash, slot]

theorem latest_update (known : latest t b = some old) (seq b' : Nat) :
    latest (updateRevokeHash t b seq) b' = if b' = b then some seq else latest t b' := by
  obtain ⟨record, found, _⟩ := latest_eq_some known
  rw [findRevokeRecord] at found
  by_cases slot : hash b' = hash b
  · simp only [latest, findRevokeRecord, updateRevokeHash, slot, if_true, find_setSequence]
    by_cases same : b' = b
    · simp [same, found]
    · simp [same]
  · have same : ¬ b' = b := fun h => slot (by rw [h])
    simp [latest, findRevokeRecord, updateRevokeHash, slot, same]

theorem latest_setRevoke_other (t : RevokeTable) (seq : Nat) {b' : Nat} (ne : b' ≠ b) :
    latest (jbd2JournalSetRevoke t b seq) b' = latest t b' := by
  rcases known : latest t b with _ | old
  · rw [setRevoke_new known, latest_insert, if_neg ne]
  by_cases later : tidGt seq old = true
  · rw [setRevoke_later known later, latest_update known, if_neg ne]
  · rw [setRevoke_earlier known later]

structure TableHolds (j : Journal) (t : RevokeTable) (entries : List Entry) : Prop where
  absent : ∀ b, latest t b = none → ∀ k, Entry.revoke k b ∉ entries
  last : ∀ b id, latest t b = some id → ∃ k, id = tid j k ∧ Entry.revoke k b ∈ entries ∧
    ∀ k', Entry.revoke k' b ∈ entries → k' ≤ k

theorem tableHolds_empty (j : Journal) : TableHolds j emptyTable [] := by
  refine ⟨fun b _ k => by simp, fun b id known => ?_⟩
  simp [latest, findRevokeRecord, emptyTable] at known

theorem TableHolds.congr {more : List Entry} (holds : TableHolds j t entries)
    (same : ∀ k b, Entry.revoke k b ∈ more ↔ Entry.revoke k b ∈ entries) : TableHolds j t more where
  absent b none k mem := holds.absent b none k ((same k b).mp mem)
  last b id known := by
    obtain ⟨k, eq, mem, most⟩ := holds.last b id known
    exact ⟨k, eq, (same k b).mpr mem, fun k' hk' => most k' ((same k' b).mp hk')⟩

section

variable (half : n ≤ 2 ^ 31) (hk : k < n) (below : ∀ k' b', Entry.revoke k' b' ∈ entries → k' < n)
  (holds : TableHolds j t entries)
include half hk below holds

theorem TableHolds.set : TableHolds j (jbd2JournalSetRevoke t b (tid j k))
    (entries ++ [.revoke k b]) := by
  have mem_iff : ∀ k' b', Entry.revoke k' b' ∈ entries ++ [.revoke k b] ↔
      Entry.revoke k' b' ∈ entries ∨ (k' = k ∧ b' = b) := by
    intro k' b'
    simp
  have own : ∃ m, latest (jbd2JournalSetRevoke t b (tid j k)) b = some (tid j m) ∧
      Entry.revoke m b ∈ entries ++ [.revoke k b] ∧
      ∀ k', Entry.revoke k' b ∈ entries ++ [.revoke k b] → k' ≤ m := by
    cases known : latest t b with
    | none =>
      refine ⟨k, ?_, by simp, fun k' hk' => ?_⟩
      · rw [setRevoke_new known, latest_insert, if_pos rfl]
      · rcases (mem_iff k' b).mp hk' with h | h
        · exact absurd h (holds.absent b known k')
        · omega
    | some id =>
      obtain ⟨m, rfl, mem, most⟩ := holds.last b id known
      have less := tidGt_iff j half hk (below m b mem)
      by_cases later : m < k
      · refine ⟨k, ?_, by simp, fun k' hk' => ?_⟩
        · rw [setRevoke_later known (less.mpr later), latest_update known, if_pos rfl]
        · rcases (mem_iff k' b).mp hk' with h | h
          · have := most k' h
            omega
          · omega
      · refine ⟨m, ?_, by simp [mem], fun k' hk' => ?_⟩
        · rw [setRevoke_earlier known (mt less.mp later), known]
        · rcases (mem_iff k' b).mp hk' with h | h
          · exact most k' h
          · omega
  constructor
  · intro b' none k' mem
    by_cases same : b' = b
    · obtain ⟨m, found, _⟩ := own
      rw [same, found] at none
      cases none
    · rw [latest_setRevoke_other t _ same] at none
      rcases (mem_iff k' b').mp mem with h | h
      · exact holds.absent b' none k' h
      · exact same h.2
  · intro b' id known
    by_cases same : b' = b
    · subst same
      obtain ⟨m, found, rest⟩ := own
      rw [found] at known
      exact ⟨m, (Option.some.inj known).symm, rest⟩
    · rw [latest_setRevoke_other t _ same] at known
      obtain ⟨m, eq, mem, most⟩ := holds.last b' id known
      refine ⟨m, eq, (mem_iff m b').mpr (.inl mem), fun k' hk' => ?_⟩
      rcases (mem_iff k' b').mp hk' with h | h
      · exact most k' h
      · exact absurd h.2 same

theorem TableHolds.set_all (bs : List Nat) :
    TableHolds j (bs.foldl (fun t b => jbd2JournalSetRevoke t b (tid j k)) t)
      (entries ++ bs.map (.revoke k)) := by
  induction bs generalizing t entries with
  | nil => simpa using holds
  | cons b bs ih =>
    have below' : ∀ k' b', Entry.revoke k' b' ∈ entries ++ [.revoke k b] → k' < n := by
      intro k' b' mem
      rcases List.mem_append.mp mem with h | h
      · exact below k' b' h
      · have : k' = k ∧ b' = b := by simpa using h
        omega
    have step := ih below' (holds.set half hk below)
    rw [List.append_assoc] at step
    exact step

end

theorem revokedFrom_iff (entries : List Entry) (k b : Nat) :
    revokedFrom entries k b = true ↔ ∃ k', k ≤ k' ∧ Entry.revoke k' b ∈ entries := by
  simp only [revokedFrom, List.any_eq_true]
  constructor
  · rintro ⟨e, he, hit⟩
    cases e with
    | tag k' b' data => simp at hit
    | revoke k' b' =>
      simp only [Bool.and_eq_true, decide_eq_true_eq, beq_iff_eq] at hit
      exact ⟨k', hit.1, hit.2 ▸ he⟩
  · rintro ⟨k', le, mem⟩
    exact ⟨_, mem, by simp [le]⟩

theorem testRevoke_none (seq : Nat) (unknown : latest t b = none) :
    jbd2JournalTestRevoke t b seq = false := by
  unfold jbd2JournalTestRevoke
  rw [latest_eq_none unknown, elim_none]

theorem testRevoke_some {id : Nat} (seq : Nat) (known : latest t b = some id) :
    jbd2JournalTestRevoke t b seq = true ↔ ¬ tidGt seq id = true := by
  obtain ⟨record, found, rfl⟩ := latest_eq_some known
  unfold jbd2JournalTestRevoke
  rw [found, elim_some, Bool.not_eq_true', Bool.not_eq_true]

/- Testing a block in a transaction asks whether it is revoked from there on. -/
theorem TableHolds.test (half : n ≤ 2 ^ 31) (hk : k < n)
    (below : ∀ k' b', Entry.revoke k' b' ∈ entries → k' < n)
    (holds : TableHolds j t entries) (b : Nat) :
    jbd2JournalTestRevoke t b (tid j k) = revokedFrom entries k b := by
  rw [Bool.eq_iff_iff, revokedFrom_iff]
  cases known : latest t b with
  | none =>
    rw [testRevoke_none _ known]
    simp [holds.absent b known]
  | some id =>
    obtain ⟨m, rfl, mem, most⟩ := holds.last b id known
    rw [testRevoke_some _ known, tidGt_iff j half hk (below m b mem)]
    constructor
    · intro h
      exact ⟨m, by omega, mem⟩
    · rintro ⟨k', le, mem'⟩
      have := most k' mem'
      omega

def OncePerBlock (t : RevokeTable) : Prop := ∀ h, ((t h).map RevokeRecord.blocknr).Nodup

theorem map_setSequence (b seq : Nat) (rs : List RevokeRecord) :
    (setSequence b seq rs).map RevokeRecord.blocknr = rs.map RevokeRecord.blocknr := by
  induction rs with
  | nil => rfl
  | cons r rs ih =>
    unfold setSequence
    split_ifs
    · rfl
    · rw [List.map_cons, List.map_cons, ih]

theorem OncePerBlock.set (once : OncePerBlock t) (b seq : Nat) :
    OncePerBlock (jbd2JournalSetRevoke t b seq) := by
  intro h
  rcases known : latest t b with _ | old
  · rw [setRevoke_new known, insertRevokeHash]
    split_ifs with slot
    · have unknown := latest_eq_none known
      rw [findRevokeRecord, ← slot, List.find?_eq_none] at unknown
      exact List.nodup_cons.mpr ⟨by simpa using unknown, once h⟩
    · exact once h
  by_cases later : tidGt seq old = true
  · rw [setRevoke_later known later, updateRevokeHash]
    split_ifs
    · rw [map_setSequence]
      exact once h
    · exact once h
  · rw [setRevoke_earlier known later]
    exact once h

/- The table after calls with blocks and transactions of the window that starts at the journal's. -/
def setRevokes (j : Journal) (calls : List (Nat × Nat)) : RevokeTable :=
  calls.foldl (fun t call => jbd2JournalSetRevoke t call.1 (tid j call.2)) emptyTable

theorem setRevokes_spec (half : n ≤ 2 ^ 31) (calls : List (Nat × Nat))
    (below : ∀ call ∈ calls, call.2 < n) : OncePerBlock (setRevokes j calls) ∧
      TableHolds j (setRevokes j calls) (calls.map fun call => .revoke call.2 call.1) := by
  induction calls using List.reverseRecOn with
  | nil => exact ⟨fun _ => List.nodup_nil, tableHolds_empty j⟩
  | append_singleton calls call ih =>
    obtain ⟨once, holds⟩ := ih fun call mem => below call (List.mem_append_left _ mem)
    rw [setRevokes, List.foldl_append, List.map_append]
    refine ⟨once.set _ _, holds.set half (below call (by simp)) fun k b mem => ?_⟩
    obtain ⟨call, here, same⟩ := List.mem_map.mp mem
    cases same
    exact below call (List.mem_append_left _ here)

/-- A block is revoked in a transaction if one call revoked it there or later, in any order of the
calls. -/
theorem revokes_kept (j : Journal) {n : Nat} (half : n ≤ 2 ^ 31) (calls : List (Nat × Nat))
    (below : ∀ call ∈ calls, call.2 < n) : OncePerBlock (setRevokes j calls) ∧ ∀ b k, k < n →
      (jbd2JournalTestRevoke (setRevokes j calls) b (tid j k) = true ↔
        ∃ q, k ≤ q ∧ (b, q) ∈ calls) := by
  obtain ⟨once, holds⟩ := setRevokes_spec half calls below
  refine ⟨once, fun b k lt => ?_⟩
  rw [holds.test half lt (by simpa using fun k b => below (b, k)), revokedFrom_iff]
  simp

/- Around the end of the 32-bit numbers, the later transaction first. -/
theorem wrapped_revokes_kept :
    ∃ j : Journal, j.sequence = 2 ^ 32 - 1 ∧ OncePerBlock (setRevokes j [(7, 2), (7, 0)]) ∧
    jbd2JournalTestRevoke (setRevokes j [(7, 2), (7, 0)]) 7 (tid j 1) = true := by
  refine ⟨⟨1024, 1, 16, 16, 2 ^ 32 - 1, 1,
    ⟨false, false, false, false, false, by decide, by decide⟩, 0, id, none, rfl,
    by decide, by decide, by decide, by decide, by decide⟩, rfl, ?_⟩
  obtain ⟨once, tests⟩ := revokes_kept _ (by decide : 3 ≤ 2 ^ 31) [(7, 2), (7, 0)] (by decide)
  exact ⟨once, (tests 7 1 (by decide)).mpr ⟨2, by decide, by decide⟩⟩

end E2fs.Jbd2
