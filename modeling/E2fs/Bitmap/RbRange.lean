import E2fs.Bitmap.RbSearch

/-! Importing and exporting runs of bytes on the tree backend. -/
namespace E2fs.Rb
open Word Bytes Rbtree Bitmap Set

def pending (start stop : Nat) : Option Nat → Set Nat
  | none => ∅
  | some first => Set.Ico (start + first) (start + stop)

def ahead (start num : Nat) (input : Buffer) (i : Nat) : Set Nat :=
  {p | start + i ≤ p ∧ p < start + num ∧ bitAt input (p - start) = true}

variable {input : Buffer} {num i : Nat}

theorem bitAt_of_byte {c : BitVec 8} {j : Nat} (edge : i % 8 = 0)
    (byte : byteAt input (i / 8) = c) (low : i ≤ j) (high : j < i + 8) :
    bitAt input j = c.getLsbD (j % 8) := by
  rw [bitAt, show j / 8 = i / 8 by omega, byte]

theorem ahead_skip {start : Nat} {n : Nat}
    (clear : ∀ j, i ≤ j → j < i + n → bitAt input j = false) :
    ahead start num input (i + n) = ahead start num input i := by
  ext p
  refine ⟨fun ⟨h1, h2, h3⟩ => ⟨by omega, h2, h3⟩, fun ⟨h1, h2, h3⟩ => ⟨?_, h2, h3⟩⟩
  by_contra early
  rw [clear (p - start) (by omega) (by omega)] at h3
  contradiction

section

variable {firstSet : Option Nat}

theorem first_le (open_run : ∀ f, firstSet = some f → f < i) : firstSet.getD i ≤ i := by
  cases firstSet with
  | none => exact le_refl i
  | some f => exact (open_run f rfl).le

theorem pending_extend {start n : Nat} (set : ∀ j, i ≤ j → j < i + n → bitAt input j = true)
    (inside : i < num) (open_run : ∀ f, firstSet = some f → f < i) :
    pending start (min (i + n) num) (some (firstSet.getD i)) ∪ ahead start num input (i + n) =
      pending start (min i num) firstSet ∪ ahead start num input i := by
  have le := first_le open_run
  have seen : pending start (min i num) firstSet =
      Set.Ico (start + firstSet.getD i) (start + min i num) := by
    cases firstSet with
    | none => simp [pending]
    | some f => rfl
  rw [seen]
  generalize firstSet.getD i = f at le
  ext p
  simp only [pending, ahead, mem_union, mem_Ico, mem_ofPred_eq]
  by_cases hit : bitAt input (p - start) = true
  · simp only [hit, and_true]
    omega
  · have clear : ¬ (i ≤ p - start ∧ p - start < i + n) :=
      fun within => hit (set _ within.1 within.2)
    simp only [hit, Bool.false_eq_true, and_false, or_false]
    omega

end

section Import

variable {alloc : Allocator} {b : Bounds} {start num : Nat} {input : Buffer}

variable (low : b.start ≤ start) (fits : start + num ≤ b.realEnd + 1) (short : num < 2 ^ 31)
include low fits short

theorem insert_run {bp : RbPrivate} {first stop : Nat} (sound : Sound b.size bp)
    (order : first < stop) (inside : stop ≤ num) :
    let out := (rbInsertExtent alloc (sub64 (add64 start first) b.start) (stop - first) bp).1
    Sound b.size out ∧ bits b out = bits b bp ∪ pending start stop (some first) := by
  have word := b.realEnd_lt
  rw [add64_eq (show start + first < 2 ^ 64 by omega)]
  have range : InBitmap b (start + first) (stop - first) := ⟨by omega, by omega, by omega, by omega⟩
  obtain ⟨sound', same⟩ := rbInsertExtent_bits alloc sound range
  refine ⟨sound', same.trans ?_⟩
  rw [pending, show start + first + (stop - first) = start + stop by omega]

theorem setRuns_spec (i : Nat) (firstSet : Option Nat) (bp : RbPrivate)
    (sound : Sound b.size bp) (open_run : ∀ f, firstSet = some f → f < i ∧ f < num) :
    let out := setRuns alloc b start num input i firstSet bp
    Sound b.size out.1 ∧ (∀ f, out.2 = some f → f < num) ∧ bits b out.1 ∪ pending start num out.2 =
        bits b bp ∪ (pending start (min i num) firstSet ∪ ahead start num input i) := by
  fun_induction setRuns alloc b start num input i firstSet bp with
  | case1 i firstSet bp inside full ih =>
    have set : ∀ j, i ≤ j → j < i + 8 → bitAt input j = true := by
      intro j h1 h2
      rw [bitAt_of_byte full.1 full.2 h1 h2]
      have : ∀ k < 8, (0xFF#8).getLsbD k = true := by decide
      exact this _ (Nat.mod_lt _ (by decide))
    have le := first_le fun f hf => (open_run f hf).1
    obtain ⟨sound', last, same⟩ := ih sound (by simp only [Option.some.injEq]; omega)
    refine ⟨sound', last, same.trans ?_⟩
    rw [pending_extend set inside fun f hf => (open_run f hf).1]
  | case2 i firstSet bp inside notFull blank ih =>
    have clear : ∀ j, i ≤ j → j < i + 8 → bitAt input j = false := by
      intro j h1 h2
      rw [bitAt_of_byte blank.1 blank.2.1 h1 h2]
      simp
    obtain ⟨sound', last, same⟩ := ih sound (by simp)
    refine ⟨sound', last, same.trans ?_⟩
    rw [ahead_skip clear, blank.2.2]
    rfl
  | case3 i firstSet bp inside notFull notBlank one ih =>
    have set : ∀ j, i ≤ j → j < i + 1 → bitAt input j = true := by
      intro j h1 h2
      rwa [show j = i by omega]
    have le := first_le fun f hf => (open_run f hf).1
    obtain ⟨sound', last, same⟩ := ih sound (by simp only [Option.some.injEq]; omega)
    refine ⟨sound', last, same.trans ?_⟩
    rw [pending_extend set inside fun f hf => (open_run f hf).1]
  | case4 i bp inside notFull zero notBlank ih =>
    have clear : ∀ j, i ≤ j → j < i + 1 → bitAt input j = false := by
      intro j h1 h2
      rw [show j = i by omega]
      simpa using zero
    obtain ⟨sound', last, same⟩ := ih sound (by simp)
    refine ⟨sound', last, same.trans ?_⟩
    rw [ahead_skip clear]
    rfl
  | case5 i bp inside notFull zero first notBlank ih =>
    -- the bit is clear: the pending run ends here and goes into the tree
    have clear : ∀ j, i ≤ j → j < i + 1 → bitAt input j = false := by
      intro j h1 h2
      rw [show j = i by omega]
      simpa using zero
    obtain ⟨early, -⟩ := open_run first rfl
    obtain ⟨inserted, covered⟩ := insert_run low fits short sound early (le_of_lt inside)
    obtain ⟨sound', last, same⟩ := ih inserted (by simp)
    refine ⟨sound', last, same.trans ?_⟩
    rw [covered, ahead_skip clear, min_eq_left (le_of_lt inside)]
    simp only [pending, empty_union, union_assoc]
  | case6 i firstSet bp done =>
    refine ⟨sound, fun f hf => (open_run f hf).2, ?_⟩
    have none_left : ahead start num input i = ∅ := by
      ext p
      simp only [ahead, mem_ofPred_eq, mem_empty_iff_false, iff_false]
      omega
    rw [none_left, min_eq_right (by omega), union_empty]

theorem rbSetBmapRange_spec (bp : RbPrivate) (sound : Sound b.size bp) :
    Sound b.size (rbSetBmapRange alloc b bp start num input) ∧
      bits b (rbSetBmapRange alloc b bp start num input) = bits b bp ∪ ahead start num input 0 := by
  obtain ⟨sound', last, same⟩ :=
    @setRuns_spec alloc b start num input low fits short 0 none bp sound (by simp)
  simp only [pending, empty_union] at same
  rw [rbSetBmapRange]
  generalize setRuns alloc b start num input 0 none bp = out at *
  obtain ⟨bp', run⟩ := out
  rcases run with _ | first
  · exact ⟨sound', by simpa [pending] using same⟩
  obtain ⟨inserted, covered⟩ := insert_run low fits short sound' (last first rfl) (le_refl num)
  exact ⟨inserted, covered.trans same⟩

end Import

section Export

variable {size start num : Nat}

theorem fillRun_spec (pos count : Nat) (out : Buffer) (low : start ≤ pos)
    (fits : (pos - start + count + 7) / 8 ≤ out.length) :
    (fillRun start pos count out).length = out.length ∧
      ∀ m, bitAt (fillRun start pos count out) m =
        (decide (pos - start ≤ m ∧ m < pos - start + count) || bitAt out m) := by
  fun_induction fillRun start pos count out with
  | case1 pos out =>
    refine ⟨rfl, fun m => ?_⟩
    simp
  | case2 pos count out nonzero bytes ih =>
    have room : (pos - start) / 8 + count / 8 ≤ out.length := by omega
    obtain ⟨length, bit⟩ := ih (by omega) (by rw [length_memset _ room]; omega)
    refine ⟨length.trans (length_memset _ room), fun m => ?_⟩
    rw [bit m, bitAt_memset _ room]
    have ones : ∀ k < 8, (0xFF#8).getLsbD k = true := by decide
    by_cases byte : 8 * ((pos - start) / 8) ≤ m ∧ m < 8 * ((pos - start) / 8 + count / 8)
    · rw [if_pos byte, ones _ (Nat.mod_lt _ (by decide)), Bool.or_true]
      have inside : pos - start ≤ m ∧ m < pos - start + count := by omega
      simp [inside]
    · rw [if_neg byte]
      congr 2
      simp only [eq_iff_iff]
      omega
  | case3 pos count out nonzero single ih =>
    have room : (pos - start) / 8 < out.length := by omega
    obtain ⟨length, bit⟩ := ih (by omega) (by rw [length_setBit]; omega)
    refine ⟨length.trans (length_setBit _ _), fun m => ?_⟩
    rw [bit m, bitAt_setBit room, ← Bool.or_assoc, ← Bool.decide_or]
    congr 2
    simp only [eq_iff_iff]
    omega

theorem fillRuns_spec (bounded : size < 2 ^ 64) (fits : start + num ≤ size) {xs : List BmapRbExtent}
    (out : Buffer)
    (apart : Apart size xs) (room : (num + 7) / 8 ≤ out.length) :
    ∀ m, (bitAt (fillRuns start num xs out) m = true ↔
      (m < num ∧ Covered xs (start + m)) ∨ bitAt out m = true) := by
  induction xs generalizing out with
  | nil => simp [fillRuns]
  | cons e rest ih =>
    have he := apart.inside e (by simp)
    have stop := stop_eq bounded he
    have top : add64 start num = start + num := add64_eq (by omega)
    have apart' := apart.sublist (List.sublist_cons_self e rest)
    rw [fillRuns, top, stop]
    by_cases past : e.start ≥ start + num
    · rw [if_pos past]
      refine fun m => ⟨.inr, fun h => h.resolve_left ?_⟩
      rintro ⟨hm, hit⟩
      have := apart.first_le hit
      omega
    rw [if_neg past]
    by_cases before : e.start < start ∧ e.start + e.count < start
    · rw [if_pos before]
      refine fun m => (ih out apart' room m).trans ?_
      have out_of_range : ¬ (e.start ≤ start + m ∧ start + m < e.start + e.count) := by omega
      simp [out_of_range]
    rw [if_neg before]
    simp only
    -- the part of the extent inside the range
    obtain ⟨pos, count, eqPos, eqCount, low, high, part⟩ : ∃ pos count,
        (if e.start < start then start else e.start) = pos ∧
        (if add64 pos (if e.start < start then sub64 e.count (sub64 start e.start) else e.count) >
          start + num then sub64 (start + num) pos
          else if e.start < start then sub64 e.count (sub64 start e.start) else e.count) = count ∧
        start ≤ pos ∧ pos + count ≤ start + num ∧
        ∀ p, (pos ≤ p ∧ p < pos + count ↔
          (start ≤ p ∧ p < start + num) ∧ e.start ≤ p ∧ p < e.start + e.count) := by
      by_cases left : e.start < start
      · have cut : sub64 e.count (sub64 start e.start) = e.count - (start - e.start) := by
          rw [sub64_eq (a := start) (by omega) (by omega), sub64_eq (by omega) (by omega)]
        simp only [left, if_true, cut]
        refine ⟨start, _, rfl, rfl, le_refl _, ?_⟩
        rw [add64_eq (by omega), sub64_eq (by omega) (by omega)]
        split <;> exact ⟨by omega, fun p => by omega⟩
      · simp only [left, if_false]
        refine ⟨e.start, _, rfl, rfl, by omega, ?_⟩
        rw [add64_eq (by omega), sub64_eq (by omega) (by omega)]
        split <;> exact ⟨by omega, fun p => by omega⟩
    rw [eqPos, eqCount]
    obtain ⟨sameLength, filled⟩ := @fillRun_spec start pos count out low (by omega)
    refine fun m => (ih (fillRun start pos count out) apart' (by omega) m).trans ?_
    rw [filled m, covered_cons, Bool.or_eq_true, decide_eq_true_eq]
    have := part (start + m)
    have here : pos - start ≤ m ∧ m < pos - start + count ↔
        m < num ∧ e.start ≤ start + m ∧ start + m < e.start + e.count := by omega
    rw [here, and_or_left, ← or_assoc]
    exact or_congr_left or_comm

end Export

/- The walk of the export begins early enough: the extents before it end before
the range. -/
theorem parent_nodes {size start : Nat} (bounded : size < 2 ^ 64) {bp : RbPrivate}
    (apart : Apart size bp.extents) :
    let parent :=
      match descend (bitCmp start) bp.root [] with
      | (.node _ _ ext _, _) => some ext.addr
      | (.nil, up) => up.head?.map (·.value.addr)
    ∃ before, bp.extents = before ++ nodesFromOption bp.root parent ∧ ∀ p, start ≤ p →
        ¬ Covered before p := by
  rcases bit_search bounded apart start with
    ⟨c, l, x, r, up, stopped, low, -, here⟩ | ⟨up, stopped, whole, here, left, -⟩
  · simp only [stopped]
    refine ⟨lefts up ++ l.inorder, ?_, fun p hp hit => ?_⟩
    · rw [nodesFromOption, nodesFrom_at apart.distinct here]
      exact here
    · have := (here ▸ apart).between.covered_before hit
      omega
  · simp only [stopped]
    rcases nodes_from_parent up (whole ▸ apart.distinct) with h | ⟨as, e, last, h⟩
    · rw [whole] at h
      refine ⟨lefts up, by rw [h]; exact here, fun p hp hit => ?_⟩
      have := covered_lt left hit
      omega
    · rw [whole] at h
      refine ⟨as, by rw [h, here, last]; simp, fun p hp hit => ?_⟩
      have := covered_lt (fun a ha => left a (by simp [last, ha])) hit
      omega

/-- On a tree that holds something the export writes exactly the bits of the range. -/
theorem rbGetBmapRange_spec {b : Bounds} {bp : RbPrivate} (sound : Sound b.size bp)
    {start : Nat} (low : b.start ≤ start) (inside : start ≤ b.realEnd)
    (fits : start + num ≤ b.realEnd + 1) (filled : bp.root ≠ .nil) (out : Buffer)
    (room : (num + 7) / 8 ≤ out.length) (m : Nat) (hm : m < num) :
    bitAt (rbGetBmapRange b bp start num out) m = true ↔ start + m ∈ bits b bp := by
  have word := b.realEnd_lt
  have rel := sub64_eq low (by omega)
  have relFits : start - b.start + num ≤ b.size := by
    unfold Bounds.size
    omega
  simp only [rbGetBmapRange, rel]
  rw [if_neg filled]
  obtain ⟨before, split, clear⟩ := @parent_nodes _ (start - b.start) b.size_lt bp sound.apart
  generalize nodesFromOption bp.root _ = nodes at *
  have apart := sound.apart
  rw [split] at apart
  have blank : (memset out 0 0#8 ((num + 7) / 8)).length = out.length := length_memset _ (by omega)
  have bit := fillRuns_spec b.size_lt relFits (memset out 0 0#8 ((num + 7) / 8))
    (apart.sublist (List.sublist_append_right _ _)) (by omega)
  rw [bit m, bitAt_memset _ (by omega), if_pos (by omega)]
  simp only [hm, true_and, BitVec.getLsbD_zero, Bool.false_eq_true, or_false, bits,
    mem_ofPred_eq, split, covered_append]
  rw [show start + m - b.start = start - b.start + m by omega]
  have := clear (start - b.start + m) (by omega)
  constructor
  · exact fun h => ⟨by omega, .inr h⟩
  · exact fun h => h.2.resolve_left this

end E2fs.Rb
