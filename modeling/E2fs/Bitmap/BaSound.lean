import E2fs.Bitmap.Ba

/-! The bit array as a set of positions, and its two searches. -/
namespace E2fs.Ba
open Word Bytes Bitmap First Set Option Nat

/- The array that `ba_alloc_private_data` allocates: a byte for every eight bits. -/
def Sized (b : Bounds) (bp : BaPrivate) : Prop :=
  bp.bitarray.length = (b.realEnd - b.start) / 8 + 1

def bits (b : Bounds) (bp : BaPrivate) : Set Nat :=
  {p | b.start ≤ p ∧ p ≤ b.realEnd ∧ bitAt bp.bitarray (p - b.start)}

theorem testBit64_eq (nr : Nat) (bs : Buffer) :
    testBit64 nr bs = if bitAt bs nr then 2 ^ (nr % 8) else 0 := by
  have small : 2 ^ (nr % 8) < 2 ^ 8 := Nat.pow_lt_pow_right (by decide) (mod_lt _ (by decide))
  rw [testBit64, show 1#8 <<< (nr % 8) = BitVec.twoPow 8 (nr % 8) from rfl, BitVec.twoPow_and,
    apply_ite BitVec.toNat, BitVec.toNat_twoPow, mod_eq_of_lt small]
  rfl

theorem testBit64_ne_zero (nr : Nat) (bs : Buffer) : testBit64 nr bs ≠ 0 ↔ bitAt bs nr = true := by
  rw [testBit64_eq]
  split <;> simp [*]

section Operations

variable {b : Bounds} {bp : BaPrivate} {arg num : Nat}

theorem baTestBmap_bits (low : b.start ≤ arg) (high : arg ≤ b.realEnd) : baTestBmap b bp arg ≠ 0 ↔
    arg ∈ bits b bp := by
  rw [baTestBmap, testBit64_ne_zero, sub64_eq low (lt_of_le_of_lt high b.realEnd_lt)]
  simp [bits, low, high]

/- The loop over the bits of a range, for a body that fixes the bit it is given. -/
theorem eachBit_spec {f : Buffer → Nat → Buffer} {value : Bool}
    (body : ∀ bs n, n / 8 < bs.length → (f bs n).length = bs.length ∧
      ∀ m, bitAt (f bs n) m = if m = n then value else bitAt bs m)
    (low : b.start ≤ arg) (i left : Nat) (bs : Buffer)
    (fits : arg + i + left ≤ b.realEnd + 1) (len : bs.length = (b.realEnd - b.start) / 8 + 1) :
    (eachBit f b arg i left bs).length = bs.length ∧ ∀ m, bitAt (eachBit f b arg i left bs) m =
        if arg - b.start + i ≤ m ∧ m < arg - b.start + i + left then value else bitAt bs m := by
  induction left generalizing i bs with
  | zero =>
    refine ⟨rfl, fun m => ?_⟩
    rw [eachBit, if_neg (by omega)]
  | succ left ih =>
    have word := b.realEnd_lt
    have rel : sub64 (add64 arg i) b.start = arg - b.start + i := by
      rw [add64_eq (by omega), sub64_eq (by omega) (by omega)]
      omega
    rw [eachBit, rel]
    obtain ⟨same, bit⟩ := body bs (arg - b.start + i) (by omega)
    obtain ⟨length, rest⟩ := ih (i + 1) (f bs (arg - b.start + i)) (by omega) (by omega)
    refine ⟨by omega, fun m => ?_⟩
    rw [rest m, bit m]
    by_cases here : m = arg - b.start + i
    · rw [if_neg (by omega), if_pos here, if_pos (by omega)]
    · by_cases later : arg - b.start + (i + 1) ≤ m ∧ m < arg - b.start + (i + 1) + left
      · rw [if_pos later, if_pos (by omega)]
      · rw [if_neg later, if_neg here, if_neg (by omega)]

variable (sized : Sized b bp) (low : b.start ≤ arg)
include sized low

theorem eachBit_bits {f : Buffer → Nat → Buffer} {v : Bool} (fits : arg + num ≤ b.realEnd + 1)
    (body : ∀ bs n, n / 8 < bs.length → (f bs n).length = bs.length ∧
      ∀ m, bitAt (f bs n) m = if m = n then v else bitAt bs m) :
    let bp' := { bp with bitarray := eachBit f b arg 0 num bp.bitarray }
    Sized b bp' ∧ ∀ p, p ∈ bits b bp' ↔
        if arg ≤ p ∧ p < arg + num then v = true else p ∈ bits b bp := by
  obtain ⟨length, bit⟩ := eachBit_spec body low 0 num bp.bitarray (by omega) sized
  refine ⟨length.trans sized, fun p => ?_⟩
  simp only [bits, mem_ofPred_eq, bit]
  by_cases inside : arg ≤ p ∧ p < arg + num
  · rw [if_pos (by omega), if_pos inside]
    exact ⟨fun h => h.2.2, fun h => ⟨by omega, by omega, h⟩⟩
  rw [if_neg inside]
  by_cases left : b.start ≤ p
  · rw [if_neg (by omega)]
  · simp [left]

theorem baMarkBmapExtent_bits (fits : arg + num ≤ b.realEnd + 1) :
    Sized b (baMarkBmapExtent b bp arg num) ∧
      bits b (baMarkBmapExtent b bp arg num) = bits b bp ∪ Ico arg (arg + num) := by
  obtain ⟨sized', same⟩ :=
      eachBit_bits (f := setBit) (v := true) sized low fits fun bs n inside => by
    refine ⟨length_setBit bs n, fun m => ?_⟩
    by_cases h : m = n <;> simp [bitAt_setBit inside, h]
  refine ⟨sized', ext fun p => (same p).trans ?_⟩
  by_cases inside : arg ≤ p ∧ p < arg + num <;> simp [inside]

theorem baUnmarkBmapExtent_bits (fits : arg + num ≤ b.realEnd + 1) :
    Sized b (baUnmarkBmapExtent b bp arg num) ∧
      bits b (baUnmarkBmapExtent b bp arg num) = bits b bp \ Ico arg (arg + num) := by
  obtain ⟨sized', same⟩ :=
      eachBit_bits (f := clearBit) (v := false) sized low fits fun bs n inside => by
    refine ⟨length_clearBit bs n, fun m => ?_⟩
    by_cases h : m = n <;> simp [bitAt_clearBit inside, h]
  refine ⟨sized', ext fun p => (same p).trans ?_⟩
  by_cases inside : arg ≤ p ∧ p < arg + num <;> simp [inside]

theorem baMarkBmap_bits (high : arg ≤ b.realEnd) : Sized b (baMarkBmap b bp arg).1 ∧
      bits b (baMarkBmap b bp arg).1 = bits b bp ∪ Ico arg (arg + 1) ∧
      ((baMarkBmap b bp arg).2 ≠ 0 ↔ arg ∈ bits b bp) := by
  have one : (baMarkBmap b bp arg).1 = baMarkBmapExtent b bp arg 1 := by
    rw [baMarkBmapExtent, eachBit, eachBit, add64_eq (lt_of_le_of_lt high b.realEnd_lt)]
    rfl
  obtain ⟨sized', same⟩ := @baMarkBmapExtent_bits b bp arg 1 sized low (succ_le_succ high)
  exact ⟨one ▸ sized', one ▸ same, baTestBmap_bits low high⟩

theorem baUnmarkBmap_bits (high : arg ≤ b.realEnd) : Sized b (baUnmarkBmap b bp arg).1 ∧
      bits b (baUnmarkBmap b bp arg).1 = bits b bp \ Ico arg (arg + 1) ∧
      ((baUnmarkBmap b bp arg).2 ≠ 0 ↔ arg ∈ bits b bp) := by
  have one : (baUnmarkBmap b bp arg).1 = baUnmarkBmapExtent b bp arg 1 := by
    rw [baUnmarkBmapExtent, eachBit, eachBit, add64_eq (lt_of_le_of_lt high b.realEnd_lt)]
    rfl
  obtain ⟨sized', same⟩ := @baUnmarkBmapExtent_bits b bp arg 1 sized low (succ_le_succ high)
  exact ⟨one ▸ sized', one ▸ same, baTestBmap_bits low high⟩

end Operations

variable {b : Bounds} {bp : BaPrivate}

section Search

variable {want : Bool} {bs : Buffer}

theorem wanted_iff (p : Nat) : wanted want bs p = true ↔ bitAt bs p = want := by
  unfold wanted
  have h := testBit64_ne_zero p bs
  cases hb : bitAt bs p <;> cases want <;> simp_all

theorem miss_of_not_wanted {p : Nat} (hit : ¬ wanted want bs p = true) :
    ∀ q, p ≤ q → q < p + 1 → ¬ bitAt bs q = want := by
  intro q low high
  rw [show q = p by omega, ← wanted_iff]
  exact hit

theorem scanBits_spec (count bitpos : Nat) : (∃ p, scanBits want bs count bitpos = .inl p ∧
      IsFirst (fun q => bitAt bs q = want) bitpos (bitpos + count) (some p)) ∨
    (∃ n ≤ count, scanBits want bs count bitpos = .inr (bitpos + n, count - n) ∧
      (count = n ∨ (bitpos + n) % 8 = 0) ∧ ∀ q, bitpos ≤ q → q < bitpos + n →
      ¬ bitAt bs q = want) := by
  induction count generalizing bitpos with
  | zero => exact .inr ⟨0, le_refl _, rfl, .inl rfl, fun q _ _ => by omega⟩
  | succ count ih =>
    rw [scanBits]
    by_cases edge : bitpos % 8 = 0
    · rw [if_pos edge]
      exact .inr ⟨0, by omega, rfl, .inr edge, fun q _ _ => by omega⟩
    rw [if_neg edge]
    by_cases hit : wanted want bs bitpos = true
    · rw [if_pos hit]
      exact .inl ⟨bitpos, rfl, IsFirst.here ((wanted_iff _).mp hit) (by omega)⟩
    rw [if_neg hit]
    have miss := miss_of_not_wanted hit
    rcases ih (bitpos + 1) with ⟨p, found, first⟩ | ⟨n, le, stopped, edge', dull⟩
    · refine .inl ⟨p, found, IsFirst.skip (le_succ _) miss ?_⟩
      rwa [show bitpos + (count + 1) = bitpos + 1 + count by omega]
    refine .inr ⟨n + 1, by omega, ?_, ?_, ?_⟩
    · rw [stopped]
      congr 2 <;> omega
    · omega
    · intro q low high
      by_cases here : q < bitpos + 1
      · exact miss q low here
      · exact dull q (by omega) (by omega)

theorem dullByte_bits {i : Nat} (dull : byteAt bs i = dullByte want) {q : Nat} (low : 8 * i ≤ q)
    (high : q < 8 * i + 8) : ¬ bitAt bs q = want := by
  have h := (byteAt_eq_iff bs i _).mp dull (q - 8 * i) (by omega)
  rw [show 8 * i + (q - 8 * i) = q by omega] at h
  rw [h]
  have dull_bit : ∀ j < 8, (dullByte want).getLsbD j ≠ want := by
    cases want <;> decide
  exact dull_bit _ (by omega)

theorem dullWord_bits {i : Nat} (dull : wordAt bs i = dullWord want) {q : Nat} (low : 8 * i ≤ q)
    (high : q < 8 * i + 64) : ¬ bitAt bs q = want := by
  have bytes : ∀ j < 8, byteAt bs (i + j) = dullByte want := by
    intro j hj
    unfold wordAt dullWord at dull
    unfold dullByte
    apply BitVec.eq_of_toNat_eq
    cases want
    · simp only [Bool.false_eq_true, if_false] at dull ⊢
      interval_cases j <;> simp only [BitVec.reduceToNat, add_zero] <;> omega
    · simp only [if_true] at dull ⊢
      interval_cases j <;> simp only [BitVec.reduceToNat, add_zero] <;> omega
  have byte := bytes (q / 8 - i) (by omega)
  exact dullByte_bits byte (by omega) (by omega)

theorem alignBytes_spec (addr count bitpos : Nat) (edge : bitpos % 8 = 0) :
    ∃ n ≤ count, ∃ found, alignBytes want bs addr count bitpos = (bitpos + n, count - n, found) ∧
      (bitpos + n) % 8 = 0 ∧ ∀ q, bitpos ≤ q → q < bitpos + n → ¬ bitAt bs q = want := by
  induction count, bitpos using alignBytes.induct want bs addr with
  | case1 count bitpos aligned =>
    refine ⟨0, by omega, false, ?_, edge, fun q _ _ => by omega⟩
    rw [alignBytes, if_pos aligned]
    rfl
  | case2 count bitpos unaligned found =>
    refine ⟨0, by omega, true, ?_, edge, fun q _ _ => by omega⟩
    rw [alignBytes, if_neg unaligned, if_pos found]
    rfl
  | case3 count bitpos unaligned dull ih =>
    obtain ⟨n, le, found, stopped, edge', rest⟩ := ih (by omega)
    refine ⟨n + 8, by omega, found, ?_, by omega, ?_⟩
    · rw [alignBytes, if_neg unaligned, if_neg dull, stopped,
        show bitpos + (n + 8) = bitpos + 8 + n by omega,
        show count + 8 - (n + 8) = count - n by omega]
    · intro q low high
      by_cases here : q < bitpos + 8
      · exact dullByte_bits (not_not.mp dull) (by omega) (by omega)
      · exact rest q (by omega) (by omega)
  | case4 count bitpos short =>
    refine ⟨0, by omega, false, ?_, edge, fun q _ _ => by omega⟩
    rw [alignBytes]
    · rfl
    · exact short

theorem passed_spec (dull : Nat → Bool) (size i pos : Nat) : passed dull size i pos ≤ i ∧
      ∀ j < passed dull size i pos, dull (pos + size * j) = true := by
  induction i generalizing pos with
  | zero => simp [passed]
  | succ i ih =>
    rw [passed]
    by_cases h : dull pos = true
    · rw [if_pos h]
      obtain ⟨le, all⟩ := ih (pos + size)
      refine ⟨by omega, fun j hj => ?_⟩
      rcases j with _ | j
      · simpa using h
      have := all j (by omega)
      rwa [show pos + size * (j + 1) = pos + size + size * j by ring]
    · rw [if_neg h]
      exact ⟨by omega, fun j hj => by omega⟩

theorem lastBits_spec (count bitpos : Nat) :
    IsFirst (fun q => bitAt bs q = want) bitpos (bitpos + count)
    (lastBits want bs count bitpos) := by
  induction count generalizing bitpos with
  | zero => exact fun q _ _ => by omega
  | succ count ih =>
    rw [lastBits]
    by_cases hit : wanted want bs bitpos = true
    · rw [if_pos hit]
      exact IsFirst.here ((wanted_iff _).mp hit) (by omega)
    rw [if_neg hit]
    refine IsFirst.skip (le_succ _) (miss_of_not_wanted hit) ?_
    rw [show bitpos + (count + 1) = bitpos + 1 + count by omega]
    exact ih (bitpos + 1)

theorem scanBytes_spec (addr bitpos count : Nat) (edge : bitpos % 8 = 0) :
    IsFirst (fun q => bitAt bs q = want) bitpos (bitpos + count)
    (scanBytes want bs addr bitpos count) := by
  obtain ⟨m, le, found, aligned, edge', dull⟩ := alignBytes_spec addr count bitpos edge
  rw [scanBytes, aligned]
  refine IsFirst.skip (Nat.le_add_right bitpos m) dull ?_
  rw [show bitpos + count = bitpos + m + (count - m) by omega]
  generalize bitpos + m = pos at *
  generalize count - m = rest at *
  cases found with
  | true => exact lastBits_spec rest pos
  | false =>
    -- whole words, then whole bytes, are passed over; the last loop does the rest
    simp only
    obtain ⟨le64, words⟩ :=
      passed_spec (fun p => wordAt bs p == dullWord want) 8 (rest / 64) (pos / 8)
    generalize passed (fun p => wordAt bs p == dullWord want) 8 (rest / 64) (pos / 8) = w at *
    refine IsFirst.skip (Nat.le_add_right pos (64 * w)) ?_ ?_
    · intro q low high
      have word := beq_iff_eq.mp (words ((q - pos) / 64) (by omega))
      exact dullWord_bits word (by omega) (by omega)
    obtain ⟨le8, bytes⟩ := passed_spec (fun p => byteAt bs p == dullByte want) 1
      ((rest - 64 * w) / 8) ((pos + 64 * w) / 8)
    generalize passed (fun p => byteAt bs p == dullByte want) 1 ((rest - 64 * w) / 8)
      ((pos + 64 * w) / 8) = y at *
    refine IsFirst.skip (Nat.le_add_right (pos + 64 * w) (8 * y)) ?_ ?_
    · intro q low high
      have byte := beq_iff_eq.mp (bytes ((q - (pos + 64 * w)) / 8) (by omega))
      exact dullByte_bits byte (by omega) (by omega)
    rw [show pos + rest = pos + 64 * w + 8 * y + (rest - 64 * w - 8 * y) by omega]
    exact lastBits_spec _ _

/-- Whatever the array holds and wherever it is aligned, the five loops find the
first wanted bit of the range. -/
theorem findFirst_spec (addr bitpos count : Nat) :
    IsFirst (fun q => bitAt bs q = want) bitpos (bitpos + count)
    (findFirst want bs addr bitpos count) := by
  unfold findFirst
  rcases scanBits_spec count bitpos with
    ⟨p, found, first⟩ | ⟨n, le, stopped, edge, dull⟩
  · rw [found]
    exact first
  rw [stopped]
  refine IsFirst.skip (Nat.le_add_right bitpos n) dull ?_
  by_cases none : count - n = 0
  · simp only [none, if_true]
    exact fun q low high => by omega
  · simp only [none, if_false]
    rw [show bitpos + count = bitpos + n + (count - n) by omega]
    exact scanBytes_spec addr _ _ (by omega)

theorem search_spec {start stop : Nat} (low : b.start ≤ start) (order : start ≤ stop)
    (high : stop ≤ b.realEnd) :
    FirstResult (fun p => p ∈ bits b bp ↔ want = true) start stop
      (search want b bp start stop) := by
  have word := b.realEnd_lt
  have size := b.size_lt
  have relStart := sub64_eq low (by omega)
  have count : add64 (sub64 stop start) 1 = stop - start + 1 := by
    rw [sub64_eq order (by omega), add64_eq (by omega)]
  have first : IsFirst (fun p => p ∈ bits b bp ↔ want = true) start (stop + 1)
      ((findFirst want bp.bitarray bp.addr (start - b.start) (stop - start + 1)).map
          (· + b.start)) := by
    have h := @findFirst_spec want bp.bitarray bp.addr (start - b.start) (stop - start + 1)
    have moved : IsFirst (fun q => q + b.start ∈ bits b bp ↔ want = true) (start - b.start)
        (start - b.start + (stop - start + 1))
        (findFirst want bp.bitarray bp.addr (start - b.start) (stop - start + 1)) := by
      refine h.congr fun q h1 h2 => ?_
      have inside : q + b.start ≤ b.realEnd := by omega
      simp only [bits, mem_ofPred_eq, Nat.le_add_left, inside, true_and]
      cases want <;> simp
    have shifted := IsFirst.shift (P := fun q => q ∈ bits b bp ↔ want = true) b.start moved
    rwa [Nat.sub_add_cancel low,
      show start - b.start + (stop - start + 1) + b.start = stop + 1 by omega] at shifted
  simp only [search, relStart, count]
  generalize findFirst want bp.bitarray bp.addr (start - b.start) (stop - start + 1) = found
    at first ⊢
  rcases found with _ | p
  · exact first
  simp only [map_some] at first
  have below := first.2.1
  have back : add64 p b.start = p + b.start := add64_eq (by omega)
  simp only [elim_some, back]
  exact first

end Search

/- The range test: masks for the bits of the first and the last byte, whole bytes
between them. -/
section Clear

variable {bs : Buffer}

theorem getLsbD_markBits {count bit : Nat} (mask : BitVec 8) (low : count ≤ bit + 1)
    (high : bit < 8) (j : Nat) : (markBits count bit mask).getLsbD j =
      (mask.getLsbD j || decide (bit < j + count ∧ j ≤ bit)) := by
  induction count generalizing bit mask with
  | zero => simp [markBits]
  | succ count ih =>
    rw [markBits, ih _ (by omega) (by omega), BitVec.getLsbD_or, getLsbD_one_shift _ _ high,
      Bool.or_assoc, ← Bool.decide_or]
    congr 2
    simp only [eq_iff_iff]
    omega

theorem markBits_and_eq_zero {count bit : Nat} (low : count ≤ bit + 1) (high : bit < 8) (i : Nat) :
    markBits count bit 0#8 &&& byteAt bs i = 0#8 ↔
      ∀ q, 8 * i + bit < q + count → q ≤ 8 * i + bit → bitAt bs q = false := by
  constructor
  · intro zero q after before
    have at_bit := congrArg (fun m => m.getLsbD (q - 8 * i)) zero
    simp only [BitVec.getLsbD_and, getLsbD_markBits 0#8 low high, BitVec.getLsbD_zero,
      Bool.false_or] at at_bit
    rw [decide_eq_true (show bit < q - 8 * i + count ∧ q - 8 * i ≤ bit by omega), Bool.true_and]
      at at_bit
    rw [bitAt, show q / 8 = i by omega, show q % 8 = q - 8 * i by omega]
    exact at_bit
  · intro clear
    apply BitVec.eq_of_getLsbD_eq
    intro j hj
    rw [BitVec.getLsbD_and, getLsbD_markBits 0#8 low high, BitVec.getLsbD_zero, Bool.false_or]
    by_cases inside : bit < j + count ∧ j ≤ bit
    · have h := clear (8 * i + j) (by omega) (by omega)
      rw [bitAt, show (8 * i + j) / 8 = i by omega, show (8 * i + j) % 8 = j by omega] at h
      simp [h]
    · simp [inside]

def Zeros (bs : Buffer) (lo hi : Nat) : Prop := ∀ q, lo ≤ q → q < hi → bitAt bs q = false

theorem Zeros.iff_right {lo mid hi : Nat} (front : Zeros bs lo mid) (le : lo ≤ mid) :
    Zeros bs mid hi ↔ Zeros bs lo hi := by
  refine ⟨fun rest q low high => ?_, fun all q low => all q (le.trans low)⟩
  exact (lt_or_ge q mid).elim (front q low) (rest q · high)

theorem zero_bytes (pos n : Nat) : ((List.range n).all fun i => byteAt bs (pos + i) == 0#8) = true ↔
      Zeros bs (8 * pos) (8 * (pos + n)) := by
  simp only [List.all_eq_true, List.mem_range, beq_iff_eq, byteAt_eq_iff, BitVec.getLsbD_zero]
  constructor
  · intro clear q low high
    have h := clear (q / 8 - pos) (by omega) (q % 8) (mod_lt _ (by decide))
    rwa [show 8 * (pos + (q / 8 - pos)) + q % 8 = q by omega] at h
  · intro clear i hi j hj
    exact clear _ (by omega) (by omega)

theorem memIsZero_spec (pos len : Nat) : memIsZero bs pos len ≠ 0 ↔ Zeros bs (8 * pos)
    (8 * (pos + len)) := by
  induction pos, len using memIsZero.induct bs with
  | case1 pos len whole zero ih =>
    rw [memIsZero, if_pos whole, if_pos zero, ih,
      ((zero_bytes pos 256).mp zero).iff_right (by omega), add_assoc, Nat.add_sub_cancel' whole]
  | case2 pos len whole dirty =>
    rw [memIsZero, if_pos whole, if_neg dirty]
    refine iff_of_false (by simp) fun clear => dirty ?_
    exact (zero_bytes pos 256).mpr fun q low high => clear q low (by omega)
  | case3 pos len short zero =>
    rw [memIsZero, if_neg short, if_pos zero]
    exact iff_of_true one_ne_zero ((zero_bytes pos len).mp zero)
  | case4 pos len short dirty =>
    rw [memIsZero, if_neg short, if_neg dirty]
    exact iff_of_false (by simp) fun clear => dirty ((zero_bytes pos len).mpr clear)

theorem testClearBytes_spec (startByte lenByte lenBit : Nat) (small : lenBit < 8) :
    testClearBytes bs startByte lenByte lenBit ≠ 0 ↔ Zeros bs (8 * startByte)
    (8 * (startByte + lenByte) + lenBit) := by
  unfold testClearBytes
  split
  · rename_i part
    have last :=
      @markBits_and_eq_zero bs lenBit (lenBit - 1) (by omega) (by omega) (startByte + lenByte)
    split
    · rename_i dirty
      refine iff_of_false (by simp) fun clear => dirty (last.mpr fun q after before => ?_)
      exact clear q (by omega) (by omega)
    rename_i none
    have tail := last.mp (not_not.mp none)
    split_ifs with bare
    · exact iff_of_true one_ne_zero fun q low high => tail q (by omega) (by omega)
    rw [memIsZero_spec]
    exact ⟨fun bytes => (bytes.iff_right (by omega)).mp fun q low high =>
      tail q (by omega) (by omega), fun clear q low high => clear q low (by omega)⟩
  · rename_i whole
    rw [memIsZero_spec, not_not.mp whole]
    rfl

theorem baTestClearBmapExtent_spec {arg num start : Nat} (rel : sub64 arg b.start = start) :
    baTestClearBmapExtent b bp arg num ≠ 0 ↔ Zeros bp.bitarray start (start + num) := by
  simp only [baTestClearBmapExtent, rel]
  split
  · rename_i inner
    -- the mask has the bits of the first byte, `mark` of them
    have top : (if num < 8 - start % 8 then num + start % 8 - 1 else 7) =
        start % 8 + (if num < 8 - start % 8 then num else 8 - start % 8) - 1 := by
      split <;> omega
    have few : (if num < 8 - start % 8 then num else 8 - start % 8) = min num (8 - start % 8) := by
      split <;> omega
    rw [top, few]
    generalize is : min num (8 - start % 8) = mark
    have first := @markBits_and_eq_zero bp.bitarray mark (start % 8 + mark - 1) (by omega)
      (by omega) (start / 8)
    split
    · rename_i dirty
      refine iff_of_false (by simp) fun clear => dirty (first.mpr fun q after before => ?_)
      exact clear q (by omega) (by omega)
    rename_i none
    have head := first.mp (not_not.mp none)
    split
    · exact iff_of_true one_ne_zero fun q low high => head q (by omega) (by omega)
    have front : Zeros bp.bitarray start (8 * (start / 8 + 1)) :=
      fun q low high => head q (by omega) (by omega)
    rw [testClearBytes_spec _ _ _ (mod_lt _ (by decide)), front.iff_right (by omega),
      show 8 * (start / 8 + 1 + (num - mark) / 8) + (num - mark) % 8 = start + num by omega]
  · rename_i edge
    rw [testClearBytes_spec _ _ _ (mod_lt _ (by decide)), show 8 * (start / 8) = start by omega,
      show 8 * (start / 8 + num / 8) + num % 8 = start + num by omega]

theorem baTestClearBmapExtent_bits {arg num : Nat}
    (low : b.start ≤ arg) (inside : arg ≤ b.realEnd) (high : arg + num ≤ b.realEnd + 1) :
    baTestClearBmapExtent b bp arg num ≠ 0 ↔ ∀ p ∈ Ico arg (arg + num), p ∉ bits b bp := by
  rw [baTestClearBmapExtent_spec (sub64_eq low (lt_of_le_of_lt inside b.realEnd_lt))]
  constructor
  · intro clear p ⟨after, before⟩ set
    have h := clear (p - b.start) (by omega) (by omega)
    exact Bool.false_ne_true (h.symm.trans set.2.2)
  · intro clear q after before
    have h := clear (q + b.start) ⟨by omega, by omega⟩
    simp only [bits, mem_ofPred_eq, Nat.add_sub_cancel, not_and, Bool.not_eq_true] at h
    exact h (by omega) (by omega)

end Clear

end E2fs.Ba
