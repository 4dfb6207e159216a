import E2fs.Lib.Memory

/-! Byte content addressed from zero, pieces of which are replaced, and copies between such
content and memory. -/
namespace E2fs.Device
open Memory List Nat

abbrev Content := Nat → UInt8

def zeros : Content := fun _ => 0

/-- `n` bytes from position `p` on replaced. -/
def patch (c : Content) (p n : Nat) (new : Nat → UInt8) : Content := fun q =>
  if p ≤ q ∧ q < p + n then new (q - p) else c q

/- `n` bytes copied to memory. -/
def copyTo (m : Mem) (p : Int) (n : Nat) (new : Nat → UInt8) : Mem := fun q =>
  if p ≤ q ∧ q < p + n then new (q - p).toNat else m q

variable {c : Content} {p n q : Nat} {new new' : Nat → UInt8} {m : Mem}

theorem patch_inside (low : p ≤ q) (high : q < p + n) : patch c p n new q = new (q - p) :=
  if_pos ⟨low, high⟩

theorem patch_add {j : Nat} (lt : j < n) : patch c p n new (p + j) = new j := by
  rw [patch_inside (Nat.le_add_right p j) (by omega), Nat.add_sub_cancel_left]

theorem patch_apart (apart : q < p ∨ p + n ≤ q) : patch c p n new q = c q := if_neg (by omega)

theorem patch_eq {v : UInt8} (inside : p ≤ q → q < p + n → v = new (q - p)) (before : c q = v) :
    patch c p n new q = v := by
  unfold patch
  split_ifs with within
  · exact (inside within.1 within.2).symm
  · exact before

@[simp] theorem patch_none : patch c p 0 new = c := funext fun _ => patch_apart (by omega)

theorem patch_congr (same : ∀ j < n, new j = new' j) : patch c p n new = patch c p n new' := by
  funext q
  unfold patch
  split
  · exact same _ (by omega)
  · rfl

theorem patch_append (k : Nat) :
    patch (patch c p n new) (p + n) k new' = patch c p (n + k) fun j => if j < n then new j
    else new' (j - n) := by
  funext q
  by_cases first : p ≤ q ∧ q < p + n
  · rw [patch_apart (by omega), patch_inside first.1 first.2, patch_inside first.1 (by omega),
      if_pos (by omega)]
  · by_cases second : p + n ≤ q ∧ q < p + n + k
    · rw [patch_inside second.1 second.2, patch_inside (by omega) (by omega), if_neg (by omega),
        Nat.sub_sub]
    · rw [patch_apart (by omega), patch_apart (by omega), patch_apart (by omega)]

/- One content up to a position and another one from there on. -/
def onto (c : Content) (p : Nat) (rest : Content) : Content :=
  fun q => if q < p then c q else rest (q - p)

theorem onto_zero (rest : Content) : onto c 0 rest = rest :=
  funext fun q => by rw [onto, if_neg (Nat.not_lt_zero q), Nat.sub_zero]

theorem onto_zeros (empty : ∀ q, p ≤ q → c q = 0) : onto c p zeros = c := by
  funext q
  rw [onto]
  split
  · rfl
  · exact (empty q (by omega)).symm

theorem onto_piece (rest : Content) :
    onto c p (fun q => if q < n then new q else rest (q - n)) = onto (patch c p n new)
    (p + n) rest := by
  funext q
  rw [onto, onto]
  by_cases front : q < p
  · rw [if_pos front, if_pos (by omega), patch_apart (.inl front)]
  · by_cases own : q < p + n
    · rw [if_neg front, if_pos own, if_pos (by omega), patch_inside (by omega) own]
    · rw [if_neg front, if_neg own, if_neg (by omega), Nat.sub_sub]

theorem patch_zeros (empty : ∀ q, p ≤ q → c q = 0) (zero : ∀ j, new j = 0) :
    patch c p n new = c := by
  funext q
  rw [patch]
  split_ifs with inside
  · rw [zero, empty q inside.1]
  · rfl

theorem patch_same (same : ∀ j < n, c (p + j) = new j) : patch c p n new = c := by
  funext q
  rw [patch]
  split_ifs with inside
  · rw [← same (q - p) (by omega), Nat.add_sub_cancel' inside.1]
  · rfl

theorem patch_more (k : Nat) :
    patch (patch c p n new) (p + n) k (fun j => new (n + j)) = patch c p (n + k) new := by
  rw [patch_append]
  refine patch_congr fun j _ => ?_
  split
  · rfl
  · rw [Nat.add_sub_cancel' (by omega)]

def bytesAt (c : Content) (p n : Nat) : List UInt8 := (List.range n).map fun j => c (p + j)

@[simp] theorem length_bytesAt (c : Content) (p n : Nat) : (bytesAt c p n).length = n := by
  simp [bytesAt]

theorem bytesAt_congr {c' : Content} {p' : Nat} (same : ∀ j < n, c' (p' + j) = c (p + j)) :
    bytesAt c' p' n = bytesAt c p n := map_congr_left fun j mem => same j (mem_range.mp mem)

theorem bytesAt_add (c : Content) (p n k : Nat) :
    bytesAt c p (n + k) = bytesAt c p n ++ bytesAt c (p + n) k := by
  simp only [bytesAt, range_add, map_append, map_map, Function.comp_def, add_assoc]

theorem lt_of_block {b i j k : Nat} (lt : i < k) (small : j < b) : i * b + j < k * b :=
  calc i * b + j < (i + 1) * b := by rw [Nat.add_one_mul]; omega
    _ ≤ k * b := Nat.mul_le_mul_right b lt

theorem patch_block {b i j k s : Nat} (room : s + n ≤ b) (lt : j < b) :
    patch c (k * b + s) n new (i * b + j) = if i = k then patch (fun j => c (k * b + j)) s n new j
    else c (i * b + j) := by
  split_ifs with own
  · rw [own, patch, patch]
    simp only [Nat.add_sub_add_left, add_assoc, add_le_add_iff_left, add_lt_add_iff_left]
  · refine patch_apart ?_
    rcases lt_or_gt_of_ne own with below | above
    · have := lt_of_block below lt
      omega
    · have := Nat.mul_le_mul_right b above
      rw [Nat.add_one_mul] at this
      omega

theorem patch_eq_iff {b w k : Nat} (pos : 0 < b) (le : w ≤ k) :
    patch c p (w * b) new = patch c p (k * b) new' ↔
      ∀ i < k, ∀ j < b, (if i < w then new (i * b + j) else c (p + (i * b + j))) =
        new' (i * b + j) := by
  have shorter := Nat.mul_le_mul_right b le
  constructor
  · intro same i lt j small
    have bound := lt_of_block lt small
    have here := congrFun same (p + (i * b + j))
    rw [@patch_add c p (k * b) _ _ (by omega)] at here
    rw [← here]
    split_ifs with within
    · have := lt_of_block within small
      rw [patch_add (by omega)]
    · have : w * b ≤ i * b := Nat.mul_le_mul_right b (Nat.le_of_not_lt within)
      rw [patch_apart (by omega)]
  · intro same
    funext q
    by_cases inside : p ≤ q ∧ q < p + k * b
    · obtain ⟨r, rfl⟩ := Nat.exists_eq_add_of_le inside.1
      have split := div_add_mod' r b
      have lt : r / b < k := Nat.div_lt_of_lt_mul (by rw [mul_comm]; omega)
      have here := same (r / b) lt (r % b) (mod_lt r pos)
      rw [split] at here
      rw [@patch_add c p (k * b) _ _ (by omega), ← here]
      split_ifs with within
      · have := lt_of_block within (mod_lt r pos)
        rw [patch_add (by omega)]
      · have : w * b ≤ r / b * b := Nat.mul_le_mul_right b (Nat.le_of_not_lt within)
        rw [patch_apart (by omega)]
    · rw [patch_apart (by omega), patch_apart (by omega)]

theorem copyTo_congr {p : Int} (same : ∀ j < n, new j = new' j) :
    copyTo m p n new = copyTo m p n new' := by
  funext q
  unfold copyTo
  split
  · exact same _ (by omega)
  · rfl

theorem copyTo_inside {p q : Int} (low : p ≤ q) (high : q < p + n) :
    copyTo m p n new q = new (q - p).toNat :=
  if_pos ⟨low, high⟩

theorem copyTo_apart {p q : Int} (apart : q < p ∨ p + n ≤ q) : copyTo m p n new q = m q :=
  if_neg (by omega)

end E2fs.Device
