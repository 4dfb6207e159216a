import E2fs.Iterate.Walk

/-! A callback that only looks: the iterator makes the calls of the walk, and nothing
else changes. -/
namespace E2fs.Iterate
open BlockTree List Bool

/-- The callback `f` changes nothing but its private data and does not abort. -/
structure Quiet {σ : Type} (it : Iteration σ) (f : σ → Call → σ) : Prop where
  func : ∀ s c, it.func s c = (f s c, c.blk, Ret.zero)
  append : it.flags.append = false

section Blocks

variable {σ : Type} {n : Nat} {it : Iteration σ} {f : σ → Call → σ}
  {loop : Nat → Ctx σ n → Ctx σ n × List Nat × Ret × Ret}

def Ctx.after (f : σ → Call → σ) (ctx : Ctx σ n) (calls : List Call) (width : Nat) : Ctx σ n :=
  { ctx with priv := calls.foldl f ctx.priv, bcount := ctx.bcount + width }

@[simp] theorem Ctx.bcount_after (ctx : Ctx σ n) (calls : List Call) (width : Nat) :
    (ctx.after f calls width).bcount = ctx.bcount + width := rfl

theorem Ctx.after_after (ctx : Ctx σ n) (xs ys : List Call) (v w : Nat) :
    (ctx.after f xs v).after f ys w = ctx.after f (xs ++ ys) (v + w) := by
  simp [Ctx.after, add_assoc]

theorem Ctx.count (f : σ → Call → σ) (ctx : Ctx σ n) (width : Nat) :
    { ctx with bcount := ctx.bcount + width } = ctx.after f [] width := rfl

theorem Ctx.after_count (ctx : Ctx σ n) (calls : List Call) :
    { ctx.after f calls 0 with bcount := (ctx.after f calls 0).bcount + 1 } = ctx.after f calls 1 :=
  rfl

/- A mapping block below a pointer of level `k` is there and can be read. -/
def InRange (fs : Fs) (d : Disk n) : Nat → Nat → Prop
  | 0, _ => True
  | k + 1, p =>
    p = 0 ∨ (fs.firstDataBlock ≤ p ∧ p < fs.blocksCount ∧ p < 2 ^ 32 ∧ fs.readFails p = false ∧
      ∀ q ∈ d.read p, InRange fs d k q)

theorem Quiet.call (quiet : Quiet it f) (ctx : Ctx σ n) (c : Call) :
    call it ctx c = (ctx.after f [c] 0, c.blk % 2 ^ 32, Ret.zero) := by
  simp only [Iterate.call, quiet.func]
  rfl

@[simp] theorem roViolation_zero : it.roViolation Ret.zero = false := by
  simp [Iteration.roViolation, Ret.zero]

@[simp] theorem Ret.zero_abort : Ret.zero.abort = false := rfl

@[simp] theorem Ret.zero_changed : Ret.zero.changed = false := rfl

@[simp] theorem Ret.zero_or (r : Ret) : Ret.zero.or r = r := by
  simp [Ret.or, Ret.zero]

theorem Quiet.ownCall (quiet : Quiet it f) (wanted : Bool) (ctx : Ctx σ n) (c : Call)
    (word : c.blk < 2 ^ 32) :
    ownCall it wanted ctx c = (ctx.after f (if wanted then [c] else []) 0, c.blk, Ret.zero) := by
  cases wanted with
  | false => rfl
  | true => rw [Iterate.ownCall, if_pos rfl, quiet.call, Nat.mod_eq_of_lt word, if_pos rfl]

theorem around_eq (flags : Flags) (c : Call) (inner : List Call) : around flags c inner =
    (if !flags.depthTraverse && !flags.dataOnly then [c] else []) ++ inner ++
      if flags.depthTraverse && !flags.dataOnly then [c] else [] := by
  unfold around
  cases flags.depthTraverse <;> cases flags.dataOnly <;> simp

/- The frame, with a loop that makes the calls `inner` for all its logical blocks. -/
theorem Quiet.iterateBlock (quiet : Quiet it f) {count : Int} {bad : Errcode} {width : Nat}
    {block ref offset : Nat} {ctx : Ctx σ n}
    {inner : List Call} (clean : ctx.errcode = none) (nonzero : block ≠ 0) (word : block < 2 ^ 32)
    (low : it.fs.firstDataBlock ≤ block) (high : block < it.fs.blocksCount)
    (readable : it.fs.readFails block = false)
    (runs : ∀ ctx' : Ctx σ n, ctx'.errcode = none → ctx'.disk = ctx.disk →
      ctx'.bcount = ctx.bcount →
      ∃ buf, loop block ctx' = (ctx'.after f inner width, buf, Ret.zero, Ret.zero)) :
    iterateBlock it count bad width loop block ref offset ctx =
      (ctx.after f (around it.flags ⟨block, count, ref, offset⟩ inner) width, block, Ret.zero) := by
  have bounds : (it.fs.blocksCount ≤ block || block < it.fs.firstDataBlock) = false := by
    simp [Nat.not_le.mpr high, Nat.not_lt.mpr low]
  have goesOn : (block = 0 || Ret.zero.abort) = false := by simp [nonzero]
  rw [around_eq, Iterate.iterateBlock, quiet.ownCall _ ctx _ word]
  generalize started : ctx.after f _ 0 = ctx1
  have clean1 : ctx1.errcode = none := by rw [← started, Ctx.after, clean]
  have keep : { ctx1 with errcode := none } = ctx1 := by rw [← clean1]
  obtain ⟨buf, run⟩ := runs ctx1 clean1 (by rw [← started]; rfl) (by rw [← started]; rfl)
  simp only [roViolation_zero, goesOn, bounds, readable, keep, run, false_eq_true, if_false,
    Ret.zero_or]
  rw [Ret.zero_changed, if_neg Bool.false_ne_true, quiet.ownCall _ _ _ word]
  simp only [Ret.zero_or, roViolation_zero, false_eq_true, if_false, Ret.zero_abort, Bool.not_false,
    Bool.and_true, ← started, Ctx.after_after, zero_add, add_zero]

variable {d : Disk n} {k : Nat}

theorem Quiet.indLoop (quiet : Quiet it f) (ref : Nat) (ps : List Nat) (offset : Nat)
    (ctx : Ctx σ n) : ∃ buf, indLoop it ref ps offset ctx =
      (ctx.after f (walkRow (walk it.flags d codeStep 0) (codeStep 0) 1 ref ps offset ctx.bcount)
        ps.length, buf, Ret.zero, Ret.zero) := by
  induction ps generalizing offset ctx with
  | nil => exact ⟨[], rfl⟩
  | cons p ps ih =>
    have step : codeStep 0 p = 4 := by simp [codeStep]
    rw [walkRow, step, Iterate.indLoop, quiet.append]
    by_cases hole : p = 0
    · obtain ⟨buf, run⟩ := ih (offset + 4) (ctx.after f [] 1)
      refine ⟨p :: buf, ?_⟩
      simp only [hole, decide_true, Bool.not_false, Bool.and_true, if_true, Ctx.count f, run,
        Ctx.after_after]
      simp [walk, Ctx.after, add_comm]
    · obtain ⟨buf, run⟩ := ih (offset + 4) (ctx.after f [⟨p, ctx.bcount, ref, offset⟩] 1)
      refine ⟨p % 2 ^ 32 :: buf, ?_⟩
      simp only [hole, decide_false, Bool.false_and, false_eq_true, if_false, quiet.call,
        Ret.zero_abort, Ctx.after_count, run, Ctx.after_after, Ret.zero_or]
      simp [walk, hole, Ctx.after, add_comm]

def Runs (it : Iteration σ) (f : σ → Call → σ) (d : Disk n)
    (iterate : Nat → Nat → Nat → Ctx σ n → Ctx σ n × Nat × Ret) (k : Nat) : Prop :=
  ∀ p ref offset ctx, p ≠ 0 → InRange it.fs d k p → ctx.errcode = none → ctx.disk = d →
    iterate p ref offset ctx =
      (ctx.after f (walk it.flags d codeStep k p ref offset ctx.bcount) (n ^ k), p, Ret.zero)

section

variable (quiet : Quiet it f) {child : Nat → Nat → Nat → Ctx σ n → Ctx σ n × Nat × Ret}
include quiet

theorem Quiet.mapLoop (runs : Runs it f d child (k + 1)) (ref : Nat) (ps : List Nat)
    (inRange : ∀ p ∈ ps, InRange it.fs d (k + 1) p) (offset : Nat) (ctx : Ctx σ n)
    (clean : ctx.errcode = none)
    (disk : ctx.disk = d) : ∃ buf, mapLoop it child (n ^ (k + 1)) ref ps offset ctx =
      (ctx.after f (walkRow (walk it.flags d codeStep (k + 1)) (codeStep (k + 1)) (n ^ (k + 1)) ref
        ps offset ctx.bcount) (ps.length * n ^ (k + 1)), buf, Ret.zero, Ret.zero) := by
  induction ps generalizing offset ctx with
  | nil =>
    refine ⟨[], ?_⟩
    rw [length_nil, Nat.zero_mul]
    rfl
  | cons p ps ih =>
    obtain ⟨first, rest⟩ := forall_mem_cons.mp inRange
    rw [walkRow, Iterate.mapLoop, quiet.append, length_cons, Nat.succ_mul,
      add_comm (ps.length * n ^ (k + 1))]
    by_cases hole : p = 0
    · obtain ⟨buf, run⟩ := ih rest offset (ctx.after f [] (n ^ (k + 1))) clean disk
      refine ⟨p :: buf, ?_⟩
      simp only [hole, decide_true, Bool.not_false, Bool.and_true, if_true, Ctx.count f, run,
        Ctx.after_after, walk_hole]
      rfl
    · have step : codeStep (k + 1) p = 4 := by simp [codeStep, hole]
      obtain ⟨buf, run⟩ := ih rest (offset + 4)
        (ctx.after f (walk it.flags d codeStep (k + 1) p ref offset ctx.bcount) (n ^ (k + 1)))
          clean disk
      refine ⟨p :: buf, ?_⟩
      have calm : (Ret.zero.abort || Ret.zero.error) = false := rfl
      rw [step]
      simp only [hole, decide_false, Bool.false_and, false_eq_true, if_false,
        runs p ref offset ctx hole first clean disk, calm, run, Ctx.after_after, Ret.zero_or]
      rfl

theorem Quiet.level {bad : Errcode}
    (runs : ∀ block ctx, (∀ q ∈ d.read block, InRange it.fs d k q) → ctx.errcode = none →
      ctx.disk = d → ∃ buf, loop block ctx =
        (ctx.after f (walkRow (walk it.flags d codeStep k) (codeStep k) (n ^ k) block (d.read block)
          0 ctx.bcount) (n ^ (k + 1)), buf, Ret.zero, Ret.zero)) :
    Runs it f d (Iterate.iterateBlock it (-(k + 1)) bad (n ^ (k + 1)) loop) (k + 1) := by
  intro p ref offset ctx nonzero inRange clean disk
  rcases inRange with hole | ⟨low, high, word, readable, below⟩
  · exact absurd hole nonzero
  · rw [walk, if_neg nonzero]
    refine quiet.iterateBlock clean nonzero word low high readable
      fun ctx' clean' disk' bcount' => ?_
    rw [← bcount']
    exact runs p ctx' below clean' (disk'.trans disk)

theorem Quiet.mapLevel (bad : Errcode) (runs : Runs it f d child (k + 1)) :
    Runs it f d (Iterate.iterateBlock it (-((k + 1 : Nat) + 1)) bad (n ^ (k + 2)) fun block ctx =>
      Iterate.mapLoop it child (n ^ (k + 1)) block (ctx.disk.read block) 0 ctx) (k + 2) := by
  refine quiet.level fun block ctx below clean disk => ?_
  have run := quiet.mapLoop runs block (d.read block) below 0 ctx clean disk
  rw [d.length_read, mul_comm, ← pow_succ] at run
  rw [disk]
  exact run

theorem Quiet.blockIterateInd (d : Disk n) : Runs it f d (blockIterateInd it) 1 := by
  have runs :
      Runs it f d (Iterate.iterateBlock it (-((0 : Nat) + 1)) .badIndBlock (n ^ 1) fun block ctx =>
      Iterate.indLoop it block (ctx.disk.read block) 0 ctx) 1 := by
    refine quiet.level fun block ctx _ _ disk => ?_
    have run := quiet.indLoop (d := d) block (d.read block) 0 ctx
    rw [d.length_read] at run
    rw [disk, pow_one, pow_zero]
    exact run
  rw [pow_one] at runs
  exact runs

theorem Quiet.blockIterateDind (d : Disk n) : Runs it f d (blockIterateDind it) 2 := by
  have runs := quiet.mapLevel .badDindBlock (quiet.blockIterateInd d)
  rw [pow_two, pow_one] at runs
  exact runs

theorem Quiet.blockIterateTind (d : Disk n) : Runs it f d (blockIterateTind it) 3 := by
  have runs := quiet.mapLevel .badTindBlock (quiet.blockIterateDind d)
  rw [pow_three, ← mul_assoc, pow_two] at runs
  exact runs

theorem Quiet.directLoop (ps : List Nat) (i : Nat) (ctx : Ctx σ n) :
    ∃ ps', directLoop it ps i Ret.zero ctx =
      (ctx.after f (walkRow (walk it.flags d codeStep 0) (fun _ => 1) 1 0 ps i ctx.bcount)
        ps.length, ps', Ret.zero) := by
  induction ps generalizing i ctx with
  | nil => exact ⟨[], rfl⟩
  | cons p ps ih =>
    rw [walkRow, Iterate.directLoop, quiet.append]
    by_cases hole : p = 0
    · obtain ⟨ps', run⟩ := ih (i + 1) (ctx.after f [] 1)
      refine ⟨p :: ps', ?_⟩
      simp only [hole, decide_true, Bool.not_false, Bool.and_true, if_true, Ctx.count f, run,
        Ctx.after_after]
      simp [walk, Ctx.after, add_comm]
    · obtain ⟨ps', run⟩ := ih (i + 1) (ctx.after f [⟨p, ctx.bcount, 0, i⟩] 1)
      refine ⟨p % 2 ^ 32 :: ps', ?_⟩
      simp only [hole, decide_false, Bool.false_and, false_eq_true, if_false, quiet.call,
        Ret.zero_abort, Ctx.after_count, run, Ctx.after_after, Ret.zero_or]
      simp [walk, hole, Ctx.after, add_comm]

theorem Quiet.indirectPart {iterate : Nat → Nat → Nat → Ctx σ n → Ctx σ n × Nat × Ret}
    (runs : Runs it f d iterate k)
    (width i p : Nat) (inRange : InRange it.fs d k p) (ctx : Ctx σ n) (clean : ctx.errcode = none)
    (disk : ctx.disk = d) : indirectPart it iterate width i p Ret.zero ctx =
      (ctx.after f (walk it.flags d codeStep k p 0 i ctx.bcount) (if p = 0 then width else n ^ k),
        p, Ret.zero) := by
  rw [Iterate.indirectPart, Ret.zero_abort, quiet.append, if_neg Bool.false_ne_true]
  by_cases hole : p = 0
  · simp only [hole, decide_true, Bool.not_false, Bool.and_true, if_true, walk_hole]
    rfl
  · simp only [hole, decide_false, Bool.false_and, false_eq_true, if_false,
      runs p 0 i ctx hole inRange clean disk, Ret.zero_or]

theorem Quiet.blockMapped (iBlock : List Nat) (full : iBlock.length = 15)
    (inRange : ∀ i p, iBlock[i]? = some p → InRange it.fs d (rootLevel i) p) (ctx : Ctx σ n)
    (clean : ctx.errcode = none) (disk : ctx.disk = d) (start : ctx.bcount = 0) :
    ∃ iBlock' width, blockMapped it iBlock Ret.zero ctx =
      (ctx.after f (codeVisits it.flags d iBlock) width, iBlock', Ret.zero) := by
  have entry : ∀ i < 15, InRange it.fs d (rootLevel i) (iBlock.getD i 0) := by
    intro i inside
    have found : iBlock[i]? = some iBlock[i] := getElem?_eq_getElem (by omega)
    rw [getD_eq_getElem?_getD, found, Option.getD_some]
    exact inRange i _ found
  obtain ⟨direct, run⟩ := quiet.directLoop (d := d) (iBlock.take 12) 0 ctx
  rw [start, length_take, full] at run
  refine ⟨direct ++ [iBlock.getD 12 0, iBlock.getD 13 0, iBlock.getD 14 0],
    12 + n + n * n + if iBlock.getD 14 0 = 0 then 0 else n ^ 3, ?_⟩
  have step := fun calls width (i : Nat) (inside : i < 15) (k : Nat) (level : rootLevel i = k) skip
      (iterate : Nat → Nat → Nat → Ctx σ n → Ctx σ n × Nat × Ret) (runs : Runs it f d iterate k) =>
    quiet.indirectPart runs skip i (iBlock.getD i 0) (level ▸ entry i inside)
      (ctx.after f calls width) clean disk
  simp only [Iterate.blockMapped, run, roViolation_zero, Bool.and_false, false_eq_true, if_false,
    step _ _ 12 (by decide) 1 rfl n _ (quiet.blockIterateInd d), Ctx.after_after,
    step _ _ 13 (by decide) 2 rfl (n * n) _ (quiet.blockIterateDind d),
    step _ _ 14 (by decide) 3 rfl 0 _ (quiet.blockIterateTind d), pow_one, pow_two, ite_self]
  simp only [codeVisits, Ctx.bcount_after, start, zero_add, append_assoc]
  rfl

end

end Blocks

end E2fs.Iterate
