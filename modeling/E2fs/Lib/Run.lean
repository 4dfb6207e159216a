import Mathlib.Tactic

/-! Runs of a system that executes operations one after another. A step takes a
state and an operation to a result and the next state. -/
namespace E2fs.Run
open List

variable {σ τ ο ρ : Type}

/-- One executed operation, with the states around it. -/
structure Event (σ ο ρ : Type) where
  before : σ
  op : ο
  result : ρ
  after : σ

def events (step : σ → ο → σ × ρ) : σ → List ο → List (Event σ ο ρ)
  | _, [] => []
  | s, op :: ops =>
    ⟨s, op, (step s op).2, (step s op).1⟩ :: events step (step s op).1 ops

def final (step : σ → ο → σ × ρ) : σ → List ο → σ
  | s, [] => s
  | s, op :: ops => final step (step s op).1 ops

variable {step : σ → ο → σ × ρ} {next : σ → ο → σ} {ok allowed : σ → ο → Prop} {s : σ}
  {ops : List ο} {want : τ → ο → τ} {t : τ}

/-- A relation that every allowed step preserves holds at the end of every run. -/
theorem final_simulates {next : τ → ο → τ} {allowed : ο → Prop} (rel : σ → τ → Prop)
    (keeps : ∀ s t op, rel s t → allowed op → rel (step s op).1 (next t op))
    (s : σ) (t : τ) (start : rel s t) (ops : List ο) (ok : ∀ op ∈ ops, allowed op) :
    rel (final step s ops) (ops.foldl next t) := by
  induction ops generalizing s t with
  | nil => exact start
  | cons op ops ih =>
    exact ih _ _ (keeps s t op start (ok op (by simp))) fun o ho => ok o (by simp [ho])

/-- What holds before every event of a run: the invariant, and that the event is a
step of the system. -/
theorem events_invariant {allowed : ο → Prop} (inv : σ → Prop)
    (keeps : ∀ s op, inv s → allowed op → inv (step s op).1)
    (s : σ) (start : inv s) (ops : List ο) (ok : ∀ op ∈ ops, allowed op)
    (e : Event σ ο ρ) (mem : e ∈ events step s ops) :
    inv e.before ∧ step e.before e.op = (e.after, e.result) := by
  induction ops generalizing s with
  | nil => simp [events] at mem
  | cons op ops ih =>
    rw [events, mem_cons] at mem
    rcases mem with rfl | mem
    · exact ⟨start, rfl⟩
    · exact ih _ (keeps s op start (ok op (by simp))) (fun o ho => ok o (by simp [ho])) mem

/-- Every operation of a run meets the condition in the state it finds. -/
def Along (next : σ → ο → σ) (ok : σ → ο → Prop) : σ → List ο → Prop
  | _, [] => True
  | s, op :: ops => ok s op ∧ Along next ok (next s op) ops

instance decidableAlong {next : σ → ο → σ} {ok : σ → ο → Prop} [∀ s op, Decidable (ok s op)] :
    (s : σ) → (ops : List ο) → Decidable (Along next ok s ops)
  | _, [] => .isTrue trivial
  | s, op :: ops =>
    @instDecidableAnd (ok s op) (Along next ok (next s op) ops) _ (decidableAlong (next s op) ops)

theorem Along.with_invariant {inv : σ → Prop} (keeps : ∀ s op, inv s → ok s op → inv (next s op))
    (start : inv s)
    (along : Along next ok s ops) : Along next (fun s op => inv s ∧ ok s op) s ops := by
  induction ops generalizing s with
  | nil => trivial
  | cons op ops ih => exact ⟨⟨start, along.1⟩, ih (keeps s op start along.1) along.2⟩

theorem Along.append {pre rest : List ο} :
    Along next ok s (pre ++ rest) ↔
    Along next ok s pre ∧ Along next ok (pre.foldl next s) rest := by
  induction pre generalizing s with
  | nil => exact (and_iff_right trivial).symm
  | cons op pre ih => rw [cons_append, Along, Along, ih, and_assoc, foldl_cons]

theorem Along.and {ok' : σ → ο → Prop} (first : Along next ok s ops)
    (second : Along next ok' s ops) : Along next (fun s op => ok s op ∧ ok' s op) s ops := by
  induction ops generalizing s with
  | nil => trivial
  | cons op ops ih => exact ⟨⟨first.1, second.1⟩, ih first.2 second.2⟩

theorem Along.keeps (inv : σ → Prop)
    (keeps : ∀ s op, inv s → ok s op → inv (next s op)) (start : inv s)
    (along : Along next ok s ops) : inv (ops.foldl next s) := by
  induction ops generalizing s with
  | nil => exact start
  | cons op ops ih => exact ih (keeps s op start along.1) along.2

/-- A relation that every step of the run preserves holds after each part of the run. -/
theorem Along.simulates {rel : σ → τ → Prop}
    (keeps : ∀ s t op, rel s t → ok s op → rel (next s op) (want t op)) {pre : List ο}
    (start : rel s t) (along : Along next ok s ops) (is : pre <+: ops) :
    rel (pre.foldl next s) (pre.foldl want t) := by
  induction ops generalizing s t pre with
  | nil =>
    rw [prefix_nil.mp is]
    exact start
  | cons op ops ih =>
    rcases pre with _ | ⟨op', pre⟩
    · exact start
    obtain ⟨rfl, is'⟩ := cons_prefix_cons.mp is
    rw [foldl_cons, foldl_cons]
    exact ih (keeps s t op' start along.1) along.2 is'

/-- A run is right all the way exactly when all its steps meet a condition: a good step keeps
what makes states right, and after a bad one the state is not right. -/
theorem right_iff (inv : σ → τ → Prop) {right : σ → τ → Prop} (rights : ∀ s t, inv s t → right s t)
    (good : ∀ s t op, inv s t → allowed s op → ok s op → inv (next s op) (want t op))
    (bad : ∀ s t op, inv s t → allowed s op → ¬ ok s op → ¬ right (next s op) (want t op))
    (start : inv s t) (ops : List ο) (allowedAll : Along next allowed s ops) :
    (∀ pre, pre <+: ops → right (pre.foldl next s) (pre.foldl want t)) ↔ Along next ok s ops := by
  induction ops generalizing s t with
  | nil =>
    refine ⟨fun _ => trivial, fun _ pre is => ?_⟩
    rw [prefix_nil.mp is]
    exact rights s t start
  | cons op ops ih =>
    constructor
    · intro follows
      have now : ok s op := by
        by_contra notOk
        exact bad s t op start allowedAll.1 notOk (follows [op] ⟨ops, rfl⟩)
      refine ⟨now, (ih (good s t op start allowedAll.1 now) allowedAll.2).mp fun pre is => ?_⟩
      exact follows (op :: pre) ((prefix_cons_inj op).mpr is)
    · rintro ⟨now, later⟩ pre is
      rcases pre with _ | ⟨op', pre⟩
      · exact rights s t start
      obtain ⟨rfl, is'⟩ := cons_prefix_cons.mp is
      exact (ih (good s t op' start allowedAll.1 now) allowedAll.2).mpr later pre is'

/-- If a step follows its specification exactly when it meets a condition, then a run follows
the specification all the way exactly when all its steps do. -/
theorem follows_iff {view : σ → τ}
    (exactly : ∀ s op, allowed s op → (view (next s op) = want (view s) op ↔ ok s op))
    (s : σ) (ops : List ο) (allowedAll : Along next allowed s ops) :
    (∀ pre, pre <+: ops → view (pre.foldl next s) = pre.foldl want (view s)) ↔
    Along next ok s ops := by
  refine right_iff (fun s t => view s = t) (fun _ _ same => same) ?_ ?_ rfl ops allowedAll
  · rintro s t op rfl may now
    exact (exactly s op may).mpr now
  · rintro s t op rfl may notOk same
    exact notOk ((exactly s op may).mp same)

/-- Along a run every answer of the system is right for the answer of the specification. -/
def Answers {ρ' : Type} (step : σ → ο → σ × ρ) (want : τ → ο → τ × ρ') (right : σ → ρ → ρ' → Prop) :
    σ → τ → List ο → Prop
  | _, _, [] => True
  | s, t, op :: ops =>
    right (step s op).1 (step s op).2 (want t op).2 ∧
      Answers step want right (step s op).1 (want t op).1 ops

theorem Along.answers {ρ' : Type} {want : τ → ο → τ × ρ'} {right : σ → ρ → ρ' → Prop}
    (inv : σ → τ → Prop) (good : ∀ s t op, inv s t → ok s op →
      right (step s op).1 (step s op).2 (want t op).2 ∧ inv (step s op).1 (want t op).1) (start :
    inv s t) (along : Along (fun s op => (step s op).1) ok s ops) :
    Answers step want right s t ops := by
  induction ops generalizing s t with
  | nil => trivial
  | cons op ops ih =>
    obtain ⟨answer, next⟩ := good s t op start along.1
    exact ⟨answer, ih next along.2⟩

/-- The answers are right all the way exactly when all steps meet a condition, if that is so for
one step and a step that meets it keeps the invariant. -/
theorem answers_iff {ρ' : Type} {want : τ → ο → τ × ρ'} {right : σ → ρ → ρ' → Prop}
    {within : τ → ο → Prop} (inv : σ → τ → Prop)
    (good : ∀ s t op, inv s t → allowed s op → within t op → ok s op →
      right (step s op).1 (step s op).2 (want t op).2 ∧ inv (step s op).1 (want t op).1)
    (bad : ∀ s t op, inv s t → allowed s op → within t op → ¬ ok s op →
      ¬ right (step s op).1 (step s op).2 (want t op).2)
    (start : inv s t) (ops : List ο) (allowedAll : Along (fun s op => (step s op).1) allowed s ops)
    (withinAll : Along (fun t op => (want t op).1) within t ops) :
    Answers step want right s t ops ↔ Along (fun s op => (step s op).1) ok s ops := by
  induction ops generalizing s t with
  | nil => exact Iff.rfl
  | cons op ops ih =>
    by_cases now : ok s op
    · obtain ⟨answer, next⟩ := good s t op start allowedAll.1 withinAll.1 now
      exact and_congr (iff_of_true answer now) (ih next allowedAll.2 withinAll.2)
    · exact iff_of_false (fun answers => bad s t op start allowedAll.1 withinAll.1 now answers.1)
        fun along => now along.1

end E2fs.Run
