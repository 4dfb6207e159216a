import Mathlib.Tactic

/-! Loops that may not end, and steps that may fail. A round takes a state to the next one or
returns; a run has fuel for a number of rounds. -/
namespace E2fs.Loop
open List

variable {σ ρ : Type}

inductive Round (σ ρ : Type) where
  | again (s : σ)
  | done (r : ρ)
  deriving DecidableEq

def runLoop (round : σ → Round σ ρ) : Nat → σ → Option ρ
  | 0, _ => none
  | fuel + 1, s =>
    match round s with
    | .again s' => runLoop round fuel s'
    | .done r => some r

inductive Reaches (round : σ → Round σ ρ) : σ → σ → Prop where
  | here (s : σ) : Reaches round s s
  | step {s t u : σ} (next : round s = .again t) (rest : Reaches round t u) : Reaches round s u

variable {round : σ → Round σ ρ} {s t u : σ}

theorem Reaches.trans (first : Reaches round s t) (second : Reaches round t u) :
    Reaches round s u := by
  induction first with
  | here s => exact second
  | step next _ ih => exact .step next (ih second)

theorem Reaches.then (first : Reaches round s t) (next : round t = .again u) : Reaches round s u :=
  first.trans (.step next (.here u))

theorem Reaches.of_same (same : round s = round t) (way : Reaches round t u) :
    ∃ v, Reaches round s v ∧ round v = round u := by
  cases way with
  | here => exact ⟨s, .here s, same⟩
  | step next rest => exact ⟨u, .step (same.trans next) rest, rfl⟩

theorem Reaches.returns {r : ρ} (way : Reaches round s t) (last : round t = .done r) :
    ∃ fuel, runLoop round fuel s = some r := by
  induction way with
  | here s => exact ⟨1, by rw [runLoop, last]⟩
  | step next _ ih =>
    obtain ⟨fuel, result⟩ := ih last
    exact ⟨fuel + 1, by rw [runLoop, next]; exact result⟩

theorem Reaches.onward {r : ρ} {fuel : Nat} (way : Reaches round s t)
    (result : runLoop round fuel s = some r) : ∃ fuel', runLoop round fuel' t = some r := by
  induction way generalizing fuel with
  | here s => exact ⟨fuel, result⟩
  | step next _ ih =>
    rcases fuel with _ | fuel
    · cases result
    rw [runLoop, next] at result
    exact ih result

theorem endless_of_invariant (inv : σ → Prop) (keeps : ∀ s, inv s → ∃ t, round s = .again t ∧ inv t)
    (start : inv s) (fuel : Nat) : runLoop round fuel s = none := by
  induction fuel generalizing s with
  | zero => rfl
  | succ fuel ih =>
    obtain ⟨t, next, after⟩ := keeps s start
    rw [runLoop, next]
    exact ih after

theorem endless_of_cycle (way : Reaches round s t) (next : round t = .again u)
    (back : Reaches round u t) (fuel : Nat) : runLoop round fuel s = none := by
  refine endless_of_invariant (Reaches round · t) (fun s' way' => ?_) way fuel
  cases way' with
  | here => exact ⟨u, next, back⟩
  | step first rest => exact ⟨_, first, rest⟩

theorem runLoop_unique {r r' : ρ} {fuel fuel' : Nat} (one : runLoop round fuel s = some r)
    (two : runLoop round fuel' s = some r') : r = r' := by
  induction fuel generalizing s fuel' with
  | zero => cases one
  | succ fuel ih =>
    rcases fuel' with _ | fuel'
    · cases two
    rw [runLoop] at one two
    cases next : round s with
    | again t =>
      rw [next] at one two
      exact ih one two
    | done r =>
      rw [next] at one two
      exact Option.some.inj (one.symm.trans two)

/- A loop over numbers that may stop early: what holds before each round. -/
theorem foldlM_range {P : Nat → σ → Prop} {f : σ → Nat → Option σ} {n : Nat} (start : P 0 s)
    (step : ∀ i < n, ∀ t, P i t → ∃ t', f t i = some t' ∧ P (i + 1) t') :
    ∃ t, (range n).foldlM f s = some t ∧ P n t := by
  induction n with
  | zero => exact ⟨s, rfl, start⟩
  | succ n ih =>
    obtain ⟨t, ran, holds⟩ := ih fun i lt => step i (Nat.lt_succ_of_lt lt)
    obtain ⟨t', next, holds'⟩ := step n (Nat.lt_succ_self n) t holds
    refine ⟨t', ?_, holds'⟩
    rw [range_succ, foldlM_append, ran]
    simp [next]

section Fallible

variable {ε α β : Type} {x : Except ε α}

theorem bind_ok {f : α → Except ε β} {b : β} (ok : x >>= f = .ok b) :
    ∃ a, x = .ok a ∧ f a = .ok b := by
  cases x with
  | error e => cases ok
  | ok a => exact ⟨a, rfl, ok⟩

theorem check_ok {c : Prop} [Decidable c] {e : ε} {a : α} :
    (if c then .error e else x) = .ok a ↔ ¬ c ∧ x = .ok a := by
  split <;> simp [*]

end Fallible

end E2fs.Loop
