import Mathlib.Tactic

/-! Splitting a list at an element that a key identifies. -/
namespace E2fs.ListSplit
open List

variable {α κ : Type}

theorem split_unique (key : α → κ) (as bs cs ds : List α) (x y : α)
    (nodup : ((as ++ x :: bs).map key).Nodup) (same : key x = key y)
    (eq : as ++ x :: bs = cs ++ y :: ds) : as = cs ∧ x = y ∧ bs = ds := by
  induction as generalizing cs with
  | nil =>
    cases cs with
    | nil =>
      obtain ⟨rfl, rfl⟩ := cons.inj eq
      exact ⟨rfl, rfl, rfl⟩
    | cons c cs =>
      obtain ⟨rfl, rfl⟩ := cons.inj eq
      simp [same] at nodup
  | cons a as ih =>
    cases cs with
    | nil =>
      obtain ⟨rfl, rfl⟩ := cons.inj eq
      simp [same] at nodup
    | cons c cs =>
      obtain ⟨rfl, tail⟩ := cons.inj eq
      have h := ih cs (by simpa using (nodup_cons.mp nodup).2) tail
      exact ⟨by rw [h.1], h.2⟩

theorem infix_pair_of_sublist {l l' : List α} {a b : α} (nodup : l.Nodup) (sub : l'.Sublist l)
    (pair : [a, b] <:+: l) (ha : a ∈ l') (hb : b ∈ l') : [a, b] <:+: l' := by
  obtain ⟨s, t, rfl⟩ := pair
  simp only [append_assoc, cons_append, nil_append] at sub nodup
  obtain ⟨p, q, rfl, hp, hq⟩ := sublist_append_iff.mp sub
  have distinct := nodup_append.mp nodup
  have outside : ∀ c, c ∈ a :: b :: t → c ∉ p := by
    intro c hc hcp
    exact distinct.2.2 c (hp.subset hcp) c hc rfl
  have haq : a ∈ q := (mem_append.mp ha).resolve_left (outside a (by simp))
  have hbq : b ∈ q := (mem_append.mp hb).resolve_left (outside b (by simp))
  have tail := nodup_cons.mp distinct.2.1
  cases hq with
  | cons _ h => exact absurd (h.subset haq) tail.1
  | cons_cons _ h =>
    cases h with
    | cons _ h' =>
      have ne : b ≠ a := by
        intro e
        exact tail.1 (by simp [e])
      have : b ∈ t := h'.subset ((mem_cons.mp hbq).resolve_left ne)
      exact absurd this (nodup_cons.mp tail.2).1
    | @cons_cons u _ _ h' => exact ⟨p, u, by simp⟩

end E2fs.ListSplit
