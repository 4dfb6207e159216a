import Mathlib.Tactic

/-! Lists through link fields, as on disk: zero ends a list. A list with links in both
directions loses any of its members and takes a new one in front. -/
namespace E2fs.Links
open List

def Chain (next : Nat → Nat) : Nat → List Nat → Prop
  | head, [] => head = 0
  | head, b :: l => head = b ∧ b ≠ 0 ∧ Chain next (next b) l

/- The same with links back; `before` is the one in front of `head`. -/
def Linked (next prev : Nat → Nat) : Nat → Nat → List Nat → Prop
  | _, head, [] => head = 0
  | before, head, b :: l => head = b ∧ b ≠ 0 ∧ prev b = before ∧ Linked next prev b (next b) l

variable {next prev next' prev' : Nat → Nat} {head before b : Nat} {l : List Nat}

theorem Chain.congr (chain : Chain next head l) (same : ∀ b ∈ l, next' b = next b) :
    Chain next' head l := by
  induction l generalizing head with
  | nil => exact chain
  | cons b l ih =>
    obtain ⟨start, nonzero, rest⟩ := chain
    refine ⟨start, nonzero, ?_⟩
    rw [same b mem_cons_self]
    exact ih rest fun c mem => same c (mem_cons_of_mem _ mem)

theorem Chain.nonzero (chain : Chain next head l) : ∀ b ∈ l, b ≠ 0 := by
  induction l generalizing head with
  | nil => simp
  | cons b l ih =>
    obtain ⟨-, nonzero, rest⟩ := chain
    exact forall_mem_cons.mpr ⟨nonzero, ih rest⟩

theorem Linked.congr (linked : Linked next prev before head l) (same : ∀ b ∈ l, next' b = next b)
    (same' : ∀ b ∈ l, prev' b = prev b) : Linked next' prev' before head l := by
  induction l generalizing head before with
  | nil => exact linked
  | cons b l ih =>
    obtain ⟨start, nonzero, back, rest⟩ := linked
    refine ⟨start, nonzero, (same' b mem_cons_self).trans back, ?_⟩
    rw [same b mem_cons_self]
    exact ih rest (fun c mem => same c (mem_cons_of_mem _ mem)) fun c mem =>
      same' c (mem_cons_of_mem _ mem)

theorem Linked.chain (linked : Linked next prev before head l) : Chain next head l := by
  induction l generalizing head before with
  | nil => exact linked
  | cons b l ih =>
    obtain ⟨start, nonzero, -, rest⟩ := linked
    exact ⟨start, nonzero, ih rest⟩

theorem Linked.middle {a : List Nat} {c : List Nat}
    (linked : Linked next prev before head (a ++ b :: c)) :
    (a = [] ∧ head = b ∧ prev b = before ∨ prev b ∈ a) ∧ b ≠ 0 ∧ (next b = 0 ∨ next b ∈ c) := by
  induction a generalizing head before with
  | nil =>
    obtain ⟨start, nonzero, back, rest⟩ := linked
    refine ⟨.inl ⟨rfl, start, back⟩, nonzero, ?_⟩
    cases c with
    | nil => exact .inl rest
    | cons d c => exact .inr (mem_cons.mpr (.inl rest.1))
  | cons x a ih =>
    obtain ⟨rfl, -, -, rest⟩ := linked
    obtain ⟨back, nonzero, forth⟩ := ih rest
    refine ⟨.inr ?_, nonzero, forth⟩
    rcases back with ⟨-, -, back⟩ | mem
    · exact mem_cons.mpr (.inl back)
    · exact mem_cons_of_mem _ mem

theorem Linked.push (linked : Linked next prev 0 head l) (new : b ∉ l) (nonzero : b ≠ 0)
    (own : next' b = head) (own' : prev' b = 0) (same : ∀ c ∈ l, next' c = next c)
    (front : head ≠ 0 → prev' head = b) (same' : ∀ c ∈ l, c ≠ head → prev' c = prev c)
    (nodup : l.Nodup) : Linked next' prev' 0 b (b :: l) := by
  refine ⟨rfl, nonzero, own', ?_⟩
  rw [own]
  rcases l with _ | ⟨c, l⟩
  · exact linked
  obtain ⟨rfl, headNonzero, -, rest⟩ := linked
  refine ⟨rfl, headNonzero, front headNonzero, ?_⟩
  rw [same head mem_cons_self]
  refine rest.congr (fun d mem => same d (mem_cons_of_mem _ mem)) fun d mem => ?_
  refine same' d (mem_cons_of_mem _ mem) ?_
  rintro rfl
  exact (nodup_cons.mp nodup).1 mem

/- Taking out a member: its neighbours get its links. The front, if the member has none
before it, becomes what follows. -/
theorem Linked.remove {a : List Nat} {c : List Nat}
    (linked : Linked next prev before head (a ++ b :: c)) (nodup : (a ++ b :: c).Nodup)
    (outside : before ∉ a ++ b :: c)
    (forth : ∀ d ∈ a ++ c, next' d = if d = prev b then next b else next d)
    (back : ∀ d ∈ a ++ c, prev' d = if d = next b then prev b else prev d) :
    Linked next' prev' before (if a = [] then next b else head) (a ++ c) := by
  induction a generalizing head before with
  | nil =>
    obtain ⟨rfl, nonzero, same, rest⟩ := linked
    rcases c with _ | ⟨d, c⟩
    · exact rest
    obtain ⟨start, nonzero', same', rest'⟩ := rest
    have outside' : before ∉ d :: c := fun mem => outside (mem_cons_of_mem _ mem)
    have links : ∀ e ∈ d :: c, next' e = next e := by
      intro e mem
      rw [forth e mem, if_neg]
      rintro rfl
      rw [same] at mem
      exact outside' mem
    refine ⟨start, nonzero', ?_, ?_⟩
    · rw [back d mem_cons_self, if_pos start.symm, same]
    · rw [links d mem_cons_self]
      refine rest'.congr (fun e mem => links e (mem_cons_of_mem _ mem)) fun e mem => ?_
      rw [back e (mem_cons_of_mem _ mem), if_neg]
      rintro rfl
      rw [start] at mem
      exact (nodup_cons.mp (nodup_cons.mp nodup).2).1 mem
  | cons x a ih =>
    obtain ⟨rfl, nonzero, same, rest⟩ := linked
    have away : head ∉ a ++ b :: c := (nodup_cons.mp nodup).1
    have rest' :=
      ih rest (nodup_cons.mp nodup).2 away (fun d mem => forth d (mem_cons_of_mem _ mem))
      (fun d mem => back d (mem_cons_of_mem _ mem))
    obtain ⟨link, -, follows⟩ := rest.middle
    refine ⟨rfl, nonzero, ?_, ?_⟩
    · rw [back head mem_cons_self, if_neg, same]
      rintro rfl
      rcases follows with zero | mem
      · exact nonzero zero
      · exact away (mem_append_right _ (mem_cons_of_mem _ mem))
    · rw [forth head mem_cons_self]
      rcases link with ⟨rfl, -, link⟩ | mem
      · rw [if_pos link.symm]
        rwa [if_pos rfl] at rest'
      · rw [if_neg]
        · rwa [if_neg (ne_nil_of_mem mem)] at rest'
        · rintro rfl
          exact away (mem_append_left _ mem)

end E2fs.Links
