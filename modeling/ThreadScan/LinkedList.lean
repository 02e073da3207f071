import Mathlib

/-! Null-terminated lists of cells that carry their own link. Several lists may share one link
field as long as no cell is on two of them. -/
namespace ThreadScan.LinkedList

variable {α : Type*} {next next' : α → Option α} {p q : Option α} {a b : α} {l l' r : List α}

/-- From `p` on the links run through the listed cells and end. -/
def Linked (next : α → Option α) : Option α → List α → Prop
  | p, [] => p = none
  | p, a :: l => p = some a ∧ Linked next (next a) l

theorem Linked.head (h : Linked next p l) : p = l.head? := by
  cases l with
  | nil => exact h
  | cons a l => exact h.1

theorem Linked.unique (h : Linked next p l) (g : Linked next p l') : l = l' := by
  induction l generalizing p l' with
  | nil =>
    cases l' with
    | nil => rfl
    | cons b l' => exact absurd (h.symm.trans g.1) (by simp)
  | cons a l ih =>
    cases l' with
    | nil => exact absurd (g.symm.trans h.1) (by simp)
    | cons b l' =>
      obtain rfl : a = b := Option.some.inj (h.1.symm.trans g.1)
      rw [ih h.2 g.2]

theorem Linked.congr (h : Linked next p l) (same : ∀ a ∈ l, next' a = next a) :
    Linked next' p l := by
  induction l generalizing p with
  | nil => exact h
  | cons a l ih =>
    refine ⟨h.1, ?_⟩
    rw [same a (by simp)]
    exact ih h.2 fun b hb => same b (by simp [hb])

/-- What follows a cell is the chain from its link. -/
theorem Linked.suffix (h : Linked next p (l ++ a :: r)) : Linked next (next a) r := by
  induction l generalizing p with
  | nil => exact h.2
  | cons b l ih => exact ih h.2

theorem Linked.next_eq (h : Linked next p (l ++ a :: r)) : next a = r.head? := h.suffix.head

/-- A chain that ends never meets a cell twice. -/
theorem Linked.nodup (h : Linked next p l) : l.Nodup := by
  induction l generalizing p with
  | nil => exact List.nodup_nil
  | cons a l ih =>
    refine List.nodup_cons.mpr ⟨fun ha => ?_, ih h.2⟩
    obtain ⟨s, t, rfl⟩ := List.append_of_mem ha
    have hlong : Linked next (next a) (s ++ a :: t) := h.2
    have hlen := congrArg List.length (hlong.unique hlong.suffix)
    simp only [List.length_append, List.length_cons] at hlen
    omega

/-- The first cell leaves the list. -/
theorem Linked.pop (h : Linked next p (a :: l)) : Linked next (next a) l := h.2

section Update
variable [DecidableEq α]

/-- The link of a cell that is not on the list does not matter. -/
theorem Linked.update (h : Linked next p l) (ha : a ∉ l) (q : Option α) :
    Linked (Function.update next a q) p l := by
  refine h.congr fun b hb => Function.update_of_ne ?_ _ _
  rintro rfl
  exact ha hb

/-- A new cell in front of the list. -/
theorem Linked.push (h : Linked next p l) (ha : a ∉ l) :
    Linked (Function.update next a p) (some a) (a :: l) := by
  refine ⟨rfl, ?_⟩
  rw [Function.update_self]
  exact h.update ha p

/-- A cell leaves the list: its predecessor takes over its link. -/
theorem Linked.unlink (h : Linked next p (l ++ a :: b :: r)) :
    Linked (Function.update next a (next b)) p (l ++ a :: r) := by
  have hnodup := h.nodup
  induction l generalizing p with
  | nil =>
    refine ⟨h.1, ?_⟩
    rw [Function.update_self]
    have ha : a ∉ r := by
      simp only [List.nil_append, List.nodup_cons, List.mem_cons, not_or] at hnodup
      exact hnodup.1.2
    exact h.2.2.update ha _
  | cons c l ih =>
    refine ⟨h.1, ?_⟩
    have hc : c ≠ a := by
      simp only [List.cons_append, List.nodup_cons, List.mem_append, List.mem_cons, not_or] at hnodup
      exact hnodup.1.2.1
    rw [Function.update_of_ne hc]
    exact ih h.2 (List.nodup_cons.mp hnodup).2

/-- The list without a cell, if the cell is where it is looked for. -/
theorem erase_middle (h : (l ++ a :: r).Nodup) : (l ++ a :: r).erase a = l ++ r := by
  have ha : a ∉ l := fun hl =>
    (List.nodup_append'.mp h).2.2 hl (by simp)
  rw [List.erase_append_right _ ha, List.erase_cons_head]

end Update

end ThreadScan.LinkedList
