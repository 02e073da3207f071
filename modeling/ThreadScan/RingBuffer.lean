import Mathlib

/-! Ring buffers addressed by absolute indices. A window of at most `c` consecutive
indices occupies pairwise different slots, so a queue is its window: pushing stores at
the window's end and popping moves its base. -/
namespace ThreadScan.RingBuffer

variable {α : Type*}

/-- The slots of `c` cells hold `xs` from absolute index `base` on. -/
def Holds (e : ℕ → α) (c base : ℕ) (xs : List α) : Prop :=
  ∀ i (h : i < xs.length), e ((base + i) % c) = xs[i]

theorem slot_ne {c i j : ℕ} (hij : i < j) (hc : j < i + c) : i % c ≠ j % c := by
  intro h
  have hd : c ∣ j - i := (Nat.modEq_iff_dvd' hij.le).mp h
  have := Nat.le_of_dvd (by omega) hd
  omega

theorem Holds.nil (e : ℕ → α) (c base : ℕ) : Holds e c base [] := by
  intro i h
  simp at h

/-- A store at the end of a window with room touches no slot of the window. -/
theorem Holds.store {e : ℕ → α} {c base : ℕ} {xs : List α} (h : Holds e c base xs)
    (room : xs.length < c) (v : α) :
    Holds (Function.update e ((base + xs.length) % c) v) c base xs := by
  intro i hi
  rw [Function.update_of_ne (slot_ne (by omega) (by omega)), h i hi]

/-- A stored value joins the window once the end moves past it. -/
theorem Holds.extend {e : ℕ → α} {c base : ℕ} {xs : List α} (h : Holds e c base xs)
    {v : α} (stored : e ((base + xs.length) % c) = v) : Holds e c base (xs ++ [v]) := by
  intro i hi
  rw [List.length_append, List.length_singleton] at hi
  rcases Nat.lt_or_ge i xs.length with hlt | hge
  · rw [List.getElem_append_left hlt]
    exact h i hlt
  · have he : i = xs.length := by omega
    subst he
    simpa using stored

/-- Moving the base drops a prefix of the window. -/
theorem Holds.drop {e : ℕ → α} {c base : ℕ} {xs : List α} (h : Holds e c base xs) (k : ℕ) :
    Holds e c (base + k) (xs.drop k) := by
  intro i hi
  rw [List.length_drop] at hi
  rw [List.getElem_drop, Nat.add_assoc]
  exact h (k + i) (by omega)

end ThreadScan.RingBuffer
