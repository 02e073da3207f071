import Mathlib

/-! Counting what lies in places. A bound on what any finitely many places hold together
follows what goes in and out, whatever is moved between the places. -/
namespace ThreadScan.Tally

variable {ι : Type*} {count count' : ι → ℕ} {n m : ℕ}

/-- Any finitely many places hold at most `n` together. -/
def Within (count : ι → ℕ) (n : ℕ) : Prop := ∀ F : Finset ι, ∑ p ∈ F, count p ≤ n

theorem Within.mono (h : Within count n) (le : n ≤ m) : Within count m :=
  fun F => (h F).trans le

theorem Within.one (h : Within count n) (p : ι) : count p ≤ n := by
  simpa using h {p}

theorem within_zero : Within (fun _ : ι => 0) 0 := by
  intro F
  simp

variable [DecidableEq ι] {p q : ι} {k : ℕ}

/-- A change at one place changes the bound by as much. -/
theorem Within.changed (h : Within count n) (other : ∀ x, x ≠ p → count' x = count x) :
    Within count' (n - count p + count' p) := by
  intro F
  have hsame : ∑ x ∈ F.erase p, count' x = ∑ x ∈ F.erase p, count x :=
    Finset.sum_congr rfl fun x hx => other x (Finset.ne_of_mem_erase hx)
  have hle : ∑ x ∈ F, count' x ≤ count' p + ∑ x ∈ F.erase p, count' x := by
    by_cases hp : p ∈ F
    · exact (Finset.add_sum_erase F count' hp).ge
    · rw [Finset.erase_eq_of_notMem hp]
      omega
  have hall := h (insert p (F.erase p))
  rw [Finset.sum_insert (Finset.notMem_erase p F)] at hall
  omega

/-- What comes in at one place is added to the bound. -/
theorem Within.taken (h : Within count n) (after : count' p = count p + k)
    (other : ∀ x, x ≠ p → count' x = count x) : Within count' (n + k) := by
  have hp := h.one p
  exact (h.changed other).mono (by omega)

/-- What goes out at one place is taken off the bound. -/
theorem Within.given (h : Within count n) (before : count p = count' p + k)
    (other : ∀ x, x ≠ p → count' x = count x) : Within count' (n - k) := by
  have hp := h.one p
  exact (h.changed other).mono (by omega)

/-- What moves from one place to another leaves the bound as it is. -/
theorem Within.moved (h : Within count n) (ne : p ≠ q) (before : count p = count' p + k)
    (after : count' q = count q + k) (other : ∀ x, x ≠ p → x ≠ q → count' x = count x) :
    Within count' n := by
  have hk : k ≤ n := (Nat.le.intro (Nat.add_comm _ _ ▸ before.symm)).trans (h.one p)
  have hout : Within (Function.update count p (count' p)) (n - k) := by
    refine h.given (p := p) ?_ fun x hx => Function.update_of_ne hx _ _
    rw [Function.update_self, before]
  have hafter : count' q = Function.update count p (count' p) q + k := by
    rw [Function.update_of_ne ne.symm, after]
  have hother : ∀ x, x ≠ q → count' x = Function.update count p (count' p) x := by
    intro x hx
    by_cases hxp : x = p
    · rw [hxp, Function.update_self]
    · rw [Function.update_of_ne hxp, other x hxp hx]
  have hin := hout.taken hafter hother
  rwa [Nat.sub_add_cancel hk] at hin

end ThreadScan.Tally
