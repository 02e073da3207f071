import Mathlib

/-! Rearrangements of an array inside an interval of its indices. An in-place algorithm
that only exchanges entries rearranges its array, whatever it compares. -/
namespace ThreadScan.Rearrangement

variable {α : Type*}

/-- `b` is `a` with the entries of `[lo, hi]` permuted. -/
def Rearranges (lo hi : ℤ) (a b : ℤ → α) : Prop :=
  ∃ σ : Equiv.Perm ℤ, (∀ i, ¬ (lo ≤ i ∧ i ≤ hi) → σ i = i) ∧ b = a ∘ σ

/-- Exchange two entries. -/
def exchange (a : ℤ → α) (n m : ℤ) : ℤ → α :=
  Function.update (Function.update a n (a m)) m (a n)

/-- The first `n` entries. -/
def contents (a : ℤ → α) (n : ℕ) : List α := (List.range n).map fun i : ℕ => a i

theorem Rearranges.refl (lo hi : ℤ) (a : ℤ → α) : Rearranges lo hi a a :=
  ⟨1, fun _ _ => rfl, rfl⟩

theorem Rearranges.trans {lo hi : ℤ} {a b c : ℤ → α} (h : Rearranges lo hi a b)
    (g : Rearranges lo hi b c) : Rearranges lo hi a c := by
  obtain ⟨σ, hσ, rfl⟩ := h
  obtain ⟨τ, hτ, rfl⟩ := g
  refine ⟨σ * τ, ?_, rfl⟩
  intro i hi'
  rw [Equiv.Perm.mul_apply, hτ i hi', hσ i hi']

theorem Rearranges.mono {lo hi lo' hi' : ℤ} {a b : ℤ → α} (h : Rearranges lo hi a b)
    (hlo : lo' ≤ lo) (hhi : hi ≤ hi') : Rearranges lo' hi' a b := by
  obtain ⟨σ, hσ, rfl⟩ := h
  exact ⟨σ, fun i hi => hσ i (by omega), rfl⟩

theorem exchange_eq (a : ℤ → α) (n m : ℤ) : exchange a n m = a ∘ Equiv.swap n m := by
  funext i
  simp only [exchange, Function.update_apply, Function.comp_apply, Equiv.swap_apply_def]
  split_ifs with hm hn hn
  · rw [← hm, hn]
  · rfl
  · rfl
  · rfl

theorem rearranges_exchange {lo hi n m : ℤ} (a : ℤ → α) (hn : lo ≤ n ∧ n ≤ hi)
    (hm : lo ≤ m ∧ m ≤ hi) : Rearranges lo hi a (exchange a n m) := by
  refine ⟨Equiv.swap n m, ?_, exchange_eq a n m⟩
  intro i hi'
  apply Equiv.swap_apply_of_ne_of_ne
  · rintro rfl
    exact hi' hn
  · rintro rfl
    exact hi' hm

theorem exchange_left (a : ℤ → α) (n m : ℤ) : exchange a n m n = a m := by
  rw [exchange_eq, Function.comp_apply, Equiv.swap_apply_left]

theorem exchange_right (a : ℤ → α) (n m : ℤ) : exchange a n m m = a n := by
  rw [exchange_eq, Function.comp_apply, Equiv.swap_apply_right]

theorem exchange_of_ne (a : ℤ → α) {n m i : ℤ} (hn : i ≠ n) (hm : i ≠ m) :
    exchange a n m i = a i := by
  rw [exchange_eq, Function.comp_apply, Equiv.swap_apply_of_ne_of_ne hn hm]

/-- Entries outside of the interval stay where they are. -/
theorem Rearranges.outside {lo hi : ℤ} {a b : ℤ → α} (h : Rearranges lo hi a b) {i : ℤ}
    (hi' : ¬ (lo ≤ i ∧ i ≤ hi)) : b i = a i := by
  obtain ⟨σ, hσ, rfl⟩ := h
  rw [Function.comp_apply, hσ i hi']

theorem perm_maps_interval {lo hi : ℤ} {σ : Equiv.Perm ℤ}
    (hσ : ∀ i, ¬ (lo ≤ i ∧ i ≤ hi) → σ i = i) {i : ℤ} (hi' : lo ≤ i ∧ i ≤ hi) :
    lo ≤ σ i ∧ σ i ≤ hi := by
  by_contra hout
  have hfix := hσ (σ i) hout
  rw [σ.injective hfix] at hout
  exact hout hi'

/-- What holds of all entries of the interval still does. -/
theorem Rearranges.forall {lo hi : ℤ} {a b : ℤ → α} (h : Rearranges lo hi a b)
    {P : α → Prop} (hP : ∀ i, lo ≤ i → i ≤ hi → P (a i)) :
    ∀ i, lo ≤ i → i ≤ hi → P (b i) := by
  obtain ⟨σ, hσ, rfl⟩ := h
  intro i hlo hhi
  obtain ⟨h₁, h₂⟩ := perm_maps_interval hσ ⟨hlo, hhi⟩
  exact hP _ h₁ h₂

theorem contents_length (a : ℤ → α) (n : ℕ) : (contents a n).length = n := by
  simp [contents]

theorem mem_contents {a : ℤ → α} {n : ℕ} {x : α} :
    x ∈ contents a n ↔ ∃ i : ℤ, 0 ≤ i ∧ i < n ∧ a i = x := by
  simp only [contents, List.mem_map, List.mem_range]
  constructor
  · rintro ⟨i, hi, rfl⟩
    exact ⟨i, by omega, by omega, rfl⟩
  · rintro ⟨i, h₀, hi, rfl⟩
    exact ⟨i.toNat, by omega, by rw [Int.toNat_of_nonneg h₀]⟩

theorem contents_congr {a b : ℤ → α} {n : ℕ} (h : ∀ i : ℤ, 0 ≤ i → i < n → a i = b i) :
    contents a n = contents b n := by
  apply List.map_congr_left
  intro i hi
  have := List.mem_range.mp hi
  exact h i (by omega) (by omega)

theorem contents_succ (a : ℤ → α) (n : ℕ) : contents a (n + 1) = contents a n ++ [a n] := by
  simp [contents, List.range_succ]

/-- A rearrangement of the first `n` entries permutes them as a list. -/
theorem Rearranges.contents_perm {n : ℕ} {hi : ℤ} {a b : ℤ → α} (h : Rearranges 0 hi a b)
    (hn : hi < n) : (contents b n).Perm (contents a n) := by
  obtain ⟨σ, hσ, rfl⟩ := h
  have hσ' : ∀ i, ¬ (0 ≤ i ∧ i ≤ (n : ℤ) - 1) → σ i = i := fun i hi' => hσ i (by omega)
  have hmap : ∀ i : ℕ, i < n → 0 ≤ σ i ∧ σ i ≤ (n : ℤ) - 1 :=
    fun i hi' => perm_maps_interval hσ' (by omega)
  have hrange : ((List.range n).map fun i : ℕ => (σ i).toNat).Perm (List.range n) := by
    apply List.Subperm.perm_of_length_le
    · apply List.subperm_of_subset
      · apply List.Nodup.map_on _ List.nodup_range
        intro i hi' j hj heq
        have hi₂ := hmap i (List.mem_range.mp hi')
        have hj₂ := hmap j (List.mem_range.mp hj)
        have hinj : σ i = σ j := by omega
        exact_mod_cast σ.injective hinj
      · intro x hx
        obtain ⟨i, hi', rfl⟩ := List.mem_map.mp hx
        have := hmap i (List.mem_range.mp hi')
        exact List.mem_range.mpr (by omega)
    · simp
  have hb : contents (a ∘ σ) n =
      ((List.range n).map fun i : ℕ => (σ i).toNat).map fun i : ℕ => a i := by
    rw [List.map_map]
    apply List.map_congr_left
    intro i hi'
    have := hmap i (List.mem_range.mp hi')
    simp only [Function.comp_apply]
    rw [Int.toNat_of_nonneg this.1]
  rw [hb]
  exact hrange.map _

end ThreadScan.Rearrangement
