import ThreadScan.Compaction

/-! What `threadscan_util_randomize` does to an array whose length is a power of two. Its
multiplier is minus one modulo such a length, so the partner of an entry's partner is the
entry itself and every pair is exchanged twice. -/
namespace ThreadScan.Shuffle
open Rearrangement Compaction

section Involution
variable {α : Type*} {p : ℕ → ℕ} {n : ℕ}

/-- Exchange every entry from `i` on with its partner, one after the other, `k` times. -/
def exchangeEach (p : ℕ → ℕ) : ℕ → (ℤ → α) → ℕ → (ℤ → α)
  | 0, a, _ => a
  | k + 1, a, i => exchangeEach p k (exchange a i (p i)) (i + 1)

/-- The array after `i` exchanges: an entry is displaced when the loop has passed one of the
two partners and not the other. -/
def displaced (p : ℕ → ℕ) (n i : ℕ) (a : ℤ → α) (j : ℤ) : α :=
  if 0 ≤ j ∧ j < n ∧ (j.toNat < i ↔ ¬ p j.toNat < i) then a (p j.toNat) else a j

theorem displaced_nat (i : ℕ) (a : ℤ → α) {j : ℕ} (hj : j < n) :
    displaced p n i a j = if (j < i ↔ ¬ p j < i) then a (p j) else a j := by
  simp only [displaced, Int.toNat_natCast, Int.natCast_nonneg, Nat.cast_lt, hj, true_and]

theorem displaced_outside (i : ℕ) (a : ℤ → α) {j : ℤ} (hj : ¬ (0 ≤ j ∧ j < n)) :
    displaced p n i a j = a j := by
  rw [displaced, if_neg]
  intro h
  exact hj ⟨h.1, h.2.1⟩

theorem displaced_zero (a : ℤ → α) : displaced p n 0 a = a := by
  funext j
  rw [displaced, if_neg]
  simp

theorem displaced_all (hp : ∀ i < n, p i < n) (a : ℤ → α) : displaced p n n a = a := by
  funext j
  rw [displaced, if_neg]
  intro h
  have hlt : j.toNat < n := by omega
  exact h.2.2.mp hlt (hp _ hlt)

/-- One exchange. -/
theorem displaced_succ (hp : ∀ i < n, p i < n ∧ p (p i) = i) (a : ℤ → α) {i : ℕ} (hi : i < n) :
    exchange (displaced p n i a) i (p i) = displaced p n (i + 1) a := by
  obtain ⟨hlt, hback⟩ := hp i hi
  have hself : displaced p n i a i = if p i < i then a (p i) else a i := by
    rw [displaced_nat i a hi]
    apply if_congr _ rfl rfl
    simp
  have hpartner : displaced p n i a (p i) = if p i < i then a i else a (p i) := by
    rw [displaced_nat i a hlt, hback]
    apply if_congr _ rfl rfl
    simp
  funext j
  by_cases hin : 0 ≤ j ∧ j < n
  · lift j to ℕ using hin.1
    have hj : j < n := by exact_mod_cast hin.2
    rw [displaced_nat (i + 1) a hj]
    by_cases hji : j = i
    · subst hji
      rw [exchange_left, hpartner]
      split_ifs <;> grind
    · by_cases hjp : j = p i
      · subst hjp
        rw [exchange_right, hself, hback]
        split_ifs <;> grind
      · -- Neither of the two: the loop passes neither it nor its partner.
        have hne : p j ≠ i := by
          intro h
          apply hjp
          rw [← h, (hp j hj).2]
        rw [exchange_of_ne _ (by exact_mod_cast hji) (by exact_mod_cast hjp), displaced_nat i a hj]
        apply if_congr _ rfl rfl
        omega
  · rw [displaced_outside _ _ hin, exchange_of_ne _ (by omega) (by omega), displaced_outside _ _ hin]

theorem exchangeEach_displaced (hp : ∀ i < n, p i < n ∧ p (p i) = i) (a : ℤ → α) (k : ℕ) {i : ℕ}
    (h : i + k = n) : exchangeEach p k (displaced p n i a) i = a := by
  induction k generalizing i with
  | zero =>
    obtain rfl : i = n := by omega
    exact displaced_all (fun i hi => (hp i hi).1) a
  | succ k ih =>
    unfold exchangeEach
    rw [displaced_succ hp a (by omega)]
    exact ih (by omega)

/-- Exchanging every entry with its partner restores the array. -/
theorem exchangeEach_involution (hp : ∀ i < n, p i < n ∧ p (p i) = i) (a : ℤ → α) :
    exchangeEach p n a 0 = a := by
  have h := exchangeEach_displaced hp a n (i := 0) (by omega)
  rwa [displaced_zero] at h

end Involution

/-- The entry that iteration `i` exchanges with. -/
def partner (n i : ℕ) : ℕ := i * 2147483647 % 2 ^ 32 % n

theorem randomizeLoop_eq (n k : ℕ) (a : Mem) (i : ℕ) :
    randomizeLoop n k a i = exchangeEach (partner n) k a i := by
  induction k generalizing a i with
  | zero => rfl
  | succ k ih =>
    unfold randomizeLoop exchangeEach
    rw [← ih]
    dsimp only
    split_ifs with h
    · rfl
    · have hsame : partner n i = i := by
        rw [partner]
        omega
      rw [hsame, exchange_eq, Equiv.swap_self]
      rfl

/-- Modulo a power of two the partner of `i` is `-i`: the multiplier is one less than one. -/
theorem partner_add {k : ℕ} (hk : k < 31) (i : ℕ) : (partner (2 ^ k) i + i) % 2 ^ k = 0 := by
  have h₃₁ : 2 ^ k ∣ 2 ^ 31 := pow_dvd_pow 2 (by omega)
  have h₃₂ : 2 ^ k ∣ 2 ^ 32 := pow_dvd_pow 2 (by omega)
  rw [partner, Nat.mod_mod_of_dvd _ h₃₂, Nat.mod_add_mod]
  have hsum : i * 2147483647 + i = i * 2 ^ 31 := by ring
  rw [hsum]
  exact Nat.mod_eq_zero_of_dvd (h₃₁.mul_left i)

theorem partner_partner {k : ℕ} (hk : k < 31) {i : ℕ} (hi : i < 2 ^ k) :
    partner (2 ^ k) i < 2 ^ k ∧ partner (2 ^ k) (partner (2 ^ k) i) = i := by
  have hpos : 0 < 2 ^ k := by positivity
  have hlt : ∀ j, partner (2 ^ k) j < 2 ^ k := fun j => Nat.mod_lt _ hpos
  refine ⟨hlt i, ?_⟩
  have h₁ := partner_add hk i
  have h₂ := partner_add hk (partner (2 ^ k) i)
  have hcong : partner (2 ^ k) (partner (2 ^ k) i) ≡ i [MOD 2 ^ k] := by
    apply Nat.ModEq.add_right_cancel' (partner (2 ^ k) i)
    rw [Nat.ModEq, h₂, Nat.add_comm, h₁]
  exact hcong.eq_of_lt_of_lt (hlt _) hi

/-- The shuffle of an array whose length is a power of two leaves every entry where it
is. -/
theorem randomize_keeps {k : ℕ} (hk : k < 31) (addrs : Mem) :
    threadscanUtilRandomize addrs (2 ^ k) = addrs := by
  unfold threadscanUtilRandomize
  rw [randomizeLoop_eq]
  apply exchangeEach_involution
  intro i hi
  exact partner_partner hk hi

theorem randomize_keeps_eight :
    threadscanUtilRandomize (fun i => BitVec.ofInt 64 i) (2 ^ 3) = fun i => BitVec.ofInt 64 i :=
  randomize_keeps (by omega) _

end ThreadScan.Shuffle
