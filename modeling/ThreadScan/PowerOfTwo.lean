import Mathlib

/-! Rounding up to a power of two by bits: a number that is shifted over itself often enough
has every bit below its highest one set, and the sign of a negative one fills the whole word. -/
namespace ThreadScan.PowerOfTwo

variable {w : ℕ} {x y : BitVec w} {i k n : ℕ}

/-- The bits of a signed number, whose sign goes on without end. -/
def signedBit (x : BitVec w) (i : ℕ) : Bool := if i < w then x.getLsbD i else x.msb

theorem signedBit_of_lt (h : i < w) : signedBit x i = x.getLsbD i := if_pos h

theorem signedBit_of_le (h : w ≤ i) : signedBit x i = x.msb := if_neg (Nat.not_lt.mpr h)

/-- An arithmetic shift. -/
theorem signedBit_sshiftRight (x : BitVec w) (i k : ℕ) :
    signedBit (x.sshiftRight k) i = signedBit x (i + k) := by
  by_cases hi : i < w
  · rw [signedBit_of_lt hi, BitVec.getLsbD_sshiftRight, decide_eq_false (Nat.not_le.mpr hi)]
    simp only [Bool.not_false, Bool.true_and, signedBit, Nat.add_comm]
  · have hw : w ≤ i := Nat.not_lt.mp hi
    rw [signedBit_of_le hw, signedBit_of_le (hw.trans (Nat.le_add_right i k)),
      BitVec.msb_sshiftRight]

theorem signedBit_or (x y : BitVec w) (i : ℕ) :
    signedBit (x ||| y) i = (signedBit x i || signedBit y i) := by
  unfold signedBit
  split_ifs
  · exact BitVec.getLsbD_or
  · exact BitVec.msb_or

/-- The bits of `y` are those of `x`, each with the `k - 1` positions below it. -/
def Smears (y x : BitVec w) (k : ℕ) : Prop :=
  ∀ i, signedBit y i = true ↔ ∃ d < k, signedBit x (i + d) = true

theorem Smears.refl (x : BitVec w) : Smears x x 1 := by
  intro i
  constructor
  · exact fun h => ⟨0, one_pos, h⟩
  · rintro ⟨d, hd, h⟩
    obtain rfl : d = 0 := by omega
    exact h

/-- A shift by as much as is covered already doubles it. -/
theorem Smears.double (h : Smears y x k) : Smears (y ||| y.sshiftRight k) x (2 * k) := by
  intro i
  rw [signedBit_or, Bool.or_eq_true, signedBit_sshiftRight, h i, h (i + k)]
  constructor
  · rintro (⟨d, hd, hbit⟩ | ⟨d, hd, hbit⟩)
    · exact ⟨d, by omega, hbit⟩
    · exact ⟨k + d, by omega, by rwa [← Nat.add_assoc]⟩
  · rintro ⟨d, hd, hbit⟩
    rcases Nat.lt_or_ge d k with hlt | hge
    · exact .inl ⟨d, hlt, hbit⟩
    · refine .inr ⟨d - k, by omega, ?_⟩
      rwa [Nat.add_assoc, Nat.add_sub_cancel' hge]

/-- The sign of a negative number is everywhere. -/
theorem Smears.of_negative (h : Smears y x k) (hk : w ≤ k) (neg : x.msb = true) :
    y = BitVec.allOnes w := by
  apply BitVec.eq_of_getLsbD_eq
  intro i hi
  have hlast : signedBit x (w - 1) = true := by
    rw [signedBit_of_lt (by omega), ← BitVec.msb_eq_getLsbD_last, neg]
  have hbit : signedBit y i = true := by
    refine (h i).mpr ⟨w - 1 - i, by omega, ?_⟩
    rwa [show i + (w - 1 - i) = w - 1 by omega]
  rw [← signedBit_of_lt hi, hbit]
  simp [hi]

/-- Every bit below the highest one is set. -/
theorem Smears.of_nonnegative (h : Smears y x k) (hk : w ≤ k) (nonneg : x.msb = false) :
    y.toNat = 2 ^ Nat.size x.toNat - 1 := by
  apply Nat.eq_of_testBit_eq
  intro i
  rw [Nat.testBit_two_pow_sub_one, Bool.eq_iff_iff, decide_eq_true_iff, Nat.lt_size]
  constructor
  · intro hbit
    have hi : i < w := BitVec.lt_of_getLsbD hbit
    obtain ⟨d, -, hd⟩ := (h i).mp ((signedBit_of_lt hi).trans hbit)
    have hx : x.toNat.testBit (i + d) = true := by
      unfold signedBit at hd
      split_ifs at hd
      · exact hd
      · rw [nonneg] at hd
        cases hd
    have hpow := Nat.ge_two_pow_of_testBit hx
    exact (Nat.pow_le_pow_right two_pos (Nat.le_add_right i d)).trans hpow
  · intro hpow
    obtain ⟨j, hij, hj⟩ := Nat.exists_ge_and_testBit_of_ge_two_pow hpow
    have hjw : j < w := BitVec.lt_of_getLsbD hj
    have hbit : signedBit y i = true := by
      refine (h i).mpr ⟨j - i, by omega, ?_⟩
      rw [Nat.add_sub_cancel' hij, signedBit_of_lt hjw]
      exact hj
    rwa [signedBit_of_lt (by omega)] at hbit

/-- The least power of two that is not below a number. -/
theorem two_pow_size_pred (h : 0 < n) : 2 ^ Nat.size (n - 1) = 2 ^ Nat.clog 2 n := by
  congr 1
  refine eq_of_forall_ge_iff fun k => ?_
  rw [Nat.size_le, Nat.clog_le_iff_le_pow one_lt_two]
  omega

theorem isLeast_two_pow_clog (n : ℕ) : IsLeast {m | (∃ k, m = 2 ^ k) ∧ n ≤ m} (2 ^ Nat.clog 2 n) := by
  refine ⟨⟨⟨_, rfl⟩, Nat.le_pow_clog one_lt_two n⟩, ?_⟩
  rintro m ⟨⟨k, rfl⟩, hk⟩
  exact Nat.pow_le_pow_right two_pos ((Nat.clog_le_iff_le_pow one_lt_two).mpr hk)

end ThreadScan.PowerOfTwo
