import Mathlib

/-! The 64-bit words of the program and the macros that act on their low bits. Orders
and arithmetic facts move to natural numbers through `BitVec.toNat`. -/
namespace ThreadScan

abbrev Word := BitVec 64

/-- A C pointer to words: `buf i` is `buf[i]`, for any `int` index. -/
abbrev Mem := ℤ → Word

/-- PTR_MASK: mask off the low two bits. -/
def ptrMask (v : Word) : Word := v &&& ~~~3#64

/-- The test `v & 1` of SET_LOW_BIT and of the post-search analysis. -/
def lowBit (v : Word) : Bool := v &&& 1#64 != 0#64

/-- The address under a mark: what the post-search analysis keeps of an entry. -/
def unmark (v : Word) : Word := if lowBit v then ptrMask v else v

theorem and_not_and (v c : Word) : (v &&& ~~~c) &&& (v &&& c) = 0#64 := by
  ext i hi
  simp only [BitVec.getElem_and, BitVec.getElem_not, BitVec.getElem_zero]
  grind

theorem and_not_or_and (v c : Word) : (v &&& ~~~c) ||| (v &&& c) = v := by
  ext i hi
  simp only [BitVec.getElem_or, BitVec.getElem_and, BitVec.getElem_not]
  grind

/-- A word is the sum of its bits inside and outside a mask. -/
theorem toNat_split (v c : Word) : (v &&& ~~~c).toNat + (v &&& c).toNat = v.toNat := by
  have h := BitVec.toNat_add_of_and_eq_zero (and_not_and v c)
  rw [BitVec.add_eq_or_of_and_eq_zero _ _ (and_not_and v c), and_not_or_and] at h
  exact h.symm

theorem ptrMask_toNat (v : Word) : (ptrMask v).toNat = 4 * (v.toNat / 4) := by
  have hlow : (v &&& 3#64).toNat = v.toNat % 4 := by
    rw [BitVec.toNat_and]
    exact Nat.and_two_pow_sub_one_eq_mod _ 2
  have hsplit := toNat_split v 3#64
  change (v &&& ~~~3#64).toNat = _
  omega

theorem ptrMask_aligned (v : Word) : (ptrMask v).toNat % 4 = 0 := by
  rw [ptrMask_toNat]
  omega

theorem lowBit_iff (v : Word) : lowBit v = true ↔ v.toNat % 2 = 1 := by
  have h : (v &&& 1#64).toNat = v.toNat % 2 := by
    rw [BitVec.toNat_and]
    exact Nat.and_one_is_mod _
  unfold lowBit
  rw [bne_iff_ne, ne_eq, ← BitVec.toNat_inj, h, BitVec.toNat_zero]
  omega

theorem lowBit_eq_false (v : Word) : lowBit v = false ↔ v.toNat % 2 = 0 := by
  rw [← Bool.not_eq_true, lowBit_iff]
  omega

/-- Setting the low bit of an even word never carries. -/
theorem toNat_add_one {v : Word} (h : v.toNat % 2 = 0) : (v + 1#64).toNat = v.toNat + 1 := by
  have hv := v.isLt
  rw [BitVec.toNat_add]
  simp only [BitVec.toNat_ofNat]
  omega

theorem lowBit_add_one {v : Word} (h : v.toNat % 2 = 0) : lowBit (v + 1#64) = true := by
  rw [lowBit_iff, toNat_add_one h]
  omega

theorem unmark_of_even {v : Word} (h : v.toNat % 2 = 0) : unmark v = v := by
  simp [unmark, (lowBit_eq_false v).mpr h]

theorem unmark_add_one {v : Word} (h : v.toNat % 4 = 0) : unmark (v + 1#64) = v := by
  have h2 : v.toNat % 2 = 0 := by omega
  apply BitVec.eq_of_toNat_eq
  rw [unmark, if_pos (lowBit_add_one h2), ptrMask_toNat, toNat_add_one h2]
  omega

end ThreadScan
