import ThreadScan.PowerOfTwo
import ThreadScan.Queue

/-! The size of the pointer queues (`env.c`): the environment's number of thousands, rounded up
to a power of two and kept between two bounds, in the arithmetic of `int`. -/
namespace ThreadScan.Env
open PowerOfTwo ThreadScan.Queue

/-- MAX_PTRS_PER_THREAD. -/
def maxPtrsPerThread : BitVec 32 := 32768#32

/-- MIN_PTRS_PER_THREAD. -/
def minPtrsPerThread : BitVec 32 := 1024#32

/-- `get_int`, where `val` is what `atoi` makes of the variable if that is set. -/
def getInt (val : Option (BitVec 32)) (defaultVal : BitVec 32) : BitVec 32 := val.getD defaultVal

/-- The bit trick of `env_init`. -/
def roundUp (ptrsPerThread : BitVec 32) : BitVec 32 :=
  let p := ptrsPerThread - 1#32
  let p := p ||| p.sshiftRight 1
  let p := p ||| p.sshiftRight 2
  let p := p ||| p.sshiftRight 4
  let p := p ||| p.sshiftRight 8
  let p := p ||| p.sshiftRight 16
  p + 1#32

/-- What `env_init` sets `g_threadscan_ptrs_per_thread` to. -/
def envInit (val : Option (BitVec 32)) : BitVec 32 :=
  let ptrsPerThread := roundUp (getInt val 4#32 * 1024#32)
  -- Bounds-checking.
  if ptrsPerThread.slt minPtrsPerThread then minPtrsPerThread
  else if maxPtrsPerThread.slt ptrsPerThread then maxPtrsPerThread
  else ptrsPerThread

/-- The number of pointers that is asked for, without the limits of `int`. -/
def sized (v : ℤ) : ℤ := max 1024 (min 32768 (2 ^ Nat.clog 2 (1024 * v).toNat))

/-- It is the least power of two that is not below `1024 * v`, kept between the bounds. -/
theorem sized_eq (v : ℤ) : ∃ m : ℤ, IsLeast {m | (∃ k : ℕ, m = 2 ^ k) ∧ 1024 * v ≤ m} m ∧
    sized v = max 1024 (min 32768 m) := by
  obtain ⟨⟨-, hle⟩, hleast⟩ := isLeast_two_pow_clog (1024 * v).toNat
  refine ⟨2 ^ Nat.clog 2 (1024 * v).toNat, ⟨⟨⟨_, rfl⟩, ?_⟩, ?_⟩, rfl⟩
  · have hcast : ((1024 * v).toNat : ℤ) ≤ 2 ^ Nat.clog 2 (1024 * v).toNat := by exact_mod_cast hle
    omega
  · rintro m ⟨⟨k, rfl⟩, hk⟩
    have hnat : (1024 * v).toNat ≤ 2 ^ k := by
      rw [Int.toNat_le]
      exact_mod_cast hk
    exact_mod_cast hleast ⟨⟨k, rfl⟩, hnat⟩

/-- The bounds-checking, on numbers. -/
def bounded (p : ℤ) : ℤ := if p < 1024 then 1024 else if 32768 < p then 32768 else p

theorem envInit_toInt (val : Option (BitVec 32)) :
    (envInit val).toInt = bounded (roundUp (getInt val 4#32 * 1024#32)).toInt := by
  have hmin : minPtrsPerThread.toInt = 1024 := by decide
  have hmax : maxPtrsPerThread.toInt = 32768 := by decide
  simp only [envInit, bounded, BitVec.slt_iff_toInt_lt, hmin, hmax]
  rw [apply_ite BitVec.toInt, apply_ite BitVec.toInt, hmin, hmax]

/-- The default. -/
example : envInit none = 4096#32 := by decide +kernel

theorem roundUp_smears (p : BitVec 32) :
    ∃ y, Smears y (p - 1#32) 32 ∧ roundUp p = y + 1#32 :=
  ⟨_, (((((Smears.refl _).double).double).double).double).double, rfl⟩

/-- The bit trick, where nothing overflows. -/
theorem roundUp_of_pos {p : BitVec 32} (pos : 0 < p.toInt) (small : p.toInt ≤ 2 ^ 30) :
    (roundUp p).toInt = 2 ^ Nat.clog 2 p.toInt.toNat := by
  obtain ⟨y, hy, hround⟩ := roundUp_smears p
  have hp : p.toInt = p.toNat := by
    rw [BitVec.toInt_eq_toNat_cond] at pos ⊢
    split_ifs at pos ⊢ <;> omega
  have hpred : (p - 1#32).toNat = p.toNat - 1 := by
    rw [hp] at pos
    bv_omega
  have hmsb : (p - 1#32).msb = false := by
    rw [BitVec.msb_eq_false_iff_two_mul_lt, hpred]
    omega
  have hnat := hy.of_nonnegative le_rfl hmsb
  rw [hpred, two_pow_size_pred (by omega)] at hnat
  have hpow : 2 ^ Nat.clog 2 p.toNat ≤ 2 ^ 30 := by
    refine Nat.pow_le_pow_right two_pos ((Nat.clog_le_iff_le_pow one_lt_two).mpr ?_)
    omega
  have hpos : 0 < 2 ^ Nat.clog 2 p.toNat := Nat.two_pow_pos _
  have hsum : (y + 1#32).toNat = 2 ^ Nat.clog 2 p.toNat := by bv_omega
  rw [hround, BitVec.toInt_eq_toNat_of_lt (by omega), hsum, hp, Int.toNat_natCast]
  push_cast
  rfl

/-- Everywhere else the sign bit is set in the end, or nothing is. -/
theorem roundUp_nonpos {p : BitVec 32} (h : p.toInt ≤ 0 ∨ 2 ^ 30 < p.toInt) :
    (roundUp p).toInt ≤ 0 := by
  obtain ⟨y, hy, hround⟩ := roundUp_smears p
  rw [hround]
  cases hmsb : (p - 1#32).msb with
  | true =>
    rw [hy.of_negative le_rfl hmsb]
    decide
  | false =>
    -- the predecessor is one of the largest numbers
    rw [BitVec.msb_eq_false_iff_two_mul_lt] at hmsb
    have hlarge : 2 ^ 30 ≤ (p - 1#32).toNat := by
      rw [BitVec.toInt_eq_toNat_cond] at h
      split_ifs at h <;> bv_omega
    have hsize : Nat.size (p - 1#32).toNat = 31 := by
      refine le_antisymm (Nat.size_le.mpr (by omega)) (Nat.lt_size.mpr hlarge)
    have hnat := hy.of_nonnegative le_rfl (by rw [BitVec.msb_eq_false_iff_two_mul_lt]; exact hmsb)
    rw [hsize] at hnat
    have hsum : (y + 1#32).toNat = 2 ^ 31 := by bv_omega
    rw [BitVec.toInt_eq_toNat_cond, hsum]
    decide

theorem bounded_eq (p : ℤ) : bounded p = max 1024 (min 32768 p) := by
  unfold bounded
  split_ifs <;> omega

/-- The number of thousands that is left of `v` after the multiplication. -/
def wrapped (v : ℤ) : ℤ := v.bmod (2 ^ 22)

theorem product_toInt (v : BitVec 32) : (v * 1024#32).toInt = 1024 * wrapped v.toInt := by
  have hfactor : (1024#32).toInt = 1024 := by decide
  rw [BitVec.toInt_mul, hfactor, wrapped, Int.bmod, Int.bmod]
  split_ifs <;> omega

/-- The number of pointers is right for what the multiplication leaves, unless the rounding
overflows. -/
theorem envInit_some (v : BitVec 32) : (envInit (some v)).toInt =
    if 0 < wrapped v.toInt ∧ wrapped v.toInt ≤ 2 ^ 20 then sized (wrapped v.toInt) else 1024 := by
  have hproduct := product_toInt v
  rw [envInit_toInt, bounded_eq]
  simp only [getInt, Option.getD_some]
  split_ifs with h
  · rw [roundUp_of_pos (by omega) (by omega), hproduct, sized]
  · have hround := roundUp_nonpos (p := v * 1024#32) (by omega)
    omega

theorem sized_mono {u v : ℤ} (h : u ≤ v) : sized u ≤ sized v := by
  have hclog : Nat.clog 2 (1024 * u).toNat ≤ Nat.clog 2 (1024 * v).toNat :=
    Nat.clog_mono_right 2 (by omega)
  have hpow : (2 : ℤ) ^ Nat.clog 2 (1024 * u).toNat ≤ 2 ^ Nat.clog 2 (1024 * v).toNat :=
    pow_le_pow_right₀ (by norm_num) hclog
  unfold sized
  omega

/-- The size at a power of two. -/
theorem sized_two_pow (k : ℕ) : sized (2 ^ k) = max 1024 (min 32768 (2 ^ (k + 10))) := by
  have hnat : (1024 * 2 ^ k : ℤ).toNat = 2 ^ (k + 10) := by
    rw [pow_add, mul_comm]
    exact_mod_cast Int.toNat_natCast (2 ^ k * 2 ^ 10)
  rw [sized, hnat, Nat.clog_pow 2 _ one_lt_two]

theorem sized_of_le_one {v : ℤ} (h : v ≤ 1) : sized v = 1024 := by
  have hle := sized_mono h
  have hone : sized 1 = 1024 := sized_two_pow 0
  have hmin : 1024 ≤ sized v := le_max_left _ _
  omega

theorem sized_of_two_le {v : ℤ} (h : 2 ≤ v) : 2048 ≤ sized v := by
  have htwo : sized 2 = 2048 := sized_two_pow 1
  exact htwo ▸ sized_mono h

theorem sized_of_le {v : ℤ} (h : v ≤ 16) : sized v ≤ 16384 := by
  have hsixteen : sized 16 = 16384 := sized_two_pow 4
  exact hsixteen ▸ sized_mono h

/-- From 17 on the upper bound is reached. -/
theorem sized_of_lt {v : ℤ} (h : 16 < v) : sized v = 32768 := by
  have hmax : sized v ≤ 32768 := by unfold sized; omega
  have hclog : 14 < Nat.clog 2 (1024 * v).toNat := by
    by_contra hle
    have hpow := (Nat.clog_le_iff_le_pow one_lt_two).mp (Nat.not_lt.mp hle)
    omega
  have hpow : (2 : ℤ) ^ 15 ≤ 2 ^ Nat.clog 2 (1024 * v).toNat :=
    pow_le_pow_right₀ (by norm_num) hclog
  have hmin : 32768 ≤ sized v := by unfold sized; omega
  omega

/-- A size is a power of two. -/
theorem sized_pow (v : ℤ) : ∃ k : ℕ, 10 ≤ k ∧ k ≤ 15 ∧ sized v = 2 ^ k := by
  by_cases hlow : Nat.clog 2 (1024 * v).toNat ≤ 10
  · have hpow : (2 : ℤ) ^ Nat.clog 2 (1024 * v).toNat ≤ 2 ^ 10 :=
      pow_le_pow_right₀ (by norm_num) hlow
    exact ⟨10, le_rfl, by omega, by unfold sized; omega⟩
  by_cases hhigh : 15 ≤ Nat.clog 2 (1024 * v).toNat
  · have hpow : (2 : ℤ) ^ 15 ≤ 2 ^ Nat.clog 2 (1024 * v).toNat :=
      pow_le_pow_right₀ (by norm_num) hhigh
    exact ⟨15, by omega, le_rfl, by unfold sized; omega⟩
  · have hfrom : (2 : ℤ) ^ 10 ≤ 2 ^ Nat.clog 2 (1024 * v).toNat :=
      pow_le_pow_right₀ (by norm_num) (by omega)
    have hto : (2 : ℤ) ^ Nat.clog 2 (1024 * v).toNat ≤ 2 ^ 15 :=
      pow_le_pow_right₀ (by norm_num) (by omega)
    exact ⟨Nat.clog 2 (1024 * v).toNat, by omega, by omega, by unfold sized; omega⟩

/-- The multiplication and the rounding stay within `int`, or what they wrap to is on the same
side of the bounds as `v`. -/
def Fits (v : ℤ) : Prop :=
  -2 ^ 21 ≤ v ∧ v ≤ 2 ^ 20 ∨ v < -2 ^ 21 ∧ ¬ (2 ≤ wrapped v ∧ wrapped v ≤ 2 ^ 20) ∨
    2 ^ 20 < v ∧ 17 ≤ wrapped v ∧ wrapped v ≤ 2 ^ 20

theorem wrapped_of_small {v : ℤ} (low : -2 ^ 21 ≤ v) (high : v < 2 ^ 21) : wrapped v = v := by
  rw [wrapped, Int.bmod]
  split_ifs <;> omega

theorem envInit_eq_sized (v : BitVec 32) :
    (envInit (some v)).toInt = sized v.toInt ↔ Fits v.toInt := by
  rw [envInit_some, Fits]
  by_cases hlow : v.toInt < -2 ^ 21
  · have hasked : sized v.toInt = 1024 := sized_of_le_one (by omega)
    rw [hasked]
    split_ifs with hr
    · rcases lt_or_ge (wrapped v.toInt) 2 with hone | htwo
      · have hsize : sized (wrapped v.toInt) = 1024 := sized_of_le_one (by omega)
        omega
      · have hsize := sized_of_two_le htwo
        omega
    · omega
  by_cases hhigh : 2 ^ 20 < v.toInt
  · have hasked : sized v.toInt = 32768 := sized_of_lt (by omega)
    rw [hasked]
    split_ifs with hr
    · rcases lt_or_ge 16 (wrapped v.toInt) with hmore | hless
      · have hsize := sized_of_lt hmore
        omega
      · have hsize := sized_of_le hless
        omega
    · omega
  · have hsame : wrapped v.toInt = v.toInt := wrapped_of_small (by omega) (by omega)
    rw [hsame]
    split_ifs with hr
    · simp only [true_iff]
      omega
    · have hasked : sized v.toInt = 1024 := sized_of_le_one (by omega)
      omega

theorem envInit_pow (val : Option (BitVec 32)) :
    ∃ k : ℕ, 10 ≤ k ∧ k ≤ 15 ∧ (envInit val).toInt = 2 ^ k := by
  have hsome : ∀ v, ∃ k : ℕ, 10 ≤ k ∧ k ≤ 15 ∧ (envInit (some v)).toInt = 2 ^ k := by
    intro v
    rw [envInit_some]
    split_ifs
    · exact sized_pow _
    · exact ⟨10, le_rfl, by omega, rfl⟩
  cases val with
  | none => exact hsome 4#32
  | some v => exact hsome v

/-- In queues of this size the mask is the remainder. -/
theorem indexify_envInit (val : Option (BitVec 32)) (i : Word) :
    (indexify i ((envInit val).signExtend 64)).toNat = i.toNat % (envInit val).toNat := by
  obtain ⟨k, -, hk, hpow⟩ := envInit_pow val
  have hint : (envInit val).toInt = ((2 ^ k : ℕ) : ℤ) := by rw [hpow]; push_cast; rfl
  have hle : 2 ^ k ≤ 2 ^ 15 := Nat.pow_le_pow_right two_pos hk
  have hnat : (envInit val).toNat = 2 ^ k := by
    rw [BitVec.toInt_eq_toNat_cond] at hint
    generalize 2 ^ k = m at hint ⊢
    split_ifs at hint <;> omega
  have hmsb : (envInit val).msb = false := by
    rw [BitVec.msb_eq_false_iff_two_mul_lt]
    omega
  have hext : ((envInit val).signExtend 64).toNat = 2 ^ k := by
    rw [BitVec.signExtend_eq_setWidth_of_msb_false hmsb, BitVec.toNat_setWidth, hnat]
    exact Nat.mod_eq_of_lt (by omega)
  rw [indexify_toNat hext, hnat]

/-- The number of pointers is a power of two between the bounds. It is the one that is asked for
exactly where the request fits, and grows with the request there. -/
theorem env_init_sizes (v : BitVec 32) :
    (∃ k : ℕ, 10 ≤ k ∧ k ≤ 15 ∧ (envInit (some v)).toInt = 2 ^ k) ∧
      ((envInit (some v)).toInt = sized v.toInt ↔ Fits v.toInt) ∧
      ∀ u : BitVec 32, Fits u.toInt → Fits v.toInt → u.toInt ≤ v.toInt →
        (envInit (some u)).toInt ≤ (envInit (some v)).toInt := by
  refine ⟨envInit_pow (some v), envInit_eq_sized v, fun u hu hv hle => ?_⟩
  rw [(envInit_eq_sized u).mpr hu, (envInit_eq_sized v).mpr hv]
  exact sized_mono hle

/-- More is asked for, and more is given. -/
theorem env_init_sizes_eight : (envInit (some 4#32)).toInt ≤ (envInit (some 8#32)).toInt :=
  (env_init_sizes 8#32).2.2 4#32 (.inl (by decide)) (.inl (by decide)) (by decide)

/-- The request for 1048577 thousands overflows in the rounding and gets the least number of
pointers, less than one for a thousand less. -/
theorem env_init_overflows : ¬ ∀ v : BitVec 32, (envInit (some v)).toInt = sized v.toInt := by
  intro h
  have hleast : (envInit (some 1048577#32)).toInt = 1024 := by decide +kernel
  have hvalue : (1048577#32).toInt = 1048577 := by decide
  have hmost : sized 1048577 = 32768 := sized_of_lt (by omega)
  have hbound := h 1048577#32
  rw [hleast, hvalue, hmost] at hbound
  omega

end ThreadScan.Env
