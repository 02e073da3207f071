import ThreadScan.Word

/-! Registering a local block (`threadscan.c`). The two bounds are stored one after the other,
and the handler of a scan may run in between; it takes the block for registered as soon as
the lower bound is not zero. -/
namespace ThreadScan.LocalBlock

/-- `mem_range_t`. -/
structure MemRange where
  low : Word
  high : Word
  deriving DecidableEq

/-- What a call of `threadscan_register_local_block` names. -/
structure Call where
  addr : Word
  size : Word
  deriving DecidableEq

/-- The block that a call registers. -/
def Call.block (c : Call) : MemRange := ⟨c.addr, c.addr + c.size⟩

/-- `addr + size` does not wrap. -/
def Call.Valid (c : Call) : Prop := c.addr.toNat + c.size.toNat < 2 ^ 64

/-- The first store of `threadscan_register_local_block`. -/
def storeHigh (b : MemRange) (c : Call) : MemRange := { b with high := c.addr + c.size }

/-- The second store. -/
def storeLow (b : MemRange) (c : Call) : MemRange := { b with low := c.addr }

/-- The local range that `search_self_stack` and `do_reclaim` search, if any. -/
def localRange (b : MemRange) : Option MemRange := if 0#64 < b.low then some b else none

/-- The number of words that `search_range` passes to `do_search`. -/
def wordCount (r : MemRange) : Word := (r.high - r.low) / 8#64

/-- A point at which a handler may run: what the fields hold, the block in force before the
call in progress, and the block that the call registers. -/
structure Point where
  block : MemRange
  inForce : MemRange
  registering : Option MemRange

/-- The points of a sequence of calls, from a block in force on. -/
def points (b : MemRange) : List Call → List Point
  | [] => [⟨b, b, none⟩]
  | c :: calls =>
    ⟨b, b, none⟩ :: ⟨storeHigh b c, b, some c.block⟩ :: points (storeLow (storeHigh b c) c) calls

/-- A handler that runs here searches nothing or a registered block, and counts its words
without wrapping. -/
def Safe (p : Point) : Prop :=
  (localRange p.block = none ∨ localRange p.block = some p.inForce ∨
    ∃ r ∈ p.registering, localRange p.block = some r) ∧
  ∀ r ∈ localRange p.block,
    r.low ≤ r.high ∧ (wordCount r).toNat = (r.high.toNat - r.low.toNat) / 8

instance (p : Point) : Decidable (Safe p) := by
  unfold Safe
  infer_instance

/-- One block may follow the other in a single store. -/
def Follows (b b' : MemRange) : Prop := b.low = 0#64 ∨ b.low = b'.low ∨ b.high = b'.high

instance (b b' : MemRange) : Decidable (Follows b b') := by
  unfold Follows
  infer_instance

/-- No block is registered in a fresh record. -/
def unregistered : MemRange := ⟨0#64, 0#64⟩

theorem storeLow_storeHigh (b : MemRange) (c : Call) : storeLow (storeHigh b c) c = c.block := rfl

theorem zero_lt_iff {v : Word} : 0#64 < v ↔ v ≠ 0#64 := by
  constructor
  · rintro h rfl
    exact absurd h (BitVec.lt_irrefl _)
  · intro h
    bv_omega

theorem localRange_eq_none {b : MemRange} : localRange b = none ↔ b.low = 0#64 := by
  rw [localRange, ite_eq_right_iff, zero_lt_iff]
  simp

theorem localRange_eq_some {b r : MemRange} : localRange b = some r ↔ b.low ≠ 0#64 ∧ b = r := by
  rw [localRange, Option.ite_none_right_eq_some, zero_lt_iff, Option.some.injEq]

theorem Call.Valid.low_le {c : Call} (h : c.Valid) : c.block.low ≤ c.block.high := by
  have hadd : (c.addr + c.size).toNat = c.addr.toNat + c.size.toNat := by
    rw [BitVec.toNat_add]
    exact Nat.mod_eq_of_lt h
  change c.addr.toNat ≤ (c.addr + c.size).toNat
  omega

theorem wordCount_toNat {r : MemRange} (h : r.low ≤ r.high) :
    (wordCount r).toNat = (r.high.toNat - r.low.toNat) / 8 := by
  rw [wordCount, BitVec.toNat_udiv, BitVec.toNat_sub_of_le h]
  rfl

/-- Between two calls the handler finds the block in force. -/
theorem safe_between {b : MemRange} (h : b.low ≤ b.high) : Safe ⟨b, b, none⟩ := by
  constructor
  · by_cases h₀ : b.low = 0#64
    · exact .inl (localRange_eq_none.mpr h₀)
    · exact .inr (.inl (localRange_eq_some.mpr ⟨h₀, rfl⟩))
  · intro r hr
    obtain ⟨-, rfl⟩ := localRange_eq_some.mp hr
    exact ⟨h, wordCount_toNat h⟩

/-- Within a call it finds a registered block just where one block may follow the other. -/
theorem safe_within {b : MemRange} {c : Call} (h : b.low ≤ b.high) (valid : c.Valid) :
    Safe ⟨storeHigh b c, b, some c.block⟩ ↔ Follows b c.block := by
  constructor
  · rintro ⟨hnone | hold | ⟨r, hr, hnew⟩, -⟩
    · have hzero : (storeHigh b c).low = 0#64 := localRange_eq_none.mp hnone
      exact .inl hzero
    · obtain ⟨-, he⟩ := localRange_eq_some.mp hold
      exact .inr (.inr (congrArg MemRange.high he).symm)
    · obtain rfl : c.block = r := Option.some.inj hr
      obtain ⟨-, he⟩ : _ ∧ storeHigh b c = c.block := localRange_eq_some.mp hnew
      have hlow : (storeHigh b c).low = c.block.low := by rw [he]
      exact .inr (.inl hlow)
  · intro hfollows
    by_cases h₀ : b.low = 0#64
    · have hnone : localRange (storeHigh b c) = none := localRange_eq_none.mpr h₀
      exact ⟨.inl hnone, fun r hr => by simp [hnone] at hr⟩
    rcases hfollows with hzero | hlow | hhigh
    · exact absurd hzero h₀
    · have hnew : storeHigh b c = c.block := by rw [storeHigh, hlow]; rfl
      have hrange : localRange (storeHigh b c) = some c.block := localRange_eq_some.mpr ⟨h₀, hnew⟩
      refine ⟨.inr (.inr ⟨c.block, rfl, hrange⟩), fun r hr => ?_⟩
      obtain rfl : c.block = r := Option.some.inj (hrange.symm.trans hr)
      exact ⟨valid.low_le, wordCount_toNat valid.low_le⟩
    · have hold : storeHigh b c = b := congrArg (MemRange.mk b.low) hhigh.symm
      have hrange : localRange (storeHigh b c) = some b := localRange_eq_some.mpr ⟨h₀, hold⟩
      refine ⟨.inr (.inl hrange), fun r hr => ?_⟩
      obtain rfl : b = r := Option.some.inj (hrange.symm.trans hr)
      exact ⟨h, wordCount_toNat h⟩

theorem points_safe {b : MemRange} (h : b.low ≤ b.high) (calls : List Call)
    (valid : ∀ c ∈ calls, c.Valid) :
    (∀ p ∈ points b calls, Safe p) ↔ (b :: calls.map Call.block).IsChain Follows := by
  induction calls generalizing b with
  | nil => simpa [points] using safe_between h
  | cons c calls ih =>
    have hc : c.Valid := valid c (by simp)
    rw [points, List.forall_mem_cons, List.forall_mem_cons, storeLow_storeHigh, safe_within h hc,
      ih hc.low_le fun d hd => valid d (by simp [hd]), List.map_cons, List.isChain_cons_cons]
    exact and_iff_right (safe_between h)

/-- Every handler of a sequence of calls is safe exactly where no block is in force when the
next one is registered, or the two begin or end at the same address. -/
theorem register_local_block_safe (calls : List Call) (valid : ∀ c ∈ calls, c.Valid) :
    (∀ p ∈ points unregistered calls, Safe p) ↔
      (unregistered :: calls.map Call.block).IsChain Follows :=
  points_safe (BitVec.le_refl _) calls valid

/-- A single block, which grows later. -/
theorem register_local_block_safe_grow :
    ¬ ∃ p ∈ points unregistered [⟨8192#64, 64#64⟩, ⟨8192#64, 128#64⟩], ¬ Safe p := by
  rintro ⟨p, hp, hunsafe⟩
  exact hunsafe ((register_local_block_safe [⟨8192#64, 64#64⟩, ⟨8192#64, 128#64⟩]
    (by unfold Call.Valid; decide +kernel)).mpr (by decide +kernel) p hp)

/-- A lower second block is registered, and the handler runs between the two stores: it searches
from the old lower bound to the new upper bound, which is below it. -/
theorem register_local_block_torn :
    ¬ ∀ p ∈ points unregistered [⟨8192#64, 64#64⟩, ⟨4096#64, 64#64⟩], Safe p := by
  decide +kernel

end ThreadScan.LocalBlock
