import ThreadScan.Rearrangement
import ThreadScan.Sort
import ThreadScan.Word

/-! What a reclaimer does with its list once it is scanned: the in-place compaction that
frees the unmarked addresses, the shuffle of the remaining ones, and the conversion of the
buffer into a block of leftover storage. -/
namespace ThreadScan.Compaction
open Rearrangement ThreadScan.Sort

/-- `memcpy` of the words `src` to index `pos`. -/
def memcpy (dst : Mem) (pos : ℕ) (src : List Word) : Mem :=
  fun i => if (pos : ℤ) ≤ i ∧ i < pos + src.length then src.getD (i - pos).toNat 0#64 else dst i

/-- One iteration of `handle_unreferenced_ptrs`: the array and the write position
afterwards, and the address that is passed to `free`. -/
def handleEntry (addrs : Mem) (i writePosition : ℕ) : Mem × ℕ × Option Word :=
  if lowBit (addrs i) then
    -- Outstanding reference.
    (Function.update (Function.update addrs writePosition (ptrMask (addrs i))) i 0#64,
      writePosition + 1, none)
  else
    -- No remaining references.
    (Function.update addrs i 0#64, writePosition, some (addrs i))

/-- The loop of `threadscan_util_randomize`, in the arithmetic of `unsigned int`, with `k`
iterations to go. -/
def randomizeLoop (n : ℕ) : ℕ → Mem → ℕ → Mem
  | 0, addrs, _ => addrs
  | k + 1, addrs, i =>
    let tmp := i * 2147483647 % 2 ^ 32 % n
    randomizeLoop n k (if i ≠ tmp then swap addrs i tmp else addrs) (i + 1)

def threadscanUtilRandomize (addrs : Mem) (n : ℕ) : Mem := randomizeLoop n n addrs 0

/-- The addresses of the block that `store_remaining_addrs` converts a buffer into: the
first two words move to the end and become the link and the length. -/
def storeRemainingAddrs (addrs : Mem) (n : ℕ) : List Word :=
  let addrs := Function.update addrs n (addrs 0)
  let addrs := Function.update addrs (n + 1) (addrs 1)
  (List.range n).map fun i : ℕ => addrs (i + 2)

/-- The addresses that entries `i` to `n - 1` stand for. -/
def pendingEntries (a : Mem) (i n : ℕ) : List Word :=
  (List.range' i (n - i)).map fun k : ℕ => unmark (a k)

/-- Appending a copy at the end of the first entries. -/
theorem contents_memcpy (a : Mem) (n : ℕ) (l : List Word) :
    contents (memcpy a n l) (n + l.length) = contents a n ++ l := by
  apply List.ext_getElem
  · simp [contents_length]
  · intro i h₁ h₂
    rw [contents_length] at h₁
    simp only [contents, List.getElem_map, List.getElem_range, memcpy]
    by_cases hi : i < n
    · rw [if_neg (by omega), List.getElem_append_left (by simpa using hi)]
      simp
    · rw [if_pos (by omega), List.getElem_append_right (by simpa using hi)]
      simp only [List.length_map, List.length_range]
      rw [show ((i : ℤ) - n).toNat = i - n by omega]
      exact List.getD_eq_getElem _ _ (by omega)

theorem pendingEntries_zero (a : Mem) (n : ℕ) :
    pendingEntries a 0 n = (contents a n).map unmark := by
  simp [pendingEntries, contents, List.range_eq_range']

theorem pendingEntries_self (a : Mem) (n : ℕ) : pendingEntries a n n = [] := by
  simp [pendingEntries]

theorem pendingEntries_cons (a : Mem) {i n : ℕ} (h : i < n) :
    pendingEntries a i n = unmark (a i) :: pendingEntries a (i + 1) n := by
  obtain ⟨d, rfl⟩ : ∃ d, n = i + 1 + d := ⟨n - i - 1, by omega⟩
  rw [pendingEntries, pendingEntries, show i + 1 + d - i = d + 1 by omega,
    show i + 1 + d - (i + 1) = d by omega, List.range'_succ]
  rfl

theorem pendingEntries_congr {a b : Mem} {i n : ℕ} (h : ∀ k : ℕ, i ≤ k → k < n → a k = b k) :
    pendingEntries a i n = pendingEntries b i n := by
  apply List.map_congr_left
  intro k hk
  obtain ⟨h₁, h₂⟩ := List.mem_range'_1.mp hk
  rw [h k h₁ (by omega)]

theorem unmark_of_lowBit {v : Word} (h : lowBit v = true) : unmark v = ptrMask v := by
  rw [unmark, if_pos h]

theorem unmark_of_not_lowBit {v : Word} (h : lowBit v = false) : unmark v = v := by
  simp [unmark, h]

theorem handleEntry_position (a : Mem) (i w : ℕ) : (handleEntry a i w).2.1 ≤ w + 1 := by
  simp only [handleEntry]
  split_ifs
  · exact le_rfl
  · exact Nat.le_succ w

/-- The entries behind the read position rest. -/
theorem handleEntry_rest (a : Mem) {i w k : ℕ} (hw : w ≤ i) (hk : i < k) :
    (handleEntry a i w).1 k = a k := by
  simp only [handleEntry]
  split_ifs
  · dsimp only
    rw [Function.update_of_ne (by omega), Function.update_of_ne (by omega)]
  · exact Function.update_of_ne (by omega) _ _

theorem pendingEntries_handleEntry (a : Mem) {i w : ℕ} (hw : w ≤ i) (n : ℕ) :
    pendingEntries (handleEntry a i w).1 (i + 1) n = pendingEntries a (i + 1) n :=
  pendingEntries_congr fun _ h₀ _ => handleEntry_rest a hw (by omega)

/-- A marked entry ahead of the write position moves down to it. -/
theorem handleEntry_moves {a : Mem} {i w : ℕ} (hw : w < i) (h : lowBit (a i) = true) :
    (handleEntry a i w).2.1 = w + 1 ∧
    contents (handleEntry a i w).1 (w + 1) = contents a w ++ [unmark (a i)] := by
  simp only [handleEntry, if_pos h]
  refine ⟨trivial, ?_⟩
  rw [contents_succ, Function.update_of_ne (by omega), Function.update_self,
    unmark_of_lowBit h]
  congr 1
  apply contents_congr
  intro k h₀ hk
  rw [Function.update_of_ne (by omega), Function.update_of_ne (by omega)]

/-- A marked entry at the write position is overwritten: its address is gone. -/
theorem handleEntry_loses {a : Mem} {i : ℕ} (h : lowBit (a i) = true) :
    (handleEntry a i i).2.1 = i + 1 ∧
    contents (handleEntry a i i).1 (i + 1) = contents a i ++ [0#64] := by
  simp only [handleEntry, if_pos h]
  refine ⟨trivial, ?_⟩
  rw [contents_succ, Function.update_self]
  congr 1
  apply contents_congr
  intro k h₀ hk
  rw [Function.update_of_ne (by omega), Function.update_of_ne (by omega)]

/-- Only a marked entry is kept, and only an unmarked one freed. -/
theorem lowBit_of_kept {a : Mem} {i w : ℕ} (kept : (handleEntry a i w).2.2 = none) :
    lowBit (a i) = true := by
  by_contra hlow
  simp [handleEntry, hlow] at kept

theorem lowBit_of_freed {a : Mem} {i w : ℕ} {ptr : Word}
    (freed : (handleEntry a i w).2.2 = some ptr) : lowBit (a i) = false := by
  by_contra hlow
  rw [Bool.not_eq_false] at hlow
  simp [handleEntry, hlow] at freed

/-- An unmarked entry is freed and leaves the list. -/
theorem handleEntry_frees {a : Mem} {i w : ℕ} (hw : w ≤ i) (h : lowBit (a i) = false) :
    (handleEntry a i w).2 = (w, some (a i)) ∧
    contents (handleEntry a i w).1 w = contents a w := by
  have hn : ¬ lowBit (a i) = true := by simp [h]
  simp only [handleEntry, if_neg hn]
  refine ⟨trivial, ?_⟩
  apply contents_congr
  intro k h₀ hk
  rw [Function.update_of_ne (by omega)]

theorem randomizeLoop_rearranges (n k : ℕ) (a : Mem) (i : ℕ) (h : i + k ≤ n) :
    Rearranges 0 (n - 1) a (randomizeLoop n k a i) := by
  induction k generalizing a i with
  | zero => exact Rearranges.refl _ _ _
  | succ k ih =>
    have htmp : i * 2147483647 % 2 ^ 32 % n < n := Nat.mod_lt _ (by omega)
    simp only [randomizeLoop]
    refine Rearranges.trans ?_ (ih _ (i + 1) (by omega))
    split_ifs
    · exact swap_rearranges a (by omega) (by omega)
    · exact Rearranges.refl _ _ _

/-- The shuffle keeps the list's addresses. -/
theorem threadscanUtilRandomize_perm (a : Mem) (n : ℕ) :
    (contents (threadscanUtilRandomize a n) n).Perm (contents a n) :=
  (randomizeLoop_rearranges n n a 0 (by omega)).contents_perm (by omega)

/-- Converting a buffer into a block of storage keeps its addresses, however few they are. -/
theorem storeRemainingAddrs_perm (a : Mem) {n : ℕ} (h : 1 ≤ n) :
    (storeRemainingAddrs a n).Perm (contents a n) := by
  obtain rfl | hn : n = 1 ∨ 2 ≤ n := by omega
  · simp [storeRemainingAddrs, contents, Function.update_apply]
  · obtain ⟨m, rfl⟩ : ∃ m, n = m + 2 := ⟨n - 2, by omega⟩
    have hblock : storeRemainingAddrs a (m + 2) =
        (List.range m).map (fun i : ℕ => a (i + 2)) ++ [a 0, a 1] := by
      rw [storeRemainingAddrs, List.range_succ, List.range_succ, List.map_append, List.map_append,
        List.append_assoc]
      congr 1
      · apply List.map_congr_left
        intro i hi
        have := List.mem_range.mp hi
        rw [Function.update_of_ne (by push_cast; omega), Function.update_of_ne (by push_cast; omega)]
      · simp only [List.map_cons, List.map_nil, List.singleton_append]
        push_cast
        rw [Function.update_of_ne (by omega), Function.update_self]
        rw [show (m : ℤ) + 1 + 2 = m + 2 + 1 by ring, Function.update_self,
          Function.update_of_ne (by omega)]
    have hlist : contents a (m + 2) =
        [a 0, a 1] ++ (List.range m).map (fun i : ℕ => a (i + 2)) := by
      rw [contents, List.range_succ_eq_map, List.range_succ_eq_map]
      simp only [List.map_cons, List.map_map, List.cons_append, List.nil_append]
      refine congrArg₂ _ rfl (congrArg₂ _ (by simp) ?_)
      apply List.map_congr_left
      intro i _
      simp only [Function.comp_apply]
      push_cast
      ring_nf
    rw [hblock, hlist]
    exact List.perm_append_comm

end ThreadScan.Compaction
