import ThreadScan.Compaction

/-! `handle_unreferenced_ptrs` as a whole. The array is read and written in one pass; where a
kept entry is written to the slot it was read from, the slot is cleared afterwards. -/
namespace ThreadScan.PostSearch
open Rearrangement Compaction

/-- The loop of `handle_unreferenced_ptrs`, with `k` iterations to go: the array, the write
position and the addresses passed to `free`. -/
def handleLoop : ℕ → Mem → ℕ → ℕ → Mem × ℕ × List Word
  | 0, addrs, _, writePosition => (addrs, writePosition, [])
  | k + 1, addrs, i, writePosition =>
    let entry := handleEntry addrs i writePosition
    let rest := handleLoop k entry.1 (i + 1) entry.2.1
    (rest.1, rest.2.1, entry.2.2.toList ++ rest.2.2)

def handleUnreferencedPtrs (addrs : Mem) (count : ℕ) : Mem × ℕ × List Word :=
  handleLoop count addrs 0 0

/-- The entry of an address: its low bit is set if the address is in the marked set. -/
def entryOf (marked : Word → Bool) (x : Word) : Word := if marked x then x + 1#64 else x

/-- The unmarked addresses are freed in their order, the marked ones are moved to the front
in theirs, and nothing is left behind them. -/
structure Compacted (l : List Word) (marked : Word → Bool) (r : Mem × ℕ × List Word) : Prop where
  freed : r.2.2 = l.filter fun x => !marked x
  once : r.2.2.Nodup
  remaining : r.2.1 = (l.filter marked).length
  kept : contents r.1 r.2.1 = l.filter marked
  cleared : ∀ i : ℕ, r.2.1 ≤ i → i < l.length → r.1 i = 0#64

/-- Entries `i`, `i + 1`, ... are those of the listed addresses. -/
def Holds (a : Mem) (i : ℕ) (marked : Word → Bool) (l : List Word) : Prop :=
  ∀ (j : ℕ) (h : j < l.length), a (i + j : ℕ) = entryOf marked l[j]

variable {marked : Word → Bool} {x : Word} {l : List Word}

theorem lowBit_entryOf (h : x.toNat % 4 = 0) : lowBit (entryOf marked x) = marked x := by
  have he : x.toNat % 2 = 0 := by omega
  cases hm : marked x with
  | true => simpa [entryOf, hm] using lowBit_add_one he
  | false => simpa [entryOf, hm] using (lowBit_eq_false x).mpr he

theorem unmark_entryOf (h : x.toNat % 4 = 0) : unmark (entryOf marked x) = x := by
  cases hm : marked x with
  | true => simpa [entryOf, hm] using unmark_add_one h
  | false => simpa [entryOf, hm] using unmark_of_even (by omega)

theorem Holds.head {a : Mem} {i : ℕ} (h : Holds a i marked (x :: l)) :
    a i = entryOf marked x := h 0 (by simp)

theorem Holds.tail {a : Mem} {i w : ℕ} (h : Holds a i marked (x :: l)) (hw : w ≤ i) :
    Holds (handleEntry a i w).1 (i + 1) marked l := by
  intro j hj
  rw [handleEntry_rest a hw (by omega)]
  have hnext := h (j + 1) (by simpa using hj)
  simpa [add_assoc, add_comm, add_left_comm] using hnext

/-- The read position is left at zero. -/
theorem handleEntry_clears (a : Mem) (i w : ℕ) : (handleEntry a i w).1 i = 0#64 := by
  simp only [handleEntry]
  split_ifs
  · exact Function.update_self ..
  · exact Function.update_self ..

/-- What stands between the write position and the read position stays as it is. -/
theorem handleEntry_between (a : Mem) {i w k : ℕ} (hk : (handleEntry a i w).2.1 ≤ k)
    (hki : k < i) : (handleEntry a i w).1 k = a k := by
  revert hk
  simp only [handleEntry]
  split_ifs
  · intro hk
    dsimp only at hk ⊢
    rw [Function.update_of_ne (by omega), Function.update_of_ne (by omega)]
  · intro hk
    exact Function.update_of_ne (by omega) _ _

/-- From a write position behind the read position on, the loop compacts what it reads. -/
theorem handleLoop_spec (l : List Word) (aligned : ∀ x ∈ l, x.toNat % 4 = 0) (a : Mem) (i w : ℕ)
    (hw : w < i) (entries : Holds a i marked l)
    (zero : ∀ k : ℕ, w ≤ k → k < i → a k = 0#64) :
    let r := handleLoop l.length a i w
    r.2.2 = (l.filter fun x => !marked x) ∧ r.2.1 = w + (l.filter marked).length ∧
      contents r.1 r.2.1 = contents a w ++ l.filter marked ∧
      ∀ k : ℕ, r.2.1 ≤ k → k < i + l.length → r.1 k = 0#64 := by
  induction l generalizing a i w with
  | nil => exact ⟨rfl, rfl, by simp [handleLoop], by simpa [handleLoop] using zero⟩
  | cons x l ih =>
    have h4 : x.toNat % 4 = 0 := aligned x (by simp)
    have hlow : lowBit (a i) = marked x := entries.head ▸ lowBit_entryOf h4
    have hposition := handleEntry_position a i w
    have hzero : ∀ k : ℕ, (handleEntry a i w).2.1 ≤ k → k < i + 1 →
        (handleEntry a i w).1 k = 0#64 := by
      intro k hk hki
      rcases Nat.lt_succ_iff_lt_or_eq.mp hki with hlt | rfl
      · rw [handleEntry_between a hk hlt]
        refine zero k ?_ hlt
        revert hk
        simp only [handleEntry]
        split_ifs
        · intro hk
          dsimp only at hk
          omega
        · exact id
      · exact handleEntry_clears a k w
    have hrest := ih (fun y hy => aligned y (by simp [hy])) (handleEntry a i w).1 (i + 1)
      (handleEntry a i w).2.1 (by omega) (entries.tail (by omega)) hzero
    obtain ⟨hfreed, hremaining, hkept, hcleared⟩ := hrest
    simp only [List.length_cons, handleLoop]
    cases hm : marked x with
    | true =>
      obtain ⟨hstep, hcontents⟩ := handleEntry_moves hw (hm ▸ hlow)
      have hnone : (handleEntry a i w).2.2 = none := by simp [handleEntry, hm ▸ hlow]
      have hunmark : unmark (a i) = x := entries.head ▸ unmark_entryOf h4
      rw [hstep] at hremaining hkept hfreed hcleared ⊢
      refine ⟨by simp [hnone, hfreed, hm], by rw [hremaining]; simp [hm]; omega, ?_, ?_⟩
      · rw [hkept, hcontents, hunmark]
        simp [hm]
      · intro k hk hki
        exact hcleared k hk (by omega)
    | false =>
      obtain ⟨hstep, hcontents⟩ := handleEntry_frees hw.le (hm ▸ hlow)
      have hentry : a i = x := by rw [entries.head]; simp [entryOf, hm]
      rw [hstep] at hremaining hkept hfreed hcleared ⊢
      refine ⟨by simp [hentry, hfreed, hm], by rw [hremaining]; simp [hm], ?_, ?_⟩
      · rw [hkept, hcontents]
        simp [hm]
      · intro k hk hki
        exact hcleared k hk (by omega)

/-- Nothing in front of the write position is touched, and the position does not move back. -/
theorem handleLoop_front (k : ℕ) (a : Mem) (i w j : ℕ) (hw : w ≤ i) (hj : j < w) :
    w ≤ (handleLoop k a i w).2.1 ∧ (handleLoop k a i w).1 j = a j := by
  induction k generalizing a i w with
  | zero => exact ⟨le_rfl, rfl⟩
  | succ k ih =>
    have hentry : w ≤ (handleEntry a i w).2.1 ∧ (handleEntry a i w).2.1 ≤ i + 1 ∧
        (handleEntry a i w).1 j = a j := by
      simp only [handleEntry]
      split_ifs
      · dsimp only
        rw [Function.update_of_ne (by omega), Function.update_of_ne (by omega)]
        exact ⟨by omega, by omega, rfl⟩
      · exact ⟨le_rfl, by dsimp only; omega, Function.update_of_ne (by omega) _ _⟩
    obtain ⟨hle, hbound, hsame⟩ := hentry
    obtain ⟨hmore, hkept⟩ := ih (handleEntry a i w).1 (i + 1) (handleEntry a i w).2.1 hbound
      (by omega)
    exact ⟨hle.trans hmore, hkept.trans hsame⟩

theorem holds_of_contents {a : Mem} (h : contents a l.length = l.map (entryOf marked)) :
    Holds a 0 marked l := by
  intro j hj
  have hentry := List.getElem_of_eq h (i := j) (by simpa [contents] using hj)
  simpa [contents] using hentry

/-- A list is compacted as it should be exactly where its first address is not marked. -/
theorem handle_unreferenced_ptrs_compacts (l : List Word) (marked : Word → Bool) (a : Mem)
    (nodup : l.Nodup) (aligned : ∀ x ∈ l, x.toNat % 4 = 0) (nonzero : ∀ x ∈ l, x ≠ 0#64)
    (entries : contents a l.length = l.map (entryOf marked)) :
    Compacted l marked (handleUnreferencedPtrs a l.length) ↔ ∀ x ∈ l.head?, marked x = false := by
  cases l with
  | nil =>
    refine ⟨fun _ x hx => by simp at hx, fun _ => ⟨rfl, List.nodup_nil, rfl, rfl, ?_⟩⟩
    exact fun i _ hi => by simp at hi
  | cons x l =>
    have hholds := holds_of_contents entries
    have h4 : x.toNat % 4 = 0 := aligned x (by simp)
    have hlow : lowBit (a (0 : ℕ)) = marked x := hholds.head ▸ lowBit_entryOf h4
    simp only [List.head?_cons, Option.mem_def, Option.some.injEq, forall_eq']
    constructor
    · intro h
      by_contra hmarked
      rw [Bool.not_eq_false] at hmarked
      -- the first entry is written to its own slot and cleared
      obtain ⟨hstep, -⟩ := handleEntry_loses (hlow.trans hmarked)
      have hfront := handleLoop_front l.length (handleEntry a 0 0).1 1 1 0 le_rfl one_pos
      have hzero := handleEntry_clears a 0 0
      have hkept := h.kept
      have hposition : 0 < (handleUnreferencedPtrs a (x :: l).length).2.1 := by
        simp only [handleUnreferencedPtrs, List.length_cons, handleLoop, hstep]
        exact hfront.1
      have hfirst : (handleUnreferencedPtrs a (x :: l).length).1 (0 : ℕ) = 0#64 := by
        simp only [handleUnreferencedPtrs, List.length_cons, handleLoop, hstep]
        exact hfront.2.trans hzero
      have hhead := List.getElem_of_eq hkept (i := 0) (by simpa [contents] using hposition)
      simp only [contents, List.getElem_map, List.getElem_range, hfirst] at hhead
      simp only [List.filter_cons_of_pos hmarked, List.getElem_cons_zero] at hhead
      exact nonzero x (by simp) hhead.symm
    · intro hmarked
      obtain ⟨hstep, hcontents⟩ := handleEntry_frees (le_refl 0) (hlow.trans hmarked)
      have hentry : a (0 : ℕ) = x := by rw [hholds.head]; simp [entryOf, hmarked]
      have hspec := handleLoop_spec l (fun y hy => aligned y (by simp [hy]))
        (handleEntry a 0 0).1 1 0 one_pos (hholds.tail le_rfl) (fun k _ hk => by
          obtain rfl : k = 0 := by omega
          exact handleEntry_clears a 0 0)
      obtain ⟨hfreed, hremaining, hkept, hcleared⟩ := hspec
      have hall : (handleUnreferencedPtrs a (x :: l).length).2.2 =
          (x :: l).filter fun y => !marked y := by
        simp only [handleUnreferencedPtrs, List.length_cons, handleLoop, hstep, hfreed, hentry]
        simp [hmarked]
      constructor
      · exact hall
      · exact hall ▸ nodup.filter _
      · simp only [handleUnreferencedPtrs, List.length_cons, handleLoop, hstep, hremaining]
        simp [hmarked]
      · simp only [handleUnreferencedPtrs, List.length_cons, handleLoop, hstep]
        rw [hkept]
        simp [hmarked, contents]
      · intro i hi hlt
        simp only [handleUnreferencedPtrs, List.length_cons, handleLoop, hstep] at hi ⊢
        exact hcleared i hi (by simp only [List.length_cons] at hlt; omega)

/-- The second of two addresses is referenced. -/
theorem handle_unreferenced_ptrs_compacts_second :
    Compacted [4096#64, 8192#64] (· = 8192#64)
      (handleUnreferencedPtrs (fun i => if i = 0 then 4096#64 else 8193#64) 2) :=
  (handle_unreferenced_ptrs_compacts [4096#64, 8192#64] (· = 8192#64) _ (by simp) (by simp) (by simp)
    (by decide +kernel)).mpr (by simp)

/-- A single address that is referenced is not kept. -/
theorem handle_unreferenced_ptrs_loses :
    ¬ Compacted [4096#64] (· = 4096#64) (handleUnreferencedPtrs (fun _ => 4097#64) 1) :=
  fun h => absurd h.kept (by decide +kernel)

end ThreadScan.PostSearch
