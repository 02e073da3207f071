import ThreadScan.Rearrangement
import ThreadScan.Word

/-! The in-place sort of the working pointer list (`util.c`): quicksort down to sixteen
elements, insertion sort below. The inner loop of the insertion sort is bounded by zero,
not by its range: it stays inside because nothing to the left is larger. -/
namespace ThreadScan.Sort
open Rearrangement

def swap (addrs : Mem) (n m : ℤ) : Mem := exchange addrs n m

/-- The loop of `partition`, with `k` iterations to go. -/
def partitionLoop (pivotVal : Word) : ℕ → Mem → ℤ → ℤ → Mem × ℤ
  | 0, addrs, _, mid => (addrs, mid)
  | k + 1, addrs, i, mid =>
    if addrs i ≤ pivotVal then partitionLoop pivotVal k (swap addrs i mid) (i + 1) (mid + 1)
    else partitionLoop pivotVal k addrs (i + 1) mid

def partition (addrs : Mem) (min max : ℤ) : Mem × ℤ :=
  let pivot := (max + min) / 2
  let pivotVal := addrs pivot
  let r := partitionLoop pivotVal (max - min).toNat (swap addrs pivot max) min min
  (swap r.1 r.2 max, r.2)

/-- The inner loop of `insertion_sort`: `for (j = i; j > 0 && ...; --j)`. -/
def insertDown (addrs : Mem) : ℕ → Mem
  | 0 => addrs
  | j + 1 => if addrs (j + 1) < addrs j then insertDown (swap addrs (j + 1) j) j else addrs

/-- The outer loop of `insertion_sort`, with `k` iterations to go. -/
def insertionLoop : ℕ → Mem → ℤ → Mem
  | 0, addrs, _ => addrs
  | k + 1, addrs, i => insertionLoop k (insertDown addrs i.toNat) (i + 1)

def insertionSort (addrs : Mem) (min max : ℤ) : Mem :=
  insertionLoop (max - min).toNat addrs (min + 1)

/-- SORT_THRESHOLD. -/
def sortThreshold : ℤ := 16

theorem swap_rearranges {lo hi n m : ℤ} (a : Mem) (hn : lo ≤ n ∧ n ≤ hi) (hm : lo ≤ m ∧ m ≤ hi) :
    Rearranges lo hi a (swap a n m) := rearranges_exchange a hn hm

/-- The loop keeps what is at most the pivot in front of what is larger. -/
theorem partitionLoop_spec (p : Word) (min : ℤ) (k : ℕ) (a : Mem) (i mid : ℤ)
    (hmin : min ≤ mid) (hmid : mid ≤ i) (small : ∀ j, min ≤ j → j < mid → a j ≤ p)
    (large : ∀ j, mid ≤ j → j < i → p < a j) :
    let r := partitionLoop p k a i mid
    (mid ≤ r.2 ∧ r.2 ≤ i + k) ∧ Rearranges min (i + k - 1) a r.1 ∧
      (∀ j, min ≤ j → j < r.2 → r.1 j ≤ p) ∧ (∀ j, r.2 ≤ j → j < i + k → p < r.1 j) := by
  induction k generalizing a i mid with
  | zero =>
    refine ⟨by simp [partitionLoop, hmid], Rearranges.refl _ _ _, small, ?_⟩
    simpa [partitionLoop] using large
  | succ k ih =>
    simp only [partitionLoop]
    split_ifs with hle
    · have hmoved : ∀ j, mid + 1 ≤ j → j < i + 1 → p < swap a i mid j := by
        intro j hj hji
        by_cases he : j = i
        · subst he
          rw [swap, exchange_left]
          exact large mid le_rfl (by omega)
        · rw [swap, exchange_of_ne a he (by omega)]
          exact large j (by omega) (by omega)
      have hsmall : ∀ j, min ≤ j → j < mid + 1 → swap a i mid j ≤ p := by
        intro j hj hjm
        by_cases he : j = mid
        · subst he
          rw [swap, exchange_right]
          exact hle
        · rw [swap, exchange_of_ne a (by omega) he]
          exact small j hj (by omega)
      obtain ⟨hb, hr, hs, hl⟩ := ih (swap a i mid) (i + 1) (mid + 1) (by omega) (by omega)
        hsmall hmoved
      have hstep : Rearranges min (i + 1 + k - 1) a (swap a i mid) :=
        swap_rearranges a (by omega) (by omega)
      push_cast
      refine ⟨by omega, (hstep.trans hr).mono le_rfl (by omega), hs, ?_⟩
      intro j hj hji
      exact hl j hj (by omega)
    · have hlarge : ∀ j, mid ≤ j → j < i + 1 → p < a j := by
        intro j hj hji
        by_cases he : j = i
        · subst he
          simpa using hle
        · exact large j hj (by omega)
      obtain ⟨hb, hr, hs, hl⟩ := ih a (i + 1) mid hmin (by omega) small hlarge
      push_cast
      refine ⟨by omega, hr.mono le_rfl (by omega), hs, ?_⟩
      intro j hj hji
      exact hl j hj (by omega)

/-- Everything up to the returned position is at most what stands there, everything
after it is larger. -/
theorem partition_spec (a : Mem) {min max : ℤ} (h : min ≤ max) :
    let r := partition a min max
    (min ≤ r.2 ∧ r.2 ≤ max) ∧ Rearranges min max a r.1 ∧
      (∀ j, min ≤ j → j ≤ r.2 → r.1 j ≤ r.1 r.2) ∧
      (∀ j, r.2 < j → j ≤ max → r.1 r.2 < r.1 j) := by
  have hpivot : min ≤ (max + min) / 2 ∧ (max + min) / 2 ≤ max := by omega
  have hspec := partitionLoop_spec (a ((max + min) / 2)) min (max - min).toNat
    (swap a ((max + min) / 2) max) min min le_rfl le_rfl (by omega) (by omega)
  have hcount : min + ((max - min).toNat : ℤ) = max := by omega
  rw [hcount] at hspec
  simp only [partition]
  obtain ⟨hb, hr, hs, hl⟩ := hspec
  have hlast : (partitionLoop (a ((max + min) / 2)) (max - min).toNat
      (swap a ((max + min) / 2) max) min min).1 max = a ((max + min) / 2) := by
    rw [hr.outside (by omega), swap, exchange_right]
  generalize partitionLoop (a ((max + min) / 2)) (max - min).toNat
      (swap a ((max + min) / 2) max) min min = r at *
  have hmid : swap r.1 r.2 max r.2 = a ((max + min) / 2) := by rw [swap, exchange_left, hlast]
  refine ⟨hb, ?_, ?_, ?_⟩
  · have h₁ : Rearranges min max a (swap a ((max + min) / 2) max) :=
      swap_rearranges a hpivot ⟨h, le_rfl⟩
    have h₂ : Rearranges min max r.1 (swap r.1 r.2 max) :=
      swap_rearranges r.1 hb ⟨h, le_rfl⟩
    exact (h₁.trans (hr.mono le_rfl (by omega))).trans h₂
  · intro j hj hjr
    rw [hmid]
    by_cases he : j = r.2
    · rw [he, hmid]
      exact BitVec.le_refl _
    · rw [swap, exchange_of_ne _ he (by omega)]
      exact hs j hj (by omega)
  · intro j hj hjm
    rw [hmid]
    by_cases he : j = max
    · rw [he, swap, exchange_right]
      exact hl r.2 le_rfl (by omega)
    · rw [swap, exchange_of_ne _ (by omega) he]
      exact hl j (by omega) (by omega)

/-- Standard quicksort for the working pointers arrays: `[min, max]`. -/
def quicksort (addrs : Mem) (min max : ℤ) : Mem :=
  if h : sortThreshold < max - min then
    let r := partition addrs min max
    quicksort (quicksort r.1 min (r.2 - 1)) (r.2 + 1) max
  else insertionSort addrs min max
termination_by (max - min).toNat
decreasing_by
  all_goals
    have hr := (partition_spec addrs (show min ≤ max by simp [sortThreshold] at h; omega)).1
    simp [sortThreshold] at h
    omega

def threadscanUtilSort (a : Mem) (length : ℤ) : Mem := quicksort a 0 (length - 1)

def SortedOn (a : Mem) (lo hi : ℤ) : Prop := ∀ x y, lo ≤ x → x ≤ y → y ≤ hi → a x ≤ a y

/-- Everything to the left of the range is at most everything in it: what keeps an
insertion from leaving its range. -/
def LeftBound (a : Mem) (min max : ℤ) : Prop :=
  ∀ x y, 0 ≤ x → x < min → min ≤ y → y ≤ max → a x ≤ a y

/-- Walking one element down: the elements before it are sorted, so are it and those
after it, and those before are at most those after. -/
theorem insertDown_spec (j : ℕ) (a : Mem) (min hi : ℤ) (hmin : 0 ≤ min) (hj : min ≤ j)
    (hhi : j ≤ hi) (left : LeftBound a min hi) (before : SortedOn a min (j - 1))
    (after : SortedOn a j hi)
    (cross : ∀ x y, min ≤ x → x < j → (j : ℤ) < y → y ≤ hi → a x ≤ a y) :
    Rearranges min hi a (insertDown a j) ∧ SortedOn (insertDown a j) min hi := by
  induction j generalizing a with
  | zero =>
    have he : min = 0 := by omega
    subst he
    exact ⟨Rearranges.refl _ _ _, by simpa [insertDown] using after⟩
  | succ j ih =>
    simp only [insertDown]
    push_cast at hj hhi before after cross
    split_ifs with hlt
    · -- an inversion with the left neighbour puts that neighbour inside the range
      have hin : min ≤ j := by
        by_contra hout
        have := left j (j + 1) (by omega) (by omega) (by omega) (by omega)
        bv_omega
      have hne : ∀ x : ℤ, x ≠ j + 1 → x ≠ j → swap a (j + 1) j x = a x :=
        fun x h₁ h₂ => exchange_of_ne a h₁ h₂
      have hnew : swap a (j + 1) j j = a (j + 1) := exchange_right a _ _
      have hold : swap a (j + 1) j (j + 1) = a j := exchange_left a _ _
      have hstep : Rearranges min hi a (swap a (j + 1) j) :=
        swap_rearranges a (by omega) (by omega)
      have left' : LeftBound (swap a (j + 1) j) min hi := by
        intro x y hx hxm hy hyh
        rw [hne x (by omega) (by omega)]
        exact hstep.forall (P := fun v => a x ≤ v) (fun z h₁ h₂ => left x z hx hxm h₁ h₂) y hy hyh
      have before' : SortedOn (swap a (j + 1) j) min (j - 1) := by
        intro x y hx hxy hy
        rw [hne x (by omega) (by omega), hne y (by omega) (by omega)]
        exact before x y hx hxy (by omega)
      have hlift : ∀ z : ℤ, (j : ℤ) + 1 < z → z ≤ hi → a j ≤ a z ∧ a (j + 1) ≤ a z :=
        fun z h₁ h₂ => ⟨cross j z hin (by omega) h₁ h₂, after (j + 1) z le_rfl (by omega) h₂⟩
      have after' : SortedOn (swap a (j + 1) j) j hi := by
        intro x y hx hxy hy
        obtain rfl | rfl | hxj : x = j ∨ x = j + 1 ∨ j + 1 < x := by omega
        · obtain rfl | rfl | hyj : y = j ∨ y = j + 1 ∨ j + 1 < y := by omega
          · exact BitVec.le_refl _
          · rw [hnew, hold]
            exact BitVec.le_of_lt hlt
          · rw [hnew, hne y (by omega) (by omega)]
            exact (hlift y hyj hy).2
        · obtain rfl | hyj : y = j + 1 ∨ j + 1 < y := by omega
          · exact BitVec.le_refl _
          · rw [hold, hne y (by omega) (by omega)]
            exact (hlift y hyj hy).1
        · rw [hne x (by omega) (by omega), hne y (by omega) (by omega)]
          exact after x y (by omega) hxy hy
      have cross' : ∀ x y, min ≤ x → x < j → (j : ℤ) < y → y ≤ hi →
          swap a (j + 1) j x ≤ swap a (j + 1) j y := by
        intro x y hx hxj hy hyh
        rw [hne x (by omega) (by omega)]
        obtain rfl | hyj : y = j + 1 ∨ j + 1 < y := by omega
        · rw [hold]
          exact before x j hx (by omega) (by omega)
        · rw [hne y (by omega) (by omega)]
          exact cross x y hx (by omega) hyj hyh
      obtain ⟨hr, hs⟩ := ih (swap a (j + 1) j) hin (by omega) left' before' after' cross'
      exact ⟨hstep.trans hr, hs⟩
    · refine ⟨Rearranges.refl _ _ _, ?_⟩
      have hle : a j ≤ a (j + 1) := by bv_omega
      intro x y hx hxy hy
      by_cases hxj : (j : ℤ) + 1 ≤ x
      · exact after x y hxj hxy hy
      by_cases hyj : y ≤ j
      · exact before x y hx hxy (by omega)
      · have h₁ : a x ≤ a j := before x j hx (by omega) (by omega)
        have h₂ : a (j + 1) ≤ a y := after (j + 1) y le_rfl (by omega) hy
        exact BitVec.le_trans h₁ (BitVec.le_trans hle h₂)

theorem LeftBound.rearranges {a b : Mem} {min max : ℤ} (h : LeftBound a min max)
    (hr : Rearranges min max a b) : LeftBound b min max := by
  intro x y hx hxm hy hym
  rw [hr.outside (by omega)]
  exact hr.forall (P := fun v => a x ≤ v) (fun z h₁ h₂ => h x z hx hxm h₁ h₂) y hy hym

theorem insertionLoop_spec (k : ℕ) (a : Mem) (min i : ℤ) (hmin : 0 ≤ min) (hi : min < i)
    (left : LeftBound a min (i + k - 1)) (sorted : SortedOn a min (i - 1)) :
    Rearranges min (i + k - 1) a (insertionLoop k a i) ∧
      SortedOn (insertionLoop k a i) min (i + k - 1) := by
  induction k generalizing a i with
  | zero => exact ⟨Rearranges.refl _ _ _, by simpa [insertionLoop] using sorted⟩
  | succ k ih =>
    have hcast : ((i.toNat : ℕ) : ℤ) = i := Int.toNat_of_nonneg (by omega)
    push_cast at left
    have hleft : LeftBound a min i :=
      fun x y hx hxm hy hyi => left x y hx hxm hy (by omega)
    have hself : SortedOn a i i := by
      intro x y hx hxy hy
      obtain rfl : x = y := by omega
      exact BitVec.le_refl _
    obtain ⟨hr, hs⟩ := insertDown_spec i.toNat a min i hmin (by omega) (by omega) hleft
      (by rw [hcast]; exact sorted) (by rw [hcast]; exact hself) (by omega)
    have hr' : Rearranges min (i + (k + 1) - 1) a (insertDown a i.toNat) :=
      hr.mono le_rfl (by omega)
    obtain ⟨hr₂, hs₂⟩ := ih (insertDown a i.toNat) (i + 1) (by omega)
      (by
        have := left.rearranges hr'
        exact fun x y hx hxm hy hyi => this x y hx hxm hy (by omega))
      (by simpa using hs)
    simp only [insertionLoop]
    push_cast
    refine ⟨hr'.trans (hr₂.mono le_rfl (by omega)), ?_⟩
    intro x y hx hxy hy
    exact hs₂ x y hx hxy (by omega)

theorem insertionSort_spec (a : Mem) {min max : ℤ} (hmin : 0 ≤ min) (h : min ≤ max + 1)
    (left : LeftBound a min max) :
    Rearranges min max a (insertionSort a min max) ∧
      SortedOn (insertionSort a min max) min max := by
  unfold insertionSort
  obtain hempty | hne : max < min ∨ min ≤ max := by omega
  · rw [Int.toNat_eq_zero.mpr (by omega)]
    exact ⟨Rearranges.refl _ _ _, fun x y _ _ _ => by omega⟩
  · have hone : SortedOn a min (min + 1 - 1) := by
      intro x y hx hxy hy
      obtain rfl : x = y := by omega
      exact BitVec.le_refl _
    have hend : min + 1 + ((max - min).toNat : ℤ) - 1 = max := by omega
    have hspec := insertionLoop_spec (max - min).toNat a min (min + 1) hmin (by omega)
      (by rw [hend]; exact left) hone
    rwa [hend] at hspec

/-- The right part of a partition, whatever has been done in the left part. -/
theorem LeftBound.right {a b : Mem} {min max : ℤ} (left : LeftBound a min max) (h : min ≤ max)
    (hr : Rearranges min ((partition a min max).2 - 1) (partition a min max).1 b) :
    LeftBound b ((partition a min max).2 + 1) max := by
  obtain ⟨hb, hpart, hsmall, hlarge⟩ := partition_spec a h
  have hleft := left.rearranges hpart
  intro x y hx hxm hy hym
  rw [hr.outside (i := y) (by omega)]
  rcases lt_or_ge x min with hout | hin
  · rw [hr.outside (by omega)]
    exact hleft x y hx hout (by omega) hym
  have hlow : b x ≤ (partition a min max).1 (partition a min max).2 := by
    rcases (show x ≤ (partition a min max).2 by omega).eq_or_lt with rfl | hlt
    · rw [hr.outside (by omega)]
      exact BitVec.le_refl _
    · exact hr.forall (P := fun v => v ≤ (partition a min max).1 (partition a min max).2)
        (fun z h₁ h₂ => hsmall z h₁ (by omega)) x hin (by omega)
  exact BitVec.le_trans hlow (BitVec.le_of_lt (hlarge y (by omega) hym))

/-- Each recursive call sorts its range and moves nothing outside of it. -/
theorem quicksort_spec (a : Mem) (min max : ℤ) (hmin : 0 ≤ min) (h : min ≤ max + 1)
    (left : LeftBound a min max) :
    Rearranges min max a (quicksort a min max) ∧ SortedOn (quicksort a min max) min max := by
  induction a, min, max using quicksort.induct with
  | case1 a min max hbig r ihl _ ihr =>
    have hle : min ≤ max := by
      simp only [sortThreshold] at hbig
      omega
    have hspec : (min ≤ r.2 ∧ r.2 ≤ max) ∧ Rearranges min max a r.1 ∧
        (∀ j, min ≤ j → j ≤ r.2 → r.1 j ≤ r.1 r.2) ∧
        (∀ j, r.2 < j → j ≤ max → r.1 r.2 < r.1 j) := partition_spec a hle
    obtain ⟨hb, hr, hsmall, hlarge⟩ := hspec
    have hleft := left.rearranges hr
    obtain ⟨hr₁, hs₁⟩ := ihl hmin (by omega)
      (fun x y hx hxm hy hym => hleft x y hx hxm hy (by omega))
    have hlow : ∀ x, min ≤ x → x ≤ r.2 → quicksort r.1 min (r.2 - 1) x ≤ r.1 r.2 := by
      intro x hx hxr
      obtain rfl | hlt : x = r.2 ∨ x < r.2 := by omega
      · rw [hr₁.outside (by omega)]
        exact BitVec.le_refl _
      · exact hr₁.forall (P := fun v => v ≤ r.1 r.2)
          (fun z h₁ h₂ => hsmall z h₁ (by omega)) x hx (by omega)
    have hright : LeftBound (quicksort r.1 min (r.2 - 1)) (r.2 + 1) max := left.right hle hr₁
    obtain ⟨hr₂, hs₂⟩ := ihr (by omega) (by omega) hright
    rw [quicksort, dif_pos hbig]
    refine ⟨(hr.trans (hr₁.mono le_rfl (by omega))).trans (hr₂.mono (by omega) le_rfl), ?_⟩
    intro x y hx hxy hy
    obtain hyl | hyr : y ≤ r.2 ∨ r.2 < y := by omega
    · rw [hr₂.outside (i := x) (by omega), hr₂.outside (i := y) (by omega)]
      obtain rfl | hlt : y = r.2 ∨ y < r.2 := by omega
      · rw [hr₁.outside (i := r.2) (by omega)]
        exact hlow x hx hxy
      · exact hs₁ x y hx hxy (by omega)
    · obtain hxl | hxr : x ≤ r.2 ∨ r.2 < x := by omega
      · rw [hr₂.outside (i := x) (by omega)]
        exact hr₂.forall (P := fun v => quicksort r.1 min (r.2 - 1) x ≤ v)
          (fun z h₁ h₂ => hright x z (by omega) (by omega) h₁ h₂) y (by omega) hy
      · exact hs₂ x y (by omega) hxy hy
  | case2 a min max hsmall =>
    rw [quicksort, dif_neg hsmall]
    exact insertionSort_spec a hmin h left

theorem threadscanUtilSort_spec (a : Mem) (n : ℕ) :
    Rearranges 0 (n - 1) a (threadscanUtilSort a n) ∧
      SortedOn (threadscanUtilSort a n) 0 (n - 1) :=
  quicksort_spec a 0 (n - 1) le_rfl (by omega) (fun x y hx hxm _ _ => by omega)

theorem threadscanUtilSort_perm (a : Mem) (n : ℕ) :
    (contents (threadscanUtilSort a n) n).Perm (contents a n) :=
  (threadscanUtilSort_spec a n).1.contents_perm (by omega)

/-! ### What the sort accesses -/

/-- The calls of `quicksort` that a call makes, itself among them. -/
inductive Calls : Mem → ℤ → ℤ → Mem → ℤ → ℤ → Prop
  | self (addrs : Mem) (min max : ℤ) : Calls addrs min max addrs min max
  | left (addrs : Mem) (min max : ℤ) {b : Mem} {lo hi : ℤ} (big : sortThreshold < max - min)
      (rest : Calls (partition addrs min max).1 min ((partition addrs min max).2 - 1) b lo hi) :
      Calls addrs min max b lo hi
  | right (addrs : Mem) (min max : ℤ) {b : Mem} {lo hi : ℤ} (big : sortThreshold < max - min)
      (rest : Calls
        (quicksort (partition addrs min max).1 min ((partition addrs min max).2 - 1))
        ((partition addrs min max).2 + 1) max b lo hi) :
      Calls addrs min max b lo hi

/-- The indices that the loop of `partition` reads and writes. -/
def partitionLoopAccesses (pivotVal : Word) : ℕ → Mem → ℤ → ℤ → List ℤ
  | 0, _, _, _ => []
  | k + 1, addrs, i, mid =>
    if addrs i ≤ pivotVal then
      i :: i :: mid :: partitionLoopAccesses pivotVal k (swap addrs i mid) (i + 1) (mid + 1)
    else i :: partitionLoopAccesses pivotVal k addrs (i + 1) mid

def partitionAccesses (addrs : Mem) (min max : ℤ) : List ℤ :=
  let pivot := (max + min) / 2
  let pivotVal := addrs pivot
  let r := partitionLoop pivotVal (max - min).toNat (swap addrs pivot max) min min
  pivot :: pivot :: max ::
    partitionLoopAccesses pivotVal (max - min).toNat (swap addrs pivot max) min min ++ [r.2, max]

def insertDownAccesses (addrs : Mem) : ℕ → List ℤ
  | 0 => []
  | j + 1 =>
    if addrs (j + 1) < addrs j then
      j :: (j + 1 : ℕ) :: (j + 1 : ℕ) :: j :: insertDownAccesses (swap addrs (j + 1) j) j
    else [(j : ℤ), (j + 1 : ℕ)]

def insertionLoopAccesses : ℕ → Mem → ℤ → List ℤ
  | 0, _, _ => []
  | k + 1, addrs, i =>
    insertDownAccesses addrs i.toNat ++
      insertionLoopAccesses k (insertDown addrs i.toNat) (i + 1)

def quicksortAccesses (addrs : Mem) (min max : ℤ) : List ℤ :=
  if h : sortThreshold < max - min then
    let r := partition addrs min max
    partitionAccesses addrs min max ++ quicksortAccesses r.1 min (r.2 - 1) ++
      quicksortAccesses (quicksort r.1 min (r.2 - 1)) (r.2 + 1) max
  else insertionLoopAccesses (max - min).toNat addrs (min + 1)
termination_by (max - min).toNat
decreasing_by
  all_goals
    have hr := (partition_spec addrs (show min ≤ max by simp [sortThreshold] at h; omega)).1
    simp [sortThreshold] at h
    omega

def threadscanUtilSortAccesses (a : Mem) (length : ℤ) : List ℤ :=
  quicksortAccesses a 0 (length - 1)

theorem partitionLoopAccesses_within (p : Word) (k : ℕ) (a : Mem) (i mid : ℤ) (h : mid ≤ i) :
    ∀ x ∈ partitionLoopAccesses p k a i mid, mid ≤ x ∧ x < i + k := by
  induction k generalizing a i mid with
  | zero => simp [partitionLoopAccesses]
  | succ k ih =>
    intro x hx
    push_cast
    simp only [partitionLoopAccesses] at hx
    split_ifs at hx
    · simp only [List.mem_cons] at hx
      rcases hx with rfl | rfl | rfl | hx
      · omega
      · omega
      · omega
      · have := ih (swap a i mid) (i + 1) (mid + 1) (by omega) x hx
        omega
    · rcases List.mem_cons.mp hx with rfl | hx
      · omega
      · have := ih a (i + 1) mid (by omega) x hx
        omega

theorem partitionAccesses_within (a : Mem) {min max : ℤ} (h : min ≤ max) :
    ∀ x ∈ partitionAccesses a min max, min ≤ x ∧ x ≤ max := by
  intro x hx
  have hmid := (partition_spec a h).1
  simp only [partition] at hmid
  simp only [partitionAccesses, List.mem_append, List.mem_cons, List.not_mem_nil, or_false] at hx
  rcases hx with (rfl | rfl | rfl | hx) | rfl | rfl
  · omega
  · omega
  · omega
  · have := partitionLoopAccesses_within _ _ _ _ _ le_rfl x hx
    omega
  · exact hmid
  · omega

theorem insertDownAccesses_within (j : ℕ) (a : Mem) :
    ∀ x ∈ insertDownAccesses a j, 0 ≤ x ∧ x ≤ j := by
  induction j generalizing a with
  | zero => simp [insertDownAccesses]
  | succ j ih =>
    intro x hx
    simp only [insertDownAccesses] at hx
    split_ifs at hx
    · simp only [List.mem_cons] at hx
      rcases hx with rfl | rfl | rfl | rfl | hx
      · omega
      · omega
      · omega
      · omega
      · have := ih (swap a (j + 1) j) x hx
        omega
    · simp only [List.mem_cons, List.not_mem_nil, or_false] at hx
      omega

theorem insertionLoopAccesses_within (k : ℕ) (a : Mem) (i : ℤ) (h : 0 ≤ i) :
    ∀ x ∈ insertionLoopAccesses k a i, 0 ≤ x ∧ x < i + k := by
  induction k generalizing a i with
  | zero => simp [insertionLoopAccesses]
  | succ k ih =>
    intro x hx
    rcases List.mem_append.mp hx with hx | hx
    · have := insertDownAccesses_within _ _ x hx
      omega
    · have := ih (insertDown a i.toNat) (i + 1) (by omega) x hx
      omega

theorem quicksortAccesses_within (a : Mem) (min max : ℤ) (h : 0 ≤ min) :
    ∀ x ∈ quicksortAccesses a min max, 0 ≤ x ∧ x ≤ max := by
  induction a, min, max using quicksortAccesses.induct with
  | case1 a min max hbig r ihl ihr =>
    have hle : min ≤ max := by
      simp only [sortThreshold] at hbig
      omega
    have hmid : min ≤ r.2 ∧ r.2 ≤ max := (partition_spec a hle).1
    intro x hx
    rw [quicksortAccesses, dif_pos hbig] at hx
    rcases List.mem_append.mp hx with hx | hx
    · rcases List.mem_append.mp hx with hx | hx
      · have := partitionAccesses_within a hle x hx
        omega
      · have := ihl h x hx
        omega
    · have := ihr (by omega) x hx
      omega
  | case2 a min max hsmall =>
    intro x hx
    rw [quicksortAccesses, dif_neg hsmall] at hx
    have := insertionLoopAccesses_within _ _ _ (by omega) x hx
    rcases Int.le_total min max with hle | hle
    · omega
    · rw [Int.toNat_eq_zero.mpr (by omega)] at hx
      simp [insertionLoopAccesses] at hx

/-- The entries that a piece of code accesses are the same in both arrays. -/
def AgreeOn (l : List ℤ) (a b : Mem) : Prop := ∀ i ∈ l, b i = a i

/-- What the code makes of two arrays: it changes no entry that it does not access, and entries
that agree go on to agree. -/
structure Confined (l : List ℤ) (a b a' b' : Mem) : Prop where
  other : ∀ i, i ∉ l → a' i = a i
  agree : ∀ i, b i = a i → b' i = a' i

theorem Confined.refl (a b : Mem) : Confined [] a b a b := ⟨fun _ _ => rfl, fun _ => id⟩

theorem Confined.trans {l l' : List ℤ} {a b a' b' a'' b'' : Mem} (h : Confined l a b a' b')
    (h' : Confined l' a' b' a'' b'') : Confined (l ++ l') a b a'' b'' := by
  refine ⟨fun i hi => ?_, fun i hi => h'.agree i (h.agree i hi)⟩
  rw [List.mem_append, not_or] at hi
  rw [h'.other i hi.2, h.other i hi.1]

theorem Confined.mono {l l' : List ℤ} {a b a' b' : Mem} (h : Confined l a b a' b') (sub : l ⊆ l') :
    Confined l' a b a' b' := ⟨fun i hi => h.other i fun hl => hi (sub hl), h.agree⟩

/-- Where the code goes on, the arrays still agree on what it accesses. -/
theorem Confined.agreeOn {l l' : List ℤ} {a b a' b' : Mem} (h : Confined l a b a' b')
    (agree : AgreeOn l' a b) : AgreeOn l' a' b' := fun i hi => h.agree i (agree i hi)

theorem swap_confined {a b : Mem} {n m : ℤ} (hn : b n = a n) (hm : b m = a m) :
    Confined [n, m] a b (swap a n m) (swap b n m) := by
  refine ⟨fun i hi => ?_, fun i hi => ?_⟩
  · simp only [List.mem_cons, List.not_mem_nil, or_false, not_or] at hi
    exact exchange_of_ne a hi.1 hi.2
  · by_cases hin : i = n
    · rw [hin, swap, swap, exchange_left, exchange_left, hm]
    · by_cases him : i = m
      · rw [him, swap, swap, exchange_right, exchange_right, hn]
      · rw [swap, swap, exchange_of_ne b hin him, exchange_of_ne a hin him, hi]

theorem partitionLoop_confined (p : Word) (k : ℕ) (a b : Mem) (i mid : ℤ)
    (agree : AgreeOn (partitionLoopAccesses p k a i mid) a b) :
    (partitionLoop p k b i mid).2 = (partitionLoop p k a i mid).2 ∧
    Confined (partitionLoopAccesses p k a i mid) a b (partitionLoop p k a i mid).1
      (partitionLoop p k b i mid).1 := by
  induction k generalizing a b i mid with
  | zero => exact ⟨rfl, Confined.refl a b⟩
  | succ k ih =>
    have hi : b i = a i := agree i (by
      simp only [partitionLoopAccesses]
      split_ifs <;> exact List.mem_cons_self)
    simp only [partitionLoopAccesses, partitionLoop, hi] at agree ⊢
    split_ifs at agree ⊢ with hle
    · have hswap := swap_confined hi (agree mid (by simp))
      obtain ⟨hmid, hrest⟩ := ih (swap a i mid) (swap b i mid) (i + 1) (mid + 1)
        (hswap.agreeOn fun x hx => agree x (by simp [hx]))
      exact ⟨hmid, (hswap.trans hrest).mono (by simp)⟩
    · obtain ⟨hmid, hrest⟩ := ih a b (i + 1) mid fun x hx => agree x (List.mem_cons_of_mem _ hx)
      exact ⟨hmid, hrest.mono (List.subset_cons_self _ _)⟩

theorem partition_confined (a b : Mem) {min max : ℤ}
    (agree : AgreeOn (partitionAccesses a min max) a b) :
    (partition b min max).2 = (partition a min max).2 ∧
    Confined (partitionAccesses a min max) a b (partition a min max).1 (partition b min max).1 := by
  simp only [partitionAccesses, partition] at agree ⊢
  have hpivot : b ((max + min) / 2) = a ((max + min) / 2) := agree _ (by simp)
  rw [hpivot]
  generalize a ((max + min) / 2) = p at agree ⊢
  have hswap := swap_confined hpivot (agree max (by simp))
  obtain ⟨hmid, hloop⟩ := partitionLoop_confined p (max - min).toNat _ _ min min
    (hswap.agreeOn fun x hx => agree x (by simp [hx]))
  have hboth := hswap.trans hloop
  rw [hmid]
  have hend := swap_confined (hboth.agree (partitionLoop p (max - min).toNat
    (swap a ((max + min) / 2) max) min min).2 (agree _ (by simp)))
    (hboth.agree max (agree _ (by simp)))
  exact ⟨rfl, (hboth.trans hend).mono (by simp)⟩

theorem insertDown_confined (j : ℕ) (a b : Mem) (agree : AgreeOn (insertDownAccesses a j) a b) :
    Confined (insertDownAccesses a j) a b (insertDown a j) (insertDown b j) := by
  induction j generalizing a b with
  | zero => exact Confined.refl a b
  | succ j ih =>
    have hj : b j = a j := agree j (by
      simp only [insertDownAccesses]
      split_ifs <;> simp)
    have hj' : b (j + 1) = a (j + 1) := agree (j + 1) (by
      simp only [insertDownAccesses]
      split_ifs <;> simp)
    simp only [insertDownAccesses, insertDown, hj, hj'] at agree ⊢
    split_ifs at agree ⊢ with hlt
    · have hswap := swap_confined hj' hj
      have hrest := ih (swap a (j + 1) j) (swap b (j + 1) j)
        (hswap.agreeOn fun x hx => agree x (by simp [hx]))
      exact (hswap.trans hrest).mono (by simp)
    · exact (Confined.refl a b).mono (List.nil_subset _)

theorem insertionLoop_confined (k : ℕ) (a b : Mem) (i : ℤ)
    (agree : AgreeOn (insertionLoopAccesses k a i) a b) :
    Confined (insertionLoopAccesses k a i) a b (insertionLoop k a i) (insertionLoop k b i) := by
  induction k generalizing a b i with
  | zero => exact Confined.refl a b
  | succ k ih =>
    have hdown := insertDown_confined i.toNat a b fun x hx => agree x (List.mem_append_left _ hx)
    have hrest := ih _ _ (i + 1)
      (hdown.agreeOn fun x hx => agree x (List.mem_append_right _ hx))
    exact hdown.trans hrest

theorem quicksort_confined (a b : Mem) (min max : ℤ)
    (agree : AgreeOn (quicksortAccesses a min max) a b) :
    Confined (quicksortAccesses a min max) a b (quicksort a min max) (quicksort b min max) := by
  induction a, min, max using quicksortAccesses.induct generalizing b with
  | case1 a min max hbig r ihl ihr =>
    rw [quicksortAccesses, dif_pos hbig] at agree ⊢
    obtain ⟨hmid, hpart⟩ := partition_confined a b
      fun x hx => agree x (List.mem_append_left _ (List.mem_append_left _ hx))
    have hleft := ihl _ (hpart.agreeOn
      fun x hx => agree x (List.mem_append_left _ (List.mem_append_right _ hx)))
    have hright := ihr _ ((hpart.trans hleft).agreeOn
      fun x hx => agree x (List.mem_append_right _ hx))
    rw [quicksort, dif_pos hbig, quicksort.eq_def b, dif_pos hbig]
    dsimp only
    rw [hmid]
    exact (hpart.trans hleft).trans hright
  | case2 a min max hsmall =>
    rw [quicksortAccesses, dif_neg hsmall] at agree ⊢
    rw [quicksort, dif_neg hsmall, quicksort.eq_def b, dif_neg hsmall]
    exact insertionLoop_confined _ _ _ _ agree

/-- The sort touches nothing but its accesses: every other entry stays, and what it makes of the
array depends on the entries that it accesses only. -/
theorem threadscanUtilSort_confined (a b : Mem) (length : ℤ)
    (agree : AgreeOn (threadscanUtilSortAccesses a length) a b) :
    Confined (threadscanUtilSortAccesses a length) a b (threadscanUtilSort a length)
      (threadscanUtilSort b length) :=
  quicksort_confined a b 0 (length - 1) agree

/-- Every call that a sort makes keeps to its own range. -/
theorem calls_spec {a b : Mem} {min max lo hi : ℤ} (h : Calls a min max b lo hi) (hmin : 0 ≤ min)
    (hrange : min ≤ max + 1) (left : LeftBound a min max) :
    min ≤ lo ∧ lo ≤ hi + 1 ∧ hi ≤ max ∧ Rearranges lo hi b (quicksort b lo hi) := by
  induction h with
  | self a min max => exact ⟨le_rfl, hrange, le_rfl, (quicksort_spec a min max hmin hrange left).1⟩
  | left a min max big _ ih =>
    have hle : min ≤ max := by
      simp only [sortThreshold] at big
      omega
    obtain ⟨hb, hr, -⟩ := partition_spec a hle
    have hleft := left.rearranges hr
    have := ih hmin (by omega) (fun x y hx hxm hy hym => hleft x y hx hxm hy (by omega))
    exact ⟨this.1, this.2.1, by omega, this.2.2.2⟩
  | right a min max big _ ih =>
    have hle : min ≤ max := by
      simp only [sortThreshold] at big
      omega
    obtain ⟨hb, hr, -⟩ := partition_spec a hle
    have hleft := left.rearranges hr
    have hsort := (quicksort_spec (partition a min max).1 min ((partition a min max).2 - 1) hmin
      (by omega) (fun x y hx hxm hy hym => hleft x y hx hxm hy (by omega))).1
    have := ih (by omega) (by omega) (left.right hle hsort)
    exact ⟨by omega, this.2.1, this.2.2.1, this.2.2.2⟩

/-- The sort sorts its array, accesses nothing outside of it, and none of its calls changes
anything outside of its own range. The indices are small enough for an `int`. -/
theorem threadscan_util_sort_sorts (a : Mem) (length : ℕ) (small : length ≤ 2 ^ 30) :
    SortedOn (threadscanUtilSort a length) 0 (length - 1) ∧
    (contents (threadscanUtilSort a length) length).Perm (contents a length) ∧
    (∀ i ∈ threadscanUtilSortAccesses a length, 0 ≤ i ∧ i < length) ∧
    ∀ b min max, Calls a 0 (length - 1) b min max →
      (0 ≤ min ∧ max < length ∧ max + min < 2 ^ 31) ∧
      ∀ i, i < min ∨ max < i → quicksort b min max i = b i := by
  refine ⟨(threadscanUtilSort_spec a length).2, threadscanUtilSort_perm a length, ?_, ?_⟩
  · intro i hi
    have := quicksortAccesses_within a 0 (length - 1) le_rfl i hi
    omega
  · intro b min max h
    obtain ⟨hmin, hle, hmax, hr⟩ := calls_spec h le_rfl (by omega) fun x y hx hxm => by omega
    exact ⟨⟨hmin, by omega, by omega⟩, fun i hi => hr.outside (by omega)⟩

/-- Three entries, two of them equal. -/
theorem threadscan_util_sort_sorts_three :
    SortedOn (threadscanUtilSort (fun i => if i = 1 then 4#64 else 8#64) (3 : ℕ)) 0 (3 - 1) :=
  (threadscan_util_sort_sorts (fun i => if i = 1 then 4#64 else 8#64) 3 (by norm_num)).1

end ThreadScan.Sort
