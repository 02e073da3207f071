import ThreadScan.Rounds

/-! What is true of the addresses of a round when it has counted them is true of its sorted
list until it releases the lock. -/
namespace ThreadScan.Listed
open Transition Search Marking Rearrangement Reclaim Handshake Rounds ThreadScan.Sort

variable {T : Type*} [DecidableEq T] {cfg : Config}
  {ok : List (Event T) → State T → Event T → Prop} {es : List (Event T)} {s s' : State T}
  {Q : ℕ → List Word → Prop}

/-- A sorted list without duplicates is increasing, but for zeros in front. -/
theorem ordered_of_sorted {a : Mem} {n : ℕ} (sorted : SortedOn a 0 (n - 1))
    (nodup : ((contents a n).filter (· ≠ 0#64)).Nodup) : Ordered n a := by
  intro i j hi hij hj
  obtain ⟨i, rfl⟩ := Int.eq_ofNat_of_zero_le hi
  obtain ⟨j, rfl⟩ := Int.eq_ofNat_of_zero_le (hi.trans hij.le)
  have hle := BitVec.le_def.mp (sorted i j hi hij.le (by omega))
  have hpair := List.pairwise_iff_getElem.mp (List.pairwise_filter.mp nodup) i j
    (by rw [contents_length]; omega) (by rw [contents_length]; omega) (by omega)
  simp only [contents, List.getElem_map, List.getElem_range] at hpair
  by_cases heq : (a i).toNat = (a j).toNat
  · refine .inr ?_
    by_contra hne
    have hword : a i = a j := BitVec.eq_of_toNat_eq heq
    have hzero : a i ≠ 0#64 := by
      intro h₀
      apply hne
      rw [← hword, h₀]
      exact ⟨rfl, rfl⟩
    exact hpair (by simpa using hzero) (by simpa [← hword] using hzero) hword
  · exact .inl (by omega)

/-- A sorted list of positive multiples of four without duplicates. -/
theorem monotonic_of_sorted {a : Mem} {n : ℕ} (sorted : SortedOn a 0 (n - 1))
    (nodup : (contents a n).Nodup) (aligned : ∀ x ∈ contents a n, x.toNat % 4 = 0)
    (nonzero : ∀ x ∈ contents a n, x ≠ 0#64) : Monotonic n a := by
  have hmem : ∀ i : ℤ, 0 ≤ i → i < n → a i ∈ contents a n := by
    intro i h₀ hi
    obtain ⟨i, rfl⟩ := Int.eq_ofNat_of_zero_le h₀
    exact List.mem_map.mpr ⟨i, List.mem_range.mpr (by omega), rfl⟩
  have hpos : ∀ i : ℤ, 0 ≤ i → i < n → 0 < (a i).toNat := by
    intro i h₀ hi
    apply Nat.pos_of_ne_zero
    intro hz
    exact nonzero _ (hmem i h₀ hi) (BitVec.eq_of_toNat_eq hz)
  refine ⟨fun i h₀ hi => aligned _ (hmem i h₀ hi), hpos, fun i j h₀ hij hj => ?_⟩
  have hord := ordered_of_sorted sorted (nodup.filter _) i j h₀ hij hj
  have := hpos j (by omega) hj
  omega

/-- Marks do not disturb the order that `assert_monotonicity` checks. -/
theorem assert_of_marked {orig a : Mem} {n : ℕ} (mono : Monotonic n orig)
    (marked : Marked n orig a) : assertMonotonicity cfg a n := by
  intro _ i hi
  have h₁ := marked.toNat i
  rw [BitVec.lt_def]
  split_ifs with h₀
  · have := mono.positive i (by omega) (by omega)
    rw [BitVec.toNat_zero]
    omega
  · have h₂ := marked.toNat (i - 1)
    have h₃ := mono.increasing (i - 1) i (by omega) (by omega) (by omega)
    have h₄ := mono.aligned i (by omega) (by omega)
    omega

/-- What every round knows of its list when it has counted it. -/
def Counts (cfg : Config) (ok : List (Event T) → State T → Event T → Prop)
    (Q : ℕ → List Word → Prop) : Prop :=
  ∀ es s t n, Run (system cfg) ok es s → ok es s (.count t n) → s.main t = .count n →
    Q n (contents (s.buffer t) n)

/-- The list is sorted and its lock not yet released. -/
def Sorted (m : Main T) : Prop := m = .scanMap ∨ Ready m

omit [DecidableEq T] in
theorem Sorted.ne_away {m : Main T} (h : Sorted m) : phase m ≠ .away := by
  obtain rfl | h := h
  · simp [phase]
  · exact h.ne_away.1

omit [DecidableEq T] in
theorem goto_sorted {t : T} {m m' : Main T} (h : Goto cfg s t m m') (hs : Sorted m') :
    Sorted m := by
  obtain rfl | hs := hs
  · cases h
  · exact .inr (goto_ready h hs)

/-- The addresses before the sort, and the list from the sort on. -/
structure Listing (Q : ℕ → List Word → Prop) (s : State T) : Prop where
  counted : ∀ t, s.main t = .sort → Q s.nAddrs (contents (s.buffer t) s.nAddrs)
  sorted : ∀ t, Sorted (s.main t) → ∃ l, Q s.nAddrs l ∧ (contents s.sorted s.nAddrs).Perm l ∧
    SortedOn s.sorted 0 (s.nAddrs - 1)

/-- What a step changes of a list that has been counted. -/
theorem Listing.move (inv : Listing Q s) {t : T} {m : Main T}
    (hm : s'.main = Function.update s.main t m) (hn : s'.nAddrs = s.nAddrs)
    (hsort : s'.sorted = s.sorted) (hb : ∀ u, s.main u = .sort → s'.buffer u = s.buffer u)
    (hnew : m ≠ .sort) (hold : Sorted m → Sorted (s.main t)) : Listing Q s' := by
  have hback : ∀ u, s'.main u = .sort → s.main u = .sort := by
    intro u hu
    rw [hm] at hu
    by_cases he : u = t
    · subst he
      rw [Function.update_self] at hu
      exact absurd hu hnew
    · rwa [Function.update_of_ne he] at hu
  have hready : ∀ u, Sorted (s'.main u) → Sorted (s.main u) := by
    intro u hu
    rw [hm] at hu
    by_cases he : u = t
    · subst he
      rw [Function.update_self] at hu
      exact hold hu
    · rwa [Function.update_of_ne he] at hu
  constructor
  · intro u hu
    rw [hn, hb u (hback u hu)]
    exact inv.counted u (hback u hu)
  · intro u hu
    rw [hn, hsort]
    exact inv.sorted u (hready u hu)

theorem Listing.step (counts : Counts cfg ok Q) (run : Run (system cfg) ok es s)
    (inv : Listing Q s) {e : Event T} (allowed : ok es s e) (move : Step cfg s e s') :
    Listing Q s' := by
  -- a step of the lock holder's buffer is no step of another list
  have hupdate : ∀ {t : T} {a : Mem}, s.main t ≠ .sort → ∀ u, s.main u = .sort →
      Function.update s.buffer t a u = s.buffer u := by
    intro t a ht u hu
    apply Function.update_of_ne
    rintro rfl
    exact ht hu
  have hscan : ∀ {v : T} {scan : Scan}, Scans s v scan → ∀ u, s.main u ≠ .sort :=
    fun hv u hu => not_held_of_scans run hv (t := u) (by rw [hu]; rfl)
  cases move with
  | count t n ht =>
    have hlist := counts _ _ _ _ run allowed ht
    constructor
    · intro u hu
      by_cases he : u = t
      · subst he
        exact hlist
      · simp only [Function.update_of_ne he] at hu
        exact absurd (alone run (by simp [hu, phase]) (by simp [ht, phase])) he
    · intro u hu
      by_cases he : u = t
      · subst he
        simp only [Function.update_self] at hu
        obtain h | h := hu
        · cases h
        · exact h.elim
      · simp only [Function.update_of_ne he] at hu
        exact absurd (alone run hu.ne_away (by simp [ht, phase])) he
  | sort t ht =>
    constructor
    · intro u hu
      by_cases he : u = t
      · subst he
        simp at hu
      · simp only [Function.update_of_ne he] at hu
        exact absurd (alone run (by simp [hu, phase]) (by simp [ht, phase])) he
    · intro u _
      exact ⟨_, inv.counted t ht, threadscanUtilSort_perm _ _, (threadscanUtilSort_spec _ _).2⟩
  | search t c stage scan ht =>
    exact inv.move rfl rfl rfl (fun u hu => absurd hu (hscan (.inl ⟨c, stage, ht⟩) u))
      (by simp) fun _ => .inr (by rw [ht]; trivial)
  | helperSearch v stage scan hv =>
    exact ⟨fun u hu => absurd hu (hscan (.inr ⟨stage, hv⟩) u), inv.sorted⟩
  | goto t m _ hg =>
    refine inv.move rfl rfl rfl (fun _ _ => rfl) ?_ (goto_sorted hg)
    rintro rfl
    generalize s.main t = m₀ at hg
    cases hg
  | assign t _ _ ht | leftover t _ _ _ ht | popTail t _ _ _ _ ht | keep t _ _ _ ht
  | free t _ _ _ _ ht | randomize t _ ht =>
    exact inv.move rfl rfl rfl (hupdate (by simp [ht])) (by simp)
      fun h => by obtain h | h := h <;> cases h
  | push t _ ht | acquire t ht | exchange t ht | lockQueues t _ ht | unlockQueues t _ ht
  | verify t _ ht | store t _ ht | release t _ ht =>
    exact inv.move rfl rfl rfl (fun _ _ => rfl) (by simp)
      fun h => by obtain h | h := h <;> cases h
  | scanMap t ht | reset t ht | lockSignal t ht | kill t _ _ _ ht | unlockSignal t _ ht
  | leave t _ ht =>
    exact inv.move rfl rfl rfl (fun _ _ => rfl) (by simp) fun _ => by
      rw [ht]
      first | exact .inl rfl | exact .inr trivial
  | _ => exact ⟨inv.counted, inv.sorted⟩

theorem run_listing (counts : Counts cfg ok Q) (run : Run (system cfg) ok es s) :
    Listing Q s := by
  refine run.invariant (I := fun _ s => Listing Q s) ?_
    fun _ _ _ _ run inv allowed move => inv.step counts run allowed move
  rintro s ⟨map, rfl⟩
  refine ⟨fun t h => by simp [initial] at h, fun t h => ?_⟩
  obtain h | h := h
  · simp [initial] at h
  · exact h.elim

end ThreadScan.Listed
