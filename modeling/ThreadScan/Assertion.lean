import ThreadScan.Tracking

/-! The assertion of debug builds that the list of a round is increasing. It holds in every
round of a client that honours its obligations, as long as no compaction loses an entry: the
zero that is left in its place reaches the front of the next list. -/
namespace ThreadScan.Assertion
open Transition Search Marking Compaction Rearrangement Reclaim Handshake Rounds Listed
open Bookkeeping Coverage Progress Tracking ThreadScan.Sort

variable {T : Type*} [DecidableEq T] {cfg : Config}
  {ok : List (Event T) → State T → Event T → Prop} {es : List (Event T)} {s s' : State T}

/-- Aligned addresses, none collected again before it is freed, and no compaction that starts
with a marked entry. -/
def alignedFirst (es : List (Event T)) (s : State T) : Event T → Prop
  | .push _ a => a.toNat % 4 = 0 ∧ ¬ Live a es
  | .handle t => ∀ n, s.main t = .verify n → n = 0 ∨ lowBit (s.buffer t 0) = false
  | _ => True

/-- Strictly increasing, with a positive first element. -/
def Increasing (n : ℕ) (a : Mem) : Prop :=
  (∀ i j : ℤ, 0 ≤ i → i < j → j < n → a i < a j) ∧ (0 < n → 0#64 < a 0)

theorem increasing_of_marked {n : ℕ} {orig a : Mem} (mono : Monotonic n orig)
    (marked : Marked n orig a) : Increasing n a := by
  constructor
  · intro i j hi hij hj
    have h₁ := mono.increasing i j hi hij hj
    have h₂ := marked.toNat i
    have h₃ := marked.toNat j
    have h₄ := mono.aligned j (by omega) hj
    rw [BitVec.lt_def]
    omega
  · intro hn
    have h₁ := mono.positive 0 le_rfl (by omega)
    have h₂ := marked.toNat 0
    rw [BitVec.lt_def, BitVec.toNat_zero]
    omega

theorem Increasing.assert {n : ℕ} {a : Mem} (h : Increasing n a) : assertMonotonicity cfg a n := by
  intro _ i hi
  split_ifs with h₀
  · subst h₀
    exact h.2 hi
  · exact h.1 (i - 1) i (by omega) (by omega) (by omega)

omit [DecidableEq T] in
theorem alignedFirst_collects : Collects (alignedFirst (T := T)) := by
  rintro es s t a ⟨h4, hfresh⟩
  exact ⟨by omega, hfresh⟩

omit [DecidableEq T] in
theorem alignedFirst_keeps : KeepsFirst (alignedFirst (T := T)) := fun _ _ _ n h => h n

/-- The addresses of a round, when it has counted them. -/
def Distinct (_ : ℕ) (l : List Word) : Prop :=
  l.Nodup ∧ (∀ x ∈ l, x.toNat % 4 = 0) ∧ ∀ x ∈ l, x ≠ 0#64

theorem counts_distinct : Counts cfg (alignedFirst (T := T)) Distinct := by
  intro es s t n run allowed ht
  have complete := run_complete alignedFirst_collects alignedFirst_keeps run
  have hplace : place s (.list t) = contents (s.buffer t) n := by
    simp only [place, ht, workingList]
  have hlive : ∀ x ∈ contents (s.buffer t) n, x.toNat % 4 = 0 ∧ x ≠ 0#64 := by
    intro x hx
    have hheld := (complete.live x).mp ⟨.list t, hplace ▸ hx⟩
    exact run_live (fun es s t a ha => ha.1) run x hheld
  exact ⟨hplace ▸ complete.exclusive.nodup (.list t), fun x hx => (hlive x hx).1,
    fun x hx => (hlive x hx).2⟩

/-- The list of every round is strictly increasing from the sort on. -/
theorem monotonic (run : Run (system cfg) alignedFirst es s) {r : T} (h : Sorted (s.main r)) :
    Monotonic s.nAddrs s.sorted := by
  obtain ⟨l, ⟨hnodup, h4, h₀⟩, hperm, hsort⟩ := (run_listing counts_distinct run).sorted r h
  exact monotonic_of_sorted hsort (hperm.nodup_iff.mpr hnodup)
    (fun x hx => h4 x (hperm.mem_iff.mp hx)) fun x hx => h₀ x (hperm.mem_iff.mp hx)

/-- The list of a round that is searched. -/
theorem increasing_of_ready (run : Run (system cfg) alignedFirst es s) {r : T}
    (h : Ready (s.main r)) : Increasing s.nAddrs (s.buffer r) := by
  by_cases hn : s.nAddrs = 0
  · rw [hn]
    exact ⟨fun i j hi hij hj => by omega, fun h => absurd h (lt_irrefl 0)⟩
  · have hmarked := ((run_searches run).list r h (by omega)).marked
    simp only [working, bufAddrs_of_owner (run_owner run r h.ne_away.1 h.ne_away.2)] at hmarked
    exact increasing_of_marked (monotonic run (.inr h)) hmarked

/-! ### After the wait -/

/-- The list of a round that has left its wait is increasing, so its check succeeds. -/
structure Checked (s : State T) : Prop where
  left : ∀ t n, s.main t = .release n ∨ s.main t = .verify n → Increasing n (s.buffer t)
  passed : ∀ t n, s.main t ≠ .fatal n

theorem Checked.step (run : Run (system cfg) alignedFirst es s) (inv : Checked s) {e : Event T}
    (move : Step cfg s e s') : Checked s' := by
  obtain ⟨left, passed⟩ := inv
  -- a thread that moves elsewhere
  have hmove : ∀ {v : T} {m : Main T}, s'.main = Function.update s.main v m →
      (∀ t, t ≠ v → ¬ RollCall.Open (phase (s.main t)) → s'.buffer t = s.buffer t) →
      (∀ n, m = .release n ∨ m = .verify n → Increasing n (s'.buffer v)) →
      (∀ n, m ≠ .fatal n) → Checked s' := by
    intro v m hm hb hleft hpassed
    constructor
    · intro t n ht
      rw [hm] at ht
      by_cases htv : t = v
      · subst htv
        rw [Function.update_self] at ht
        exact hleft n ht
      · rw [Function.update_of_ne htv] at ht
        rw [hb t htv (by obtain h | h := ht <;> rw [h] <;> exact id)]
        exact left t n ht
    · intro t n ht
      rw [hm] at ht
      by_cases htv : t = v
      · subst htv
        rw [Function.update_self] at ht
        exact hpassed n ht
      · rw [Function.update_of_ne htv] at ht
        exact passed t n ht
  have hupdate : ∀ {v : T} {a : Mem}, ∀ t, t ≠ v → ¬ RollCall.Open (phase (s.main t)) →
      Function.update s.buffer v a t = s.buffer t :=
    fun t ht _ => Function.update_of_ne ht _ _
  cases move with
  | leave t c ht =>
    refine hmove rfl (fun _ _ _ => rfl) (fun n hn => ?_) (by simp)
    obtain hn | hn := hn <;> cases hn
    exact increasing_of_ready run (by rw [ht]; trivial)
  | release t n ht =>
    refine hmove rfl (fun _ _ _ => rfl) (fun n' hn => ?_) (by simp)
    obtain hn | hn := hn <;> cases hn
    exact left t n (.inl ht)
  | goto t m _ hg =>
    refine hmove rfl (fun _ _ _ => rfl) ?_ ?_
    · rintro n (rfl | rfl)
      · generalize s.main t = m₀ at hg
        cases hg
      · generalize s.main t = m₀ at hg
        cases hg
    · rintro n rfl
      generalize hm : s.main t = m₀ at hg
      cases hg with
      | verifyFail n hfail => exact hfail (left t n (.inr hm)).assert
  | search t c stage scan ht =>
    exact hmove rfl (fun v _ hv => storeBuf_other run (.inl ⟨c, stage, ht⟩) _ hv) (by simp) (by simp)
  | helperSearch v stage scan hv =>
    refine ⟨fun t n ht => ?_, passed⟩
    have hb := storeBuf_other run (.inr ⟨stage, hv⟩)
      (searchNext cfg.debug (working s) scan).2 (u := t)
      (by obtain h | h := ht <;> rw [show s.main t = _ from h] <;> exact id)
    dsimp only
    rw [hb]
    exact left t n ht
  | assign | leftover | popTail | sort | keep | free | randomize =>
    exact hmove rfl hupdate (by simp) (by simp)
  | push | acquire | exchange | lockQueues | unlockQueues | count | scanMap | reset | lockSignal
  | kill | unlockSignal | verify | store =>
    exact hmove rfl (fun _ _ _ => rfl) (by simp) (by simp)
  | _ => exact ⟨left, passed⟩

theorem run_checked (run : Run (system cfg) (alignedFirst (T := T)) es s) : Checked s := by
  refine run.invariant (I := fun _ s => Checked s) ?_
    fun _ _ _ _ run inv _ move => inv.step run move
  rintro s ⟨map, rfl⟩
  exact ⟨fun t n h => by simp [initial] at h, fun t n h => by simp [initial] at h⟩

/-! ### Before the searches -/

/-- A search of an empty list gets past the check at once. -/
def Unchecked (scan : Scan) : Prop :=
  match scan.pc with
  | .mono i _ => 0 ≤ i
  | .monoLast _ | .fatal => False
  | _ => True

theorem unchecked_searchRange (debug : Bool) (words : List Word) :
    Unchecked (searchRange debug words) := by
  unfold searchRange
  split_ifs
  · exact le_rfl
  · trivial

theorem Unchecked.next {debug : Bool} {g : Working} {scan : Scan} (hn : g.nAddrs = 0)
    (h : Unchecked scan) : Unchecked (searchNext debug g scan).1 := by
  obtain ⟨mem, minPtr, maxPtr, cmp, pc⟩ := scan
  cases pc with
  | mono i last =>
    simp only [Unchecked] at h
    simp only [searchNext]
    rw [if_neg (by omega)]
    trivial
  | monoLast i | fatal => exact h.elim
  | readMax =>
    simp only [searchNext]
    split_ifs <;> trivial
  | next =>
    cases mem with
    | nil => trivial
    | cons w mem =>
      simp only [searchNext, Unchecked, examine]
      split_ifs <;> trivial
  | setLow loc =>
    simp only [searchNext, Unchecked]
    split_ifs <;> trivial
  | lookup p | recheck p => cases p <;> trivial
  | compare loc | reassert loc =>
    simp only [searchNext]
    split_ifs <;> trivial
  | readMin | setStore loc v | done | abort => trivial

theorem run_unchecked (run : Run (system cfg) ok es s) :
    ∀ u scan, Scans s u scan → s.nAddrs = 0 → Unchecked scan := by
  refine run.invariant (I := fun _ s => ∀ u scan, Scans s u scan → s.nAddrs = 0 → Unchecked scan)
    ?_ ?_
  · rintro s ⟨map, rfl⟩ u scan (⟨c, stage, h⟩ | ⟨stage, h⟩) <;> simp [initial] at h
  · intro es s e s' run inv allowed move u scan h hn
    obtain ⟨r, -, hlist⟩ := list_step_of_scans run (run.step allowed move) move h
    cases hlist with
    | rests list sorted scans =>
      have hna : s'.nAddrs = s.nAddrs := Int.ofNat.inj (congrArg Working.nAddrs list)
      obtain hold | ⟨words, rfl⟩ := scans u scan h
      · exact inv u scan hold (hna ▸ hn)
      · exact unchecked_searchRange _ _
    | searched v scan₀ hv list sorted scans =>
      have hna : s'.nAddrs = s.nAddrs := Int.ofNat.inj (congrArg Working.nAddrs list)
      obtain hold | rfl := scans u scan h
      · exact inv u scan hold (hna ▸ hn)
      · refine Unchecked.next ?_ (inv v scan₀ hv (hna ▸ hn))
        change (s.nAddrs : ℤ) = 0
        omega

/-- At every check of the list, before a search and after the wait, the list is increasing;
no check fails. -/
theorem list_increasing (cfg : Config) (es : List (Event T)) (s : State T)
    (run : Run (system cfg) alignedFirst es s) :
    (∀ u scan, Scans s u scan → Increasing s.nAddrs (bufAddrs s)) ∧
    (∀ t n, s.main t = .verify n → Increasing n (s.buffer t)) ∧
    (∀ u scan, Scans s u scan → scan.pc ≠ .fatal) ∧ ∀ t n, s.main t ≠ .fatal n := by
  have checked := run_checked run
  refine ⟨fun u scan h => ?_, fun t n h => checked.left t n (.inr h), fun u scan h => ?_,
    checked.passed⟩
  · obtain ⟨r, hr⟩ := scans_open run h
    have hready := ready_of_open hr
    rw [bufAddrs_of_owner (run_owner run r hready.ne_away.1 hready.ne_away.2)]
    exact increasing_of_ready run hready
  · intro hpc
    by_cases hn : s.nAddrs = 0
    · have hunchecked := run_unchecked run u scan h hn
      simp only [Unchecked, hpc] at hunchecked
    · obtain ⟨r, hr⟩ := scans_open run h
      have hcalm := (run_searches run).calm u scan h (by omega)
        (monotonic run (.inr (ready_of_open hr)))
      exact hcalm.not_failed.1 hpc

omit [DecidableEq T] in
theorem lets_alignedFirst : Lets (alignedFirst (T := T)) := by
  intro es s e h
  cases e <;> first | exact h.elim | trivial

omit [DecidableEq T] in
theorem alignedFirst_of_orderly {e : Event T} (h : orderly es s e) : alignedFirst es s e := by
  obtain ⟨⟨hhonours, -⟩, hfirst⟩ := h
  cases e with
  | push t a => exact hhonours
  | handle t => exact fun n => hfirst t n rfl
  | _ => trivial

/-- The second round of a thread that refers to an address of its first one. -/
theorem list_increasing_second : ∃ (es : List (Event Unit)) (s : State Unit) (n : ℕ),
    Run (system (leastConfig true)) alignedFirst es s ∧ s.stack () = [4112#64] ∧ 1023 < n ∧
    s.main () = .verify n ∧ Increasing n (s.buffer ()) := by
  obtain ⟨es, s, run₀, lone, idle, free, empty, hkept, hlen, hes⟩ := kept_round true
  have run := run₀.weaken fun _ _ _ h => alignedFirst_of_orderly h
  have complete := run_complete alignedFirst_collects alignedFirst_keeps run
  have hsmall : 16 * (1279 + 1023) < 2 ^ 64 := by norm_num
  have hlive : ∀ x ∈ s.storage.flatten, Live x es := fun x hx => (complete.live x).mp ⟨.storage, hx⟩
  have hstored : ∀ x ∈ s.storage.flatten, x.toNat % 4 = 0 ∧ x ≠ 0#64 :=
    fun x hx => run_live (fun es s t a ha => ha.1) run x (hlive x hx)
  have hold : ∀ x ∈ s.storage.flatten, x ∈ addressRow 256 1023 := by
    intro x hx
    obtain ⟨u, hu⟩ := collected_of_live (hlive x hx)
    exact hes u x hu
  obtain ⟨es', s', b₀, hmoves, lone', hm, -⟩ :=
    lone_round lets_alignedFirst () [4112#64] (addressRow 1279 1023) es s run lone idle free empty
      (fun a ha u hu => addressRow_apart ha (hes u a hu)) (by rw [addressRow_length]; rfl)
      (fun es s a ha hf => ⟨addressRow_aligned hsmall a ha, not_live_of_fresh hf⟩)
      (s.storage.flatten.length + 1023) (by rw [addressRow_length])
      (by rw [leastConfig_maxPtrs]; omega) (fun _ _ _ _ => trivial) (fun _ _ => trivial)
      (List.nodup_append'.mpr ⟨complete.exclusive.nodup .storage, addressRow_nodup hsmall,
        fun x hx ha => addressRow_apart ha (hold x hx)⟩)
      (fun x hx => (List.mem_append.mp hx).elim (fun h => (hstored x h).1)
        (addressRow_aligned hsmall x))
      (fun x hx => (List.mem_append.mp hx).elim (fun h => (hstored x h).2)
        (addressRow_nonzero hsmall (by norm_num) x))
  have hpos : 0 < s.storage.flatten.length := List.length_pos_of_mem hkept
  have run' := run.extend hmoves
  exact ⟨es', s', _, run', lone'.stack, by omega, hm,
    (list_increasing _ es' s' run').2.1 () _ hm⟩

/-! ### The round after a lost address -/

/-- The smallest entry of a sorted list is its first one. -/
theorem first_zero {b : Mem} {n : ℕ} (sorted : SortedOn b 0 (n - 1))
    (h : 0#64 ∈ contents b n) : b 0 = 0#64 := by
  obtain ⟨k, hk, he⟩ := mem_contents_iff.mp h
  have hle := sorted 0 k le_rfl (by omega) (by omega)
  rw [he, BitVec.le_def, BitVec.toNat_zero] at hle
  exact BitVec.eq_of_toNat_eq (by rw [BitVec.toNat_zero]; omega)

/-- A search of a debug build stops at a zero in front of its list. -/
theorem stops_at_zero (lets : Lets ok) (run : Run (system cfg) ok es s)
    {t : T} {c : ℕ} {stage : Stage} {words : List Word} (awake : s.handler t = none)
    (ht : s.main t = .search c stage (searchRange true words)) (pos : 0 < s.nAddrs)
    (hzero : bufAddrs s 0 = 0#64) :
    ∃ es' s' scan, Run (system cfg) ok es' s' ∧ Scans s' t scan ∧ scan.pc = .fatal := by
  have hstep : Step cfg s .other _ := .search s t c stage _ ht awake
  refine ⟨_, _, _, run.step (lets _ _ .other trivial) hstep,
    .inl ⟨c, stage, Function.update_self ..⟩, ?_⟩
  simp [searchNext, searchRange, working, pos, hzero]

/-- A check fails in the second round of a thread that refers to its lowest address. -/
theorem check_fails : ∃ es s scan, Run (system (T := Unit) (leastConfig true)) patient es s ∧
    Scans s () scan ∧ scan.pc = .fatal := by
  obtain ⟨es, s, run, lone, idle, free, empty, hzero, hlen, -, hes⟩ := lossy_round true
  have hsmall : 16 * (1279 + 1023) < 2 ^ 64 := by norm_num
  have hfresh : ∀ a ∈ addressRow 1279 1023, Fresh a es :=
    fun a ha u hu => addressRow_apart ha (hes u a hu)
  obtain ⟨es₁, run₁, -⟩ := fill_run lets_patient run () (addressRow 1279 1023)
    (fun es s a ha hf => ⟨⟨addressRow_aligned hsmall a ha, not_live_of_fresh hf⟩, by simp⟩)
    (addressRow_nonzero hsmall (by norm_num)) (addressRow_nodup hsmall) hfresh idle
    lone.handler lone.life empty (by rw [addressRow_length]; rfl)
  have hdrain := search_reach (leastConfig true) lets_patient es₁ { s with
      queue := Function.update s.queue () (addressRow 1279 1023)
      main := Function.update s.main () .tryAcquire } () (by simp) lone.handler free lone.listLock
    lone.threadList (s.storage.flatten.length + 1023) (by simp [addressRow_length])
    (by rw [leastConfig_maxPtrs]; omega)
    (fun _ _ _ _ _ => ⟨trivial, by simp⟩) (fun _ _ => ⟨by simp [honours], by simp⟩)
  obtain ⟨es₂, s₂, hleads₂, b, map, k, hperm, hsort, hs₂⟩ := hdrain
  have hfirst : b 0 = 0#64 :=
    first_zero hsort (hperm.mem_iff.mpr (List.mem_append_left _ hzero))
  have run₂ := hleads₂.run run₁
  have hstart : s₂.main () = .search 0 .stack (searchRange true (s.stack ())) := by
    simp [hs₂, searching, leastConfig]
  subst hs₂
  exact stops_at_zero lets_patient run₂ lone.handler
    hstart (Nat.succ_pos _) hfirst

end ThreadScan.Assertion
