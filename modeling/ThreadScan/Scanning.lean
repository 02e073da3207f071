import ThreadScan.Marking

/-! Any number of threads in `do_search` on one list, in any order of their accesses to
it. The outcome depends on the words they examine only. -/
namespace ThreadScan.Scanning
open Transition Search Marking

structure State (T : Type*) where
  bufAddrs : Mem
  search : T → Scan

variable {T : Type*} [DecidableEq T]

def working (n : ℤ) (map : Mem × ℤ) (bufAddrs : Mem) : Working := ⟨bufAddrs, n, map.1, map.2⟩

/-- One step of one thread. -/
def advance (debug : Bool) (n : ℤ) (map : Mem × ℤ) (s : State T) (t : T) : State T where
  bufAddrs := store s.bufAddrs (searchNext debug (working n map s.bufAddrs) (s.search t)).2
  search := Function.update s.search t
    (searchNext debug (working n map s.bufAddrs) (s.search t)).1

/-- Threads that run `do_search` on the words of their ranges, over the list `orig` and
the scan map that `generate_scan_map` leaves in the space of `map₀`. -/
def system (debug : Bool) (orig : Mem) (n : ℤ) (map₀ : Mem) (words : T → List Word) :
    System (State T) T where
  init s := s = ⟨orig, fun t => doSearch (words t)⟩
  step s t s' := s' = advance debug n (generateScanMap orig n map₀) s t

/-- What holds of one thread whatever the others do to the list. -/
structure ThreadInv (orig : Mem) (n : ℤ) (a : Mem) (words : List Word) (s : Scan) : Prop where
  sound : Sound orig n words s
  caught : Caught orig n a s
  calm : Calm orig n a s
  pending : ∀ j, 0 ≤ j → j < n → (∃ w ∈ words, ptrMask w = orig j) →
    a j = orig j + 1#64 ∨ Pending orig j s

variable {debug : Bool} {orig map₀ a b : Mem} {n : ℤ} {words : T → List Word}
  {es : List T} {s : State T}

theorem ThreadInv.grows {ws : List Word} {c : Scan} (h : ThreadInv orig n a ws c)
    (grows : Grows orig a b) : ThreadInv orig n b ws c :=
  ⟨h.sound, h.caught.grows grows, h.calm.grows grows,
    fun j h₀ hj hw => (h.pending j h₀ hj hw).imp_left (grows j)⟩

theorem ThreadInv.next {g : Working} {ws : List Word} {c : Scan}
    (h : ThreadInv orig g.nAddrs g.bufAddrs ws c) (list : Searchable orig g)
    (mono : Monotonic g.nAddrs orig) :
    ThreadInv orig g.nAddrs (store g.bufAddrs (searchNext debug g c).2) ws
      (searchNext debug g c).1 := by
  obtain ⟨hsound, hmarks⟩ := h.sound.next list debug
  have hgrows := hmarks.store_grows (a := g.bufAddrs)
  refine ⟨hsound, h.caught.next.grows hgrows, h.calm.next list mono h.sound h.caught, ?_⟩
  intro j h₀ hj hw
  have hpos := mono.positive j h₀ hj
  obtain hmark | hpend := h.pending j h₀ hj hw
  · exact .inl (hgrows j hmark)
  obtain he | ⟨-, -, he⟩ := list.marked j
  · exact hpend.next list mono.ordered h.sound h.caught ⟨h₀, hj⟩ (by omega) he
  · exact .inl (hgrows j he)

/-- An entry is marked only if some word of some thread refers to it. -/
structure Inv (orig : Mem) (n : ℤ) (words : T → List Word) (s : State T) : Prop where
  marked : Marked n orig s.bufAddrs
  asked : ∀ i, s.bufAddrs i = orig i + 1#64 → ∃ t, ∃ w ∈ words t, ptrMask w = orig i
  thread : ∀ t, ThreadInv orig n s.bufAddrs (words t) (s.search t)

theorem searchable (map₀ : Mem) {a : Mem} (pos : 1 ≤ n) (marked : Marked n orig a) :
    Searchable orig (working n (generateScanMap orig n map₀) a) :=
  ⟨pos, generateScanMap_spec orig n (by omega) map₀, marked⟩

theorem Inv.step (pos : 1 ≤ n) (mono : Monotonic n orig) (h : Inv orig n words s) (t : T) :
    Inv orig n words (advance debug n (generateScanMap orig n map₀) s t) := by
  have list := searchable map₀ pos h.marked
  have hmarks := ((h.thread t).sound.next list debug).2
  refine ⟨hmarks.store_marked h.marked, ?_, ?_⟩
  · intro i hi
    simp only [advance] at hi
    generalize (searchNext debug _ (s.search t)).2 = st at hmarks hi
    cases st with
    | none => exact h.asked i hi
    | some p =>
      obtain ⟨-, -, hw, -⟩ := hmarks p rfl
      by_cases he : i = p.1
      · subst he
        exact ⟨t, hw⟩
      · simp only [store] at hi
        rw [Function.update_of_ne he] at hi
        exact h.asked i hi
  · intro u
    by_cases hu : u = t
    · subst hu
      simp only [advance, Function.update_self]
      exact (h.thread u).next list mono
    · simp only [advance, Function.update_of_ne hu]
      exact (h.thread u).grows hmarks.store_grows

theorem run_inv {ok : List T → State T → T → Prop} (pos : 1 ≤ n) (mono : Monotonic n orig)
    (run : Run (system debug orig n map₀ words) ok es s) : Inv orig n words s := by
  refine run.invariant (I := fun _ s => Inv orig n words s) ?_ ?_
  · rintro s rfl
    refine ⟨Marked.refl _ _, ?_, fun t => ⟨sound_searchRange false _, caught_searchRange false _,
      calm_searchRange false _, fun j _ _ hw => .inr (pending_searchRange false hw)⟩⟩
    intro i hi
    simp at hi
  · rintro es s t _ - inv - rfl
    exact inv.step pos mono t

/-! ### Every search finishes -/

/-- A bound on the steps that one word takes. -/
def wordSteps (n : ℤ) : ℕ := 4 * n.toNat + 20

/-- A bound on the steps from a position to the next word. -/
def pcSteps (n : ℤ) : Pc → ℕ
  | .mono i _ => 2 * (n - i).toNat + 4
  | .monoLast i => 2 * (n - i).toNat + 3
  | .readMin => 3
  | .readMax => 2
  | .next => 1
  | .setLow _ => 3
  | .setStore _ _ => 2
  | .lookup p => p.size + 2 * n.toNat + 8
  | .compare _ => 2 * n.toNat + 7
  | .recheck p => p.size + 3
  | .reassert _ => 2
  | .done | .fatal | .abort => 0

def scanSteps (n : ℤ) (c : Scan) : ℕ := wordSteps n * c.mem.length + pcSteps n c.pc

theorem probe_size_le {p : Probe} (h : InRange n p) : p.size ≤ 2 * n.toNat + 2 := by
  cases p with
  | bisect lo hi =>
    obtain ⟨h₁, h₂, h₃⟩ := h
    simp only [Probe.size]
    omega
  | walk lo hi =>
    obtain ⟨h₁, h₂, h₃, h₄⟩ := h
    simp only [Probe.size]
    omega
  | found loc => simp [Probe.size]

theorem scanSteps_next {g : Working} {ws : List Word} {c : Scan} (list : Searchable orig g)
    (sound : Sound orig g.nAddrs ws c) (debug : Bool) (hd : c.pc ≠ .done) (hf : c.pc ≠ .fatal)
    (hab : c.pc ≠ .abort) :
    scanSteps g.nAddrs (searchNext debug g c).1 < scanSteps g.nAddrs c := by
  have hafter := (sound.next list debug).1.place
  obtain ⟨mem, minPtr, maxPtr, cmp, pc⟩ := c
  have hat := sound.place
  cases pc with
  | mono i last =>
    simp only [searchNext]
    split_ifs <;> simp only [scanSteps, pcSteps] <;> omega
  | monoLast i =>
    obtain ⟨h₁, h₂⟩ := hat
    simp only [searchNext, scanSteps, pcSteps]
    omega
  | readMin => simp [searchNext, scanSteps, pcSteps]
  | readMax =>
    simp only [searchNext]
    split_ifs <;> simp [scanSteps, pcSteps]
  | next =>
    cases mem with
    | nil => simp [searchNext, scanSteps, pcSteps]
    | cons w mem =>
      have hpc : pcSteps g.nAddrs (examine g minPtr maxPtr (ptrMask w)) < wordSteps g.nAddrs := by
        simp only [searchNext, At] at hafter
        revert hafter
        unfold examine
        split_ifs
        · simp [pcSteps, wordSteps]
        · simp [pcSteps, wordSteps]
        · simp [pcSteps, wordSteps]
        · rintro ⟨-, -, -, hin⟩
          have := probe_size_le hin
          simp only [pcSteps, wordSteps]
          omega
      have hone : pcSteps g.nAddrs .next = 1 := rfl
      simp only [searchNext, scanSteps, List.length_cons, Nat.mul_add, hone]
      omega
  | setLow loc =>
    simp only [searchNext]
    split_ifs <;> simp [scanSteps, pcSteps]
  | setStore loc v => simp [searchNext, scanSteps, pcSteps]
  | lookup p =>
    cases p with
    | found loc =>
      simp only [searchNext, scanSteps, pcSteps, Probe.size]
      omega
    | bisect lo hi =>
      have := binarySearchNext_size cmp g.bufAddrs lo hi
      simp only [searchNext, scanSteps, pcSteps, Probe.next]
      omega
    | walk lo hi =>
      have := iterativeSearchNext_size cmp g.bufAddrs lo hi
      simp only [searchNext, scanSteps, pcSteps, Probe.next]
      omega
  | compare loc =>
    have hpos := list.pos
    simp only [searchNext]
    split_ifs <;> simp only [scanSteps, pcSteps, Probe.size] <;> omega
  | recheck p =>
    cases p with
    | found loc =>
      simp only [searchNext, scanSteps, pcSteps, Probe.size]
      omega
    | bisect lo hi =>
      have := binarySearchNext_size cmp g.bufAddrs lo hi
      simp only [searchNext, scanSteps, pcSteps, Probe.next]
      omega
    | walk lo hi =>
      have := iterativeSearchNext_size cmp g.bufAddrs lo hi
      simp only [searchNext, scanSteps, pcSteps, Probe.next]
      omega
  | reassert loc =>
    simp only [searchNext]
    split_ifs <;> simp [scanSteps, pcSteps]
  | done => exact absurd rfl hd
  | fatal => exact absurd rfl hf
  | abort => exact absurd rfl hab

/-- Each step of a thread uses up one of the steps its words allow. -/
theorem run_steps (pos : 1 ≤ n) (mono : Monotonic n orig)
    (run : Run (system debug orig n map₀ words) anyEvent es s) (t : T)
    (hd : (s.search t).pc ≠ .done) :
    es.count t + scanSteps n (s.search t) ≤ wordSteps n * (words t).length + 3 := by
  revert hd
  refine run.invariant (I := fun es s => (s.search t).pc ≠ .done →
    es.count t + scanSteps n (s.search t) ≤ wordSteps n * (words t).length + 3) ?_ ?_
  · rintro s rfl -
    simp [scanSteps, pcSteps, doSearch]
  · rintro es s u _ run ih - rfl hd
    have inv := run_inv pos mono run
    by_cases hu : u = t
    · subst hu
      simp only [advance, Function.update_self] at hd ⊢
      obtain ⟨hf, hab⟩ := (inv.thread u).calm.not_failed
      have hbefore : (s.search u).pc ≠ .done := by
        intro hpc
        apply hd
        simp only [searchNext, hpc]
      have hlt := scanSteps_next (searchable map₀ pos inv.marked)
        (inv.thread u).sound debug hbefore hf hab
      have hle := ih hbefore
      rw [List.count_cons_self]
      simp only [working] at hlt hle ⊢
      omega
    · simp only [advance, Function.update_of_ne (Ne.symm hu)] at hd ⊢
      rw [List.count_cons_of_ne hu]
      exact ih hd

/-- Concurrent searches of a monotonic list only set low bits, each at most once; they keep
the list increasing and clear of every assertion, they finish, and when they have, an entry
is marked exactly if some word of some thread refers to it. -/
theorem do_search_marks (debug : Bool) (orig : Mem) (n : ℤ) (pos : 1 ≤ n)
    (mono : Monotonic n orig) (map₀ : Mem) (words : T → List Word) (es : List T) (s : State T)
    (run : Run (system debug orig n map₀ words) anyEvent es s) :
    (∀ i, s.bufAddrs i = orig i ∨ (0 ≤ i ∧ i < n) ∧ s.bufAddrs i = orig i + 1#64) ∧
    (∀ t s', (system debug orig n map₀ words).step s t s' → ∀ i,
      s'.bufAddrs i = s.bufAddrs i ∨
        s.bufAddrs i = orig i ∧ s'.bufAddrs i = orig i + 1#64) ∧
    (∀ i j, 0 ≤ i → i < j → j < n → s.bufAddrs i < s.bufAddrs j) ∧
    (∀ t, (s.search t).pc ≠ .fatal ∧ (s.search t).pc ≠ .abort) ∧
    (∀ t, wordSteps n * (words t).length + 3 ≤ es.count t → (s.search t).pc = .done) ∧
    ((∀ t, (s.search t).pc = .done) → ∀ i, 0 ≤ i → i < n →
      ((∃ t, ∃ w ∈ words t, ptrMask w = orig i) → s.bufAddrs i = orig i + 1#64) ∧
      ((¬ ∃ t, ∃ w ∈ words t, ptrMask w = orig i) → s.bufAddrs i = orig i)) := by
  have inv := run_inv pos mono run
  refine ⟨fun i => (inv.marked i).imp_right fun h => ⟨h.1, h.2.2⟩, ?_, ?_, ?_, ?_, ?_⟩
  · rintro t s' rfl i
    have hmarks := ((inv.thread t).sound.next (searchable map₀ pos inv.marked) debug).2
    have hgrows := hmarks.store_grows (a := s.bufAddrs) i
    obtain he | ⟨-, -, he⟩ := inv.marked i
    · exact ((hmarks.store_marked inv.marked) i).imp (fun h => h.trans he.symm)
        fun h => ⟨he, h.2.2⟩
    · exact .inl ((hgrows he).trans he.symm)
  · intro i j hi hij hj
    have h₁ := mono.increasing i j hi hij hj
    have h₂ := inv.marked.toNat i
    have h₃ := inv.marked.toNat j
    have h₄ := mono.aligned j (by omega) hj
    rw [BitVec.lt_def]
    omega
  · exact fun t => (inv.thread t).calm.not_failed
  · intro t hcount
    by_contra hd
    have hle := run_steps pos mono run t hd
    have hpos : 0 < pcSteps n (s.search t).pc := by
      have hcalm := (inv.thread t).calm
      generalize hc : s.search t = c at hd hcalm
      obtain ⟨mem, minPtr, maxPtr, cmp, pc⟩ := c
      cases pc with
      | done => exact absurd rfl hd
      | fatal | abort => exact hcalm.elim
      | _ => simp only [pcSteps]; omega
    simp only [scanSteps] at hle
    omega
  · intro hdone i h₀ hi
    constructor
    · rintro ⟨t, hw⟩
      obtain hmark | hpend := (inv.thread t).pending i h₀ hi hw
      · exact hmark
      · exact absurd (hdone t) (hpend.not_done (inv.thread t).sound)
    · intro hnone
      obtain he | ⟨-, -, he⟩ := inv.marked i
      · exact he
      · exact absurd (inv.asked i he) hnone

/-- The state after the threads of a schedule, latest first, have each taken a step. -/
def execute (debug : Bool) (orig : Mem) (n : ℤ) (map₀ : Mem) (words : T → List Word)
    (es : List T) : State T :=
  es.foldr (fun t s => advance debug n (generateScanMap orig n map₀) s t)
    ⟨orig, fun t => doSearch (words t)⟩

theorem run_execute (debug : Bool) (orig : Mem) (n : ℤ) (map₀ : Mem) (words : T → List Word)
    (es : List T) : Run (system debug orig n map₀ words) anyEvent es
      (execute debug orig n map₀ words es) := by
  induction es with
  | nil => exact .init rfl
  | cons t es ih => exact ih.step trivial rfl

/-- Two threads that take turns look for the same address, on the second page of the list; the
entry before it has no references. -/
theorem do_search_marks_race :
    (execute true (fun i => BitVec.ofInt 64 (4 * i + 4)) 600 (fun _ => 0#64)
      (fun t => if t then [2056#64, 2060#64] else [2057#64, 6#64])
      (List.replicate 5000 [false, true]).flatten).bufAddrs 513 = 2057#64 ∧
    (execute true (fun i => BitVec.ofInt 64 (4 * i + 4)) 600 (fun _ => 0#64)
      (fun t => if t then [2056#64, 2060#64] else [2057#64, 6#64])
      (List.replicate 5000 [false, true]).flatten).bufAddrs 512 = 2052#64 := by
  have hentry : ∀ i : ℤ, 0 ≤ i → i < 600 →
      (BitVec.ofInt 64 (4 * i + 4)).toNat = (4 * i + 4).toNat := by
    intro i h₀ hi
    rw [BitVec.toNat_ofInt]
    omega
  have mono : Monotonic 600 fun i => BitVec.ofInt 64 (4 * i + 4) := by
    constructor
    · intro i h₀ hi
      rw [hentry i h₀ hi]
      omega
    · intro i h₀ hi
      rw [hentry i h₀ hi]
      omega
    · intro i j h₀ hij hj
      rw [hentry i h₀ (by omega), hentry j (by omega) hj]
      omega
  have hall := do_search_marks true _ 600 (by norm_num) mono _ _ _ _
    (run_execute true (fun i => BitVec.ofInt 64 (4 * i + 4)) 600 (fun _ => 0#64)
      (fun t => if t then [2056#64, 2060#64] else [2057#64, 6#64])
      (List.replicate 5000 [false, true]).flatten)
  obtain ⟨-, -, -, -, hends, hmarks⟩ := hall
  have hdone := hmarks fun t => hends t (by
    rw [List.count_flatten, List.map_replicate, List.sum_replicate_nat]
    cases t <;> simp [wordSteps])
  refine ⟨(hdone 513 (by norm_num) (by norm_num)).1 ⟨true, 2056#64, by decide, by decide⟩,
    (hdone 512 (by norm_num) (by norm_num)).2 ?_⟩
  rintro ⟨t, w, hw, he⟩
  cases t
  all_goals
    simp only [Bool.false_eq_true, if_false, if_true, List.mem_cons, List.not_mem_nil, or_false] at hw
    obtain rfl | rfl := hw <;> exact absurd he (by decide)

end ThreadScan.Scanning
