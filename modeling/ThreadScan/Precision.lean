import ThreadScan.Coverage

/-! A round frees what nobody refers to. An entry is marked only on behalf of a word that
some thread was scanned for; where no running thread refers to an address from the moment
its round has counted it, the entry stays unmarked until the compaction comes to it. -/
namespace ThreadScan.Precision
open Transition Search Marking Compaction Rearrangement Reclaim Handshake Rounds
open Bookkeeping Coverage ThreadScan.Sort

variable {T : Type*} [DecidableEq T] {cfg : Config}
  {ok : List (Event T) → State T → Event T → Prop} {es : List (Event T)} {s s' : State T}
  {r : T} {a : Word}

/-- The thread has entered its user routine and has not terminated. -/
def Running : Life → Prop
  | .active | .exiting | .removed => True
  | .unborn | .born | .terminated => False

/-- No running thread refers to the address. -/
def Unreferred (s : State T) (a : Word) : Prop :=
  ∀ u, Running (s.life u) → ¬ Refers (memory s u) a

/-! ### Who searches -/

/-- Threads collect while they are active, and answer signals while they run. -/
structure Attended (s : State T) : Prop where
  collects : ∀ u, s.main u ≠ .idle → s.life u = .active
  answers : ∀ u, 0 < s.pending u ∨ s.handler u ≠ none → Running (s.life u)

theorem Attended.main (h : Attended s) {t : T} {m : Main T}
    (hm : s'.main = Function.update s.main t m) (hl : s'.life = s.life)
    (hp : s'.pending = s.pending) (hh : s'.handler = s.handler)
    (ht : s.main t ≠ .idle) : Attended s' := by
  refine ⟨fun u hu => ?_, fun u hu => ?_⟩
  · rw [hm] at hu
    rw [hl]
    by_cases hut : u = t
    · exact hut ▸ h.collects t ht
    · rw [Function.update_of_ne hut] at hu
      exact h.collects u hu
  · rw [hp, hh] at hu
    rw [hl]
    exact h.answers u hu

theorem Attended.handler (h : Attended s) {t : T} {m : Option Handler}
    (hm : s'.main = s.main) (hl : s'.life = s.life)
    (hp : ∀ u, u ≠ t → s'.pending u = s.pending u)
    (hh : s'.handler = Function.update s.handler t m)
    (ht : Running (s.life t)) : Attended s' := by
  refine ⟨fun u hu => ?_, fun u hu => ?_⟩
  · rw [hm] at hu
    rw [hl]
    exact h.collects u hu
  · rw [hl]
    by_cases hut : u = t
    · exact hut ▸ ht
    · rw [hp u hut, hh, Function.update_of_ne hut] at hu
      exact h.answers u hu

/-- A thread goes on in its life. -/
theorem Attended.life (h : Attended s) {t : T} {l : Life}
    (hl : s'.life = Function.update s.life t l) (hm : s'.main = s.main)
    (hp : s'.pending = s.pending) (hh : s'.handler = s.handler)
    (hidle : s.life t = .active → s.main t = .idle)
    (hrun : Running (s.life t) → Running l ∨ s.pending t = 0 ∧ s.handler t = none) :
    Attended s' := by
  refine ⟨fun u hu => ?_, fun u hu => ?_⟩
  · rw [hm] at hu
    have hlife := h.collects u hu
    rw [hl]
    by_cases hut : u = t
    · subst hut
      exact absurd (hidle hlife) hu
    · rwa [Function.update_of_ne hut]
  · rw [hp, hh] at hu
    rw [hl]
    by_cases hut : u = t
    · subst hut
      rw [Function.update_self]
      obtain hl | ⟨hp₀, hh₀⟩ := hrun (h.answers u hu)
      · exact hl
      · rw [hp₀, hh₀] at hu
        exact absurd hu (by simp)
    · rw [Function.update_of_ne hut]
      exact h.answers u hu

theorem Attended.step (h : Attended s) {e : Event T} (move : Step cfg s e s') : Attended s' := by
  have hactive : ∀ {u : T}, s.main u ≠ .idle → s.life u = .active := fun hu => h.collects _ hu
  cases move with
  | push t ptr _ _ alive =>
    refine ⟨fun u hu => ?_, h.answers⟩
    by_cases hut : u = t
    · exact hut ▸ alive
    · simp only [Function.update_of_ne hut] at hu
      exact h.collects u hu
  | goto t m _ hg =>
    refine h.main rfl rfl rfl rfl ?_
    intro hidle
    rw [hidle] at hg
    cases hg
  | kill t td rest c ht _ _ active =>
    refine ⟨fun u hu => ?_, fun u hu => ?_⟩
    · by_cases hut : u = t
      · exact hactive (hut ▸ by simp [ht])
      · simp only [Function.update_of_ne hut] at hu
        exact h.collects u hu
    · by_cases hut : u = td
      · rw [hut, active]
        trivial
      · simp only [Function.update_of_ne hut] at hu
        exact h.answers u hu
  | enterHandler u awake signal =>
    exact h.handler rfl rfl (fun v hv => Function.update_of_ne hv _ _) rfl
      (h.answers u (.inl signal))
  | helperSearch u stage scan hu =>
    exact h.handler rfl rfl (fun _ _ => rfl) rfl (h.answers u (.inr (by simp [hu])))
  | helperNext u stage stage' scan scan' hu =>
    exact h.handler rfl rfl (fun _ _ => rfl) rfl (h.answers u (.inr (by simp [hu])))
  | helperDone u stage scan hu =>
    exact h.handler rfl rfl (fun _ _ => rfl) rfl (h.answers u (.inr (by simp [hu])))
  | helperCount u hu | helperTail u hu =>
    exact h.handler rfl rfl (fun _ _ => rfl) rfl (h.answers u (.inr (by simp [hu])))
  | mutate => exact ⟨h.collects, h.answers⟩
  | create t ht =>
    exact h.life rfl rfl rfl rfl (by simp [ht]) (by rw [ht]; exact False.elim)
  | activate t stack ht =>
    exact h.life rfl rfl rfl rfl (by simp [ht]) (by rw [ht]; exact False.elim)
  | exit t ht _ user => exact h.life rfl rfl rfl rfl (fun _ => user) fun _ => .inl trivial
  | remove t ht => exact h.life rfl rfl rfl rfl (by simp [ht]) fun _ => .inl trivial
  | terminate t ht awake none =>
    exact h.life rfl rfl rfl rfl (by simp [ht]) fun _ => .inr ⟨none, awake⟩
  | acquire t ht | assign t _ _ ht | exchange t ht | leftover t _ _ _ ht | lockQueues t _ ht
  | popTail t _ _ _ _ ht | unlockQueues t _ ht | count t _ ht | sort t ht | scanMap t ht
  | reset t ht | lockSignal t ht | unlockSignal t _ ht | search t _ _ _ ht | leave t _ ht
  | release t _ ht | verify t _ ht | keep t _ _ _ ht | free t _ _ _ _ ht | randomize t _ ht
  | store t _ ht =>
    exact h.main rfl rfl rfl rfl (by simp [ht])

theorem run_attended (run : Run (system cfg) ok es s) : Attended s := by
  refine run.invariant (I := fun _ s => Attended s) ?_ fun _ _ _ _ _ inv _ move => inv.step move
  rintro s ⟨map, rfl⟩
  exact ⟨fun u hu => absurd rfl hu, fun u hu => by simp [initial] at hu⟩

/-- A search after a step was there before, is one step further, or has just started on
memory of its thread. -/
inductive Origin (cfg : Config) (s : State T) (u : T) (scan : Scan) : Prop
  | rests (h : Scans s u scan)
  | started (words : List Word) (running : Running (s.life u)) (h : scan = searchRange cfg.debug words)
      (own : ∀ w ∈ words, w ∈ memory s u)
  | moved (scan₀ : Scan) (h : Scans s u scan₀)
      (he : scan = (searchNext cfg.debug (working s) scan₀).1)

omit [DecidableEq T] in
theorem nextStage_memory {u : T} {stage stage' : Stage} {scan : Scan}
    (h : nextStage cfg (s.localBlock u) stage = some (stage', scan)) :
    ∃ words, scan = searchRange cfg.debug words ∧ ∀ w ∈ words, w ∈ memory s u := by
  cases stage with
  | localBlock => cases h
  | stack =>
    obtain ⟨words, hblock, he⟩ := Option.map_eq_some_iff.mp h
    refine ⟨words, (Prod.mk.inj he).2.symm, fun w hw => List.mem_append_right _ ?_⟩
    rw [hblock]
    exact hw

theorem origin (attended : Attended s) {e : Event T} (move : Step cfg s e s') {u : T} {scan : Scan}
    (h : Scans s' u scan) : Origin cfg s u scan := by
  have hmain : ∀ {t : T} {m : Main T}, s'.main = Function.update s.main t m →
      s'.handler = s.handler → (u = t → ∀ c stage, m = .search c stage scan → Origin cfg s u scan) →
      Origin cfg s u scan := by
    intro t m hm hh hnew
    obtain ⟨c, stage, he⟩ | ⟨stage, he⟩ := h
    · rw [hm] at he
      by_cases hu : u = t
      · subst hu
        rw [Function.update_self] at he
        exact hnew rfl c stage he
      · rw [Function.update_of_ne hu] at he
        exact .rests (.inl ⟨c, stage, he⟩)
    · rw [hh] at he
      exact .rests (.inr ⟨stage, he⟩)
  have hhand : ∀ {t : T} {m : Option Handler}, s'.handler = Function.update s.handler t m →
      s'.main = s.main → (u = t → ∀ stage, m = some (.search stage scan) → Origin cfg s u scan) →
      Origin cfg s u scan := by
    intro t m hh hm hnew
    obtain ⟨c, stage, he⟩ | ⟨stage, he⟩ := h
    · rw [hm] at he
      exact .rests (.inl ⟨c, stage, he⟩)
    · rw [hh] at he
      by_cases hu : u = t
      · subst hu
        rw [Function.update_self] at he
        exact hnew rfl stage he
      · rw [Function.update_of_ne hu] at he
        exact .rests (.inr ⟨stage, he⟩)
  have hactive : s.main u ≠ .idle → Running (s.life u) := by
    intro hu
    rw [attended.collects u hu]
    trivial
  cases move with
  | goto t m _ hg =>
    refine hmain rfl rfl ?_
    rintro rfl c stage rfl
    have hrun : Running (s.life u) := hactive fun hidle => by
      rw [hidle] at hg
      cases hg
    generalize s.main u = m₀ at hg
    cases hg with
    | nextStage _ _ _ _ _ _ next =>
      obtain ⟨words, he, hown⟩ := nextStage_memory next
      exact .started words hrun he hown
  | unlockSignal t c ht =>
    refine hmain rfl rfl ?_
    rintro rfl c' stage he
    cases he
    exact .started _ (hactive (by simp [ht])) rfl fun w hw => List.mem_append_left _ hw
  | search t c stage scan₀ ht =>
    refine hmain rfl rfl ?_
    rintro rfl c' stage' he
    cases he
    exact .moved scan₀ (.inl ⟨c, stage, ht⟩) rfl
  | enterHandler t awake signal =>
    refine hhand rfl rfl ?_
    rintro rfl stage he
    cases he
    exact .started _ (attended.answers u (.inl signal)) rfl fun w hw => List.mem_append_left _ hw
  | helperSearch t stage scan₀ ht =>
    refine hhand rfl rfl ?_
    rintro rfl stage' he
    cases he
    exact .moved scan₀ (.inr ⟨stage, ht⟩) rfl
  | helperNext t stage stage' scan₀ scan' ht hdone next =>
    refine hhand rfl rfl ?_
    rintro rfl stage₁ he
    cases he
    obtain ⟨words, he, hown⟩ := nextStage_memory next
    exact .started words (attended.answers u (.inr (by simp [ht]))) he hown
  | helperDone | helperCount | helperTail =>
    refine hhand rfl rfl ?_
    rintro - stage he
    cases he
  | mutate | create | activate | exit | remove | terminate => exact .rests h
  | push | acquire | assign | exchange | leftover | lockQueues | popTail | unlockQueues | count
  | sort | scanMap | reset | lockSignal | kill | leave | release | verify | keep | free
  | randomize | store =>
    refine hmain rfl rfl ?_
    rintro - c stage he
    cases he

/-! ### An entry that stays unmarked -/

/-- No search of the round of `r` examines a word that refers to the address. -/
def Unasked (s : State T) (r : T) (a : Word) : Prop :=
  RollCall.Open (phase (s.main r)) → 1 ≤ s.nAddrs → ∀ u scan, Scans s u scan →
    ∃ words, Sound s.sorted s.nAddrs words scan ∧ ¬ Refers words a

theorem Unasked.step (run : Run (system cfg) ok es s) (inv : Unasked s r a) {e : Event T}
    (move : Step cfg s e s') (unreferred : Unreferred s a) : Unasked s' r a := by
  intro hopen hpos u scan hscan
  obtain ⟨-, hm, -⟩ | ⟨hready, hlist⟩ := ready_step run move (ready_of_open hopen)
  · rw [hm, Function.update_self] at hopen
    exact hopen.elim
  obtain ⟨hn, hsorted, -⟩ := list_step run hready hlist
  rw [hn] at hpos ⊢
  rw [hsorted]
  -- a search in progress belongs to the round that is open already
  have hold : ∀ {v : T} {scan₀ : Scan}, Scans s v scan₀ →
      ∃ words, Sound s.sorted s.nAddrs words scan₀ ∧ ¬ Refers words a := by
    intro v scan₀ hv
    obtain ⟨r', hr'⟩ := scans_open run hv
    obtain rfl := alone run hr'.ne_away hready.ne_away.1
    exact inv hr' hpos v scan₀ hv
  cases origin (run_attended run) move hscan with
  | rests h => exact hold h
  | started words running he own =>
    refine ⟨words, he ▸ sound_searchRange _ _, fun hrefers => unreferred u running ?_⟩
    obtain ⟨w, hw, hmask⟩ := hrefers
    exact ⟨w, own w hw, hmask⟩
  | moved scan₀ h he =>
    obtain ⟨words, hsound, hnot⟩ := hold h
    have hsearchable := (run_searches run).list r hready hpos
    exact ⟨words, he ▸ (hsound.next (g := working s) hsearchable cfg.debug).1, hnot⟩

/-- The entries that the round of `r` has yet to free or keep. -/
def span (m : Main T) (nAddrs : ℕ) : ℕ × ℕ :=
  match m with
  | .sort | .scanMap | .reset | .lockSignal | .signal _ _ | .search _ _ _ | .wait _ => (0, nAddrs)
  | .release n | .verify n | .fatal n => (0, n)
  | .handle n i _ => (i, n)
  | _ => (0, 0)

/-- The address is on the list of `r`, unmarked, and its turn is still to come. -/
def Waiting (s : State T) (r : T) (a : Word) : Prop :=
  ∃ k : ℕ, (span (s.main r) s.nAddrs).1 ≤ k ∧ k < (span (s.main r) s.nAddrs).2 ∧ s.buffer r k = a

/-- No step of a search marks the entry of an address that nobody asks for. -/
theorem unmarked_rests (run : Run (system cfg) ok es s) (even : a.toNat % 2 = 0)
    (inv : Unasked s r a) {v : T} {scan : Scan} (hscan : Scans s v scan) {k : ℕ}
    (hk : RollCall.Open (phase (s.main r)) → k < s.nAddrs) (he : s.buffer r k = a) :
    storeBuf s (searchNext cfg.debug (working s) scan).2 r k = a := by
  by_cases hopen : RollCall.Open (phase (s.main r))
  swap
  · rw [storeBuf_other run hscan _ hopen, he]
  have hpos : 1 ≤ s.nAddrs := by
    have := hk hopen
    omega
  have hready := ready_of_open hopen
  have howner := run_owner run r hready.ne_away.1 hready.ne_away.2
  obtain ⟨words, hsound, hnot⟩ := inv hopen hpos v scan hscan
  have hlist := (run_searches run).list r hready hpos
  have hmarks := (hsound.next (g := working s) hlist cfg.debug).2
  simp only [storeBuf, howner, Function.update_self]
  cases hst : (searchNext cfg.debug (working s) scan).2 with
  | none => exact he
  | some p =>
    obtain ⟨-, h4, ⟨w, hw, hmask⟩, -⟩ := hmarks p hst
    simp only [Search.store]
    rw [Function.update_of_ne, he]
    intro hkp
    -- the entry is the address itself, which no word refers to
    have hentry : s.sorted p.1 = a := by
      have hmarked := hlist.marked k
      simp only [working, bufAddrs_of_owner howner, he] at hmarked
      obtain hm | ⟨-, h4', hm⟩ := hmarked
      · rw [← hkp, ← hm]
      · rw [hm, toNat_add_one (by omega)] at even
        omega
    exact hnot ⟨w, hw, hmask.trans hentry⟩

omit [DecidableEq T] in
theorem span_goto {t : T} {m m' : Main T} (h : Goto cfg s t m m') (n : ℕ) {k : ℕ}
    (hlo : (span m n).1 ≤ k) (hhi : k < (span m n).2) :
    (span m' n).1 ≤ k ∧ k < (span m' n).2 := by
  cases h <;> simp only [span] at hlo hhi ⊢ <;> omega

omit [DecidableEq T] in
/-- Without the lock a thread has its own count of its list. -/
theorem span_away {m : Main T} (h : phase m = .away) (n n' : ℕ) : span m n = span m n' := by
  cases m <;> first | rfl | cases h

/-- An unmarked entry stays on the list until the compaction frees it. -/
theorem Waiting.step (run : Run (system cfg) ok es s) (even : a.toNat % 2 = 0)
    (h : Waiting s r a) (inv : Unasked s r a) {e : Event T} (move : Step cfg s e s') :
    Waiting s' r a ∨ e = .free r a := by
  obtain ⟨k, hlo, hhi, he⟩ := h
  -- a thread moves on with the same entries to come
  have hstay : ∀ {t : T} {m : Main T}, s'.main = Function.update s.main t m →
      s'.nAddrs = s.nAddrs → span m s.nAddrs = span (s.main t) s.nAddrs → s'.buffer r k = a →
      Waiting s' r a := by
    intro t m hm hn hspan hb
    refine ⟨k, ?_⟩
    rw [hm, hn]
    by_cases hr : r = t
    · subst hr
      rw [Function.update_self, hspan]
      exact ⟨hlo, hhi, hb⟩
    · rw [Function.update_of_ne hr]
      exact ⟨hlo, hhi, hb⟩
  -- a thread without entries to come is another one
  have hother : ∀ {t : T} {m : Main T}, s'.main = Function.update s.main t m →
      s'.nAddrs = s.nAddrs → (∀ u, u ≠ t → s'.buffer u = s.buffer u) →
      span (s.main t) s.nAddrs = (0, 0) → Waiting s' r a := by
    intro t m hm hn hb hnone
    have hr : r ≠ t := by
      rintro rfl
      rw [hnone] at hhi
      exact Nat.not_lt_zero k hhi
    refine ⟨k, ?_⟩
    rw [hm, hn, Function.update_of_ne hr, hb r hr]
    exact ⟨hlo, hhi, he⟩
  have hupdate : ∀ {t : T} {b : Mem}, ∀ u, u ≠ t → Function.update s.buffer t b u = s.buffer u :=
    fun u hu => Function.update_of_ne hu _ _
  have hspans : RollCall.Open (phase (s.main r)) → k < s.nAddrs := by
    intro hopen
    cases hm : s.main r <;> rw [hm] at hhi hopen <;> first | exact hhi | exact hopen.elim
  cases move with
  | push t _ ht | acquire t ht | exchange t ht | lockQueues t _ ht | unlockQueues t _ ht
  | store t _ ht =>
    exact .inl (hother rfl rfl (fun _ _ => rfl) (by rw [ht]; rfl))
  | assign t _ _ ht | leftover t _ _ _ ht | popTail t _ _ _ _ ht | randomize t _ ht =>
    exact .inl (hother rfl rfl hupdate (by rw [ht]; rfl))
  | goto t m _ hg =>
    left
    by_cases hr : r = t
    · subst hr
      obtain ⟨hlo', hhi'⟩ := span_goto hg s.nAddrs hlo hhi
      exact ⟨k, by simpa using hlo', by simpa using hhi', he⟩
    · refine ⟨k, ?_⟩
      simp only [Function.update_of_ne hr]
      exact ⟨hlo, hhi, he⟩
  | count t n ht =>
    left
    have hr : r ≠ t := by
      rintro rfl
      rw [ht] at hhi
      exact Nat.not_lt_zero k hhi
    have haway : phase (s.main r) = .away := by
      by_contra hne
      exact hr (alone run hne (by simp [ht, phase]))
    refine ⟨k, ?_⟩
    simp only [Function.update_of_ne hr]
    rw [span_away haway n s.nAddrs]
    exact ⟨hlo, hhi, he⟩
  | sort t ht =>
    left
    by_cases hr : r = t
    · subst hr
      rw [ht] at hlo hhi
      have hmem : a ∈ contents (s.buffer r) s.nAddrs :=
        List.mem_map.mpr ⟨k, List.mem_range.mpr hhi, he⟩
      obtain ⟨j, hj, hja⟩ := List.mem_map.mp
        ((threadscanUtilSort_perm (s.buffer r) s.nAddrs).mem_iff.mpr hmem)
      refine ⟨j, ?_⟩
      simp only [Function.update_self]
      exact ⟨Nat.zero_le j, List.mem_range.mp hj, hja⟩
    · refine ⟨k, ?_⟩
      simp only [Function.update_of_ne hr]
      exact ⟨hlo, hhi, he⟩
  | scanMap t ht | reset t ht | lockSignal t ht | kill t _ _ _ ht | unlockSignal t _ ht
  | leave t _ ht | release t _ ht | verify t _ ht =>
    exact .inl (hstay rfl rfl (by rw [ht]; rfl) he)
  | search t c stage scan ht =>
    exact .inl (hstay rfl rfl (by rw [ht]; rfl)
      (unmarked_rests run even inv (.inl ⟨c, stage, ht⟩) hspans he))
  | helperSearch v stage scan hv =>
    exact .inl ⟨k, hlo, hhi, unmarked_rests run even inv (.inr ⟨stage, hv⟩) hspans he⟩
  | keep t n i w ht _ _ kept =>
    left
    by_cases hr : r = t
    · subst hr
      rw [ht] at hlo hhi
      have hne : k ≠ i := by
        rintro rfl
        have hlow := lowBit_of_kept kept
        rw [he] at hlow
        simp [(lowBit_eq_false a).mpr even] at hlow
      have hlt : i < k := by
        have : i ≤ k := hlo
        omega
      refine ⟨k, ?_⟩
      simp only [Function.update_self]
      refine ⟨hlt, hhi, ?_⟩
      rw [handleEntry_rest _ (run_compacting run r n i w ht).1 hlt, he]
    · refine ⟨k, ?_⟩
      simp only [Function.update_of_ne hr]
      exact ⟨hlo, hhi, he⟩
  | free t n i w ptr ht _ _ freed =>
    by_cases hr : r = t
    · subst hr
      rw [ht] at hlo hhi
      obtain rfl | hlt : k = i ∨ i < k := by
        have : i ≤ k := hlo
        omega
      · right
        have hout := (handleEntry_frees (run_compacting run r n k w ht).1 (lowBit_of_freed freed)).1
        rw [hout, he] at freed
        rw [Option.some.inj freed]
      · left
        refine ⟨k, ?_⟩
        simp only [Function.update_self]
        refine ⟨hlt, hhi, ?_⟩
        rw [handleEntry_rest _ (run_compacting run r n i w ht).1 hlt, he]
    · left
      refine ⟨k, ?_⟩
      simp only [Function.update_of_ne hr]
      exact ⟨hlo, hhi, he⟩
  | enterHandler | helperNext | helperDone | helperCount | helperTail | mutate | create
  | activate | exit | remove | terminate =>
    exact .inl ⟨k, hlo, hhi, he⟩

/-! ### Along a run -/

/-- What a running thread is scanned for changes in user code only. -/
theorem running_step {e : Event T} (move : Step cfg s e s') {u : T} (hu : Running (s'.life u)) :
    Running (s.life u) ∧ memory s' u = memory s u ∨
      (∃ stack block, e = .mutate u stack block ∧ Running (s.life u) ∧
        memory s' u = stack ++ block.getD []) ∨
      ∃ stack, e = .activate u stack ∧ memory s' u = stack := by
  have hlife : ∀ {t : T} {l : Life}, s'.life = Function.update s.life t l →
      (Running l → Running (s.life t)) → Running (s.life u) := by
    intro t l hl hback
    rw [hl] at hu
    by_cases hut : u = t
    · subst hut
      rw [Function.update_self] at hu
      exact hback hu
    · rwa [Function.update_of_ne hut] at hu
  cases move with
  | mutate t stack block alive =>
    by_cases hut : u = t
    · subst hut
      exact .inr (.inl ⟨stack, block, rfl, hu, by simp only [memory, Function.update_self]⟩)
    · exact .inl ⟨hu, by simp only [memory, Function.update_of_ne hut]⟩
  | activate t stack =>
    by_cases hut : u = t
    · subst hut
      exact .inr (.inr ⟨stack, rfl, by simp [memory]⟩)
    · simp only [Function.update_of_ne hut] at hu
      exact .inl ⟨hu, by simp only [memory, Function.update_of_ne hut]⟩
  | create t ht => exact .inl ⟨hlife rfl False.elim, rfl⟩
  | exit t ht | remove t ht => exact .inl ⟨hlife rfl fun _ => by rw [ht]; trivial, rfl⟩
  | terminate t ht => exact .inl ⟨hlife rfl False.elim, rfl⟩
  | _ => exact .inl ⟨hu, rfl⟩

/-- A client that keeps its promise gets no reference to a live address back. -/
theorem Unreferred.step {e : Event T} (h : Unreferred s a) (live : Live a es)
    (allowed : honours es s e) (move : Step cfg s e s') : Unreferred s' a := by
  intro u hu hrefers
  obtain ⟨hrun, hm⟩ | ⟨stack, block, rfl, hrun, hm⟩ | ⟨stack, rfl, hm⟩ := running_step move hu
  · rw [hm] at hrefers
    exact h u hrun hrefers
  · rw [hm] at hrefers
    exact h u hrun (allowed a live hrefers)
  · rw [hm] at hrefers
    exact allowed a live hrefers

omit [DecidableEq T] in
/-- What waits to be freed is on the list of its round. -/
theorem Waiting.mem_list (even : a.toNat % 2 = 0) (h : Waiting s r a) : a ∈ place s (.list r) := by
  obtain ⟨k, hlo, hhi, he⟩ := h
  have hentry : unmark (s.buffer r k) = a := by rw [he, unmark_of_even even]
  have hcontents : ∀ {n : ℕ}, k < n → a ∈ (contents (s.buffer r) n).map unmark := by
    intro n hk
    exact List.mem_map.mpr ⟨_, List.mem_map.mpr ⟨k, List.mem_range.mpr hk, rfl⟩, hentry⟩
  cases hm : s.main r with
  | sort | scanMap | reset | lockSignal | signal | search | wait | release | verify | fatal =>
    rw [hm] at hhi
    simp only [place, hm, workingList]
    exact hcontents hhi
  | handle n i w =>
    rw [hm] at hlo hhi
    simp only [span] at hlo hhi
    simp only [place, hm, workingList, List.mem_append, pendingEntries, List.mem_map]
    exact .inr ⟨k, List.mem_range'_1.mpr ⟨hlo, by omega⟩, hentry⟩
  | _ =>
    rw [hm] at hhi
    exact absurd hhi (Nat.not_lt_zero k)

omit [DecidableEq T] in
theorem collects_honours : Collects (honours (T := T)) :=
  collects_of_honest fun _ _ _ _ h => h

/-- From the count of its list on, a round keeps an address that nobody refers to unmarked. -/
theorem waiting_moves {es₀ : List (Event T)} {s₀ : State T} (run : Run (system cfg) honours es₀ s₀)
    (even : a.toNat % 2 = 0) (nonnull : a ≠ 0#64) (waiting : Waiting s₀ r a)
    (unasked : Unasked s₀ r a) (unreferred : Unreferred s₀ a) {c : List (Event T) × State T}
    (course : Moves (system cfg) honours (es₀, s₀) c) :
    ∃ fs, c.1 = fs ++ es₀ ∧
      (Event.free r a ∈ fs ∨ Waiting c.2 r a ∧ Unasked c.2 r a ∧ Unreferred c.2 a) := by
  have hstep : ∀ {es s e s'}, Moves (system cfg) honours (es₀, s₀) (es, s) →
      Waiting s r a ∧ Unasked s r a ∧ Unreferred s a → honours es s e → Step cfg s e s' →
      (Waiting s' r a ∧ Unasked s' r a ∧ Unreferred s' a) ∨ e = .free r a := by
    rintro es s e s' moves ⟨hwait, hask, href⟩ allowed move
    have run' : Run (system cfg) honours es s := run.extend moves
    have hlive : Live a es := (run_kept collects_honours run').live a
      (held_addresses.mpr ⟨nonnull, .list r, hwait.mem_list even⟩)
    obtain hwait' | hfree := hwait.step run' even hask move
    · exact .inl ⟨hwait', hask.step run' move href, href.step hlive allowed move⟩
    · exact .inr hfree
  obtain ⟨fs, hfs, hstate⟩ := Moves.until ⟨waiting, unasked, unreferred⟩ hstep course
  exact ⟨fs, hfs, hstate.imp_left fun ⟨e, he, hfree⟩ => hfree ▸ he⟩

/-- An address that no running thread refers to when a round has counted it is freed by that
round: until then it stays unmarked on the list of its reclaimer. -/
theorem frees_unreferred (cfg : Config) (es₀ : List (Event T)) (s₀ : State T)
    (run : Run (system cfg) honours es₀ s₀) (r : T) (counted : s₀.main r = .sort) (a : Word)
    (listed : a ∈ contents (s₀.buffer r) s₀.nAddrs) (even : a.toNat % 2 = 0) (nonnull : a ≠ 0#64)
    (unreferred : ∀ u, Running (s₀.life u) → ¬ Refers (memory s₀ u) a) (es : List (Event T))
    (s : State T) (course : Moves (system cfg) honours (es₀, s₀) (es, s)) :
    ∃ fs, es = fs ++ es₀ ∧ (Event.free r a ∈ fs ∨ Waiting s r a) := by
  obtain ⟨k, hk, he⟩ := List.mem_map.mp listed
  have hwait : Waiting s₀ r a := by
    refine ⟨k, ?_⟩
    rw [counted]
    exact ⟨Nat.zero_le k, List.mem_range.mp hk, he⟩
  have hask : Unasked s₀ r a := by
    intro hopen
    rw [counted] at hopen
    exact hopen.elim
  obtain ⟨fs, hfs, hstate⟩ := waiting_moves run even nonnull hwait hask unreferred course
  exact ⟨fs, hfs, hstate.imp_right And.left⟩

/-- A thread that gets the lock counts what the storage and the listed queues hold. -/
theorem count_reach (cfg : Config) (lets : Progress.Lets ok) (t : T) (es : List (Event T))
    (s : State T) (h : s.main t = .tryAcquire) (run : s.handler t = none) (free : s.lock = none)
    (unlocked : s.listLock = none) (nodup : s.threadList.Nodup) (n : ℕ)
    (count : n = s.storage.flatten.length + (s.threadList.flatMap s.queue).length)
    (fits : n ≤ 2 * cfg.maxPtrs) (exchanges : ∀ es s', ok es s' (.exchange t))
    (counts : ∀ es s', ok es s' (.count t n)) :
    Progress.Reach cfg ok es s fun s' => s'.main t = .sort ∧ s'.handler = s.handler ∧
      s'.nAddrs = n ∧ memory s' = memory s ∧
      contents (s'.buffer t) n = s.storage.flatten ++ s.threadList.flatMap s.queue := by
  refine .own lets (.acquire s t h run free) trivial ?_
  refine .own lets (.assign _ t (fun _ => 0#64) s.bufScanMap (Function.update_self ..) run
    fun _ _ _ => rfl) trivial ?_
  refine .one (exchanges _ _) (.exchange _ t (Function.update_self ..) run) (by simp) ?_
  refine .bind (Progress.leftovers_reach lets t s.storage 0 _ _ (Function.update_self ..) run
    (by omega)) ?_
  rintro es₁ s₁ - ⟨b₁, hb₁, rfl⟩
  refine .own lets (.goto _ t _ run (by
    simp only [Function.update_self]
    exact .drained _)) trivial ?_
  refine .own lets (.lockQueues _ t _ (Function.update_self ..) run unlocked) trivial ?_
  refine .bind (Progress.queues_reach lets t s.threadList _ nodup _ _ (Function.update_self ..) run
    (by simp only; omega)) ?_
  rintro es₂ s₂ - ⟨b₂, hb₂, rfl⟩
  simp only [Function.update_idem, Function.update_self, Nat.zero_add, ← count] at hb₁ hb₂ ⊢
  refine .own lets (.unlockQueues _ t n (Function.update_self ..) run) trivial ?_
  refine .one (counts _ _) (.count _ t n (Function.update_self ..) run) (by simp) ?_
  refine .done ⟨Function.update_self .., rfl, rfl, rfl, ?_⟩
  simp only [Function.update_self]
  rw [hb₂, hb₁]
  rfl

/-- The only thread of a program has filled its queue. -/
theorem filled_first : ∃ (es : List (Event Unit)) (s : State Unit),
    Run (system (Progress.leastConfig false)) honours es s ∧ s.main () = .tryAcquire ∧
      s.handler () = none ∧ s.lock = none ∧ s.listLock = none ∧ s.threadList = [()] ∧
      s.storage = [] ∧ s.queue () = Progress.addressRow 256 1023 ∧ memory s () = [] := by
  have lets : Progress.Lets (honours (T := Unit)) := lets_honours
  have hsmall : 16 * (256 + 1023) < 2 ^ 64 := by norm_num
  have run₀ : Run (system (Progress.leastConfig false)) honours []
      (initial (T := Unit) fun _ => 0#64) := .init ⟨_, rfl⟩
  have run₁ := Progress.start_run lets run₀ () [] rfl rfl fun s b h => h.elim
  obtain ⟨es₂, run₂, -⟩ := Progress.fill_run lets run₁ () (Progress.addressRow 256 1023)
    (fun es s b hb hf => ⟨Progress.addressRow_aligned hsmall b hb, not_live_of_fresh hf⟩)
    (Progress.addressRow_nonzero hsmall (by norm_num)) (Progress.addressRow_nodup hsmall)
    (fun b _ u hu => by simp at hu) rfl rfl rfl rfl (by rw [Progress.addressRow_length]; rfl)
  refine ⟨es₂, _, run₂, ?_, rfl, rfl, rfl, rfl, rfl, ?_, by simp [memory]⟩
  · simp
  · dsimp only
    rw [Function.update_self]

/-- It counts the addresses of its queue. -/
theorem counted_first : ∃ (es : List (Event Unit)) (s : State Unit),
    Run (system (Progress.leastConfig false)) honours es s ∧ s.main () = .sort ∧
      s.handler () = none ∧ s.nAddrs = 1023 ∧ memory s () = [] ∧
      contents (s.buffer ()) 1023 = Progress.addressRow 256 1023 := by
  obtain ⟨es, s, run, hm, hawake, hlock, hlistLock, hlist, hstorage, hqueue, hmem⟩ := filled_first
  obtain ⟨es', s', hleads, hm', hhandler, hn, hmem', hcontents⟩ :=
    count_reach (Progress.leastConfig false) lets_honours () es s hm hawake hlock hlistLock
      (by simp [hlist]) 1023
      (by rw [hstorage, hlist, List.flatMap_singleton, hqueue, Progress.addressRow_length]; rfl)
      (by rw [Progress.leastConfig_maxPtrs]; omega) (fun _ _ => trivial)
      fun _ _ => show 1 ≤ 1023 by norm_num
  refine ⟨es', s', hleads.run run, hm', by rw [hhandler, hawake], hn, by rw [hmem', hmem], ?_⟩
  rw [hstorage, hlist, List.flatMap_singleton, hqueue, List.flatten_nil, List.nil_append] at hcontents
  exact hcontents

/-- The first address of the list is freed, or has its turn to come when the list is sorted. -/
theorem frees_unreferred_first : ∃ (es₀ fs : List (Event Unit)) (s₀ s : State Unit),
    Run (system (Progress.leastConfig false)) honours es₀ s₀ ∧ s₀.main () = .sort ∧ fs ≠ [] ∧
      Moves (system (Progress.leastConfig false)) honours (es₀, s₀) (fs ++ es₀, s) ∧
      (Event.free () 4096#64 ∈ fs ∨ Waiting s () 4096#64) := by
  obtain ⟨es₀, s₀, run, hm, hawake, hn, hmem, hlist⟩ := counted_first
  have hcourse : Moves (system (Progress.leastConfig false)) honours (es₀, s₀) (_, _) :=
    .one (lets_honours _ _ .other trivial) (Step.sort s₀ () hm hawake)
  obtain ⟨fs, hfs, hstate⟩ := frees_unreferred _ es₀ s₀ run () hm 4096#64
    (by
      rw [hn, hlist]
      exact List.mem_map.mpr ⟨0, List.mem_range.mpr (by norm_num), rfl⟩)
    (by decide) (by decide) (fun u _ => by simp [Refers, hmem]) _ _ hcourse
  obtain rfl : fs = [.other] := List.append_cancel_right (hfs.symm.trans rfl)
  exact ⟨es₀, _, s₀, _, run, hm, by simp, hcourse, hstate⟩

end ThreadScan.Precision
