import ThreadScan.Completion
import ThreadScan.Drain

/-! No garbage is stuck. While a thread waits for the lock, what has been collected and is
referred to by nobody gets freed by steps of the library alone, in rounds that are not empty:
whichever round takes it has it on its list, unmarked, until its compaction frees it. -/
namespace ThreadScan.Recovery
open Transition Search Compaction Rearrangement Reclaim Handshake Rounds Progress
open Precision Capacity Bookkeeping Completion Drain Coverage EmptyRound

variable {T : Type*} [DecidableEq T] {cfg : Config}
  {ok : List (Event T) → State T → Event T → Prop} {es es' : List (Event T)} {s s' : State T}
  {r t : T} {a : Word}

/-- The address waits for a round, in the storage or in the queue of a thread that is active. -/
def Stocked (s : State T) (a : Word) : Prop :=
  a ∈ s.storage.flatten ∨ ∃ u, s.life u = .active ∧ a ∈ s.queue u

/-- A reclaimer has put the address on the list that it is filling. -/
def Filled (s : State T) (r : T) (a : Word) : Prop := Filling (s.main r) ∧ a ∈ place s (.list r)

/-- The round of `r` has counted the address, and is going to free it. -/
def Doomed (s : State T) (r : T) (a : Word) : Prop := Waiting s r a ∧ Unasked s r a

/-- Wherever the address is, the library can free it. -/
def Recoverable (s : State T) (a : Word) : Prop :=
  Stocked s a ∨ ∃ r, Filled s r a ∨ Doomed s r a

/-! ### The library on its own -/

/-- The library gives nobody a reference. -/
theorem unreferred_inside (h : Unreferred s a) {e : Event T} (own : Inside e)
    (move : Step cfg s e s') : Unreferred s' a := by
  intro u hu hrefers
  obtain ⟨hrun, hm⟩ | ⟨stack, block, rfl, -⟩ | ⟨stack, rfl, -⟩ := running_step move hu
  · rw [hm] at hrefers
    exact h u hrun hrefers
  · exact own
  · exact own

theorem Doomed.step (run : Run (system cfg) ok es s) (even : a.toNat % 2 = 0) (h : Doomed s r a)
    (unreferred : Unreferred s a) {e : Event T} (move : Step cfg s e s') :
    Doomed s' r a ∨ e = .free r a := by
  obtain ⟨hwait, hask⟩ := h
  exact (hwait.step run even hask move).imp_left fun hwait' =>
    ⟨hwait', hask.step run move unreferred⟩

omit [DecidableEq T] in
theorem Stocked.rest (h : Stocked s a) (queues : ∀ u, s.queue u <+: s'.queue u)
    (storage : ∀ a ∈ s.storage.flatten, a ∈ s'.storage.flatten)
    (life : ∀ u, s.life u = .active → s'.life u = .active) : Stocked s' a := by
  refine h.imp (storage a) ?_
  rintro ⟨u, hu, ha⟩
  exact ⟨u, life u hu, (queues u).subset ha⟩

/-- What waits for a round goes on waiting, or gets on the list of a reclaimer. -/
theorem Stocked.step (h : Stocked s a) {e : Event T} (own : Inside e) (move : Step cfg s e s') :
    Stocked s' a ∨ ∃ r, Filled s' r a := by
  have hqueues : ∀ u, s.queue u <+: s.queue u := fun u => List.prefix_rfl
  have hlife : ∀ {u : T} {l : Life}, s.life u ≠ .active → ∀ v, s.life v = .active →
      Function.update s.life u l v = .active := by
    intro u l hu v hv
    rw [Function.update_of_ne]
    · exact hv
    · rintro rfl
      exact hu hv
  cases move with
  | exchange u hu =>
    obtain hstored | hqueued := h
    · refine .inr ⟨u, ?_⟩
      simp only [Filled, place, Function.update_self, Filling, workingList, true_and]
      exact List.mem_append_right _ hstored
    · exact .inl (.inr hqueued)
  | popTail u td rest n k hu =>
    obtain hstored | ⟨v, hv, ha⟩ := h
    · exact .inl (.inl hstored)
    · by_cases hvt : v = td
      · subst hvt
        rw [← List.take_append_drop k (s.queue v)] at ha
        obtain ha | ha := List.mem_append.mp ha
        · refine .inr ⟨u, ?_⟩
          simp only [Filled, place, Function.update_self, Filling, workingList, true_and,
            contents_memcpy]
          exact List.mem_append_right _ ha
        · exact .inl (.inr ⟨v, hv, by simpa using ha⟩)
      · exact .inl (.inr ⟨v, hv, by simpa [Function.update_of_ne hvt] using ha⟩)
  | store u n hu =>
    refine .inl (h.rest hqueues (fun x hx => ?_) fun _ hv => hv)
    rw [List.flatten_cons]
    exact List.mem_append_right _ hx
  | create u hu | remove u hu | terminate u hu =>
    exact .inl (h.rest hqueues (fun _ ha => ha) (hlife (by simp [hu])))
  | push | mutate | activate | exit => exact own.elim
  | _ => exact .inl (h.rest hqueues (fun _ ha => ha) fun _ hv => hv)

omit [DecidableEq T] in
/-- A step that leaves the reclaimer and its buffer alone. -/
theorem Filled.rest (h : Filled s r a) (hm : s'.main r = s.main r) (hb : s'.buffer r = s.buffer r) :
    Filled s' r a := by
  obtain ⟨hfill, ha⟩ := h
  refine ⟨by rw [hm]; exact hfill, ?_⟩
  simp only [place, hm, hb]
  rw [hfill.list _ s'.nAddrs s.nAddrs]
  exact ha

/-- A step of the reclaimer itself. -/
theorem Filled.own {m : Main T} (hm : s'.main = Function.update s.main r m) (fill : Filling m)
    (h : a ∈ workingList m (s'.buffer r) s'.nAddrs) : Filled s' r a := by
  have hr : s'.main r = m := by rw [hm, Function.update_self]
  rw [Filled, place, hr]
  exact ⟨fill, h⟩

/-- What a reclaimer has on its list stays there, and is counted. -/
theorem Filled.step (run : Run (system cfg) ok es s) (h : Filled s r a) {e : Event T}
    (move : Step cfg s e s') : Filled s' r a ∨ Doomed s' r a := by
  have hheld : phase (s.main r) ≠ .away := by simp [h.1.held]
  -- whoever else has the lock is the reclaimer
  have hsame : ∀ {u : T}, phase (s.main u) ≠ .away → u = r := fun hu => alone run hu hheld
  -- a thread that is not filling its list is another one
  have hother : ∀ {u : T} {m : Main T}, s'.main = Function.update s.main u m →
      ¬ Filling (s.main u) → (u ≠ r → s'.buffer r = s.buffer r) → Filled s' r a := by
    intro u m hm hu hb
    have hur : u ≠ r := by
      rintro rfl
      exact hu h.1
    exact h.rest (by rw [hm, Function.update_of_ne hur.symm]) (hb hur)
  have hclosed : ¬ RollCall.Open (phase (s.main r)) := by
    rw [h.1.held]
    exact id
  have hlist := h.2
  simp only [place] at hlist
  cases move with
  | goto u m _ hg =>
    by_cases hur : u = r
    · subst hur
      have hfill := h.1
      refine .inl (Filled.own rfl ?_ ?_)
      · cases hm : s.main u <;> rw [hm] at hg hfill <;> cases hg <;> trivial
      · cases hm : s.main u <;> rw [hm] at hg hfill hlist <;> cases hg <;>
          first | exact hfill.elim | simpa [workingList] using hlist
    · exact .inl (h.rest (Function.update_of_ne (Ne.symm hur) _ _) rfl)
  | assign u mem map hu | exchange u hu =>
    obtain rfl := hsame (u := u) (by simp [hu, phase])
    simp [hu, workingList] at hlist
  | leftover u block blocks n hu =>
    obtain rfl := hsame (u := u) (by simp [hu, phase])
    refine .inl (Filled.own rfl trivial ?_)
    rw [hu] at hlist
    simpa [workingList, contents_memcpy] using hlist
  | lockQueues u n hu | unlockQueues u n hu =>
    obtain rfl := hsame (u := u) (by simp [hu, phase])
    rw [hu] at hlist
    exact .inl (Filled.own rfl trivial hlist)
  | popTail u td rest n k hu =>
    obtain rfl := hsame (u := u) (by simp [hu, phase])
    refine .inl (Filled.own rfl trivial ?_)
    rw [hu] at hlist
    simp only [Function.update_self, workingList, contents_memcpy]
    exact List.mem_append_left _ hlist
  | count u n hu =>
    obtain rfl := hsame (u := u) (by simp [hu, phase])
    rw [hu] at hlist
    obtain ⟨k, hk, he⟩ := List.mem_map.mp hlist
    refine .inr ⟨⟨k, ?_⟩, fun hopen => ?_⟩
    · simp only [Function.update_self, span]
      exact ⟨Nat.zero_le k, List.mem_range.mp hk, he⟩
    · simp only [Function.update_self] at hopen
      exact hopen.elim
  | sort u hu | keep u _ _ _ hu | free u _ _ _ _ hu | randomize u _ hu =>
    exact .inl (hother rfl (by rw [hu]; exact id) fun hur => Function.update_of_ne hur.symm _ _)
  | search u c stage scan hu =>
    exact .inl (hother rfl (by rw [hu]; exact id) fun _ =>
      storeBuf_other run (.inl ⟨c, stage, hu⟩) _ hclosed)
  | push u _ hu | store u _ hu | acquire u hu | scanMap u hu | reset u hu | lockSignal u hu
  | kill u _ _ _ hu | unlockSignal u _ hu | leave u _ hu | release u _ hu | verify u _ hu =>
    exact .inl (hother rfl (by rw [hu]; exact id) fun _ => rfl)
  | helperSearch u stage scan hu =>
    exact .inl (h.rest rfl (storeBuf_other run (.inr ⟨stage, hu⟩) _ hclosed))
  | enterHandler | helperNext | helperDone | helperCount | helperTail | mutate | create
  | activate | exit | remove | terminate => exact .inl (h.rest rfl rfl)

/-- No step of the library loses the address. -/
theorem Recoverable.step (run : Run (system cfg) ok es s) (even : a.toNat % 2 = 0)
    (h : Recoverable s a) (unreferred : Unreferred s a) {e : Event T} (own : Inside e)
    (move : Step cfg s e s') : Recoverable s' a ∨ ∃ r, e = .free r a := by
  obtain hstocked | ⟨r, hfilled | hdoomed⟩ := h
  · obtain hstocked' | ⟨r, hfilled⟩ := hstocked.step own move
    · exact .inl (.inl hstocked')
    · exact .inl (.inr ⟨r, .inl hfilled⟩)
  · exact .inl (.inr ⟨r, hfilled.step run move⟩)
  · obtain hdoomed' | hfree := hdoomed.step run even unreferred move
    · exact .inl (.inr ⟨r, .inr hdoomed'⟩)
    · exact .inr ⟨r, hfree⟩

/-! ### The way to the end of a round -/

/-- The address is freed between the two histories. -/
def Freed (a : Word) (es es' : List (Event T)) : Prop :=
  ∃ fs, es' = fs ++ es ∧ ∃ r, Event.free r a ∈ fs

theorem Freed.after {s₁ s₂ : State T} {es₁ es₂ : List (Event T)} (h : Freed a es es₁)
    (leads : Leads cfg ok es₁ s₁ es₂ s₂) : Freed a es es₂ := by
  obtain ⟨fs, rfl, r, hr⟩ := h
  obtain ⟨gs, hgs⟩ := leads.1.history
  exact ⟨gs ++ fs, by rw [List.append_assoc]; exact hgs, r, List.mem_append_right _ hr⟩

theorem Freed.before {s₁ : State T} {es₁ es₂ : List (Event T)} (h : Freed a es₁ es₂)
    (leads : Leads cfg ok es s es₁ s₁) : Freed a es es₂ := by
  obtain ⟨fs, rfl, r, hr⟩ := h
  obtain ⟨gs, hgs⟩ := leads.1.history
  exact ⟨fs ++ gs, by rw [List.append_assoc]; exact congrArg (fs ++ ·) hgs, r,
    List.mem_append_left _ hr⟩

theorem unreferred_moves {c d : List (Event T) × State T} (h : Unreferred c.2 a)
    (moves : Moves (system cfg) inside c d) : Unreferred d.2 a := by
  induction moves with
  | refl => exact h
  | tail _ last ih =>
    obtain ⟨e, -, own, move⟩ := last
    exact unreferred_inside ih own move

/-- Along steps of the library the address is freed, or stays as it is. -/
theorem leads_until {P : State T → Prop} (h : P s) (run : Run (system cfg) anyEvent es s)
    (unreferred : Unreferred s a) (leads : Leads cfg inside es s es' s')
    (step : ∀ {es s e s'}, Run (system cfg) anyEvent es s → Unreferred s a → P s → Inside e →
      Step cfg s e s' → P s' ∨ ∃ r, e = .free r a) : Freed a es es' ∨ P s' := by
  have hstep : ∀ {es₁ s₁ e s₂}, Moves (system cfg) inside (es, s) (es₁, s₁) → P s₁ →
      inside es₁ s₁ e → Step cfg s₁ e s₂ → P s₂ ∨ ∃ r, e = .free r a := by
    intro es₁ s₁ e s₂ moves hP own move
    have run₁ : Run (system cfg) anyEvent es₁ s₁ := run.extend (moves.weaken fun _ _ _ _ => trivial)
    exact step run₁ (unreferred_moves unreferred moves) hP own move
  obtain ⟨fs, hfs, ⟨e, he, r, rfl⟩ | hstate⟩ := Moves.until h hstep leads.1
  · exact .inl ⟨fs, hfs, r, he⟩
  · exact .inr hstate

theorem recoverable_leads (run : Run (system cfg) anyEvent es s) (even : a.toNat % 2 = 0)
    (h : Recoverable s a) (unreferred : Unreferred s a) (leads : Leads cfg inside es s es' s') :
    Freed a es es' ∨ Recoverable s' a :=
  leads_until (P := fun s => Recoverable s a) h run unreferred leads fun run₁ href hrec own move =>
    hrec.step run₁ even href own move

theorem doomed_leads (run : Run (system cfg) anyEvent es s) (even : a.toNat % 2 = 0)
    (h : Doomed s r a) (unreferred : Unreferred s a) (leads : Leads cfg inside es s es' s') :
    Freed a es es' ∨ Doomed s' r a := by
  refine leads_until (P := fun s => Doomed s r a) h run unreferred leads ?_
  intro es₁ s₁ e s₂ run₁ href hd _ move
  exact (hd.step run₁ even href move).imp_right fun he => ⟨r, he⟩

/-- A round that has counted its list gets to its end. -/
theorem round_gets (release : cfg.debug = false) (es : List (Event T)) (s : State T)
    (run : Run (system cfg) anyEvent es s) (few : outstanding es + 2 ≤ 2 * cfg.maxPtrs)
    (counted : 0 < (span (s.main r) s.nAddrs).2) (awake : s.handler r = none) :
    Gets cfg r es s fun s' => s'.main r = .isFull := by
  by_cases haway : phase (s.main r) = .away
  · cases hm : s.main r with
    | verify n => exact verify_gets release n es s run few hm awake
    | handle n i w => exact handle_gets n i w es s run few hm awake
    | fatal n => exact absurd hm (run_unfailed release run r n)
    | idle | isFull | tryAcquire | randomize n | store n =>
      rw [hm] at counted
      exact absurd counted (Nat.not_lt_zero 0)
    | _ =>
      rw [hm] at haway
      cases haway
  · have hprovided : Provided s (s.main r) := by
      cases hm : s.main r <;> rw [hm] at counted <;> trivial
    refine Gets.bind (held_gets release es s run (by omega) haway awake hprovided) ?_
    rintro es₁ s₁ hleads hspares ⟨-, n, hm⟩
    have hfew := outstanding_leads hleads
    exact verify_gets release n es₁ s₁ (run_leads run hleads) (by omega) hm (hspares.handler r awake)

/-- What a round has counted is freed, and the lock is free behind it. -/
theorem doomed_freed (release : cfg.debug = false) (run : Run (system cfg) anyEvent es s)
    (few : outstanding es + 2 ≤ 2 * cfg.maxPtrs) (even : a.toNat % 2 = 0) (h : Doomed s r a)
    (unreferred : Unreferred s a) (others : ∀ u, u ≠ r → phase (s.main u) = .away) :
    ∃ es' s', Leads cfg inside es s es' s' ∧ Freed a es es' ∧ s'.lock = none ∧
      s'.main r = .isFull ∧ ∀ u, u ≠ r → s'.main u = s.main u := by
  have hcounted : 0 < (span (s.main r) s.nAddrs).2 := by
    obtain ⟨⟨k, -, hk, -⟩, -⟩ := h
    exact Nat.zero_lt_of_lt hk
  obtain ⟨es₁, s₁, hleads₁, b, k, rfl⟩ := awake_reach release lets_inside run r
  have hfew := outstanding_leads hleads₁
  obtain ⟨es₂, s₂, hleads₂, hspares, hm⟩ := round_gets release es₁ _ (run_leads run hleads₁)
    (by omega) hcounted (Function.update_self ..)
  have hleads := hleads₁.trans hleads₂
  have hfree : s₂.lock = none := hspares.free (run_leads run hleads) others (congrArg phase hm)
  obtain hfreed | ⟨⟨k, -, hk, -⟩, -⟩ := doomed_leads run even h unreferred hleads
  · exact ⟨es₂, s₂, hleads, hfreed, hfree, hm, hspares.main⟩
  · -- behind its round the reclaimer has nothing left to free
    rw [hm] at hk
    exact absurd hk (Nat.not_lt_zero k)

/-- The library frees the address, and gets the thread to the test of its queue, with the lock
free. -/
def Frees (cfg : Config) (t : T) (a : Word) (es : List (Event T)) (s : State T) : Prop :=
  ∃ es' s', Leads cfg inside es s es' s' ∧ Freed a es es' ∧ s'.lock = none ∧ s'.main t = .isFull

theorem Frees.before (leads : Leads cfg inside es s es' s') (h : Frees cfg t a es' s') :
    Frees cfg t a es s := by
  obtain ⟨es₁, s₁, hleads, hfreed, hend⟩ := h
  exact ⟨es₁, s₁, leads.trans hleads, hfreed.before leads, hend⟩

/-- A thread that finds the lock free counts what is in store, and frees the address. -/
theorem stocked_freed (release : cfg.debug = false) (run : Run (system cfg) anyEvent es s)
    (few : outstanding es + 2 ≤ 2 * cfg.maxPtrs) (asks : s.main t = .tryAcquire)
    (awake : s.handler t = none) (free : s.lock = none) (even : a.toNat % 2 = 0)
    (h : Stocked s a) (unreferred : Unreferred s a) : Frees cfg t a es s := by
  have hroster := run_roster run
  have hstock := stock_le run
  have hsupplied : Supplied s := by
    refine h.imp List.ne_nil_of_mem ?_
    rintro ⟨u, hu, ha⟩
    exact ⟨u, (hroster.listed u).mpr (.inr (.inl hu)), List.ne_nil_of_mem ha⟩
  obtain ⟨es₁, s₁, hleads₁, hm₁, -, hn, -, hlist⟩ :=
    count_reach cfg lets_inside t es s asks awake free (unlocked_of_free run free) hroster.nodup _ rfl
      (by omega) (fun _ _ => trivial) fun _ _ => hsupplied.count
  have run₁ := run_leads run hleads₁
  have hmem : a ∈ contents (s₁.buffer t) s₁.nAddrs := by
    rw [hn, hlist]
    obtain hstored | ⟨u, hu, ha⟩ := h
    · exact List.mem_append_left _ hstored
    · refine List.mem_append_right _ (List.mem_flatMap.mpr ⟨u, ?_, ha⟩)
      exact (hroster.listed u).mpr (.inr (.inl hu))
  obtain ⟨k, hk, he⟩ := List.mem_map.mp hmem
  have hdoomed : Doomed s₁ t a := by
    refine ⟨⟨k, ?_⟩, fun hopen => ?_⟩
    · rw [hm₁]
      exact ⟨Nat.zero_le k, List.mem_range.mp hk, he⟩
    · rw [hm₁] at hopen
      exact hopen.elim
  have hothers : ∀ u, u ≠ t → phase (s₁.main u) = .away := by
    intro u hut
    by_contra hu
    exact hut (alone run₁ hu (by simp [hm₁, phase]))
  have hfew := outstanding_leads hleads₁
  obtain ⟨es', s', hleads, hfreed, hfree, hm, -⟩ := doomed_freed release run₁ (by omega) even hdoomed
    (unreferred_moves unreferred hleads₁.1) hothers
  exact .before hleads₁ ⟨es', s', hleads, hfreed, hfree, hm⟩

/-- A thread that asks for the lock in vain tests its queue again, and the lock is given back. -/
theorem yield_reach (es : List (Event T)) (s : State T) (leaving : Leaving r s)
    (idle : s.handler r = none) (asks : s.main t = .tryAcquire) (awake : s.handler t = none) :
    Reach cfg inside es s fun s' => s'.lock = none ∧ s'.main t = .isFull ∧ s'.handler t = none := by
  obtain ⟨n, hm⟩ := leaving
  have hrt : r ≠ t := by
    rintro rfl
    rw [hm] at asks
    cases asks
  have hyield : Step cfg s .other _ := .goto s t .isFull awake (asks ▸ Goto.yield)
  refine .own lets_inside hyield trivial ?_
  refine .own lets_inside (.release _ r n ?_ idle) trivial (.done ⟨rfl, ?_, awake⟩)
  · exact (Function.update_of_ne hrt _ _).trans hm
  · exact (Function.update_of_ne hrt.symm _ _).trans (Function.update_self ..)

/-- A round comes to its end while a thread asks for its lock. Where the round has the address, the
thread gives up and goes back to the test of its queue; where it is still in store, the thread
waits for the lock. -/
theorem leaving_freed (release : cfg.debug = false) (run : Run (system cfg) anyEvent es s)
    (few : outstanding es + 2 ≤ 2 * cfg.maxPtrs) (leaving : Leaving r s) (idle : s.handler r = none)
    (asks : s.main t = .tryAcquire) (awake : s.handler t = none) (even : a.toNat % 2 = 0)
    (h : Recoverable s a) (unreferred : Unreferred s a) : Frees cfg t a es s := by
  obtain ⟨n, hm⟩ := leaving
  obtain hstocked | ⟨u, hfilled | hdoomed⟩ := h
  · have htr : t ≠ r := by
      rintro rfl
      rw [hm] at asks
      cases asks
    have hmove : Step cfg s (.release r) _ := .release s r n hm idle
    have hleads : Leads cfg inside es s _ _ := .own lets_inside hmove trivial
    exact .before hleads (stocked_freed release (run.step trivial hmove) few
      ((Function.update_of_ne htr _ _).trans asks) awake rfl even hstocked
      (unreferred_moves unreferred hleads.1))
  · -- whoever fills a list has the lock
    obtain rfl := alone run (t := u) (u := r) (by simp [hfilled.1.held]) (by simp [hm, phase])
    have hfill := hfilled.1
    rw [hm] at hfill
    exact hfill.elim
  · obtain ⟨es₁, s₁, hleads, hfree, hm₁, -⟩ := yield_reach es s ⟨n, hm⟩ idle asks awake
    obtain hfreed | hdoomed₁ := doomed_leads run even hdoomed unreferred hleads
    · exact ⟨es₁, s₁, hleads, hfreed, hfree, hm₁⟩
    have run₁ := run_leads run hleads
    have hfew := outstanding_leads hleads
    obtain ⟨es', s', hleads', hfreed, hfree', hmu, hmain⟩ := doomed_freed release run₁ (by omega) even
      hdoomed₁ (unreferred_moves unreferred hleads.1) fun v _ => away_of_free run₁ hfree v
    refine .before hleads ⟨es', s', hleads', hfreed, hfree', ?_⟩
    by_cases htu : t = u
    · exact htu ▸ hmu
    · exact (hmain t htu).trans hm₁

/-- With a thread that asks for the lock, the address gets freed. -/
theorem held_freed (release : cfg.debug = false) (run : Run (system cfg) anyEvent es s)
    (few : outstanding es + 2 ≤ 2 * cfg.maxPtrs) (provided : ∀ r, Provided s (s.main r))
    (asks : s.main t = .tryAcquire) (even : a.toNat % 2 = 0)
    (h : Stocked s a ∨ ∃ r, Filled s r a) (unreferred : Unreferred s a) : Frees cfg t a es s := by
  obtain ⟨es₁, s₁, hleads₁, b, k, rfl⟩ := awake_reach release lets_inside run t
  have run₁ := run_leads run hleads₁
  have hfew₁ := outstanding_leads hleads₁
  have hawake : Function.update s.handler t none t = none := Function.update_self ..
  cases hlock : s.lock with
  | none =>
    have hstocked : Stocked s a := by
      refine h.resolve_right ?_
      rintro ⟨r, hfill, -⟩
      exact absurd (away_of_free run hlock r) (by simp [hfill.held])
    exact .before hleads₁ (stocked_freed release run₁ (by omega) asks hawake hlock even hstocked
      (unreferred_moves unreferred hleads₁.1))
  | some r =>
    have hheld : phase (s.main r) ≠ .away := ((run_roll run).holder r).mpr hlock
    have htr : t ≠ r := by
      rintro rfl
      exact hheld (by simp [asks, phase])
    obtain ⟨es₂, s₂, hleads₂, b₂, k₂, rfl⟩ := awake_reach release lets_inside run₁ r
    have hfew₂ := outstanding_leads hleads₂
    obtain ⟨es₃, s₃, hleads₃, hspares, n, hm⟩ := leaving_gets release es₂ _
      (run_leads run₁ hleads₂) (by omega) hheld (Function.update_self ..) (provided r)
    have hleads := (hleads₁.trans hleads₂).trans hleads₃
    have run₃ := run_leads run hleads
    have hfew₃ := outstanding_leads hleads₃
    have hasks : s₃.main t = .tryAcquire := (hspares.main t htr).trans asks
    have hawake₃ : s₃.handler t = none :=
      hspares.handler t ((Function.update_of_ne htr _ _).trans hawake)
    have hidle : s₃.handler r = none := hspares.handler r (Function.update_self ..)
    have hstart : Recoverable s a := h.imp_right (Exists.imp fun _ => .inl)
    obtain hfreed | hrec := recoverable_leads run even hstart unreferred hleads
    · obtain ⟨es', s', hleads', hfree, hend, -⟩ := yield_reach es₃ s₃ ⟨n, hm⟩ hidle hasks hawake₃
      exact ⟨es', s', hleads.trans hleads', hfreed.after hleads', hfree, hend⟩
    · exact .before hleads (leaving_freed release run₃ (by omega) ⟨n, hm⟩ hidle hasks hawake₃ even hrec
        (unreferred_moves unreferred hleads.1))

/-- No garbage is stuck: in an optimised build, and while at most `2 * max_ptrs - 2` addresses are
outstanding, once a thread asks for the lock, steps of the library alone free any address in the
storage, in the queue of an active thread or on a list that is being filled, if no running
thread refers to it, and the thread returns from `threadscan_collect`. No round is empty, neither
before nor on the way: those under way have drained an address or are going to. -/
theorem garbage_freed (cfg : Config) (release : cfg.debug = false) (es : List (Event T))
    (s : State T) (run : Run (system cfg) nonemptyRounds es s)
    (few : outstanding es ≤ 2 * cfg.maxPtrs - 2) (provided : ∀ r, Provided s (s.main r)) (t : T)
    (asks : s.main t = .tryAcquire) (a : Word) (even : a.toNat % 2 = 0)
    (held : a ∈ s.storage.flatten ∨ (∃ u, s.life u = .active ∧ a ∈ s.queue u) ∨
      ∃ r, Filling (s.main r) ∧ a ∈ place s (.list r))
    (unreferred : ∀ u, Running (s.life u) → ¬ Refers (memory s u) a) :
    ∃ fs s', Moves (system cfg) inside (es, s) (fs ++ es, s') ∧ (∃ r, Event.free r a ∈ fs) ∧
      s'.main t = .idle ∧ s'.handler t = none := by
  have run' : Run (system cfg) anyEvent es s := run.weaken fun _ _ _ _ => trivial
  obtain ⟨es₁, s₁, hleads₁, hfreed, hfree, hm⟩ :=
    held_freed release run' (room_of_few few) provided asks even (or_assoc.mpr held) unreferred
  have run₁ := run_leads run' hleads₁
  have hfew := outstanding_leads hleads₁
  have hroom := room_of_few few
  obtain ⟨es₂, s₂, hleads₂, hidle, hawake, -⟩ := back_reach release t es₁ s₁ run₁ (by omega)
    (provided_of_free run₁ hfree) fun h => by rw [hm] at h; cases h
  obtain ⟨fs, rfl, hfs⟩ := hfreed.after hleads₂
  exact ⟨fs, s₂, (hleads₁.trans hleads₂).1, hfs, hidle, hawake⟩

/-- The first address of a full queue is freed. -/
theorem garbage_freed_first : ∃ (es fs : List (Event Unit)) (s s' : State Unit),
    Run (system (leastConfig false)) nonemptyRounds es s ∧ s.main () = .tryAcquire ∧
      Moves (system (leastConfig false)) inside (es, s) (fs ++ es, s') ∧
      (∃ r, Event.free r 4096#64 ∈ fs) ∧ s'.main () = .idle := by
  obtain ⟨es, s, run, hfew, hm, -, hlife, hqueue, hmemory⟩ := lone_asks
  have hmem : 4096#64 ∈ s.queue () :=
    hqueue ▸ List.mem_map.mpr ⟨0, List.mem_range.mpr (by norm_num), rfl⟩
  obtain ⟨fs, s', hmoves, hfree, hidle, -⟩ := garbage_freed (leastConfig false) rfl es s run hfew
    (fun _ => by rw [hm]; trivial) () hm 4096#64 (by decide) (.inr (.inl ⟨(), hlife, hmem⟩))
    fun u _ => by simp [Refers, show memory s u = [] from hmemory]
  exact ⟨es, fs, s, s', run, hm, hmoves, hfree, hidle⟩

end ThreadScan.Recovery
