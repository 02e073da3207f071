import ThreadScan.Handshake
import ThreadScan.Marking

/-! The searches of a round. From the moment its scan map is built until its lock is
released, the list of a round is the list its sort left, but for marks; every search in
progress has started on it and is sound for it. -/
namespace ThreadScan.Rounds
open Transition Search Marking Reclaim Handshake

variable {T : Type*} [DecidableEq T] {cfg : Config}
  {ok : List (Event T) → State T → Event T → Prop} {es : List (Event T)} {s s' : State T}

/-- The scan map is built and the lock not yet released. -/
def Ready : Main T → Prop
  | .reset | .lockSignal | .signal _ _ | .search _ _ _ | .wait _ | .release _ => True
  | _ => False

omit [DecidableEq T] in
theorem Ready.ne_away {m : Main T} (h : Ready m) : phase m ≠ .away ∧ m ≠ .assign := by
  cases m <;> first | exact h.elim | simp [phase]

omit [DecidableEq T] in
theorem ready_of_open {m : Main T} (h : RollCall.Open (phase m)) : Ready m := by
  cases m <;> first | exact h.elim | trivial

/-- What a step does to a list that is ready for the searches of its round. -/
inductive ListStep (cfg : Config) (s s' : State T) : Prop
  | rests (list : working s' = working s) (sorted : s'.sorted = s.sorted)
      (scans : ∀ u scan, Scans s' u scan →
        Scans s u scan ∨ ∃ words, scan = searchRange cfg.debug words)
  | searched (v : T) (scan : Scan) (by_ : Scans s v scan)
      (list : working s' =
        { working s with bufAddrs := Search.store (bufAddrs s) (searchNext cfg.debug (working s) scan).2 })
      (sorted : s'.sorted = s.sorted)
      (scans : ∀ u scan', Scans s' u scan' →
        Scans s u scan' ∨ scan' = (searchNext cfg.debug (working s) scan).1)

theorem scans_main {t u : T} {m : Main T} {scan : Scan} (h : Scans s' u scan)
    (hm : s'.main = Function.update s.main t m) (hh : s'.handler = s.handler) :
    Scans s u scan ∨ ∃ c stage, m = .search c stage scan := by
  obtain ⟨c, stage, he⟩ | ⟨stage, he⟩ := h
  · rw [hm] at he
    by_cases hu : u = t
    · subst hu
      rw [Function.update_self] at he
      exact .inr ⟨c, stage, he⟩
    · rw [Function.update_of_ne hu] at he
      exact .inl (.inl ⟨c, stage, he⟩)
  · rw [hh] at he
    exact .inl (.inr ⟨stage, he⟩)

theorem scans_handler {t u : T} {m : Option Handler} {scan : Scan} (h : Scans s' u scan)
    (hh : s'.handler = Function.update s.handler t m) (hm : s'.main = s.main) :
    Scans s u scan ∨ ∃ stage, m = some (.search stage scan) := by
  obtain ⟨c, stage, he⟩ | ⟨stage, he⟩ := h
  · rw [hm] at he
    exact .inl (.inl ⟨c, stage, he⟩)
  · rw [hh] at he
    by_cases hu : u = t
    · subst hu
      rw [Function.update_self] at he
      exact .inr ⟨stage, he⟩
    · rw [Function.update_of_ne hu] at he
      exact .inl (.inr ⟨stage, he⟩)

theorem nextStage_searchRange {block : Option (List Word)} {stage stage' : Stage} {scan : Scan}
    (h : nextStage cfg block stage = some (stage', scan)) :
    ∃ words, scan = searchRange cfg.debug words := by
  cases stage with
  | stack =>
    obtain ⟨words, -, he⟩ := Option.map_eq_some_iff.mp h
    exact ⟨words, (Prod.mk.inj he).2.symm⟩
  | localBlock => cases h

/-- A step that moves one thread and leaves the list alone. -/
theorem ListStep.of_main {t : T} {m : Main T} (hm : s'.main = Function.update s.main t m)
    (hh : s'.handler = s.handler) (list : working s' = working s) (sorted : s'.sorted = s.sorted)
    (start : ∀ c stage scan, m = .search c stage scan → ∃ words, scan = searchRange cfg.debug words) :
    ListStep cfg s s' := by
  refine .rests list sorted fun u scan h => ?_
  obtain hold | ⟨c, stage, he⟩ := scans_main h hm hh
  · exact .inl hold
  · exact .inr (start c stage scan he)

theorem ListStep.of_handler {t : T} {m : Option Handler}
    (hh : s'.handler = Function.update s.handler t m) (hm : s'.main = s.main)
    (list : working s' = working s) (sorted : s'.sorted = s.sorted)
    (start : ∀ stage scan, m = some (.search stage scan) →
      ∃ words, scan = searchRange cfg.debug words) : ListStep cfg s s' := by
  refine .rests list sorted fun u scan h => ?_
  obtain hold | ⟨stage, he⟩ := scans_handler h hh hm
  · exact .inl hold
  · exact .inr (start stage scan he)

omit [DecidableEq T] in
/-- Steps that move neither a thread nor a handler. -/
theorem ListStep.of_rest (hm : s'.main = s.main) (hh : s'.handler = s.handler)
    (list : working s' = working s) (sorted : s'.sorted = s.sorted) : ListStep cfg s s' := by
  refine .rests list sorted fun u scan h => .inl ?_
  obtain ⟨c, stage, he⟩ | ⟨stage, he⟩ := h
  · exact .inl ⟨c, stage, hm ▸ he⟩
  · exact .inr ⟨stage, hh ▸ he⟩

omit [DecidableEq T] in
theorem goto_starts {t : T} {m m' : Main T} (h : Goto cfg s t m m') {c : ℕ} {stage : Stage}
    {scan : Scan} (he : m' = .search c stage scan) : ∃ words, scan = searchRange cfg.debug words := by
  cases h with
  | nextStage c' stage₀ stage' scan₀ scan' hdone next =>
    cases he
    exact nextStage_searchRange next
  | _ => cases he

omit [DecidableEq T] in
theorem goto_ready {t : T} {m m' : Main T} (h : Goto cfg s t m m') (hr : Ready m') : Ready m := by
  cases h <;> exact hr

/-- A buffer that is not the list's own may change under it. -/
theorem working_other {r t : T} {a : Mem} (howner : s.bufOwner = some r) (hne : t ≠ r)
    (hb : s'.buffer = Function.update s.buffer t a) (ho : s'.bufOwner = s.bufOwner)
    (hn : s'.nAddrs = s.nAddrs) (hmap : s'.bufScanMap = s.bufScanMap)
    (hk : s'.nScanMap = s.nScanMap) : working s' = working s := by
  simp only [working, bufAddrs, ho, howner, hb, hn, hmap, hk, Function.update_of_ne (Ne.symm hne)]

theorem working_storeBuf {r : T} (howner : s.bufOwner = some r) {st : Option (ℤ × Word)}
    (hb : s'.buffer = storeBuf s st) (ho : s'.bufOwner = s.bufOwner)
    (hn : s'.nAddrs = s.nAddrs) (hmap : s'.bufScanMap = s.bufScanMap)
    (hk : s'.nScanMap = s.nScanMap) :
    working s' = { working s with bufAddrs := Search.store (bufAddrs s) st } := by
  simp only [working, bufAddrs_storeBuf howner hb ho, hn, hmap, hk]

/-- A list that is ready after a step has just got its scan map, or was ready before. -/
theorem ready_step (run : Run (system cfg) ok es s) {e : Event T} (move : Step cfg s e s') {r : T}
    (hr : Ready (s'.main r)) :
    (s.main r = .scanMap ∧ s'.main = Function.update s.main r .reset ∧ s'.handler = s.handler ∧
      s'.buffer = s.buffer ∧ s'.sorted = s.sorted ∧ s'.nAddrs = s.nAddrs ∧
      s'.bufOwner = s.bufOwner ∧
      (s'.bufScanMap, s'.nScanMap) = generateScanMap (s.buffer r) s.nAddrs s.bufScanMap) ∨
    Ready (s.main r) ∧ ListStep cfg s s' := by
  -- a thread that moves outside of the ready positions is not the one that is ready
  have hother : ∀ {t : T} {m : Main T}, s'.main = Function.update s.main t m → ¬ Ready m →
      r ≠ t ∧ Ready (s.main r) := by
    intro t m hm hnot
    rw [hm] at hr
    have hne : r ≠ t := by
      rintro rfl
      rw [Function.update_self] at hr
      exact hnot hr
    rw [Function.update_of_ne hne] at hr
    exact ⟨hne, hr⟩
  have hheld : ∀ {t : T} {m : Main T}, s'.main = Function.update s.main t m → ¬ Ready m →
      phase (s.main t) = .held → False := by
    intro t m hm hnot ht
    obtain ⟨hne, hr'⟩ := hother hm hnot
    exact hne (alone run hr'.ne_away.1 (by simp [ht]))
  have hself : ∀ {t : T} {m : Main T}, s'.main = Function.update s.main t m →
      Ready (s.main t) → Ready (s.main r) := by
    intro t m hm ht
    rw [hm] at hr
    by_cases hne : r = t
    · exact hne ▸ ht
    · rwa [Function.update_of_ne hne] at hr
  cases move with
  | scanMap t ht =>
    by_cases hne : r = t
    · subst hne
      exact .inl ⟨ht, rfl, rfl, rfl, rfl, rfl, rfl, rfl⟩
    · simp only [Function.update_of_ne hne] at hr
      exact absurd (alone run hr.ne_away.1 (by simp [ht, phase])) hne
  | assign t _ _ ht | leftover t _ _ _ ht | popTail t _ _ _ _ ht | count t _ ht | sort t ht =>
    exact (hheld rfl id (by rw [ht]; rfl)).elim
  | push t _ ht | acquire t ht | exchange t ht | lockQueues t _ ht | unlockQueues t _ ht
  | verify t _ ht | store t _ ht | release t _ ht =>
    exact .inr ⟨(hother rfl id).2, .of_main rfl rfl rfl rfl (by simp)⟩
  | goto t m _ hg =>
    refine .inr ⟨?_, .of_main rfl rfl rfl rfl fun c stage scan he => goto_starts hg he⟩
    by_cases hne : r = t
    · subst hne
      simp only [Function.update_self] at hr
      exact goto_ready hg hr
    · simpa only [Function.update_of_ne hne] using hr
  | reset t ht | lockSignal t ht | kill t _ _ _ ht | leave t _ ht =>
    exact .inr ⟨hself rfl (by rw [ht]; trivial), .of_main rfl rfl rfl rfl (by simp)⟩
  | unlockSignal t c ht =>
    refine .inr ⟨hself rfl (by rw [ht]; trivial), .of_main rfl rfl rfl rfl ?_⟩
    intro c' stage scan he
    cases he
    exact ⟨_, rfl⟩
  | search t c stage scan ht =>
    have hr₀ := hself rfl (show Ready (s.main t) by rw [ht]; trivial)
    have howner := run_owner run r hr₀.ne_away.1 hr₀.ne_away.2
    refine .inr ⟨hr₀, .searched t scan (.inl ⟨c, stage, ht⟩)
      (working_storeBuf howner rfl rfl rfl rfl rfl) rfl fun u scan' h => ?_⟩
    obtain hold | ⟨c', stage', he⟩ := scans_main (s := s) h rfl rfl
    · exact .inl hold
    · cases he
      exact .inr rfl
  | keep t _ _ _ ht | free t _ _ _ _ ht | randomize t _ ht =>
    obtain ⟨hne, hr₀⟩ := hother rfl id
    have howner := run_owner run r hr₀.ne_away.1 hr₀.ne_away.2
    exact .inr ⟨hr₀, .of_main rfl rfl (working_other howner hne.symm rfl rfl rfl rfl rfl) rfl
      (by simp)⟩
  | enterHandler u =>
    refine .inr ⟨hr, .of_handler rfl rfl rfl rfl ?_⟩
    intro stage scan he
    cases he
    exact ⟨_, rfl⟩
  | helperSearch u stage scan hu =>
    have howner := run_owner run r hr.ne_away.1 hr.ne_away.2
    refine .inr ⟨hr, .searched u scan (.inr ⟨stage, hu⟩)
      (working_storeBuf howner rfl rfl rfl rfl rfl) rfl fun v scan' h => ?_⟩
    obtain hold | ⟨stage', he⟩ := scans_handler (s := s) h rfl rfl
    · exact .inl hold
    · cases he
      exact .inr rfl
  | helperNext u stage stage' scan scan' hu hd next =>
    refine .inr ⟨hr, .of_handler rfl rfl rfl rfl ?_⟩
    intro stage₁ scan₁ he
    cases he
    exact nextStage_searchRange next
  | helperDone u | helperCount u | helperTail u =>
    exact .inr ⟨hr, .of_handler rfl rfl rfl rfl (by simp)⟩
  | mutate | create | activate | exit | remove | terminate =>
    exact .inr ⟨hr, .of_rest rfl rfl rfl rfl⟩

/-! ### The searches in progress -/

/-- What holds of the list of a round and of every search of it, if the list is not empty. -/
structure Searches (s : State T) : Prop where
  fresh : ∀ t, s.main t = .scanMap → s.buffer t = s.sorted
  list : ∀ t, Ready (s.main t) → 1 ≤ s.nAddrs → Searchable s.sorted (working s)
  sound : ∀ u scan, Scans s u scan → 1 ≤ s.nAddrs → ∃ words, Sound s.sorted s.nAddrs words scan
  caught : ∀ u scan, Scans s u scan → 1 ≤ s.nAddrs → Caught s.sorted s.nAddrs (bufAddrs s) scan
  calm : ∀ u scan, Scans s u scan → 1 ≤ s.nAddrs → Monotonic s.nAddrs s.sorted →
    Calm s.sorted s.nAddrs (bufAddrs s) scan

/-- After the sort and before the scan map, the list is what the sort left. -/
theorem fresh_step (run : Run (system cfg) ok es s) (inv : Searches s) {e : Event T}
    (move : Step cfg s e s') (r : T) (hr : s'.main r = .scanMap) : s'.buffer r = s'.sorted := by
  have hother : ∀ {t : T} {m : Main T}, s'.main = Function.update s.main t m → m ≠ .scanMap →
      r ≠ t ∧ s.main r = .scanMap := by
    intro t m hm hne
    rw [hm] at hr
    have hrt : r ≠ t := by
      rintro rfl
      rw [Function.update_self] at hr
      exact hne hr
    exact ⟨hrt, by rwa [Function.update_of_ne hrt] at hr⟩
  have hheld : ∀ {t : T} {m : Main T}, s'.main = Function.update s.main t m → m ≠ .scanMap →
      phase (s.main t) = .held → False := by
    intro t m hm hne ht
    obtain ⟨hrt, hr'⟩ := hother hm hne
    exact hrt (alone run (by simp [hr', phase]) (by simp [ht]))
  cases move with
  | sort t ht =>
    by_cases hrt : r = t
    · subst hrt
      exact Function.update_self ..
    · simp only [Function.update_of_ne hrt] at hr
      exact absurd (alone run (by simp [hr, phase]) (by simp [ht, phase])) hrt
  | assign t _ _ ht | leftover t _ _ _ ht | popTail t _ _ _ _ ht =>
    exact (hheld rfl (by simp) (by rw [ht]; rfl)).elim
  | search t c stage scan ht =>
    obtain ⟨hrt, hr'⟩ := hother rfl (by simp)
    exact absurd (by rw [hr']; rfl) (not_held_of_scans run (.inl ⟨c, stage, ht⟩) (t := r))
  | helperSearch u stage scan hu =>
    exact absurd (by rw [hr]; rfl) (not_held_of_scans run (.inr ⟨stage, hu⟩) (t := r))
  | keep t _ _ _ ht | free t _ _ _ _ ht | randomize t _ ht =>
    obtain ⟨hrt, hr'⟩ := hother rfl (by simp)
    exact (Function.update_of_ne hrt _ _).trans (inv.fresh r hr')
  | goto t m _ hg =>
    have hm : m ≠ .scanMap := by
      rintro rfl
      generalize s.main t = m₀ at hg
      cases hg
    exact inv.fresh r (hother rfl hm).2
  | push t | acquire t | exchange t | lockQueues t | unlockQueues t | count t | scanMap t
  | reset t | lockSignal t | kill t | unlockSignal t | leave t | release t | verify t | store t =>
    exact inv.fresh r (hother rfl (by simp)).2
  | _ => exact inv.fresh r hr

/-- A search after a step belongs to a round that was ready before it. -/
theorem list_step_of_scans (run : Run (system cfg) ok es s) {e : Event T}
    (run' : Run (system cfg) ok (e :: es) s') (move : Step cfg s e s') {u : T} {scan : Scan}
    (h : Scans s' u scan) : ∃ r, Ready (s.main r) ∧ ListStep cfg s s' := by
  obtain ⟨r, hr⟩ := scans_open run' h
  obtain ⟨hmap, hm, hh, -⟩ | hlist := ready_step run move (ready_of_open hr)
  · obtain hold | ⟨c, stage, he⟩ := scans_main h hm hh
    · exact absurd (by rw [hmap]; rfl) (not_held_of_scans run hold (t := r))
    · cases he
  · exact ⟨r, hlist⟩

theorem Searches.step (run : Run (system cfg) ok es s) (inv : Searches s) {e : Event T}
    (allowed : ok es s e) (move : Step cfg s e s') : Searches s' := by
  have run' : Run (system cfg) ok (e :: es) s' := run.step allowed move
  have hback : ∀ u scan, Scans s' u scan → ∃ r, Ready (s.main r) ∧ ListStep cfg s s' :=
    fun u scan h => list_step_of_scans run run' move h
  have hrest : working s' = working s → s'.nAddrs = s.nAddrs ∧ bufAddrs s' = bufAddrs s := by
    intro hw
    exact ⟨Int.ofNat.inj (congrArg Working.nAddrs hw), congrArg Working.bufAddrs hw⟩
  have hmark : ∀ {a : Mem}, working s' = { working s with bufAddrs := a } →
      s'.nAddrs = s.nAddrs ∧ bufAddrs s' = a := by
    intro a hw
    exact ⟨Int.ofNat.inj (congrArg Working.nAddrs hw), congrArg Working.bufAddrs hw⟩
  refine ⟨fresh_step run inv move, ?_, ?_, ?_, ?_⟩
  · intro r hr hn
    obtain ⟨hmap, -, -, hb, hsort, hna, hown, hgen⟩ | ⟨hr₀, hlist⟩ := ready_step run move hr
    · have howner := run_owner run r (by simp [hmap, phase]) (by simp [hmap])
      have hfresh : s.buffer r = s.sorted := inv.fresh r hmap
      have haddrs : bufAddrs s' = s.sorted := by
        rw [bufAddrs_of_owner (hown.trans howner), hb, hfresh]
      have hmaps := generateScanMap_spec s.sorted s.nAddrs (by omega) s.bufScanMap
      rw [hfresh] at hgen
      rw [← hgen] at hmaps
      refine ⟨by simp only [working]; omega, ?_, ?_⟩
      · simpa only [working, hsort, hna] using hmaps
      · simpa only [working, haddrs, hsort] using Marked.refl _ _
    · cases hlist with
      | rests list sorted scans =>
        rw [list, sorted]
        exact inv.list r hr₀ ((hrest list).1 ▸ hn)
      | searched v scan hv list sorted scans =>
        have hn' : 1 ≤ s.nAddrs := (hmark list).1 ▸ hn
        have hready := inv.list r hr₀ hn'
        obtain ⟨words, hsound⟩ := inv.sound v scan hv hn'
        have hmarks := (hsound.next (g := working s) hready cfg.debug).2
        rw [list, sorted]
        exact ⟨hready.pos, hready.maps, hmarks.store_marked hready.marked⟩
  · intro u scan h hn
    obtain ⟨r, hr, hlist⟩ := hback u scan h
    cases hlist with
    | rests list sorted scans =>
      obtain ⟨hna, -⟩ := hrest list
      rw [hna, sorted]
      obtain hold | ⟨words, rfl⟩ := scans u scan h
      · exact inv.sound u scan hold (hna ▸ hn)
      · exact ⟨words, sound_searchRange _ _⟩
    | searched v scan₀ hv list sorted scans =>
      obtain ⟨hna, -⟩ := hmark list
      have hn' : 1 ≤ s.nAddrs := hna ▸ hn
      rw [hna, sorted]
      obtain hold | rfl := scans u scan h
      · exact inv.sound u scan hold hn'
      · obtain ⟨words, hsound⟩ := inv.sound v scan₀ hv hn'
        exact ⟨words, (hsound.next (g := working s) (inv.list r hr hn') cfg.debug).1⟩
  · intro u scan h hn
    obtain ⟨r, hr, hlist⟩ := hback u scan h
    cases hlist with
    | rests list sorted scans =>
      obtain ⟨hna, hb⟩ := hrest list
      rw [hna, sorted, hb]
      obtain hold | ⟨words, rfl⟩ := scans u scan h
      · exact inv.caught u scan hold (hna ▸ hn)
      · exact caught_searchRange _ _
    | searched v scan₀ hv list sorted scans =>
      obtain ⟨hna, hb⟩ := hmark list
      have hn' : 1 ≤ s.nAddrs := hna ▸ hn
      obtain ⟨words, hsound⟩ := inv.sound v scan₀ hv hn'
      have hgrows := (hsound.next (g := working s) (inv.list r hr hn') cfg.debug).2.store_grows
        (a := bufAddrs s)
      rw [hna, sorted, hb]
      obtain hold | rfl := scans u scan h
      · exact (inv.caught u scan hold hn').grows hgrows
      · have hcaught := inv.caught v scan₀ hv hn'
        exact (Caught.next (g := working s) hcaught).grows hgrows
  · intro u scan h hn hmono
    obtain ⟨r, hr, hlist⟩ := hback u scan h
    cases hlist with
    | rests list sorted scans =>
      obtain ⟨hna, hb⟩ := hrest list
      rw [hna, sorted] at hmono
      rw [hna, sorted, hb]
      obtain hold | ⟨words, rfl⟩ := scans u scan h
      · exact inv.calm u scan hold (hna ▸ hn) hmono
      · exact calm_searchRange _ _
    | searched v scan₀ hv list sorted scans =>
      obtain ⟨hna, hb⟩ := hmark list
      have hn' : 1 ≤ s.nAddrs := hna ▸ hn
      obtain ⟨words, hsound⟩ := inv.sound v scan₀ hv hn'
      have hready := inv.list r hr hn'
      have hgrows := (hsound.next (g := working s) hready cfg.debug).2.store_grows
        (a := bufAddrs s)
      rw [hna, sorted] at hmono
      rw [hna, sorted, hb]
      obtain hold | rfl := scans u scan h
      · exact (inv.calm u scan hold hn' hmono).grows hgrows
      · exact Calm.next (g := working s) (inv.calm v scan₀ hv hn' hmono) hready hmono hsound
          (inv.caught v scan₀ hv hn')

theorem run_searches (run : Run (system cfg) ok es s) : Searches s := by
  refine run.invariant (I := fun _ s => Searches s) ?_
    fun _ _ _ _ run inv allowed move => inv.step run allowed move
  rintro s ⟨map, rfl⟩
  have hnone : ∀ u scan, ¬ Scans (initial map : State T) u scan := by
    rintro u scan (⟨c, stage, h⟩ | ⟨stage, h⟩) <;> simp [initial] at h
  exact ⟨fun t h => by simp [initial] at h, fun t h => h.elim, fun u scan h => (hnone u scan h).elim,
    fun u scan h => (hnone u scan h).elim, fun u scan h => (hnone u scan h).elim⟩

end ThreadScan.Rounds
