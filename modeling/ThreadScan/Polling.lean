import ThreadScan.Timestamp

/-! The reclaimer lock does not deadlock, although a reclaimer holds the lock of the thread list
while it polls the helpers: a helper finishes without that lock, and a flag that it raises late
is lowered again. -/
namespace ThreadScan.Polling
open Transition Timestamp

variable {T : Type*} [DecidableEq T] {es : List (Event T)} {s s' : State T} {t u : T} {curr : Word}

theorem timestampIsActive_timestamp (w : Word) : timestampIsActive (timestamp w) = false := by
  rw [timestampIsActive_eq_false, timestamp_toNat]
  exact Nat.mod_lt _ (by norm_num)

/-- The invariant: who has the two locks, and no stamp without a record. -/
structure Owned (s : State T) : Prop where
  unborn : ∀ u, s.helper u = .unborn → s.localTimestamp u = 0#64
  list : ∀ u, s.listLock = some u → ∃ curr rest, s.main u = .polling curr rest
  active : timestampIsActive s.globalTimestamp = true → ∃ u, Critical (s.main u)

/-- A thread in its critical section stays there. -/
theorem critical_kept {m : Main T} (h : ∃ u, Critical (s.main u))
    (hm : Critical (s.main t) → Critical m) : ∃ u, Critical (Function.update s.main t m u) := by
  obtain ⟨u, hu⟩ := h
  refine ⟨u, ?_⟩
  by_cases hut : u = t
  · subst hut
    rw [Function.update_self]
    exact hm hu
  · rwa [Function.update_of_ne hut]

/-- A thread that polls goes on. -/
theorem polling_kept {m : Main T} (h : ∀ u, s.listLock = some u → ∃ curr rest, s.main u = .polling curr rest)
    (hm : ∀ curr rest, s.main t ≠ .polling curr rest) (u : T) (hu : s.listLock = some u) :
    ∃ curr rest, Function.update s.main t m u = .polling curr rest := by
  obtain ⟨curr, rest, hpoll⟩ := h u hu
  refine ⟨curr, rest, ?_⟩
  have hut : u ≠ t := by
    rintro rfl
    exact hm curr rest hpoll
  rwa [Function.update_of_ne hut]

theorem unborn_kept {h : Helper} {stamp : Word} (inv : Owned s) (hh : h ≠ .unborn) (u : T)
    (hu : Function.update s.helper t h u = .unborn) :
    Function.update s.localTimestamp t stamp u = 0#64 := by
  by_cases hut : u = t
  · subst hut
    rw [Function.update_self] at hu
    exact absurd hu hh
  · rw [Function.update_of_ne hut] at hu ⊢
    exact inv.unborn u hu

theorem unborn_moved {h : Helper} (inv : Owned s) (hh : h ≠ .unborn) (u : T)
    (hu : Function.update s.helper t h u = .unborn) : s.localTimestamp u = 0#64 := by
  have hkept : Function.update s.localTimestamp t (s.localTimestamp t) u = 0#64 :=
    unborn_kept inv hh u hu
  rwa [Function.update_eq_self] at hkept

theorem Owned.step {e : Event T} (inv : Owned s) (move : Step s e s') : Owned s' := by
  cases move with
  | tryRead t h free =>
    exact ⟨inv.unborn, polling_kept inv.list (by simp [h]),
      fun ha => critical_kept (inv.active ha) (by simp [h, Critical])⟩
  | casWin t h =>
    exact ⟨inv.unborn, polling_kept inv.list (by simp [h]),
      fun _ => ⟨t, by simp [Critical]⟩⟩
  | casFail t old h lost =>
    exact ⟨inv.unborn, polling_kept inv.list (by simp [h]),
      fun ha => critical_kept (inv.active ha) (by simp [h, Critical])⟩
  | pollStart t curr h free =>
    refine ⟨inv.unborn, ?_, fun ha => critical_kept (inv.active ha) (by simp [Critical])⟩
    intro u hu
    obtain rfl := Option.some.inj hu
    exact ⟨curr, s.threadList, Function.update_self ..⟩
  | pollNext t td curr rest h passed =>
    refine ⟨inv.unborn, ?_, fun ha => critical_kept (inv.active ha) (by simp [Critical])⟩
    intro u hu
    by_cases hut : u = t
    · subst hut
      exact ⟨curr, rest, Function.update_self ..⟩
    · obtain ⟨curr', rest', hpoll⟩ := inv.list u hu
      exact ⟨curr', rest', (Function.update_of_ne hut _ _).trans hpoll⟩
  | pollEnd t curr h =>
    refine ⟨inv.unborn, ?_, fun ha => critical_kept (inv.active ha) (by simp [Critical])⟩
    intro u hu
    cases hu
  | releaseRead t curr h =>
    exact ⟨inv.unborn, polling_kept inv.list (by simp [h]),
      fun ha => critical_kept (inv.active ha) (by simp [Critical])⟩
  | releaseWrite t curr v h =>
    refine ⟨inv.unborn, polling_kept inv.list (by simp [h]), ?_⟩
    intro ha
    rw [timestampIsActive_timestamp] at ha
    cases ha
  | listAdd t h free => exact ⟨unborn_kept inv (by simp), inv.list, inv.active⟩
  | listRemove t free => exact ⟨inv.unborn, inv.list, inv.active⟩
  | threadBase t h => exact ⟨unborn_kept inv (by simp), inv.list, inv.active⟩
  | raiseRead t h => exact ⟨unborn_moved inv (by simp), inv.list, inv.active⟩
  | raisePublish t old h => exact ⟨unborn_kept inv (by simp), inv.list, inv.active⟩
  | raiseGlobal t old h => exact ⟨unborn_moved inv (by simp), inv.list, inv.active⟩
  | raiseFinish t old curr h => exact ⟨unborn_kept inv (by simp), inv.list, inv.active⟩
  | lowerRead t h => exact ⟨unborn_moved inv (by simp), inv.list, inv.active⟩
  | lowerWrite t v h => exact ⟨unborn_kept inv (by simp), inv.list, inv.active⟩

theorem run_owned (run : Run (system T) anyEvent es s) : Owned s := by
  refine run.invariant (I := fun _ s => Owned s) ?_ fun _ _ _ _ _ inv _ move => inv.step move
  rintro s rfl
  refine ⟨fun _ _ => rfl, ?_, ?_⟩
  · intro u hu
    cases hu
  · intro ha
    exact absurd ha (show ¬ timestampIsActive 1#64 = true by decide)

/-! ### Helpers -/

/-- From here a helper gets to lower its flag, and changes nothing but its own stamp. -/
def Lowers (es : List (Event T)) (s : State T) (u : T) : Prop :=
  ∃ c, Moves (system T) anyEvent (es, s) c ∧ timestampIsActive (c.2.localTimestamp u) = false ∧
    c.2.main = s.main ∧ c.2.listLock = s.listLock

theorem lowers_move {e : Event T} (move : Step s e s') (main : s'.main = s.main)
    (lock : s'.listLock = s.listLock) (h : Lowers (e :: es) s' u) : Lowers es s u := by
  obtain ⟨c, course, hstamp, hmain, hlock⟩ := h
  exact ⟨c, .head trivial move course, hstamp, hmain.trans main, hlock.trans lock⟩

theorem lowers_writing {v : Word} (h : s.helper u = .lower v) : Lowers es s u := by
  refine ⟨_, .one trivial (.lowerWrite s u v h), ?_, rfl, rfl⟩
  dsimp only
  rw [Function.update_self]
  exact timestampIsActive_timestamp v

theorem lowers_idle (h : s.helper u = .idle) : Lowers es s u :=
  lowers_move (.lowerRead s u h) rfl rfl (lowers_writing (Function.update_self ..))

theorem lowers_read {old : Word} (h : s.helper u = .read old curr) : Lowers es s u :=
  lowers_move (.raiseFinish s u old curr h) rfl rfl (lowers_idle (Function.update_self ..))

theorem lowers_published {old : Word} (h : s.helper u = .published old) : Lowers es s u :=
  lowers_move (.raiseGlobal s u old h) rfl rfl (lowers_read (Function.update_self ..))

theorem lowers_raise {old : Word} (h : s.helper u = .raise old) : Lowers es s u :=
  lowers_move (.raisePublish s u old h) rfl rfl (lowers_published (Function.update_self ..))

/-- Wherever a helper stands, it can finish without the lock of the thread list. -/
theorem helper_lowers (run : Run (system T) anyEvent es s) (u : T) : Lowers es s u := by
  cases h : s.helper u with
  | unborn =>
    refine ⟨_, .refl _, ?_, rfl, rfl⟩
    rw [(run_owned run).unborn u h]
    decide
  | born => exact lowers_move (.threadBase s u h) rfl rfl (lowers_idle (Function.update_self ..))
  | idle => exact lowers_idle h
  | raise old => exact lowers_raise h
  | published old => exact lowers_published h
  | read old curr => exact lowers_read h
  | lower v => exact lowers_writing h

/-! ### Rounds -/

theorem stillHelping_of_lowered {stamp : Word} (h : timestampIsActive stamp = false) :
    stillHelping stamp curr = false := by
  rw [stillHelping, h, Bool.false_and]

/-- A reclaimer gets through the rest of the thread list. -/
theorem polled (rest : List T) (run : Run (system T) anyEvent es s)
    (h : s.main t = .polling curr rest) :
    ∃ c, Moves (system T) anyEvent (es, s) c ∧ c.2.main = Function.update s.main t (.holding curr) := by
  induction rest generalizing es s with
  | nil => exact ⟨_, .one trivial (.pollEnd s t curr h), rfl⟩
  | cons td rest ih =>
    obtain ⟨⟨es₁, s₁⟩, course₁, hstamp, hmain, -⟩ := helper_lowers run td
    have h₁ : s₁.main t = .polling curr (td :: rest) := (congrFun hmain t).trans h
    have course₂ := course₁.tail trivial
      (.pollNext s₁ t td curr rest h₁ (stillHelping_of_lowered hstamp))
    obtain ⟨c, course, hc⟩ := ih (run.extend course₂) (Function.update_self ..)
    refine ⟨c, course₂.trans course, hc.trans ?_⟩
    rw [Function.update_idem, show s₁.main = s.main from hmain]

/-- A thread that has won its compare-and-swap gets the lock. -/
theorem won_holds (run : Run (system T) anyEvent es s) (h : s.main t = .won curr) :
    ∃ c, Moves (system T) anyEvent (es, s) c ∧ c.2.main = Function.update s.main t (.holding curr) := by
  have hfree : s.listLock = none := by
    cases hl : s.listLock with
    | none => rfl
    | some u =>
      obtain ⟨curr', rest, hu⟩ := (run_owned run).list u hl
      have hut : u = t := (run_lockInv run).unique u t (by simp [hu, Critical]) (by simp [h, Critical])
      rw [← hut, hu] at h
      cases h
  have course₁ : Moves (system T) anyEvent (es, s) _ := .one trivial (.pollStart s t curr h hfree)
  obtain ⟨c, course, hc⟩ := polled s.threadList (run.extend course₁) (Function.update_self ..)
  refine ⟨c, course₁.trans course, hc.trans ?_⟩
  rw [Function.update_idem]

variable (es) in
theorem writing_releases {v : Word} (h : s.main t = .releasing curr v) :
    ∃ c, Moves (system T) anyEvent (es, s) c ∧ c.2.main = Function.update s.main t .idle :=
  ⟨_, .one trivial (.releaseWrite s t curr v h), rfl⟩

variable (es) in
theorem holding_releases (h : s.main t = .holding curr) :
    ∃ c, Moves (system T) anyEvent (es, s) c ∧ c.2.main = Function.update s.main t .idle := by
  have hnext : { s with
      main := Function.update s.main t (.releasing curr s.globalTimestamp) }.main t =
        .releasing curr s.globalTimestamp := Function.update_self ..
  obtain ⟨c, course, hc⟩ := writing_releases (.other :: es) hnext
  refine ⟨c, .head trivial (.releaseRead s t curr h) course, hc.trans ?_⟩
  rw [Function.update_idem]

/-- A thread that will hold the lock will release it. -/
theorem held_releases (h : ∃ c, Moves (system T) anyEvent (es, s) c ∧
      c.2.main = Function.update s.main t (.holding curr)) :
    ∃ c, Moves (system T) anyEvent (es, s) c ∧ c.2.main = Function.update s.main t .idle := by
  obtain ⟨⟨es₁, s₁⟩, course₁, hmain⟩ := h
  have hholding : s₁.main t = .holding curr :=
    (congrFun hmain t).trans (Function.update_self ..)
  obtain ⟨c, course, hc⟩ := holding_releases es₁ hholding
  refine ⟨c, course₁.trans course, hc.trans ?_⟩
  rw [show s₁.main = _ from hmain, Function.update_idem]

/-- A thread in its critical section gets to the store of its release. -/
theorem releases (run : Run (system T) anyEvent es s) (h : Critical (s.main t)) :
    ∃ c, Moves (system T) anyEvent (es, s) c ∧ c.2.main = Function.update s.main t .idle := by
  cases hm : s.main t with
  | idle | attempt old =>
    rw [hm] at h
    exact h.elim
  | won curr => exact held_releases (won_holds run hm)
  | polling curr rest => exact held_releases (polled rest run hm)
  | holding curr => exact holding_releases es hm
  | releasing curr v => exact writing_releases es hm

/-- Whoever has the lock gives it up. -/
theorem vacates (run : Run (system T) anyEvent es s) :
    ∃ c, Moves (system T) anyEvent (es, s) c ∧ ∀ u, ¬ Critical (c.2.main u) := by
  by_cases hcrit : ∃ u, Critical (s.main u)
  · obtain ⟨u, hu⟩ := hcrit
    obtain ⟨c, course, hc⟩ := releases run hu
    refine ⟨c, course, ?_⟩
    intro v hv
    rw [hc] at hv
    rcases critical_update hv with ⟨-, hidle⟩ | ⟨hvu, hv⟩
    · exact hidle
    · exact hvu ((run_lockInv run).unique v u hv hu)
  · exact ⟨_, .refl _, fun u hu => hcrit ⟨u, hu⟩⟩

/-- An idle thread gets the lock that nobody has. -/
theorem idle_holds (run : Run (system T) anyEvent es s) (h : s.main t = .idle)
    (vacant : ∀ u, ¬ Critical (s.main u)) :
    ∃ c curr, Moves (system T) anyEvent (es, s) c ∧ c.2.main t = .holding curr := by
  have hfree : timestampIsActive s.globalTimestamp = false := by
    rw [← Bool.not_eq_true]
    intro ha
    obtain ⟨u, hu⟩ := (run_owned run).active ha
    exact vacant u hu
  have course₁ : Moves (system T) anyEvent (es, s) _ := .one trivial (.tryRead s t h hfree)
  have course₂ := course₁.tail trivial (.casWin _ t (Function.update_self ..))
  obtain ⟨c, course, hc⟩ := won_holds (run.extend course₂) (Function.update_self ..)
  exact ⟨c, _, course₂.trans course, (congrFun hc t).trans (Function.update_self ..)⟩

/-- A thread outside of its critical section gets the lock that nobody has. -/
theorem vacant_holds (run : Run (system T) anyEvent es s) (vacant : ∀ u, ¬ Critical (s.main u)) :
    ∃ c curr, Moves (system T) anyEvent (es, s) c ∧ c.2.main t = .holding curr := by
  cases hm : s.main t with
  | idle => exact idle_holds run hm vacant
  | attempt old =>
    by_cases hsame : s.globalTimestamp = old
    · subst hsame
      have course₁ : Moves (system T) anyEvent (es, s) _ := .one trivial (.casWin s t hm)
      obtain ⟨c, course, hc⟩ := won_holds (run.extend course₁) (Function.update_self ..)
      exact ⟨c, _, course₁.trans course, (congrFun hc t).trans (Function.update_self ..)⟩
    · have course₁ : Moves (system T) anyEvent (es, s) _ := .one trivial (.casFail s t old hm hsame)
      have hvacant : ∀ u, ¬ Critical (Function.update s.main t .idle u) := by
        intro u hu
        rcases critical_update hu with ⟨-, hidle⟩ | ⟨-, hu⟩
        · exact hidle
        · exact vacant u hu
      obtain ⟨c, curr, course, hc⟩ := idle_holds (run.extend course₁) (Function.update_self ..) hvacant
      exact ⟨c, curr, course₁.trans course, hc⟩
  | won | polling | holding | releasing => exact absurd (hm ▸ trivial) (vacant t)

/-- From every state that is reached, every thread can get the reclaimer lock: whoever has it
gives it up, whatever the helpers are at, and the poll of the thread list ends. -/
theorem lock_available (es : List (Event T)) (s : State T) (run : Run (system T) anyEvent es s)
    (t : T) : ∃ c curr, Moves (system T) anyEvent (es, s) c ∧ c.2.main t = .holding curr := by
  obtain ⟨⟨es₁, s₁⟩, course₁, hvacant⟩ := vacates run
  obtain ⟨c, curr, course, hc⟩ := vacant_holds (t := t) (run.extend course₁) hvacant
  exact ⟨c, curr, course₁.trans course, hc⟩

/-- A reclaimer polls a thread that helps an earlier round. -/
theorem lock_available_polling : ∃ (es : List (Event Bool)) (s : State Bool) (curr : Word),
    Run (system Bool) anyEvent es s ∧ s.main true = .polling curr [false, true] ∧
      stillHelping (s.localTimestamp false) curr = true ∧
      ∃ c curr, Moves (system Bool) anyEvent (es, s) c ∧ c.2.main true = .holding curr := by
  have r₁ : Run (system Bool) anyEvent _ _ := .step (.init rfl) trivial (.listAdd initial true rfl rfl)
  have r₂ := r₁.step trivial (.listAdd _ false rfl rfl)
  have r₃ := r₂.step trivial (.threadBase _ false rfl)
  have r₄ := r₃.step trivial (.raiseRead _ false rfl)
  have r₅ := r₄.step trivial (.raisePublish _ false _ rfl)
  have r₆ := r₅.step trivial (.raiseGlobal _ false _ rfl)
  have r₇ := r₆.step trivial (.raiseFinish _ false _ _ rfl)
  have r₈ := r₇.step trivial (.tryRead _ true (by rfl) (by decide))
  have r₉ := r₈.step trivial (.casWin _ true rfl)
  have r₁₀ := r₉.step trivial (.pollStart _ true _ rfl rfl)
  exact ⟨_, _, _, r₁₀, rfl, by decide, lock_available _ _ r₁₀ true⟩

end ThreadScan.Polling
