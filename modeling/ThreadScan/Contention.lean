import ThreadScan.Storage

/-! The loop of `store_remaining_addrs`. A compare-and-swap fails only when another thread has
published a block or taken the chain since the load, so that a thread retries no more often
than others get on with their work. -/
namespace ThreadScan.Contention
open Transition Storage Rearrangement
open Reclaim (Config)

variable {T : Type*} [DecidableEq T] {cfg : Config} {es : List (Event T)} {s s' : State T} {t : T}
  {k : ℕ}

/-- The step is a compare-and-swap of the thread that fails. -/
def Fails (t : T) (s s' : State T) : Prop :=
  ∃ buf n, s.pc t = .linked buf n ∧ s'.pc t = .converted buf n

/-- A run in which `k` compare-and-swaps of the thread fail. -/
inductive Attempts (cfg : Config) (t : T) : List (Event T) → State T → ℕ → Prop
  | init (mem : Word → Mem) : Attempts cfg t [] (initial mem) 0
  | fails {es : List (Event T)} {s s' : State T} {e : Event T} {k : ℕ}
      (before : Attempts cfg t es s k) (allowed : fitting cfg es s e) (move : Step cfg s e s')
      (failed : Fails t s s') : Attempts cfg t (e :: es) s' (k + 1)
  | goes {es : List (Event T)} {s s' : State T} {e : Event T} {k : ℕ}
      (before : Attempts cfg t es s k) (allowed : fitting cfg es s e) (move : Step cfg s e s')
      (passed : ¬ Fails t s s') : Attempts cfg t (e :: es) s' k

/-- How often other threads have published a block or taken the chain. -/
def interference (t : T) : List (Event T) → ℕ
  | [] => 0
  | .publish u _ :: es | .exchange u :: es => (if u = t then 0 else 1) + interference t es
  | _ :: es => interference t es

/-- What the thread has loaded is not the head of the chain any more. -/
def Stale (s : State T) : Pc → Prop
  | .loaded _ next _ => next ≠ s.storage
  | .linked buf _ => s.mem buf 0 ≠ s.storage
  | _ => False

theorem Attempts.run (h : Attempts cfg t es s k) : Run (system cfg) (fitting cfg) es s := by
  induction h with
  | init mem => exact .init ⟨mem, rfl⟩
  | fails _ allowed move _ ih => exact ih.step allowed move
  | goes _ allowed move _ ih => exact ih.step allowed move

theorem attempts_of_run (run : Run (system cfg) (fitting cfg) es s) (t : T) :
    ∃ k, Attempts cfg t es s k := by
  induction run with
  | init start =>
    obtain ⟨mem, rfl⟩ := start
    exact ⟨0, .init mem⟩
  | @step es s s' e _ allowed move ih =>
    obtain ⟨k, hk⟩ := ih
    by_cases hf : Fails t s s'
    · exact ⟨k + 1, hk.fails allowed move hf⟩
    · exact ⟨k, hk.goes allowed move hf⟩

theorem interference_mono (t : T) (e : Event T) (es : List (Event T)) :
    interference t es ≤ interference t (e :: es) := by
  cases e <;> simp [interference]

/-- A compare-and-swap fails on a stale head. -/
theorem stale_of_fails {e : Event T} (move : Step cfg s e s') (h : Fails t s s') :
    Stale s (s.pc t) := by
  obtain ⟨buf, n, hbefore, hafter⟩ := h
  -- a thread elsewhere is another one, and leaves this one where it is
  have hother : ∀ {u : T} {m : Pc}, s'.pc = Function.update s.pc u m → u ≠ t → False := by
    intro u m hpc hut
    rw [hpc, Function.update_of_ne hut.symm, hbefore] at hafter
    cases hafter
  have hne : ∀ {u : T} {m : Pc}, s.pc u = m → m ≠ .linked buf n → u ≠ t := by
    rintro u m hu hm rfl
    exact hm (hu ▸ hbefore)
  cases move with
  | retry u buf' n' hu changed =>
    by_cases hut : u = t
    · subst hut
      rw [hu] at hbefore ⊢
      exact Ne.symm changed
    · exact (hother rfl hut).elim
  | publish u buf' n' hu =>
    by_cases hut : u = t
    · subst hut
      simp [State.move] at hafter
    · exact (hother rfl hut).elim
  | work u buf' a hu =>
    rw [hbefore] at hafter
    cases hafter
  | map u _ _ hu | exchange u _ hu | copy u _ _ _ hu | overflow u _ _ _ hu | next u _ _ _ hu
  | unmap u _ _ _ _ hu | drained u _ _ hu | store u _ _ hu | nothing u _ hu | noSpace u _ _ hu
  | convert u _ _ hu | load u _ _ hu | link u _ _ _ hu =>
    exact (hother rfl (hne hu (by simp))).elim

/-- Steps of others that leave the chain and the buffer of the thread alone. -/
theorem Stale.other (h : Stale s' (s'.pc t)) {u : T} {m : Pc}
    (hpc : s'.pc = Function.update s.pc u m) (hut : u ≠ t) (hstorage : s'.storage = s.storage)
    (hmem : ∀ b, owned (s.pc t) = some b → s'.mem b = s.mem b) : Stale s (s.pc t) := by
  rw [hpc, Function.update_of_ne hut.symm] at h
  cases hm : s.pc t with
  | loaded buf next n =>
    rw [hm] at h
    simp only [Stale, hstorage] at h
    exact h
  | linked buf n =>
    rw [hm] at h
    simp only [Stale, hstorage, hmem buf (by rw [hm]; rfl)] at h
    exact h
  | _ =>
    rw [hm] at h
    exact h.elim

/-- A head gets stale by what another thread does to the chain. -/
theorem stale_step (inv : Inv es s) {e : Event T} (move : Step cfg s e s')
    (h : Stale s' (s'.pc t)) :
    Stale s (s.pc t) ∨ interference t (e :: es) = interference t es + 1 := by
  -- a thread that does not hold a loaded head after its step is another one
  have hother : ∀ {u : T} {m : Pc}, s'.pc = Function.update s.pc u m → ¬ Stale s' m → u ≠ t := by
    rintro u m hpc hm rfl
    rw [hpc, Function.update_self] at h
    exact hm h
  have hbuffer : ∀ {u : T} {buf : Word} {a : Mem}, owned (s.pc u) = some buf → u ≠ t →
      ∀ b, owned (s.pc t) = some b → Function.update s.mem buf a b = s.mem b := by
    intro u buf a hu hut b hb
    exact Function.update_of_ne (inv.other_ne hu hut.symm hb) _ _
  have hmem : ∀ b, owned (s.pc t) = some b → s.mem b = s.mem b := fun _ _ => rfl
  cases move with
  | exchange u buf hu | publish u buf n hu =>
    have hut : u ≠ t := hother rfl id
    refine .inr ?_
    simp only [interference, if_neg hut]
    omega
  | load u buf n hu =>
    have hut : u ≠ t := hother rfl fun hs => hs rfl
    exact .inl (h.other rfl hut rfl hmem)
  | link u buf next n hu =>
    by_cases hut : u = t
    · subst hut
      simp only [State.move, Function.update_self, Stale] at h
      rw [hu]
      exact .inl h
    · exact .inl (h.other rfl hut rfl (hbuffer (by rw [hu]; rfl) hut))
  | work u buf a hu =>
    have hut : u ≠ t := by
      rintro rfl
      rw [show ({ s with mem := Function.update s.mem buf a } : State T).pc u = _ from hu] at h
      exact h
    refine .inl (h.other (u := u) (m := s.pc u) (Function.update_eq_self u s.pc).symm hut rfl ?_)
    exact hbuffer (by rw [hu]; rfl) hut
  | map u buf a hu free =>
    have hut : u ≠ t := hother rfl id
    refine .inl (h.other rfl hut rfl fun b hb => Function.update_of_ne ?_ _ _)
    rintro rfl
    have hmapped := (inv.buffers t b hb).2.1
    rw [free] at hmapped
    cases hmapped
  | copy u buf tmp n hu | convert u buf n hu =>
    have hut : u ≠ t := hother rfl id
    exact .inl (h.other rfl hut rfl (hbuffer (by rw [hu]; rfl) hut))
  | overflow | next | unmap | drained | store | nothing | noSpace | retry =>
    exact .inl (h.other rfl (hother rfl id) rfl hmem)

theorem attempts_stale (h : Attempts cfg t es s k) :
    k ≤ interference t es ∧ (Stale s (s.pc t) → k + 1 ≤ interference t es) := by
  induction h with
  | init mem => exact ⟨le_rfl, False.elim⟩
  | @fails es s s' e k before allowed move failed ih =>
    have hstale := ih.2 (stale_of_fails move failed)
    have hmono := interference_mono t e es
    obtain ⟨buf, n, -, hafter⟩ := failed
    refine ⟨by omega, fun h => ?_⟩
    rw [hafter] at h
    exact h.elim
  | @goes es s s' e k before allowed move passed ih =>
    have hmono := interference_mono t e es
    refine ⟨by omega, fun h => ?_⟩
    obtain hold | hnew := stale_step (run_inv before.run) move h
    · have := ih.2 hold
      omega
    · omega

/-- A thread that stores its leftovers goes round its loop again at most once for every block
that another thread has published and every time another one has taken the chain. -/
theorem store_retries (cfg : Config) (es : List (Event T)) (s : State T)
    (run : Run (system cfg) (fitting cfg) es s) (t : T) :
    (∃ k, Attempts cfg t es s k) ∧ ∀ k, Attempts cfg t es s k → k ≤ interference t es :=
  ⟨attempts_of_run run t, fun _ h => (attempts_stale h).1⟩

/-- Thread 1 publishes between the load and the compare-and-swap of thread 0, which fails. -/
theorem store_retries_one :
    ∃ (cfg : Config) (es : List (Event ℕ)) (s : State ℕ), Run (system cfg) (fitting cfg) es s ∧
      s.pc 0 = .converted 4096#64 1 ∧ s.storage = 8192#64 ∧ ∀ k, Attempts cfg 0 es s k → k ≤ 1 := by
  have hmax : (⟨true, 1024, 10, by simp⟩ : Config).maxPtrs = 262144 := by decide
  have run : Run (system ⟨true, 1024, 10, by simp⟩) (fitting ⟨true, 1024, 10, by simp⟩) []
      (initial fun _ _ => 0#64 : State ℕ) := .init ⟨_, rfl⟩
  have run := run.step (by trivial) (.map _ 0 4096#64 (fun _ => 16#64) rfl rfl (by decide))
  have run := run.step (by simp [fitting, contents_length, hmax]) (.store _ 0 4096#64 1 rfl)
  have run := run.step (by trivial) (.convert _ 0 4096#64 1 rfl (by decide) (by simp [hmax]))
  have run := run.step (by trivial) (.load _ 0 4096#64 1 rfl)
  have run := run.step (by trivial) (.link _ 0 4096#64 0#64 1 rfl)
  have run := run.step (by trivial) (.map _ 1 8192#64 (fun _ => 32#64) rfl rfl (by decide))
  have run := run.step (by simp [fitting, contents_length, hmax]) (.store _ 1 8192#64 1 rfl)
  have run := run.step (by trivial) (.convert _ 1 8192#64 1 rfl (by decide) (by simp [hmax]))
  have run := run.step (by trivial) (.load _ 1 8192#64 1 rfl)
  have run := run.step (by trivial) (.link _ 1 8192#64 0#64 1 rfl)
  have run := run.step (by trivial) (.publish _ 1 8192#64 1 rfl rfl)
  have run := run.step (by trivial) (.retry _ 0 4096#64 1 rfl (by decide))
  exact ⟨_, _, _, run, rfl, rfl, (store_retries _ _ _ run 0).2⟩

end ThreadScan.Contention
