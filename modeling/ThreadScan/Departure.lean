import ThreadScan.Completion

/-! What a thread leaves behind. A round walks the thread list under its lock, so a thread that
has been removed is not on the way of any walk; nobody drains its queue again, and what is in
it is never freed. -/
namespace ThreadScan.Departure
open Transition Reclaim Handshake Bookkeeping Completion

variable {T : Type*} [DecidableEq T] {cfg : Config}
  {ok : List (Event T) → State T → Event T → Prop} {es : List (Event T)} {s s' : State T}

/-- The threads a walk has not passed yet. -/
def ahead : Main T → List T
  | .popHead rest _ | .signal rest _ => rest
  | .popTail td rest _ _ => td :: rest
  | _ => []

/-- Walks are made under the lock, and stay on the list. -/
structure Walkers (s : State T) : Prop where
  locked : ∀ t, Walks (s.main t) → s.listLock = some t
  listed : ∀ t, ∀ u ∈ ahead (s.main t), u ∈ s.threadList

omit [DecidableEq T] in
theorem walks_of_ahead {m : Main T} {u : T} (h : u ∈ ahead m) : Walks m := by
  cases m with
  | popHead | popTail | signal => trivial
  | _ => exact absurd h List.not_mem_nil

omit [DecidableEq T] in
/-- While the lock is free, or another thread has it, a thread does not walk. -/
theorem Walkers.not_walks (h : Walkers s) {t : T} (free : s.listLock ≠ some t) :
    ¬ Walks (s.main t) := fun hw => free (h.locked t hw)

/-- A thread that moves without the lock, or goes on with its walk. -/
theorem Walkers.move (h : Walkers s) {t : T} {m : Main T}
    (hm : s'.main = Function.update s.main t m) (hlock : s'.listLock = s.listLock)
    (hlist : s'.threadList = s.threadList) (walks : Walks m → Walks (s.main t))
    (on : ∀ u ∈ ahead m, u ∈ ahead (s.main t)) : Walkers s' := by
  refine ⟨fun u hu => ?_, fun u v hv => ?_⟩
  · rw [hm] at hu
    rw [hlock]
    by_cases hut : u = t
    · subst hut
      rw [Function.update_self] at hu
      exact h.locked u (walks hu)
    · rw [Function.update_of_ne hut] at hu
      exact h.locked u hu
  · rw [hm] at hv
    rw [hlist]
    by_cases hut : u = t
    · subst hut
      rw [Function.update_self] at hv
      exact h.listed u v (on v hv)
    · rw [Function.update_of_ne hut] at hv
      exact h.listed u v hv

/-- A thread that gets the lock and starts at the head of the list. -/
theorem Walkers.lock (h : Walkers s) {t : T} {m : Main T} (free : s.listLock = none)
    (hm : s'.main = Function.update s.main t m) (hlock : s'.listLock = some t)
    (hlist : s'.threadList = s.threadList) (start : ∀ u ∈ ahead m, u ∈ s.threadList) :
    Walkers s' := by
  have hnone : ∀ u, ¬ Walks (s.main u) := fun u => h.not_walks (by simp [free])
  refine ⟨fun u hu => ?_, fun u v hv => ?_⟩
  · rw [hm] at hu
    by_cases hut : u = t
    · rw [hlock, hut]
    · rw [Function.update_of_ne hut] at hu
      exact absurd hu (hnone u)
  · rw [hm] at hv
    rw [hlist]
    by_cases hut : u = t
    · subst hut
      rw [Function.update_self] at hv
      exact start v hv
    · rw [Function.update_of_ne hut] at hv
      exact h.listed u v hv

/-- A thread that has walked to the end and gives the lock back. -/
theorem Walkers.unlock (h : Walkers s) {t : T} {m : Main T} (walks : Walks (s.main t))
    (hm : s'.main = Function.update s.main t m) (rests : ¬ Walks m) : Walkers s' := by
  have hnone : ∀ u, ¬ Walks (s'.main u) := by
    intro u hu
    rw [hm] at hu
    by_cases hut : u = t
    · subst hut
      rw [Function.update_self] at hu
      exact rests hu
    · rw [Function.update_of_ne hut] at hu
      have hu' := h.locked u hu
      rw [h.locked t walks] at hu'
      exact hut (Option.some.inj hu').symm
  exact ⟨fun u hu => absurd hu (hnone u), fun u v hv => absurd (walks_of_ahead hv) (hnone u)⟩

theorem Walkers.step (h : Walkers s) {e : Event T} (move : Step cfg s e s') : Walkers s' := by
  cases move with
  | goto t m _ hg =>
    refine h.move rfl rfl rfl ?_ ?_
    · generalize s.main t = m₀ at hg
      cases hg <;> exact fun hw => hw
    · generalize s.main t = m₀ at hg
      intro u hu
      cases hg <;> first | exact hu | exact List.mem_cons_of_mem _ hu
  | lockQueues t n ht _ free => exact h.lock free rfl rfl rfl fun u hu => hu
  | lockSignal t ht _ free => exact h.lock free rfl rfl rfl fun u hu => hu
  | unlockQueues t n ht => exact h.unlock (by rw [ht]; trivial) rfl id
  | unlockSignal t c ht => exact h.unlock (by rw [ht]; trivial) rfl id
  | popTail t td rest n k ht | kill t td rest c ht =>
    refine h.move rfl rfl rfl (fun _ => by rw [ht]; trivial) fun u hu => ?_
    rw [ht]
    exact List.mem_cons_of_mem td hu
  | create t _ free =>
    exact ⟨h.locked, fun u v hv => List.mem_cons_of_mem t (h.listed u v hv)⟩
  | remove t _ _ free =>
    have hnone : ∀ u, ¬ Walks (s.main u) := fun u => h.not_walks (by simp [free])
    exact ⟨fun u hu => absurd hu (hnone u), fun u v hv => absurd (walks_of_ahead hv) (hnone u)⟩
  | push | acquire | assign | exchange | leftover | count | sort | scanMap | reset | search | leave
  | release | verify | keep | free | randomize | store =>
    exact h.move rfl rfl rfl False.elim fun u hu => absurd hu List.not_mem_nil
  | _ => exact ⟨h.locked, h.listed⟩

theorem run_walkers (run : Run (system cfg) ok es s) : Walkers s := by
  refine run.invariant (I := fun _ s => Walkers s) ?_ fun _ _ _ _ _ inv _ move => inv.step move
  rintro s ⟨map, rfl⟩
  exact ⟨fun t h => h.elim, fun t u h => by cases h⟩

/-! ### What stays behind -/

/-- The thread is off the list for good. -/
def Gone : Life → Prop
  | .removed | .terminated => True
  | _ => False

/-- A thread that is gone stays gone, and its queue as it was. -/
theorem Gone.step (run : Run (system cfg) ok es s) {t : T} (gone : Gone (s.life t)) {e : Event T}
    (move : Step cfg s e s') : Gone (s'.life t) ∧ s'.queue t = s.queue t := by
  have hother : ∀ {u : T} {l : Life}, s.life u = l → ¬ Gone l → t ≠ u := by
    rintro u l hu hnot rfl
    exact hnot (hu ▸ gone)
  cases move with
  | push u _ hu awake alive =>
    exact ⟨gone, Function.update_of_ne (hother alive id) _ _⟩
  | popTail r td rest n k hr =>
    have htd : t ≠ td := by
      rintro rfl
      have hlisted := (run_walkers run).listed r t (by rw [hr]; exact List.mem_cons_self)
      obtain hl | hl | hl := ((run_roster run).listed t).mp hlisted <;> exact (hl ▸ gone :)
    exact ⟨gone, Function.update_of_ne htd _ _⟩
  | create u hu | activate u _ hu | exit u hu | remove u hu =>
    refine ⟨?_, rfl⟩
    dsimp only
    rw [Function.update_of_ne (hother hu id)]
    exact gone
  | terminate u hu =>
    refine ⟨?_, rfl⟩
    dsimp only
    by_cases htu : t = u
    · rw [htu, Function.update_self]
      trivial
    · rw [Function.update_of_ne htu]
      exact gone
  | _ => exact ⟨gone, rfl⟩

/-- An address in the queue of a thread that is gone is held nowhere else. -/
theorem Gone.apart (collects : Collects ok) (run : Run (system cfg) ok es s) {t : T} {a : Word}
    (left : a ∈ s.queue t) (nonnull : a ≠ 0#64) (p : Place T) (h : a ∈ place s p) :
    p = .queue t := by
  have haddress : ∀ q, a ∈ place s q → a ∈ addresses s q := by
    intro q hq
    exact List.mem_filter.mpr ⟨hq, by simpa using nonnull⟩
  exact (run_kept collects run).exclusive.apart p (.queue t) a (haddress p h)
    (haddress (.queue t) left)

/-- No run goes on from such an address to its free. -/
theorem gone_moves (collects : Collects ok) {es₀ : List (Event T)} {s₀ : State T}
    (run : Run (system cfg) ok es₀ s₀) {t : T} (gone : Gone (s₀.life t)) {a : Word}
    (left : a ∈ s₀.queue t) (nonnull : a ≠ 0#64) {c : List (Event T) × State T}
    (course : Moves (system cfg) ok (es₀, s₀) c) :
    Gone (c.2.life t) ∧ a ∈ c.2.queue t ∧ ∃ fs, c.1 = fs ++ es₀ ∧ ∀ r, Event.free r a ∉ fs := by
  induction course with
  | refl => exact ⟨gone, left, [], rfl, by simp⟩
  | @tail b d hmoves last ih =>
    obtain ⟨e, he, allowed, move⟩ := last
    obtain ⟨hgone, hleft, fs, hfs, hnone⟩ := ih
    have run₁ : Run (system cfg) ok b.1 b.2 := run.extend hmoves
    have run₂ : Run (system cfg) ok (e :: b.1) d.2 := run₁.step allowed move
    obtain ⟨hgone', hqueue⟩ := hgone.step run₁ move
    have hleft' : a ∈ d.2.queue t := by
      rw [hqueue]
      exact hleft
    have hlive : Live a (e :: b.1) := (run_kept collects run₂).live a
      (held_addresses.mpr ⟨nonnull, .queue t, hleft'⟩)
    refine ⟨hgone', hleft', e :: fs, by rw [he, hfs, List.cons_append], fun r hr => ?_⟩
    obtain rfl | hr := List.mem_cons.mp hr
    · exact hlive.1 rfl
    · exact hnone r hr

/-- What a thread leaves in its queue when it is removed stays there forever: in no
continuation of the run is it on the list of a round, in the storage or freed. -/
theorem exit_leaks (cfg : Config) (ok : List (Event T) → State T → Event T → Prop)
    (collects : Collects ok) (es₀ : List (Event T)) (s₀ : State T)
    (run : Run (system cfg) ok es₀ s₀) (t : T) (gone : Gone (s₀.life t)) (a : Word)
    (left : a ∈ s₀.queue t) (nonnull : a ≠ 0#64) (es : List (Event T)) (s : State T)
    (course : Moves (system cfg) ok (es₀, s₀) (es, s)) :
    a ∈ s.queue t ∧ (∀ p, a ∈ place s p → p = .queue t) ∧
      ∃ fs, es = fs ++ es₀ ∧ ∀ r, Event.free r a ∉ fs := by
  obtain ⟨-, hleft, hnever⟩ := gone_moves collects run gone left nonnull course
  have run' : Run (system cfg) ok es s := run.extend course
  exact ⟨hleft, Gone.apart collects run' hleft nonnull, hnever⟩

/-- A thread exits after its first collect. -/
theorem removed_first : ∃ (es : List (Event Unit)) (s : State Unit),
    Run (system (Progress.leastConfig false)) Coverage.honours es s ∧ s.life () = .removed ∧
      s.handler () = none ∧ s.pending () = 0 ∧ s.queue () = [4096#64] := by
  have run₀ : Run (system (Progress.leastConfig false)) Coverage.honours []
      (initial (T := Unit) fun _ => 0#64) := .init ⟨_, rfl⟩
  have run₁ := Progress.start_run Coverage.lets_honours run₀ () [] rfl rfl
    fun _ _ h => by simp [Live] at h
  have run₂ := run₁.step (show Coverage.honours _ _ (Event.push () 4096#64) from
    ⟨by decide, by simp [Live]⟩) (.push _ () 4096#64 rfl rfl (by simp) (by decide))
  have run₃ := run₂.step (Coverage.lets_honours _ _ .other trivial) (.goto _ () .idle rfl (by
    simp only [Function.update_self]
    exact .notFull (by simp [threadscanQueueIsFull, initial, Progress.leastConfig])))
  have run₄ := run₃.step (show Coverage.honours _ _ (Event.exit ()) from trivial)
    (.exit _ () (by simp) rfl (by simp))
  have run₅ := run₄.step (Coverage.lets_honours _ _ .other trivial)
    (.remove _ () (by simp) rfl rfl)
  exact ⟨_, _, run₅, by simp only [Function.update_self], rfl, rfl, by simp [initial]⟩

/-- It leaks the address. -/
theorem exit_leaks_first : ∃ (es : List (Event Unit)) (s s' : State Unit),
    Run (system (Progress.leastConfig false)) Coverage.honours es s ∧ s.life () = .removed ∧
      Step (Progress.leastConfig false) s .other s' ∧ s'.life () = .terminated ∧
      4096#64 ∈ s'.queue () := by
  obtain ⟨es, s, run, hlife, hawake, hpending, hqueue⟩ := removed_first
  have move : Step (Progress.leastConfig false) s .other _ :=
    .terminate s () hlife hawake hpending
  have hcourse : Moves (system (Progress.leastConfig false)) Coverage.honours (es, s) (_, _) :=
    .one (Coverage.lets_honours es s .other trivial) move
  refine ⟨es, s, _, run, hlife, move, by simp only [Function.update_self], ?_⟩
  exact (exit_leaks _ _ Precision.collects_honours es s run () (by rw [hlife]; trivial) 4096#64
    (by rw [hqueue]; exact List.mem_cons_self) (by decide) _ _ hcourse).1

end ThreadScan.Departure
