import ThreadScan.Records

/-! Calls of `pthread_create` and `pthread_join` whose underlying call fails. What such a call
has done is read off the history: its own events are set aside, those of other threads stay. -/
namespace ThreadScan.FailedCalls
open Transition LinkedList Lifecycle
open Reclaim (Config)

variable {R K : Type*} [DecidableEq R]

/-- The thread that an event is a step of. -/
def author : Event R K → Option R
  | .new t _ | .mapStack t _ | .add t _ | .count t | .refuse t | .spawn t _ _ | .fail t _
  | .unmapStack t _ | .free t _ | .remove t | .stage t | .uncount t | .join t _ | .joinError t
  | .unstage t _ => some t
  | .other => none

/-- The events of other threads. -/
def others (t : R) (es : List (Event R K)) : List (Event R K) :=
  es.filter fun e => decide (author e ≠ some t)

variable {cfg : Config} {ok : List (Event R K) → State R K → Event R K → Prop}
  {es evs : List (Event R K)} {s s' s₁ : State R K} {e : Event R K} {t td : R} {m : Pc R K}

/-! ### `pthread_create` -/

/-- Between the count and the return of `pthread_create`. -/
def InCreate : Pc R K → Prop
  | .counted _ | .created _ _ | .stacked _ | .added _ | .failed _ | .failedFree _ => True
  | _ => False

/-- A call of `pthread_create` leaves nothing behind: `es` is the history at the call and `evs`
what has happened since. -/
structure Undone (t : R) (es evs : List (Event R K)) (s : State R K) : Prop where
  list : listed (evs ++ es) = listed (others t evs ++ es)
  count : counter (evs ++ es) = counter (others t evs ++ es)
  blocks : blocks (evs ++ es) = blocks (others t evs ++ es)
  alive : ∀ r ∈ listed (evs ++ es), s.mapped (.threadData r) = true
  asserted : s.pc t ≠ .abort

/-- The steps of a call of `pthread_create`. -/
inductive CreateStep (cfg : Config) (s s' : State R K) (t : R) : Pc R K → Event R K → Pc R K → Prop
  | new (td : R) (b : Bool) : CreateStep cfg s s' t (.counted b) (.new t td) (.created td b)
  | userStack (td : R) : CreateStep cfg s s' t (.created td true) .other (.stacked td)
  | ownStack (td : R) : CreateStep cfg s s' t (.created td false) (.mapStack t td) (.stacked td)
  | add (td : R) : CreateStep cfg s s' t (.stacked td) (.add t td) (.added td)
  | spawn (td : R) (tid : K) : CreateStep cfg s s' t (.added td) (.spawn t td tid) .user
  | fail (td : R) : CreateStep cfg s s' t (.added td) (.fail t td) (.failed td)
  | failStack (td : R) : CreateStep cfg s s' t (.failed td) (.unmapStack t td) (.failedFree td)
  | failNoStack (td : R) : CreateStep cfg s s' t (.failed td) .other (.failedFree td)
  | failAssert (td : R) (debug : cfg.debug = true) :
      CreateStep cfg s s' t (.failedFree td) .other .abort
  | failFree (td : R) (pass : cfg.debug = true → s.refCount td = 0)
      (gone : s'.mapped (.threadData td) = false) :
      CreateStep cfg s s' t (.failedFree td) (.free t td) .user

theorem create_step (inv : Inv es s) (call : InCreate (s.pc t)) (move : Step cfg s e s') :
    s'.pc t = s.pc t ∧ author e ≠ some t ∨ CreateStep cfg s s' t (s.pc t) e (s'.pc t) := by
  -- a step of a thread that is not in a call of `pthread_create`
  have hother : ∀ {u : R} {m : Pc R K}, s'.pc = Function.update s.pc u m → ¬ InCreate (s.pc u) →
      author e = some u ∨ author e = none → s'.pc t = s.pc t ∧ author e ≠ some t := by
    intro u m hpc hu hauthor
    have hne : t ≠ u := by
      rintro rfl
      exact hu call
    refine ⟨by rw [hpc, Function.update_of_ne hne], ?_⟩
    rcases hauthor with h | h <;> rw [h] <;> simp [Ne.symm hne]
  -- a step of the call, or of one by another thread
  have hcreate : ∀ {u : R} {m : Pc R K}, s'.pc = Function.update s.pc u m →
      author e = some u ∨ author e = none → (u = t → CreateStep cfg s s' t (s.pc t) e m) →
      s'.pc t = s.pc t ∧ author e ≠ some t ∨ CreateStep cfg s s' t (s.pc t) e (s'.pc t) := by
    intro u m hpc hauthor hstep
    by_cases hu : u = t
    · subst hu
      rw [hpc, Function.update_self]
      exact .inr (hstep rfl)
    · refine .inl ⟨by rw [hpc, Function.update_of_ne (Ne.symm hu)], ?_⟩
      rcases hauthor with h | h <;> rw [h] <;> simp [hu]
  cases move with
  | new u td b h => exact hcreate rfl (.inl rfl) fun hu => hu ▸ h ▸ .new td b
  | userStack u td h => exact hcreate rfl (.inr rfl) fun hu => hu ▸ h ▸ .userStack td
  | ownStack u td h => exact hcreate rfl (.inl rfl) fun hu => hu ▸ h ▸ .ownStack td
  | add u td h => exact hcreate rfl (.inl rfl) fun hu => hu ▸ h ▸ .add td
  | fail u td h => exact hcreate rfl (.inl rfl) fun hu => hu ▸ h ▸ .fail td
  | failStack u td h => exact hcreate rfl (.inl rfl) fun hu => hu ▸ h ▸ .failStack td
  | failNoStack u td h => exact hcreate rfl (.inr rfl) fun hu => hu ▸ h ▸ .failNoStack td
  | failAssert u td h debug =>
    exact hcreate rfl (.inr rfl) fun hu => hu ▸ h ▸ .failAssert td debug
  | failFree u td h pass =>
    refine hcreate rfl (.inl rfl) fun hu => ?_
    subst hu
    rw [h]
    exact .failFree td pass (by simp [Records.setRecord_threadData])
  | spawn u td tid detached h =>
    have hb : s.pc td = .unborn := (h ▸ inv.position u : At es s u (.added td)).2.2
    have hne : t ≠ td := by
      rintro rfl
      rw [hb] at call
      exact call
    by_cases hu : u = t
    · subst hu
      right
      simp only [Function.update_of_ne hne, Function.update_self, h]
      exact .spawn td tid
    · left
      simp [author, hne, hu, Ne.symm hu]
  | collect u h | walkPop u _ _ h =>
    exact .inl ⟨rfl, by simp [author]⟩
  | fault u r h =>
    refine .inl (hother rfl (fun hc => ?_) (.inr rfl))
    generalize s.pc u = m at h hc
    cases m <;> first | exact hc.elim | exact absurd h (by simp [Pc.reads])
  | load u h | loadAdd u h | count u _ h | refuse u h | removeHead u h | removeLink u _ h
  | stage u h | uncount u h | join u _ h | joinError u _ h | cleanHead u _ _ _ h
  | cleanLink u _ _ _ _ h | cleanStack u _ _ h | cleanFree u _ _ h =>
    exact .inl (hother rfl (by simp [h, InCreate]) (.inl rfl))
  | base u h | walk u h | walkNext u _ h | walkEnd u h | exit u h | removeWalk u _ h
  | removeNone u h | removeNext u _ _ h | removeLost u _ h | decrRef u h | leave u h
  | clean u _ _ h | cleanNext u _ _ _ _ h | cleanLost u _ _ _ h | cleanRace u _ _ h
  | cleanNoStack u _ _ h | cleanAssert u _ _ h =>
    exact .inl (hother rfl (by simp [h, InCreate]) (.inr rfl))

/-- A record in the hands of its creator has the one reference it was made with. -/
theorem held_refs (run : Run (system cfg) ok es s) :
    ∀ u td, (s.pc u).holds = some td → s.refCount td = 1 := by
  induction run with
  | init start =>
    obtain ⟨main, self, tid, rfl⟩ := start
    intro u td h
    simp only [initial, Function.update_apply] at h
    split_ifs at h <;> exact absurd h (by simp [Pc.holds])
  | @step es s s' e run _ move ih =>
    have inv := run_inv run
    -- a step that neither makes a record nor counts references
    have hkeep : ∀ {t : R} {m : Pc R K}, s'.pc = Function.update s.pc t m →
        s'.refCount = s.refCount → (∀ td, m.holds = some td → (s.pc t).holds = some td) →
        ∀ u td, (s'.pc u).holds = some td → s'.refCount td = 1 := by
      intro t m hpc href hm u td h
      rw [href]
      rw [hpc] at h
      by_cases hu : u = t
      · subst hu
        rw [Function.update_self] at h
        exact ih u td (hm td h)
      · rw [Function.update_of_ne hu] at h
        exact ih u td h
    -- a step that counts the references of a thread's own record
    have hown : ∀ {t : R} {m : Pc R K}, s'.pc = Function.update s.pc t m → m.holds = none →
        s.pc t ≠ .unborn → (∀ r, r ≠ t → s'.refCount r = s.refCount r) →
        ∀ u td, (s'.pc u).holds = some td → s'.refCount td = 1 := by
      intro t m hpc hm hborn href u td h
      rw [hpc] at h
      by_cases hu : u = t
      · subst hu
        rw [Function.update_self, hm] at h
        exact absurd h (by simp)
      · rw [Function.update_of_ne hu] at h
        rw [href td]
        · exact ih u td h
        · rintro rfl
          exact hborn (inv.held_unborn h)
    cases move with
    | load t ht => exact hown rfl rfl (by simp [ht]) fun r hr => Function.update_of_ne hr _ _
    | decrRef t ht =>
      refine hown rfl ?_ (by simp [ht]) fun r hr => Function.update_of_ne hr _ _
      split_ifs <;> rfl
    | new t td' b ht unborn unused =>
      intro u td h
      by_cases htd : td = td'
      · simp [htd]
      · have hu : u ≠ t := by
          rintro rfl
          refine htd ?_
          simpa [State.move, Pc.holds, eq_comm] using h
        have hold : (s.pc u).holds = some td := by simpa [State.move, hu] using h
        simpa [htd] using ih u td hold
    | spawn t td' tid detached ht =>
      intro u td h
      have hu : u ≠ td' ∧ u ≠ t := by
        constructor <;> rintro rfl
        · simp [Pc.holds] at h
        · by_cases hne : u = td'
          · simp [hne, Pc.holds] at h
          · simp [hne, Pc.holds] at h
      exact ih u td (by simpa [hu.1, hu.2] using h)
    | collect | walkPop => exact ih
    | userStack t td ht | ownStack t td ht | add t td ht | fail t td ht | failStack t td ht
    | failNoStack t td ht =>
      exact hkeep (t := t) rfl rfl (by simp [ht, Pc.holds])
    | _ => exact hkeep rfl rfl (by simp [Pc.holds])

omit [DecidableEq R] in
theorem counter_cons (e : Event R K) :
    ∃ k, ∀ es : List (Event R K), counter (e :: es) = counter es + k := by
  cases e with
  | count | refuse => exact ⟨1, fun _ => rfl⟩
  | uncount => exact ⟨-1, fun _ => rfl⟩
  | _ => exact ⟨0, fun _ => (add_zero _).symm⟩

theorem others_cons_ne (h : author e ≠ some t) : others t (e :: evs) = e :: others t evs := by
  simp [others, h]

theorem others_cons_eq (h : author e = some t) : others t (e :: evs) = others t evs := by
  simp [others, h]

/-- The run of a call of `pthread_create` since it was counted at `es`. -/
structure Course (cfg : Config) (t : R) (es h : List (Event R K)) (s : State R K) : Prop where
  run : Run (system cfg) anyEvent h s
  since : ∃ evs, h = evs ++ es ∧ counter h = counter (others t evs ++ es) + 1 ∧
    ∀ td, .fail t td ∈ evs → s.pc t = .failed td ∨ s.pc t = .failedFree td ∨
      ¬ InCreate (s.pc t) ∧ td ∈ listed h ∧ (cfg.debug = true → s.pc t = .abort) ∧
        (s.pc t ≠ .abort → s.mapped (.threadData td) = false)

theorem Course.step (h : Course cfg t es evs s) (call : InCreate (s.pc t))
    (move : Step cfg s e s') : Course cfg t es (e :: evs) s' := by
  have inv := run_inv h.run
  obtain ⟨evs, rfl, hcount, hfailed⟩ := h.since
  obtain ⟨hsame, hauthor⟩ | hstep := create_step inv call move
  · refine ⟨h.run.step trivial move, e :: evs, rfl, ?_, fun td hmem => ?_⟩
    · obtain ⟨k, hk⟩ := counter_cons e
      rw [others_cons_ne hauthor, List.cons_append, hk, hk, hcount]
      omega
    · have hmem' : .fail t td ∈ evs := by
        refine (List.mem_cons.mp hmem).resolve_left fun he => hauthor ?_
        rw [← he]
        rfl
      rw [hsame]
      rcases hfailed td hmem' with hf | hf | ⟨hn, -⟩
      · exact .inl hf
      · exact .inr (.inl hf)
      · exact absurd call hn
  · have hat := inv.position t
    have hrefs := held_refs h.run t
    refine ⟨h.run.step trivial move, e :: evs, rfl, ?_, fun td hmem => ?_⟩
    · generalize s.pc t = m at hstep
      generalize s'.pc t = m' at hstep
      cases hstep with
      | userStack | failNoStack | failAssert =>
        rw [others_cons_ne (by simp [author])]
        exact hcount
      | _ =>
        rw [others_cons_eq rfl]
        exact hcount
    · have hold := hfailed td
      generalize s.pc t = m at hstep hat hrefs call hold
      generalize s'.pc t = m' at hstep
      cases hstep with
      | fail td' =>
        rcases List.mem_cons.mp hmem with he | hmem
        · injection he with _ he
          exact .inl (by rw [he])
        · rcases hold hmem with hf | hf | ⟨hn, -⟩
          · exact absurd hf (by simp)
          · exact absurd hf (by simp)
          · exact absurd call hn
      | new | userStack | ownStack | add | spawn =>
        rcases hold (by simpa using hmem) with hf | hf | ⟨hn, -⟩
        · exact absurd hf (by simp)
        · exact absurd hf (by simp)
        · exact absurd call hn
      | failStack td' | failNoStack td' =>
        rcases hold (by simpa using hmem) with hf | hf | ⟨hn, -⟩
        · injection hf with hf
          exact .inr (.inl (by rw [hf]))
        · exact absurd hf (by simp)
        · exact absurd call hn
      | failAssert td' debug =>
        rcases hold (by simpa using hmem) with hf | hf | ⟨hn, -⟩
        · exact absurd hf (by simp)
        · injection hf with hf
          subst hf
          exact .inr (.inr ⟨id, hat.2.1.1, fun _ => rfl, fun hne => absurd rfl hne⟩)
        · exact absurd call hn
      | failFree td' pass gone =>
        rcases hold (by simpa using hmem) with hf | hf | ⟨hn, -⟩
        · exact absurd hf (by simp)
        · injection hf with hf
          subst hf
          refine .inr (.inr ⟨id, hat.2.1.1, fun hd => ?_, fun _ => gone⟩)
          have := pass hd
          rw [hrefs td' rfl] at this
          exact absurd this (by simp)
        · exact absurd call hn

/-- Thread `t` does not leave its call of `pthread_create`. -/
def inCreate (t : R) (_ : List (Event R K)) (s : State R K) (_ : Event R K) : Prop :=
  InCreate (s.pc t)

theorem Course.moves {c d : List (Event R K) × State R K} (h : Course cfg t es c.1 c.2)
    (course : Moves (system cfg) (inCreate t) c d) : Course cfg t es d.1 d.2 := by
  induction course with
  | refl => exact h
  | tail _ last ih =>
    obtain ⟨e, hd, call, move⟩ := last
    rw [hd]
    exact ih.step call move

/-- A call that has failed and ended has left a count behind and its record on the list; the
record is released, or the assertion on its references has failed. -/
theorem failed_create_leaves (run : Run (system cfg) anyEvent es s)
    (call : Step cfg s (.count t) s₁)
    (course : Moves (system cfg) (inCreate t) (.count t :: es, s₁) (evs ++ es, s'))
    (failed : .fail t td ∈ evs) (ended : ¬ InCreate (s'.pc t)) :
    counter (evs ++ es) = counter (others t evs ++ es) + 1 ∧ td ∈ listed (evs ++ es) ∧
      (cfg.debug = true → s'.pc t = .abort) ∧
      (s'.pc t ≠ .abort → s'.mapped (.threadData td) = false) := by
  have hstart : Course cfg t es (.count t :: es) s₁ := by
    refine ⟨run.step trivial call, [.count t], rfl, ?_, by simp⟩
    rw [others_cons_eq rfl]
    rfl
  obtain ⟨evs', heq, hcount, hfailed⟩ := (hstart.moves course).since
  obtain rfl := List.append_cancel_right heq
  rcases hfailed td failed with h | h | ⟨-, hlisted, hdebug, hgone⟩
  · exact absurd (by rw [h]; trivial) ended
  · exact absurd (by rw [h]; trivial) ended
  · exact ⟨hcount, hlisted, hdebug, hgone⟩

/-- No failing call of `pthread_create` leaves the library as it was. -/
theorem failed_create_not_undone (run : Run (system cfg) anyEvent es s)
    (call : Step cfg s (.count t) s₁)
    (course : Moves (system cfg) (inCreate t) (.count t :: es, s₁) (evs ++ es, s'))
    (failed : .fail t td ∈ evs) (ended : ¬ InCreate (s'.pc t)) : ¬ Undone t es evs s' := by
  intro undone
  obtain ⟨hcount, -⟩ := failed_create_leaves run call course failed ended
  have := undone.count
  omega

/-- What the main thread leaves in the history that fails to create thread 1, on a stack of the
library's. -/
def failedCreate : List (Event ℕ ℕ) :=
  [.free 0 1, .unmapStack 0 1, .fail 0 1, .add 0 1, .mapStack 0 1, .new 0 1, .count 0]

theorem failed_create_run (cfg : Config) (release : cfg.debug = false) :
    ∃ (es : List (Event ℕ ℕ)) (s₁ s' : State ℕ ℕ), Run (system cfg) anyEvent es Records.started ∧
      Step cfg Records.started (.count 0) s₁ ∧
      Moves (system cfg) (inCreate 0) (.count 0 :: es, s₁) (failedCreate ++ es, s') ∧
      s'.pc 0 = .user := by
  have free : ∀ (es : List (Event ℕ ℕ)) (s : State ℕ ℕ) (e : Event ℕ ℕ), Records.lawful es s e →
      (∀ t, e ≠ .stage t) → anyEvent es s e := fun _ _ _ _ _ => trivial
  obtain ⟨es, run⟩ := Records.started_run free cfg
  have call : Step cfg Records.started (.count 0) _ := .count _ 0 false rfl (by decide)
  have course : Moves (system cfg) (inCreate 0) (.count 0 :: es, _) (.count 0 :: es, _) :=
    .refl (_, { Records.started.move 0 (.counted false) with threadCount := 2 })
  have course := course.tail trivial (.new _ 0 1 false rfl rfl rfl)
  have course := course.tail trivial (.ownStack _ 0 1 rfl)
  have course := course.tail trivial (.add _ 0 1 rfl rfl)
  have course := course.tail trivial (.fail _ 0 1 rfl)
  have course := course.tail trivial (.failStack _ 0 1 rfl rfl)
  have course := course.tail trivial
    (.failFree _ 0 1 rfl fun hd => absurd (release.symm.trans hd) (by simp))
  exact ⟨es, _, _, run, call, course, rfl⟩

/-- A call that fails in an optimised build. -/
theorem failed_create_not_undone_first :
    ∃ (cfg : Config) (es : List (Event ℕ ℕ)) (s s' : State ℕ ℕ), Run (system cfg) anyEvent es s ∧
      s.pc 0 = .user ∧ s'.pc 0 = .user ∧ ¬ Undone 0 es failedCreate s' := by
  obtain ⟨es, s₁, s', run, call, course, returned⟩ :=
    failed_create_run ⟨false, 1024, 10, by simp⟩ rfl
  exact ⟨_, es, _, s', run, rfl, returned, failed_create_not_undone run call course
    (show .fail 0 1 ∈ failedCreate by simp [failedCreate]) (by simp [returned, InCreate])⟩

/-- After it the count is 2, with one thread there is. -/
theorem failed_create_counted :
    ∃ (cfg : Config) (es : List (Event ℕ ℕ)) (s s₁ s' : State ℕ ℕ),
      Run (system cfg) anyEvent es s ∧ Step cfg s (.count 0) s₁ ∧
      Moves (system cfg) (inCreate 0) (.count 0 :: es, s₁) (failedCreate ++ es, s') ∧
      .fail 0 1 ∈ failedCreate ∧ s'.pc 0 = .user ∧ ¬ Undone 0 es failedCreate s' := by
  obtain ⟨es, s₁, s', run, call, course, returned⟩ :=
    failed_create_run ⟨false, 1024, 10, by simp⟩ rfl
  refine ⟨_, es, _, s₁, s', run, call, course, by simp [failedCreate], returned, fun undone => ?_⟩
  have hcount := undone.count
  simp [failedCreate, others, author, counter] at hcount

/-! ### `pthread_join` -/

/-- In a call of `pthread_join` after its underlying join has failed. -/
def InFailedJoin : Pc R K → Prop
  | .joined _ target | .cleaning _ target _ _ | .cleaned target _ | .freeing target _ =>
    target = none
  | _ => False

/-- A call of `pthread_join` returns and has released nothing: the staged list, the stacks and
the records change by these events only. -/
structure Kept (t : R) (evs : List (Event R K)) (s : State R K) : Prop where
  returned : s.pc t = .user
  staged : ∀ u, .unstage t u ∉ evs
  stack : ∀ u, .unmapStack t u ∉ evs
  record : ∀ u, .free t u ∉ evs
  ahead : s.pc t ≠ .crashed

/-- The steps of such a call. -/
inductive FailedJoinStep (t : R) : Pc R K → Event R K → Pc R K → Prop
  | walk (m m' : Pc R K) (h' : InFailedJoin m') : FailedJoinStep t m .other m'
  | unstage (m m' : Pc R K) (u : R) (h' : InFailedJoin m') : FailedJoinStep t m (.unstage t u) m'
  | unmapStack (m m' : Pc R K) (u : R) (h' : InFailedJoin m') :
      FailedJoinStep t m (.unmapStack t u) m'
  | free (m : Pc R K) (u : R) : FailedJoinStep t m (.free t u) .user
  | stop (m m' : Pc R K) (h' : m' = .crashed ∨ m' = .fatal ∨ m' = .abort) :
      FailedJoinStep t m .other m'

theorem failed_join_step (inv : Inv es s) (call : InFailedJoin (s.pc t)) (move : Step cfg s e s') :
    s'.pc t = s.pc t ∨ FailedJoinStep t (s.pc t) e (s'.pc t) := by
  have hcall : ∀ {u : R} {m : Pc R K}, s'.pc = Function.update s.pc u m →
      (InFailedJoin (s.pc u) → u = t → FailedJoinStep t (s.pc u) e m) →
      s'.pc t = s.pc t ∨ FailedJoinStep t (s.pc t) e (s'.pc t) := by
    intro u m hpc hstep
    by_cases hu : u = t
    · subst hu
      rw [hpc, Function.update_self]
      exact .inr (hstep call rfl)
    · exact .inl (by rw [hpc, Function.update_of_ne (Ne.symm hu)])
  -- a step that is not of a failed join
  have hother : ∀ {u : R} {m : Pc R K}, s'.pc = Function.update s.pc u m → ¬ InFailedJoin (s.pc u) →
      s'.pc t = s.pc t ∨ FailedJoinStep t (s.pc t) e (s'.pc t) := fun hpc hu =>
    hcall hpc fun h => absurd h hu
  cases move with
  | clean u tid tg h | cleanNext u tid tg last r h | cleanNoStack u tg r h =>
    refine hcall rfl fun hc _ => .walk _ _ ?_
    rw [h] at hc
    exact hc
  | cleanHead u tid tg r h | cleanLink u tid tg last r h =>
    refine hcall rfl fun hc hu => hu ▸ .unstage _ _ r ?_
    rw [h] at hc
    exact hc
  | cleanStack u tg r h =>
    refine hcall rfl fun hc hu => hu ▸ .unmapStack _ _ r ?_
    rw [h] at hc
    exact hc
  | cleanFree u tg r h => exact hcall rfl fun _ hu => hu ▸ .free _ r
  | cleanLost u tid tg last h | fault u r h => exact hcall rfl fun _ _ => .stop _ _ (.inl rfl)
  | cleanRace u tg r h => exact hcall rfl fun _ _ => .stop _ _ (.inr (.inl rfl))
  | cleanAssert u tg r h => exact hcall rfl fun _ _ => .stop _ _ (.inr (.inr rfl))
  | spawn u td tid detached h =>
    have hb : s.pc td = .unborn := (h ▸ inv.position u : At es s u (.added td)).2.2
    refine .inl ?_
    have hne : t ≠ td := by
      rintro rfl
      rw [hb] at call
      exact call
    have hu : t ≠ u := by
      rintro rfl
      rw [h] at call
      exact call
    simp [hne, hu]
  | collect u h | walkPop u _ _ h => exact .inl rfl
  | load u h | loadAdd u h | base u h | count u _ h | refuse u h | new u _ _ h | userStack u _ h
  | ownStack u _ h | add u _ h | fail u _ h | failStack u _ h | failNoStack u _ h
  | failAssert u _ h | failFree u _ h | walk u h | walkNext u _ h | walkEnd u h | exit u h
  | removeHead u h | removeWalk u _ h | removeNone u h | removeNext u _ _ h | removeLink u _ h
  | removeLost u _ h | decrRef u h | stage u h | uncount u h | leave u h | join u _ h
  | joinError u _ h =>
    exact hother rfl (by simp [h, InFailedJoin])

/-- Thread `t` does not leave its failed call of `pthread_join`. -/
def inFailedJoin (t : R) (_ : List (Event R K)) (s : State R K) (_ : Event R K) : Prop :=
  InFailedJoin (s.pc t)

/-- The run of a failed join since `es`: it goes on, has stopped the process, or has released
a record. -/
structure JoinCourse (cfg : Config) (t : R) (es h : List (Event R K)) (s : State R K) : Prop where
  run : Run (system cfg) anyEvent h s
  since : ∃ evs, h = evs ++ es ∧ (InFailedJoin (s.pc t) ∨
    (s.pc t = .crashed ∨ s.pc t = .fatal ∨ s.pc t = .abort) ∨ ∃ u, .free t u ∈ evs)

theorem JoinCourse.step {h : List (Event R K)} (course : JoinCourse cfg t es h s)
    (call : InFailedJoin (s.pc t)) (move : Step cfg s e s') : JoinCourse cfg t es (e :: h) s' := by
  obtain ⟨evs, rfl, -⟩ := course.since
  refine ⟨course.run.step trivial move, e :: evs, rfl, ?_⟩
  rcases failed_join_step (run_inv course.run) call move with hsame | hstep
  · exact .inl (hsame ▸ call)
  · generalize s'.pc t = m' at hstep
    cases hstep with
    | walk _ h' | unstage _ _ h' | unmapStack _ _ h' => exact .inl h'
    | free u => exact .inr (.inr ⟨u, List.mem_cons_self⟩)
    | stop _ h' => exact .inr (.inl h')

theorem JoinCourse.moves {c d : List (Event R K) × State R K} (h : JoinCourse cfg t es c.1 c.2)
    (course : Moves (system cfg) (inFailedJoin t) c d) : JoinCourse cfg t es d.1 d.2 := by
  induction course with
  | refl => exact h
  | tail _ last ih =>
    obtain ⟨e, hd, call, move⟩ := last
    rw [hd]
    exact ih.step call move

/-- No failing call of `pthread_join` leaves the records as they were. -/
theorem failed_join_releases (run : Run (system cfg) anyEvent es s)
    (call : Step cfg s (.joinError t) s₁)
    (course : Moves (system cfg) (inFailedJoin t) (.joinError t :: es, s₁) (evs ++ es, s'))
    (ended : ¬ InFailedJoin (s'.pc t)) : ¬ Kept t evs s' := by
  have hstart : JoinCourse cfg t es (.joinError t :: es) s₁ := by
    refine ⟨run.step trivial call, [.joinError t], rfl, .inl ?_⟩
    cases call
    simp [State.move, InFailedJoin]
  obtain ⟨evs', heq, hend⟩ := (hstart.moves course).since
  obtain rfl := List.append_cancel_right heq
  intro kept
  rcases hend with h | h | ⟨u, hu⟩
  · exact ended h
  · rw [kept.returned] at h
    exact absurd h (by simp)
  · exact kept.record u hu

/-- The main thread, alone, joins itself, which fails: it runs off the empty staged list. -/
theorem failed_join_run (cfg : Config) :
    ∃ (es : List (Event ℕ ℕ)) (s₁ s' : State ℕ ℕ), Run (system cfg) anyEvent es Records.started ∧
      Step cfg Records.started (.joinError 0) s₁ ∧
      Moves (system cfg) (inFailedJoin 0) (.joinError 0 :: es, s₁)
        ([.other, .other, .joinError 0] ++ es, s') ∧ s'.pc 0 = .crashed := by
  have free : ∀ (es : List (Event ℕ ℕ)) (s : State ℕ ℕ) (e : Event ℕ ℕ), Records.lawful es s e →
      (∀ t, e ≠ .stage t) → anyEvent es s e := fun _ _ _ _ _ => trivial
  obtain ⟨es, run⟩ := Records.started_run free cfg
  have call : Step cfg Records.started (.joinError 0) _ := .joinError _ 0 0 rfl
  have course : Moves (system cfg) (inFailedJoin 0) (.joinError 0 :: es, _) (.joinError 0 :: es, _) :=
    .refl (_, Records.started.move 0 (.joined 0 none))
  have course := course.tail rfl (.clean _ 0 0 none rfl rfl)
  have course := course.tail rfl (.cleanLost _ 0 0 none none rfl)
  exact ⟨es, _, _, run, call, course, rfl⟩

theorem failed_join_releases_first :
    ∃ (cfg : Config) (es evs : List (Event ℕ ℕ)) (s s' : State ℕ ℕ),
      Run (system cfg) anyEvent es s ∧ s.pc 0 = .user ∧ s'.pc 0 = .crashed ∧ ¬ Kept 0 evs s' := by
  obtain ⟨es, s₁, s', run, call, course, crashed⟩ := failed_join_run ⟨true, 1024, 10, by simp⟩
  exact ⟨_, es, _, _, s', run, rfl, crashed,
    failed_join_releases run call course (by simp [crashed, InFailedJoin])⟩

/-- The walk runs past the last record. -/
theorem failed_join_lost :
    ∃ (cfg : Config) (es evs : List (Event ℕ ℕ)) (s s₁ s' : State ℕ ℕ),
      Run (system cfg) anyEvent es s ∧ Step cfg s (.joinError 0) s₁ ∧
      Moves (system cfg) (inFailedJoin 0) (.joinError 0 :: es, s₁) (evs ++ es, s') ∧
      s'.pc 0 = .crashed ∧ ¬ Kept 0 evs s' := by
  obtain ⟨es, s₁, s', run, call, course, crashed⟩ := failed_join_run ⟨true, 1024, 10, by simp⟩
  exact ⟨_, es, _, _, s₁, s', run, call, course, crashed, fun kept => kept.ahead crashed⟩

end ThreadScan.FailedCalls
