import ThreadScan.Coverage

/-! The start argument of a thread (`wrappers.c`, `thread.c`). `pthread_create` parks it in the
record of the new thread, and `threadscan_thread_base` takes it from there after it has set
`is_active`. Nobody searches a record: a round can free an address that a new thread has yet
to receive. -/
namespace ThreadScan.StartArgument
open Transition Search Compaction Reclaim Handshake Bookkeeping Coverage

/-- The protocol, and the `user_arg` of every thread that has yet to enter its user routine. -/
structure State (T : Type*) where
  base : Reclaim.State T
  userArg : T → Option Word

inductive Event (T : Type*)
  | create (creator : Option T) (u : T) (arg : Word)
  | enter (u : T) (stack : List Word)
  | base (e : Reclaim.Event T)

variable {T : Type*} [DecidableEq T] {cfg : Config}

/-- The thread whose user code takes the step. -/
def user : Reclaim.Event T → Option T
  | .push t _ | .mutate t _ _ | .exit t => some t
  | _ => none

/-- The thread is in user code. -/
def InUser (s : State T) (t : T) : Prop :=
  s.base.life t = .active ∧ s.base.main t = .idle ∧ s.base.handler t = none ∧ s.userArg t = none

inductive Step (cfg : Config) : State T → Event T → State T → Prop
  /-- `pthread_create`. The main thread has no creator. -/
  | create (s : State T) (creator : Option T) (u : T) (arg : Word)
      (calls : ∀ c, creator = some c → InUser s c) (h : s.base.life u = .unborn)
      (free : s.base.listLock = none) :
      Step cfg s (.create creator u arg) {
        base := { s.base with
          life := Function.update s.base.life u .born
          threadList := u :: s.base.threadList }
        userArg := Function.update s.userArg u (some arg) }
  /-- `td->user_routine(td->user_arg)`: the argument gets to the stack. -/
  | enter (s : State T) (u : T) (arg : Word) (stack : List Word) (h : s.userArg u = some arg)
      (alive : s.base.life u = .active) (idle : s.base.main u = .idle)
      (run : s.base.handler u = none) (receives : arg ∈ stack) :
      Step cfg s (.enter u stack) {
        base := { s.base with
          stack := Function.update s.base.stack u stack
          localBlock := Function.update s.base.localBlock u none }
        userArg := Function.update s.userArg u none }
  /-- The steps of the protocol, but for the creation of threads. -/
  | base (s : State T) (e : Reclaim.Event T) (b : Reclaim.State T) (move : Reclaim.Step cfg s.base e b)
      (old : ∀ u, b.life u = .born → s.base.life u = .born)
      (entered : ∀ t, user e = some t → s.userArg t = none) :
      Step cfg s (.base e) { s with base := b }

def initial (bufScanMap : Mem) : State T where
  base := Reclaim.initial bufScanMap
  userArg _ := none

def system (cfg : Config) : System (State T) (Event T) where
  init s := ∃ map, s = initial map
  step := Step cfg

def event : Event T → Reclaim.Event T
  | .create _ _ _ => .other
  | .enter u stack => .mutate u stack none
  | .base e => e

/-- What the protocol sees of a history. -/
def trace (es : List (Event T)) : List (Reclaim.Event T) := es.map event

/-- The record of the thread refers to the address: its user routine has yet to receive it. -/
def Parked (s : State T) (u : T) (a : Word) : Prop := ∃ arg, s.userArg u = some arg ∧ ptrMask arg = a

/-- The promise of a client: as before, and a thread hands on what it refers to itself. A new
thread knows of no collected address but its argument. -/
def honours (es : List (Event T)) (s : State T) : Event T → Prop
  | .create creator _ arg =>
    ∀ a, Live a (trace es) → ptrMask arg = a → ∃ c, creator = some c ∧ Refers (memory s.base c) a
  | .enter u stack =>
    ∀ a, Live a (trace es) → Refers stack a → Refers (memory s.base u) a ∨ Parked s u a
  | .base (.count _ _) => True
  | .base e => Coverage.honours (trace es) s.base e

omit [DecidableEq T] in
theorem honours_of_base {es : List (Event T)} {s : State T} {e : Reclaim.Event T}
    (h : Coverage.honours (trace es) s.base e) : honours es s (.base e) := by
  cases e with
  | count t n => trivial
  | _ => exact h

/-- The thread has entered its user routine since the last round reset its counter, and has not
answered a signal since. -/
def Late (u : T) : List (Event T) → Prop
  | [] => False
  | .enter v _ :: es => v = u ∨ Late u es
  | .base (.searched v) :: es => v ≠ u ∧ Late u es
  | .base (.reset _) :: _ => False
  | _ :: es => Late u es

/-- A round leaves no entry unmarked that is parked, or that a thread refers to which has entered
its user routine behind the back of the round. -/
def received (es : List (Event T)) (s : State T) : Event T → Prop
  | .base (.leave r) =>
    ∀ u a, a ≠ 0#64 → a ∈ Rearrangement.contents (s.base.buffer r) s.base.nAddrs →
      ¬ Parked s u a ∧ (Late u es → s.base.life u = .active → ¬ Refers (memory s.base u) a)
  | _ => True

/-- Both. -/
def receives (es : List (Event T)) (s : State T) (e : Event T) : Prop :=
  honours es s e ∧ received es s e

variable {es : List (Event T)} {s s' : State T}

/-- No parked address is about to be freed. -/
def Spared (s : State T) : Prop :=
  ∀ r u a, a ≠ 0#64 → Parked s u a → ¬ Doomed (s.base.main r) (s.base.buffer r) a

/-- A step is one of the protocol. -/
theorem base_step {e : Event T} (move : Step cfg s e s') :
    Reclaim.Step cfg s.base (event e) s'.base := by
  cases move with
  | create creator u arg _ h free => exact .create s.base u h free
  | enter u arg stack _ alive idle run =>
    refine .mutate s.base u stack none alive run fun c stage scan => ?_
    simp [idle]
  | base e b move => exact move

omit [DecidableEq T] in
theorem collects_of_promise {e : Event T} (h : honours es s e) :
    collects (trace es) s.base (event e) := by
  cases e with
  | create | enter => trivial
  | base e =>
    cases e with
    | push => exact h
    | _ => trivial

theorem careful_step (run : Run (Reclaim.system cfg) collects (trace es) s.base) (spared : Spared s)
    {e : Event T} (allowed : receives es s e) (move : Step cfg s e s') :
    careful (Late · (e :: es)) (trace es) s.base (event e) := by
  obtain ⟨honest, hreceived⟩ := allowed
  cases move with
  | create => trivial
  | enter u arg stack h alive idle =>
    intro a hlive hr
    have h₀ : a ≠ 0#64 :=
      (run_live (P := fun a => a.toNat % 4 = 0) (fun _ _ _ _ ha => ha.1) run a hlive).2
    have hr : Refers stack a := by simpa using hr
    exact (honest a hlive hr).imp_right fun parked =>
      ⟨.inl rfl, idle, fun r => spared r u a h₀ parked⟩
  | base e b move =>
    cases e with
    | mutate t stack block => exact fun a ha hr => .inl (honest a ha hr)
    | activate => exact honest
    | leave r => exact fun u a h₀ hlist hlate => (hreceived u a h₀ hlist).2 hlate
    | _ => trivial

/-- A thread stays late until it answers a signal, or the next round starts. -/
theorem late_stays {e : Event T} (move : Step cfg s e s') (u : T) (hlate : Late u es)
    (awake : s.base.handler u = none) : Late u (e :: es) ∨ ∃ t, event e = .reset t := by
  cases move with
  | create => exact .inl hlate
  | enter => exact .inl (.inr hlate)
  | base e b move =>
    cases move with
    | reset t => exact .inr ⟨t, rfl⟩
    | helperCount v hv =>
      refine .inl ⟨?_, hlate⟩
      rintro rfl
      rw [awake] at hv
      cases hv
    | _ => exact .inl hlate

theorem Spared.step (run : Run (Reclaim.system cfg) collects (trace es) s.base)
    (guarded : Guarded (Late · es) s.base) (spared : Spared s) {e : Event T}
    (allowed : receives es s e) (move : Step cfg s e s') : Spared s' := by
  obtain ⟨honest, hreceived⟩ := allowed
  cases move with
  | create creator u arg calls h free =>
    intro r v a h₀ hparked hdoomed
    by_cases huv : v = u
    · subst huv
      obtain ⟨arg', harg, ha⟩ := hparked
      simp only [Function.update_self, Option.some.injEq] at harg
      subst harg
      -- the creator refers to its argument
      have kept := run_kept (collects_of_honest fun _ _ _ _ h => h) run
      have hlive := kept.live a (held_addresses.mpr ⟨h₀, .list r, doomed_mem hdoomed⟩)
      obtain ⟨c, hc, hr⟩ := honest a hlive ha
      exact guarded.unreferenced r a hdoomed h₀ c (calls c hc).1 hr
    · refine spared r v a h₀ ?_ hdoomed
      simpa only [Parked, Function.update_of_ne huv] using hparked
  | enter u arg stack h =>
    intro r v a h₀ hparked hdoomed
    refine spared r v a h₀ ?_ hdoomed
    by_cases huv : v = u
    · subst huv
      simp [Parked] at hparked
    · simpa only [Parked, Function.update_of_ne huv] using hparked
  | base e b move =>
    intro r v a h₀ hparked hdoomed
    obtain hold | ⟨rfl, c, k, -, -, hk, he, -⟩ := doomed_step run move hdoomed
    · exact spared r v a h₀ hparked hold
    · exact (hreceived v a h₀ (List.mem_map.mpr ⟨k, List.mem_range.mpr hk, he⟩)).1 hparked

/-- The runs of the protocol that a run is made of. -/
theorem run_base (run : Run (system cfg) receives es s) :
    Run (Reclaim.system cfg) collects (trace es) s.base ∧ Guarded (Late · es) s.base ∧ Spared s := by
  refine run.invariant (I := fun es s => Run (Reclaim.system cfg) collects (trace es) s.base ∧
    Guarded (Late · es) s.base ∧ Spared s) ?_ ?_
  · rintro s ⟨map, rfl⟩
    exact ⟨.init ⟨map, rfl⟩, guarded_initial _ map,
      fun r u a h₀ ⟨arg, harg, _⟩ => by simp [initial] at harg⟩
  · rintro es s e s' - ⟨brun, guarded, spared⟩ allowed move
    exact ⟨brun.step (collects_of_promise allowed.1) (base_step move),
      guarded.step (fun _ _ _ _ h => h) brun (careful_step brun spared allowed move)
        (late_stays move) (base_step move),
      spared.step brun guarded allowed move⟩

/-- When an address is freed, no new thread has yet to receive it and no active thread refers
to it. -/
theorem start_argument_counts (cfg : Config) (es : List (Event T)) (s s' : State T)
    (run : Run (system cfg) receives es s) (t : T) (a : Word) (nonnull : a ≠ 0#64)
    (move : Step cfg s (.base (.free t a)) s') (u : T) :
    ¬ Parked s u a ∧ (s.base.life u = .active → ¬ Refers (memory s.base u) a) := by
  obtain ⟨-, hguarded, hspared⟩ := run_base run
  have hdoomed : Doomed (s.base.main t) (s.base.buffer t) a := by
    cases move with
    | base e b move => exact doomed_of_free move
  exact ⟨fun hparked => hspared t u a nonnull hparked hdoomed,
    hguarded.unreferenced t a hdoomed nonnull u⟩

/-! ### Runs -/

/-- What a run promises beyond its steps, the protocol sees. -/
theorem project {ok : List (Event T) → State T → Event T → Prop}
    {ok' : List (Reclaim.Event T) → Reclaim.State T → Reclaim.Event T → Prop}
    (h : ∀ es s e, ok es s e → ok' (trace es) s.base (event e)) (run : Run (system cfg) ok es s) :
    Run (Reclaim.system cfg) ok' (trace es) s.base := by
  refine run.invariant (I := fun es s => Run (Reclaim.system cfg) ok' (trace es) s.base) ?_ ?_
  · rintro s ⟨map, rfl⟩
    exact .init ⟨map, rfl⟩
  · exact fun es s e s' _ inv allowed move => inv.step (h es s e allowed) (base_step move)

theorem unborn_step {b b' : Reclaim.State T} {e : Reclaim.Event T} (move : Reclaim.Step cfg b e b')
    (known : ∀ u, b.life u ≠ .unborn) :
    (∀ u, b'.life u ≠ .unborn) ∧ ∀ u, b'.life u = .born → b.life u = .born := by
  have hmove : ∀ {t : T} {l : Life}, b'.life = Function.update b.life t l → l ≠ .unborn →
      l ≠ .born → (∀ u, b'.life u ≠ .unborn) ∧ ∀ u, b'.life u = .born → b.life u = .born := by
    intro t l hl hunborn hborn
    rw [hl]
    constructor <;> intro u <;> by_cases hut : u = t
    · rwa [hut, Function.update_self]
    · rw [Function.update_of_ne hut]
      exact known u
    · rw [hut, Function.update_self]
      exact fun h => absurd h hborn
    · rw [Function.update_of_ne hut]
      exact id
  cases move with
  | create t h => exact absurd h (known t)
  | activate | exit | remove | terminate => exact hmove rfl (by simp) (by simp)
  | _ => exact ⟨known, fun _ h => h⟩

/-- Once all threads are created, the protocol goes on by itself. -/
theorem lift_moves (ok : List (Event T) → State T → Event T → Prop)
    {ok' : List (Reclaim.Event T) → Reclaim.State T → Reclaim.Event T → Prop}
    (h : ∀ es' b e b', Moves (Reclaim.system cfg) ok' (trace es, s.base) (trace es', b) →
      ok' (trace es') b e → Reclaim.Step cfg b e b' →
      ok es' { s with base := b } (.base e) ∧ ∀ t, user e = some t → s.userArg t = none)
    (known : ∀ u, s.base.life u ≠ .unborn) {c : List (Reclaim.Event T) × Reclaim.State T}
    (moves : Moves (Reclaim.system cfg) ok' (trace es, s.base) c) :
    ∃ es', trace es' = c.1 ∧ (∀ e ∈ es, e ∈ es') ∧
      Moves (system cfg) ok (es, s) (es', { s with base := c.2 }) ∧
      ∀ u, c.2.life u ≠ .unborn := by
  induction moves with
  | refl => exact ⟨es, rfl, fun _ he => he, .refl _, known⟩
  | @tail c d course last ih =>
    obtain ⟨es', htrace, hin, hmoves, hknown⟩ := ih
    obtain ⟨e, hd, allowed, move⟩ := last
    have hcourse : Moves (Reclaim.system cfg) ok' (trace es, s.base) (trace es', c.2) :=
      htrace ▸ course
    obtain ⟨hallowed, hentered⟩ := h es' c.2 e d.2 hcourse (htrace ▸ allowed) move
    obtain ⟨hknown', hold⟩ := unborn_step move hknown
    refine ⟨.base e :: es', ?_, fun e he => List.mem_cons_of_mem _ (hin e he), ?_, hknown'⟩
    · rw [hd, ← htrace]
      rfl
    · exact hmoves.tail hallowed (.base _ e d.2 move hold hentered)

theorem create_run {ok : List (Event T) → State T → Event T → Prop}
    (run : Run (system cfg) ok es s) (creator : Option T) (u : T) (arg : Word)
    (calls : ∀ c, creator = some c → InUser s c) (h : s.base.life u = .unborn)
    (free : s.base.listLock = none) (creates : ok es s (.create creator u arg)) :
    Run (system cfg) ok (.create creator u arg :: es) {
      base := { s.base with
        life := Function.update s.base.life u .born
        threadList := u :: s.base.threadList }
      userArg := Function.update s.userArg u (some arg) } :=
  run.step creates (.create s creator u arg calls h free)

theorem mutate_run {ok : List (Event T) → State T → Event T → Prop}
    (run : Run (system cfg) ok es s) (t : T) (stack : List Word) (inUser : InUser s t)
    (mutates : ok es s (.base (.mutate t stack none))) :
    Run (system cfg) ok (.base (.mutate t stack none) :: es) { s with
      base := { s.base with
        stack := Function.update s.base.stack t stack
        localBlock := Function.update s.base.localBlock t none } } := by
  obtain ⟨alive, idle, awake, entered⟩ := inUser
  refine run.step mutates (.base s (.mutate t stack none) _
    (.mutate s.base t stack none alive awake ?_) (fun _ h => h) ?_)
  · intro c stage scan
    simp [idle]
  · rintro _ ⟨⟩
    exact entered

/-- A thread that has been created enters its user routine. -/
theorem enter_run {ok : List (Event T) → State T → Event T → Prop} (run : Run (system cfg) ok es s)
    (u : T) (arg : Word) (stack : List Word) (parked : s.userArg u = some arg)
    (born : s.base.life u = .born) (idle : s.base.main u = .idle)
    (awake : s.base.handler u = none) (receives : arg ∈ stack)
    (activates : ok es s (.base (.activate u [])))
    (enters : ∀ s', s'.userArg u = some arg → ok (.base (.activate u []) :: es) s' (.enter u stack)) :
    Run (system cfg) ok (.enter u stack :: .base (.activate u []) :: es) {
      base := { s.base with
        life := Function.update s.base.life u .active
        stack := Function.update s.base.stack u stack
        localBlock := Function.update s.base.localBlock u none }
      userArg := Function.update s.userArg u none } := by
  have hactivate := run.step activates (.base s (.activate u []) _ (.activate s.base u [] born)
    (fun v hv => by
      by_cases hvu : v = u
      · subst hvu
        simp at hv
      · simpa [Function.update_of_ne hvu] using hv) (by simp [user]))
  have henter := hactivate.step (enters _ parked) (.enter _ u arg stack parked
    (Function.update_self ..) idle awake receives)
  simpa only [Function.update_idem] using henter

/-- A thread is created and enters its user routine. -/
theorem start_run {ok : List (Event T) → State T → Event T → Prop} (run : Run (system cfg) ok es s)
    (creator : Option T) (u : T) (arg : Word) (stack : List Word)
    (calls : ∀ c, creator = some c → InUser s c) (h : s.base.life u = .unborn)
    (free : s.base.listLock = none) (idle : s.base.main u = .idle)
    (awake : s.base.handler u = none) (receives : arg ∈ stack)
    (creates : ok es s (.create creator u arg))
    (activates : ∀ s', ok (.create creator u arg :: es) s' (.base (.activate u [])))
    (enters : ∀ s', s'.userArg u = some arg →
      ok (.base (.activate u []) :: .create creator u arg :: es) s' (.enter u stack)) :
    Run (system cfg) ok (.enter u stack :: .base (.activate u []) :: .create creator u arg :: es) {
      base := { s.base with
        life := Function.update s.base.life u .active
        threadList := u :: s.base.threadList
        stack := Function.update s.base.stack u stack
        localBlock := Function.update s.base.localBlock u none }
      userArg := Function.update s.userArg u none } := by
  have hcreate := create_run run creator u arg calls h free creates
  have henter := enter_run hcreate u arg stack (Function.update_self ..) (Function.update_self ..) idle
    awake receives (activates _) enters
  simpa only [Function.update_idem] using henter

/-- A round that has left its first entry unmarked frees it. -/
theorem free_first {ok : List (Event T) → State T → Event T → Prop}
    (run : Run (system (Progress.leastConfig false)) ok es s) (t : T)
    (h : s.base.main t = .verify 1023) (awake : s.base.handler t = none)
    (entry : s.base.buffer t 0 = 4096#64) (handles : ok es s (.base (.handle t))) :
    ∃ es' s' s'', Run (system (Progress.leastConfig false)) ok es' s' ∧ (∀ e ∈ es, e ∈ es') ∧
      Step (Progress.leastConfig false) s' (.base (.free t 4096#64)) s'' ∧
      s'.userArg = s.userArg ∧ ∀ u, memory s'.base u = memory s.base u := by
  have hassert : assertMonotonicity (Progress.leastConfig false) (s.base.buffer t) 1023 :=
    fun h => Bool.noConfusion h
  have run' := run.step handles (Step.base s (.handle t) _ (.verify s.base t 1023 h awake hassert)
    (fun _ h => h) (by simp [user]))
  have hlow : lowBit 4096#64 = false := by decide
  have hfree : Step (Progress.leastConfig false) _ _ _ := Step.base { s with base := { s.base with
      main := Function.update s.base.main t (.handle 1023 0 0) } } (.free t 4096#64) _
    (.free _ t 1023 0 0 4096#64 (Function.update_self ..) awake (by norm_num)
      (by simp [handleEntry, entry, hlow])) (fun _ h => h) (by simp [user])
  exact ⟨_, _, _, run', fun e he => List.mem_cons_of_mem _ he, hfree, rfl, fun _ => rfl⟩

/-- The threads of the runs. -/
inductive Party
  | collector
  | creator
  | started
  deriving DecidableEq

/-- The client is honest, and after `n` steps only the collector goes on. -/
def waiting (n : ℕ) (es : List (Reclaim.Event Party)) (b : Reclaim.State Party)
    (e : Reclaim.Event Party) : Prop :=
  Coverage.honours es b e ∧ (n ≤ es.length → ∀ t, user e = some t → t = .collector)

theorem lets_waiting (n : ℕ) : Progress.Lets (waiting n) := by
  intro es b e h
  cases e <;> first | exact h.elim | exact ⟨trivial, fun _ t ht => by simp [user] at ht⟩

theorem run_waiting {cfg : Config} {n : ℕ} {es : List (Reclaim.Event Party)}
    {b : Reclaim.State Party} (run : Run (Reclaim.system cfg) Coverage.honours es b)
    (late : es.length ≤ n) : Run (Reclaim.system cfg) (waiting n) es b := by
  induction run with
  | init start => exact .init start
  | step _ allowed move ih =>
    rw [List.length_cons] at late
    exact .step (ih (by omega)) ⟨allowed, fun hn => absurd hn (by omega)⟩ move

section Waiting
variable {n : ℕ} {c d : List (Reclaim.Event Party) × Reclaim.State Party}

theorem length_moves (course : Moves (Reclaim.system cfg) (waiting n) c d) (start : n ≤ c.1.length) :
    n ≤ d.1.length := by
  obtain ⟨fs, hfs⟩ := course.history
  rw [hfs, List.length_append]
  omega

/-- The creator stays where it is. -/
theorem creator_step {b b' : Reclaim.State Party} {e : Reclaim.Event Party}
    (alive : b.life .creator = .active) (rests : user e ≠ some .creator)
    (move : Reclaim.Step cfg b e b') :
    b'.life .creator = .active ∧ memory b' .creator = memory b .creator := by
  have hlife : ∀ {t : Party} {l : Life}, Party.creator ≠ t →
      Function.update b.life t l .creator = .active := fun hne => by rwa [Function.update_of_ne hne]
  cases move with
  | mutate t =>
    have hne : Party.creator ≠ t := fun h => rests (congrArg some h.symm)
    exact ⟨alive, by simp only [memory, Function.update_of_ne hne]⟩
  | exit t => exact ⟨hlife fun h => rests (congrArg some h.symm), rfl⟩
  | activate t stack ht =>
    have hne : Party.creator ≠ t := by
      rintro rfl
      simp [alive] at ht
    exact ⟨hlife hne, by simp only [memory, Function.update_of_ne hne]⟩
  | create t ht | remove t ht | terminate t ht =>
    refine ⟨hlife ?_, rfl⟩
    rintro rfl
    simp [alive] at ht
  | _ => exact ⟨alive, rfl⟩

theorem creator_moves (course : Moves (Reclaim.system cfg) (waiting n) c d) (start : n ≤ c.1.length)
    (alive : c.2.life .creator = .active) :
    d.2.life .creator = .active ∧ memory d.2 .creator = memory c.2 .creator := by
  induction course with
  | refl => exact ⟨alive, rfl⟩
  | tail moves last ih =>
    obtain ⟨e, -, allowed, move⟩ := last
    have hrests : user e ≠ some .creator := fun h => by
      cases allowed.2 (length_moves moves start) _ h
    obtain ⟨hlife, hmem⟩ := creator_step ih.1 hrests move
    exact ⟨hlife, hmem.trans ih.2⟩

end Waiting

/-- The creator hands an address on, and goes on with other references. -/
theorem parked_start (x : Word) (rest : List Word) : ∃ (es : List (Event Party)) (s : State Party),
    Run (system (Progress.leastConfig false)) receives es s ∧
    Run (Reclaim.system (Progress.leastConfig false)) Coverage.honours (trace es) s.base ∧
    Event.create (some .creator) .started x ∈ es ∧
    (∀ t b, Reclaim.Event.push t b ∉ trace es) ∧ (∀ t, s.base.main t = .idle) ∧
    (∀ t, s.base.handler t = none) ∧
    s.base.life .collector = .active ∧ s.base.life .creator = .active ∧
    s.base.life .started = .born ∧ s.base.threadList = [.started, .creator, .collector] ∧
    s.base.listLock = none ∧ s.base.lock = none ∧ s.base.storage = [] ∧
    (∀ t, s.base.queue t = []) ∧ (∀ t, s.base.localBlock t = none) ∧
    s.base.stack .collector = [0#64] ∧ s.base.stack .creator = rest ∧
    ∀ t, s.userArg t = if t = .started then some x else none := by
  have run₀ : Run (system (Progress.leastConfig false)) (fun es (s : State Party) e =>
      receives es s e ∧ Coverage.honours (trace es) s.base (event e)) [] (initial fun _ => 0#64) :=
    .init ⟨_, rfl⟩
  have run₁ := start_run run₀ none .collector 0#64 [0#64] (by simp) rfl rfl rfl rfl (by simp)
    ⟨⟨fun a ha => ha.elim, trivial⟩, trivial⟩
    (fun _ => ⟨⟨fun a ha => ha.elim, trivial⟩, fun a ha => ha.elim⟩)
    (fun _ _ => ⟨⟨fun a ha => ha.elim, trivial⟩, fun a ha => ha.elim⟩)
  have run₂ := start_run run₁ (some .collector) .creator 0#64 [0#64, x]
    (by simp [InUser, initial, Reclaim.initial]) (by simp [initial, Reclaim.initial]) rfl rfl rfl
    (by simp) ⟨⟨fun a ha => ha.elim, trivial⟩, trivial⟩
    (fun _ => ⟨⟨fun a ha => ha.elim, trivial⟩, fun a ha => ha.elim⟩)
    (fun _ _ => ⟨⟨fun a ha => ha.elim, trivial⟩, fun a ha => ha.elim⟩)
  have run₃ := create_run run₂ (some .creator) .started x
    (by simp [InUser, initial, Reclaim.initial]) (by simp [initial, Reclaim.initial]) rfl
    ⟨⟨fun a ha => ha.elim, trivial⟩, trivial⟩
  have run₄ := mutate_run run₃ .creator rest (by simp [InUser, initial, Reclaim.initial])
    ⟨⟨fun a ha => ha.elim, trivial⟩, fun a ha => ha.elim⟩
  refine ⟨_, _, run₄.weaken fun _ _ _ h => h.1, project (fun _ _ _ h => h.2) run₄, by simp,
    by simp [trace, event], fun _ => rfl, fun _ => rfl, by simp, by simp, by simp, rfl,
    rfl, rfl, rfl, fun _ => rfl, fun t => ?_, by simp, by simp, fun t => ?_⟩
  · cases t <;> simp [initial, Reclaim.initial]
  · cases t <;> simp [initial]

/-- The round of a collector with a full queue passes over the thread that has just been
created, and finds no reference to the first address. -/
theorem passing_round {n : ℕ} {es : List (Reclaim.Event Party)} {b : Reclaim.State Party}
    (run : Run (Reclaim.system (Progress.leastConfig false)) (waiting n) es b)
    (ready : b.main .collector = .tryAcquire) (awake : ∀ t, b.handler t = none)
    (collector : b.life .collector = .active) (creator : b.life .creator = .active)
    (started : b.life .started = .born)
    (list : b.threadList = [.started, .creator, .collector]) (listLock : b.listLock = none)
    (lock : b.lock = none) (storage : b.storage = [])
    (queues : b.threadList.flatMap b.queue = Progress.addressRow 256 1023)
    (block : ∀ t, b.localBlock t = none) (stack₀ : b.stack .collector = [0#64])
    (stack₁ : ∀ w ∈ b.stack .creator, ptrMask w ≠ 4096#64) :
    Progress.Reach (Progress.leastConfig false) (waiting n) es b fun b' =>
      b'.main .collector = .verify 1023 ∧ b'.buffer .collector 0 = 4096#64 ∧
      b'.main .started = b.main .started ∧ b'.handler = b.handler ∧ b'.life = b.life := by
  have hsmall : 16 * (256 + 1023) < 2 ^ 64 := by norm_num
  have hlength := Progress.addressRow_length 256 1023
  refine .bind (Progress.drain_reach (Progress.leastConfig false) (lets_waiting n) .collector es b ready
    (awake _) lock listLock (by rw [list]; decide) 1023 (by rw [queues, hlength, storage]; rfl)
    (by rw [Progress.leastConfig_maxPtrs]; omega)
    (fun _ _ _ _ _ => ⟨trivial, by simp [user]⟩)
    fun _ _ => ⟨show 1 ≤ 1023 by norm_num, by simp [user]⟩) ?_
  rintro es₁ b₁ hleads₁ ⟨a, map, k, rfl, hperm, hsort⟩
  rw [queues, storage, List.flatten_nil, List.nil_append] at hperm
  have mono : Marking.Monotonic (1023 : ℕ) a := Listed.monotonic_of_sorted hsort
    (hperm.nodup_iff.mpr (Progress.addressRow_nodup hsmall))
    (fun x hx => Progress.addressRow_aligned hsmall x (hperm.mem_iff.mp hx))
    fun x hx => Progress.addressRow_nonzero hsmall (by norm_num) x (hperm.mem_iff.mp hx)
  have hfirst : a 0 = 4096#64 :=
    BitVec.eq_of_toNat_eq (Progress.first_entry hsmall (by norm_num) mono hperm)
  have hcalled : Progress.called (Progress.drained b .collector 1023 a map k) .collector
      (Progress.drained b .collector 1023 a map k).threadList = [.creator] := by
    simp [Progress.called, Progress.drained, list, collector, creator, started]
  have hsignal := Progress.signal_reach (Progress.leastConfig false) (lets_waiting n) .collector es₁
    (Progress.drained b .collector 1023 a map k) (by simp [Progress.drained]) (awake _) listLock
  rw [hcalled] at hsignal
  refine .bind hsignal ?_
  rintro es₂ b₂ hleads₂ rfl
  have run₂ := hleads₂.run (hleads₁.run run)
  refine .bind (Progress.helper_reach (lets_waiting n) es₂ _ .creator run₂ (awake _) (by simp) (block _)
    (by simp [Progress.drained]) mono) ?_
  rintro es₃ b₃ hleads₃ ⟨mem₃, hmem₃, rfl⟩
  refine .bind (Progress.wait_reach (lets_waiting n) es₃ _ .collector 1 (hleads₃.run run₂) (awake _)
    (block _) (by simp) (by simp [Progress.drained]) mono) ?_
  rintro es₄ b₄ hleads₄ ⟨mem₄, hmem₄, rfl⟩
  refine .bind (Progress.close_reach (Progress.leastConfig false) (lets_waiting n) es₄ _ .collector 1
    (by simp) (awake _) (by simp [Progress.drained])) ?_
  rintro es₅ b₅ hleads₅ rfl
  refine .done ⟨by simp [Progress.drained], ?_, by simp [Progress.drained], rfl, rfl⟩
  -- nobody's memory refers to the first address
  have hmem : mem₄ .collector 0 = mem₃ .collector 0 := by
    refine (hmem₄ 0).resolve_right ?_
    simp [Progress.drained, stack₀, hfirst, ptrMask]
  have hold : mem₃ .collector 0 = a 0 := by
    have hhelper := (hmem₃ .collector 0).resolve_right (by
      rintro ⟨w, hw, he⟩
      exact stack₁ w hw (he.trans (by simp [Progress.drained, hfirst])))
    simpa [Progress.drained] using hhelper
  exact hmem.trans (hold.trans hfirst)

/-- A collector fills its queue with addresses, and its round passes over the thread that has
just been created. -/
theorem passing_start (x : Word) (rest : List Word) (clear : ∀ w ∈ rest, ptrMask w ≠ 4096#64) :
    ∃ (es : List (Event Party)) (s : State Party) (c : List (Reclaim.Event Party) × Reclaim.State Party),
      Run (system (Progress.leastConfig false)) receives es s ∧
      Run (Reclaim.system (Progress.leastConfig false)) Coverage.honours (trace es) s.base ∧
      Event.create (some .creator) .started x ∈ es ∧ (∀ u, s.base.life u ≠ .unborn) ∧
      s.base.life .creator = .active ∧ memory s.base .creator = rest ∧
      s.base.life .started = .born ∧
      (∀ t, s.userArg t = if t = .started then some x else none) ∧
      Moves (Reclaim.system (Progress.leastConfig false)) (waiting (trace es).length)
        (trace es, s.base) c ∧
      c.2.main .collector = .verify 1023 ∧ c.2.buffer .collector 0 = 4096#64 ∧
      c.2.main .started = .idle ∧ (∀ t, c.2.handler t = none) ∧ c.2.life = s.base.life := by
  obtain ⟨es, s, run, brun, hcreate, hfresh, hmain, hhandler, hlife₀, hlife₁, hlife₂,
    hlist, hlistLock, hlock, hstorage, hqueue, hblock, hstack₀, hstack₁, harg⟩ := parked_start x rest
  have hsmall : 16 * (256 + 1023) < 2 ^ 64 := by norm_num
  have lets := lets_waiting (trace es).length
  obtain ⟨es₁, hmoves₁, -⟩ := Progress.fill_moves lets .collector (Progress.addressRow 256 1023)
    (fun es b a ha hf => ⟨⟨Progress.addressRow_aligned hsmall a ha, not_live_of_fresh hf⟩, by simp [user]⟩)
    (Progress.addressRow_nonzero hsmall (by norm_num)) (Progress.addressRow_nodup hsmall)
    (fun a _ u hu => hfresh u a hu) (hmain _) (hhandler _) hlife₀ (hqueue _)
    (show _ = (Progress.leastConfig false).ptrsPerThread by rw [Progress.addressRow_length]; rfl)
  obtain ⟨es₂, b₂, hleads₂, hverify, hentry, hstarted, hawake, hlife⟩ := passing_round
    ((run_waiting brun le_rfl).extend hmoves₁) (by simp) hhandler hlife₀ hlife₁ hlife₂ hlist hlistLock
    hlock hstorage (by simp [hlist, hqueue]) hblock hstack₀ (by simpa [hstack₁] using clear)
  refine ⟨es, s, (es₂, b₂), run, brun, hcreate, ?_, hlife₁, ?_, hlife₂, harg, hmoves₁.trans hleads₂.1,
    hverify, hentry, hstarted.trans (by simp [hmain]), fun t => ?_, hlife⟩
  · intro u
    cases u <;> simp [hlife₀, hlife₁, hlife₂]
  · simp [memory, hstack₁, hblock]
  · rw [hawake]
    exact hhandler t

/-- A round leaves no address unmarked that the creator has handed on and refers to itself. -/
theorem received_leave {n : ℕ} {es₀ es : List (Event Party)} {s : State Party}
    {b b' : Reclaim.State Party} {x : Word} {r : Party}
    (brun : Run (Reclaim.system cfg) Coverage.honours (trace es₀) s.base)
    (course : Moves (Reclaim.system cfg) (waiting n) (trace es₀, s.base) (trace es, b))
    (start : n ≤ (trace es₀).length) (alive : s.base.life .creator = .active)
    (keeps : x ∈ memory s.base .creator)
    (parks : ∀ t, s.userArg t = if t = .started then some x else none)
    (move : Reclaim.Step cfg b (.leave r) b') :
    received es { s with base := b } (.base (.leave r)) := by
  have brun' : Run (Reclaim.system cfg) Coverage.honours (trace es) b :=
    brun.extend (course.weaken fun _ _ _ h => h.1)
  have hguarded := run_guarded (fun _ _ _ h => h) brun'
  have hnot : ∀ u a, a ≠ 0#64 → a ∈ Rearrangement.contents (b.buffer r) b.nAddrs →
      b.life u = .active → ¬ Refers (memory b u) a := by
    intro u a h₀ hmem hu hr
    obtain ⟨k, hk, he⟩ := List.mem_map.mp hmem
    have hlow : lowBit a = false := by
      obtain ⟨w, -, rfl⟩ := hr
      have := ptrMask_aligned w
      rw [lowBit_eq_false]
      omega
    cases move with
    | leave _ c ht _ all =>
      exact (unreferenced_leave (fun _ _ _ _ h => h) brun' hguarded.covered ht all
        (List.mem_range.mp hk) he hlow h₀ hu hr).1
  intro u a h₀ hmem
  refine ⟨?_, fun _ hu => hnot u a h₀ hmem hu⟩
  rintro ⟨arg, harg, rfl⟩
  obtain ⟨hlife, hm⟩ := creator_moves course start alive
  rw [parks] at harg
  split_ifs at harg
  obtain rfl := Option.some.inj harg
  exact hnot .creator _ h₀ hmem hlife ⟨x, hm ▸ keeps, rfl⟩

/-- The creator keeps its copy of what it hands on: the round passes over the record and frees
another address, while the new thread holds the one that it has received. -/
theorem start_argument_counts_kept : ∃ (es : List (Event Party)) (s s' : State Party),
    Run (system (Progress.leastConfig false)) receives es s ∧
    Event.create (some .creator) .started 4112#64 ∈ es ∧
    Event.enter .started [4112#64] ∈ es ∧
    Step (Progress.leastConfig false) s (.base (.free .collector 4096#64)) s' ∧
    ∀ u, ¬ Parked s u 4096#64 ∧
      (s.base.life u = .active → ¬ Refers (memory s.base u) 4096#64) := by
  obtain ⟨es, s, c, run, brun, hcreate, hknown, hcreator, hmem, hborn, harg, hmoves, hverify, hentry,
    hidle, hawake, hlife⟩ := passing_start 4112#64 [4112#64] fun w hw => by
      obtain rfl := List.mem_singleton.mp hw
      decide
  obtain ⟨es₁, -, hin, hmoves₁, -⟩ := lift_moves receives
    (fun es₁ b e b' course h move => ⟨⟨honours_of_base h.1, by
      cases e with
      | leave r => exact received_leave brun course le_rfl hcreator (by simp [hmem]) harg move
      | _ => trivial⟩, fun t ht => by
      rw [harg, h.2 (length_moves course le_rfl) t ht]
      rfl⟩) hknown hmoves
  have run₁ := run.extend hmoves₁
  have run₃ := enter_run run₁ .started 4112#64 [4112#64] (by simp [harg])
    (show c.2.life .started = .born by rw [hlife, hborn]) hidle (hawake _) (by simp)
    ⟨fun a _ ha => by simp [Refers] at ha, trivial⟩
    fun s' hs' => ⟨fun a _ ha => .inr (by
      obtain ⟨w, hw, rfl⟩ := ha
      obtain rfl := List.mem_singleton.mp hw
      exact ⟨4112#64, hs', rfl⟩), trivial⟩
  obtain ⟨es₄, s₄, s₅, run₄, hin₄, hfree, -⟩ := free_first run₃ .collector hverify (hawake _) hentry
    ⟨trivial, trivial⟩
  exact ⟨es₄, s₄, s₅, run₄, hin₄ _ (by simp [hin _ hcreate]), hin₄ _ (by simp), hfree,
    start_argument_counts _ _ _ _ run₄ _ _ (by decide) hfree⟩

/-- The round comes before the user routine: the new thread is passed over, the creator has
nothing left to find, and the address that is still to be received is freed. -/
theorem start_argument_lost : ∃ (es : List (Event Party)) (s s' : State Party),
    Run (system (Progress.leastConfig false)) honours es s ∧
    Event.create (some .creator) .started 4096#64 ∈ es ∧
    Step (Progress.leastConfig false) s (.base (.free .collector 4096#64)) s' ∧
    Parked s .started 4096#64 := by
  obtain ⟨es, s, c, run, -, hcreate, hknown, -, -, -, harg, hmoves, hverify, hentry, -, hawake, -⟩ :=
    passing_start 4096#64 [] (by simp)
  obtain ⟨es₁, -, hin, hmoves₁, -⟩ := lift_moves honours
    (fun es₁ b e b' course h _ => ⟨honours_of_base h.1, fun t ht => by
      rw [harg, h.2 (length_moves course le_rfl) t ht]
      rfl⟩) hknown hmoves
  obtain ⟨es₂, s₂, s₃, run₂, hin₂, hfree, harg₂, -⟩ := free_first
    ((run.weaken fun _ _ _ h => h.1).extend hmoves₁) .collector hverify (hawake _) hentry trivial
  refine ⟨es₂, s₂, s₃, run₂, hin₂ _ (hin _ hcreate), hfree, 4096#64, ?_, by decide⟩
  rw [harg₂]
  simp [harg]

end ThreadScan.StartArgument
