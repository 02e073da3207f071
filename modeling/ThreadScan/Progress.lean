import ThreadScan.Listed
import ThreadScan.Scanning

/-! A round runs to its end. Where nobody holds a lock, a thread that collects addresses
gets to the next stage of `threadscan_collect` and `threadscan_reclaim` on its own, and a
search that has started reaches its end whatever it finds. -/
namespace ThreadScan.Progress
open Transition Search Marking Compaction Rearrangement Reclaim Handshake Rounds
open Listed (monotonic_of_sorted)
open Scanning (scanSteps scanSteps_next)

variable {T : Type*} [DecidableEq T] {cfg : Config}
  {ok : List (Event T) → State T → Event T → Prop} {es es' es'' : List (Event T)}
  {s s' s'' : State T}

/-- The events of the library's own steps, but for those at which a round takes the storage,
counts its list and starts its compaction. -/
def Own : Event T → Prop
  | .push _ _ | .mutate _ _ _ | .exit _ | .activate _ _ | .exchange _ | .count _ _ | .handle _ =>
    False
  | _ => True

/-- Nobody who promises `ok` holds up the library. -/
def Lets (ok : List (Event T) → State T → Event T → Prop) : Prop :=
  ∀ es s e, Own e → ok es s e

/-- Allowed steps lead from one state to the other, and nothing is collected on the way. -/
def Leads (cfg : Config) (ok : List (Event T) → State T → Event T → Prop) (es : List (Event T))
    (s : State T) (es' : List (Event T)) (s' : State T) : Prop :=
  Moves (system cfg) ok (es, s) (es', s') ∧
    ∀ t a, Event.push t a ∈ es' → Event.push t a ∈ es

theorem Leads.refl (es : List (Event T)) (s : State T) : Leads cfg ok es s es s :=
  ⟨.refl _, fun _ _ h => h⟩

theorem Leads.trans (h : Leads cfg ok es s es' s') (g : Leads cfg ok es' s' es'' s'') :
    Leads cfg ok es s es'' s'' :=
  ⟨h.1.trans g.1, fun t a ha => h.2 t a (g.2 t a ha)⟩

theorem Leads.one {e : Event T} (allowed : ok es s e) (move : Step cfg s e s')
    (h : ∀ t a, e ≠ .push t a) : Leads cfg ok es s (e :: es) s' := by
  refine ⟨.one allowed move, fun t a ha => ?_⟩
  obtain rfl | ha := List.mem_cons.mp ha
  · exact absurd rfl (h t a)
  · exact ha

theorem Leads.own (lets : Lets ok) {e : Event T} (move : Step cfg s e s') (h : Own e) :
    Leads cfg ok es s (e :: es) s' := by
  refine .one (lets es s e h) move ?_
  rintro t a rfl
  exact h

theorem Leads.run (h : Leads cfg ok es s es' s') (run : Run (system cfg) ok es s) :
    Run (system cfg) ok es' s' := run.extend h.1

/-- Allowed steps lead to a state as wanted. -/
def Reach (cfg : Config) (ok : List (Event T) → State T → Event T → Prop) (es : List (Event T))
    (s : State T) (Q : State T → Prop) : Prop :=
  ∃ es' s', Leads cfg ok es s es' s' ∧ Q s'

variable {P Q : State T → Prop}

theorem Reach.done (h : Q s) : Reach cfg ok es s Q := ⟨es, s, .refl es s, h⟩

theorem Reach.one {e : Event T} (allowed : ok es s e) (move : Step cfg s e s')
    (hpush : ∀ t a, e ≠ .push t a) (rest : Reach cfg ok (e :: es) s' Q) :
    Reach cfg ok es s Q := by
  obtain ⟨es', s'', hleads, hQ⟩ := rest
  exact ⟨es', s'', (Leads.one allowed move hpush).trans hleads, hQ⟩

theorem Reach.own (lets : Lets ok) {e : Event T} (move : Step cfg s e s') (h : Own e)
    (rest : Reach cfg ok (e :: es) s' Q) : Reach cfg ok es s Q := by
  obtain ⟨es', s'', hleads, hQ⟩ := rest
  exact ⟨es', s'', (Leads.own lets move h).trans hleads, hQ⟩

theorem Reach.bind (h : Reach cfg ok es s P)
    (rest : ∀ es' s', Leads cfg ok es s es' s' → P s' → Reach cfg ok es' s' Q) :
    Reach cfg ok es s Q := by
  obtain ⟨es₁, s₁, hleads, hP⟩ := h
  obtain ⟨es', s', hleads', hQ⟩ := rest es₁ s₁ hleads hP
  exact ⟨es', s', hleads.trans hleads', hQ⟩

/-! ### Collecting -/

/-- Nobody has collected the address yet. -/
def Fresh (a : Word) (es : List (Event T)) : Prop := ∀ u, Event.push u a ∉ es

/-- A thread collects addresses until its queue is about to be full. -/
theorem collect_moves (cfg : Config) (lets : Lets ok) (t : T) (l : List Word)
    (pushes : ∀ es s a, a ∈ l → Fresh a es → ok es s (.push t a)) (nonnull : ∀ a ∈ l, a ≠ 0#64)
    (nodup : l.Nodup) (es : List (Event T)) (s : State T) (fresh : ∀ a ∈ l, Fresh a es)
    (idle : s.main t = .idle) (run : s.handler t = none) (alive : s.life t = .active)
    (room : (s.queue t).length + l.length + 1 < cfg.ptrsPerThread) :
    ∃ es', Moves (system cfg) ok (es, s)
        (es', { s with queue := Function.update s.queue t (s.queue t ++ l) }) ∧
      ∀ u a, Event.push u a ∈ es' → Event.push u a ∈ es ∨ a ∈ l := by
  induction l generalizing es s with
  | nil => exact ⟨es, by simpa using Moves.refl _, fun _ _ h => .inl h⟩
  | cons a l ih =>
    rw [List.length_cons] at room
    have hfull : threadscanQueueIsFull cfg (s.queue t ++ [a]) = false := by
      simp only [threadscanQueueIsFull, List.length_append, List.length_singleton]
      exact decide_eq_false (by omega)
    have hpush : Step cfg _ _ _ := Step.push s t a idle run alive (nonnull a (by simp))
    have hback : Step cfg _ .other _ := Step.goto { s with
        queue := Function.update s.queue t (s.queue t ++ [a])
        main := Function.update s.main t .isFull } t .idle run
      (by simpa using Goto.notFull (by simpa using hfull))
    have hstate : ({ s with
        queue := Function.update s.queue t (s.queue t ++ [a])
        main := Function.update (Function.update s.main t .isFull) t .idle } : State T) =
        { s with queue := Function.update s.queue t (s.queue t ++ [a]) } := by
      rw [Function.update_idem, ← idle, Function.update_eq_self]
    rw [hstate] at hback
    obtain ⟨hnot, hnodup⟩ := List.nodup_cons.mp nodup
    obtain ⟨es', hmoves, hes⟩ := ih (fun es s b hb => pushes es s b (List.mem_cons_of_mem a hb))
      (fun b hb => nonnull b (List.mem_cons_of_mem a hb)) hnodup (.other :: .push t a :: es)
      { s with queue := Function.update s.queue t (s.queue t ++ [a]) }
      (fun b hb u hu => by
        simp only [List.mem_cons, reduceCtorEq, false_or, Event.push.injEq] at hu
        obtain ⟨-, rfl⟩ | hu := hu
        · exact hnot hb
        · exact fresh b (List.mem_cons_of_mem a hb) u hu)
      idle run alive (by simp; omega)
    refine ⟨es', ?_, ?_⟩
    · refine .head (pushes es s a (by simp) (fresh a (by simp))) hpush
        (.head (lets _ _ .other trivial) hback ?_)
      simpa using hmoves
    · intro u b hb
      obtain hb | hb := hes u b hb
      · simp only [List.mem_cons, reduceCtorEq, false_or, Event.push.injEq] at hb
        obtain ⟨-, rfl⟩ | hb := hb
        · exact .inr List.mem_cons_self
        · exact .inl hb
      · exact .inr (List.mem_cons_of_mem a hb)

/-- A thread that fills its queue goes for the lock. -/
theorem fill_moves (lets : Lets ok) (t : T) (l : List Word)
    (pushes : ∀ es s a, a ∈ l → Fresh a es → ok es s (.push t a)) (nonnull : ∀ a ∈ l, a ≠ 0#64)
    (nodup : l.Nodup) (fresh : ∀ a ∈ l, Fresh a es) (idle : s.main t = .idle)
    (awake : s.handler t = none) (alive : s.life t = .active) (empty : s.queue t = [])
    (full : l.length + 1 = cfg.ptrsPerThread) :
    ∃ es', Moves (system cfg) ok (es, s) (es', { s with
        queue := Function.update s.queue t l
        main := Function.update s.main t .tryAcquire }) ∧
      ∀ u a, Event.push u a ∈ es' → Event.push u a ∈ es ∨ a ∈ l := by
  have hlarge := cfg.ptrsPerThread_bounds.1
  obtain rfl | ⟨l, a, rfl⟩ := List.eq_nil_or_concat' l
  · simp only [List.length_nil] at full
    omega
  obtain ⟨hnodup, -, hdisj⟩ := List.nodup_append'.mp nodup
  have hnot : a ∉ l := fun ha => hdisj ha (by simp)
  rw [List.length_append, List.length_singleton] at full
  obtain ⟨es₁, hmoves, hes⟩ := collect_moves cfg lets t l
    (fun es s b hb => pushes es s b (List.mem_append_left _ hb))
    (fun b hb => nonnull b (List.mem_append_left _ hb)) hnodup es s
    (fun b hb => fresh b (List.mem_append_left _ hb)) idle awake alive (by rw [empty]; simp; omega)
  rw [empty, List.nil_append] at hmoves
  have hfresh : Fresh a es₁ := by
    intro u hu
    obtain hu | hu := hes u a hu
    · exact fresh a (by simp) u hu
    · exact hnot hu
  have hpush : Step cfg _ _ _ := Step.push { s with queue := Function.update s.queue t l } t a idle awake
    alive (nonnull a (by simp))
  simp only [Function.update_self, Function.update_idem] at hpush
  have hgo : Step cfg _ .other _ := Step.goto { s with
      queue := Function.update s.queue t (l ++ [a])
      main := Function.update s.main t .isFull } t .tryAcquire awake
    (by
      simp only [Function.update_self]
      refine .full ?_
      simp only [threadscanQueueIsFull, Function.update_self, List.length_append,
        List.length_singleton]
      exact decide_eq_true (by omega))
  simp only [Function.update_idem] at hgo
  refine ⟨.other :: .push t a :: es₁, ?_, ?_⟩
  · exact (hmoves.tail (pushes _ _ a (by simp) hfresh) hpush).tail (lets _ _ .other trivial) hgo
  · intro u b hb
    simp only [List.mem_cons, reduceCtorEq, false_or, Event.push.injEq] at hb
    obtain ⟨-, rfl⟩ | hb := hb
    · exact .inr (by simp)
    · exact (hes u b hb).imp_right (List.mem_append_left _)

theorem fill_run (lets : Lets ok) (run : Run (system cfg) ok es s) (t : T) (l : List Word)
    (pushes : ∀ es s a, a ∈ l → Fresh a es → ok es s (.push t a)) (nonnull : ∀ a ∈ l, a ≠ 0#64)
    (nodup : l.Nodup) (fresh : ∀ a ∈ l, Fresh a es) (idle : s.main t = .idle)
    (awake : s.handler t = none) (alive : s.life t = .active) (empty : s.queue t = [])
    (full : l.length + 1 = cfg.ptrsPerThread) :
    ∃ es', Run (system cfg) ok es' { s with
        queue := Function.update s.queue t l
        main := Function.update s.main t .tryAcquire } ∧
      ∀ u a, Event.push u a ∈ es' → Event.push u a ∈ es ∨ a ∈ l := by
  obtain ⟨es', hmoves, hes⟩ := fill_moves lets t l pushes nonnull nodup fresh idle awake alive
    empty full
  exact ⟨es', run.extend hmoves, hes⟩

/-! ### Draining -/

theorem leftovers_reach (lets : Lets ok) (t : T) (blocks : List (List Word)) (n : ℕ)
    (es : List (Event T)) (s : State T) (h : s.main t = .leftovers blocks n)
    (run : s.handler t = none) (fits : n + blocks.flatten.length ≤ 2 * cfg.maxPtrs) :
    Reach cfg ok es s fun s' => ∃ b,
      contents b (n + blocks.flatten.length) = contents (s.buffer t) n ++ blocks.flatten ∧
      s' = { s with
        buffer := Function.update s.buffer t b
        main := Function.update s.main t (.leftovers [] (n + blocks.flatten.length)) } := by
  induction blocks generalizing n es s with
  | nil =>
    refine .done ⟨s.buffer t, by simp, ?_⟩
    rw [List.flatten_nil, List.length_nil, Nat.add_zero, Function.update_eq_self, ← h,
      Function.update_eq_self]
  | cons block blocks ih =>
    rw [List.flatten_cons, List.length_append] at fits
    refine .own lets (.leftover s t block blocks n h run (by omega)) trivial ?_
    refine .bind (ih (n + block.length) _ _ (Function.update_self ..) run (by omega)) ?_
    rintro es' s' - ⟨b, hcontents, rfl⟩
    simp only [Function.update_self, contents_memcpy] at hcontents
    rw [List.flatten_cons, List.length_append, ← Nat.add_assoc]
    refine .done ⟨b, by rw [hcontents, List.append_assoc], ?_⟩
    simp only [Function.update_idem]

theorem flatMap_update (f : T → List Word) {td : T} {rest : List T} (h : td ∉ rest) :
    rest.flatMap (Function.update f td []) = rest.flatMap f := by
  apply List.flatMap_congr
  intro u hu
  apply Function.update_of_ne
  rintro rfl
  exact h hu

theorem queues_reach (lets : Lets ok) (t : T) (rest : List T) (n : ℕ) (nodup : rest.Nodup)
    (es : List (Event T)) (s : State T) (h : s.main t = .popHead rest n)
    (run : s.handler t = none) (fits : n + (rest.flatMap s.queue).length ≤ 2 * cfg.maxPtrs) :
    Reach cfg ok es s fun s' => ∃ b,
      contents b (n + (rest.flatMap s.queue).length) =
        contents (s.buffer t) n ++ rest.flatMap s.queue ∧
      s' = { s with
        buffer := Function.update s.buffer t b
        queue := fun u => if u ∈ rest then [] else s.queue u
        main := Function.update s.main t (.popHead [] (n + (rest.flatMap s.queue).length)) } := by
  induction rest generalizing n es s with
  | nil =>
    refine .done ⟨s.buffer t, by simp, ?_⟩
    simp only [List.not_mem_nil, if_false, List.flatMap_nil, List.length_nil, Nat.add_zero,
      Function.update_eq_self]
    rw [← h, Function.update_eq_self]
  | cons td rest ih =>
    rw [List.flatMap_cons, List.length_append] at fits
    obtain ⟨hnot, hnodup⟩ := List.nodup_cons.mp nodup
    have hmin : min (2 * cfg.maxPtrs - n) (s.queue td).length = (s.queue td).length := by omega
    refine .own lets (.goto s t _ run (h ▸ hmin ▸ Goto.popHead td rest n)) trivial ?_
    refine .own lets (.popTail _ t td rest n _ (Function.update_self ..) run) trivial ?_
    simp only [List.take_length, List.drop_length]
    refine .bind (ih (n + (s.queue td).length) hnodup _ _ (Function.update_self ..) run
      (by rw [flatMap_update _ hnot]; omega)) ?_
    rintro es' s' - ⟨b, hcontents, rfl⟩
    simp only [Function.update_self, flatMap_update _ hnot, contents_memcpy] at hcontents
    rw [List.flatMap_cons, List.length_append, ← Nat.add_assoc]
    refine .done ⟨b, by rw [hcontents, List.append_assoc], ?_⟩
    have hqueue : (fun u => if u ∈ rest then [] else Function.update s.queue td [] u) =
        fun u => if u ∈ td :: rest then [] else s.queue u := by
      funext u
      by_cases hu : u = td
      · subst hu
        simp
      · simp [hu]
    simp only [Function.update_idem, flatMap_update _ hnot, hqueue]

/-- The state in which a round has its list, and is about to signal. -/
def drained (s : State T) (t : T) (n : ℕ) (b map : Mem) (k : ℤ) : State T :=
  { s with
    lock := some t
    storage := []
    queue := fun u => if u ∈ s.threadList then [] else s.queue u
    buffer := Function.update s.buffer t b
    bufOwner := some t
    nAddrs := n
    sorted := b
    bufScanMap := map
    nScanMap := k
    selfStacksSearched := 0
    main := Function.update s.main t .lockSignal }

/-- A thread that gets the lock drains the storage and the queues of the listed threads into
its list, and sorts it. -/
theorem drain_reach (cfg : Config) (lets : Lets ok) (t : T) (es : List (Event T)) (s : State T)
    (h : s.main t = .tryAcquire) (run : s.handler t = none) (free : s.lock = none)
    (unlocked : s.listLock = none) (nodup : s.threadList.Nodup) (n : ℕ)
    (count : n = s.storage.flatten.length + (s.threadList.flatMap s.queue).length)
    (fits : n ≤ 2 * cfg.maxPtrs)
    (exchanges : ∀ es s', s'.storage = s.storage → s'.queue = s.queue →
      s'.threadList = s.threadList → ok es s' (.exchange t))
    (counts : ∀ es s', ok es s' (.count t n)) :
    Reach cfg ok es s fun s' => ∃ b map k, s' = drained s t n b map k ∧
      (contents b n).Perm (s.storage.flatten ++ s.threadList.flatMap s.queue) ∧
      ThreadScan.Sort.SortedOn b 0 (n - 1) := by
  refine .own lets (.acquire s t h run free) trivial ?_
  refine .own lets (.assign _ t (fun _ => 0#64) s.bufScanMap (Function.update_self ..) run
    fun _ _ _ => rfl) trivial ?_
  refine .one (exchanges _ _ rfl rfl rfl) (.exchange _ t (Function.update_self ..) run)
    (by simp) ?_
  refine .bind (leftovers_reach lets t s.storage 0 _ _ (Function.update_self ..) run (by omega)) ?_
  rintro es₁ s₁ - ⟨b₁, hb₁, rfl⟩
  refine .own lets (.goto _ t _ run (by
    simp only [Function.update_self]
    exact .drained _)) trivial ?_
  refine .own lets (.lockQueues _ t _ (Function.update_self ..) run unlocked) trivial ?_
  refine .bind (queues_reach lets t s.threadList _ nodup _ _ (Function.update_self ..) run
    (by simp only; omega)) ?_
  rintro es₂ s₂ - ⟨b₂, hb₂, rfl⟩
  simp only [Function.update_idem, Function.update_self, Nat.zero_add, ← count] at hb₁ hb₂ ⊢
  refine .own lets (.unlockQueues _ t n (Function.update_self ..) run) trivial ?_
  refine .one (counts _ _) (.count _ t n (Function.update_self ..) run) (by simp) ?_
  refine .own lets (.sort _ t (Function.update_self ..) run) trivial ?_
  refine .own lets (.scanMap _ t (Function.update_self ..) run) trivial ?_
  refine .own lets (.reset _ t (Function.update_self ..) run) trivial ?_
  have hsort := ThreadScan.Sort.threadscanUtilSort_spec b₂ n
  have hcontents : contents b₂ n = s.storage.flatten ++ s.threadList.flatMap s.queue := by
    rw [hb₂, hb₁]
    rfl
  refine .done ⟨ThreadScan.Sort.threadscanUtilSort b₂ n,
    (generateScanMap (ThreadScan.Sort.threadscanUtilSort b₂ n) n s.bufScanMap).1,
    (generateScanMap (ThreadScan.Sort.threadscanUtilSort b₂ n) n s.bufScanMap).2, ?_, ?_, hsort.2⟩
  · simp only [drained, Function.update_idem, Function.update_self, unlocked]
  · exact hcontents ▸ ThreadScan.Sort.threadscanUtilSort_perm b₂ n

/-! ### Signalling -/

/-- The threads of a list that are signalled by `t`. -/
def called (s : State T) (t : T) (rest : List T) : List T :=
  rest.filter fun u => u ≠ t ∧ s.life u = .active

theorem walk_reach (lets : Lets ok) (t : T) (rest : List T) (c : ℕ) (es : List (Event T))
    (s : State T) (h : s.main t = .signal rest c) (run : s.handler t = none) :
    Reach cfg ok es s fun s' => s' = { s with
      pending := fun u => s.pending u + (called s t rest).count u
      main := Function.update s.main t (.signal [] (c + (called s t rest).length)) } := by
  induction rest generalizing c es s with
  | nil =>
    refine .done ?_
    simp only [called, List.filter_nil, List.count_nil, List.length_nil, Nat.add_zero, ← h,
      Function.update_eq_self]
  | cons td rest ih =>
    by_cases hcall : td ≠ t ∧ s.life td = .active
    · refine .own lets (.kill s t td rest c h run hcall.1 hcall.2) trivial ?_
      refine .bind (ih (c + 1) _ _ (Function.update_self ..) run) ?_
      rintro es' s' - rfl
      have hcalled : called s t (td :: rest) = td :: called s t rest := by
        simp [called, hcall]
      have hpending : (fun u => Function.update s.pending td (s.pending td + 1) u +
          (called s t rest).count u) = fun u => s.pending u + (called s t (td :: rest)).count u := by
        funext u
        rw [hcalled]
        by_cases hu : u = td
        · subst hu
          rw [Function.update_self, List.count_cons_self]
          omega
        · rw [Function.update_of_ne hu, List.count_cons_of_ne (Ne.symm hu)]
      refine .done ?_
      simp only [Function.update_idem]
      have hlen : c + 1 + (called s t rest).length = c + (called s t (td :: rest)).length := by
        rw [hcalled, List.length_cons]
        omega
      rw [← hlen, ← hpending]
      rfl
    · have hskip : td = t ∨ s.life td ≠ .active := by
        by_contra hnot
        push Not at hnot
        exact hcall hnot
      refine .own lets (.goto s t _ run (h ▸ Goto.skip td rest c hskip)) trivial ?_
      refine .bind (ih c _ _ (Function.update_self ..) run) ?_
      rintro es' s' - rfl
      have hcalled : called s t (td :: rest) = called s t rest := by
        simp [called, hcall]
      refine .done ?_
      simp only [Function.update_idem]
      rw [hcalled]
      rfl

/-- The reclaimer signals the active threads and starts its own search. -/
theorem signal_reach (cfg : Config) (lets : Lets ok) (t : T) (es : List (Event T)) (s : State T)
    (h : s.main t = .lockSignal) (run : s.handler t = none) (unlocked : s.listLock = none) :
    Reach cfg ok es s fun s' => s' = { s with
      pending := fun u => s.pending u + (called s t s.threadList).count u
      main := Function.update s.main t (.search (called s t s.threadList).length .stack
        (searchRange cfg.debug (s.stack t))) } := by
  refine .own lets (.lockSignal s t h run unlocked) trivial ?_
  refine .bind (walk_reach lets t s.threadList 0 _ _ (Function.update_self ..) run) ?_
  rintro es' s' - rfl
  refine .own lets (.unlockSignal _ t _ (Function.update_self ..) run) trivial ?_
  refine .done ?_
  simp only [Function.update_idem, Nat.zero_add, unlocked]
  rfl

/-! ### Searching -/

/-- Who searches: the reclaimer, or a thread in its signal handler. -/
inductive Role
  | reclaimer (c : ℕ) (stage : Stage)
  | helper (stage : Stage)

/-- The thread searches in its role, the buffers being what they are by now. -/
def Role.at_ (role : Role) (s : State T) (t : T) (scan : Scan) (b : T → Mem) : State T :=
  match role with
  | .reclaimer c stage =>
    { s with buffer := b, main := Function.update s.main t (.search c stage scan) }
  | .helper stage =>
    { s with buffer := b, handler := Function.update s.handler t (some (.search stage scan)) }

theorem Role.scans (role : Role) (s : State T) (t : T) (scan : Scan) (b : T → Mem) :
    Scans (role.at_ s t scan b) t scan := by
  cases role with
  | reclaimer c stage => exact .inl ⟨c, stage, Function.update_self ..⟩
  | helper stage => exact .inr ⟨stage, Function.update_self ..⟩

theorem Role.step (cfg : Config) (role : Role) (s : State T) (t : T) (scan : Scan) (b : T → Mem)
    (run : ∀ c stage, role = .reclaimer c stage → s.handler t = none) :
    Step cfg (role.at_ s t scan b) .other
      (role.at_ s t (searchNext cfg.debug (working (role.at_ s t scan b)) scan).1
        (storeBuf (role.at_ s t scan b)
          (searchNext cfg.debug (working (role.at_ s t scan b)) scan).2)) := by
  cases role with
  | reclaimer c stage =>
    have hstep : Step cfg _ _ _ := Step.search ((Role.reclaimer c stage).at_ s t scan b) t c stage scan
      (Function.update_self ..) (run c stage rfl)
    simp only [Role.at_, Function.update_idem] at hstep ⊢
    exact hstep
  | helper stage =>
    have hstep : Step cfg _ _ _ := Step.helperSearch ((Role.helper stage).at_ s t scan b) t stage scan
      (Function.update_self ..)
    simp only [Role.at_, Function.update_idem] at hstep ⊢
    exact hstep

/-- A search of a monotonic list gets to its end, and marks what its words refer to. -/
theorem scan_reach (lets : Lets ok) (role : Role) (s : State T) (t : T)
    (awake : ∀ c stage, role = .reclaimer c stage → s.handler t = none) (pos : 1 ≤ s.nAddrs)
    (mono : Monotonic s.nAddrs s.sorted) (words : List Word) (scan : Scan) (b : T → Mem)
    (sound : Sound s.sorted s.nAddrs words scan) (es : List (Event T))
    (run : Run (system cfg) ok es (role.at_ s t scan b)) :
    Reach cfg ok es (role.at_ s t scan b) fun s' => ∃ scan' b', scan'.pc = .done ∧
      (∀ u i, b' u i = b u i ∨ s.bufOwner = some u ∧ ∃ w ∈ words, ptrMask w = s.sorted i) ∧
      s' = role.at_ s t scan' b' := by
  have hfields : ∀ (scan : Scan) (b : T → Mem), (role.at_ s t scan b).nAddrs = s.nAddrs ∧
      (role.at_ s t scan b).sorted = s.sorted ∧ (role.at_ s t scan b).bufOwner = s.bufOwner ∧
      (role.at_ s t scan b).buffer = b := by
    intro scan b
    cases role <;> exact ⟨rfl, rfl, rfl, rfl⟩
  induction hk : scanSteps s.nAddrs scan using Nat.strong_induction_on generalizing scan b es with
  | _ k ih =>
    by_cases hdone : scan.pc = .done
    · exact .done ⟨scan, b, hdone, fun _ _ => .inl rfl, rfl⟩
    obtain ⟨hn, hsort, howner, hbuf⟩ := hfields scan b
    have hscans := role.scans s t scan b
    have inv := run_searches run
    obtain ⟨r, hr⟩ := scans_open run hscans
    have hlist := inv.list r (ready_of_open hr) (hn ▸ pos)
    rw [hsort] at hlist
    have hcalm := inv.calm t scan hscans (hn ▸ pos) (by rw [hn, hsort]; exact mono)
    obtain ⟨hfatal, habort⟩ := hcalm.not_failed
    have hna : (working (role.at_ s t scan b)).nAddrs = s.nAddrs := by rw [← hn]; rfl
    have hless := scanSteps_next hlist (hna.symm ▸ sound) cfg.debug hdone hfatal habort
    rw [hna, hk] at hless
    obtain ⟨hsound, hmarks⟩ := Sound.next (hna.symm ▸ sound) hlist cfg.debug
    rw [hna] at hsound hmarks
    have hstep := Role.step cfg role s t scan b awake
    refine .own lets hstep trivial ?_
    refine .bind (ih _ hless _ _ hsound _ (run.step (lets _ _ .other trivial) hstep) rfl) ?_
    rintro es' s' - ⟨scan', b', hend, hother, rfl⟩
    refine .done ⟨scan', b', hend, fun u i => ?_, rfl⟩
    obtain hi | hasked := hother u i
    swap
    · exact .inr hasked
    rw [hi]
    cases ho : s.bufOwner with
    | none =>
      simp only [storeBuf, howner, hbuf, ho, true_or]
    | some v =>
      simp only [storeBuf, howner, hbuf, ho]
      by_cases huv : u = v
      · subst huv
        rw [Function.update_self]
        cases hst : (searchNext cfg.debug (working (role.at_ s t scan b)) scan).2 with
        | none => exact .inl rfl
        | some p =>
          obtain ⟨-, -, hasked, -⟩ := hmarks p hst
          by_cases hp : i = p.1
          · exact .inr ⟨rfl, hp ▸ hasked⟩
          · exact .inl (Function.update_of_ne hp _ _)
      · rw [Function.update_of_ne huv]
        exact .inl rfl

/-- A thread that is signalled while it has no local block searches its stack, counts itself
and returns. -/
theorem helper_reach (lets : Lets ok) (es : List (Event T)) (s : State T) (u : T)
    (run : Run (system cfg) ok es s) (awake : s.handler u = none) (signal : 0 < s.pending u)
    (block : s.localBlock u = none) (pos : 1 ≤ s.nAddrs)
    (mono : Monotonic s.nAddrs s.sorted) :
    Reach cfg ok es s fun s' => ∃ b,
      (∀ t i, b t i = s.buffer t i ∨ ∃ w ∈ s.stack u, ptrMask w = s.sorted i) ∧ s' = { s with
        pending := Function.update s.pending u (s.pending u - 1)
        buffer := b
        selfStacksSearched := s.selfStacksSearched + 1 } := by
  have henter : Step cfg _ _ _ := Step.enterHandler s u awake signal
  refine .own lets henter trivial ?_
  refine .bind (scan_reach lets (.helper .stack)
    { s with pending := Function.update s.pending u (s.pending u - 1) } u (by simp) pos mono
    (s.stack u) (searchRange cfg.debug (s.stack u)) s.buffer (sound_searchRange _ _) _
    (run.step (lets _ _ .other trivial) henter)) ?_
  rintro es' s' - ⟨scan, b, hdone, hmarks, rfl⟩
  refine .own lets (.helperDone _ u .stack scan (Function.update_self ..) hdone
    (by simp [Role.at_, nextStage, block])) trivial ?_
  refine .own lets (.helperCount _ u (Function.update_self ..)) trivial ?_
  refine .own lets (.helperTail _ u (Function.update_self ..)) trivial ?_
  refine .done ⟨b, fun t i => (hmarks t i).imp_right And.right, ?_⟩
  simp only [Role.at_, Function.update_idem, ← awake, Function.update_eq_self]

/-- A reclaimer without a local block searches its stack and gets to its wait. -/
theorem wait_reach (lets : Lets ok) (es : List (Event T)) (s : State T) (t : T) (c : ℕ)
    (run : Run (system cfg) ok es s) (awake : s.handler t = none) (block : s.localBlock t = none)
    (h : s.main t = .search c .stack (searchRange cfg.debug (s.stack t))) (pos : 1 ≤ s.nAddrs)
    (mono : Monotonic s.nAddrs s.sorted) :
    Reach cfg ok es s fun s' => ∃ b,
      (∀ i, b t i = s.buffer t i ∨ ∃ w ∈ s.stack t, ptrMask w = s.sorted i) ∧
      s' = { s with buffer := b, main := Function.update s.main t (.wait c) } := by
  have hstart : (Role.reclaimer c .stack).at_ s t (searchRange cfg.debug (s.stack t)) s.buffer =
      s := by
    simp only [Role.at_, ← h, Function.update_eq_self]
  have hsearch := scan_reach lets (.reclaimer c .stack) s t (fun _ _ _ => awake) pos mono
    (s.stack t) (searchRange cfg.debug (s.stack t)) s.buffer (sound_searchRange _ _) es
    (hstart.symm ▸ run)
  rw [hstart] at hsearch
  refine .bind hsearch ?_
  rintro es' s' - ⟨scan, b, hdone, hmarks, rfl⟩
  refine .own lets (.goto _ t (.wait c) awake (by
    simp only [Role.at_, Function.update_self]
    exact .searched c .stack scan hdone (by simp [nextStage, block]))) trivial ?_
  refine .done ⟨b, fun i => (hmarks t i).imp_right And.right, ?_⟩
  simp only [Role.at_, Function.update_idem]

/-- When everybody has answered, the reclaimer releases the lock. -/
theorem close_reach (cfg : Config) (lets : Lets ok) (es : List (Event T)) (s : State T) (t : T) (c : ℕ)
    (h : s.main t = .wait c) (awake : s.handler t = none) (all : c ≤ s.selfStacksSearched) :
    Reach cfg ok es s fun s' => s' = { s with
      lock := none
      main := Function.update s.main t (.verify s.nAddrs) } := by
  refine .own lets (.leave s t c h awake all) trivial ?_
  refine .own lets (.release _ t _ (Function.update_self ..) awake) trivial ?_
  refine .done ?_
  simp only [Function.update_idem]

/-- The state in which the only thread of the list starts to search the list of its round. -/
def searching (cfg : Config) (s : State T) (t : T) (n : ℕ) (b₀ map : Mem) (k : ℤ) : State T :=
  { drained s t n b₀ map k with
    main := Function.update s.main t (.search 0 .stack (searchRange cfg.debug (s.stack t))) }

/-- The only thread of the list gets from its full queue to its search of the list. -/
theorem search_reach (cfg : Config) (lets : Lets ok) (es : List (Event T)) (s : State T) (t : T)
    (h : s.main t = .tryAcquire) (awake : s.handler t = none) (free : s.lock = none)
    (unlocked : s.listLock = none) (alone : s.threadList = [t]) (n : ℕ)
    (count : n = s.storage.flatten.length + (s.queue t).length) (fits : n ≤ 2 * cfg.maxPtrs)
    (exchanges : ∀ es s', s'.storage = s.storage → s'.queue = s.queue →
      s'.threadList = s.threadList → ok es s' (.exchange t))
    (counts : ∀ es s', ok es s' (.count t n)) :
    Reach cfg ok es s fun s' => ∃ b₀ map k,
      (contents b₀ n).Perm (s.storage.flatten ++ s.queue t) ∧
      ThreadScan.Sort.SortedOn b₀ 0 (n - 1) ∧ s' = searching cfg s t n b₀ map k := by
  have hqueues : s.threadList.flatMap s.queue = s.queue t := by
    rw [alone, List.flatMap_singleton]
  refine .bind (drain_reach cfg lets t es s h awake free unlocked (by simp [alone]) n
    (by rw [hqueues]; exact count) fits exchanges counts) ?_
  rintro es₁ s₁ - ⟨b₀, map, k, rfl, hperm, hsort⟩
  rw [hqueues] at hperm
  refine .bind (signal_reach cfg lets t es₁ _ (Function.update_self ..) awake unlocked) ?_
  rintro es₂ s₂ - rfl
  have hcalled : called (drained s t n b₀ map k) t (drained s t n b₀ map k).threadList = [] := by
    simp [called, drained, alone]
  simp only [hcalled, List.count_nil, List.length_nil, Nat.add_zero]
  refine .done ⟨b₀, map, k, hperm, hsort, ?_⟩
  simp only [searching, drained, Function.update_idem]

/-- The state in which it has searched the list, and waits. -/
def searched (s : State T) (t : T) (n : ℕ) (b₀ map : Mem) (k : ℤ) (b : T → Mem) : State T :=
  { drained s t n b₀ map k with
    buffer := b
    main := Function.update s.main t (.wait 0) }

/-- The only thread of the list gets from its full queue to the wait of its round. -/
theorem lone_reach (cfg : Config) (lets : Lets ok) (es : List (Event T)) (s : State T) (t : T)
    (run : Run (system cfg) ok es s) (h : s.main t = .tryAcquire) (awake : s.handler t = none)
    (free : s.lock = none) (unlocked : s.listLock = none) (alone : s.threadList = [t])
    (block : s.localBlock t = none) (n : ℕ) (pos : 1 ≤ n)
    (count : n = s.storage.flatten.length + (s.queue t).length) (fits : n ≤ 2 * cfg.maxPtrs)
    (exchanges : ∀ es s', s'.storage = s.storage → s'.queue = s.queue →
      s'.threadList = s.threadList → ok es s' (.exchange t))
    (counts : ∀ es s', ok es s' (.count t n)) (nodup : (s.storage.flatten ++ s.queue t).Nodup)
    (aligned : ∀ x ∈ s.storage.flatten ++ s.queue t, x.toNat % 4 = 0)
    (nonzero : ∀ x ∈ s.storage.flatten ++ s.queue t, x ≠ 0#64) :
    Reach cfg ok es s fun s' => ∃ b₀ map k b, Monotonic n b₀ ∧
      (contents b₀ n).Perm (s.storage.flatten ++ s.queue t) ∧ Marked n b₀ (b t) ∧
      (∀ i, b t i = b₀ i ∨ ∃ w ∈ s.stack t, ptrMask w = b₀ i) ∧
      s' = searched s t n b₀ map k b := by
  refine .bind (search_reach cfg lets es s t h awake free unlocked alone n count fits exchanges
    counts) ?_
  rintro es₁ s₁ hleads₁ ⟨b₀, map, k, hperm, hsort, rfl⟩
  have mono : Monotonic n b₀ := monotonic_of_sorted hsort (hperm.nodup_iff.mpr nodup)
    (fun x hx => aligned x (hperm.mem_iff.mp hx)) fun x hx => nonzero x (hperm.mem_iff.mp hx)
  have run₁ := hleads₁.run run
  refine .bind (wait_reach lets es₁ _ t 0 run₁ awake block (Function.update_self ..) pos mono) ?_
  rintro es₂ s₂ hleads₂ ⟨b, hmarks, rfl⟩
  have run₂ := hleads₂.run run₁
  have hready := (run_searches run₂).list t (by simp [Ready]) pos
  have howner := run_owner run₂ t (by simp [phase]) (by simp)
  have hmarked := hready.marked
  simp only [working, bufAddrs_of_owner howner] at hmarked
  refine .done ⟨b₀, map, k, b, mono, hperm, hmarked, fun i => ?_, ?_⟩
  · have hi := hmarks i
    simp only [searching, drained, Function.update_self] at hi
    exact hi
  · simp only [searching, searched, drained, Function.update_idem]

/-! ### Compacting -/

theorem handle_reach (lets : Lets ok) (t : T) (k : ℕ) (es : List (Event T)) (s : State T)
    (n i w : ℕ) (h : s.main t = .handle n i w) (hk : i + k = n) (awake : s.handler t = none) :
    Reach cfg ok es s fun s' => ∃ b w', w ≤ w' ∧ w' ≤ w + k ∧
      (∀ j : ℕ, j < w → j < i → b j = s.buffer t j) ∧
      s' = { s with
        buffer := Function.update s.buffer t b
        main := Function.update s.main t (.handle n n w') } := by
  induction k generalizing es s i w with
  | zero =>
    obtain rfl : i = n := by omega
    refine .done ⟨s.buffer t, w, le_rfl, le_rfl, fun _ _ _ => rfl, ?_⟩
    rw [← h, Function.update_eq_self, Function.update_eq_self]
  | succ k ih =>
    have hentry : w ≤ (handleEntry (s.buffer t) i w).2.1 ∧
        (handleEntry (s.buffer t) i w).2.1 ≤ w + 1 ∧
        ∀ j : ℕ, j < w → j < i → (handleEntry (s.buffer t) i w).1 j = s.buffer t j := by
      simp only [handleEntry]
      split_ifs
      · refine ⟨by simp, le_rfl, fun j hw hi => ?_⟩
        dsimp only
        rw [Function.update_of_ne (by omega), Function.update_of_ne (by omega)]
      · exact ⟨le_rfl, by simp, fun j hw hi => Function.update_of_ne (by omega) _ _⟩
    obtain ⟨h₁, h₂, h₃⟩ := hentry
    have hstep : ∃ e, Own e ∧ Step cfg s e { s with
        buffer := Function.update s.buffer t (handleEntry (s.buffer t) i w).1
        main := Function.update s.main t
          (.handle n (i + 1) (handleEntry (s.buffer t) i w).2.1) } := by
      cases hfreed : (handleEntry (s.buffer t) i w).2.2 with
      | none => exact ⟨.keep t, trivial, .keep s t n i w h awake (by omega) hfreed⟩
      | some ptr => exact ⟨.free t ptr, trivial, .free s t n i w ptr h awake (by omega) hfreed⟩
    obtain ⟨e, hown, hstep⟩ := hstep
    refine .own lets hstep hown ?_
    refine .bind (ih _ _ (i + 1) _ (Function.update_self ..) (by omega) awake) ?_
    rintro es' s' - ⟨b, w', hw, hw', hkeep, rfl⟩
    simp only [Function.update_self] at hkeep
    refine .done ⟨b, w', by omega, by omega, fun j hj hi => ?_, ?_⟩
    · rw [hkeep j (by omega) (by omega), h₃ j hj hi]
    · simp only [Function.update_idem]

/-- What is left after a compaction becomes a block of the storage. -/
theorem store_reach (lets : Lets ok) (t : T) (es : List (Event T)) (s : State T) (n w : ℕ)
    (h : s.main t = .handle n n w) (awake : s.handler t = none) (fits : w + 2 ≤ 2 * cfg.maxPtrs) :
    Reach cfg ok es s fun s' => ∃ b blocks, blocks.flatten.Perm (contents (s.buffer t) w) ∧
      s' = { s with
        buffer := Function.update s.buffer t b
        storage := blocks ++ s.storage
        main := Function.update s.main t .isFull } := by
  refine .own lets (.goto s t (.randomize w) awake (h ▸ Goto.handled n w)) trivial ?_
  refine .own lets (.randomize _ t w (Function.update_self ..) awake) trivial ?_
  by_cases hw : w = 0
  · subst hw
    refine .own lets (.goto _ t .isFull awake (by
      simp only [Function.update_self]
      exact .storeNone)) trivial ?_
    refine .done ⟨threadscanUtilRandomize (s.buffer t) 0, [], List.Perm.refl _, ?_⟩
    simp only [Function.update_idem, List.nil_append]
  · refine .own lets (.store _ t w (Function.update_self ..) awake hw fits) trivial ?_
    refine .done ⟨threadscanUtilRandomize (s.buffer t) w,
      [storeRemainingAddrs (threadscanUtilRandomize (s.buffer t) w) w], ?_, ?_⟩
    · rw [List.flatten_singleton]
      exact (storeRemainingAddrs_perm _ (by omega)).trans (threadscanUtilRandomize_perm _ _)
    · simp only [Function.update_idem, Function.update_self, List.singleton_append]

/-- A compaction in progress ends, and its thread returns to the user. -/
theorem compact_reach (lets : Lets ok) (t : T) (es : List (Event T)) (s : State T) (n i w : ℕ)
    (h : s.main t = .handle n i w) (hi : i ≤ n) (awake : s.handler t = none)
    (fits : w + (n - i) + 2 ≤ 2 * cfg.maxPtrs)
    (room : (s.queue t).length + 1 < cfg.ptrsPerThread) :
    Reach cfg ok es s fun s' => ∃ b b' w' blocks, w ≤ w' ∧ w' ≤ w + (n - i) ∧
      (∀ j : ℕ, j < w → j < i → b j = s.buffer t j) ∧ blocks.flatten.Perm (contents b w') ∧
      s' = { s with
        buffer := Function.update s.buffer t b'
        storage := blocks ++ s.storage
        main := Function.update s.main t .idle } := by
  refine .bind (handle_reach lets t (n - i) es s n i w h (by omega) awake) ?_
  rintro es₁ s₁ - ⟨b, w', hw, hw', hkept, rfl⟩
  refine .bind (store_reach lets t es₁ _ n w' (Function.update_self ..) awake (by omega)) ?_
  rintro es₂ s₂ - ⟨b', blocks, hperm, rfl⟩
  refine .own lets (.goto _ t .idle awake (by
    simp only [Function.update_self]
    refine .notFull ?_
    simp only [threadscanQueueIsFull]
    exact decide_eq_false (by omega))) trivial ?_
  simp only [Function.update_self] at hperm
  refine .done ⟨b, b', w', blocks, hw, hw', hkept, hperm, ?_⟩
  simp only [Function.update_idem]

/-! ### A thread on its own -/

/-- Addresses 16 bytes apart. -/
def addressRow (first n : ℕ) : List Word :=
  (List.range n).map fun i => BitVec.ofNat 64 (16 * (first + i))

theorem mem_addressRow {first n : ℕ} {x : Word} (small : 16 * (first + n) < 2 ^ 64)
    (h : x ∈ addressRow first n) : ∃ i < n, x.toNat = 16 * (first + i) := by
  obtain ⟨i, hi, rfl⟩ := List.mem_map.mp h
  have hlt := List.mem_range.mp hi
  refine ⟨i, hlt, ?_⟩
  rw [BitVec.toNat_ofNat]
  omega

theorem addressRow_length (first n : ℕ) : (addressRow first n).length = n := by
  simp [addressRow]

theorem addressRow_aligned {first n : ℕ} (small : 16 * (first + n) < 2 ^ 64) (x : Word)
    (h : x ∈ addressRow first n) : x.toNat % 4 = 0 := by
  obtain ⟨i, -, he⟩ := mem_addressRow small h
  omega

theorem addressRow_nonzero {first n : ℕ} (small : 16 * (first + n) < 2 ^ 64) (pos : 0 < first)
    (x : Word) (h : x ∈ addressRow first n) : x ≠ 0#64 := by
  obtain ⟨i, -, he⟩ := mem_addressRow small h
  rintro rfl
  rw [BitVec.toNat_zero] at he
  omega

theorem addressRow_nodup {first n : ℕ} (small : 16 * (first + n) < 2 ^ 64) :
    (addressRow first n).Nodup := by
  refine List.Nodup.map_on ?_ List.nodup_range
  intro i hi j hj he
  have hi := List.mem_range.mp hi
  have hj := List.mem_range.mp hj
  have hnat := congrArg BitVec.toNat he
  rw [BitVec.toNat_ofNat, BitVec.toNat_ofNat] at hnat
  omega

theorem addressRow_apart {a : Word} (h : a ∈ addressRow 1279 1023) : a ∉ addressRow 256 1023 := by
  intro hu
  obtain ⟨i, -, hi⟩ := mem_addressRow (by norm_num) h
  obtain ⟨j, hj, he⟩ := mem_addressRow (by norm_num) hu
  omega

/-- The thread is active, runs no handler, has no local block and is alone on the list. -/
structure Lone (s : State T) (t : T) (stack : List Word) : Prop where
  handler : s.handler t = none
  life : s.life t = .active
  stack : s.stack t = stack
  localBlock : s.localBlock t = none
  threadList : s.threadList = [t]
  listLock : s.listLock = none

/-- A thread is created and starts on its stack. -/
theorem start_run (lets : Lets ok) (run : Run (system cfg) ok es s) (t : T) (stack : List Word)
    (h : s.life t = .unborn) (free : s.listLock = none)
    (activates : ∀ s', ok (.other :: es) s' (.activate t stack)) :
    Run (system cfg) ok (.activate t stack :: .other :: es) { s with
      life := Function.update s.life t .active
      threadList := t :: s.threadList
      stack := Function.update s.stack t stack
      localBlock := Function.update s.localBlock t none } := by
  have hcreate := run.step (lets es s .other trivial) (show Step cfg _ _ _ from .create s t h free)
  have hstart := hcreate.step (activates _) (Step.activate _ t stack (Function.update_self ..))
  simp only [Function.update_idem] at hstart
  exact hstart

/-- A thread on its own fills its queue and gets to the end of the searches of its round. -/
theorem lone_round (lets : Lets ok) (t : T) (stack l : List Word) (es : List (Event T))
    (s : State T) (run : Run (system cfg) ok es s) (lone : Lone s t stack)
    (idle : s.main t = .idle) (free : s.lock = none) (empty : s.queue t = [])
    (fresh : ∀ a ∈ l, Fresh a es) (full : l.length + 1 = cfg.ptrsPerThread)
    (pushes : ∀ es s a, a ∈ l → Fresh a es → ok es s (.push t a)) (n : ℕ)
    (count : n = s.storage.flatten.length + l.length) (fits : n ≤ 2 * cfg.maxPtrs)
    (exchanges : ∀ es s', s'.queue t = l → t ∈ s'.threadList → ok es s' (.exchange t))
    (counts : ∀ es s', ok es s' (.count t n)) (nodup : (s.storage.flatten ++ l).Nodup)
    (aligned : ∀ x ∈ s.storage.flatten ++ l, x.toNat % 4 = 0)
    (nonzero : ∀ x ∈ s.storage.flatten ++ l, x ≠ 0#64) :
    ∃ es' s' b₀, Moves (system cfg) ok (es, s) (es', s') ∧ Lone s' t stack ∧ s'.main t = .verify n ∧
      s'.lock = none ∧ s'.storage = [] ∧ s'.queue t = [] ∧
      (∀ u a, Event.push u a ∈ es' → Event.push u a ∈ es ∨ a ∈ l) ∧ Monotonic n b₀ ∧
      (contents b₀ n).Perm (s.storage.flatten ++ l) ∧ Marked n b₀ (s'.buffer t) ∧
      ∀ i, s'.buffer t i = b₀ i ∨ ∃ w ∈ stack, ptrMask w = b₀ i := by
  obtain ⟨es₁, hmoves, hes⟩ := fill_moves lets t l pushes
    (fun a ha => nonzero a (List.mem_append_right _ ha)) (List.nodup_append'.mp nodup).2.1
    fresh idle lone.handler lone.life empty full
  have hpos : 1 ≤ n := by
    have hlarge := cfg.ptrsPerThread_bounds.1
    omega
  have hround := lone_reach cfg lets es₁ { s with
      queue := Function.update s.queue t l
      main := Function.update s.main t .tryAcquire } t (run.extend hmoves) (Function.update_self ..)
    lone.handler free lone.listLock lone.threadList lone.localBlock n hpos
    (by simpa using count) fits
    (fun es s' _ hq hl => exchanges es s' (by simp [hq]) (by simp [hl, lone.threadList])) counts
    (by simpa using nodup) (by simpa using aligned) (by simpa using nonzero)
  simp only [Function.update_self] at hround
  obtain ⟨es₂, s₂, hleads, b₀, map, k, b, mono, hperm, hmarked, hmarks, rfl⟩ := hround
  obtain ⟨es₃, s₃, hleads₃, rfl⟩ := close_reach cfg lets es₂ (searched { s with
      queue := Function.update s.queue t l
      main := Function.update s.main t .tryAcquire } t n b₀ map k b) t 0
    (Function.update_self ..) lone.handler (Nat.zero_le _)
  have hlist : t ∈ s.threadList := by simp [lone.threadList]
  refine ⟨es₃, _, b₀, hmoves.trans (hleads.trans hleads₃).1, ⟨lone.handler, lone.life, lone.stack,
    lone.localBlock, lone.threadList, lone.listLock⟩, Function.update_self .., rfl, rfl, if_pos hlist,
    fun u a ha => hes u a ((hleads.trans hleads₃).2 u a ha), mono, hperm, hmarked, ?_⟩
  rw [← lone.stack]
  exact hmarks

/-- The smallest queues that `env_init` sets up. -/
def leastConfig (debug : Bool) : Config := ⟨debug, 1024, 10, by omega, by omega, rfl⟩

theorem leastConfig_ptrsPerThread (debug : Bool) : (leastConfig debug).ptrsPerThread = 1024 :=
  rfl

theorem leastConfig_maxPtrs (debug : Bool) : (leastConfig debug).maxPtrs = 262144 := by
  rw [Config.maxPtrs, maxThreadCount, leastConfig_ptrsPerThread]

/-- The first address of a row comes first in its sorted list. -/
theorem first_entry {first n : ℕ} {b : Mem} (small : 16 * (first + n) < 2 ^ 64) (pos : 1 ≤ n)
    (mono : Monotonic n b) (perm : (contents b n).Perm (addressRow first n)) :
    (b 0).toNat = 16 * first := by
  have hleast : BitVec.ofNat 64 (16 * first) ∈ contents b n :=
    perm.mem_iff.mpr (List.mem_map.mpr ⟨0, List.mem_range.mpr pos, by simp⟩)
  have hfirst : b 0 ∈ contents b n := List.mem_map.mpr ⟨0, List.mem_range.mpr pos, rfl⟩
  obtain ⟨i, -, hi⟩ := mem_addressRow small (perm.mem_iff.mp hfirst)
  obtain ⟨k, hk, he⟩ := List.mem_map.mp hleast
  have hk := List.mem_range.mp hk
  have hnat := congrArg BitVec.toNat he
  rw [BitVec.toNat_ofNat] at hnat
  obtain rfl | hlt : k = 0 ∨ 0 < k := by omega
  · rw [Nat.cast_zero] at hnat
    omega
  · have := mono.increasing 0 k le_rfl (by omega) (by omega)
    omega

/-- The first round of a program with one thread: 1023 addresses, from 4096 on. -/
theorem first_round (ok : List (Event Unit) → State Unit → Event Unit → Prop) (debug : Bool)
    (lets : Lets ok) (stack : List Word)
    (activates : ∀ s', ok [.other] s' (.activate () stack))
    (pushes : ∀ es s (a : Word), a.toNat % 4 = 0 → Fresh a es → ok es s (.push () a))
    (exchanges : ∀ es s', s'.queue () ≠ [] → () ∈ s'.threadList → ok es s' (.exchange ()))
    (counts : ∀ es s', ok es s' (.count () 1023)) :
    ∃ es s b₀, Run (system (leastConfig debug)) ok es s ∧ Lone s () stack ∧
      s.main () = .verify 1023 ∧ s.lock = none ∧ s.storage = [] ∧ s.queue () = [] ∧
      (∀ u a, Event.push u a ∈ es → a ∈ addressRow 256 1023) ∧ Monotonic (1023 : ℕ) b₀ ∧
      (contents b₀ 1023).Perm (addressRow 256 1023) ∧ Marked (1023 : ℕ) b₀ (s.buffer ()) ∧
      (∀ i, s.buffer () i = b₀ i ∨ ∃ w ∈ stack, ptrMask w = b₀ i) ∧ (b₀ 0).toNat = 4096 := by
  have run₀ : Run (system (leastConfig debug)) ok [] (initial fun _ => 0#64) := .init ⟨_, rfl⟩
  have run₁ := start_run lets run₀ () stack rfl rfl activates
  have hsmall : 16 * (256 + 1023) < 2 ^ 64 := by norm_num
  obtain ⟨es, s, b₀, hmoves, lone, hm, hlock, hstorage, hqueue, hes, mono, hperm, hmarked, hmarks⟩ :=
    lone_round lets () stack (addressRow 256 1023) _ _ run₁
      ⟨rfl, rfl, rfl, rfl, rfl, rfl⟩ rfl rfl rfl (fun a _ u hu => by simp at hu)
      (by rw [addressRow_length]; rfl)
      (fun es s a ha hf => pushes es s a (addressRow_aligned hsmall a ha) hf) 1023
      (by rw [addressRow_length]; rfl) (by rw [leastConfig_maxPtrs]; omega)
      (fun es s' hq hl => exchanges es s' (by rw [hq]; simp [addressRow]) hl) counts
      (by simpa [initial] using addressRow_nodup hsmall)
      (by simpa [initial] using addressRow_aligned hsmall)
      (by simpa [initial] using addressRow_nonzero hsmall (by norm_num))
  simp only [initial, List.flatten_nil, List.nil_append] at hperm
  refine ⟨es, s, b₀, run₁.extend hmoves, lone, hm, hlock, hstorage, hqueue, fun u a ha => ?_, mono, hperm,
    hmarked, hmarks, first_entry hsmall (by norm_num) mono hperm⟩
  exact (hes u a ha).resolve_left (by simp)

/-- Two threads fill their queues with different addresses and go for the lock. -/
theorem pair_full (ok : List (Event Bool) → State Bool → Event Bool → Prop) (lets : Lets ok)
    (activates : ∀ es s t, ok es s (.activate t []))
    (pushes : ∀ es s t (a : Word), a.toNat % 4 = 0 → Fresh a es → ok es s (.push t a)) :
    ∃ es s, Run (system (leastConfig false)) ok es s ∧ (∀ t, s.main t = .tryAcquire) ∧
      (∀ t, s.handler t = none) ∧ (∀ t, s.life t = .active) ∧ (∀ t, s.localBlock t = none) ∧
      (∀ t, s.pending t = 0) ∧ s.lock = none ∧ s.listLock = none ∧
      s.threadList = [false, true] ∧ s.storage = [] ∧
      s.queue true = addressRow 256 1023 ∧ s.queue false = addressRow 1279 1023 := by
  have run₀ : Run (system (leastConfig false)) ok [] (initial fun _ => 0#64) := .init ⟨_, rfl⟩
  have run₁ := start_run lets run₀ true [] rfl rfl fun _ => activates _ _ _
  have run₂ := start_run lets run₁ false [] rfl rfl fun _ => activates _ _ _
  have hsmall₁ : 16 * (256 + 1023) < 2 ^ 64 := by norm_num
  have hsmall₂ : 16 * (1279 + 1023) < 2 ^ 64 := by norm_num
  obtain ⟨es₃, run₃, hes₃⟩ := fill_run lets run₂ true (addressRow 256 1023)
    (fun es s a ha hf => pushes es s true a (addressRow_aligned hsmall₁ a ha) hf)
    (addressRow_nonzero hsmall₁ (by norm_num)) (addressRow_nodup hsmall₁)
    (fun a _ u hu => by simp at hu) rfl rfl rfl rfl (by rw [addressRow_length]; rfl)
  obtain ⟨es₄, run₄, -⟩ := fill_run lets run₃ false (addressRow 1279 1023)
    (fun es s a ha hf => pushes es s false a (addressRow_aligned hsmall₂ a ha) hf)
    (addressRow_nonzero hsmall₂ (by norm_num)) (addressRow_nodup hsmall₂)
    (fun a ha u hu => addressRow_apart ha ((hes₃ u a hu).resolve_left (by simp))) rfl rfl rfl rfl
    (by rw [addressRow_length]; rfl)
  refine ⟨es₄, _, run₄, ?_, fun _ => rfl, ?_, ?_, fun _ => rfl, rfl, rfl, rfl, rfl, ?_, ?_⟩
  · exact fun t => by cases t <;> simp
  · exact fun t => by cases t <;> simp
  · exact fun t => by cases t <;> simp [initial]
  · dsimp only
    rw [Function.update_of_ne (by decide), Function.update_self]
  · dsimp only
    rw [Function.update_self]

/-- Two threads fill their queues; one drains both, and the other helps it. -/
theorem pair_round (ok : List (Event Bool) → State Bool → Event Bool → Prop) (lets : Lets ok)
    (activates : ∀ es s t, ok es s (.activate t []))
    (pushes : ∀ es s t (a : Word), a.toNat % 4 = 0 → Fresh a es → ok es s (.push t a))
    (exchanges : ∀ es s t, ok es s (.exchange t)) (counts : ∀ es s t n, ok es s (.count t n)) :
    ∃ es s, Run (system (leastConfig false)) ok es s ∧ s.main true = .wait 1 ∧
      s.main false = .tryAcquire ∧ s.selfStacksSearched = 1 ∧ (∀ t, s.handler t = none) ∧
      s.listLock = none ∧ s.threadList = [false, true] ∧ s.storage = [] ∧
      ∀ t, s.queue t = [] := by
  obtain ⟨es₄, s₄, run₄, hmain, hhandler, hlife, hblock, hpending, hlock, hlistLock, hlist,
    hstorage, hqueue₁, hqueue₂⟩ := pair_full ok lets activates pushes
  have hsmall₁ : 16 * (256 + 1023) < 2 ^ 64 := by norm_num
  have hsmall₂ : 16 * (1279 + 1023) < 2 ^ 64 := by norm_num
  have hall : s₄.storage.flatten ++ s₄.threadList.flatMap s₄.queue =
      addressRow 1279 1023 ++ addressRow 256 1023 := by
    simp [hstorage, hlist, hqueue₁, hqueue₂]
  have hlength := congrArg List.length hall
  rw [List.length_append, List.length_append, addressRow_length, addressRow_length] at hlength
  obtain ⟨es₅, s₅, hleads₅, b, map, k, rfl, hperm, hsort⟩ :=
    drain_reach (leastConfig false) lets true es₄ s₄ (hmain true) (hhandler true) hlock hlistLock
      (by rw [hlist]; decide) 2046 (by omega)
      (by rw [leastConfig_maxPtrs]; omega)
      (fun es s' _ _ _ => exchanges es s' true) fun es s' => counts es s' true 2046
  rw [hall] at hperm
  have mono : Monotonic (2046 : ℕ) b := by
    refine monotonic_of_sorted hsort (hperm.nodup_iff.mpr ?_) (fun x hx => ?_) fun x hx => ?_
    · exact List.nodup_append'.mpr ⟨addressRow_nodup hsmall₂, addressRow_nodup hsmall₁,
        fun a ha => addressRow_apart ha⟩
    · obtain hx | hx := List.mem_append.mp (hperm.mem_iff.mp hx)
      · exact addressRow_aligned hsmall₂ x hx
      · exact addressRow_aligned hsmall₁ x hx
    · obtain hx | hx := List.mem_append.mp (hperm.mem_iff.mp hx)
      · exact addressRow_nonzero hsmall₂ (by norm_num) x hx
      · exact addressRow_nonzero hsmall₁ (by norm_num) x hx
  have run₅ := hleads₅.run run₄
  have hcalled : called (drained s₄ true 2046 b map k) true
      (drained s₄ true 2046 b map k).threadList = [false] := by
    simp [called, drained, hlist, hlife]
  have hsignal := signal_reach (leastConfig false) lets true es₅ (drained s₄ true 2046 b map k)
    (by simp [drained]) (hhandler true) hlistLock
  rw [hcalled] at hsignal
  obtain ⟨es₆, s₆, hleads₆, rfl⟩ := hsignal
  have run₆ := hleads₆.run run₅
  obtain ⟨es₇, s₇, hleads₇, b₇, -, rfl⟩ := helper_reach lets es₆ _ false run₆ (hhandler false)
    (by simp) (hblock false) (by simp [drained]) mono
  have run₇ := hleads₇.run run₆
  obtain ⟨es₈, s₈, hleads₈, b₈, -, rfl⟩ := wait_reach lets es₇ _ true 1 run₇ (hhandler true)
    (hblock true) (by simp) (by simp [drained]) mono
  refine ⟨es₈, _, hleads₈.run run₇, by simp, ?_, ?_, hhandler, hlistLock, hlist,
    rfl, ?_⟩
  · simp [drained, hmain]
  · simp [drained]
  · exact fun t => by cases t <;> simp [drained, hlist]

omit [DecidableEq T] in
theorem lets_anyEvent : Lets (anyEvent : List (Event T) → State T → Event T → Prop) :=
  fun _ _ _ _ => trivial

/-- The thread that was signalled has answered when the other one leaves its wait. -/
theorem signal_handshake_pair : ∃ (es : List (Event Bool)) (s s' : State Bool),
    Run (system (leastConfig false)) anyEvent es s ∧ Step (leastConfig false) s (.leave true) s' ∧
    s.selfStacksSearched = 1 ∧ ∀ u ∈ signalled es, u ∈ completed es := by
  obtain ⟨es, s, run, hm, -, hcount, hhandler, -⟩ := pair_round anyEvent lets_anyEvent
    (fun _ _ _ => trivial) (fun _ _ _ _ _ _ => trivial) (fun _ _ _ => trivial)
    (fun _ _ _ _ => trivial)
  have hleave : Step (leastConfig false) s (.leave true) _ :=
    .leave s true 1 hm (hhandler true) hcount.ge
  exact ⟨es, s, _, run, hleave, hcount,
    (signal_handshake (leastConfig false) es s run).1 true _ hleave⟩

end ThreadScan.Progress
