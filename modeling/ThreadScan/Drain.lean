import ThreadScan.Departure

/-! What a round takes. Whatever waits in the storage or in the queue of a thread when a
reclaimer gets the lock is on the list that it counts, however many threads collect, start and
exit meanwhile; only a thread that leaves the thread list keeps its queue from the round. -/
namespace ThreadScan.Drain
open Transition Search Compaction Rearrangement Reclaim Handshake Rounds Bookkeeping Capacity
open Departure

variable {T : Type*} [DecidableEq T] {cfg : Config}
  {ok : List (Event T) → State T → Event T → Prop} {es : List (Event T)} {s s' : State T}
  {r t : T} {a : Word}

/-- The reclaimer has the lock and has not counted its list yet. -/
def Filling : Main T → Prop
  | .assign | .exchange | .leftovers _ _ | .lockQueues _ | .popHead _ _ | .popTail _ _ _ _
  | .count _ => True
  | _ => False

/-- The address is in the queue of a thread that has left the list. -/
def Stranded (s : State T) (a : Word) : Prop := ∃ u, Gone (s.life u) ∧ a ∈ s.queue u

/-- Where an address may be that a reclaimer has not put on its list: it is still to come, or
its thread has left the list with it. -/
def Due (s : State T) (a : Word) : Main T → Prop
  | .assign | .exchange => a ∈ s.storage.flatten ∨ ∃ u, a ∈ s.queue u
  | .leftovers _ _ | .lockQueues _ => ∃ u, a ∈ s.queue u
  | .popHead rest _ => (∃ u ∈ rest, a ∈ s.queue u) ∨ Stranded s a
  | .popTail td rest _ k => a ∈ (s.queue td).take k ∨ (∃ u ∈ rest, a ∈ s.queue u) ∨ Stranded s a
  | .count _ => Stranded s a
  | _ => False

/-- The list has no room left. -/
def Packed (cfg : Config) : Main T → Prop
  | .popHead _ n | .count n => 2 * cfg.maxPtrs ≤ n
  | .popTail _ _ n k => 2 * cfg.maxPtrs ≤ n + k
  | _ => False

/-- The reclaimer is filling its list, which has the address or is about to get it, if it has
room for it. -/
def Sought (cfg : Config) (s : State T) (r : T) (a : Word) : Prop :=
  Filling (s.main r) ∧ (a ∈ place s (.list r) ∨ Due s a (s.main r) ∨ Packed cfg (s.main r))

omit [DecidableEq T] in
theorem Filling.held {m : Main T} (h : Filling m) : phase m = .held := by
  cases m <;> first | rfl | exact h.elim

omit [DecidableEq T] in
/-- The number of addresses that `g_tsdata` counts is of no account yet. -/
theorem Filling.list {m : Main T} (h : Filling m) (a : Mem) (n n' : ℕ) :
    workingList m a n = workingList m a n' := by
  cases m <;> first | rfl | exact h.elim

/-! ### The queues of threads that have not started -/

/-- Nothing has been collected by a thread that does not run yet. -/
def Unstarted (s : State T) : Prop :=
  ∀ u, s.life u = .unborn → s.queue u = []

theorem Unstarted.step (h : Unstarted s) {e : Event T} (move : Step cfg s e s') : Unstarted s' := by
  have hlife : ∀ {u v : T} {l : Life}, Function.update s.life v l u = .unborn → l ≠ .unborn →
      s.queue u = [] := by
    intro u v l hu hl
    by_cases huv : u = v
    · subst huv
      rw [Function.update_self] at hu
      exact absurd hu hl
    · rw [Function.update_of_ne huv] at hu
      exact h u hu
  cases move with
  | push t ptr _ _ alive =>
    intro u hu
    have hne : u ≠ t := by
      rintro rfl
      rw [alive] at hu
      cases hu
    exact (Function.update_of_ne hne _ _).trans (h u hu)
  | popTail t td rest n k =>
    intro u hu
    by_cases hut : u = td
    · subst hut
      dsimp only
      rw [Function.update_self, h u hu, List.drop_nil]
    · exact (Function.update_of_ne hut _ _).trans (h u hu)
  | create | activate | exit | remove | terminate => exact fun u hu => hlife hu (by simp)
  | _ => exact h

theorem run_unstarted (run : Run (system cfg) ok es s) : Unstarted s := by
  refine run.invariant (I := fun _ s => Unstarted s) ?_ fun _ _ _ _ _ inv _ move => inv.step move
  rintro s ⟨map, rfl⟩ u -
  rfl

/-- A thread that has collected something is on the list, or has left it. -/
theorem listed_or_gone (run : Run (system cfg) ok es s) {u : T} (h : a ∈ s.queue u) :
    u ∈ s.threadList ∨ Gone (s.life u) := by
  have hlisted := (run_roster run).listed u
  cases hl : s.life u with
  | unborn =>
    rw [run_unstarted run u hl] at h
    cases h
  | born | active | exiting => exact .inl (hlisted.mpr (by simp [hl]))
  | removed | terminated => exact .inr trivial

/-! ### What a step leaves to come -/

omit [DecidableEq T] in
/-- What is to come stays to come while the queues and the storage grow. -/
theorem Due.grow {m : Main T} (h : Due s a m) (queues : ∀ u, s.queue u <+: s'.queue u)
    (storage : ∀ a ∈ s.storage.flatten, a ∈ s'.storage.flatten)
    (life : ∀ u, Gone (s.life u) → Gone (s'.life u)) : Due s' a m := by
  have hstranded : Stranded s a → Stranded s' a := by
    rintro ⟨u, hu, ha⟩
    exact ⟨u, life u hu, (queues u).subset ha⟩
  have hrest : ∀ {rest : List T}, (∃ u ∈ rest, a ∈ s.queue u) → ∃ u ∈ rest, a ∈ s'.queue u := by
    rintro rest ⟨u, hu, ha⟩
    exact ⟨u, hu, (queues u).subset ha⟩
  cases m with
  | assign | exchange =>
    exact h.imp (storage a) fun ⟨u, hu⟩ => ⟨u, (queues u).subset hu⟩
  | leftovers | lockQueues =>
    obtain ⟨u, hu⟩ := h
    exact ⟨u, (queues u).subset hu⟩
  | popHead rest n => exact h.imp hrest hstranded
  | popTail td rest n k =>
    refine h.imp (fun ha => ?_) (Or.imp hrest hstranded)
    exact ((queues td).take k).subset ha
  | count n => exact hstranded h
  | _ => exact h.elim

omit [DecidableEq T] in
/-- A step that leaves the reclaimer and its buffer alone. -/
theorem Sought.rest (h : Sought cfg s r a) (hm : s'.main r = s.main r) (hb : s'.buffer r = s.buffer r)
    (queues : ∀ u, s.queue u <+: s'.queue u)
    (storage : ∀ a ∈ s.storage.flatten, a ∈ s'.storage.flatten)
    (life : ∀ u, Gone (s.life u) → Gone (s'.life u)) : Sought cfg s' r a := by
  obtain ⟨hfill, hdue⟩ := h
  refine ⟨by rw [hm]; exact hfill, hdue.imp (fun ha => ?_) (Or.imp (fun hd => ?_) fun hp => ?_)⟩
  · simp only [place, hm, hb]
    rw [hfill.list _ s'.nAddrs s.nAddrs]
    exact ha
  · rw [hm]
    exact hd.grow queues storage life
  · rw [hm]
    exact hp

/-- A step of another thread. -/
theorem Sought.other (h : Sought cfg s r a) {m : Main T} (hm : s'.main = Function.update s.main t m)
    (ht : t ≠ r) (hb : s'.buffer r = s.buffer r) (queues : ∀ u, s.queue u <+: s'.queue u)
    (storage : ∀ a ∈ s.storage.flatten, a ∈ s'.storage.flatten)
    (life : ∀ u, Gone (s.life u) → Gone (s'.life u)) : Sought cfg s' r a :=
  h.rest (by rw [hm, Function.update_of_ne ht.symm]) hb queues storage life

/-- A step of the reclaimer itself. -/
theorem Sought.own {m : Main T} (hm : s'.main = Function.update s.main r m) (fill : Filling m)
    (h : a ∈ workingList m (s'.buffer r) s'.nAddrs ∨ Due s' a m ∨ Packed cfg m) : Sought cfg s' r a := by
  have hr : s'.main r = m := by rw [hm, Function.update_self]
  refine ⟨by rw [hr]; exact fill, ?_⟩
  simp only [place, hr]
  exact h

/-- The reclaimer goes on to its next queue, which it sees as a whole if its list has room. -/
theorem Sought.goto (h : Sought cfg s r a) {m : Main T} (hg : Goto cfg s r (s.main r) m) :
    Sought cfg { s with main := Function.update s.main r m } r a := by
  obtain ⟨hfill, hsought⟩ := h
  simp only [place] at hsought
  cases hm : s.main r with
  | leftovers blocks n =>
    rw [hm] at hg hsought
    cases hg with
    | drained =>
      refine Sought.own rfl trivial (hsought.imp (fun ha => ?_) fun hd => hd)
      simpa [workingList] using ha
  | popHead rest n =>
    rw [hm] at hg hsought
    cases hg with
    | popHead td rest n =>
      refine Sought.own rfl trivial (hsought.imp_right ?_)
      rintro ((⟨u, hu, ha⟩ | hgone) | hpacked)
      · obtain rfl | hu := List.mem_cons.mp hu
        · by_cases hroom : n + (s.queue u).length ≤ 2 * cfg.maxPtrs
          · have htake : (s.queue u).take (min (2 * cfg.maxPtrs - n) (s.queue u).length) =
                s.queue u := List.take_of_length_le (by omega)
            exact .inl (.inl (htake.symm ▸ ha))
          · refine .inr ?_
            simp only [Packed]
            omega
        · exact .inl (.inr (.inl ⟨u, hu, ha⟩))
      · exact .inl (.inr (.inr hgone))
      · refine .inr ?_
        simp only [Packed] at hpacked ⊢
        omega
  | _ =>
    rw [hm] at hg hfill
    cases hg <;> exact hfill.elim

/-- The reclaimer moves what it saw of a queue to its list. -/
theorem Sought.popTail (h : Sought cfg s r a) {td : T} {rest : List T} {n k : ℕ}
    (hm : s.main r = .popTail td rest n k) (seen : k ≤ (s.queue td).length) :
    Sought cfg { s with
      buffer := Function.update s.buffer r (memcpy (s.buffer r) n ((s.queue td).take k))
      queue := Function.update s.queue td ((s.queue td).drop k)
      main := Function.update s.main r (.popHead rest (n + ((s.queue td).take k).length)) } r a := by
  have hlist : workingList (.popHead rest (n + ((s.queue td).take k).length))
      (memcpy (s.buffer r) n ((s.queue td).take k)) s.nAddrs =
        contents (s.buffer r) n ++ (s.queue td).take k := contents_memcpy _ _ _
  have hqueue : ∀ u, a ∈ s.queue u →
      a ∈ (s.queue td).take k ∨ a ∈ Function.update s.queue td ((s.queue td).drop k) u := by
    intro u hu
    by_cases hut : u = td
    · subst hut
      rw [Function.update_self, ← List.mem_append, List.take_append_drop]
      exact hu
    · exact .inr (by rwa [Function.update_of_ne hut])
  obtain ⟨-, hsought⟩ := h
  simp only [place, hm] at hsought
  refine Sought.own rfl trivial ?_
  simp only [Function.update_self, hlist, List.mem_append]
  obtain hin | (hin | ⟨u, hu, ha⟩ | ⟨u, hu, ha⟩) | hpacked := hsought
  · exact .inl (.inl hin)
  · exact .inl (.inr hin)
  · exact (hqueue u ha).imp Or.inr fun hd => .inl (.inl ⟨u, hu, hd⟩)
  · exact (hqueue u ha).imp Or.inr fun hd => .inl (.inr ⟨u, hu, hd⟩)
  · refine .inr (.inr ?_)
    simp only [Packed, List.length_take] at hpacked ⊢
    omega

/-! ### What a reclaimer has seen of a queue -/

/-- A queue holds at least what the reclaimer that pops it has seen. -/
def Seen (s : State T) : Prop :=
  ∀ t td rest n k, s.main t = .popTail td rest n k → k ≤ (s.queue td).length

theorem Seen.move (h : Seen s) {m : Main T} (hm : s'.main = Function.update s.main t m)
    (hq : s'.queue = s.queue)
    (new : ∀ td rest n k, m = .popTail td rest n k → k ≤ (s.queue td).length) : Seen s' := by
  intro u td rest n k hu
  rw [hm] at hu
  rw [hq]
  by_cases hut : u = t
  · subst hut
    rw [Function.update_self] at hu
    exact new td rest n k hu
  · rw [Function.update_of_ne hut] at hu
    exact h u td rest n k hu

theorem Seen.step (run : Run (system cfg) ok es s) (h : Seen s) {e : Event T}
    (move : Step cfg s e s') : Seen s' := by
  cases move with
  | goto u m _ hg =>
    refine h.move rfl rfl ?_
    rintro td rest n k rfl
    generalize s.main u = m₀ at hg
    cases hg with
    | popHead => exact Nat.min_le_right _ _
  | push u ptr hu =>
    intro v td rest n k hv
    have hne : v ≠ u := by
      rintro rfl
      simp only [Function.update_self] at hv
      cases hv
    simp only [Function.update_of_ne hne] at hv
    have hle := h v td rest n k hv
    by_cases htu : td = u
    · subst htu
      simp only [Function.update_self, List.length_append]
      omega
    · simp only [Function.update_of_ne htu]
      exact hle
  | popTail u td' rest' n' k' hu =>
    -- nobody else pops
    intro v td rest n k hv
    have hne : v ≠ u := by
      rintro rfl
      simp only [Function.update_self] at hv
      cases hv
    simp only [Function.update_of_ne hne] at hv
    exact absurd (alone run (t := v) (by simp [hv, phase]) (by simp [hu, phase])) hne
  | acquire | assign | exchange | leftover | lockQueues | unlockQueues | count | sort | scanMap
  | reset | lockSignal | kill | unlockSignal | search | leave | release | verify | keep | free
  | randomize | store => exact h.move rfl rfl (by simp)
  | _ => exact h

theorem run_seen (run : Run (system cfg) ok es s) : Seen s := by
  refine run.invariant (I := fun _ s => Seen s) ?_ fun _ _ _ _ run inv _ move => inv.step run move
  rintro s ⟨map, rfl⟩ t td rest n k h
  simp [initial] at h

/-- No step before the count takes the address out of the way of the round. -/
theorem Sought.step (run : Run (system cfg) ok es s) (h : Sought cfg s r a)
    {e : Event T} (uncounted : ∀ n, e ≠ .count r n) (move : Step cfg s e s') :
    Sought cfg s' r a := by
  have hheld : phase (s.main r) ≠ .away := by simp [h.1.held]
  -- whoever else has the lock is the reclaimer
  have hsame : ∀ {u : T}, phase (s.main u) ≠ .away → u = r := fun hu => alone run hu hheld
  -- a thread that is not filling its list is another one
  have hne : ∀ {u : T}, ¬ Filling (s.main u) → u ≠ r := by
    rintro u hu rfl
    exact hu h.1
  have hclosed : ¬ RollCall.Open (phase (s.main r)) := by
    rw [h.1.held]
    exact id
  have hqueues : ∀ u, s.queue u <+: s.queue u := fun u => List.prefix_rfl
  have hsought := h.2
  simp only [place] at hsought
  cases move with
  | goto u m _ hg =>
    by_cases hur : u = r
    · subst hur
      exact h.goto hg
    · exact h.other rfl hur rfl hqueues (fun _ ha => ha) fun _ hu => hu
  | assign u mem map hu =>
    obtain rfl := hsame (u := u) (by simp [hu, phase])
    simp only [hu, workingList, List.not_mem_nil, false_or] at hsought
    exact Sought.own rfl trivial (.inr hsought)
  | exchange u hu =>
    obtain rfl := hsame (u := u) (by simp [hu, phase])
    simp only [hu, workingList, List.not_mem_nil, false_or] at hsought
    refine Sought.own rfl trivial ?_
    obtain (hstored | hqueued) | hpacked := hsought
    · exact .inl (List.mem_append_right _ hstored)
    · exact .inr (.inl hqueued)
    · exact hpacked.elim
  | leftover u block blocks n hu =>
    obtain rfl := hsame (u := u) (by simp [hu, phase])
    simp only [hu, workingList] at hsought
    refine Sought.own rfl trivial (hsought.imp_left fun ha => ?_)
    simpa [workingList, contents_memcpy] using ha
  | lockQueues u n hu =>
    obtain rfl := hsame (u := u) (by simp [hu, phase])
    rw [hu] at hsought
    refine Sought.own rfl trivial (hsought.imp_right (Or.imp ?_ False.elim))
    rintro ⟨v, hv⟩
    obtain hl | hl := listed_or_gone run hv
    · exact .inl ⟨v, hl, hv⟩
    · exact .inr ⟨v, hl, hv⟩
  | popTail u td rest n k hu =>
    obtain rfl := hsame (u := u) (by simp [hu, phase])
    exact h.popTail hu (run_seen run _ _ _ _ _ hu)
  | unlockQueues u n hu =>
    obtain rfl := hsame (u := u) (by simp [hu, phase])
    rw [hu] at hsought
    refine Sought.own rfl trivial (hsought.imp_right (Or.imp_left ?_))
    rintro (⟨v, hv, -⟩ | hgone)
    · cases hv
    · exact hgone
  | count u n hu =>
    obtain rfl := hsame (u := u) (by simp [hu, phase])
    exact absurd rfl (uncounted n)
  | push u ptr hu =>
    refine h.other rfl (hne (by rw [hu]; exact id)) rfl (fun v => ?_) (fun _ ha => ha) fun _ hv => hv
    by_cases hvu : v = u
    · subst hvu
      simp
    · simp only [Function.update_of_ne hvu, List.prefix_rfl]
  | sort u hu | keep u _ _ _ hu | free u _ _ _ _ hu | randomize u _ hu =>
    have hur := hne (u := u) (by rw [hu]; exact id)
    exact h.other rfl hur (Function.update_of_ne hur.symm _ _) hqueues (fun _ ha => ha)
      fun _ hv => hv
  | search u c stage scan hu =>
    exact h.other rfl (hne (by rw [hu]; exact id)) (storeBuf_other run (.inl ⟨c, stage, hu⟩) _ hclosed)
      hqueues (fun _ ha => ha) fun _ hv => hv
  | store u n hu =>
    exact h.other rfl (hne (by rw [hu]; exact id)) rfl hqueues
      (fun x hx => by
        rw [List.flatten_cons]
        exact List.mem_append_right _ hx) fun _ hv => hv
  | acquire u hu | scanMap u hu | reset u hu | lockSignal u hu | kill u _ _ _ hu
  | unlockSignal u _ hu | leave u _ hu | release u _ hu | verify u _ hu =>
    exact h.other rfl (hne (by rw [hu]; exact id)) rfl hqueues (fun _ ha => ha) fun _ hv => hv
  | helperSearch u stage scan hu =>
    exact h.rest rfl (storeBuf_other run (.inr ⟨stage, hu⟩) _ hclosed) hqueues (fun _ ha => ha)
      fun _ hv => hv
  | create u hu | activate u _ hu | exit u hu | remove u hu | terminate u hu =>
    refine h.rest rfl rfl hqueues (fun _ ha => ha) fun v hv => ?_
    dsimp only
    by_cases hvu : v = u
    · subst hvu
      rw [hu] at hv
      rw [Function.update_self]
      first | exact hv.elim | trivial
    · rw [Function.update_of_ne hvu]
      exact hv
  | enterHandler | helperNext | helperDone | helperCount | helperTail | mutate =>
    exact h.rest rfl rfl hqueues (fun _ ha => ha) fun _ hv => hv

/-! ### A round -/

theorem sought_moves {es₀ : List (Event T)} {s₀ : State T} (run : Run (system cfg) ok es₀ s₀)
    (h : Sought cfg s₀ r a) {c : List (Event T) × State T}
    (course : Moves (system cfg) ok (es₀, s₀) c) :
    ∃ fs, c.1 = fs ++ es₀ ∧ ((∀ n, Event.count r n ∉ fs) → Sought cfg c.2 r a) := by
  have hstep : ∀ {es s e s'}, Moves (system cfg) ok (es₀, s₀) (es, s) → Sought cfg s r a →
      ok es s e → Step cfg s e s' → Sought cfg s' r a ∨ ∃ n, e = .count r n := by
    intro es s e s' moves hs _ move
    by_cases hcount : ∃ n, e = .count r n
    · exact .inr hcount
    · exact .inl (hs.step (run.extend moves) (fun n hn => hcount ⟨n, hn⟩) move)
  obtain ⟨fs, hfs, hstate⟩ := Moves.until h hstep course
  refine ⟨fs, hfs, fun hnone => hstate.resolve_left ?_⟩
  rintro ⟨e, he, n, rfl⟩
  exact hnone n he

/-- A round takes whatever has been collected before its reclaimer got the lock: when it counts
its list, every address that was in the storage or in a queue is on the list, but for what is
in the queue of a thread that has left the thread list. Only a list of `2 * max_ptrs` entries
may leave addresses to the next round. -/
theorem round_takes (cfg : Config) (es₀ : List (Event T)) (s₀ : State T)
    (run : Run (system cfg) anyEvent es₀ s₀) (r : T) (starts : s₀.main r = .assign) (a : Word)
    (waiting : a ∈ s₀.storage.flatten ∨ ∃ u, a ∈ s₀.queue u) (fs : List (Event T)) (s : State T)
    (course : Moves (system cfg) anyEvent (es₀, s₀) (fs ++ es₀, s))
    (uncounted : ∀ n, Event.count r n ∉ fs) (n : ℕ) (ends : s.main r = .count n)
    (room : n < 2 * cfg.maxPtrs) :
    a ∈ contents (s.buffer r) n ∨ ∃ u, Gone (s.life u) ∧ a ∈ s.queue u := by
  have hstart : Sought cfg s₀ r a := by
    rw [Sought, starts]
    exact ⟨trivial, .inr (.inl waiting)⟩
  obtain ⟨fs', hfs, hsought⟩ := sought_moves run hstart course
  obtain rfl : fs = fs' := List.append_cancel_right hfs
  have hend := (hsought uncounted).2
  simp only [place, ends, workingList] at hend
  refine hend.imp_right fun h => h.resolve_right fun hpacked => ?_
  simp only [Packed] at hpacked
  omega

/-- The round of a thread on its own gets to its count. -/
theorem lone_count (cfg : Config) (es : List (Event T)) (s : State T) (t : T)
    (h : s.main t = .assign) (awake : s.handler t = none) (free : s.listLock = none)
    (lone : s.threadList = [t]) (empty : s.storage = []) :
    ∃ fs s', Moves (system cfg) anyEvent (es, s) (fs ++ es, s') ∧ (∀ n, Event.count t n ∉ fs) ∧
      s'.main t = .count (min (2 * cfg.maxPtrs) (s.queue t).length) ∧ s'.life = s.life := by
  have m₁ : Moves (system cfg) anyEvent (es, s) _ :=
    .one trivial (.assign s t (fun _ => 0#64) s.bufScanMap h awake fun _ _ _ => rfl)
  have m₂ := m₁.tail trivial (.exchange _ t (by simp) awake)
  have m₃ := m₂.tail trivial (.goto _ t (.lockQueues 0) awake (by
    simp only [Function.update_self, empty]
    exact .drained 0))
  have m₄ := m₃.tail trivial (.lockQueues _ t 0 (by simp) awake free)
  have m₅ := m₄.tail trivial (.goto _ t _ awake (by
    simp only [Function.update_self, lone]
    exact .popHead t [] 0))
  have m₆ := m₅.tail trivial (.popTail _ t t [] 0 _ (Function.update_self ..) awake)
  have m₇ := m₆.tail trivial (.unlockQueues _ t _ (Function.update_self ..) awake)
  refine ⟨[.other, .other, .other, .other, .other, .exchange t, .other], _, m₇, by simp, ?_, rfl⟩
  simp

/-- A thread fills its queue and gets the lock. -/
theorem acquired_first : ∃ (es : List (Event Unit)) (s : State Unit),
    Run (system (Progress.leastConfig false)) anyEvent es s ∧ s.main () = .assign ∧
      s.handler () = none ∧ s.listLock = none ∧ s.threadList = [()] ∧ s.storage = [] ∧
      s.queue () = Progress.addressRow 256 1023 ∧ s.life () = .active := by
  have hsmall : 16 * (256 + 1023) < 2 ^ 64 := by norm_num
  have run₀ : Run (system (Progress.leastConfig false)) anyEvent []
      (initial (T := Unit) fun _ => 0#64) := .init ⟨_, rfl⟩
  have run₁ := Progress.start_run Progress.lets_anyEvent run₀ () [] rfl rfl fun _ => trivial
  obtain ⟨es₂, run₂, -⟩ := Progress.fill_run Progress.lets_anyEvent run₁ ()
    (Progress.addressRow 256 1023) (fun _ _ _ _ _ => trivial)
    (Progress.addressRow_nonzero hsmall (by norm_num)) (Progress.addressRow_nodup hsmall)
    (fun a _ u hu => by simp at hu) rfl rfl (by simp) rfl (by rw [Progress.addressRow_length]; rfl)
  have run₃ := run₂.step trivial (.acquire _ () (by simp) rfl rfl)
  refine ⟨_, _, run₃, ?_, rfl, rfl, rfl, rfl, ?_, ?_⟩ <;> simp only [Function.update_self]

/-- Its round takes the addresses. -/
theorem round_takes_first : ∃ (es : List (Event Unit)) (s : State Unit) (n : ℕ),
    Run (system (Progress.leastConfig false)) anyEvent es s ∧ s.main () = .count n ∧
      4096#64 ∈ contents (s.buffer ()) n := by
  obtain ⟨es₀, s₀, run, hm₀, hawake, hfree, hlist, hstorage, hqueue, hactive⟩ := acquired_first
  obtain ⟨fs, s, hmoves, hnone, hm, hlife⟩ :=
    lone_count (Progress.leastConfig false) es₀ s₀ () hm₀ hawake hfree hlist hstorage
  have hmem : 4096#64 ∈ s₀.queue () := by
    rw [hqueue]
    exact List.mem_map.mpr ⟨0, List.mem_range.mpr (by norm_num), rfl⟩
  have hroom : min (2 * (Progress.leastConfig false).maxPtrs) (s₀.queue ()).length <
      2 * (Progress.leastConfig false).maxPtrs := by
    rw [hqueue, Progress.addressRow_length, Progress.leastConfig_maxPtrs]
    omega
  have htakes := round_takes _ es₀ s₀ run () hm₀ 4096#64 (.inr ⟨(), hmem⟩) fs s hmoves hnone _ hm hroom
  refine ⟨_, s, _, run.extend hmoves, hm, htakes.resolve_right ?_⟩
  rintro ⟨u, hu, -⟩
  rw [hlife, hactive] at hu
  exact hu

end ThreadScan.Drain
