import ThreadScan.Lifecycle

/-! The thread limit. Every thread that is counted in `g_thread_count` is on its way to the
thread list, on it, or on its way out; `pthread_create` tests the count before it adds the new
thread to it. -/
namespace ThreadScan.ThreadLimit
open Transition LinkedList Lifecycle
open Reclaim (Config maxThreadCount)

/-- What one unit of the count stands for. -/
inductive Ticket (R : Type*)
  | creation (t : R)
  | thread (td : R)
  | refused (t : R)
  deriving DecidableEq

variable {R K : Type*} [DecidableEq R]

/-- A thread that is being created: its record is not on the list yet. -/
def Creating : Pc R K → Prop
  | .loading | .loaded | .counted _ | .created _ _ | .stacked _ => True
  | _ => False

/-- A thread that has left the list and is still counted. -/
def Outgoing : Pc R K → Prop
  | .removed | .staging | .staged => True
  | _ => False

/-- The units of the count, by the history of its changes. -/
def tickets (main : R) : List (Event R K) → List (Ticket R)
  | [] => [.creation main]
  | .count t :: es => .creation t :: tickets main es
  | .refuse t :: es => .refused t :: tickets main es
  | .add t td :: es => .thread td :: (tickets main es).erase (.creation t)
  | .uncount t :: es => (tickets main es).erase (.thread t)
  | _ :: es => tickets main es

/-- Each unit stands for a thread of its own. -/
structure Tickets (main : R) (es : List (Event R K)) (s : State R K) : Prop where
  length : s.threadCount = (tickets main es).length
  nodup : (tickets main es).Nodup
  creation : ∀ t, .creation t ∈ tickets main es ↔ Creating (s.pc t)
  thread : ∀ r, .thread r ∈ tickets main es ↔ r ∈ listed es ∨ Outgoing (s.pc r)
  refused : ∀ t, .refused t ∈ tickets main es ↔ s.pc t = .refused
  left : ∀ r, Outgoing (s.pc r) → r ∉ listed es

variable {cfg : Config} {ok : List (Event R K) → State R K → Event R K → Prop}
  {main t : R} {es : List (Event R K)} {s s' : State R K} {e : Event R K} {m : Pc R K}

/-- A step that changes neither the count nor the list. -/
theorem Tickets.same (h : Tickets main es s) (count : s'.threadCount = s.threadCount)
    (event : tickets main (e :: es) = tickets main es ∧ listed (e :: es) = listed es)
    (pc : ∀ u, (Creating (s'.pc u) ↔ Creating (s.pc u)) ∧
      (Outgoing (s'.pc u) ↔ Outgoing (s.pc u)) ∧ (s'.pc u = .refused ↔ s.pc u = .refused)) :
    Tickets main (e :: es) s' := by
  obtain ⟨ht, hl⟩ := event
  constructor
  · rw [count, ht]
    exact h.length
  · rw [ht]
    exact h.nodup
  · intro u
    rw [ht, (pc u).1]
    exact h.creation u
  · intro u
    rw [ht, hl, (pc u).2.1]
    exact h.thread u
  · intro u
    rw [ht, (pc u).2.2]
    exact h.refused u
  · intro u hu
    rw [hl]
    exact h.left u ((pc u).2.1.mp hu)

theorem Tickets.stay (h : Tickets main es s) (count : s'.threadCount = s.threadCount)
    (event : tickets main (e :: es) = tickets main es ∧ listed (e :: es) = listed es)
    (pc : s'.pc = Function.update s.pc t m) (creating : Creating m ↔ Creating (s.pc t))
    (outgoing : Outgoing m ↔ Outgoing (s.pc t)) (refused : m = .refused ↔ s.pc t = .refused) :
    Tickets main (e :: es) s' := by
  refine h.same count event fun u => ?_
  rw [pc]
  by_cases hu : u = t
  · subst hu
    rw [Function.update_self]
    exact ⟨creating, outgoing, refused⟩
  · rw [Function.update_of_ne hu]
    exact ⟨.rfl, .rfl, .rfl⟩

/-- A record comes onto the list: a creation becomes a thread. -/
theorem Tickets.add {td : R} (h : Tickets main es s) (count : s'.threadCount = s.threadCount)
    (pc : s'.pc = Function.update s.pc t m) (before : Creating (s.pc t)) (creating : ¬ Creating m)
    (outgoing : ¬ Outgoing m) (refused : m ≠ .refused) (new : td ∉ listed es)
    (inside : ¬ Outgoing (s.pc td)) : Tickets main (.add t td :: es) s' := by
  have hmem := (h.creation t).mpr before
  have hnew : .thread td ∉ tickets main es := fun hin => by
    rcases (h.thread td).mp hin with hl | ho
    · exact new hl
    · exact inside ho
  have hout : ∀ u, Outgoing (s'.pc u) ↔ Outgoing (s.pc u) := by
    intro u
    rw [pc]
    by_cases hu : u = t
    · subst hu
      rw [Function.update_self]
      refine iff_of_false outgoing fun ho => ?_
      generalize s.pc u = m' at before ho
      cases m' <;> first | exact before.elim | exact ho.elim
    · rw [Function.update_of_ne hu]
  constructor
  · rw [count, h.length, tickets, List.length_cons, List.length_erase_of_mem hmem]
    have := List.length_pos_of_mem hmem
    omega
  · exact List.nodup_cons.mpr ⟨fun hin => hnew (List.mem_of_mem_erase hin), h.nodup.erase _⟩
  · intro u
    rw [tickets, List.mem_cons, h.nodup.mem_erase_iff, h.creation u, pc]
    by_cases hu : u = t
    · subst hu
      simpa using creating
    · rw [Function.update_of_ne hu]
      simp [hu]
  · intro r
    rw [tickets, List.mem_cons, h.nodup.mem_erase_iff, h.thread r, hout r]
    change _ ↔ r ∈ td :: listed es ∨ _
    rw [List.mem_cons]
    simp [or_assoc]
  · intro u
    rw [tickets, List.mem_cons, h.nodup.mem_erase_iff, h.refused u, pc]
    by_cases hu : u = t
    · subst hu
      rw [Function.update_self]
      refine iff_of_false (fun hr => ?_) refused
      rw [(hr.resolve_left (by simp)).2] at before
      exact before
    · rw [Function.update_of_ne hu]
      simp
  · intro r hr
    have hold := (hout r).mp hr
    change r ∉ td :: listed es
    rw [List.mem_cons, not_or]
    refine ⟨?_, h.left r hold⟩
    rintro rfl
    exact inside hold

/-- A record leaves the list: its thread is still counted. -/
theorem Tickets.remove (h : Tickets main es s) (count : s'.threadCount = s.threadCount)
    (pc : s'.pc = Function.update s.pc t .removed) (before : ¬ Creating (s.pc t))
    (refused : s.pc t ≠ .refused) (outgoing : ¬ Outgoing (s.pc t)) (on : t ∈ listed es)
    (nodup : (listed es).Nodup) : Tickets main (.remove t :: es) s' := by
  have hpc : ∀ u, u ≠ t → s'.pc u = s.pc u := fun u hu => by rw [pc, Function.update_of_ne hu]
  have hself : s'.pc t = .removed := by rw [pc, Function.update_self]
  constructor
  · exact count.trans h.length
  · exact h.nodup
  · intro u
    change _ ∈ tickets main es ↔ _
    by_cases hu : u = t
    · subst hu
      rw [h.creation, hself]
      exact iff_of_false before id
    · rw [hpc u hu]
      exact h.creation u
  · intro r
    change _ ∈ tickets main es ↔ r ∈ (listed es).erase t ∨ _
    rw [nodup.mem_erase_iff, h.thread]
    by_cases hr : r = t
    · subst hr
      rw [hself]
      exact iff_of_true (.inl on) (.inr trivial)
    · rw [hpc r hr]
      simp [hr]
  · intro u
    change _ ∈ tickets main es ↔ _
    by_cases hu : u = t
    · subst hu
      rw [h.refused, hself]
      exact iff_of_false refused (by simp)
    · rw [hpc u hu]
      exact h.refused u
  · intro r hr
    change r ∉ (listed es).erase t
    by_cases hrt : r = t
    · subst hrt
      exact nodup.not_mem_erase
    · rw [hpc r hrt] at hr
      exact fun hmem => h.left r hr (List.mem_of_mem_erase hmem)

/-- A call of `pthread_create` is counted, whether it goes on or not. -/
theorem Tickets.count {x : Ticket R} (h : Tickets main es s) (more : s'.threadCount = s.threadCount + 1)
    (event : tickets main (e :: es) = x :: tickets main es ∧ listed (e :: es) = listed es)
    (pc : s'.pc = Function.update s.pc t m) (before : s.pc t = .user) (outgoing : ¬ Outgoing m)
    (fresh : x = .creation t ∧ Creating m ∧ m ≠ .refused ∨
      x = .refused t ∧ ¬ Creating m ∧ m = .refused) : Tickets main (e :: es) s' := by
  obtain ⟨ht, hl⟩ := event
  have hself : s'.pc t = m := by rw [pc, Function.update_self]
  have hpc : ∀ u, u ≠ t → s'.pc u = s.pc u := fun u hu => by rw [pc, Function.update_of_ne hu]
  have hcreation : .creation t ∉ tickets main es := by
    rw [h.creation, before]
    exact id
  have hrefused : .refused t ∉ tickets main es := by
    rw [h.refused, before]
    simp
  have hout : ∀ r, Outgoing (s'.pc r) ↔ Outgoing (s.pc r) := by
    intro r
    by_cases hr : r = t
    · subst hr
      rw [hself, before]
      exact iff_of_false outgoing id
    · rw [hpc r hr]
  constructor
  · rw [more, ht, h.length]
    simp
  · rw [ht]
    rcases fresh with ⟨rfl, -⟩ | ⟨rfl, -⟩
    · exact List.nodup_cons.mpr ⟨hcreation, h.nodup⟩
    · exact List.nodup_cons.mpr ⟨hrefused, h.nodup⟩
  · intro u
    rw [ht, List.mem_cons]
    by_cases hu : u = t
    · subst hu
      rw [hself, or_iff_left hcreation]
      rcases fresh with ⟨rfl, hm, -⟩ | ⟨rfl, hm, -⟩
      · exact iff_of_true rfl hm
      · exact iff_of_false (by simp) hm
    · rw [hpc u hu, ← h.creation u]
      rcases fresh with ⟨rfl, -⟩ | ⟨rfl, -⟩ <;> simp [hu]
  · intro r
    rw [ht, List.mem_cons, hl, hout r, ← h.thread r]
    rcases fresh with ⟨rfl, -⟩ | ⟨rfl, -⟩ <;> simp
  · intro u
    rw [ht, List.mem_cons]
    by_cases hu : u = t
    · subst hu
      rw [hself, or_iff_left hrefused]
      rcases fresh with ⟨rfl, -, hm⟩ | ⟨rfl, -, hm⟩
      · exact iff_of_false (by simp) hm
      · exact iff_of_true rfl hm
    · rw [hpc u hu, ← h.refused u]
      rcases fresh with ⟨rfl, -⟩ | ⟨rfl, -⟩ <;> simp [hu]
  · intro r hr
    rw [hl]
    exact h.left r ((hout r).mp hr)

/-- `pthread_exit` gives the count back. -/
theorem Tickets.uncount (h : Tickets main es s) (less : s'.threadCount = s.threadCount - 1)
    (pc : s'.pc = Function.update s.pc t .leaving) (before : s.pc t = .staged) :
    Tickets main (.uncount t :: es) s' := by
  have hself : s'.pc t = .leaving := by rw [pc, Function.update_self]
  have hpc : ∀ u, u ≠ t → s'.pc u = s.pc u := fun u hu => by rw [pc, Function.update_of_ne hu]
  have hout : Outgoing (s.pc t) := by
    rw [before]
    trivial
  have hmem := (h.thread t).mpr (.inr hout)
  constructor
  · rw [less, h.length, tickets, List.length_erase_of_mem hmem]
    have := List.length_pos_of_mem hmem
    omega
  · exact h.nodup.erase _
  · intro u
    rw [tickets, h.nodup.mem_erase_iff, h.creation]
    by_cases hu : u = t
    · subst hu
      rw [hself, before]
      simp [Creating]
    · rw [hpc u hu]
      simp
  · intro r
    change _ ↔ r ∈ listed es ∨ _
    rw [tickets, h.nodup.mem_erase_iff, h.thread]
    by_cases hr : r = t
    · subst hr
      rw [hself]
      simp [Outgoing, h.left r hout]
    · rw [hpc r hr]
      simp [hr]
  · intro u
    rw [tickets, h.nodup.mem_erase_iff, h.refused]
    by_cases hu : u = t
    · subst hu
      rw [hself, before]
      simp
    · rw [hpc u hu]
      simp
  · intro r hr
    by_cases hrt : r = t
    · subst hrt
      rw [hself] at hr
      exact absurd hr id
    · rw [hpc r hrt] at hr
      exact h.left r hr

omit [DecidableEq R] in
/-- A walk is made by a thread that neither creates a thread nor is on its way out. -/
theorem reads_plain {u : R} (h : m.reads = some u) :
    ¬ Creating m ∧ ¬ Outgoing m ∧ m ≠ .refused := by
  cases m with
  | walking | removing | cleaning => simp [Creating, Outgoing]
  | _ => exact absurd h (by simp [Pc.reads])

theorem Tickets.step (h : Tickets main es s) (inv : Inv es s) (move : Step cfg s e s') :
    Tickets main (e :: es) s' := by
  cases move with
  | loadAdd t ht =>
    have hplace : s.place t = .creating := inv.at_of ht
    exact h.add rfl rfl (by simp [ht, Creating]) id id (by simp)
      (inv.not_listed (by simp [hplace]) (by simp [hplace])) (by simp [ht, Outgoing])
  | add t td ht =>
    obtain ⟨-, hplace, hb⟩ := inv.at_of ht
    exact h.add rfl rfl (by simp [ht, Creating]) id id (by simp)
      (inv.not_listed (by simp [hplace]) (by simp [hplace])) (by simp [hb, Outgoing])
  | count t userStack ht =>
    exact h.count rfl ⟨rfl, rfl⟩ rfl ht id (.inl ⟨rfl, trivial, by simp⟩)
  | refuse t ht =>
    exact h.count rfl ⟨rfl, rfl⟩ rfl ht id (.inr ⟨rfl, id, rfl⟩)
  | removeHead t ht =>
    have hown : Own es s t := inv.at_of ht
    exact h.remove rfl rfl (by simp [ht, Creating]) (by simp [ht]) (by simp [ht, Outgoing]) hown.1
      inv.list.nodup
  | removeLink t tmp ht =>
    obtain ⟨hown, -⟩ := inv.at_of ht
    exact h.remove rfl rfl (by simp [ht, Creating]) (by simp [ht]) (by simp [ht, Outgoing]) hown.1
      inv.list.nodup
  | uncount t ht => exact h.uncount rfl rfl ht
  | spawn t td tid detached ht =>
    obtain ⟨-, -, hb⟩ := inv.at_of ht
    refine h.same rfl ⟨rfl, rfl⟩ fun u => ?_
    by_cases hutd : u = td
    · subst hutd
      simp [hb, Creating, Outgoing]
    · by_cases hut : u = t
      · subst hut
        simp [hutd, ht, Creating, Outgoing]
      · simp [hutd, hut]
  | collect t ht | walkPop t u k ht => 
    exact h.stay (t := t) rfl ⟨rfl, rfl⟩ (Function.update_eq_self ..).symm .rfl .rfl .rfl
  | fault t u ht =>
    obtain ⟨hc, ho, hr⟩ := reads_plain ht
    exact h.stay (t := t) rfl ⟨rfl, rfl⟩ rfl (iff_of_false id hc) (iff_of_false id ho)
      (iff_of_false (by simp) hr)
  | decrRef t ht =>
    refine h.stay (t := t) rfl ⟨rfl, rfl⟩ rfl ?_ ?_ ?_ <;>
    split_ifs <;> simp [ht, Creating, Outgoing]
  | load t ht | base t ht | new t _ _ ht | userStack t _ ht | ownStack t _ ht | fail t _ ht
  | failStack t _ ht | failNoStack t _ ht | failAssert t _ ht | failFree t _ ht | walk t ht
  | walkNext t _ ht | walkEnd t ht | exit t ht | removeWalk t _ ht | removeNone t ht
  | removeNext t _ _ ht | removeLost t _ ht | stage t ht | leave t ht | join t _ ht
  | joinError t _ ht | clean t _ _ ht | cleanNext t _ _ _ _ ht | cleanHead t _ _ _ ht
  | cleanLink t _ _ _ _ ht | cleanLost t _ _ _ ht | cleanRace t _ _ ht | cleanStack t _ _ ht
  | cleanNoStack t _ _ ht | cleanAssert t _ _ ht | cleanFree t _ _ ht =>
    exact h.stay (t := t) rfl ⟨rfl, rfl⟩ rfl (by simp [ht, Creating]) (by simp [ht, Outgoing])
      (by simp [ht])

theorem tickets_initial (main : R) (self tid : R → K) :
    Tickets main [] (initial main self tid) := by
  have hpc : ∀ t, (initial main self tid).pc t = if t = main then .loading else .unborn := by
    intro t
    simp only [initial, Function.update_apply]
  constructor
  · rfl
  · exact List.nodup_singleton _
  · intro t
    rw [hpc]
    split_ifs with ht <;> simp [tickets, Creating, ht]
  · intro r
    rw [hpc]
    split_ifs <;> simp [tickets, listed, Outgoing]
  · intro t
    rw [hpc]
    split_ifs <;> simp [tickets]
  · intro r _
    simp [listed]

/-- Every record on the thread list is counted. -/
theorem Tickets.counted (h : Tickets main es s) (inv : Inv es s) :
    ((listed es).length : ℤ) ≤ s.threadCount := by
  have hsub : (listed es).map Ticket.thread ⊆ tickets main es := by
    intro x hx
    obtain ⟨r, hr, rfl⟩ := List.mem_map.mp hx
    exact (h.thread r).mpr (.inl hr)
  have hnodup : ((listed es).map Ticket.thread).Nodup :=
    inv.list.nodup.map fun a b hab => Ticket.thread.inj hab
  have hle := (hnodup.subperm hsub).length_le
  rw [List.length_map] at hle
  rw [h.length]
  exact_mod_cast hle

/-- Only the main thread is registered by `main_replacement`. -/
def Loading : Pc R K → Prop
  | .loading | .loaded => True
  | _ => False

theorem loading_step (move : Step cfg s e s') {u : R} (h : Loading (s'.pc u)) :
    Loading (s.pc u) := by
  have hmove : ∀ {t : R} {m : Pc R K}, s'.pc = Function.update s.pc t m → ¬ Loading m →
      Loading (s.pc u) := by
    intro t m hpc hm
    rw [hpc] at h
    by_cases hu : u = t
    · subst hu
      rw [Function.update_self] at h
      exact absurd h hm
    · rwa [Function.update_of_ne hu] at h
  cases move with
  | load t ht | loadAdd t ht =>
    by_cases hu : u = t
    · subst hu
      simp [ht, Loading]
    · simpa [State.move, hu] using h
  | spawn t td =>
    by_cases hutd : u = td
    · subst hutd
      simp [Loading] at h
    · by_cases hut : u = t
      · subst hut
        simp [hutd, Loading] at h
      · simpa [hutd, hut] using h
  | collect | walkPop => exact h
  | decrRef t ht =>
    refine hmove rfl ?_
    split_ifs <;> exact id
  | _ => exact hmove rfl id

theorem run_tickets (run : Run (system cfg) ok es s) :
    ∃ main, Tickets main es s ∧ ∀ u, Loading (s.pc u) → u = main := by
  induction run with
  | init start =>
    obtain ⟨main, self, tid, rfl⟩ := start
    refine ⟨main, tickets_initial main self tid, fun u hu => ?_⟩
    by_contra hne
    simp [initial, hne, Loading] at hu
  | step run _ move ih =>
    obtain ⟨main, h, hmain⟩ := ih
    exact ⟨main, h.step (run_inv run) move, fun u hu => hmain u (loading_step move hu)⟩

/-- A call of `pthread_create` or `pthread_exit` that has not returned. -/
def InCall : Pc R K → Prop
  | .counted _ | .created _ _ | .stacked _ | .added _ | .failed _ | .failedFree _ | .refused
  | .exiting | .removing _ | .removed | .staging | .staged => True
  | _ => False

/-- With no other call under way, what is counted and not on the list is the main thread at
most. -/
theorem Tickets.quiet (h : Tickets main es s) (loading : ∀ u, Loading (s.pc u) → u = main)
    (user : s.pc t = .user) (quiet : ∀ u, u ≠ t → ¬ InCall (s.pc u)) :
    s.threadCount ≤ (listed es).length + 1 := by
  have hpc : ∀ u, ¬ InCall (s.pc u) := by
    intro u
    by_cases hu : u = t
    · rw [hu, user]
      exact id
    · exact quiet u hu
  have hsub : tickets main es ⊆ .creation main :: (listed es).map Ticket.thread := by
    intro x hx
    cases x with
    | creation u =>
      have hc := (h.creation u).mp hx
      have hl : Loading (s.pc u) := by
        have := hpc u
        generalize s.pc u = m at hc this
        cases m <;> first | exact trivial | exact (this trivial).elim | exact hc.elim
      simp [loading u hl]
    | thread r =>
      rcases (h.thread r).mp hx with hl | ho
      · exact List.mem_cons_of_mem _ (List.mem_map_of_mem hl)
      · have := hpc r
        generalize s.pc r = m at ho this
        cases m <;> first | exact (this trivial).elim | exact ho.elim
    | refused u =>
      have hr := (h.refused u).mp hx
      have := hpc u
      rw [hr] at this
      exact absurd trivial this
  have hle := (h.nodup.subperm hsub).length_le
  rw [List.length_cons, List.length_map] at hle
  rw [h.length]
  exact_mod_cast hle

/-- A queue is never fuller than its ring. -/
theorem queued_le (run : Run (system cfg) ok es s) (r : R) : s.queued r ≤ cfg.ptrsPerThread := by
  induction run with
  | init start =>
    obtain ⟨main, self, tid, rfl⟩ := start
    exact Nat.zero_le _
  | @step es s s' e run _ move ih =>
    cases move with
    | collect t _ room =>
      by_cases hr : r = t
      · subst hr
        simp only [Function.update_self]
        omega
      · simpa [hr] using ih
    | walkPop t u k =>
      by_cases hr : r = u
      · subst hr
        simp only [Function.update_self]
        omega
      · simpa [hr] using ih
    | _ => exact ih

/-- What the count says of the thread list `l`. -/
structure Counted (cfg : Config) (s : State R K) (l : List R) : Prop where
  list : Linked s.next s.head l
  counted : (l.length : ℤ) ≤ s.threadCount
  served : ∀ t s', l.length < maxThreadCount → (∀ u, u ≠ t → ¬ InCall (s.pc u)) →
    ¬ Step cfg s (.refuse t) s'

/-- The list and the listed queues are what the buffers are made for. -/
structure Limited (cfg : Config) (s : State R K) (l : List R) : Prop where
  length : l.length ≤ maxThreadCount
  content : (l.map s.queued).sum ≤ cfg.maxPtrs

/-- The underlying `pthread_create` does not fail. -/
def creationsSucceed (_ : List (Event R K)) (_ : State R K) : Event R K → Prop
  | .fail _ _ => False
  | _ => True

/-- Nor does a call of `pthread_create` go on that has read the full count. -/
def belowLimit (_ : List (Event R K)) (s : State R K) : Event R K → Prop
  | .fail _ _ => False
  | .count _ => s.threadCount < maxThreadCount
  | _ => True

omit [DecidableEq R] in
theorem belowLimit.creations (h : belowLimit es s e) : creationsSucceed es s e := by
  cases e with
  | fail => exact h
  | _ => trivial

theorem threadCount_le (run : Run (system cfg) belowLimit es s) :
    s.threadCount ≤ maxThreadCount := by
  induction run with
  | init start =>
    obtain ⟨main, self, tid, rfl⟩ := start
    simp [initial, maxThreadCount]
  | @step es s s' e run allowed move ih =>
    cases move with
    | count =>
      have hlt : s.threadCount < maxThreadCount := allowed
      dsimp only
      omega
    | refuse _ _ above => omega
    | uncount =>
      dsimp only
      omega
    | _ => exact ih

theorem counted_run (run : Run (system cfg) ok es s) : Counted cfg s (listed es) := by
  have inv := run_inv run
  obtain ⟨main, h, loading⟩ := run_tickets run
  refine ⟨inv.list, h.counted inv, fun t s' few quiet move => ?_⟩
  cases move with
  | refuse _ user above =>
    have hle := h.quiet loading user quiet
    omega

theorem limited_run (run : Run (system cfg) belowLimit es s) : Limited cfg s (listed es) := by
  have hcount := (counted_run run).counted
  have hlength : (listed es).length ≤ maxThreadCount := by
    have := threadCount_le run
    omega
  refine ⟨hlength, ?_⟩
  calc ((listed es).map s.queued).sum
      ≤ ((listed es).map s.queued).length • cfg.ptrsPerThread :=
        List.sum_le_card_nsmul _ _ fun q hq => by
          obtain ⟨r, -, rfl⟩ := List.mem_map.mp hq
          exact queued_le run r
    _ = (listed es).length * cfg.ptrsPerThread := by simp
    _ ≤ maxThreadCount * cfg.ptrsPerThread := Nat.mul_le_mul_right _ hlength
    _ = cfg.maxPtrs := Nat.mul_comm ..

/-- The list never outgrows the count and no call is refused below the limit; the list stays
within the limit as long as nobody goes on who has read the full count. -/
theorem thread_limit (run : Run (system cfg) creationsSucceed es s) :
    ∃ l, Counted cfg s l ∧ (Run (system cfg) belowLimit es s → Limited cfg s l) :=
  ⟨listed es, counted_run run, limited_run⟩

/-! ### A full count lets one more thread in -/

section Runs
variable {promise : List (Event ℕ ℕ) → State ℕ ℕ → Event ℕ ℕ → Prop}
  (free : ∀ es s e, (∀ t, e ≠ .count t) → (∀ t td, e ≠ .fail t td) → promise es s e)
include free

/-- The main thread is registered and runs user code. -/
theorem main_run (cfg : Config) :
    ∃ es, ∃ s : State ℕ ℕ, Run (system cfg) promise es s ∧ s.pc 0 = .user ∧
      s.threadCount = 1 ∧ s.listLock = none ∧ listed es = [0] ∧
      ∀ u, 0 < u → s.pc u = .unborn ∧ s.place u = .unused := by
  have run : Run (system cfg) promise [] (initial 0 id id) := .init ⟨0, id, id, rfl⟩
  have run := run.step (free _ _ _ (by simp) (by simp)) (.load _ 0 rfl)
  have run := run.step (free _ _ _ (by simp) (by simp)) (.loadAdd _ 0 rfl rfl)
  have run := run.step (free _ _ _ (by simp) (by simp)) (.base _ 0 rfl)
  refine ⟨_, _, run, rfl, rfl, rfl, rfl, fun u hu => ?_⟩
  simp [State.move, initial, hu.ne']

/-- A thread that runs user code creates another one. -/
theorem create_run {es : List (Event ℕ ℕ)} {s : State ℕ ℕ} (run : Run (system cfg) promise es s)
    (td : ℕ) (pos : 0 < td) (user : s.pc 0 = .user)
    (below : ¬ (maxThreadCount : ℤ) < s.threadCount) (allowed : promise es s (.count 0))
    (lock : s.listLock = none) (unborn : s.pc td = .unborn) (unused : s.place td = .unused) :
    ∃ es', ∃ s' : State ℕ ℕ, Run (system cfg) promise es' s' ∧ s'.pc 0 = .user ∧
      s'.threadCount = s.threadCount + 1 ∧ s'.listLock = none ∧ listed es' = td :: listed es ∧
      ∀ u, 0 < u → u ≠ td → s'.pc u = s.pc u ∧ s'.place u = s.place u := by
  have run := run.step allowed (.count s 0 true user below)
  have run := run.step (free _ _ _ (by simp) (by simp)) (.new _ 0 td true (by simp [State.move])
    (by simpa [State.move, pos.ne'] using unborn) unused)
  have run := run.step (free _ _ _ (by simp) (by simp)) (.userStack _ 0 td (by simp [State.move]))
  have run := run.step (free _ _ _ (by simp) (by simp))
    (.add _ 0 td (by simp [State.move]) lock)
  have run := run.step (free _ _ _ (by simp) (by simp))
    (.spawn _ 0 td td false (by simp [State.move]))
  refine ⟨_, _, run, ?_, rfl, lock, rfl, fun u hu hne => ?_⟩
  · simp [State.move, pos.ne]
  · simp [State.move, hu.ne', hne]

/-- The main thread creates `n` threads. -/
theorem creations_run (cfg : Config) (n : ℕ) (few : n ≤ maxThreadCount)
    (allowed : ∀ es (s : State ℕ ℕ), s.threadCount ≤ n → promise es s (.count 0)) :
    ∃ es, ∃ s : State ℕ ℕ, Run (system cfg) promise es s ∧ s.pc 0 = .user ∧
      s.threadCount = n + 1 ∧ s.listLock = none ∧ (listed es).length = n + 1 ∧
      ∀ u, n < u → s.pc u = .unborn ∧ s.place u = .unused := by
  induction n with
  | zero =>
    obtain ⟨es, s, run, user, count, lock, hl, fresh⟩ := main_run free cfg
    exact ⟨es, s, run, user, by simpa using count, lock, by simp [hl], fresh⟩
  | succ n ih =>
    obtain ⟨es, s, run, user, count, lock, hl, fresh⟩ :=
      ih (by omega) fun es s hs => allowed es s (by push_cast; omega)
    obtain ⟨unborn, unused⟩ := fresh (n + 1) (by omega)
    obtain ⟨es', s', run', user', count', lock', hl', keep⟩ :=
      create_run free run (n + 1) (by omega) user (by omega)
        (allowed es s (by push_cast; omega)) lock unborn unused
    refine ⟨es', s', run', user', by push_cast; omega, lock', by simp [hl', hl], fun u hu => ?_⟩
    obtain ⟨hpc, hplace⟩ := keep u (by omega) (by omega)
    obtain ⟨unborn', unused'⟩ := fresh u (by omega)
    exact ⟨hpc.trans unborn', hplace.trans unused'⟩

end Runs

/-- A run to the full count: 256 records. -/
theorem thread_limit_full :
    ∃ (cfg : Config) (es : List (Event ℕ ℕ)) (s : State ℕ ℕ),
      Run (system cfg) belowLimit es s ∧ s.threadCount = maxThreadCount ∧
      ∃ l, Counted cfg s l ∧ Limited cfg s l := by
  have hfree : ∀ (es : List (Event ℕ ℕ)) (s : State ℕ ℕ) (e : Event ℕ ℕ), (∀ t, e ≠ .count t) →
      (∀ t td, e ≠ .fail t td) → belowLimit es s e := by
    intro es s e hc hf
    cases e with
    | count t => exact absurd rfl (hc t)
    | fail t td => exact absurd rfl (hf t td)
    | _ => trivial
  obtain ⟨es, s, run, -, count, -⟩ := creations_run hfree ⟨true, 1024, 10, by simp⟩ 255
    (by simp [maxThreadCount]) fun es s hs => by
      change s.threadCount < (maxThreadCount : ℤ)
      simp only [maxThreadCount]
      omega
  obtain ⟨l, hcounted, hlimited⟩ := thread_limit (run.weaken fun _ _ _ => belowLimit.creations)
  exact ⟨_, es, s, run, by simpa [maxThreadCount] using count, l, hcounted, hlimited run⟩

/-- 256 creations after one another put 257 records on the list. -/
theorem thread_limit_exceeded :
    ∃ (cfg : Config) (es : List (Event ℕ ℕ)) (s : State ℕ ℕ),
      Run (system cfg) creationsSucceed es s ∧
      ∃ l, Linked s.next s.head l ∧ l.length = maxThreadCount + 1 ∧ ¬ Limited cfg s l := by
  have hfree : ∀ (es : List (Event ℕ ℕ)) (s : State ℕ ℕ) (e : Event ℕ ℕ), (∀ t, e ≠ .count t) →
      (∀ t td, e ≠ .fail t td) → creationsSucceed es s e := by
    intro es s e _ hf
    cases e with
    | fail t td => exact absurd rfl (hf t td)
    | _ => trivial
  obtain ⟨es, s, run, -, -, -, length, -⟩ := creations_run hfree ⟨true, 1024, 10, by simp⟩
    maxThreadCount le_rfl fun _ _ _ => trivial
  refine ⟨_, es, s, run, listed es, (run_inv run).list, length, fun h => ?_⟩
  have := h.length
  omega

end ThreadScan.ThreadLimit
