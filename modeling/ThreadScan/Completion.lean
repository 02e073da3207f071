import ThreadScan.Capacity
import ThreadScan.EmptyRound

/-! No thread is stuck in `threadscan_collect`. In an optimised build, and while the working
buffer is large enough and no round is empty, the steps of the library alone lead to a state
where the thread is back in user code: every search ends, whatever the list looks like,
every thread that has been signalled can answer, and the lock can be released. -/
namespace ThreadScan.Completion
open Transition Search Marking Compaction Rearrangement Reclaim Handshake Rounds Progress
open Precision Capacity Bookkeeping Coverage EmptyRound

variable {T : Type*} [DecidableEq T] {cfg : Config}
  {ok : List (Event T) → State T → Event T → Prop} {es es' : List (Event T)} {s s' : State T}

/-- The steps of the library, in rounds that have something on their list. -/
def Inside : Event T → Prop
  | .push _ _ | .mutate _ _ _ | .activate _ _ | .exit _ => False
  | .count _ n => 1 ≤ n
  | _ => True

/-- The promise that the client does nothing, and that no round is empty. -/
def inside (_ : List (Event T)) (_ : State T) (e : Event T) : Prop := Inside e

omit [DecidableEq T] in
theorem lets_inside : Lets (inside (T := T)) := by
  intro es s e h
  cases e <;> first | exact h.elim | trivial

/-! ### Every search ends -/

/-- The positions of a search without assertions. -/
def Plain : Pc → Prop
  | .readMin | .readMax | .next | .setLow _ | .setStore _ _ | .lookup _ | .compare _ | .done => True
  | .mono _ _ | .monoLast _ | .recheck _ | .reassert _ | .fatal | .abort => False

/-- How far it is to the next word. -/
def distance : Pc → ℕ
  | .done => 0
  | .next => 1
  | .readMax | .setStore _ _ => 2
  | .readMin | .setLow _ => 3
  | .compare _ => 4
  | .lookup p => 5 + p.size
  | _ => 0

/-- One search is closer to its end than the other. -/
def Nearer (scan' scan : Scan) : Prop :=
  Prod.Lex (· < ·) (· < ·) (scan'.mem.length, distance scan'.pc) (scan.mem.length, distance scan.pc)

theorem nearer_wf : WellFounded Nearer :=
  InvImage.wf _ (WellFounded.prod_lex Nat.lt_wfRel.wf Nat.lt_wfRel.wf)

theorem nearer_distance {scan' scan : Scan} (hm : scan'.mem = scan.mem)
    (h : distance scan'.pc < distance scan.pc) : Nearer scan' scan := by
  rw [Nearer, hm]
  exact .right _ h

theorem plain_examine (g : Working) (minPtr maxPtr cmp : Word) : Plain (examine g minPtr maxPtr cmp) := by
  unfold examine
  split_ifs <;> trivial

theorem plain_searchRange (words : List Word) : Plain (searchRange false words).pc := trivial

/-- Without assertions a search takes none of the steps that they consist of. -/
theorem Plain.next {g : Working} {scan : Scan} (h : Plain scan.pc) :
    Plain (searchNext false g scan).1.pc := by
  obtain ⟨mem, minPtr, maxPtr, cmp, pc⟩ := scan
  cases pc with
  | readMin | setStore | done => trivial
  | readMax => simp [searchNext, Plain]
  | next =>
    cases mem with
    | nil => trivial
    | cons w mem => exact plain_examine g minPtr maxPtr (ptrMask w)
  | setLow loc =>
    simp only [searchNext]
    split_ifs <;> trivial
  | lookup p => cases p <;> trivial
  | compare loc =>
    simp only [searchNext, Bool.false_eq_true, if_false]
    split_ifs <;> trivial
  | _ => exact h.elim

/-- Every step brings a search closer to its end. -/
theorem nearer_next {g : Working} {scan : Scan} (h : Plain scan.pc) (hd : scan.pc ≠ .done) :
    Nearer (searchNext false g scan).1 scan := by
  obtain ⟨mem, minPtr, maxPtr, cmp, pc⟩ := scan
  cases pc with
  | readMin | setStore => exact nearer_distance rfl (by simp [searchNext, distance])
  | readMax =>
    simp only [searchNext, Bool.false_eq_true, false_and, if_false]
    exact nearer_distance rfl (by simp [distance])
  | next =>
    cases mem with
    | nil => exact nearer_distance rfl (by simp [searchNext, distance])
    | cons w mem => exact .left _ _ (by simp [searchNext])
  | setLow loc =>
    simp only [searchNext]
    split_ifs <;> exact nearer_distance rfl (by simp [distance])
  | lookup p =>
    cases p with
    | found loc => exact nearer_distance rfl (by simp [searchNext, distance, Probe.size])
    | bisect lo hi =>
      have hsize := binarySearchNext_size cmp g.bufAddrs lo hi
      exact nearer_distance rfl (by simpa [searchNext, distance, Probe.next] using hsize)
    | walk lo hi =>
      have hsize := iterativeSearchNext_size cmp g.bufAddrs lo hi
      exact nearer_distance rfl (by simpa [searchNext, distance, Probe.next] using hsize)
  | compare loc =>
    simp only [searchNext, Bool.false_eq_true, if_false]
    split_ifs <;> exact nearer_distance rfl (by simp [distance])
  | done => exact absurd rfl hd
  | _ => exact h.elim

theorem run_plain (release : cfg.debug = false) (run : Run (system cfg) ok es s) :
    ∀ u scan, Scans s u scan → Plain scan.pc := by
  refine run.invariant (I := fun _ s => ∀ u scan, Scans s u scan → Plain scan.pc) ?_ ?_
  · rintro s ⟨map, rfl⟩ u scan (⟨c, stage, h⟩ | ⟨stage, h⟩) <;> simp [initial] at h
  · intro es s e s' run inv _ move u scan hscan
    cases origin (run_attended run) move hscan with
    | rests h => exact inv u scan h
    | started words _ he =>
      rw [he, release]
      exact plain_searchRange words
    | moved scan₀ h he =>
      rw [he, release]
      exact (inv u scan₀ h).next

/-- A search that has started ends, whatever it finds. -/
theorem search_ends (release : cfg.debug = false) (lets : Lets ok) (role : Role) (s : State T) (t : T)
    (awake : ∀ c stage, role = .reclaimer c stage → s.handler t = none) (scan : Scan)
    (plain : Plain scan.pc) (b : T → Mem) (es : List (Event T)) :
    Reach cfg ok es (role.at_ s t scan b) fun s' =>
      ∃ scan' b', scan'.pc = .done ∧ s' = role.at_ s t scan' b' := by
  induction scan using nearer_wf.induction generalizing b es with
  | _ scan ih =>
    by_cases hdone : scan.pc = .done
    · exact .done ⟨scan, b, hdone, rfl⟩
    · have hstep := Role.step cfg role s t scan b awake
      rw [release] at hstep
      exact .own lets hstep trivial (ih _ (nearer_next plain hdone) plain.next _ _)

/-! ### Every handler returns -/

/-- The thread has left its handler, and the counter is `k`. -/
def returned (s : State T) (u : T) (b : T → Mem) (k : ℕ) : State T :=
  { s with
    buffer := b
    handler := Function.update s.handler u none
    selfStacksSearched := k }

theorem tail_returns (lets : Lets ok) (es : List (Event T)) (s : State T) (u : T)
    (hu : s.handler u = some .tail) :
    Reach cfg ok es s fun s' => s' = returned s u s.buffer s.selfStacksSearched :=
  .own lets (.helperTail s u hu) trivial (.done rfl)

theorem count_returns (lets : Lets ok) (es : List (Event T)) (s : State T) (u : T)
    (hu : s.handler u = some .count) :
    Reach cfg ok es s fun s' => s' = returned s u s.buffer (s.selfStacksSearched + 1) := by
  refine .own lets (.helperCount s u hu) trivial ?_
  refine .bind (tail_returns lets _ _ u (Function.update_self ..)) ?_
  rintro es' s' - rfl
  refine .done ?_
  simp only [returned, Function.update_idem]

/-- A handler that has searched one of its ranges searches the other one, and returns. -/
theorem searched_returns (release : cfg.debug = false) (lets : Lets ok) (es : List (Event T))
    (s : State T) (u : T) (stage : Stage) (scan : Scan) (hu : s.handler u = some (.search stage scan))
    (done : scan.pc = .done) :
    Reach cfg ok es s fun s' => ∃ b, s' = returned s u b (s.selfStacksSearched + 1) := by
  cases hnext : nextStage cfg (s.localBlock u) stage with
  | none =>
    refine .own lets (.helperDone s u stage scan hu done hnext) trivial ?_
    refine .bind (count_returns lets _ _ u (Function.update_self ..)) ?_
    rintro es' s' - rfl
    refine .done ⟨s.buffer, ?_⟩
    simp only [returned, Function.update_idem]
  | some p =>
    obtain ⟨stage', scan'⟩ := p
    obtain ⟨words, he, -⟩ := nextStage_memory hnext
    have hlast : stage' = .localBlock := by
      cases stage with
      | localBlock => cases hnext
      | stack =>
        obtain ⟨block, -, hb⟩ := Option.map_eq_some_iff.mp hnext
        exact (congrArg Prod.fst hb).symm
    subst hlast
    refine .own lets (.helperNext s u stage .localBlock scan scan' hu done hnext) trivial ?_
    have hplain : Plain scan'.pc := by
      rw [he, release]
      exact plain_searchRange words
    refine .bind (search_ends release lets (.helper .localBlock) s u (by simp) scan' hplain s.buffer
      (.other :: es)) ?_
    rintro es₁ s₁ - ⟨scan₁, b₁, hdone, rfl⟩
    refine .own lets (.helperDone _ u .localBlock scan₁ (Function.update_self ..) hdone rfl) trivial ?_
    refine .bind (count_returns lets _ _ u (Function.update_self ..)) ?_
    rintro es' s' - rfl
    refine .done ⟨b₁, ?_⟩
    simp only [returned, Role.at_, Function.update_idem]

/-- Whether a handler has yet to count its thread. -/
def owed (h : Handler) : ℕ :=
  match h with
  | .search _ _ | .count => 1
  | .tail => 0

/-- A handler returns, and has counted its thread. -/
theorem handler_returns (release : cfg.debug = false) (lets : Lets ok) (es : List (Event T))
    (s : State T) (u : T) (h : Handler) (hu : s.handler u = some h)
    (plain : ∀ stage scan, h = .search stage scan → Plain scan.pc) :
    Reach cfg ok es s fun s' => ∃ b, s' = returned s u b (s.selfStacksSearched + owed h) := by
  cases h with
  | tail =>
    refine .bind (tail_returns lets es s u hu) ?_
    rintro es' s' - rfl
    exact .done ⟨s.buffer, rfl⟩
  | count =>
    refine .bind (count_returns lets es s u hu) ?_
    rintro es' s' - rfl
    exact .done ⟨s.buffer, rfl⟩
  | search stage scan =>
    have hstart : (Role.helper stage).at_ s u scan s.buffer = s := by
      simp only [Role.at_, ← hu, Function.update_eq_self]
    have hsearch : Reach cfg ok es _ _ := search_ends release lets (.helper stage) s u (by simp) scan
      (plain stage scan rfl) s.buffer es
    rw [hstart] at hsearch
    refine .bind hsearch ?_
    rintro es₁ s₁ - ⟨scan₁, b₁, hdone, rfl⟩
    refine .bind (searched_returns release lets es₁ _ u stage scan₁ (Function.update_self ..) hdone) ?_
    rintro es' s' - ⟨b, rfl⟩
    refine .done ⟨b, ?_⟩
    simp only [returned, Role.at_, Function.update_idem, owed]

/-- What the library does on its own behalf while it gets one thread to an end: handlers
return, and the buffers, the counter and the signals on their way change. -/
def served (s : State T) (b : T → Mem) (p : T → ℕ) (h : T → Option Handler) (k : ℕ) : State T :=
  { s with buffer := b, pending := p, handler := h, selfStacksSearched := k }

/-- A thread that is in its handler gets back to where the signal found it. -/
theorem awake_reach (release : cfg.debug = false) (lets : Lets ok)
    (run : Run (system cfg) anyEvent es s) (u : T) :
    Reach cfg ok es s fun s' => ∃ b k, s' = served s b s.pending (Function.update s.handler u none) k := by
  cases hu : s.handler u with
  | none =>
    refine .done ⟨s.buffer, s.selfStacksSearched, ?_⟩
    simp only [served, ← hu, Function.update_eq_self]
  | some h =>
    refine .bind (handler_returns release lets es s u h hu fun stage scan he =>
      run_plain release run u scan (.inr ⟨stage, he ▸ hu⟩)) ?_
    rintro es' s' - ⟨b, rfl⟩
    exact .done ⟨b, _, rfl⟩

/-- A thread that has been signalled, and has not answered yet, does so. -/
theorem answer_reach (release : cfg.debug = false) (lets : Lets ok)
    (run : Run (system cfg) anyEvent es s) (u : T)
    (owes : 0 < s.pending u ∨ helper (s.handler u) = .working) :
    Reach cfg ok es s fun s' => ∃ b p, s' =
      served s b p (Function.update s.handler u none) (s.selfStacksSearched + 1) := by
  have hplain : ∀ h, s.handler u = some h → ∀ stage scan, h = .search stage scan → Plain scan.pc :=
    fun h hu stage scan he => run_plain release run u scan (.inr ⟨stage, he ▸ hu⟩)
  -- a new search, once the thread is out of its handler
  have henter : ∀ (es : List (Event T)) (s : State T), s.handler u = none → 0 < s.pending u →
      Reach cfg ok es s fun s' => ∃ b p, s' =
        served s b p (Function.update s.handler u none) (s.selfStacksSearched + 1) := by
    intro es s hawake hpending
    refine .own lets (.enterHandler s u hawake hpending) trivial ?_
    refine .bind (handler_returns release lets _ _ u _ (Function.update_self ..) ?_) ?_
    · intro stage scan he
      cases he
      rw [release]
      exact plain_searchRange _
    · rintro es' s' - ⟨b, rfl⟩
      refine .done ⟨b, Function.update s.pending u (s.pending u - 1), ?_⟩
      simp only [served, returned, Function.update_idem, owed]
  cases hu : s.handler u with
  | none =>
    refine henter es s hu (owes.resolve_right ?_)
    rw [hu]
    simp [helper]
  | some h =>
    refine .bind (handler_returns release lets es s u h hu (hplain h hu)) ?_
    rintro es₁ s₁ - ⟨b₁, rfl⟩
    cases h with
    | search | count => exact .done ⟨b₁, s.pending, rfl⟩
    | tail =>
      rw [hu] at owes
      refine .bind (henter es₁ _ (Function.update_self ..) (owes.resolve_right (by simp [helper]))) ?_
      rintro es' s' - ⟨b, p, rfl⟩
      refine .done ⟨b, p, ?_⟩
      simp only [served, returned, Function.update_idem, owed, Nat.add_zero]

theorem run_leads (run : Run (system cfg) anyEvent es s) (h : Leads cfg ok es s es' s') :
    Run (system cfg) anyEvent es' s' :=
  run.extend (h.1.weaken fun _ _ _ _ => trivial)

/-- Threads that have been signalled answer, until the reclaimer has heard of all of them. -/
theorem heard_reach (release : cfg.debug = false) (lets : Lets ok) (r : T) (c : ℕ)
    (es : List (Event T)) (s : State T) (run : Run (system cfg) anyEvent es s)
    (hm : s.main r = .wait c) (awake : s.handler r = none) :
    Reach cfg ok es s fun s' => ∃ b p h k, s' = served s b p h k ∧ c ≤ k ∧
      ∀ u, s.handler u = none → h u = none := by
  induction hd : c - s.selfStacksSearched generalizing es s with
  | zero =>
    exact .done ⟨s.buffer, s.pending, s.handler, s.selfStacksSearched, rfl, by omega, fun _ h => h⟩
  | succ d ih =>
    -- the counter is behind the calls, so one of them is not answered
    have inv := run_roll run
    have hphase : (roll s).phase r = .waiting c := congrArg phase hm
    have hopen : RollCall.Open ((roll s).phase r) := by
      rw [hphase]
      trivial
    have hmade := inv.made r hopen
    have htotal := inv.total (inv.begun r hopen)
    rw [hphase] at hmade
    have hcounter : (roll s).counter = s.selfStacksSearched := rfl
    obtain ⟨u, -, hu⟩ : ∃ u ∈ RollCall.called (es.map rollEvent), RollCall.outstanding (roll s) u ≠ 0 := by
      by_contra hnone
      push Not at hnone
      have hall : (RollCall.called (es.map rollEvent)).countP
          (fun u => decide (RollCall.outstanding (roll s) u = 0)) =
          (RollCall.called (es.map rollEvent)).length :=
        List.countP_eq_length.mpr fun u hu => decide_eq_true (hnone u hu)
      have : c = (RollCall.called (es.map rollEvent)).length := hmade
      omega
    have howes : 0 < s.pending u ∨ helper (s.handler u) = .working := by
      by_contra hnot
      push Not at hnot
      exact hu ((RollCall.outstanding_eq_zero _ u).mpr ⟨Nat.le_zero.mp hnot.1, hnot.2⟩)
    refine .bind (answer_reach release lets run u howes) ?_
    rintro es₁ s₁ hleads ⟨b₁, p₁, rfl⟩
    have hlow : ∀ v, s.handler v = none → Function.update s.handler u none v = none := by
      intro v hv
      by_cases hvu : v = u
      · rw [hvu, Function.update_self]
      · rwa [Function.update_of_ne hvu]
    refine .bind (ih es₁ _ (run_leads run hleads) hm (hlow r awake) (by simp only [served]; omega)) ?_
    rintro es' s' - ⟨b, p, h, k, rfl, hk, hh⟩
    exact .done ⟨b, p, h, k, rfl, hk, fun v hv => hh v (hlow v hv)⟩

/-! ### The lock is released -/

/-- What the way of one thread through `threadscan_reclaim` leaves of the others. -/
structure Spares (r : T) (s s' : State T) : Prop where
  main : ∀ u, u ≠ r → s'.main u = s.main u
  handler : ∀ u, s.handler u = none → s'.handler u = none
  life : s'.life = s.life
  threadList : s'.threadList = s.threadList
  queue : ∀ u, (s'.queue u).length ≤ (s.queue u).length

omit [DecidableEq T] in
theorem Spares.refl (r : T) (s : State T) : Spares r s s :=
  ⟨fun _ _ => rfl, fun _ h => h, rfl, rfl, fun _ => le_rfl⟩

omit [DecidableEq T] in
theorem Spares.trans {r : T} {a b c : State T} (h : Spares r a b) (g : Spares r b c) :
    Spares r a c :=
  ⟨fun u hu => (g.main u hu).trans (h.main u hu), fun u hu => g.handler u (h.handler u hu),
    g.life.trans h.life, g.threadList.trans h.threadList,
    fun u => (g.queue u).trans (h.queue u)⟩

/-- The thread moves on. -/
theorem Spares.move {r : T} {m : Main T} (hm : s'.main = Function.update s.main r m)
    (hh : ∀ u, s.handler u = none → s'.handler u = none) (hl : s'.life = s.life)
    (ht : s'.threadList = s.threadList) (hq : ∀ u, (s'.queue u).length ≤ (s.queue u).length) :
    Spares r s s' := by
  refine ⟨fun u hu => ?_, hh, hl, ht, hq⟩
  rw [hm, Function.update_of_ne hu]

/-- The library alone gets the thread to a position as wanted, and spares the others. -/
def Gets (cfg : Config) (r : T) (es : List (Event T)) (s : State T) (Q : State T → Prop) : Prop :=
  Reach cfg inside es s fun s' => Spares r s s' ∧ Q s'

variable {r : T} {Q : State T → Prop}

theorem Gets.done (h : Q s) : Gets cfg r es s Q := Reach.done ⟨.refl r s, h⟩

theorem Gets.bind {P : State T → Prop} (h : Gets cfg r es s P)
    (rest : ∀ es' s', Leads cfg inside es s es' s' → Spares r s s' → P s' → Gets cfg r es' s' Q) :
    Gets cfg r es s Q := by
  refine Reach.bind h ?_
  rintro es₁ s₁ hleads ⟨hspares, hP⟩
  refine Reach.bind (rest es₁ s₁ hleads hspares hP) ?_
  rintro es' s' - ⟨hspares', hQ⟩
  exact .done ⟨hspares.trans hspares', hQ⟩

/-- Once the thread is past its lock, nobody has it. -/
theorem Spares.free (h : Spares r s s') (run : Run (system cfg) ok es' s')
    (others : ∀ u, u ≠ r → phase (s.main u) = .away) (away : phase (s'.main r) = .away) :
    s'.lock = none := by
  cases hlock : s'.lock with
  | none => rfl
  | some u =>
    have hheld : phase (s'.main u) ≠ .away := ((run_roll run).holder u).mpr hlock
    have hne : u ≠ r := by
      rintro rfl
      exact hheld away
    rw [h.main u hne] at hheld
    exact absurd (others u hne) hheld

/-- One step of the thread itself. -/
theorem Gets.step {e : Event T} {m : Main T} (move : Step cfg s e s') (own : Inside e)
    (hm : s'.main = Function.update s.main r m) (hh : s'.handler = s.handler)
    (hl : s'.life = s.life) (ht : s'.threadList = s.threadList)
    (hq : ∀ u, (s'.queue u).length ≤ (s.queue u).length) (rest : Gets cfg r (e :: es) s' Q) :
    Gets cfg r es s Q := by
  have hspares : Spares r s s' := .move hm (fun u hu => by rw [hh, hu]) hl ht hq
  have hpush : ∀ t a, e ≠ .push t a := by
    rintro t a rfl
    exact own
  refine Reach.one own move hpush (Reach.bind rest ?_)
  rintro es₁ s₁ - ⟨hspares', hQ⟩
  exact .done ⟨hspares.trans hspares', hQ⟩

/-- The thread is walking the thread list. -/
def Walks : Main T → Prop
  | .popHead _ _ | .popTail _ _ _ _ | .signal _ _ => True
  | _ => False

/-- Only a thread that walks the list holds its lock. -/
def Walking (s : State T) : Prop := ∀ t, s.listLock = some t → Walks (s.main t)

theorem Walking.move (h : Walking s) {t : T} {m : Main T}
    (hm : s'.main = Function.update s.main t m) (hlock : s'.listLock = s.listLock)
    (keeps : Walks (s.main t) → Walks m) : Walking s' := by
  intro u hu
  rw [hlock] at hu
  rw [hm]
  by_cases hut : u = t
  · subst hut
    rw [Function.update_self]
    exact keeps (h u hu)
  · rw [Function.update_of_ne hut]
    exact h u hu

theorem Walking.step (h : Walking s) {e : Event T} (move : Step cfg s e s') : Walking s' := by
  cases move with
  | goto t m _ hg =>
    refine h.move rfl rfl ?_
    generalize s.main t = m₀ at hg
    cases hg <;> exact fun hw => hw
  | lockQueues t n ht | lockSignal t ht =>
    intro u hu
    obtain rfl := Option.some.inj hu
    simp only [Function.update_self, Walks]
  | unlockQueues | unlockSignal =>
    intro u hu
    cases hu
  | popTail t _ _ _ _ ht | kill t _ _ _ ht => exact h.move rfl rfl fun _ => trivial
  | push t _ ht | acquire t ht | assign t _ _ ht | exchange t ht | leftover t _ _ _ ht | count t _ ht
  | sort t ht | scanMap t ht | reset t ht | search t _ _ _ ht | leave t _ ht | release t _ ht
  | verify t _ ht | keep t _ _ _ ht | free t _ _ _ _ ht | randomize t _ ht | store t _ ht =>
    exact h.move rfl rfl (by rw [ht]; exact False.elim)
  | _ => exact h

theorem run_walking (run : Run (system cfg) ok es s) : Walking s := by
  refine run.invariant (I := fun _ s => Walking s) ?_ fun _ _ _ _ _ inv _ move => inv.step move
  rintro s ⟨map, rfl⟩ t h
  cases h

/-- The lock of the thread list is free for a reclaimer that is not walking the list. -/
theorem unlocked_of_holder (run : Run (system cfg) ok es s) (hr : phase (s.main r) ≠ .away)
    (hnot : ¬ Walks (s.main r)) : s.listLock = none := by
  cases hlock : s.listLock with
  | none => rfl
  | some t =>
    have hwalks := run_walking run t hlock
    have haway : phase (s.main t) ≠ .away := by
      intro he
      cases hm : s.main t <;> rw [hm] at hwalks he <;> first | exact hwalks | cases he
    exact absurd (alone run hr haway ▸ hwalks) hnot

/-- While the lock is free nobody is at what it guards. -/
theorem away_of_free (run : Run (system cfg) ok es s) (free : s.lock = none) (u : T) :
    phase (s.main u) = .away := by
  by_contra hne
  have hlock := ((run_roll run).holder u).mp hne
  exact absurd (free.symm.trans hlock) (by simp)

/-- Without a reclaimer nobody walks the thread list. -/
theorem unlocked_of_free (run : Run (system cfg) ok es s) (free : s.lock = none) :
    s.listLock = none := by
  cases hlist : s.listLock with
  | none => rfl
  | some t =>
    have hwalks := run_walking run t hlist
    have haway := away_of_free run free t
    cases hm : s.main t <;> rw [hm] at hwalks haway <;> first | exact hwalks.elim | cases haway

/-- There is an address in the storage, or in the queue of a listed thread. -/
def Supplied (s : State T) : Prop :=
  s.storage.flatten ≠ [] ∨ ∃ u ∈ s.threadList, s.queue u ≠ []

/-- A round has drained an address, or finds one in what it has yet to drain. -/
def Provided (s : State T) : Main T → Prop
  | .assign | .exchange => Supplied s
  | .leftovers blocks n => 1 ≤ n ∨ blocks.flatten ≠ [] ∨ ∃ u ∈ s.threadList, s.queue u ≠ []
  | .lockQueues n => 1 ≤ n ∨ ∃ u ∈ s.threadList, s.queue u ≠ []
  | .popHead rest n => 1 ≤ n ∨ ∃ u ∈ rest, s.queue u ≠ []
  | .popTail td rest n k => 1 ≤ n ∨ 1 ≤ k ∧ s.queue td ≠ [] ∨ ∃ u ∈ rest, s.queue u ≠ []
  | .count n => 1 ≤ n
  | _ => True

theorem provided_of_free (run : Run (system cfg) ok es s) (free : s.lock = none) (r : T) :
    Provided s (s.main r) := by
  have haway := away_of_free run free r
  cases hm : s.main r <;> rw [hm] at haway <;> trivial

/-- The thread is about to give the lock back. -/
def Leaving (r : T) (s : State T) : Prop := ∃ n, s.main r = .release n

/-- The thread has given the lock back, and goes on with its list. -/
def Released (r : T) (s : State T) : Prop := s.lock = none ∧ ∃ n, s.main r = .verify n

theorem wait_gets (release : cfg.debug = false) (c : ℕ) (es : List (Event T)) (s : State T)
    (run : Run (system cfg) anyEvent es s) (h : s.main r = .wait c) (awake : s.handler r = none) :
    Gets cfg r es s (Leaving r) := by
  refine Gets.bind (P := fun s' => s'.main r = .wait c ∧ c ≤ s'.selfStacksSearched) ?_ ?_
  · refine Reach.bind (heard_reach release lets_inside r c es s run h awake) ?_
    rintro es' s' - ⟨b, p, hh, k, rfl, hk, hlow⟩
    exact .done ⟨⟨fun _ _ => rfl, hlow, rfl, rfl, fun _ => le_rfl⟩, h, hk⟩
  · rintro es' s' - hspares ⟨hm, hk⟩
    have hawake := hspares.handler r awake
    refine .step (.leave s' r c hm hawake hk) trivial rfl rfl rfl rfl (fun _ => le_rfl) ?_
    exact .done ⟨_, Function.update_self ..⟩

theorem searched_gets (release : cfg.debug = false) (c : ℕ) (stage : Stage) (scan : Scan)
    (es : List (Event T)) (s : State T) (run : Run (system cfg) anyEvent es s)
    (h : s.main r = .search c stage scan) (awake : s.handler r = none) (done : scan.pc = .done)
    (last : nextStage cfg (s.localBlock r) stage = none) : Gets cfg r es s (Leaving r) := by
  have hmove : Step cfg s .other _ := .goto s r (.wait c) awake (by
    rw [h]
    exact .searched c stage scan done last)
  refine .step hmove trivial rfl rfl rfl rfl (fun _ => le_rfl) ?_
  exact wait_gets release c _ _ (run.step trivial hmove) (Function.update_self ..) awake

/-- The reclaimer finishes its search of one range. -/
theorem range_gets (release : cfg.debug = false) (c : ℕ) (stage : Stage) (scan : Scan)
    (es : List (Event T)) (s : State T) (run : Run (system cfg) anyEvent es s)
    (h : s.main r = .search c stage scan) (awake : s.handler r = none) :
    Gets cfg r es s fun s' => s'.localBlock = s.localBlock ∧
      ∃ scan', scan'.pc = .done ∧ s'.main r = .search c stage scan' := by
  have hstart : (Role.reclaimer c stage).at_ s r scan s.buffer = s := by
    simp only [Role.at_, ← h, Function.update_eq_self]
  have hsearch : Reach cfg inside es _ _ := search_ends release lets_inside (.reclaimer c stage) s r
    (fun _ _ _ => awake) scan (run_plain release run r scan (.inl ⟨c, stage, h⟩)) s.buffer es
  rw [hstart] at hsearch
  refine Reach.bind hsearch ?_
  rintro es' s' - ⟨scan', b, hdone, rfl⟩
  refine .done ⟨.move rfl (fun _ h => h) rfl rfl (fun _ => le_rfl), rfl, scan', hdone, ?_⟩
  exact Function.update_self ..

theorem search_gets (release : cfg.debug = false) (c : ℕ) (stage : Stage) (scan : Scan)
    (es : List (Event T)) (s : State T) (run : Run (system cfg) anyEvent es s)
    (h : s.main r = .search c stage scan) (awake : s.handler r = none) :
    Gets cfg r es s (Leaving r) := by
  refine Gets.bind (range_gets release c stage scan es s run h awake) ?_
  rintro es₁ s₁ hleads hspares ⟨hblock, scan₁, hdone, hm⟩
  have run₁ := run_leads run hleads
  have awake₁ := hspares.handler r awake
  cases hnext : nextStage cfg (s₁.localBlock r) stage with
  | none => exact searched_gets release c stage scan₁ es₁ s₁ run₁ hm awake₁ hdone hnext
  | some p =>
    obtain ⟨stage', scan'⟩ := p
    have hlast : stage' = .localBlock := by
      cases stage with
      | localBlock => cases hnext
      | stack =>
        obtain ⟨block, -, hb⟩ := Option.map_eq_some_iff.mp hnext
        exact (congrArg Prod.fst hb).symm
    subst hlast
    have hmove : Step cfg s₁ .other _ := .goto s₁ r (.search c .localBlock scan') awake₁ (by
      rw [hm]
      exact .nextStage c stage .localBlock scan₁ scan' hdone hnext)
    refine .step hmove trivial rfl rfl rfl rfl (fun _ => le_rfl) ?_
    have run₂ := run₁.step trivial hmove
    refine Gets.bind (range_gets release c .localBlock scan' _ _ run₂ (Function.update_self ..)
      awake₁) ?_
    rintro es₃ s₃ hleads₃ hspares₃ ⟨-, scan₃, hdone₃, hm₃⟩
    exact searched_gets release c .localBlock scan₃ es₃ s₃ (run_leads run₂ hleads₃) hm₃
      (hspares₃.handler r awake₁) hdone₃ rfl

theorem signal_gets (release : cfg.debug = false) (rest : List T) (c : ℕ) (es : List (Event T))
    (s : State T) (run : Run (system cfg) anyEvent es s) (h : s.main r = .signal rest c)
    (awake : s.handler r = none) : Gets cfg r es s (Leaving r) := by
  induction rest generalizing c es s with
  | nil =>
    have hmove : Step cfg s .other _ := .unlockSignal s r c h awake
    refine .step hmove trivial rfl rfl rfl rfl (fun _ => le_rfl) ?_
    exact search_gets release c .stack _ _ _ (run.step trivial hmove) (Function.update_self ..) awake
  | cons td rest ih =>
    by_cases hcall : td ≠ r ∧ s.life td = .active
    · have hmove : Step cfg s (.kill r td) _ := .kill s r td rest c h awake hcall.1 hcall.2
      refine .step hmove trivial rfl rfl rfl rfl (fun _ => le_rfl) ?_
      exact ih (c + 1) _ _ (run.step trivial hmove) (Function.update_self ..) awake
    · have hskip : td = r ∨ s.life td ≠ .active := by
        by_contra hnot
        push Not at hnot
        exact hcall hnot
      have hmove : Step cfg s .other _ := .goto s r (.signal rest c) awake (by
        rw [h]
        exact .skip td rest c hskip)
      refine .step hmove trivial rfl rfl rfl rfl (fun _ => le_rfl) ?_
      exact ih c _ _ (run.step trivial hmove) (Function.update_self ..) awake

theorem lockSignal_gets (release : cfg.debug = false) (es : List (Event T)) (s : State T)
    (run : Run (system cfg) anyEvent es s) (h : s.main r = .lockSignal)
    (awake : s.handler r = none) : Gets cfg r es s (Leaving r) := by
  have hfree : s.listLock = none := unlocked_of_holder (r := r) run (by simp [h, phase])
    (by rw [h]; exact id)
  have hmove : Step cfg s .other _ := .lockSignal s r h awake hfree
  refine .step hmove trivial rfl rfl rfl rfl (fun _ => le_rfl) ?_
  exact signal_gets release _ 0 _ _ (run.step trivial hmove) (Function.update_self ..) awake

theorem reset_gets (release : cfg.debug = false) (es : List (Event T)) (s : State T)
    (run : Run (system cfg) anyEvent es s) (h : s.main r = .reset) (awake : s.handler r = none) :
    Gets cfg r es s (Leaving r) := by
  have hmove : Step cfg s (.reset r) _ := .reset s r h awake
  refine .step hmove trivial rfl rfl rfl rfl (fun _ => le_rfl) ?_
  exact lockSignal_gets release _ _ (run.step trivial hmove) (Function.update_self ..) awake

theorem scanMap_gets (release : cfg.debug = false) (es : List (Event T)) (s : State T)
    (run : Run (system cfg) anyEvent es s) (h : s.main r = .scanMap) (awake : s.handler r = none) :
    Gets cfg r es s (Leaving r) := by
  have hmove : Step cfg s .other _ := .scanMap s r h awake
  refine .step hmove trivial rfl rfl rfl rfl (fun _ => le_rfl) ?_
  exact reset_gets release _ _ (run.step trivial hmove) (Function.update_self ..) awake

theorem sort_gets (release : cfg.debug = false) (es : List (Event T)) (s : State T)
    (run : Run (system cfg) anyEvent es s) (h : s.main r = .sort) (awake : s.handler r = none) :
    Gets cfg r es s (Leaving r) := by
  have hmove : Step cfg s .other _ := .sort s r h awake
  refine .step hmove trivial rfl rfl rfl rfl (fun _ => le_rfl) ?_
  exact scanMap_gets release _ _ (run.step trivial hmove) (Function.update_self ..) awake

theorem count_gets (release : cfg.debug = false) (n : ℕ) (es : List (Event T)) (s : State T)
    (run : Run (system cfg) anyEvent es s) (h : s.main r = .count n) (awake : s.handler r = none)
    (provided : Provided s (.count n)) : Gets cfg r es s (Leaving r) := by
  have hmove : Step cfg s (.count r n) _ := .count s r n h awake
  refine .step hmove provided rfl rfl rfl rfl (fun _ => le_rfl) ?_
  exact sort_gets release _ _ (run.step trivial hmove) (Function.update_self ..) awake

theorem queue_drop (s : State T) (td : T) (k : ℕ) (u : T) :
    (Function.update s.queue td ((s.queue td).drop k) u).length ≤ (s.queue u).length := by
  by_cases hu : u = td
  · subst hu
    rw [Function.update_self, List.length_drop]
    exact Nat.sub_le _ _
  · rw [Function.update_of_ne hu]

omit [DecidableEq T] in
/-- A look at a queue that holds an address sees one. -/
theorem Provided.look {td : T} {rest : List T} {n : ℕ} (h : Provided s (.popHead (td :: rest) n)) :
    Provided s (.popTail td rest n (min (2 * cfg.maxPtrs - n) (s.queue td).length)) := by
  have sized : 0 < cfg.maxPtrs := by
    have hlarge := cfg.ptrsPerThread_bounds.1
    simp only [Config.maxPtrs, maxThreadCount]
    omega
  obtain hn | ⟨u, hu, hne⟩ := h
  · exact .inl hn
  obtain rfl | hu := List.mem_cons.mp hu
  · have hlen := List.length_pos_iff.mpr hne
    by_cases hn : 1 ≤ n
    · exact .inl hn
    · exact .inr (.inl ⟨by omega, hne⟩)
  · exact .inr (.inr ⟨u, hu, hne⟩)

/-- What it has seen it takes. -/
theorem Provided.pop {td : T} {rest : List T} {n k : ℕ} (h : Provided s (.popTail td rest n k))
    (hq : s'.queue = Function.update s.queue td ((s.queue td).drop k)) :
    Provided s' (.popHead rest (n + ((s.queue td).take k).length)) := by
  have htook : 1 ≤ k → s.queue td ≠ [] → 1 ≤ n + ((s.queue td).take k).length := by
    intro hk hne
    have := List.length_pos_iff.mpr hne
    rw [List.length_take]
    omega
  obtain hn | ⟨hk, hne⟩ | ⟨u, hu, hne⟩ := h
  · exact .inl (by omega)
  · exact .inl (htook hk hne)
  · by_cases hut : u = td
    · -- its queue has been popped just now
      subst hut
      by_cases hk : k = 0
      · exact .inr ⟨u, hu, by simpa [hq, hk] using hne⟩
      · exact .inl (htook (by omega) hne)
    · exact .inr ⟨u, hu, by simpa [hq, Function.update_of_ne hut] using hne⟩

/-- The rest of a bulk pop. -/
theorem popTail_step (td : T) (rest : List T) (n k : ℕ) (es : List (Event T)) (s : State T)
    (run : Run (system cfg) anyEvent es s) (h : s.main r = .popTail td rest n k)
    (awake : s.handler r = none) (provided : Provided s (.popTail td rest n k))
    (next : ∀ n' es' s', Run (system cfg) anyEvent es' s' → s'.main r = .popHead rest n' →
      s'.handler r = none → Provided s' (.popHead rest n') → Gets cfg r es' s' Q) :
    Gets cfg r es s Q := by
  have hmove : Step cfg s .other _ := .popTail s r td rest n k h awake
  refine .step hmove trivial rfl rfl rfl rfl (queue_drop s td k) ?_
  exact next _ _ _ (run.step trivial hmove) (Function.update_self ..) awake (provided.pop rfl)

theorem popHead_gets (release : cfg.debug = false) (rest : List T) (n : ℕ) (es : List (Event T))
    (s : State T) (run : Run (system cfg) anyEvent es s) (h : s.main r = .popHead rest n)
    (awake : s.handler r = none) (provided : Provided s (.popHead rest n)) :
    Gets cfg r es s (Leaving r) := by
  induction rest generalizing n es s with
  | nil =>
    have hmove : Step cfg s .other _ := .unlockQueues s r n h awake
    refine .step hmove trivial rfl rfl rfl rfl (fun _ => le_rfl) ?_
    exact count_gets release n _ _ (run.step trivial hmove) (Function.update_self ..) awake
      (provided.resolve_right (by simp))
  | cons td rest ih =>
    have hmove : Step cfg s .other _ := .goto s r _ awake (h ▸ Goto.popHead td rest n)
    refine .step hmove trivial rfl rfl rfl rfl (fun _ => le_rfl) ?_
    exact popTail_step td rest n _ _ _ (run.step trivial hmove) (Function.update_self ..) awake
      provided.look ih

theorem popTail_gets (release : cfg.debug = false) (td : T) (rest : List T) (n k : ℕ)
    (es : List (Event T)) (s : State T) (run : Run (system cfg) anyEvent es s)
    (h : s.main r = .popTail td rest n k) (awake : s.handler r = none)
    (provided : Provided s (.popTail td rest n k)) : Gets cfg r es s (Leaving r) :=
  popTail_step td rest n k es s run h awake provided fun n' es' s' run' h' awake' =>
    popHead_gets release rest n' es' s' run' h' awake'

theorem lockQueues_gets (release : cfg.debug = false) (n : ℕ) (es : List (Event T)) (s : State T)
    (run : Run (system cfg) anyEvent es s) (h : s.main r = .lockQueues n)
    (awake : s.handler r = none) (provided : Provided s (.lockQueues n)) :
    Gets cfg r es s (Leaving r) := by
  have hfree : s.listLock = none := unlocked_of_holder (r := r) run (by simp [h, phase])
    (by rw [h]; exact id)
  have hmove : Step cfg s .other _ := .lockQueues s r n h awake hfree
  refine .step hmove trivial rfl rfl rfl rfl (fun _ => le_rfl) ?_
  exact popHead_gets release _ n _ _ (run.step trivial hmove) (Function.update_self ..) awake provided

/-- The leftovers fit while not too much is outstanding. -/
theorem leftovers_gets (release : cfg.debug = false) (blocks : List (List Word)) (n : ℕ)
    (es : List (Event T)) (s : State T) (run : Run (system cfg) anyEvent es s)
    (few : outstanding es ≤ 2 * cfg.maxPtrs) (h : s.main r = .leftovers blocks n)
    (awake : s.handler r = none) (provided : Provided s (.leftovers blocks n)) :
    Gets cfg r es s (Leaving r) := by
  induction blocks generalizing n es s with
  | nil =>
    have hmove : Step cfg s .other _ := .goto s r (.lockQueues n) awake (h ▸ Goto.drained n)
    refine .step hmove trivial rfl rfl rfl rfl (fun _ => le_rfl) ?_
    exact lockQueues_gets release n _ _ (run.step trivial hmove) (Function.update_self ..) awake
      (provided.imp_right fun hrest => hrest.resolve_left (by simp))
  | cons block blocks ih =>
    have hentries := (run_tallied run).one (.list r)
    simp only [slots, h, entries, List.flatten_cons, List.length_append] at hentries
    have hmove : Step cfg s .other _ := .leftover s r block blocks n h awake (by omega)
    refine .step hmove trivial rfl rfl rfl rfl (fun _ => le_rfl) ?_
    refine ih _ _ _ (run.step trivial hmove) few (Function.update_self ..) awake ?_
    obtain hn | hne | hq := provided
    · exact .inl (by omega)
    · by_cases hb : block = []
      · exact .inr (.inl (by simpa [hb] using hne))
      · have := List.length_pos_iff.mpr hb
        exact .inl (by omega)
    · exact .inr (.inr hq)

theorem exchange_gets (release : cfg.debug = false) (es : List (Event T)) (s : State T)
    (run : Run (system cfg) anyEvent es s) (few : outstanding es ≤ 2 * cfg.maxPtrs)
    (h : s.main r = .exchange) (awake : s.handler r = none) (supplied : Supplied s) :
    Gets cfg r es s (Leaving r) := by
  have hmove : Step cfg s (.exchange r) _ := .exchange s r h awake
  refine .step hmove trivial rfl rfl rfl rfl (fun _ => le_rfl) ?_
  exact leftovers_gets release _ 0 _ _ (run.step trivial hmove) few (Function.update_self ..) awake
    (.inr supplied)

theorem assign_gets (release : cfg.debug = false) (es : List (Event T)) (s : State T)
    (run : Run (system cfg) anyEvent es s) (few : outstanding es ≤ 2 * cfg.maxPtrs)
    (h : s.main r = .assign) (awake : s.handler r = none) (supplied : Supplied s) :
    Gets cfg r es s (Leaving r) := by
  have hmove : Step cfg s .other _ :=
    .assign s r (fun _ => 0#64) s.bufScanMap h awake fun _ _ _ => rfl
  refine .step hmove trivial rfl rfl rfl rfl (fun _ => le_rfl) ?_
  exact exchange_gets release _ _ (run.step trivial hmove) few (Function.update_self ..) awake supplied

/-- Whoever holds the lock, and is out of its handler, gets to the end of what it guards. -/
theorem leaving_gets (release : cfg.debug = false) (es : List (Event T)) (s : State T)
    (run : Run (system cfg) anyEvent es s) (few : outstanding es ≤ 2 * cfg.maxPtrs)
    (held : phase (s.main r) ≠ .away) (awake : s.handler r = none)
    (provided : Provided s (s.main r)) : Gets cfg r es s (Leaving r) := by
  have hprovided : ∀ {m : Main T}, s.main r = m → Provided s m := fun h => h ▸ provided
  cases h : s.main r with
  | assign => exact assign_gets release es s run few h awake (hprovided h)
  | exchange => exact exchange_gets release es s run few h awake (hprovided h)
  | leftovers blocks n =>
    exact leftovers_gets release blocks n es s run few h awake (hprovided h)
  | lockQueues n => exact lockQueues_gets release n es s run h awake (hprovided h)
  | popHead rest n => exact popHead_gets release rest n es s run h awake (hprovided h)
  | popTail td rest n k => exact popTail_gets release td rest n k es s run h awake (hprovided h)
  | count n => exact count_gets release n es s run h awake (hprovided h)
  | sort => exact sort_gets release es s run h awake
  | scanMap => exact scanMap_gets release es s run h awake
  | reset => exact reset_gets release es s run h awake
  | lockSignal => exact lockSignal_gets release es s run h awake
  | signal rest c => exact signal_gets release rest c es s run h awake
  | search c stage scan => exact search_gets release c stage scan es s run h awake
  | wait c => exact wait_gets release c es s run h awake
  | release n => exact .done ⟨n, h⟩
  | idle | isFull | tryAcquire | verify | handle | randomize | store | fatal =>
    rw [h] at held
    exact absurd rfl held

/-- It gives the lock back. -/
theorem held_gets (release : cfg.debug = false) (es : List (Event T)) (s : State T)
    (run : Run (system cfg) anyEvent es s) (few : outstanding es ≤ 2 * cfg.maxPtrs)
    (held : phase (s.main r) ≠ .away) (awake : s.handler r = none)
    (provided : Provided s (s.main r)) : Gets cfg r es s (Released r) := by
  refine Gets.bind (leaving_gets release es s run few held awake provided) ?_
  rintro es' s' - hspares ⟨n, hm⟩
  exact .step (.release s' r n hm (hspares.handler r awake)) trivial rfl rfl rfl rfl
    (fun _ => le_rfl) (.done ⟨rfl, n, Function.update_self ..⟩)

/-! ### The list is worked off -/

omit [DecidableEq T] in
theorem outstanding_inside {e : Event T} (h : Inside e) (es : List (Event T)) :
    outstanding (e :: es) ≤ outstanding es := by
  cases e with
  | push | mutate | activate | exit => exact h.elim
  | free t a =>
    simp only [outstanding]
    split_ifs <;> omega
  | _ => exact le_rfl

/-- The library on its own collects nothing. -/
theorem outstanding_leads (h : Leads cfg inside es s es' s') : outstanding es' ≤ outstanding es := by
  have hmoves : ∀ c d : List (Event T) × State T, Moves (system cfg) inside c d →
      outstanding d.1 ≤ outstanding c.1 := by
    intro c d hcd
    induction hcd with
    | refl => exact le_rfl
    | tail _ last ih =>
      obtain ⟨e, he, hin, -⟩ := last
      rw [he]
      exact (outstanding_inside hin _).trans ih
  exact hmoves _ _ h.1

theorem store_gets (n : ℕ) (es : List (Event T)) (s : State T) (run : Run (system cfg) anyEvent es s)
    (few : outstanding es + 2 ≤ 2 * cfg.maxPtrs) (h : s.main r = .store n)
    (awake : s.handler r = none) : Gets cfg r es s fun s' => s'.main r = .isFull := by
  have hentries := (run_tallied run).one (.list r)
  simp only [slots, h, entries] at hentries
  by_cases hn : n = 0
  · subst hn
    have hmove : Step cfg s .other _ := .goto s r .isFull awake (h ▸ Goto.storeNone)
    refine .step hmove trivial rfl rfl rfl rfl (fun _ => le_rfl) ?_
    exact .done (Function.update_self ..)
  · have hmove : Step cfg s .other _ := .store s r n h awake hn (by omega)
    refine .step hmove trivial rfl rfl rfl rfl (fun _ => le_rfl) ?_
    exact .done (Function.update_self ..)

theorem randomize_gets (n : ℕ) (es : List (Event T)) (s : State T)
    (run : Run (system cfg) anyEvent es s) (few : outstanding es + 2 ≤ 2 * cfg.maxPtrs)
    (h : s.main r = .randomize n) (awake : s.handler r = none) :
    Gets cfg r es s fun s' => s'.main r = .isFull := by
  have hmove : Step cfg s .other _ := .randomize s r n h awake
  refine .step hmove trivial rfl rfl rfl rfl (fun _ => le_rfl) ?_
  exact store_gets n _ _ (run.step trivial hmove) few (Function.update_self ..) awake

theorem handle_gets (n i w : ℕ) (es : List (Event T)) (s : State T)
    (run : Run (system cfg) anyEvent es s) (few : outstanding es + 2 ≤ 2 * cfg.maxPtrs)
    (h : s.main r = .handle n i w) (awake : s.handler r = none) :
    Gets cfg r es s fun s' => s'.main r = .isFull := by
  have hi := (run_compacting run r n i w h).2
  refine Gets.bind (P := fun s' => ∃ w', s'.main r = .handle n n w') ?_ ?_
  · refine Reach.bind (handle_reach lets_inside r (n - i) es s n i w h (by omega) awake) ?_
    rintro es' s' - ⟨b, w', -, -, -, rfl⟩
    exact .done ⟨.move rfl (fun _ h => h) rfl rfl (fun _ => le_rfl), w', Function.update_self ..⟩
  · rintro es₁ s₁ hleads hspares ⟨w', hm⟩
    have awake₁ := hspares.handler r awake
    have hfew := outstanding_leads hleads
    have hmove : Step cfg s₁ .other _ := .goto s₁ r (.randomize w') awake₁ (hm ▸ Goto.handled n w')
    refine .step hmove trivial rfl rfl rfl rfl (fun _ => le_rfl) ?_
    refine randomize_gets w' _ _ ((run_leads run hleads).step trivial hmove) ?_
      (Function.update_self ..) awake₁
    simp only [outstanding]
    omega

theorem verify_gets (release : cfg.debug = false) (n : ℕ) (es : List (Event T)) (s : State T)
    (run : Run (system cfg) anyEvent es s) (few : outstanding es + 2 ≤ 2 * cfg.maxPtrs)
    (h : s.main r = .verify n) (awake : s.handler r = none) :
    Gets cfg r es s fun s' => s'.main r = .isFull := by
  have hassert : assertMonotonicity cfg (s.buffer r) n := by
    intro hdebug
    rw [release] at hdebug
    cases hdebug
  have hmove : Step cfg s (.handle r) _ := .verify s r n h awake hassert
  refine .step hmove trivial rfl rfl rfl rfl (fun _ => le_rfl) ?_
  exact handle_gets n 0 0 _ _ (run.step trivial hmove) few (Function.update_self ..) awake

/-- An optimised build has no assertion to fail. -/
theorem run_unfailed (release : cfg.debug = false) (run : Run (system cfg) ok es s) :
    ∀ t n, s.main t ≠ .fatal n := by
  refine run.invariant (I := fun _ s => ∀ t n, s.main t ≠ .fatal n) ?_ ?_
  · rintro s ⟨map, rfl⟩ t n
    simp [initial]
  · intro es s e s' _ inv _ move
    have hmain : ∀ {t : T} {m : Main T}, s'.main = Function.update s.main t m →
        (∀ n, m ≠ .fatal n) → ∀ u n, s'.main u ≠ .fatal n := by
      intro t m hm hnew u n
      rw [hm]
      by_cases hut : u = t
      · subst hut
        rw [Function.update_self]
        exact hnew n
      · rw [Function.update_of_ne hut]
        exact inv u n
    cases move with
    | goto t m _ hg =>
      refine hmain rfl ?_
      rintro n rfl
      generalize s.main t = m₀ at hg
      cases hg with
      | verifyFail _ hnot =>
        refine hnot fun hdebug => ?_
        rw [release] at hdebug
        cases hdebug
    | enterHandler | helperSearch | helperNext | helperDone | helperCount | helperTail | mutate
    | create | activate | exit | remove | terminate => exact inv
    | _ => exact hmain rfl (by simp)

/-! ### A thread returns from `threadscan_collect` -/

/-- The storage and the queues of the listed threads hold no more than is outstanding. -/
theorem stock_le (run : Run (system cfg) ok es s) :
    s.storage.flatten.length + (s.threadList.flatMap s.queue).length ≤ outstanding es := by
  have hnodup := (run_roster run).nodup
  have hsum := run_tallied run (insert .storage (s.threadList.toFinset.map
    ⟨Place.queue, fun _ _ h => Place.queue.inj h⟩))
  rw [Finset.sum_insert (by simp), Finset.sum_map, List.sum_toFinset _ hnodup] at hsum
  rw [List.length_flatMap]
  exact hsum

omit [DecidableEq T] in
theorem Supplied.count (h : Supplied s) :
    1 ≤ s.storage.flatten.length + (s.threadList.flatMap s.queue).length := by
  obtain hne | ⟨u, hu, hne⟩ := h
  · have := List.length_pos_iff.mpr hne
    omega
  · obtain ⟨a, ha⟩ := List.exists_mem_of_ne_nil _ hne
    have := List.length_pos_of_mem (List.mem_flatMap.mpr ⟨u, hu, ha⟩)
    omega

/-- What is promised of the way back to user code. -/
def Back (t : T) (s s' : State T) : Prop :=
  s'.main t = .idle ∧ s'.handler t = none ∧ s'.life = s.life

/-- The lock gets free for a thread that does not hold it. -/
theorem free_reach (release : cfg.debug = false) (t : T) (es : List (Event T)) (s : State T)
    (run : Run (system cfg) anyEvent es s) (few : outstanding es ≤ 2 * cfg.maxPtrs)
    (provided : ∀ r, Provided s (s.main r)) (away : phase (s.main t) = .away)
    (awake : s.handler t = none) :
    Reach cfg inside es s fun s' => s'.lock = none ∧ s'.main t = s.main t ∧ s'.handler t = none ∧
      s'.life = s.life := by
  cases hlock : s.lock with
  | none => exact .done ⟨hlock, rfl, awake, rfl⟩
  | some r =>
    have hheld : phase (s.main r) ≠ .away := ((run_roll run).holder r).mpr hlock
    have hne : t ≠ r := by
      rintro rfl
      exact hheld away
    refine .bind (awake_reach release lets_inside run r) ?_
    rintro es₁ s₁ hleads ⟨b, k, rfl⟩
    have hfew := outstanding_leads hleads
    refine .bind (held_gets release es₁ _ (run_leads run hleads) (by omega) hheld
      (Function.update_self ..) (provided r)) ?_
    rintro es' s' - ⟨hspares, hfree, -⟩
    refine .done ⟨hfree, hspares.main t hne, hspares.handler t ?_, hspares.life⟩
    exact (Function.update_of_ne hne _ _).trans awake

/-- With an empty queue the loop of `threadscan_collect` ends. -/
theorem isFull_returns (es : List (Event T)) (s : State T) (t : T) (h : s.main t = .isFull)
    (awake : s.handler t = none) (room : threadscanQueueIsFull cfg (s.queue t) = false) :
    Reach cfg inside es s (Back t s) := by
  have hmove : Step cfg s .other _ := .goto s t .idle awake (h ▸ Goto.notFull room)
  exact .own lets_inside hmove trivial (.done ⟨Function.update_self .., awake, rfl⟩)

/-- A thread that finds the lock free drains its queue in a round of its own, and returns. -/
theorem tryAcquire_returns (release : cfg.debug = false) (t : T) (es : List (Event T)) (s : State T)
    (run : Run (system cfg) anyEvent es s) (few : outstanding es + 2 ≤ 2 * cfg.maxPtrs)
    (free : s.lock = none) (supplied : Supplied s) (h : s.main t = .tryAcquire)
    (awake : s.handler t = none) : Reach cfg inside es s (Back t s) := by
  have hroster := run_roster run
  have hlisted : t ∈ s.threadList :=
    (hroster.listed t).mpr (.inr (.inl ((run_attended run).collects t (by simp [h]))))
  have hunlocked := unlocked_of_free run free
  have hstock := stock_le run
  refine .bind (drain_reach cfg lets_inside t es s h awake free hunlocked hroster.nodup _ rfl
    (by omega) (fun _ _ _ _ _ => trivial) fun _ _ => supplied.count) ?_
  rintro es₁ s₁ hleads₁ ⟨b, map, k, rfl, -⟩
  have run₁ := run_leads run hleads₁
  have hfew₁ := outstanding_leads hleads₁
  refine .bind (held_gets release es₁ _ run₁ (by omega) (by simp [drained, phase]) awake
    (by simp [drained, Provided])) ?_
  rintro es₂ s₂ hleads₂ ⟨hspares₂, -, n, hm₂⟩
  have run₂ := run_leads run₁ hleads₂
  have hfew₂ := outstanding_leads hleads₂
  have awake₂ := hspares₂.handler t awake
  refine .bind (verify_gets release n es₂ s₂ run₂ (by omega) hm₂ awake₂) ?_
  rintro es₃ s₃ - ⟨hspares₃, hm₃⟩
  have hempty : (s₃.queue t).length ≤ 0 := by
    refine (hspares₃.queue t).trans ((hspares₂.queue t).trans ?_)
    simp [drained, hlisted]
  have hroom : threadscanQueueIsFull cfg (s₃.queue t) = false := by
    have hlarge := cfg.ptrsPerThread_bounds.1
    exact decide_eq_false (by omega)
  refine .bind (isFull_returns es₃ s₃ t hm₃ (hspares₃.handler t awake₂) hroom) ?_
  rintro es' s' - ⟨hidle, hawake, hlife⟩
  refine .done ⟨hidle, hawake, ?_⟩
  rw [hlife, hspares₃.life, hspares₂.life]
  rfl

/-- A thread that tests its queue while the lock is free returns, behind a round of its own where
the queue is full. -/
theorem loop_returns (release : cfg.debug = false) (t : T) (es : List (Event T)) (s : State T)
    (run : Run (system cfg) anyEvent es s) (few : outstanding es + 2 ≤ 2 * cfg.maxPtrs)
    (free : s.lock = none) (h : s.main t = .isFull) (awake : s.handler t = none) :
    Reach cfg inside es s (Back t s) := by
  cases hfull : threadscanQueueIsFull cfg (s.queue t) with
  | false => exact isFull_returns es s t h awake hfull
  | true =>
    have hlisted : t ∈ s.threadList :=
      ((run_roster run).listed t).mpr (.inr (.inl ((run_attended run).collects t (by simp [h]))))
    have hne : s.queue t ≠ [] := by
      intro hnil
      have hlarge := cfg.ptrsPerThread_bounds.1
      simp only [threadscanQueueIsFull, hnil, List.length_nil, decide_eq_true_eq] at hfull
      omega
    have hmove : Step cfg s .other _ := .goto s t .tryAcquire awake (h ▸ Goto.full hfull)
    refine .own lets_inside hmove trivial ?_
    exact tryAcquire_returns release t _ _ (run.step trivial hmove) few free
      (.inr ⟨t, hlisted, hne⟩) (Function.update_self ..) awake

/-- A round behind its lock gets back to the loop, and leaves the lock alone. -/
theorem away_returns (release : cfg.debug = false) (t : T) (es : List (Event T)) (s : State T)
    (run : Run (system cfg) anyEvent es s) (few : outstanding es + 2 ≤ 2 * cfg.maxPtrs)
    (free : s.lock = none) (awake : s.handler t = none)
    (gets : Gets cfg t es s fun s' => s'.main t = .isFull) : Reach cfg inside es s (Back t s) := by
  refine .bind gets ?_
  rintro es₁ s₁ hleads ⟨hspares, hm⟩
  have run₁ := run_leads run hleads
  have hfew := outstanding_leads hleads
  have hfree : s₁.lock = none :=
    hspares.free run₁ (fun u _ => away_of_free run free u) (congrArg phase hm)
  refine .bind (loop_returns release t es₁ s₁ run₁ (by omega) hfree hm (hspares.handler t awake)) ?_
  rintro es' s' - ⟨hidle, hawake, hlife⟩
  exact .done ⟨hidle, hawake, hlife.trans hspares.life⟩

/-- While the lock is free, a thread gets back to user code from wherever it is. -/
theorem free_returns (release : cfg.debug = false) (t : T) (es : List (Event T)) (s : State T)
    (run : Run (system cfg) anyEvent es s) (few : outstanding es + 2 ≤ 2 * cfg.maxPtrs)
    (free : s.lock = none) (asks : s.main t = .tryAcquire → Supplied s)
    (awake : s.handler t = none) : Reach cfg inside es s (Back t s) := by
  have hgets := away_returns release t es s run few free awake
  cases hm : s.main t with
  | idle => exact .done ⟨hm, awake, rfl⟩
  | isFull => exact loop_returns release t es s run few free hm awake
  | tryAcquire => exact tryAcquire_returns release t es s run few free (asks hm) hm awake
  | verify n => exact hgets (verify_gets release n es s run few hm awake)
  | handle n i w => exact hgets (handle_gets n i w es s run few hm awake)
  | randomize n => exact hgets (randomize_gets n es s run few hm awake)
  | store n => exact hgets (store_gets n es s run few hm awake)
  | fatal n => exact absurd hm (run_unfailed release run t n)
  | _ => exact absurd (away_of_free run free t) (by simp [hm, phase])

/-- From wherever it is, a thread gets back to user code. -/
theorem back_reach (release : cfg.debug = false) (t : T) (es : List (Event T)) (s : State T)
    (run : Run (system cfg) anyEvent es s) (few : outstanding es + 2 ≤ 2 * cfg.maxPtrs)
    (provided : ∀ r, Provided s (s.main r))
    (asks : s.main t = .tryAcquire → s.lock = none → Supplied s) :
    Reach cfg inside es s (Back t s) := by
  refine .bind (awake_reach release lets_inside run t) ?_
  rintro es₁ s₁ hleads₁ ⟨b, k, rfl⟩
  have run₁ := run_leads run hleads₁
  have hfew₁ := outstanding_leads hleads₁
  have hawake : Function.update s.handler t none t = none := Function.update_self ..
  by_cases hlock : s.lock = none
  · exact free_returns release t es₁ _ run₁ (by omega) hlock (fun hm => asks hm hlock) hawake
  by_cases haway : phase (s.main t) = .away
  · by_cases hm : s.main t = .tryAcquire
    · -- `try_acquire` fails while another round has the lock
      have hyield : Step cfg _ .other _ := .goto (served s b s.pending
        (Function.update s.handler t none) k) t .isFull hawake (hm ▸ Goto.yield)
      refine .own lets_inside hyield trivial ?_
      have hprovided : ∀ r, Provided s (Function.update s.main t .isFull r) := by
        intro r
        by_cases hrt : r = t
        · rw [hrt, Function.update_self]
          trivial
        · rw [Function.update_of_ne hrt]
          exact provided r
      have run₂ := run₁.step trivial hyield
      have hfew₂ : outstanding (Event.other :: es₁) = outstanding es₁ := rfl
      refine .bind (free_reach release t _ _ run₂ (by omega) hprovided
        (by simp [phase]) hawake) ?_
      rintro es₃ s₃ hleads₃ ⟨hfree, hm₃, hawake₃, hlife₃⟩
      have hfew₃ := outstanding_leads hleads₃
      refine .bind (loop_returns release t es₃ s₃ (run_leads run₂ hleads₃) (by omega) hfree
        (hm₃.trans (Function.update_self ..)) hawake₃) ?_
      rintro es' s' - ⟨hidle, hback, hlife⟩
      exact .done ⟨hidle, hback, hlife.trans hlife₃⟩
    · refine .bind (free_reach release t es₁ _ run₁ (by omega) provided haway hawake) ?_
      rintro es₂ s₂ hleads₂ ⟨hfree, hm₂, hawake₂, hlife₂⟩
      have hfew₂ := outstanding_leads hleads₂
      refine .bind (free_returns release t es₂ s₂ (run_leads run₁ hleads₂) (by omega) hfree
        (fun h => absurd (hm₂.symm.trans h) hm) hawake₂) ?_
      rintro es' s' - ⟨hidle, hback, hlife⟩
      exact .done ⟨hidle, hback, hlife.trans hlife₂⟩
  · refine .bind (held_gets release es₁ _ run₁ (by omega) haway hawake (provided t)) ?_
    rintro es₂ s₂ hleads₂ ⟨hspares₂, hfree, n, hm₂⟩
    have hfew₂ := outstanding_leads hleads₂
    refine .bind (free_returns release t es₂ s₂ (run_leads run₁ hleads₂) (by omega) hfree
      (fun h => by rw [hm₂] at h; cases h) (hspares₂.handler t hawake)) ?_
    rintro es' s' - ⟨hidle, hback, hlife⟩
    exact .done ⟨hidle, hback, hlife.trans hspares₂.life⟩

theorem room_of_few {n : ℕ} (few : n ≤ 2 * cfg.maxPtrs - 2) : n + 2 ≤ 2 * cfg.maxPtrs := by
  have hlarge := cfg.ptrsPerThread_bounds.1
  simp only [Config.maxPtrs, maxThreadCount] at few ⊢
  omega

/-- No thread is stuck in the library: in an optimised build, and while at most
`2 * max_ptrs - 2` addresses are outstanding, steps of the library alone lead to a state in which
a given thread has returned from `threadscan_collect` and from its signal handler. No round is
empty, neither before nor on the way: a round under way has drained an address or is going to,
and a thread that asks for a lock that is free finds one. -/
theorem collect_returns (cfg : Config) (release : cfg.debug = false) (es : List (Event T))
    (s : State T) (run : Run (system cfg) nonemptyRounds es s)
    (few : outstanding es ≤ 2 * cfg.maxPtrs - 2) (provided : ∀ r, Provided s (s.main r)) (t : T)
    (asks : s.main t = .tryAcquire → s.lock = none → Supplied s) :
    ∃ es' s', Moves (system cfg) inside (es, s) (es', s') ∧ s'.main t = .idle ∧
      s'.handler t = none ∧ s'.life = s.life := by
  obtain ⟨es', s', hleads, hback⟩ := back_reach release t es s (run.weaken fun _ _ _ _ => trivial)
    (room_of_few few) provided asks
  exact ⟨es', s', hleads.1, hback⟩

/-! ### A round of one thread -/

/-- The promise to collect what is on the list only, and each address once. -/
def once (l : List Word) (es : List (Event T)) (s : State T) (e : Event T) : Prop :=
  nonemptyRounds es s e ∧ ∀ t a, e = .push t a → a ∈ l ∧ Fresh a es

omit [DecidableEq T] in
theorem lets_once (l : List Word) : Lets (once (T := T) l) := by
  intro es s e own
  refine ⟨lets_nonemptyRounds es s e own, ?_⟩
  rintro t a rfl
  exact own.elim

theorem outstanding_once {l : List Word} (run : Run (system cfg) (once l) es s) :
    outstanding es ≤ l.length := by
  have hcount : ∃ ps : List Word, ps.Nodup ∧ outstanding es ≤ ps.length ∧
      ∀ a ∈ ps, a ∈ l ∧ ¬ Fresh a es := by
    refine run.invariant (I := fun es _ => ∃ ps : List Word, ps.Nodup ∧ outstanding es ≤ ps.length ∧
      ∀ a ∈ ps, a ∈ l ∧ ¬ Fresh a es) ?_ ?_
    · rintro s ⟨map, rfl⟩
      exact ⟨[], .nil, le_rfl, by simp⟩
    · rintro es s e s' - ⟨ps, hnodup, hle, hps⟩ allowed -
      have hold : ∀ a ∈ ps, a ∈ l ∧ ¬ Fresh a (e :: es) := fun a ha =>
        ⟨(hps a ha).1, fun hfresh => (hps a ha).2 fun u hu => hfresh u (List.mem_cons_of_mem e hu)⟩
      by_cases hin : Inside e
      · exact ⟨ps, hnodup, (outstanding_inside hin es).trans hle, hold⟩
      cases e with
      | push t a =>
        obtain ⟨ha, hfresh⟩ := allowed.2 t a rfl
        refine ⟨a :: ps, List.nodup_cons.mpr ⟨fun hmem => (hps a hmem).2 hfresh, hnodup⟩,
          Nat.succ_le_succ hle, ?_⟩
        intro b hb
        obtain rfl | hb := List.mem_cons.mp hb
        · exact ⟨ha, fun hf => hf t List.mem_cons_self⟩
        · exact hold b hb
      | count t n => exact absurd allowed.1 hin
      | mutate | activate | exit => exact ⟨ps, hnodup, hle, hold⟩
      | _ => exact absurd trivial hin
  obtain ⟨ps, hnodup, hle, hps⟩ := hcount
  exact hle.trans (List.subperm_of_subset hnodup fun a ha => (hps a ha).1).length_le

/-- A thread on its own has filled its queue and asks for the lock. -/
theorem lone_asks : ∃ (es : List (Event Unit)) (s : State Unit),
    Run (system (leastConfig false)) nonemptyRounds es s ∧
    outstanding es ≤ 2 * (leastConfig false).maxPtrs - 2 ∧ s.main () = .tryAcquire ∧
    s.threadList = [()] ∧ s.life () = .active ∧ s.queue () = addressRow 256 1023 ∧
    memory s () = [] := by
  have hsmall : 16 * (256 + 1023) < 2 ^ 64 := by norm_num
  have run₀ : Run (system (leastConfig false)) (once (addressRow 256 1023)) []
      (initial (T := Unit) fun _ => 0#64) := .init ⟨_, rfl⟩
  have run₁ := start_run (lets_once _) run₀ () [] rfl rfl fun s => ⟨trivial, fun t a h => by cases h⟩
  obtain ⟨es, run, -⟩ := fill_run (lets_once _) run₁ () (addressRow 256 1023)
    (fun es s a ha hfresh => ⟨trivial, fun t b hb => by cases hb; exact ⟨ha, hfresh⟩⟩)
    (addressRow_nonzero hsmall (by norm_num)) (addressRow_nodup hsmall)
    (fun b _ u hu => by simp at hu) rfl rfl (by simp) rfl (by rw [addressRow_length]; rfl)
  have hfew := outstanding_once run
  rw [addressRow_length] at hfew
  refine ⟨es, _, run.weaken fun _ _ _ h => h.1, ?_, by simp, rfl, rfl, ?_, by simp [memory]⟩
  · rw [leastConfig_maxPtrs]
    omega
  · dsimp only
    simp only [Function.update_self]

/-- The thread has a full queue and is on its way to its round. -/
def Asking (cfg : Config) (s : State Unit) : Prop :=
  threadscanQueueIsFull cfg (s.queue ()) = true ∧
    (s.main () = .isFull ∨ s.main () = .tryAcquire ∨ s.main () = .assign ∨ s.main () = .exchange)

theorem Asking.step {s s' : State Unit} {e : Event Unit} (h : Asking cfg s) (own : Inside e)
    (move : Step cfg s e s') : Asking cfg s' ∨ ∃ t, e = .exchange t := by
  obtain ⟨hfull, hm⟩ := h
  cases move with
  | exchange t => exact .inr ⟨t, rfl⟩
  | goto t m _ hg =>
    refine .inl ⟨hfull, ?_⟩
    obtain hm | hm | hm | hm := hm <;> rw [hm] at hg
    · cases hg with
      | full => simp
      | notFull room => exact absurd (hfull.symm.trans room) (by simp)
    · cases hg
      simp
    · cases hg
    · cases hg
  | acquire t ht | assign t _ _ ht => exact .inl ⟨hfull, by simp⟩
  | push | mutate | activate | exit => exact own.elim
  | leftover t _ _ _ ht | lockQueues t _ ht | popTail t _ _ _ _ ht | unlockQueues t _ ht
  | count t _ ht | sort t ht | scanMap t ht | reset t ht | lockSignal t ht | kill t _ _ _ ht
  | unlockSignal t _ ht | search t _ _ _ ht | leave t _ ht | release t _ ht | verify t _ ht
  | keep t _ _ _ ht | free t _ _ _ _ ht | randomize t _ ht | store t _ ht =>
    obtain rfl : t = () := rfl
    rw [ht] at hm
    simp at hm
  | _ => exact .inl ⟨hfull, hm⟩

/-- It runs a round, and returns. -/
theorem collect_returns_round : ∃ (es fs : List (Event Unit)) (s s' : State Unit),
    Run (system (leastConfig false)) nonemptyRounds es s ∧ s.queue () = addressRow 256 1023 ∧
      Moves (system (leastConfig false)) inside (es, s) (fs ++ es, s') ∧
      Event.exchange () ∈ fs ∧ s'.main () = .idle := by
  obtain ⟨es, s, run, hfew, hm, hlist, -, hqueue, -⟩ := lone_asks
  have hne : s.queue () ≠ [] := by simp [hqueue, addressRow]
  obtain ⟨es', s', hmoves, hidle, -⟩ := collect_returns (leastConfig false) rfl es s run hfew
    (fun _ => by rw [hm]; trivial) () fun _ _ => .inr ⟨(), by simp [hlist], hne⟩
  have hasking : Asking (leastConfig false) s := by
    refine ⟨?_, .inr (.inl hm)⟩
    rw [hqueue, threadscanQueueIsFull, addressRow_length, leastConfig_ptrsPerThread]
    rfl
  obtain ⟨fs, rfl, ⟨e, he, t, rfl⟩ | ⟨-, hstill⟩⟩ := Moves.until hasking
    (fun _ h own move => h.step own move) hmoves
  · exact ⟨es, fs, s, s', run, hqueue, hmoves, he, hidle⟩
  · simp [hidle] at hstill

end ThreadScan.Completion
