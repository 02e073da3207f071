import ThreadScan.Reclaim
import ThreadScan.RollCall

/-! The signals of a reclaim round are a roll call: the reclaimer calls the active threads,
their handlers answer in `self_stacks_searched`. What the roll call guarantees holds of the
protocol, and the list and its scan map rest while anybody searches them. -/
namespace ThreadScan.Handshake
open Transition Search Compaction Reclaim

variable {T : Type*} [DecidableEq T] {cfg : Config}
  {ok : List (Event T) → State T → Event T → Prop} {es : List (Event T)} {s s' : State T}

/-- Where the reclaimer stands in its roll call. -/
def phase : Main T → RollCall.Phase T
  | .idle | .isFull | .tryAcquire | .verify _ | .handle _ _ _ | .randomize _ | .store _
  | .fatal _ => .away
  | .assign | .exchange | .leftovers _ _ | .lockQueues _ | .popHead _ _ | .popTail _ _ _ _
  | .count _ | .sort | .scanMap | .reset | .release _ => .held
  | .lockSignal => .opened
  | .signal rest c => .calling rest c
  | .search c _ _ | .wait c => .waiting c

def helper : Option Handler → RollCall.Helper
  | none => .idle
  | some (.search _ _) | some .count => .working
  | some .tail => .answered

/-- The roll call that a state of the protocol is in. -/
def roll (s : State T) : RollCall.State T where
  phase t := phase (s.main t)
  helper u := helper (s.handler u)
  calls := s.pending
  members := s.threadList
  lock := s.lock
  counter := s.selfStacksSearched

def rollEvent : Event T → RollCall.Event T
  | .reset _ => .reset
  | .kill _ u => .call u
  | .searched u => .answer u
  | .leave t => .leave t
  | _ => .other

/-- The threads that `pthread_kill` was called for since the last reset of the counter. -/
def signalled (es : List (Event T)) : List T := RollCall.called (es.map rollEvent)

/-- The threads whose handlers have counted themselves since the last reset. -/
def completed (es : List (Event T)) : List T := RollCall.answered (es.map rollEvent)

/-- Some round has reset the counter. -/
def hasReset (es : List (Event T)) : Bool := RollCall.wasReset (es.map rollEvent)

/-- A thread is between the start and the end of a `search_range`. -/
def Scans (s : State T) (u : T) (scan : Scan) : Prop :=
  (∃ c stage, s.main u = .search c stage scan) ∨ ∃ stage, s.handler u = some (.search stage scan)

theorem phase_update (main : T → Main T) (t : T) (m : Main T) :
    (fun u => phase (Function.update main t m u)) =
      Function.update (fun u => phase (main u)) t (phase m) := by
  funext u
  by_cases hu : u = t
  · subst hu
    simp
  · simp [Function.update_of_ne hu]

theorem helper_update (handler : T → Option Handler) (t : T) (h : Option Handler) :
    (fun u => helper (Function.update handler t h u)) =
      Function.update (fun u => helper (handler u)) t (helper h) := by
  funext u
  by_cases hu : u = t
  · subst hu
    simp
  · simp [Function.update_of_ne hu]

theorem phase_stay {main : T → Main T} {t : T} {m : Main T} (h : phase m = phase (main t)) :
    (fun u => phase (Function.update main t m u)) = fun u => phase (main u) := by
  rw [phase_update, h]
  exact Function.update_eq_self t _

theorem helper_stay {handler : T → Option Handler} {t : T} {h : Option Handler}
    (he : helper h = helper (handler t)) :
    (fun u => helper (Function.update handler t h u)) = fun u => helper (handler u) := by
  rw [helper_update, he]
  exact Function.update_eq_self t _

/-! ### The thread list -/

/-- A record is on the thread list from its creation to its removal, once. -/
structure Roster (s : State T) : Prop where
  nodup : s.threadList.Nodup
  listed : ∀ t, t ∈ s.threadList ↔ s.life t = .born ∨ s.life t = .active ∨ s.life t = .exiting

theorem Roster.step {e : Event T} (h : Roster s) (move : Step cfg s e s') : Roster s' := by
  obtain ⟨nodup, listed⟩ := h
  cases move with
  | create t ht =>
    have hnew : t ∉ s.threadList := by simp [listed, ht]
    refine ⟨List.nodup_cons.mpr ⟨hnew, nodup⟩, fun u => ?_⟩
    by_cases hu : u = t
    · subst hu
      simp
    · simp [hu, listed]
  | activate t stack ht =>
    refine ⟨nodup, fun u => ?_⟩
    by_cases hu : u = t
    · subst hu
      simp [listed, ht]
    · simp [listed, Function.update_of_ne hu]
  | exit t ht =>
    refine ⟨nodup, fun u => ?_⟩
    by_cases hu : u = t
    · subst hu
      simp [listed, ht]
    · simp [listed, Function.update_of_ne hu]
  | remove t ht =>
    refine ⟨nodup.erase t, fun u => ?_⟩
    by_cases hu : u = t
    · subst hu
      simp [nodup.mem_erase_iff]
    · simp [nodup.mem_erase_iff, hu, listed]
  | terminate t ht =>
    refine ⟨nodup, fun u => ?_⟩
    by_cases hu : u = t
    · subst hu
      simp [listed, ht]
    · simp [listed, Function.update_of_ne hu]
  | _ => exact ⟨nodup, listed⟩

theorem run_roster (run : Run (system cfg) ok es s) : Roster s := by
  refine run.invariant (I := fun _ s => Roster s) ?_ fun _ _ _ _ _ inv _ move => inv.step move
  rintro s ⟨map, rfl⟩
  exact ⟨List.nodup_nil, by simp [initial]⟩

/-! ### The simulation -/

/-- A step that moves one thread within a phase is no step of the roll call. -/
theorem roll_stay {t : T} {m : Main T} (hmain : s'.main = Function.update s.main t m)
    (h : phase m = phase (s.main t)) (hh : s'.handler = s.handler)
    (hp : s'.pending = s.pending) (hl : s'.threadList = s.threadList) (hk : s'.lock = s.lock)
    (hc : s'.selfStacksSearched = s.selfStacksSearched) :
    RollCall.Step (roll s) .other (roll s') := by
  have : roll s' = roll s := by
    simp only [roll, hmain, hh, hp, hl, hk, hc, phase_stay h]
  rw [this]
  exact .stutter _

/-- A step that moves one handler between two of its answers. -/
theorem roll_help {u : T} {m : Option Handler} (hh : s'.handler = Function.update s.handler u m)
    (h : helper m = helper (s.handler u)) (hmain : s'.main = s.main)
    (hp : s'.pending = s.pending) (hl : s'.threadList = s.threadList) (hk : s'.lock = s.lock)
    (hc : s'.selfStacksSearched = s.selfStacksSearched) :
    RollCall.Step (roll s) .other (roll s') := by
  have : roll s' = roll s := by
    simp only [roll, hmain, hh, hp, hl, hk, hc, helper_stay h]
  rw [this]
  exact .stutter _

omit [DecidableEq T] in
/-- Walking the thread list on its own moves a thread through the roll call only in its skips. -/
theorem goto_phase {t : T} {m m' : Main T} (h : Goto cfg s t m m') :
    phase m' = phase m ∨ ∃ u rest c, phase m = .calling (u :: rest) c ∧
      phase m' = .calling rest c := by
  cases h with
  | skip td rest c h => exact .inr ⟨td, rest, c, rfl, rfl⟩
  | _ => exact .inl rfl

/-- Every step of the protocol is a step of its roll call. -/
theorem roll_step {e : Event T} (roster : Roster s) (move : Step cfg s e s') :
    RollCall.Step (roll s) (rollEvent e) (roll s') := by
  have hphase : ∀ {t : T} {m : Main T}, s.main t = m → (roll s).phase t = phase m :=
    fun h => congrArg phase h
  cases move with
  | push t ptr h => exact roll_stay rfl (by rw [h]; rfl) rfl rfl rfl rfl rfl
  | goto t m run h =>
    obtain he | ⟨u, rest, c, h₁, h₂⟩ := goto_phase h
    · exact roll_stay rfl he rfl rfl rfl rfl rfl
    · simp only [roll, rollEvent, phase_update, h₂]
      exact RollCall.Step.skip (roll s) t u rest c h₁
  | acquire t h run free =>
    simp only [roll, rollEvent, phase_update]
    exact RollCall.Step.acquire (roll s) t (hphase h) free
  | assign t mem map h => exact roll_stay rfl (by rw [h]; rfl) rfl rfl rfl rfl rfl
  | exchange t h => exact roll_stay rfl (by rw [h]; rfl) rfl rfl rfl rfl rfl
  | leftover t block blocks n h => exact roll_stay rfl (by rw [h]; rfl) rfl rfl rfl rfl rfl
  | lockQueues t n h => exact roll_stay rfl (by rw [h]; rfl) rfl rfl rfl rfl rfl
  | popTail t td rest n k h => exact roll_stay rfl (by rw [h]; rfl) rfl rfl rfl rfl rfl
  | unlockQueues t n h => exact roll_stay rfl (by rw [h]; rfl) rfl rfl rfl rfl rfl
  | count t n h => exact roll_stay rfl (by rw [h]; rfl) rfl rfl rfl rfl rfl
  | sort t h => exact roll_stay rfl (by rw [h]; rfl) rfl rfl rfl rfl rfl
  | scanMap t h => exact roll_stay rfl (by rw [h]; rfl) rfl rfl rfl rfl rfl
  | reset t h =>
    simp only [roll, rollEvent, phase_update]
    exact RollCall.Step.reset (roll s) t (hphase h)
  | lockSignal t h =>
    simp only [roll, rollEvent, phase_update]
    exact RollCall.Step.start (roll s) t (hphase h)
  | kill t td rest c h =>
    simp only [roll, rollEvent, phase_update]
    exact RollCall.Step.call (roll s) t td rest c (hphase h)
  | unlockSignal t c h =>
    simp only [roll, rollEvent, phase_update]
    exact RollCall.Step.finish (roll s) t c (hphase h)
  | search t c stage scan h => exact roll_stay rfl (by rw [h]; rfl) rfl rfl rfl rfl rfl
  | leave t c h run all =>
    simp only [roll, rollEvent, phase_update]
    exact RollCall.Step.leave (roll s) t c (hphase h) all
  | release t n h =>
    simp only [roll, rollEvent, phase_update]
    exact RollCall.Step.release (roll s) t (hphase h)
  | verify t n h => exact roll_stay rfl (by rw [h]; rfl) rfl rfl rfl rfl rfl
  | keep t n i w h => exact roll_stay rfl (by rw [h]; rfl) rfl rfl rfl rfl rfl
  | free t n i w ptr h => exact roll_stay rfl (by rw [h]; rfl) rfl rfl rfl rfl rfl
  | randomize t n h => exact roll_stay rfl (by rw [h]; rfl) rfl rfl rfl rfl rfl
  | store t n h => exact roll_stay rfl (by rw [h]; rfl) rfl rfl rfl rfl rfl
  | enterHandler u run signal =>
    simp only [roll, rollEvent, helper_update]
    exact RollCall.Step.enter (roll s) u (congrArg helper run) signal
  | helperSearch u stage scan h => exact roll_help rfl (by rw [h]; rfl) rfl rfl rfl rfl rfl
  | helperNext u stage stage' scan scan' h =>
    exact roll_help rfl (by rw [h]; rfl) rfl rfl rfl rfl rfl
  | helperDone u stage scan h => exact roll_help rfl (by rw [h]; rfl) rfl rfl rfl rfl rfl
  | helperCount u h =>
    simp only [roll, rollEvent, helper_update]
    exact RollCall.Step.answer (roll s) u (congrArg helper h)
  | helperTail u h =>
    simp only [roll, rollEvent, helper_update]
    exact RollCall.Step.lower (roll s) u (congrArg helper h)
  | mutate t stack block => exact .stutter _
  | create t h =>
    have hnew : t ∉ s.threadList := by simp [roster.listed, h]
    exact .join (roll s) t hnew
  | activate t stack h => exact .stutter _
  | exit t h => exact .stutter _
  | remove t h => exact .part (roll s) t
  | terminate t h => exact .stutter _

theorem run_roll (run : Run (system cfg) ok es s) :
    RollCall.Inv (es.map rollEvent) (roll s) := by
  refine RollCall.run_inv (run.simulate roll rollEvent ?_ ?_)
  · rintro s ⟨map, rfl⟩
    exact ⟨fun _ => rfl, fun _ => rfl, fun _ => rfl, List.nodup_nil, rfl⟩
  · exact fun _ _ _ _ run move => roll_step (run_roster run) move

/-! ### What the roll call guarantees -/

theorem alone (run : Run (system cfg) ok es s) {t u : T} (ht : phase (s.main t) ≠ .away)
    (hu : phase (s.main u) ≠ .away) : t = u := (run_roll run).only ht hu

/-- Outside of a roll call no signal is on its way and no handler is in its searches. -/
theorem quiet (run : Run (system cfg) ok es s) {t : T} (ht : phase (s.main t) = .held) (u : T) :
    s.pending u = 0 ∧ (s.handler u = none ∨ s.handler u = some .tail) := by
  have hout := (run_roll run).quiet (t := t) (show phase (s.main t) ≠ .away by simp [ht])
    (show ¬ RollCall.Open (phase (s.main t)) by simp [ht, RollCall.Open]) u
  obtain ⟨hcalls, hidle⟩ := (RollCall.outstanding_eq_zero _ u).mp hout
  refine ⟨hcalls, ?_⟩
  change helper (s.handler u) ≠ .working at hidle
  cases hh : s.handler u with
  | none => exact .inl rfl
  | some h =>
    rw [hh] at hidle
    cases h with
    | tail => exact .inr rfl
    | search stage scan | count => exact absurd rfl hidle

/-- Whoever searches does so on behalf of an open roll call. -/
theorem scans_open (run : Run (system cfg) ok es s) {u : T} {scan : Scan}
    (h : Scans s u scan) : ∃ r, RollCall.Open (phase (s.main r)) := by
  obtain ⟨c, stage, hm⟩ | ⟨stage, hh⟩ := h
  · exact ⟨u, by rw [hm]; trivial⟩
  · by_contra hnone
    have hout := (run_roll run).closed (fun t ht => hnone ⟨t, ht⟩) u
    exact ((RollCall.outstanding_eq_zero _ u).mp hout).2 (congrArg helper hh)

theorem not_held_of_scans (run : Run (system cfg) ok es s) {u t : T} {scan : Scan}
    (h : Scans s u scan) : phase (s.main t) ≠ .held := by
  intro ht
  obtain ⟨r, hr⟩ := scans_open run h
  have := alone run hr.ne_away (u := t) (by simp [ht])
  subst this
  rw [ht] at hr
  exact hr

/-! ### The list a round works on -/

/-- `buf_addrs` is the buffer of the thread that holds the lock and has mapped one. -/
def Owner (s : State T) : Prop :=
  ∀ t, phase (s.main t) ≠ .away → s.main t ≠ .assign → s.bufOwner = some t

theorem Owner.move (h : Owner s) {t : T} {m : Main T}
    (hmain : s'.main = Function.update s.main t m) (howner : s'.bufOwner = s.bufOwner)
    (hm : phase m ≠ .away → m ≠ .assign → phase (s.main t) ≠ .away ∧ s.main t ≠ .assign) :
    Owner s' := by
  intro u hu hne
  rw [howner]
  rw [hmain] at hu hne
  by_cases he : u = t
  · subst he
    rw [Function.update_self] at hu hne
    exact h u (hm hu hne).1 (hm hu hne).2
  · rw [Function.update_of_ne he] at hu hne
    exact h u hu hne

theorem Owner.step {e : Event T} (h : Owner s) (run : Run (system cfg) ok es s)
    (move : Step cfg s e s') : Owner s' := by
  cases move with
  | goto t m _ hg =>
    refine h.move rfl rfl ?_
    generalize s.main t = m₀ at hg
    cases hg <;> simp [phase]
  | acquire t ht _ free => exact h.move rfl rfl (by simp)
  | assign t mem map ht =>
    intro u hu hne
    by_cases he : u = t
    · rw [he]
    · simp only [Function.update_of_ne he] at hu hne
      have := alone run hu (u := t) (by simp [ht, phase])
      exact absurd this he
  | push t _ ht | exchange t ht | leftover t _ _ _ ht | lockQueues t _ ht | popTail t _ _ _ _ ht
  | unlockQueues t _ ht | count t _ ht | sort t ht | scanMap t ht | reset t ht | lockSignal t ht
  | kill t _ _ _ ht | unlockSignal t _ ht | search t _ _ _ ht | leave t _ ht | release t _ ht
  | verify t _ ht | keep t _ _ _ ht | free t _ _ _ _ ht | randomize t _ ht | store t _ ht =>
    exact h.move rfl rfl (by simp [ht, phase])
  | _ => exact h

theorem run_owner (run : Run (system cfg) ok es s) : Owner s := by
  refine run.invariant (I := fun _ s => Owner s) ?_ fun _ _ _ _ run inv _ move => inv.step run move
  rintro s ⟨map, rfl⟩ t ht
  exact absurd rfl ht

omit [DecidableEq T] in
theorem bufAddrs_of_owner {r : T} (h : s.bufOwner = some r) : bufAddrs s = s.buffer r := by
  simp [bufAddrs, h]

/-- A mark made in a search is made in the list of the round. -/
theorem bufAddrs_storeBuf {r : T} (h : s.bufOwner = some r) {st : Option (ℤ × Word)}
    (hb : s'.buffer = storeBuf s st) (ho : s'.bufOwner = s.bufOwner) :
    bufAddrs s' = Search.store (bufAddrs s) st := by
  simp [bufAddrs, ho, h, hb, storeBuf]

/-- A mark is made in no other thread's buffer. -/
theorem storeBuf_other (run : Run (system cfg) ok es s) {v : T} {scan : Scan} (h : Scans s v scan)
    (st : Option (ℤ × Word)) {u : T} (hu : ¬ RollCall.Open (phase (s.main u))) :
    storeBuf s st u = s.buffer u := by
  obtain ⟨r, hr⟩ := scans_open run h
  have howner : s.bufOwner = some r := by
    refine run_owner run r hr.ne_away fun he => ?_
    rw [he] at hr
    exact hr
  simp only [storeBuf, howner]
  apply Function.update_of_ne
  rintro rfl
  exact hu hr

/-- While anybody searches, the list is neither replaced nor rearranged, and its count and
its scan map rest; searches may set marks. -/
theorem list_rests (run : Run (system cfg) ok es s) {u : T} {scan : Scan} (h : Scans s u scan)
    {e : Event T} (move : Step cfg s e s') :
    s'.bufOwner = s.bufOwner ∧ s'.nAddrs = s.nAddrs ∧ s'.bufScanMap = s.bufScanMap ∧
      s'.nScanMap = s.nScanMap ∧
      (bufAddrs s' = bufAddrs s ∨ ∃ v scan', Scans s v scan' ∧
        bufAddrs s' = Search.store (bufAddrs s) (searchNext cfg.debug (working s) scan').2) := by
  obtain ⟨r, hr⟩ := scans_open run h
  have howner : s.bufOwner = some r := by
    refine run_owner run r hr.ne_away fun he => ?_
    rw [he] at hr
    exact hr
  have hheld : ∀ t, phase (s.main t) ≠ .held := fun t => not_held_of_scans run h
  have haway : ∀ t (a : Mem), phase (s.main t) = .away →
      Function.update s.buffer t a r = s.buffer r := by
    intro t a ht
    apply Function.update_of_ne
    rintro rfl
    exact hr.ne_away ht
  cases move with
  | assign t _ _ ht | leftover t _ _ _ ht | popTail t _ _ _ _ ht | count t _ ht | sort t ht
  | scanMap t ht => exact absurd (by rw [ht]; rfl) (hheld t)
  | keep t _ _ _ ht | free t _ _ _ _ ht | randomize t _ ht =>
    refine ⟨rfl, rfl, rfl, rfl, .inl ?_⟩
    simp only [bufAddrs, howner]
    exact haway t _ (by rw [ht]; rfl)
  | search t c stage scan' ht =>
    exact ⟨rfl, rfl, rfl, rfl, .inr ⟨t, scan', .inl ⟨c, stage, ht⟩, bufAddrs_storeBuf howner rfl rfl⟩⟩
  | helperSearch v stage scan' hv =>
    exact ⟨rfl, rfl, rfl, rfl, .inr ⟨v, scan', .inr ⟨stage, hv⟩, bufAddrs_storeBuf howner rfl rfl⟩⟩
  | _ => exact ⟨rfl, rfl, rfl, rfl, .inl rfl⟩

/-- The shared counter stands for the searches of exactly the signalled threads. -/
theorem signal_handshake (cfg : Config) (es : List (Event T)) (s : State T)
    (run : Run (system cfg) anyEvent es s) :
    (∀ t s', Step cfg s (.leave t) s' → ∀ u ∈ signalled es, u ∈ completed es) ∧
    (∀ t s', Step cfg s (.release t) s' →
      ∀ u, s.pending u = 0 ∧ (s.handler u = none ∨ s.handler u = some .tail)) ∧
    (hasReset es = true → s.selfStacksSearched ≤ (signalled es).length) ∧
    (∀ u scan, Scans s u scan → ∀ e s', Step cfg s e s' →
      s'.bufOwner = s.bufOwner ∧ s'.nAddrs = s.nAddrs ∧ s'.bufScanMap = s.bufScanMap ∧
      s'.nScanMap = s.nScanMap ∧
      (bufAddrs s' = bufAddrs s ∨ ∃ v scan', Scans s v scan' ∧
        bufAddrs s' = Search.store (bufAddrs s) (searchNext cfg.debug (working s) scan').2)) := by
  have inv := run_roll run
  refine ⟨?_, ?_, inv.counter_le, fun u scan h e s' move => list_rests run h move⟩
  · intro t s' move u hu
    cases move with
    | leave _ c ht _ all =>
      exact inv.heard u hu (inv.all_answered (t := t) (congrArg phase ht) all u)
  · intro t s' move u
    cases move with
    | release _ n ht => exact quiet run (t := t) (by rw [ht]; rfl) u

end ThreadScan.Handshake
