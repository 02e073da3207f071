import ThreadScan.Handshake
import ThreadScan.Polling
import ThreadScan.Progress

/-! The protocol with the lock that `thread.c` makes of its timestamps: the calls of
`try_acquire` and `release`, and the flag of the signal handler, are runs of their own steps,
and both parts share the thread list and its lock. -/
namespace ThreadScan.Stamps
open Transition
open Reclaim (Config Stage)
open Timestamp (timestamp timestampRaiseFlag timestampIsActive stillHelping countUpdate stamp)
open Handshake (phase)

structure State (T : Type*) where
  lock : Timestamp.State T
  round : Reclaim.State T

/-- A step of one part, or of both at a time. -/
inductive Event (T : Type*)
  | lock (e : Timestamp.Event T)
  | round (e : Reclaim.Event T)
  | both (e : Timestamp.Event T) (e' : Reclaim.Event T)

variable {T : Type*} [DecidableEq T] {cfg : Config}

/-- A thread is inside `try_acquire`, after its first read, or inside `release`. -/
def Busy : Timestamp.Main T → Prop
  | .idle | .holding _ => False
  | _ => True

/-- The flag is raised, and is not being lowered. -/
def Raised (l : Timestamp.State T) (u : T) : Prop := l.helping u = true ∧ l.helper u = .idle

inductive Step (cfg : Config) : State T → Event T → State T → Prop
  | tryRead (s : State T) (t : T) (h : s.round.main t = .tryAcquire)
      (run : s.round.handler t = none) (idle : s.lock.main t = .idle)
      (free : timestampIsActive s.lock.globalTimestamp = false) :
      Step cfg s (.lock .other) { s with lock := { s.lock with
        main := Function.update s.lock.main t (.attempt s.lock.globalTimestamp) } }
  /-- `try_acquire` returns 0: the caller yields. -/
  | tryBusy (s : State T) (t : T) (h : s.round.main t = .tryAcquire)
      (run : s.round.handler t = none) (idle : s.lock.main t = .idle)
      (active : timestampIsActive s.lock.globalTimestamp = true) :
      Step cfg s (.round .other) { s with round := { s.round with
        main := Function.update s.round.main t .isFull } }
  | casWin (s : State T) (t : T) (run : s.round.handler t = none)
      (h : s.lock.main t = .attempt s.lock.globalTimestamp) :
      Step cfg s (.lock (.acquire t)) { s with lock := { s.lock with
        globalTimestamp := timestampRaiseFlag (s.lock.globalTimestamp + 1#64)
        main := Function.update s.lock.main t
          (.won (timestamp (timestampRaiseFlag (s.lock.globalTimestamp + 1#64)))) } }
  | casFail (s : State T) (t : T) (old : Word) (run : s.round.handler t = none)
      (h : s.lock.main t = .attempt old) (lost : s.lock.globalTimestamp ≠ old) :
      Step cfg s (.both .other .other) {
        lock := { s.lock with main := Function.update s.lock.main t .idle }
        round := { s.round with main := Function.update s.round.main t .isFull } }
  | pollStart (s : State T) (t : T) (curr : Word) (run : s.round.handler t = none)
      (h : s.lock.main t = .won curr) (free : s.lock.listLock = none)
      (free' : s.round.listLock = none) :
      Step cfg s (.lock .other) { s with lock := { s.lock with
        listLock := some t
        main := Function.update s.lock.main t (.polling curr s.lock.threadList) } }
  | pollNext (s : State T) (t td : T) (curr : Word) (rest : List T)
      (run : s.round.handler t = none) (h : s.lock.main t = .polling curr (td :: rest))
      (passed : stillHelping (s.lock.localTimestamp td) curr = false) :
      Step cfg s (.lock .other) { s with lock := { s.lock with
        main := Function.update s.lock.main t (.polling curr rest) } }
  /-- `try_acquire` returns 1: the caller begins its round. -/
  | pollEnd (s : State T) (t : T) (curr : Word) (run : s.round.handler t = none)
      (h : s.lock.main t = .polling curr []) :
      Step cfg s (.both .other .other) {
        lock := { s.lock with
          listLock := none
          main := Function.update s.lock.main t (.holding curr) }
        round := { s.round with
          lock := some t
          main := Function.update s.round.main t .assign } }
  | releaseRead (s : State T) (t : T) (curr : Word) (n : ℕ) (h : s.round.main t = .release n)
      (run : s.round.handler t = none) (holds : s.lock.main t = .holding curr) :
      Step cfg s (.lock .other) { s with lock := { s.lock with
        main := Function.update s.lock.main t (.releasing curr s.lock.globalTimestamp) } }
  | releaseWrite (s : State T) (t : T) (curr v : Word) (n : ℕ) (h : s.round.main t = .release n)
      (run : s.round.handler t = none) (writes : s.lock.main t = .releasing curr v) :
      Step cfg s (.both .other (.release t)) {
        lock := { s.lock with
          globalTimestamp := timestamp v
          main := Function.update s.lock.main t .idle }
        round := { s.round with
          lock := none
          main := Function.update s.round.main t (.verify n) } }
  | create (s : State T) (t : T) (h : s.round.life t = .unborn) (unborn : s.lock.helper t = .unborn)
      (free : s.lock.listLock = none) (free' : s.round.listLock = none) :
      Step cfg s (.both .other .other) {
        lock := { s.lock with
          threadList := t :: s.lock.threadList
          localTimestamp := Function.update s.lock.localTimestamp t 0#64
          helper := Function.update s.lock.helper t .born }
        round := { s.round with
          life := Function.update s.round.life t .born
          threadList := t :: s.round.threadList } }
  | remove (s : State T) (t : T) (h : s.round.life t = .exiting) (run : s.round.handler t = none)
      (free : s.lock.listLock = none) (free' : s.round.listLock = none) :
      Step cfg s (.both .other .other) {
        lock := { s.lock with threadList := s.lock.threadList.erase t }
        round := { s.round with
          life := Function.update s.round.life t .removed
          threadList := s.round.threadList.erase t } }
  /-- `threadscan_thread_base`, before it sets `is_active`. -/
  | threadBase (s : State T) (t : T) (h : s.round.life t = .born) (born : s.lock.helper t = .born) :
      Step cfg s (.lock .other) { s with lock := { s.lock with
        localTimestamp := Function.update s.lock.localTimestamp t 0#64
        helper := Function.update s.lock.helper t .idle } }
  /-- The handler raises the flag before it searches. -/
  | raiseRead (s : State T) (u : T) (words : List Word)
      (h : s.round.handler u = some (.search .stack (Search.searchRange cfg.debug words)))
      (lowered : s.lock.helping u = false) (idle : s.lock.helper u = .idle) :
      Step cfg s (.lock .other) { s with lock := { s.lock with
        helper := Function.update s.lock.helper u (.raise (s.lock.localTimestamp u)) } }
  | raisePublish (s : State T) (u : T) (old : Word) (h : s.lock.helper u = .raise old) :
      Step cfg s (.lock .other) { s with lock := { s.lock with
        localTimestamp := Function.update s.lock.localTimestamp u (timestampRaiseFlag old)
        helper := Function.update s.lock.helper u (.published old) } }
  | raiseGlobal (s : State T) (u : T) (old : Word) (h : s.lock.helper u = .published old) :
      Step cfg s (.lock .other) { s with lock := { s.lock with
        helper := Function.update s.lock.helper u (.read old s.lock.globalTimestamp) } }
  | raiseFinish (s : State T) (u : T) (old curr : Word) (h : s.lock.helper u = .read old curr) :
      Step cfg s (.lock .other) { s with lock := { s.lock with
        localTimestamp := Function.update s.lock.localTimestamp u (timestampRaiseFlag curr)
        timesWithoutUpdate := Function.update s.lock.timesWithoutUpdate u
          (countUpdate old curr (s.lock.timesWithoutUpdate u))
        helper := Function.update s.lock.helper u .idle
        helping := Function.update s.lock.helping u true } }
  | lowerRead (s : State T) (u : T) (h : s.round.handler u = some .tail) (raised : Raised s.lock u) :
      Step cfg s (.lock .other) { s with lock := { s.lock with
        helper := Function.update s.lock.helper u (.lower (s.lock.localTimestamp u)) } }
  /-- With the store of `lower_flag` the handler has done its work. -/
  | lowerWrite (s : State T) (u : T) (v : Word) (h : s.round.handler u = some .tail)
      (lowers : s.lock.helper u = .lower v) :
      Step cfg s (.both .other .other) {
        lock := { s.lock with
          localTimestamp := Function.update s.lock.localTimestamp u (timestamp v)
          helper := Function.update s.lock.helper u .idle
          helping := Function.update s.lock.helping u false }
        round := { s.round with handler := Function.update s.round.handler u none } }
  /-- Every other step of the protocol: one that neither takes nor gives up the lock, nor changes
  the thread list. Nobody takes it inside of a call, and a handler only with its flag up. -/
  | round (s : State T) (e : Reclaim.Event T) (r : Reclaim.State T)
      (move : Reclaim.Step cfg s.round e r) (lock : r.lock = s.round.lock)
      (list : r.threadList = s.round.threadList)
      (mutex : s.lock.listLock = none ∨ r.listLock = s.round.listLock)
      (outside : ∀ t, Busy (s.lock.main t) → r.main t = s.round.main t)
      (tries : ∀ t, s.round.main t = .tryAcquire → r.main t = .tryAcquire)
      (raised : ∀ u, s.round.handler u ≠ none → r.handler u = s.round.handler u ∨
        r.handler u ≠ none ∧ Raised s.lock u)
      (based : ∀ u, r.life u = .active → s.round.life u = .active ∨ s.lock.helper u = .idle) :
      Step cfg s (.round e) { s with round := r }

def initial (bufScanMap : Mem) : State T where
  lock := Timestamp.initial
  round := Reclaim.initial bufScanMap

def system (cfg : Config) : System (State T) (Event T) where
  init s := ∃ map, s = initial map
  step := Step cfg

def Event.lock? : Event T → Option (Timestamp.Event T)
  | .lock e | .both e _ => some e
  | .round _ => none

def Event.round? : Event T → Option (Reclaim.Event T)
  | .round e | .both _ e => some e
  | .lock _ => none

variable {es : List (Event T)} {s s' : State T} {e : Event T} {t u : T}

/-! ### The parts -/

/-- The part of `thread.c` takes a step of its own, or rests. -/
theorem lock_step (move : Step cfg s e s') :
    (Timestamp.system T).Takes s.lock e.lock? s'.lock := by
  cases move with
  | tryRead t h run idle free => exact .tryRead s.lock t idle free
  | casWin t run h => exact .casWin s.lock t h
  | casFail t old run h lost => exact .casFail s.lock t old h lost
  | pollStart t curr run h free => exact .pollStart s.lock t curr h free
  | pollNext t td curr rest run h passed => exact .pollNext s.lock t td curr rest h passed
  | pollEnd t curr run h => exact .pollEnd s.lock t curr h
  | releaseRead t curr n h run holds => exact .releaseRead s.lock t curr holds
  | releaseWrite t curr v n h run writes => exact .releaseWrite s.lock t curr v writes
  | create t h unborn free => exact .listAdd s.lock t unborn free
  | remove t h run free => exact .listRemove s.lock t free
  | threadBase t h born => exact .threadBase s.lock t born
  | raiseRead u words h lowered idle => exact .raiseRead s.lock u idle
  | raisePublish u old h => exact .raisePublish s.lock u old h
  | raiseGlobal u old h => exact .raiseGlobal s.lock u old h
  | raiseFinish u old curr h => exact .raiseFinish s.lock u old curr h
  | lowerRead u h raised => exact .lowerRead s.lock u raised.2
  | lowerWrite u v h lowers => exact .lowerWrite s.lock u v lowers
  | tryBusy | round => rfl

/-- The thread has won its compare-and-swap, and polls. -/
def Winning : Timestamp.Main T → Prop
  | .won _ | .polling _ _ => True
  | _ => False

/-- What a thread inside of a call knows. -/
def At (s : State T) (t : T) : Timestamp.Main T → Prop
  | .attempt _ => s.round.main t = .tryAcquire
  | .won curr => s.round.main t = .tryAcquire ∧ curr = timestamp s.lock.globalTimestamp
  | .polling curr rest => s.round.main t = .tryAcquire ∧ curr = timestamp s.lock.globalTimestamp ∧
      s.lock.listLock = some t ∧ ∀ u ∈ s.round.threadList, u ∈ rest ∨ s.round.handler u = none
  | .releasing _ v => stamp v = stamp s.lock.globalTimestamp
  | .idle | .holding _ => True

/-- How the stamp of a thread fits its handler, against the global stamp `g`. -/
def Fits (g : ℕ) (v : Timestamp.View) : Option Reclaim.Handler → Prop
  | none => v.helping = false ∧ timestampIsActive v.localTimestamp = false ∧
      (v.helper = .unborn ∨ v.helper = .born ∨ v.helper = .idle)
  | some .tail => v.helping = true ∧ timestampIsActive v.localTimestamp = true ∧
      (v.helper = .idle ∨ v.helper = .lower v.localTimestamp)
  | some _ =>
    (v.helping = false ∧ (∀ w, v.helper ≠ .lower w) ∧ ∀ old c, v.helper = .read old c → stamp c = g) ∨
    (v.helping = true ∧ v.helper = .idle ∧ timestampIsActive v.localTimestamp = true ∧
      stamp v.localTimestamp = g)

/-- The thread has the lock, and has not reset the counter of its round. -/
def Preparing (m : Reclaim.Main T) : Prop := phase m = .held ∧ ∀ n, m ≠ .release n

/-- The invariant. A handler that has counted itself lowers its flag before the poll of the next
round has passed its thread; so it still carries the stamp of the round before. -/
structure Joint (s : State T) : Prop where
  list : s.lock.threadList = s.round.threadList
  owner : ∀ t, s.round.lock = some t ↔ ∃ curr, Timestamp.Holds curr (s.lock.main t)
  position : ∀ t, At s t (s.lock.main t)
  fits : ∀ u, Fits (stamp s.lock.globalTimestamp) (Timestamp.view s.lock u) (s.round.handler u)
  fresh : (¬ ∃ t, Winning (s.lock.main t)) → ∀ u ∈ s.round.threadList,
    s.round.handler u = some .tail → stamp (s.lock.localTimestamp u) = stamp s.lock.globalTimestamp
  late : (∃ t, Winning (s.lock.main t)) → ∀ u ∈ s.round.threadList,
    s.round.handler u = some .tail →
      (stamp (s.lock.localTimestamp u) + 1) % 2 ^ 63 = stamp s.lock.globalTimestamp
  clear : ∀ t, Preparing (s.round.main t) → ∀ u ∈ s.round.threadList, s.round.handler u = none

omit [DecidableEq T] in
theorem Joint.at_of {m : Timestamp.Main T} (inv : Joint s) (h : s.lock.main t = m) : At s t m :=
  h ▸ inv.position t

omit [DecidableEq T] in
/-- A thread that polls finds the lock of the protocol free. -/
theorem Joint.free (inv : Joint s) (lock : Timestamp.LockInv s.lock)
    (h : Timestamp.Critical (s.lock.main t)) (away : ∀ curr, ¬ Timestamp.Holds curr (s.lock.main t)) :
    s.round.lock = none := by
  cases hl : s.round.lock with
  | none => rfl
  | some u =>
    obtain ⟨curr, hu⟩ := (inv.owner u).mp hl
    have hcritical : Timestamp.Critical (s.lock.main u) := by
      cases hm : s.lock.main u with
      | holding | releasing => trivial
      | idle | attempt | won | polling =>
        rw [hm] at hu
        exact hu.elim
    obtain rfl := lock.unique u t hcritical h
    exact absurd hu (away curr)

/-- The protocol takes a step of its own, with the lock as one step, or rests. -/
theorem round_step (inv : Joint s) (lock : Timestamp.LockInv s.lock) (move : Step cfg s e s') :
    (Reclaim.system cfg).Takes s.round e.round? s'.round := by
  cases move with
  | tryBusy t h run =>
    exact .goto s.round t .isFull run (by rw [h]; exact .yield)
  | casFail t old run h =>
    have htry : s.round.main t = .tryAcquire := inv.at_of h
    exact .goto s.round t .isFull run (by rw [htry]; exact .yield)
  | pollEnd t curr run h =>
    have hfree : s.round.lock = none := inv.free lock (t := t) (by rw [h]; trivial) (by simp [h, Timestamp.Holds])
    exact .acquire s.round t (inv.at_of h).1 run hfree
  | releaseWrite t curr v n h run => exact .release s.round t n h run
  | create t h unborn free free' => exact .create s.round t h free'
  | remove t h run free free' => exact .remove s.round t h run free'
  | lowerWrite u v h => exact .helperTail s.round u h
  | round e r move => exact move
  | _ => rfl

/-! ### What the protocol does between two rounds -/

variable {ok : List (Reclaim.Event T) → Reclaim.State T → Reclaim.Event T → Prop}
  {rs : List (Reclaim.Event T)} {r r' : Reclaim.State T} {a : Reclaim.Event T}

/-- While the lock is free no signal is on its way, and no handler searches. -/
theorem between (run : Run (Reclaim.system cfg) ok rs r) (free : r.lock = none) (u : T) :
    r.pending u = 0 ∧ (r.handler u = none ∨ r.handler u = some .tail) := by
  have hroll := Handshake.run_roll run
  have hout := hroll.closed (fun t ht => ?_) u
  · obtain ⟨hcalls, hidle⟩ := (RollCall.outstanding_eq_zero _ u).mp hout
    refine ⟨hcalls, ?_⟩
    change Handshake.helper (r.handler u) ≠ .working at hidle
    cases hh : r.handler u with
    | none => exact .inl rfl
    | some h =>
      rw [hh] at hidle
      cases h with
      | tail => exact .inr rfl
      | search | count => exact absurd rfl hidle
  · have hlock : r.lock = some t := (hroll.holder t).mp ht.ne_away
    rw [free] at hlock
    cases hlock

/-- What one step can do to a handler. -/
theorem handler_step (move : Reclaim.Step cfg r a r') (u : T) :
    r'.handler u = r.handler u ∨
    (r.handler u = none ∧ 0 < r.pending u ∧ ∃ stage scan, r'.handler u = some (.search stage scan)) ∨
    (∃ h, r.handler u = some h ∧ h ≠ .tail) ∨ (r.handler u = some .tail ∧ r'.handler u = none) := by
  cases move with
  | enterHandler v run signal =>
    by_cases hu : u = v
    · subst hu
      exact .inr (.inl ⟨run, signal, _, _, Function.update_self ..⟩)
    · exact .inl (Function.update_of_ne hu _ _)
  | helperSearch v stage scan h | helperNext v stage _ scan _ h | helperDone v stage scan h
  | helperCount v h =>
    by_cases hu : u = v
    · subst hu
      exact .inr (.inr (.inl ⟨_, h, by simp⟩))
    · exact .inl (Function.update_of_ne hu _ _)
  | helperTail v h =>
    by_cases hu : u = v
    · subst hu
      exact .inr (.inr (.inr ⟨h, Function.update_self ..⟩))
    · exact .inl (Function.update_of_ne hu _ _)
  | _ => exact .inl rfl

omit [DecidableEq T] in
theorem preparing_goto {m m' : Reclaim.Main T} (h : Reclaim.Goto cfg r t m m')
    (prep : Preparing m') : Preparing m := by
  obtain ⟨hheld, hrelease⟩ := prep
  cases h with
  | drained | popHead => exact ⟨rfl, by simp⟩
  | _ => simp [phase] at hheld

/-- A round begins with the lock. -/
theorem preparing_step (move : Reclaim.Step cfg r a r') (lock : r'.lock = r.lock)
    (prep : Preparing (r'.main t)) : Preparing (r.main t) := by
  have hmain : ∀ {v : T} {m : Reclaim.Main T}, Preparing (Function.update r.main v m t) →
      (Preparing m → Preparing (r.main v)) → Preparing (r.main t) := by
    intro v m h hm
    by_cases ht : t = v
    · subst ht
      rw [Function.update_self] at h
      exact hm h
    · rwa [Function.update_of_ne ht] at h
  cases move with
  | goto v m run h => exact hmain prep (preparing_goto h)
  | acquire v h run free =>
    rw [free] at lock
    cases lock
  | push v _ h | assign v _ _ h | exchange v h | leftover v _ _ _ h | lockQueues v _ h
  | popTail v _ _ _ _ h | unlockQueues v _ h | count v _ h | sort v h | scanMap v h | reset v h
  | lockSignal v h | kill v _ _ _ h | unlockSignal v _ h | search v _ _ _ h | leave v _ h
  | release v _ h | verify v _ h | keep v _ _ _ h | free v _ _ _ _ h | randomize v _ h
  | store v _ h =>
    refine hmain prep fun hm => ?_
    rw [h]
    revert hm
    simp [Preparing, phase]
  | _ => exact prep

/-! ### The invariant -/

omit [DecidableEq T] in
/-- What a thread knows inside of a call outlives the steps of the others. -/
theorem At.frame {m : Timestamp.Main T} (h : At s u m) (main : s'.round.main u = s.round.main u)
    (global : Timestamp.Critical m → s'.lock.globalTimestamp = s.lock.globalTimestamp)
    (list : Winning m → s.lock.listLock = some u →
      s'.lock.listLock = some u ∧ ∀ v ∈ s'.round.threadList,
        v ∈ s.round.threadList ∧ (s.round.handler v = none → s'.round.handler v = none)) :
    At s' u m := by
  cases m with
  | idle | holding => trivial
  | attempt => exact main.trans h
  | won curr =>
    obtain ⟨htry, hcurr⟩ := h
    exact ⟨main.trans htry, hcurr.trans (by rw [global trivial])⟩
  | polling curr rest =>
    obtain ⟨htry, hcurr, hlock, hpassed⟩ := h
    obtain ⟨hlock', hkept⟩ := list trivial hlock
    refine ⟨main.trans htry, hcurr.trans (by rw [global trivial]), hlock', fun v hv => ?_⟩
    obtain ⟨hmem, hnone⟩ := hkept v hv
    exact (hpassed v hmem).imp_right hnone
  | releasing curr v => exact Eq.trans h (by rw [global trivial])

/-- A step of the lock's code that is not on a flag: what is left to show is where its thread
gets, and whether it polls. -/
theorem Joint.call (inv : Joint s) {m : Timestamp.Main T} {l : Timestamp.State T}
    (main : l.main = Function.update s.lock.main t m)
    (global : l.globalTimestamp = s.lock.globalTimestamp)
    (list : l.threadList = s.lock.threadList) (view : Timestamp.view l = Timestamp.view s.lock)
    (mutex : ∀ u, u ≠ t → s.lock.listLock = some u → l.listLock = some u)
    (holds : ∀ curr, Timestamp.Holds curr m ↔ Timestamp.Holds curr (s.lock.main t))
    (winning : Winning m ↔ Winning (s.lock.main t))
    (own : At { s with lock := l } t m) : Joint { s with lock := l } := by
  have hwinning : (∃ u, Winning (l.main u)) ↔ ∃ u, Winning (s.lock.main u) := by
    refine exists_congr fun u => ?_
    rw [main]
    by_cases hu : u = t
    · subst hu
      rw [Function.update_self]
      exact winning
    · rw [Function.update_of_ne hu]
  have hlocal : ∀ u, l.localTimestamp u = s.lock.localTimestamp u := fun u =>
    congrArg Timestamp.View.localTimestamp (congrFun view u)
  refine ⟨list.trans inv.list, fun u => ?_, fun u => ?_, fun u => ?_, fun h u hu htail => ?_,
    fun h u hu htail => ?_, inv.clear⟩
  · refine (inv.owner u).trans (exists_congr fun curr => ?_)
    rw [main]
    by_cases hu : u = t
    · subst hu
      rw [Function.update_self]
      exact (holds curr).symm
    · rw [Function.update_of_ne hu]
  · rw [main]
    by_cases hu : u = t
    · subst hu
      rwa [Function.update_self]
    · rw [Function.update_of_ne hu]
      exact (inv.position u).frame rfl (fun _ => global)
        fun _ hl => ⟨mutex u hu hl, fun v hv => ⟨hv, id⟩⟩
  · rw [global, view]
    exact inv.fits u
  · rw [global, hlocal]
    exact inv.fresh (fun hw => h (hwinning.mpr hw)) u hu htail
  · rw [global, hlocal]
    exact inv.late (hwinning.mp h) u hu htail

/-- A step of a thread on its own stamp. -/
theorem Joint.flag (inv : Joint s) {l : Timestamp.State T} (main : l.main = s.lock.main)
    (global : l.globalTimestamp = s.lock.globalTimestamp)
    (list : l.threadList = s.lock.threadList) (mutex : l.listLock = s.lock.listLock)
    (others : ∀ v, v ≠ u → Timestamp.view l v = Timestamp.view s.lock v)
    (own : Fits (stamp s.lock.globalTimestamp) (Timestamp.view l u) (s.round.handler u))
    (rests : s.round.handler u = some .tail → l.localTimestamp u = s.lock.localTimestamp u) :
    Joint { s with lock := l } := by
  have hlocal : ∀ v, s.round.handler v = some .tail →
      l.localTimestamp v = s.lock.localTimestamp v := by
    intro v hv
    by_cases hu : v = u
    · subst hu
      exact rests hv
    · exact congrArg Timestamp.View.localTimestamp (others v hu)
  refine ⟨list.trans inv.list, fun v => ?_, fun v => ?_, fun v => ?_, fun h v hv htail => ?_,
    fun h v hv htail => ?_, inv.clear⟩
  · rw [main]
    exact inv.owner v
  · rw [main]
    exact (inv.position v).frame rfl (fun _ => global)
      fun _ hl => ⟨mutex.trans hl, fun w hw => ⟨hw, id⟩⟩
  · rw [global]
    by_cases hu : v = u
    · subst hu
      exact own
    · rw [others v hu]
      exact inv.fits v
  · rw [main] at h
    rw [global, hlocal v htail]
    exact inv.fresh h v hv htail
  · rw [main] at h
    rw [global, hlocal v htail]
    exact inv.late h v hv htail

omit [DecidableEq T] in
theorem Winning.critical {m : Timestamp.Main T} (h : Winning m) : Timestamp.Critical m := by
  cases m with
  | won | polling => trivial
  | _ => exact h.elim

omit [DecidableEq T] in
theorem holds_critical {curr : Word} {m : Timestamp.Main T} (h : Timestamp.Holds curr m) :
    Timestamp.Critical m := by
  cases m with
  | holding | releasing => trivial
  | _ => exact h.elim

omit [DecidableEq T] in
theorem Winning.not_holds {curr : Word} {m : Timestamp.Main T} (h : Winning m) :
    ¬ Timestamp.Holds curr m := by
  cases m with
  | won | polling => exact id
  | _ => exact h.elim

/-- A handler that searches with its flag up carries the current stamp. -/
theorem Fits.raised {g : ℕ} {v : Timestamp.View} {k : Reclaim.Handler} (fits : Fits g v (some k))
    (searches : k ≠ .tail) (helping : v.helping = true) :
    v.helper = .idle ∧ timestampIsActive v.localTimestamp = true ∧ stamp v.localTimestamp = g := by
  have hraised : ∀ {p : Prop}, (v.helping = false ∧ p) ∨ (v.helping = true ∧ v.helper = .idle ∧
      timestampIsActive v.localTimestamp = true ∧ stamp v.localTimestamp = g) →
        v.helper = .idle ∧ timestampIsActive v.localTimestamp = true ∧ stamp v.localTimestamp = g := by
    rintro p (⟨hdown, -⟩ | ⟨-, hfits⟩)
    · rw [helping] at hdown
      cases hdown
    · exact hfits
  cases k with
  | tail => exact absurd rfl searches
  | search | count => exact hraised fits

/-- A thread without a signal on its way to it stays out of its handler. -/
theorem none_kept (move : Reclaim.Step cfg r a r') (calls : r.pending u = 0)
    (h : r.handler u = none) : r'.handler u = none := by
  obtain hsame | ⟨-, hpos, -⟩ | ⟨k, hk, -⟩ | ⟨-, hnone⟩ := handler_step move u
  · exact hsame.trans h
  · omega
  · rw [h] at hk
    cases hk
  · exact hnone

/-- A step of the protocol that the lock does not notice. -/
theorem Joint.protocol (inv : Joint s) (lock : Timestamp.LockInv s.lock)
    (run : Run (Reclaim.system cfg) ok rs s.round)
    (move : Reclaim.Step cfg s.round a r) (same : r.lock = s.round.lock)
    (list : r.threadList = s.round.threadList)
    (outside : ∀ t, Busy (s.lock.main t) → r.main t = s.round.main t)
    (raised : ∀ u, s.round.handler u ≠ none → r.handler u = s.round.handler u ∨
      r.handler u ≠ none ∧ Raised s.lock u) : Joint { s with round := r } := by
  have hbetween : ∀ {t}, Winning (s.lock.main t) → ∀ u, s.round.pending u = 0 ∧
      (s.round.handler u = none ∨ s.round.handler u = some .tail) := fun hw =>
    between run (inv.free lock hw.critical fun _ => hw.not_holds)
  refine ⟨inv.list.trans list.symm, ?_, fun t => ?_, fun u => ?_, fun h u hu htail => ?_,
    fun h u hu htail => ?_, fun t ht u hu => ?_⟩
  · rw [same]
    exact inv.owner
  · by_cases hbusy : Busy (s.lock.main t)
    · refine (inv.position t).frame (outside t hbusy) (fun _ => rfl) fun hw hl =>
        ⟨hl, fun v hv => ⟨list ▸ hv, none_kept move (hbetween hw v).1⟩⟩
    · cases hm : s.lock.main t with
      | idle | holding => trivial
      | attempt | won | polling | releasing => exact absurd (by rw [hm]; trivial) hbusy
  · have hfits := inv.fits u
    by_cases hnone : s.round.handler u = none
    · rw [hnone] at hfits
      obtain ⟨hhelping, hactive, hhelper⟩ := hfits
      obtain hsame | ⟨-, -, stage, scan, hscan⟩ | ⟨k, hk, -⟩ | ⟨htail, -⟩ := handler_step move u
      · rw [hsame, hnone]
        exact ⟨hhelping, hactive, hhelper⟩
      · rw [hscan]
        refine .inl ⟨hhelping, fun w hw => ?_, fun old c hc => ?_⟩
        · simp [hw] at hhelper
        · simp [hc] at hhelper
      · rw [hnone] at hk
        cases hk
      · rw [hnone] at htail
        cases htail
    · obtain hsame | ⟨hsome, hhelping, hidle⟩ := raised u hnone
      · rwa [hsame]
      · obtain hsame | ⟨hno, -⟩ | ⟨k, hk, hkt⟩ | ⟨-, hno⟩ := handler_step move u
        · rwa [hsame]
        · exact absurd hno hnone
        · rw [hk] at hfits
          obtain ⟨hhelper, hactive, hstamp⟩ := hfits.raised hkt hhelping
          cases hr : r.handler u with
          | none => exact absurd hr hsome
          | some k' =>
            cases k' with
            | tail => exact ⟨hhelping, hactive, .inl hhelper⟩
            | search | count => exact .inr ⟨hhelping, hhelper, hactive, hstamp⟩
        · exact absurd hno hsome
  · obtain hsame | ⟨-, -, stage, scan, hscan⟩ | ⟨k, hk, hkt⟩ | ⟨-, hno⟩ := handler_step move u
    · exact inv.fresh h u (list ▸ hu) (hsame.symm.trans htail)
    · rw [hscan] at htail
      cases htail
    · have hsome : s.round.handler u ≠ none := by simp [hk]
      obtain hsame | ⟨-, hhelping, -⟩ := raised u hsome
      · rw [htail, hk] at hsame
        exact absurd (Option.some.inj hsame).symm hkt
      · have hfits := inv.fits u
        rw [hk] at hfits
        exact (hfits.raised hkt hhelping).2.2
    · rw [hno] at htail
      cases htail
  · obtain ⟨t, ht⟩ := h
    obtain ⟨hcalls, hnone | hwas⟩ := hbetween ht u
    · rw [none_kept move hcalls hnone] at htail
      cases htail
    · exact inv.late ⟨t, ht⟩ u (list ▸ hu) hwas
  · have hprep := preparing_step move same ht
    exact none_kept move (Handshake.quiet run hprep.1 u).1 (inv.clear t hprep u (list ▸ hu))

theorem stamp_next (w : Word) : stamp (timestampRaiseFlag (w + 1#64)) = (stamp w + 1) % 2 ^ 63 := by
  rw [Timestamp.stamp_raiseFlag, stamp, stamp, BitVec.toNat_add]
  simp only [BitVec.toNat_ofNat]
  omega

theorem update_eq {α : Type*} (f : T → α) (t : T) (m : α) (u : T) :
    (u = t ∧ Function.update f t m u = m) ∨ (u ≠ t ∧ Function.update f t m u = f u) := by
  by_cases hu : u = t
  · subst hu
    exact .inl ⟨rfl, Function.update_self ..⟩
  · exact .inr ⟨hu, Function.update_of_ne hu _ _⟩

/-- A thread that wins its compare-and-swap finds nobody inside of the lock. -/
theorem Joint.win (inv : Joint s) (lock : Timestamp.LockInv s.lock)
    (run : Run (Reclaim.system cfg) ok rs s.round) {l : Timestamp.State T}
    (h : s.lock.main t = .attempt s.lock.globalTimestamp)
    (global : l.globalTimestamp = timestampRaiseFlag (s.lock.globalTimestamp + 1#64))
    (main : l.main = Function.update s.lock.main t (.won (timestamp l.globalTimestamp)))
    (list : l.threadList = s.lock.threadList) (view : Timestamp.view l = Timestamp.view s.lock) :
    Joint { s with lock := l } := by
  have hvacant : ∀ u, ¬ Timestamp.Critical (s.lock.main u) := by
    intro u hu
    have hactive := lock.active u hu
    rw [lock.free t _ h] at hactive
    cases hactive
  have hfree : s.round.lock = none := by
    cases hl : s.round.lock with
    | none => rfl
    | some u =>
      obtain ⟨curr, hu⟩ := (inv.owner u).mp hl
      exact absurd (holds_critical hu) (hvacant u)
  have hfresh := inv.fresh fun ⟨u, hu⟩ => hvacant u hu.critical
  have hlocal : ∀ u, l.localTimestamp u = s.lock.localTimestamp u := fun u =>
    congrArg Timestamp.View.localTimestamp (congrFun view u)
  refine ⟨list.trans inv.list, fun u => ?_, fun u => ?_, fun u => ?_, fun hw => ?_,
    fun _ u hu htail => ?_, inv.clear⟩
  · rw [hfree, main]
    constructor
    · intro hu
      cases hu
    · rintro ⟨curr, hu⟩
      obtain ⟨-, hm⟩ | ⟨-, hm⟩ := update_eq s.lock.main t (.won (timestamp l.globalTimestamp)) u
      · rw [hm] at hu
        exact hu.elim
      · rw [hm] at hu
        exact absurd (holds_critical hu) (hvacant u)
  · rw [main]
    obtain ⟨rfl, hm⟩ | ⟨-, hm⟩ := update_eq s.lock.main t (.won (timestamp l.globalTimestamp)) u
    · rw [hm]
      exact ⟨inv.at_of h, rfl⟩
    · rw [hm]
      exact (inv.position u).frame rfl (fun hc => absurd hc (hvacant u))
        fun hw => absurd hw.critical (hvacant u)
  · rw [view]
    have hfits := inv.fits u
    obtain ⟨-, hnone | htail⟩ := between run hfree u
    · rw [hnone] at hfits ⊢
      exact hfits
    · rw [htail] at hfits ⊢
      exact hfits
  · refine absurd ⟨t, ?_⟩ hw
    rw [main, Function.update_self]
    trivial
  · rw [hlocal, global, stamp_next, hfresh u hu htail]

/-- At the end of the poll no listed thread is in its handler. -/
theorem Joint.begin (inv : Joint s) (lock : Timestamp.LockInv s.lock) {curr : Word}
    (h : s.lock.main t = .polling curr [])
    (main : s'.lock.main = Function.update s.lock.main t (.holding curr))
    (global : s'.lock.globalTimestamp = s.lock.globalTimestamp)
    (list : s'.lock.threadList = s.lock.threadList)
    (view : Timestamp.view s'.lock = Timestamp.view s.lock) (taken : s'.round.lock = some t)
    (goes : s'.round.main = Function.update s.round.main t .assign)
    (list' : s'.round.threadList = s.round.threadList)
    (handler : s'.round.handler = s.round.handler) : Joint s' := by
  have hcritical : Timestamp.Critical (s.lock.main t) := by
    rw [h]
    trivial
  have hothers : ∀ u, u ≠ t → ¬ Timestamp.Critical (s.lock.main u) := fun u hu hc =>
    hu (lock.unique u t hc hcritical)
  obtain ⟨-, -, -, hpassed⟩ := inv.at_of h
  have hnone : ∀ u ∈ s'.round.threadList, s'.round.handler u = none := fun u hu => by
    rw [list'] at hu
    rw [handler]
    exact (hpassed u hu).resolve_left List.not_mem_nil
  refine ⟨list.trans (inv.list.trans list'.symm), fun u => ?_, fun u => ?_, fun u => ?_,
    fun _ u hu htail => ?_, fun _ u hu htail => ?_, fun _ _ => hnone⟩
  · rw [taken, main]
    obtain ⟨rfl, hm⟩ | ⟨hut, hm⟩ := update_eq s.lock.main t (.holding curr) u
    · rw [hm]
      exact ⟨fun _ => ⟨curr, rfl⟩, fun _ => rfl⟩
    · rw [hm]
      constructor
      · intro hu
        exact absurd (Option.some.inj hu).symm hut
      · rintro ⟨c, hu⟩
        exact absurd (holds_critical hu) (hothers u hut)
  · rw [main]
    obtain ⟨-, hm⟩ | ⟨hut, hm⟩ := update_eq s.lock.main t (.holding curr) u
    · rw [hm]
      trivial
    · rw [hm]
      refine (inv.position u).frame ?_ (fun _ => global)
        fun hw => absurd hw.critical (hothers u hut)
      rw [goes, Function.update_of_ne hut]
  · rw [global, view, handler]
    exact inv.fits u
  · rw [hnone u hu] at htail
    cases htail
  · rw [hnone u hu] at htail
    cases htail

theorem Joint.finish (inv : Joint s) (lock : Timestamp.LockInv s.lock) {curr v : Word} {n : ℕ}
    (h : s.lock.main t = .releasing curr v)
    (main : s'.lock.main = Function.update s.lock.main t .idle)
    (global : s'.lock.globalTimestamp = timestamp v)
    (list : s'.lock.threadList = s.lock.threadList)
    (view : Timestamp.view s'.lock = Timestamp.view s.lock) (given : s'.round.lock = none)
    (goes : s'.round.main = Function.update s.round.main t (.verify n))
    (list' : s'.round.threadList = s.round.threadList)
    (handler : s'.round.handler = s.round.handler) : Joint s' := by
  have hcritical : Timestamp.Critical (s.lock.main t) := by
    rw [h]
    trivial
  have hothers : ∀ u, u ≠ t → ¬ Timestamp.Critical (s.lock.main u) := fun u hu hc =>
    hu (lock.unique u t hc hcritical)
  have hstamp : stamp s'.lock.globalTimestamp = stamp s.lock.globalTimestamp := by
    rw [global]
    exact (Timestamp.stamp_timestamp v).trans (inv.at_of h)
  have hcalm : ¬ ∃ u, Winning (s.lock.main u) := by
    rintro ⟨u, hu⟩
    obtain rfl := lock.unique u t hu.critical hcritical
    rw [h] at hu
    exact hu
  have hlocal : ∀ u, s'.lock.localTimestamp u = s.lock.localTimestamp u := fun u =>
    congrArg Timestamp.View.localTimestamp (congrFun view u)
  refine ⟨list.trans (inv.list.trans list'.symm), fun u => ?_, fun u => ?_, fun u => ?_,
    fun _ u hu htail => ?_, fun hw => ?_, fun u hu => ?_⟩
  · rw [given, main]
    constructor
    · intro hu
      cases hu
    · rintro ⟨c, hu⟩
      obtain ⟨-, hm⟩ | ⟨hut, hm⟩ := update_eq s.lock.main t .idle u
      · rw [hm] at hu
        exact hu.elim
      · rw [hm] at hu
        exact absurd (holds_critical hu) (hothers u hut)
  · rw [main]
    obtain ⟨-, hm⟩ | ⟨hut, hm⟩ := update_eq s.lock.main t .idle u
    · rw [hm]
      trivial
    · rw [hm]
      refine (inv.position u).frame ?_ (fun hc => absurd hc (hothers u hut))
        fun hw => absurd hw.critical (hothers u hut)
      rw [goes, Function.update_of_ne hut]
  · rw [hstamp, view, handler]
    exact inv.fits u
  · rw [list'] at hu
    rw [handler] at htail
    rw [hstamp, hlocal]
    exact inv.fresh hcalm u hu htail
  · obtain ⟨u, hu⟩ := hw
    rw [main] at hu
    obtain ⟨-, hm⟩ | ⟨hut, hm⟩ := update_eq s.lock.main t .idle u
    · rw [hm] at hu
      exact hu.elim
    · rw [hm] at hu
      exact absurd hu.critical (hothers u hut)
  · rw [list', handler]
    refine inv.clear u ?_
    rw [goes] at hu
    obtain ⟨-, hm⟩ | ⟨-, hm⟩ := update_eq s.round.main t (.verify n) u
    · rw [hm] at hu
      exact absurd hu.1 (by simp [phase])
    · rwa [hm] at hu

/-- A thread whose stamp has not been reset for it has never raised its flag. -/
theorem Fits.newborn {g : ℕ} {v : Timestamp.View} {h : Option Reclaim.Handler} (fits : Fits g v h)
    (new : v.helper = .unborn ∨ v.helper = .born) : h ≠ some .tail ∧ v.helping = false := by
  cases h with
  | none => exact ⟨by simp, fits.1⟩
  | some k =>
    have hdown : k ≠ .tail → v.helping = false := by
      intro hk
      by_contra hup
      have hidle := (fits.raised hk (by simpa using hup)).1
      simp [hidle] at new
    cases k with
    | search | count => exact ⟨by simp, hdown (by simp)⟩
    | tail =>
      obtain ⟨-, -, hidle | hlower⟩ := fits
      · simp [hidle] at new
      · simp [hlower] at new

/-- The flag is raised by a handler that has yet to search. -/
theorem Fits.raising {g : ℕ} {v : Timestamp.View} {h : Option Reclaim.Handler} (fits : Fits g v h)
    (busy : v.helper ≠ .unborn ∧ v.helper ≠ .born ∧ v.helper ≠ .idle)
    (up : ∀ w, v.helper ≠ .lower w) :
    ∃ k, h = some k ∧ k ≠ .tail ∧ v.helping = false ∧
      ∀ old c, v.helper = .read old c → stamp c = g := by
  obtain ⟨hunborn, hborn, hidle⟩ := busy
  cases h with
  | none =>
    obtain ⟨-, -, h | h | h⟩ := fits
    · exact absurd h hunborn
    · exact absurd h hborn
    · exact absurd h hidle
  | some k =>
    cases k with
    | search | count =>
      obtain ⟨hdown, -, hread⟩ | ⟨-, h, -⟩ := fits
      · exact ⟨_, rfl, by simp, hdown, hread⟩
      · exact absurd h hidle
    | tail =>
      obtain ⟨-, -, h | h⟩ := fits
      · exact absurd h hidle
      · exact absurd h (up _)

theorem Fits.searching {g : ℕ} {v : Timestamp.View} {k : Reclaim.Handler} (searches : k ≠ .tail)
    (h : (v.helping = false ∧ (∀ w, v.helper ≠ .lower w) ∧
        ∀ old c, v.helper = .read old c → stamp c = g) ∨
      (v.helping = true ∧ v.helper = .idle ∧ timestampIsActive v.localTimestamp = true ∧
        stamp v.localTimestamp = g)) : Fits g v (some k) := by
  cases k with
  | tail => exact absurd rfl searches
  | search | count => exact h

/-- Its stamp may be reset. -/
theorem Fits.reset {g : ℕ} {v : Timestamp.View} {h : Option Reclaim.Handler} (fits : Fits g v h)
    (new : v.helper = .unborn ∨ v.helper = .born) {m : Timestamp.Helper}
    (next : m = .born ∨ m = .idle) : Fits g ⟨0#64, m, v.helping⟩ h := by
  obtain ⟨hawake, hdown⟩ := fits.newborn new
  cases h with
  | none => exact ⟨hdown, by simp [timestampIsActive], .inr next⟩
  | some k =>
    refine .searching (fun hk => hawake (by rw [hk])) (.inl ⟨hdown, fun w hw => ?_, fun old c hc => ?_⟩)
    · simp [show m = .lower w from hw] at next
    · simp [show m = .read old c from hc] at next

/-- A record is added to the list that both parts walk. -/
theorem Joint.join (inv : Joint s) (run : Run (Reclaim.system cfg) ok rs s.round)
    (unborn : s.lock.helper t = .unborn) (free : s.lock.listLock = none) :
    Joint {
      lock := { s.lock with
        threadList := t :: s.lock.threadList
        localTimestamp := Function.update s.lock.localTimestamp t 0#64
        helper := Function.update s.lock.helper t .born }
      round := { s.round with
        life := Function.update s.round.life t .born
        threadList := t :: s.round.threadList } } := by
  have hawake : s.round.handler t ≠ some .tail := ((inv.fits t).newborn (.inl unborn)).1
  have hlocal : ∀ u, s.round.handler u = some .tail →
      Function.update s.lock.localTimestamp t 0#64 u = s.lock.localTimestamp u := by
    intro u hu
    refine Function.update_of_ne ?_ _ _
    rintro rfl
    exact hawake hu
  have hlisted : ∀ u, s.round.handler u = some .tail → u ∈ t :: s.round.threadList →
      u ∈ s.round.threadList := by
    intro u hu hmem
    obtain rfl | hmem := List.mem_cons.mp hmem
    · exact absurd hu hawake
    · exact hmem
  refine ⟨congrArg (t :: ·) inv.list, inv.owner, fun u => ?_, fun u => ?_, fun h u hu htail => ?_,
    fun h u hu htail => ?_, fun v hv u hu => ?_⟩
  · refine (inv.position u).frame rfl (fun _ => rfl) fun _ hl => ?_
    rw [free] at hl
    cases hl
  · by_cases hut : u = t
    · subst hut
      have hfits := (inv.fits u).reset (.inl unborn) (.inl rfl)
      simp only [Timestamp.view, Function.update_self]
      exact hfits
    · simp only [Timestamp.view, Function.update_of_ne hut]
      exact inv.fits u
  · exact (congrArg stamp (hlocal u htail)).trans (inv.fresh h u (hlisted u htail hu) htail)
  · have hstamp := inv.late h u (hlisted u htail hu) htail
    rwa [← hlocal u htail] at hstamp
  · obtain rfl | hu := List.mem_cons.mp hu
    · exact (Handshake.quiet run hv.1 u).2.resolve_right hawake
    · exact inv.clear v hv u hu

/-- A record is taken off it. -/
theorem Joint.part (inv : Joint s) (free : s.lock.listLock = none) :
    Joint {
      lock := { s.lock with threadList := s.lock.threadList.erase t }
      round := { s.round with
        life := Function.update s.round.life t .removed
        threadList := s.round.threadList.erase t } } := by
  refine ⟨congrArg (·.erase t) inv.list, inv.owner, fun u => ?_, inv.fits,
    fun h u hu => inv.fresh h u (List.mem_of_mem_erase hu),
    fun h u hu => inv.late h u (List.mem_of_mem_erase hu),
    fun v hv u hu => inv.clear v hv u (List.mem_of_mem_erase hu)⟩
  refine (inv.position u).frame rfl (fun _ => rfl) fun _ hl => ?_
  rw [free] at hl
  cases hl

/-- A handler that has lowered its flag returns. -/
theorem Joint.lower (inv : Joint s) {v : Word} :
    Joint {
      lock := { s.lock with
        localTimestamp := Function.update s.lock.localTimestamp u (timestamp v)
        helper := Function.update s.lock.helper u .idle
        helping := Function.update s.lock.helping u false }
      round := { s.round with handler := Function.update s.round.handler u none } } := by
  have hnone : ∀ w, s.round.handler w = none → Function.update s.round.handler u none w = none := by
    intro w hw
    obtain ⟨-, hm⟩ | ⟨-, hm⟩ := update_eq s.round.handler u none w
    · exact hm
    · exact hm.trans hw
  have hother : ∀ w, Function.update s.round.handler u none w = some .tail →
      s.round.handler w = some .tail ∧
        Function.update s.lock.localTimestamp u (timestamp v) w = s.lock.localTimestamp w := by
    intro w hw
    obtain ⟨-, hm⟩ | ⟨hwu, hm⟩ := update_eq s.round.handler u none w
    · rw [hm] at hw
      cases hw
    · exact ⟨hm.symm.trans hw, Function.update_of_ne hwu _ _⟩
  refine ⟨inv.list, inv.owner, fun t => ?_, fun w => ?_, fun h w hw htail => ?_,
    fun h w hw htail => ?_, fun t ht w hw => hnone w (inv.clear t ht w hw)⟩
  · exact (inv.position t).frame rfl (fun _ => rfl) fun _ hl => ⟨hl, fun w hw => ⟨hw, hnone w⟩⟩
  · obtain ⟨rfl, hm⟩ | ⟨hwu, hm⟩ := update_eq s.round.handler u none w
    · simp only [Timestamp.view, Function.update_self]
      exact ⟨rfl, Polling.timestampIsActive_timestamp v, .inr (.inr rfl)⟩
    · simp only [Timestamp.view, Function.update_of_ne hwu]
      exact inv.fits w
  · obtain ⟨hwas, hsame⟩ := hother w htail
    exact (congrArg stamp hsame).trans (inv.fresh h w hw hwas)
  · obtain ⟨hwas, hsame⟩ := hother w htail
    have hstamp := inv.late h w hw hwas
    rwa [← hsame] at hstamp

/-- A thread that the poll passes is not in its handler: it would carry another stamp. -/
theorem Joint.passed (inv : Joint s) (lock : Timestamp.LockInv s.lock)
    (run : Run (Reclaim.system cfg) ok rs s.round) {td : T} {curr : Word} {rest : List T}
    (h : s.lock.main t = .polling curr rest)
    (passed : stillHelping (s.lock.localTimestamp td) curr = false)
    (listed : td ∈ s.round.threadList) : s.round.handler td = none := by
  have hwinning : Winning (s.lock.main t) := by
    rw [h]
    trivial
  obtain ⟨-, hnone | htail⟩ :=
    between run (inv.free lock hwinning.critical fun _ => hwinning.not_holds) td
  · exact hnone
  · have hfits := inv.fits td
    rw [htail] at hfits
    obtain ⟨-, hactive, -⟩ := hfits
    have hlate := inv.late ⟨t, hwinning⟩ td listed htail
    obtain ⟨-, hcurr, -⟩ := inv.at_of h
    have hsame : timestamp (s.lock.localTimestamp td) = curr := by
      simpa [stillHelping, show timestampIsActive (s.lock.localTimestamp td) = true from hactive]
        using passed
    have hstamp : stamp (s.lock.localTimestamp td) = stamp s.lock.globalTimestamp := by
      rw [← Timestamp.stamp_timestamp, hsame, hcurr, Timestamp.stamp_timestamp]
    unfold stamp at hlate hstamp
    omega

theorem Joint.step (inv : Joint s) (lock : Timestamp.LockInv s.lock)
    (run : Run (Reclaim.system cfg) ok rs s.round) (move : Step cfg s e s') :
    Joint s' := by
  cases move with
  | tryRead t h hrun idle free =>
    exact inv.call rfl rfl rfl rfl (fun _ _ => id) (by simp [idle, Timestamp.Holds])
      (by simp [idle, Winning]) h
  | tryBusy t h hrun idle active =>
    have move : Reclaim.Step cfg s.round .other _ :=
      .goto s.round t .isFull hrun (by rw [h]; exact .yield)
    refine inv.protocol lock run move rfl rfl (fun u hu => Function.update_of_ne ?_ _ _)
      fun _ _ => .inl rfl
    rintro rfl
    rw [idle] at hu
    exact hu
  | casWin t hrun h => exact inv.win lock run h rfl rfl rfl rfl
  | casFail t old hrun h lost =>
    have htry : s.round.main t = .tryAcquire := inv.at_of h
    have hback : Joint { s with lock := { s.lock with
        main := Function.update s.lock.main t .idle } } :=
      inv.call rfl rfl rfl rfl (fun _ _ => id) (by simp [h, Timestamp.Holds])
        (by simp [h, Winning]) trivial
    have hfree : Timestamp.LockInv { s.lock with main := Function.update s.lock.main t .idle } :=
      lock.step (.casFail s.lock t old h lost)
    have move : Reclaim.Step cfg s.round .other _ :=
      .goto s.round t .isFull hrun (by rw [htry]; exact .yield)
    refine hback.protocol hfree run move rfl rfl (fun u hu => Function.update_of_ne ?_ _ _)
      fun _ _ => .inl rfl
    rintro rfl
    simp [Busy] at hu
  | pollStart t curr hrun h free free' =>
    obtain ⟨htry, hcurr⟩ := inv.at_of h
    refine inv.call rfl rfl rfl rfl (fun u _ hl => ?_) (by simp [h, Timestamp.Holds])
      (by simp [h, Winning]) ⟨htry, hcurr, rfl, fun u hu => .inl (inv.list ▸ hu)⟩
    rw [free] at hl
    cases hl
  | pollNext t td curr rest hrun h passed =>
    obtain ⟨htry, hcurr, hlock, hpassed⟩ := inv.at_of h
    refine inv.call rfl rfl rfl rfl (fun _ _ => id) (by simp [h, Timestamp.Holds])
      (by simp [h, Winning]) ⟨htry, hcurr, hlock, fun u hu => ?_⟩
    obtain hrest | hnone := hpassed u hu
    · obtain rfl | hrest := List.mem_cons.mp hrest
      · exact .inr (inv.passed lock run h passed hu)
      · exact .inl hrest
    · exact .inr hnone
  | pollEnd t curr hrun h => exact inv.begin lock h rfl rfl rfl rfl rfl rfl rfl rfl
  | releaseRead t curr n h hrun holds =>
    exact inv.call rfl rfl rfl rfl (fun _ _ => id) (by simp [holds, Timestamp.Holds])
      (by simp [holds, Winning]) rfl
  | releaseWrite t curr v n h hrun writes =>
    exact inv.finish lock writes rfl rfl rfl rfl rfl rfl rfl rfl
  | create t h unborn free => exact inv.join run unborn free
  | remove t h hrun free => exact inv.part free
  | threadBase t h born =>
    have hfits := (inv.fits t).reset (.inr born) (.inr rfl)
    refine inv.flag (u := t) rfl rfl rfl rfl (fun v hv => ?_) ?_ fun htail => ?_
    · simp only [Timestamp.view, Function.update_of_ne hv]
    · simp only [Timestamp.view, Function.update_self]
      exact hfits
    · exact absurd htail ((inv.fits t).newborn (.inr born)).1
  | raiseRead u words h lowered idle =>
    refine inv.flag (u := u) rfl rfl rfl rfl (fun v hv => ?_) ?_ fun _ => rfl
    · simp only [Timestamp.view, Function.update_of_ne hv]
    · rw [h]
      exact .inl ⟨lowered, by simp [Timestamp.view], by simp [Timestamp.view]⟩
  | raisePublish u old h =>
    obtain ⟨k, hk, hkt, hdown, -⟩ := (inv.fits u).raising (by simp [Timestamp.view, h])
      (by simp [Timestamp.view, h])
    refine inv.flag (u := u) rfl rfl rfl rfl (fun v hv => ?_) ?_ fun htail => ?_
    · simp only [Timestamp.view, Function.update_of_ne hv]
    · rw [hk]
      exact .searching hkt (.inl ⟨hdown, by simp [Timestamp.view], by simp [Timestamp.view]⟩)
    · exact absurd (Option.some.inj (hk.symm.trans htail)) hkt
  | raiseGlobal u old h =>
    obtain ⟨k, hk, hkt, hdown, -⟩ := (inv.fits u).raising (by simp [Timestamp.view, h])
      (by simp [Timestamp.view, h])
    refine inv.flag (u := u) rfl rfl rfl rfl (fun v hv => ?_) ?_ fun _ => rfl
    · simp only [Timestamp.view, Function.update_of_ne hv]
    · rw [hk]
      exact .searching hkt (.inl ⟨hdown, by simp [Timestamp.view], by simp [Timestamp.view]⟩)
  | raiseFinish u old curr h =>
    obtain ⟨k, hk, hkt, -, hread⟩ := (inv.fits u).raising (by simp [Timestamp.view, h])
      (by simp [Timestamp.view, h])
    refine inv.flag (u := u) rfl rfl rfl rfl (fun v hv => ?_) ?_ fun htail => ?_
    · simp only [Timestamp.view, Function.update_of_ne hv]
    · rw [hk]
      simp only [Timestamp.view, Function.update_self]
      exact .searching hkt (.inr ⟨rfl, rfl, Timestamp.timestampIsActive_raiseFlag curr,
        (Timestamp.stamp_raiseFlag curr).trans (hread old curr h)⟩)
    · exact absurd (Option.some.inj (hk.symm.trans htail)) hkt
  | lowerRead u h raised =>
    have hfits := inv.fits u
    rw [h] at hfits
    obtain ⟨hup, hactive, -⟩ := hfits
    refine inv.flag (u := u) rfl rfl rfl rfl (fun v hv => ?_) ?_ fun _ => rfl
    · simp only [Timestamp.view, Function.update_of_ne hv]
    · rw [h]
      exact ⟨hup, hactive, .inr (Function.update_self ..)⟩
  | lowerWrite u v h lowers => exact inv.lower
  | round a r move same list mutex outside tries raised =>
    exact inv.protocol lock run move same list outside raised

omit [DecidableEq T] in
theorem joint_initial (map : Mem) : Joint (initial (T := T) map) where
  list := rfl
  owner t := by simp [initial, Reclaim.initial, Timestamp.initial, Timestamp.Holds]
  position _ := trivial
  fits _ := ⟨rfl, by simp [initial, Timestamp.view, Timestamp.initial, timestampIsActive], .inl rfl⟩
  fresh _ u hu := by cases hu
  late _ u hu := by cases hu
  clear _ _ u hu := by cases hu

theorem run_joint {ok : List (Event T) → State T → Event T → Prop}
    (run : Run (system cfg) ok es s) :
    Run (Reclaim.system cfg) anyEvent (es.filterMap Event.round?) s.round ∧
    Run (Timestamp.system T) anyEvent (es.filterMap Event.lock?) s.lock ∧ Joint s := by
  refine run.invariant (I := fun es s =>
    Run (Reclaim.system cfg) anyEvent (es.filterMap Event.round?) s.round ∧
    Run (Timestamp.system T) anyEvent (es.filterMap Event.lock?) s.lock ∧ Joint s) ?_ ?_
  · rintro s ⟨map, rfl⟩
    exact ⟨.init ⟨map, rfl⟩, .init rfl, joint_initial map⟩
  · rintro es s e s' - ⟨hround, hlock, inv⟩ - move
    have hinv := Timestamp.run_lockInv hlock
    exact ⟨hround.part (round_step inv hinv move), hlock.part (lock_step move),
      inv.step hinv hround move⟩

/-- With its lock made of timestamps the protocol does nothing that it does not do with a lock
taken and given up in one step. Whoever has the lock finds, until it resets the counter of its
round, that every listed thread has lowered its flag and left its handler, however many rounds
there have been. -/
theorem stamps_refine (cfg : Config) (es : List (Event T)) (s : State T)
    (run : Run (system cfg) anyEvent es s) :
    Run (Reclaim.system cfg) anyEvent (es.filterMap Event.round?) s.round ∧
    Run (Timestamp.system T) anyEvent (es.filterMap Event.lock?) s.lock ∧
    (∀ t, s.round.lock = some t ↔ ∃ curr, Timestamp.Holds curr (s.lock.main t)) ∧
    ∀ t, Preparing (s.round.main t) → ∀ u ∈ s.round.threadList, s.round.handler u = none ∧
      timestampIsActive (s.lock.localTimestamp u) = false := by
  obtain ⟨hround, hlock, inv⟩ := run_joint run
  refine ⟨hround, hlock, inv.owner, fun t ht u hu => ?_⟩
  have hnone := inv.clear t ht u hu
  have hfits := inv.fits u
  rw [hnone] at hfits
  exact ⟨hnone, hfits.2.1⟩

/-! ### A helper of an earlier round -/

/-- A run has come to a state in which nobody is inside of a call. -/
structure Quiet (cfg : Config) (s : State T) : Prop where
  run : ∃ es, Run (system cfg) anyEvent es s
  outside : ∀ t, ¬ Busy (s.lock.main t) ∧ s.round.main t ≠ .tryAcquire
  free : s.lock.listLock = none

theorem quiet_of_others (run : Run (system cfg) anyEvent es s') {l : Timestamp.Main T}
    {m : Reclaim.Main T} (lock : s'.lock.main = Function.update s.lock.main t l)
    (main : s'.round.main = Function.update s.round.main t m) (own : ¬ Busy l ∧ m ≠ .tryAcquire)
    (others : ∀ u, u ≠ t → ¬ Busy (s.lock.main u) ∧ s.round.main u ≠ .tryAcquire)
    (free : s'.lock.listLock = none) : Quiet cfg s' := by
  refine ⟨⟨es, run⟩, fun u => ?_, free⟩
  rw [lock, main]
  by_cases hu : u = t
  · subst hu
    simpa only [Function.update_self] using own
  · simpa only [Function.update_of_ne hu] using others u hu

/-- A step that calls nothing. -/
theorem Quiet.step (quiet : Quiet cfg s) (move : Step cfg s e s')
    (lock : s'.lock.main = s.lock.main) (main : s'.round.main = s.round.main)
    (free : s'.lock.listLock = s.lock.listLock) : Quiet cfg s' := by
  obtain ⟨es, run⟩ := quiet.run
  exact ⟨⟨_, run.step trivial move⟩, fun t => lock ▸ main ▸ quiet.outside t, free.trans quiet.free⟩

/-- A step of the protocol with the lock, the thread list, the handlers and the lives as before. -/
theorem Quiet.round (quiet : Quiet cfg s) {a : Reclaim.Event T} {r : Reclaim.State T}
    (move : Reclaim.Step cfg s.round a r) (same : (r.lock, r.threadList, r.handler, r.life) =
      (s.round.lock, s.round.threadList, s.round.handler, s.round.life)) :
    Step cfg s (.round a) { s with round := r } := by
  obtain ⟨hlock, hlist, hhandler, hlife⟩ : r.lock = s.round.lock ∧ r.threadList = s.round.threadList ∧
      r.handler = s.round.handler ∧ r.life = s.round.life := by
    simpa only [Prod.mk.injEq] using same
  exact .round s a r move hlock hlist (.inl quiet.free) (fun u hu => ((quiet.outside u).1 hu).elim)
    (fun u hu => ((quiet.outside u).2 hu).elim) (fun u _ => .inl (congrFun hhandler u))
    fun u hu => .inl (congrFun hlife u ▸ hu)

/-- A thread goes on with the protocol. -/
theorem Quiet.goes (quiet : Quiet cfg s) {m : Reclaim.Main T} {a : Reclaim.Event T}
    {r : Reclaim.State T} (move : Reclaim.Step cfg s.round a r)
    (same : (r.lock, r.threadList, r.handler, r.life) =
      (s.round.lock, s.round.threadList, s.round.handler, s.round.life))
    (main : r.main = Function.update s.round.main t m) (ne : m ≠ .tryAcquire) :
    Quiet cfg { s with round := r } := by
  obtain ⟨es, run⟩ := quiet.run
  exact quiet_of_others (run.step trivial (quiet.round move same))
    (Function.update_eq_self t s.lock.main).symm main ⟨(quiet.outside t).1, ne⟩
    (fun u _ => quiet.outside u) quiet.free

/-- A handler starts, or goes on with its flag up. -/
theorem Quiet.helps (quiet : Quiet cfg s) {k : Reclaim.Handler} {a : Reclaim.Event T}
    {r : Reclaim.State T} (move : Reclaim.Step cfg s.round a r)
    (handler : r.handler = Function.update s.round.handler u (some k))
    (raised : s.round.handler u = none ∨ Raised s.lock u)
    (same : (r.lock, r.threadList, r.life, r.main) =
      (s.round.lock, s.round.threadList, s.round.life, s.round.main)) : Quiet cfg { s with round := r } := by
  obtain ⟨hlock, hlist, hlife, hmain⟩ : r.lock = s.round.lock ∧ r.threadList = s.round.threadList ∧
      r.life = s.round.life ∧ r.main = s.round.main := by
    simpa only [Prod.mk.injEq] using same
  have hmove : Step cfg s (.round a) { s with round := r } := by
    refine .round s a r move hlock hlist (.inl quiet.free) (fun v _ => congrFun hmain v)
      (fun v hv => ((quiet.outside v).2 hv).elim) (fun v hv => ?_)
      fun v hv => .inl (congrFun hlife v ▸ hv)
    rw [handler]
    by_cases hu : v = u
    · subst hu
      rw [Function.update_self]
      exact .inr ⟨by simp, raised.resolve_left hv⟩
    · exact .inl (Function.update_of_ne hu _ _)
  exact quiet.step hmove rfl hmain rfl

/-- A thread is created and starts. -/
theorem Quiet.joins (quiet : Quiet cfg s) (t : T) (unborn : s.round.life t = .unborn)
    (unborn' : s.lock.helper t = .unborn) (free : s.round.listLock = none) :
    Quiet cfg {
      lock := { s.lock with
        threadList := t :: s.lock.threadList
        localTimestamp := Function.update s.lock.localTimestamp t 0#64
        helper := Function.update s.lock.helper t .idle }
      round := { s.round with
        life := Function.update s.round.life t .active
        threadList := t :: s.round.threadList
        stack := Function.update s.round.stack t []
        localBlock := Function.update s.round.localBlock t none } } := by
  have hcreate := quiet.step (.create s t unborn unborn' quiet.free free) rfl rfl rfl
  have hbase := hcreate.step (.threadBase _ t (by simp) (by simp)) rfl rfl rfl
  have hstart := hbase.step (.round _ _ _ (.activate _ t [] (by simp)) rfl rfl (.inl quiet.free)
    (fun _ _ => rfl) (fun _ => id) (fun _ _ => .inl rfl) (fun u hu => ?_)) rfl rfl rfl
  · simp only [Function.update_idem] at hstart
    exact hstart
  · by_cases hut : u = t
    · subst hut
      exact .inr (by simp)
    · simp only [Function.update_of_ne hut] at hu
      exact .inl (by simpa only [Function.update_of_ne hut] using hu)

/-- A thread collects an address as often as its queue has room. -/
theorem Quiet.collects (quiet : Quiet cfg s) (t : T) (idle : s.round.main t = .idle)
    (awake : s.round.handler t = none) (active : s.round.life t = .active)
    (empty : s.round.queue t = []) (n : ℕ) (room : n + 1 ≤ cfg.ptrsPerThread) :
    Quiet cfg { s with round := { s.round with
      queue := Function.update s.round.queue t (List.replicate n 4096#64)
      main := Function.update s.round.main t (if n = 0 then .idle else .isFull) } } := by
  induction n with
  | zero =>
    simp only [List.replicate_zero, ← empty, Function.update_eq_self, if_true, ← idle]
    exact quiet
  | succ n ih =>
    have hn := ih (by omega)
    have hidle : Quiet cfg { s with round := { s.round with
        queue := Function.update s.round.queue t (List.replicate n 4096#64)
        main := Function.update s.round.main t .idle } } := by
      by_cases h₀ : n = 0
      · rwa [if_pos h₀] at hn
      · rw [if_neg h₀] at hn
        have hback := hn.goes (.goto _ t .idle awake (by
          simp only [Function.update_self]
          refine .notFull ?_
          simp only [Reclaim.threadscanQueueIsFull, Function.update_self, List.length_replicate,
            decide_eq_false_iff_not]
          omega)) rfl rfl (by simp)
        simpa only [Function.update_idem] using hback
    have hpush := hidle.goes (.push _ t 4096#64 (by simp) awake active (by decide)) rfl rfl (by simp)
    simp only [Function.update_idem, Function.update_self] at hpush
    rwa [if_neg (by omega), List.replicate_succ']

/-- Its queue is full, it wins the lock, and is about to poll the thread list. -/
theorem Quiet.wins (quiet : Quiet cfg s) (t : T) (idle : s.round.main t = .idle)
    (awake : s.round.handler t = none) (active : s.round.life t = .active)
    (empty : s.round.queue t = []) {n : ℕ} (full : n + 1 = cfg.ptrsPerThread)
    (idle' : s.lock.main t = .idle) (inactive : timestampIsActive s.lock.globalTimestamp = false)
    (free : s.round.listLock = none) :
    ∃ es, Run (system cfg) anyEvent es {
      lock := { s.lock with
        globalTimestamp := timestampRaiseFlag (s.lock.globalTimestamp + 1#64)
        listLock := some t
        main := Function.update s.lock.main t (.polling
          (timestamp (timestampRaiseFlag (s.lock.globalTimestamp + 1#64))) s.lock.threadList) }
      round := { s.round with
        queue := Function.update s.round.queue t (List.replicate n 4096#64)
        main := Function.update s.round.main t .tryAcquire } } := by
  have hlarge := cfg.ptrsPerThread_bounds.1
  have hn := quiet.collects t idle awake active empty n full.le
  rw [if_neg (by omega)] at hn
  obtain ⟨es, run⟩ := hn.run
  have hask := hn.round (.goto _ t .tryAcquire awake (by
    simp only [Function.update_self]
    refine .full ?_
    simp only [Reclaim.threadscanQueueIsFull, Function.update_self, List.length_replicate,
      decide_eq_true_eq]
    omega)) rfl
  have run₁ := run.step trivial hask
  have run₂ := run₁.step trivial (.tryRead _ t (by simp) awake idle' inactive)
  have run₃ := run₂.step trivial (.casWin _ t awake (by simp))
  have run₄ := run₃.step trivial (.pollStart _ t _ awake (Function.update_self ..) quiet.free free)
  simp only [Function.update_idem] at run₄
  exact ⟨_, run₄⟩

/-- It gets past threads that are not helping. -/
theorem passes {curr : Word} {rest : List T} (run : Run (system cfg) anyEvent es s)
    (awake : s.round.handler t = none) (polls : s.lock.main t = .polling curr rest)
    (passed : ∀ u ∈ rest, stillHelping (s.lock.localTimestamp u) curr = false) :
    ∃ es, Run (system cfg) anyEvent es { s with lock := { s.lock with
      main := Function.update s.lock.main t (.polling curr []) } } := by
  induction rest generalizing es s with
  | nil =>
    rw [← polls, Function.update_eq_self]
    exact ⟨es, run⟩
  | cons u rest ih =>
    have run₁ := run.step trivial (.pollNext s t u curr rest awake polls (passed u List.mem_cons_self))
    obtain ⟨es', run'⟩ := ih run₁ awake (Function.update_self ..)
      fun v hv => passed v (List.mem_cons_of_mem _ hv)
    simp only [Function.update_idem] at run'
    exact ⟨es', run'⟩

/-- A round that is over gives the lock back. -/
theorem Quiet.releases (quiet : Quiet cfg s) (t : T) {n : ℕ} {curr : Word}
    (h : s.round.main t = .release n) (awake : s.round.handler t = none)
    (holds : s.lock.main t = .holding curr) :
    Quiet cfg {
      lock := { s.lock with
        globalTimestamp := timestamp s.lock.globalTimestamp
        main := Function.update s.lock.main t .idle }
      round := { s.round with
        lock := none
        main := Function.update s.round.main t (.verify n) } } := by
  obtain ⟨es, run⟩ := quiet.run
  have run₁ := run.step trivial (.releaseRead s t curr n h awake holds)
  have run₂ := run₁.step trivial (.releaseWrite _ t curr _ n h awake (Function.update_self ..))
  simp only [Function.update_idem] at run₂
  exact quiet_of_others run₂ rfl rfl ⟨id, nofun⟩ (fun u _ => quiet.outside u) quiet.free

/-- A round has been released before its helper has lowered its flag, and the next reclaimer polls
that helper. -/
theorem helper_polled : ∃ (es : List (Event (Option Bool))) (s : State (Option Bool)),
    Run (system (Progress.leastConfig false)) anyEvent es s ∧
      s.lock.main none = .polling 3#64 [some false, some true] ∧ s.round.handler none = none ∧
      s.round.handler (some false) = some .tail ∧ Raised s.lock (some false) ∧
      stillHelping (s.lock.localTimestamp (some false)) 3#64 = true ∧
      s.lock.localTimestamp (some true) = 0#64 ∧
      s.round.threadList = [none, some false, some true] := by
  have h₀ : Quiet (Progress.leastConfig false) (initial (T := Option Bool) fun _ => 0#64) :=
    ⟨⟨[], .init ⟨_, rfl⟩⟩, fun _ => ⟨id, nofun⟩, rfl⟩
  have h₁ := (h₀.joins (some true) rfl rfl rfl).joins (some false) rfl rfl rfl
  -- the first reclaimer gets the lock
  obtain ⟨es₂, run₂⟩ := h₁.wins (some true) rfl rfl rfl rfl (n := 1023) rfl rfl rfl rfl
  obtain ⟨es₃, run₃⟩ := passes (t := some true) run₂ rfl rfl (by
    rintro (_ | _ | _) - <;> exact Timestamp.stillHelping_zero _)
  have h₄ := quiet_of_others (t := some true) (run₃.step trivial (.pollEnd _ (some true) _ rfl rfl))
    rfl rfl ⟨id, nofun⟩ (by
      rintro (_ | _ | _) hu
      · exact ⟨id, nofun⟩
      · exact ⟨id, nofun⟩
      · exact absurd rfl hu) rfl
  -- it drains the queues and signals the other thread
  have h₅ := h₄.goes (.assign _ (some true) (fun _ => 0#64) (fun _ => 0#64) rfl rfl fun _ _ _ => rfl)
    rfl rfl nofun
  have h₆ := h₅.goes (.exchange _ (some true) rfl rfl) rfl rfl nofun
  have h₇ := h₆.goes (.goto _ (some true) _ rfl (.drained 0)) rfl rfl nofun
  have h₈ := h₇.goes (.lockQueues _ (some true) 0 rfl rfl rfl) rfl rfl nofun
  have h₉ := h₈.goes (.goto _ (some true) _ rfl (.popHead (some false) _ 0)) rfl rfl nofun
  have h₁₀ := h₉.goes (.popTail _ (some true) (some false) _ 0 _ rfl rfl) rfl rfl nofun
  have h₁₁ := h₁₀.goes (.goto _ (some true) _ rfl (.popHead (some true) [] _)) rfl rfl nofun
  have h₁₂ := h₁₁.goes (.popTail _ (some true) (some true) [] _ _ rfl rfl) rfl rfl nofun
  have h₁₃ := h₁₂.goes (.unlockQueues _ (some true) _ rfl rfl) rfl rfl nofun
  have h₁₄ := h₁₃.goes (.count _ (some true) _ rfl rfl) rfl rfl nofun
  have h₁₅ := h₁₄.goes (.sort _ (some true) rfl rfl) rfl rfl nofun
  have h₁₆ := h₁₅.goes (.scanMap _ (some true) rfl rfl) rfl rfl nofun
  have h₁₇ := h₁₆.goes (.reset _ (some true) rfl rfl) rfl rfl nofun
  have h₁₈ := h₁₇.goes (.lockSignal _ (some true) rfl rfl rfl) rfl rfl nofun
  have h₁₉ := h₁₈.goes (.kill _ (some true) (some false) _ 0 rfl rfl nofun rfl) rfl rfl nofun
  have h₂₀ := h₁₉.goes (.goto _ (some true) _ rfl (.skip (some true) [] 1 (.inl rfl))) rfl rfl nofun
  have h₂₁ := h₂₀.goes (.unlockSignal _ (some true) 1 rfl rfl) rfl rfl nofun
  -- both search their empty stacks, the other one in its handler
  have h₂₂ := h₂₁.goes (.search _ (some true) 1 .stack _ rfl rfl) rfl rfl nofun
  have h₂₃ := h₂₂.goes (.search _ (some true) 1 .stack _ rfl rfl) rfl rfl nofun
  have h₂₄ := h₂₃.goes (.search _ (some true) 1 .stack _ rfl rfl) rfl rfl nofun
  have h₂₅ := h₂₄.goes (.goto _ (some true) _ rfl (.searched 1 .stack _ rfl rfl)) rfl rfl nofun
  have h₂₆ := h₂₅.helps (.enterHandler _ (some false) rfl Nat.zero_lt_one) rfl (.inl rfl) rfl
  have h₂₇ := h₂₆.step (.raiseRead _ (some false) [] rfl rfl rfl) rfl rfl rfl
  have h₂₈ := h₂₇.step (.raisePublish _ (some false) _ rfl) rfl rfl rfl
  have h₂₉ := h₂₈.step (.raiseGlobal _ (some false) _ rfl) rfl rfl rfl
  have h₃₀ := h₂₉.step (.raiseFinish _ (some false) _ _ rfl) rfl rfl rfl
  have h₃₁ := h₃₀.helps (.helperSearch _ (some false) .stack _ rfl) rfl (.inr ⟨rfl, rfl⟩) rfl
  have h₃₂ := h₃₁.helps (.helperSearch _ (some false) .stack _ rfl) rfl (.inr ⟨rfl, rfl⟩) rfl
  have h₃₃ := h₃₂.helps (.helperSearch _ (some false) .stack _ rfl) rfl (.inr ⟨rfl, rfl⟩) rfl
  have h₃₄ := h₃₃.helps (.helperDone _ (some false) .stack _ rfl rfl rfl) rfl (.inr ⟨rfl, rfl⟩) rfl
  have h₃₅ := h₃₄.helps (.helperCount _ (some false) rfl) rfl (.inr ⟨rfl, rfl⟩) rfl
  -- the round ends, and a third thread gets the lock
  have h₃₆ := h₃₅.goes (.leave _ (some true) 1 rfl rfl le_rfl) rfl rfl nofun
  have h₃₇ := (h₃₆.releases (some true) rfl rfl rfl).joins none rfl rfl rfl
  obtain ⟨es₃₈, run₃₈⟩ := h₃₇.wins none rfl rfl rfl rfl (n := 1023) rfl rfl
    (Polling.timestampIsActive_timestamp _) rfl
  have run₃₉ := run₃₈.step trivial
    (.pollNext _ none none _ _ rfl rfl (Timestamp.stillHelping_zero _))
  exact ⟨_, _, run₃₉, rfl, rfl, rfl, ⟨rfl, rfl⟩, rfl, rfl, rfl⟩

/-- The next reclaimer gets past that helper when it has lowered its flag. -/
theorem stamps_refine_polled : ∃ (es : List (Event (Option Bool))) (s s' : State (Option Bool)),
    Run (system (Progress.leastConfig false)) anyEvent es s ∧
      s.lock.main none = .polling 3#64 [some false, some true] ∧
      stillHelping (s.lock.localTimestamp (some false)) 3#64 = true ∧
      (∃ es', Run (system (Progress.leastConfig false)) anyEvent es' s') ∧
      s'.round.main none = .assign ∧ s'.round.threadList = [none, some false, some true] ∧
      s'.round.handler (some false) = none ∧
      timestampIsActive (s'.lock.localTimestamp (some false)) = false := by
  obtain ⟨es, s, run, hpolls, hawake, htail, hraised, hhelping, hzero, hlist⟩ := helper_polled
  have run₁ := run.step trivial (.lowerRead s (some false) htail hraised)
  have run₂ := run₁.step trivial (.lowerWrite _ (some false) _ htail (by simp; rfl))
  obtain ⟨es₃, run₃⟩ := passes (t := none) run₂ (by simpa using hawake) hpolls (by
    intro u hu
    simp only [List.mem_cons, List.not_mem_nil, or_false] at hu
    obtain rfl | rfl := hu
    · simp only [Function.update_self]
      exact Polling.stillHelping_of_lowered (Polling.timestampIsActive_timestamp _)
    · simp only [Function.update_of_ne (show some true ≠ some false by decide), hzero]
      exact Timestamp.stillHelping_zero _)
  have run₄ := run₃.step trivial (.pollEnd _ none 3#64 (by simpa using hawake) (by simp))
  obtain ⟨-, -, -, hclear⟩ := stamps_refine _ _ _ run₄
  obtain ⟨hnone, hinactive⟩ := hclear none ⟨by simp [phase], by simp⟩ (some false) (by simp [hlist])
  exact ⟨es, s, _, run, hpolls, hhelping, ⟨_, run₄⟩, by simp, hlist, hnone, hinactive⟩

end ThreadScan.Stamps
