import ThreadScan.Transition
import ThreadScan.Word

/-! The reclaimer lock (`thread.c`) and the poll of the helpers it is taken with
(`threadscan_proc_wait_for_timestamp`), with every read and write of the global and the
per-thread timestamps a step of its own. -/
namespace ThreadScan.Timestamp
open Transition

/-- TIMESTAMP. -/
def timestamp (field : Word) : Word := field &&& 0x7FFFFFFFFFFFFFFF#64

/-- TIMESTAMP_RAISE_FLAG and TIMESTAMP_SET_ACTIVE. -/
def timestampRaiseFlag (field : Word) : Word := field ||| 0x8000000000000000#64

/-- TIMESTAMP_IS_ACTIVE. -/
def timestampIsActive (field : Word) : Bool := field &&& 0x8000000000000000#64 != 0#64

/-- Where a thread stands in `try_acquire`, `wait_for_timestamp` and `release`. -/
inductive Main (T : Type*)
  | idle
  | attempt (oldTimestamp : Word)
  | won (curr : Word)
  | polling (curr : Word) (rest : List T)
  | holding (curr : Word)
  | releasing (curr globalTimestamp : Word)

/-- Where a thread stands in `raise_flag` and `lower_flag`; before that, whether its
record exists and whether `threadscan_thread_base` has reset its timestamp. -/
inductive Helper
  | unborn
  | born
  | idle
  | raise (oldTimestamp : Word)
  | published (oldTimestamp : Word)
  | read (oldTimestamp curr : Word)
  | lower (localTimestamp : Word)

@[ext] structure State (T : Type*) where
  globalTimestamp : Word
  localTimestamp : T → Word
  timesWithoutUpdate : T → ℕ
  threadList : List T
  listLock : Option T
  main : T → Main T
  helper : T → Helper
  /-- The thread has finished `raise_flag` and not yet executed `lower_flag`. -/
  helping : T → Bool

inductive Event (T : Type*)
  | acquire (t : T)
  | other

variable {T : Type*} [DecidableEq T]

/-- The condition of the polling loop: this thread is still helping another round. -/
def stillHelping (stamp curr : Word) : Bool :=
  timestampIsActive stamp && timestamp stamp != curr

/-- The counter that `raise_flag` keeps of stamps seen twice in a period of inactivity. -/
def countUpdate (old curr : Word) (times : ℕ) : ℕ :=
  if timestamp curr ≠ old then 0
  else if timestampIsActive curr then times
  else if times < 2 then times + 1 else times

inductive Step : State T → Event T → State T → Prop
  | tryRead (s : State T) (t : T) (h : s.main t = .idle)
      (free : timestampIsActive s.globalTimestamp = false) :
      Step s .other { s with main := Function.update s.main t (.attempt s.globalTimestamp) }
  | casWin (s : State T) (t : T) (h : s.main t = .attempt s.globalTimestamp) :
      Step s (.acquire t) { s with
        globalTimestamp := timestampRaiseFlag (s.globalTimestamp + 1#64)
        main := Function.update s.main t
          (.won (timestamp (timestampRaiseFlag (s.globalTimestamp + 1#64)))) }
  | casFail (s : State T) (t : T) (old : Word) (h : s.main t = .attempt old)
      (lost : s.globalTimestamp ≠ old) :
      Step s .other { s with main := Function.update s.main t .idle }
  | pollStart (s : State T) (t : T) (curr : Word) (h : s.main t = .won curr)
      (free : s.listLock = none) :
      Step s .other { s with
        listLock := some t
        main := Function.update s.main t (.polling curr s.threadList) }
  | pollNext (s : State T) (t td : T) (curr : Word) (rest : List T)
      (h : s.main t = .polling curr (td :: rest))
      (passed : stillHelping (s.localTimestamp td) curr = false) :
      Step s .other { s with main := Function.update s.main t (.polling curr rest) }
  | pollEnd (s : State T) (t : T) (curr : Word) (h : s.main t = .polling curr []) :
      Step s .other { s with
        listLock := none
        main := Function.update s.main t (.holding curr) }
  | releaseRead (s : State T) (t : T) (curr : Word) (h : s.main t = .holding curr) :
      Step s .other { s with
        main := Function.update s.main t (.releasing curr s.globalTimestamp) }
  | releaseWrite (s : State T) (t : T) (curr v : Word) (h : s.main t = .releasing curr v) :
      Step s .other { s with
        globalTimestamp := timestamp v
        main := Function.update s.main t .idle }
  | listAdd (s : State T) (t : T) (h : s.helper t = .unborn) (free : s.listLock = none) :
      Step s .other { s with
        threadList := t :: s.threadList
        localTimestamp := Function.update s.localTimestamp t 0#64
        helper := Function.update s.helper t .born }
  | listRemove (s : State T) (t : T) (free : s.listLock = none) :
      Step s .other { s with threadList := s.threadList.erase t }
  | threadBase (s : State T) (t : T) (h : s.helper t = .born) :
      Step s .other { s with
        localTimestamp := Function.update s.localTimestamp t 0#64
        helper := Function.update s.helper t .idle }
  | raiseRead (s : State T) (t : T) (h : s.helper t = .idle) :
      Step s .other { s with
        helper := Function.update s.helper t (.raise (s.localTimestamp t)) }
  | raisePublish (s : State T) (t : T) (old : Word) (h : s.helper t = .raise old) :
      Step s .other { s with
        localTimestamp := Function.update s.localTimestamp t (timestampRaiseFlag old)
        helper := Function.update s.helper t (.published old) }
  | raiseGlobal (s : State T) (t : T) (old : Word) (h : s.helper t = .published old) :
      Step s .other { s with
        helper := Function.update s.helper t (.read old s.globalTimestamp) }
  | raiseFinish (s : State T) (t : T) (old curr : Word) (h : s.helper t = .read old curr) :
      Step s .other { s with
        localTimestamp := Function.update s.localTimestamp t (timestampRaiseFlag curr)
        timesWithoutUpdate := Function.update s.timesWithoutUpdate t
          (countUpdate old curr (s.timesWithoutUpdate t))
        helper := Function.update s.helper t .idle
        helping := Function.update s.helping t true }
  | lowerRead (s : State T) (t : T) (h : s.helper t = .idle) :
      Step s .other { s with
        helper := Function.update s.helper t (.lower (s.localTimestamp t)) }
  | lowerWrite (s : State T) (t : T) (v : Word) (h : s.helper t = .lower v) :
      Step s .other { s with
        localTimestamp := Function.update s.localTimestamp t (timestamp v)
        helper := Function.update s.helper t .idle
        helping := Function.update s.helping t false }

/-- No thread is known yet; the global stamp starts at one. -/
def initial : State T where
  globalTimestamp := 1#64
  localTimestamp _ := 0#64
  timesWithoutUpdate _ := 0
  threadList := []
  listLock := none
  main _ := .idle
  helper _ := .unborn
  helping _ := false

def system (T : Type*) [DecidableEq T] : System (State T) (Event T) where
  init s := s = initial
  step := Step

/-- How many rounds have been started: acquisitions that won their compare-and-swap. -/
def rounds : List (Event T) → ℕ
  | [] => 0
  | .acquire _ :: es => rounds es + 1
  | .other :: es => rounds es

/-- Between a compare-and-swap that won and the store of the matching release. -/
def Critical : Main T → Prop
  | .won _ | .polling _ _ | .holding _ | .releasing _ _ => True
  | .idle | .attempt _ => False

/-- `try_acquire` has returned 1 with this timestamp and `release` has not stored yet. -/
def Holds (curr : Word) : Main T → Prop
  | .holding c | .releasing c _ => c = curr
  | _ => False

/-- Every listed helper carries exactly the holder's timestamp. -/
def Drained (s : State T) : Prop :=
  ∀ t curr, Holds curr (s.main t) → ∀ h ∈ s.threadList, s.helping h = true →
    s.localTimestamp h = timestampRaiseFlag curr

theorem timestamp_toNat (w : Word) : (timestamp w).toNat = w.toNat % 2 ^ 63 := by
  rw [timestamp, BitVec.toNat_and]
  exact Nat.and_two_pow_sub_one_eq_mod _ 63

theorem timestampIsActive_iff (w : Word) : timestampIsActive w = true ↔ 2 ^ 63 ≤ w.toNat := by
  have hsplit := toNat_split w 0x8000000000000000#64
  have hlow : (w &&& ~~~0x8000000000000000#64).toNat = w.toNat % 2 ^ 63 := timestamp_toNat w
  have hw := w.isLt
  rw [timestampIsActive, bne_iff_ne, ne_eq, ← BitVec.toNat_inj, BitVec.toNat_zero]
  omega

theorem timestampRaiseFlag_toNat (w : Word) :
    (timestampRaiseFlag w).toNat = w.toNat % 2 ^ 63 + 2 ^ 63 := by
  have hsplit := toNat_split (timestampRaiseFlag w) 0x8000000000000000#64
  have hlow : timestampRaiseFlag w &&& ~~~0x8000000000000000#64 = timestamp w := by
    unfold timestampRaiseFlag timestamp
    rw [show (0x7FFFFFFFFFFFFFFF#64) = ~~~0x8000000000000000#64 by decide]
    ext i hi
    simp only [BitVec.getElem_and, BitVec.getElem_or, BitVec.getElem_not]
    grind
  have hhigh : timestampRaiseFlag w &&& 0x8000000000000000#64 = 0x8000000000000000#64 := by
    unfold timestampRaiseFlag
    ext i hi
    simp only [BitVec.getElem_and, BitVec.getElem_or]
    grind
  rw [hlow, hhigh, timestamp_toNat] at hsplit
  exact hsplit.symm

theorem timestampIsActive_eq_false (w : Word) :
    timestampIsActive w = false ↔ w.toNat < 2 ^ 63 := by
  rw [← Bool.not_eq_true, timestampIsActive_iff, not_le]

theorem timestampIsActive_raiseFlag (w : Word) :
    timestampIsActive (timestampRaiseFlag w) = true := by
  rw [timestampIsActive_iff, timestampRaiseFlag_toNat]
  omega

/-- The lock alone, with no bound on the number of rounds. -/
structure LockInv (s : State T) : Prop where
  free : ∀ t old, s.main t = .attempt old → timestampIsActive old = false
  active : ∀ t, Critical (s.main t) → timestampIsActive s.globalTimestamp = true
  unique : ∀ t t', Critical (s.main t) → Critical (s.main t') → t = t'

theorem critical_update {main : T → Main T} {t t' : T} {m : Main T}
    (h : Critical (Function.update main t m t')) :
    t' = t ∧ Critical m ∨ t' ≠ t ∧ Critical (main t') := by
  by_cases ht : t' = t
  · subst ht
    rw [Function.update_self] at h
    exact .inl ⟨rfl, h⟩
  · rw [Function.update_of_ne ht] at h
    exact .inr ⟨ht, h⟩

/-- A thread that moves on inside its critical section, or outside of every one, and
leaves the global stamp alone keeps the lock invariant. -/
theorem LockInv.advance {s : State T} (h : LockInv s) {t : T} {m : Main T}
    (hm : Critical m → Critical (s.main t))
    (hfree : ∀ old, m = .attempt old → timestampIsActive old = false)
    {s' : State T} (hmain : s'.main = Function.update s.main t m)
    (hglobal : s'.globalTimestamp = s.globalTimestamp) : LockInv s' := by
  have hcrit : ∀ t', Critical (s'.main t') → Critical (s.main t') := by
    intro t' ht'
    rw [hmain] at ht'
    rcases critical_update ht' with ⟨rfl, hc⟩ | ⟨_, hc⟩
    · exact hm hc
    · exact hc
  refine ⟨?_, ?_, ?_⟩
  · intro t' old ht'
    rw [hmain] at ht'
    by_cases he : t' = t
    · subst he
      rw [Function.update_self] at ht'
      exact hfree old ht'
    · rw [Function.update_of_ne he] at ht'
      exact h.free t' old ht'
  · intro t' ht'
    rw [hglobal]
    exact h.active t' (hcrit t' ht')
  · intro t₁ t₂ h₁ h₂
    exact h.unique t₁ t₂ (hcrit t₁ h₁) (hcrit t₂ h₂)

theorem LockInv.step {s s' : State T} {e : Event T} (h : LockInv s) (move : Step s e s') :
    LockInv s' := by
  cases move with
  | tryRead t ht free =>
    exact h.advance (by simp [Critical]) (by rintro old ⟨⟩; exact free) rfl rfl
  | casWin t ht =>
    have hnone : ∀ t', ¬ Critical (s.main t') := by
      intro t' hc
      have := h.active t' hc
      rw [h.free t _ ht] at this
      cases this
    have honly : ∀ t', Critical (Function.update s.main t
        (.won (timestamp (timestampRaiseFlag (s.globalTimestamp + 1#64)))) t') → t' = t := by
      intro t' hc
      rcases critical_update hc with ⟨he, _⟩ | ⟨_, hc'⟩
      · exact he
      · exact absurd hc' (hnone t')
    refine ⟨?_, fun _ _ => timestampIsActive_raiseFlag _, ?_⟩
    · intro t' old ht'
      by_cases he : t' = t
      · subst he
        simp at ht'
      · exact h.free t' old (by simpa [Function.update_of_ne he] using ht')
    · intro t₁ t₂ h₁ h₂
      rw [honly t₁ h₁, honly t₂ h₂]
  | casFail t old ht lost => exact h.advance (by simp [Critical]) (by rintro _ ⟨⟩) rfl rfl
  | pollStart t curr ht free =>
    exact h.advance (by simp [ht, Critical]) (by rintro _ ⟨⟩) rfl rfl
  | pollNext t td curr rest ht passed =>
    exact h.advance (by simp [ht, Critical]) (by rintro _ ⟨⟩) rfl rfl
  | pollEnd t curr ht => exact h.advance (by simp [ht, Critical]) (by rintro _ ⟨⟩) rfl rfl
  | releaseRead t curr ht => exact h.advance (by simp [ht, Critical]) (by rintro _ ⟨⟩) rfl rfl
  | releaseWrite t curr v ht =>
    have hnone : ∀ t', ¬ Critical (Function.update s.main t .idle t') := by
      intro t' hc
      rcases critical_update hc with ⟨_, hc'⟩ | ⟨hne, hc'⟩
      · exact hc'
      · exact hne (h.unique t' t hc' (by simp [ht, Critical]))
    refine ⟨?_, fun t' hc => absurd hc (hnone t'), fun t₁ _ h₁ => absurd h₁ (hnone t₁)⟩
    intro t' old ht'
    by_cases he : t' = t
    · subst he
      simp at ht'
    · exact h.free t' old (by simpa [Function.update_of_ne he] using ht')
  | listAdd | listRemove | threadBase | raiseRead | raisePublish | raiseGlobal | raiseFinish
  | lowerRead | lowerWrite => exact ⟨h.free, h.active, h.unique⟩

theorem run_lockInv {ok : List (Event T) → State T → Event T → Prop} {es : List (Event T)}
    {s : State T} (run : Run (system T) ok es s) : LockInv s := by
  refine run.invariant (I := fun _ s => LockInv s) ?_ ?_
  · rintro s rfl
    exact ⟨by simp [initial], by simp [initial, Critical], by simp [initial, Critical]⟩
  · intro _ _ _ _ _ ih _ move
    exact ih.step move

/-- The stamp a field carries, flag aside. -/
def stamp (field : Word) : ℕ := field.toNat % 2 ^ 63

/-- One helper: its published timestamp, where it stands, whether it counts as helping. -/
structure View where
  localTimestamp : Word
  helper : Helper
  helping : Bool

def view (s : State T) (h : T) : View := ⟨s.localTimestamp h, s.helper h, s.helping h⟩

/-- What a helper knows of its own timestamp, against the global stamp `g`. -/
structure Own (g : ℕ) (v : View) : Prop where
  le : stamp v.localTimestamp ≤ g
  active : v.helping = true → timestampIsActive v.localTimestamp = true
  pc : match v.helper with
    | .unborn | .born => v.helping = false
    | .idle => True
    | .raise old => old = v.localTimestamp
    | .published _ => timestampIsActive v.localTimestamp = true
    | .read _ curr => timestampIsActive v.localTimestamp = true ∧
        stamp v.localTimestamp ≤ stamp curr ∧ stamp curr ≤ g
    | .lower w => w = v.localTimestamp

/-- A helper that cannot end up helping a round other than `curr`. -/
structure Safe (curr : Word) (v : View) : Prop where
  helping : v.helping = true → v.localTimestamp = timestampRaiseFlag curr
  read : ∀ old x, v.helper = .read old x → timestampRaiseFlag x = timestampRaiseFlag curr

/-- The holder's poll has gone past this listed helper. -/
def Polled (curr : Word) (threadList : List T) (h : T) : Main T → Prop
  | .polling c rest => c = curr ∧ h ∈ threadList ∧ h ∉ rest
  | .holding c | .releasing c _ => c = curr ∧ h ∈ threadList
  | .idle | .attempt _ | .won _ => False

/-- The timestamp of the round a critical section belongs to. -/
def Current (curr : Word) : Main T → Prop
  | .won c | .polling c _ | .holding c | .releasing c _ => c = curr
  | .idle | .attempt _ => False

structure DrainInv (es : List (Event T)) (s : State T) : Prop where
  count : stamp s.globalTimestamp = rounds es + 1
  own : ∀ h, Own (stamp s.globalTimestamp) (view s h)
  current : ∀ t curr, Current curr (s.main t) → curr = timestamp s.globalTimestamp
  releasing : ∀ t curr v, s.main t = .releasing curr v → v = s.globalTimestamp
  locked : ∀ t curr rest, s.main t = .polling curr rest → s.listLock = some t
  drain : ∀ t curr h, Polled curr s.threadList h (s.main t) → Safe curr (view s h)

omit [DecidableEq T] in
theorem Polled.current {curr : Word} {l : List T} {h : T} {m : Main T} (p : Polled curr l h m) :
    Current curr m ∧ Critical m := by
  cases m with
  | idle | attempt | won => exact p.elim
  | polling c rest => exact ⟨p.1, trivial⟩
  | holding c => exact ⟨p.1, trivial⟩
  | releasing c v => exact ⟨p.1, trivial⟩

omit [DecidableEq T] in
theorem Current.critical {curr : Word} {m : Main T} (h : Current curr m) : Critical m := by
  cases m with
  | idle | attempt => exact h.elim
  | won | polling | holding | releasing => trivial

theorem stamp_raiseFlag (w : Word) : stamp (timestampRaiseFlag w) = stamp w := by
  simp only [stamp, timestampRaiseFlag_toNat]
  omega

theorem stamp_timestamp (w : Word) : stamp (timestamp w) = stamp w := by
  simp only [stamp, timestamp_toNat]
  omega

theorem raiseFlag_eq_iff {v w : Word} : timestampRaiseFlag v = timestampRaiseFlag w ↔
    stamp v = stamp w := by
  rw [← BitVec.toNat_inj, timestampRaiseFlag_toNat, timestampRaiseFlag_toNat]
  exact Nat.add_right_cancel_iff

/-- An active field is its stamp with the flag raised. -/
theorem raiseFlag_of_active {v w : Word} (ha : timestampIsActive v = true)
    (hs : stamp v = stamp w) : v = timestampRaiseFlag w := by
  have hv := (timestampIsActive_iff v).mp ha
  have hlt := v.isLt
  apply BitVec.eq_of_toNat_eq
  rw [timestampRaiseFlag_toNat]
  simp only [stamp] at hs
  omega

/-- A step of one helper's own code: the other helpers, the lock and the list are as
they were, and what it does is judged against the global stamp alone. -/
theorem DrainInv.helper {es : List (Event T)} {s s' : State T} (h : DrainInv es s) (t : T)
    (hglobal : s'.globalTimestamp = s.globalTimestamp) (hmain : s'.main = s.main)
    (hlock : s'.listLock = s.listLock) (hlist : s'.threadList = s.threadList)
    (others : ∀ u, u ≠ t → view s' u = view s u)
    (own : Own (stamp s.globalTimestamp) (view s' t))
    (safe : ∀ curr, curr = timestamp s.globalTimestamp → Safe curr (view s t) →
      Safe curr (view s' t)) : DrainInv (.other :: es) s' := by
  refine ⟨by rw [hglobal]; exact h.count, ?_, ?_, ?_, ?_, ?_⟩
  · intro u
    rw [hglobal]
    by_cases hu : u = t
    · subst hu
      exact own
    · rw [others u hu]
      exact h.own u
  · rw [hmain, hglobal]
    exact h.current
  · rw [hmain, hglobal]
    exact h.releasing
  · rw [hmain, hlock]
    exact h.locked
  · intro t' curr u hp
    rw [hmain, hlist] at hp
    have hs := h.drain t' curr u hp
    by_cases hu : u = t
    · subst hu
      exact safe curr (h.current t' curr hp.current.1) hs
    · rw [others u hu]
      exact hs

/-- A step of `try_acquire` or `release` that leaves the global stamp and every helper
alone. -/
theorem DrainInv.advance {es : List (Event T)} {s s' : State T} (h : DrainInv es s) {t : T}
    {m : Main T} (hmain : s'.main = Function.update s.main t m)
    (hglobal : s'.globalTimestamp = s.globalTimestamp) (hlist : s'.threadList = s.threadList)
    (hview : ∀ u, view s' u = view s u)
    (current : ∀ curr, Current curr m → curr = timestamp s.globalTimestamp)
    (releasing : ∀ curr v, m = .releasing curr v → v = s.globalTimestamp)
    (locked : ∀ curr rest, m = .polling curr rest → s'.listLock = some t)
    (keeps : ∀ u, u ≠ t → s.listLock = some u → s'.listLock = some u)
    (drain : ∀ curr u, Polled curr s.threadList u m → Safe curr (view s u)) :
    DrainInv (.other :: es) s' := by
  refine ⟨by rw [hglobal]; exact h.count, ?_, ?_, ?_, ?_, ?_⟩
  · intro u
    rw [hglobal, hview]
    exact h.own u
  · intro t' curr hc
    rw [hmain] at hc
    rw [hglobal]
    by_cases ht : t' = t
    · subst ht
      exact current curr (by simpa using hc)
    · exact h.current t' curr (by simpa [ht] using hc)
  · intro t' curr v hr
    rw [hmain] at hr
    rw [hglobal]
    by_cases ht : t' = t
    · subst ht
      exact releasing curr v (by simpa using hr)
    · exact h.releasing t' curr v (by simpa [ht] using hr)
  · intro t' curr rest hp
    rw [hmain] at hp
    by_cases ht : t' = t
    · subst ht
      exact locked curr rest (by simpa using hp)
    · exact keeps t' ht (h.locked t' curr rest (by simpa [ht] using hp))
  · intro t' curr u hp
    rw [hmain, hlist] at hp
    rw [hview]
    by_cases ht : t' = t
    · subst ht
      exact drain curr u (by simpa using hp)
    · exact h.drain t' curr u (by simpa [ht] using hp)

/-- A helper the poll goes past is either down or has read the new stamp. -/
theorem safe_of_passed {v : View} {global curr : Word} (own : Own (stamp global) v)
    (hcurr : curr = timestamp global)
    (passed : stillHelping v.localTimestamp curr = false) : Safe curr v := by
  have hstamp : timestampIsActive v.localTimestamp = true →
      stamp v.localTimestamp = stamp curr := by
    intro ha
    simp only [stillHelping, ha, Bool.true_and, bne_eq_false_iff_eq] at passed
    rw [← passed, stamp_timestamp]
  refine ⟨fun hh => raiseFlag_of_active (own.active hh) (hstamp (own.active hh)), ?_⟩
  intro old x hx
  have hpc := own.pc
  rw [hx] at hpc
  obtain ⟨ha, hle, hg⟩ := hpc
  have hs := hstamp ha
  rw [raiseFlag_eq_iff]
  rw [hcurr, stamp_timestamp] at hs ⊢
  omega

theorem DrainInv.threadBase {es : List (Event T)} {s : State T} (h : DrainInv es s) (t : T)
    (ht : s.helper t = .born) :
    DrainInv (.other :: es) { s with
      localTimestamp := Function.update s.localTimestamp t 0#64
      helper := Function.update s.helper t .idle } := by
  have hdown := (h.own t).pc
  simp only [view, ht] at hdown
  refine h.helper t rfl rfl rfl rfl (fun u hu => by simp [view, hu]) ⟨?_, ?_, ?_⟩ ?_
  · simp [view, stamp]
  · simp [view, hdown]
  · simp [view]
  · exact fun curr _ _ => ⟨by simp [view, hdown], by simp [view]⟩

theorem DrainInv.raiseRead {es : List (Event T)} {s : State T} (h : DrainInv es s) (t : T) :
    DrainInv (.other :: es) { s with
      helper := Function.update s.helper t (.raise (s.localTimestamp t)) } := by
  have hown := h.own t
  refine h.helper t rfl rfl rfl rfl (fun u hu => by simp [view, hu])
    ⟨hown.le, hown.active, by simp [view]⟩ ?_
  exact fun curr _ hs => ⟨hs.helping, by simp [view]⟩

theorem DrainInv.raisePublish {es : List (Event T)} {s : State T} (h : DrainInv es s) (t : T)
    (old : Word) (ht : s.helper t = .raise old) :
    DrainInv (.other :: es) { s with
      localTimestamp := Function.update s.localTimestamp t (timestampRaiseFlag old)
      helper := Function.update s.helper t (.published old) } := by
  have hown := h.own t
  have hold := hown.pc
  simp only [view, ht] at hold
  subst hold
  refine h.helper t rfl rfl rfl rfl (fun u hu => by simp [view, hu]) ⟨?_, ?_, ?_⟩ ?_
  · simpa [view, stamp_raiseFlag] using hown.le
  · simp [view, timestampIsActive_raiseFlag]
  · simp [view, timestampIsActive_raiseFlag]
  · intro curr _ hs
    refine ⟨fun hh => ?_, by simp [view]⟩
    -- a flag raised twice keeps the stamp of the first time
    have hlocal := hs.helping hh
    simp only [view, Function.update_self] at hlocal ⊢
    rw [hlocal, raiseFlag_eq_iff, stamp_raiseFlag]

theorem DrainInv.raiseGlobal {es : List (Event T)} {s : State T} (h : DrainInv es s) (t : T)
    (old : Word) (ht : s.helper t = .published old) :
    DrainInv (.other :: es) { s with
      helper := Function.update s.helper t (.read old s.globalTimestamp) } := by
  have hown := h.own t
  have hactive := hown.pc
  simp only [view, ht] at hactive
  refine h.helper t rfl rfl rfl rfl (fun u hu => by simp [view, hu])
    ⟨hown.le, hown.active, ?_⟩ ?_
  · simpa [view, hactive] using hown.le
  · intro curr hc hs
    refine ⟨hs.helping, fun o x hx => ?_⟩
    simp only [view, Function.update_self, Helper.read.injEq] at hx
    rw [← hx.2, hc, raiseFlag_eq_iff, stamp_timestamp]

theorem DrainInv.raiseFinish {es : List (Event T)} {s : State T} (h : DrainInv es s) (t : T)
    (old curr : Word) (ht : s.helper t = .read old curr) (times : T → ℕ) :
    DrainInv (.other :: es) { s with
      localTimestamp := Function.update s.localTimestamp t (timestampRaiseFlag curr)
      timesWithoutUpdate := times
      helper := Function.update s.helper t .idle
      helping := Function.update s.helping t true } := by
  have hread := (h.own t).pc
  simp only [view, ht] at hread
  refine h.helper t rfl rfl rfl rfl (fun u hu => by simp [view, hu]) ⟨?_, ?_, ?_⟩ ?_
  · simpa [view, stamp_raiseFlag] using hread.2.2
  · simp [view, timestampIsActive_raiseFlag]
  · simp [view]
  · intro c _ hs
    refine ⟨fun _ => ?_, by simp [view]⟩
    simpa [view] using hs.read old curr ht

theorem DrainInv.lowerRead {es : List (Event T)} {s : State T} (h : DrainInv es s) (t : T) :
    DrainInv (.other :: es) { s with
      helper := Function.update s.helper t (.lower (s.localTimestamp t)) } := by
  have hown := h.own t
  refine h.helper t rfl rfl rfl rfl (fun u hu => by simp [view, hu])
    ⟨hown.le, hown.active, by simp [view]⟩ ?_
  exact fun curr _ hs => ⟨hs.helping, by simp [view]⟩

theorem DrainInv.lowerWrite {es : List (Event T)} {s : State T} (h : DrainInv es s) (t : T)
    (v : Word) (ht : s.helper t = .lower v) :
    DrainInv (.other :: es) { s with
      localTimestamp := Function.update s.localTimestamp t (timestamp v)
      helper := Function.update s.helper t .idle
      helping := Function.update s.helping t false } := by
  have hown := h.own t
  have hv := hown.pc
  simp only [view, ht] at hv
  subst hv
  refine h.helper t rfl rfl rfl rfl (fun u hu => by simp [view, hu]) ⟨?_, ?_, ?_⟩ ?_
  · simpa [view, stamp_timestamp] using hown.le
  · simp [view]
  · simp [view]
  · exact fun curr _ _ => ⟨by simp [view], by simp [view]⟩

/-- Taking the lock moves the global stamp up by one, as long as it fits its field. -/
theorem stamp_attempt {g : Word} {r : ℕ} (hfree : timestampIsActive g = false)
    (hg : stamp g = r + 1) (hr : r + 2 < 2 ^ 63) :
    stamp (timestampRaiseFlag (g + 1#64)) = r + 2 := by
  have hlt := (timestampIsActive_eq_false g).mp hfree
  rw [stamp_raiseFlag]
  simp only [stamp] at hg ⊢
  rw [Nat.mod_eq_of_lt hlt] at hg
  have hnext : (g + 1#64).toNat = r + 2 := by bv_omega
  omega

theorem DrainInv.casWin {es : List (Event T)} {s : State T} (h : DrainInv es s)
    (lock : LockInv s) (t : T) (ht : s.main t = .attempt s.globalTimestamp)
    (hr : rounds es + 2 < 2 ^ 63) :
    DrainInv (.acquire t :: es) { s with
      globalTimestamp := timestampRaiseFlag (s.globalTimestamp + 1#64)
      main := Function.update s.main t
        (.won (timestamp (timestampRaiseFlag (s.globalTimestamp + 1#64)))) } := by
  have hfree := lock.free t _ ht
  have hnext := stamp_attempt hfree h.count hr
  have hnone : ∀ u, ¬ Critical (s.main u) := by
    intro u hc
    rw [lock.active u hc] at hfree
    cases hfree
  have hle : stamp s.globalTimestamp ≤
      stamp (timestampRaiseFlag (s.globalTimestamp + 1#64)) := by
    rw [hnext, h.count]
    omega
  refine ⟨hnext, ?_, ?_, ?_, ?_, ?_⟩
  · intro u
    have hown := h.own u
    refine ⟨hown.le.trans hle, hown.active, ?_⟩
    have hpc := hown.pc
    cases hu : s.helper u <;> simp only [view, hu] at hpc ⊢
    case read old curr => exact ⟨hpc.1, hpc.2.1, hpc.2.2.trans hle⟩
    all_goals exact hpc
  · intro u curr hc
    by_cases hu : u = t
    · subst hu
      simpa [Current, eq_comm] using hc
    · exact absurd (Current.critical (by simpa [hu] using hc)) (hnone u)
  · intro u curr v hm
    by_cases hu : u = t
    · subst hu
      simp at hm
    · exact absurd (by simp [show s.main u = _ by simpa [hu] using hm, Critical]) (hnone u)
  · intro u curr rest hm
    by_cases hu : u = t
    · subst hu
      simp at hm
    · exact absurd (by simp [show s.main u = _ by simpa [hu] using hm, Critical]) (hnone u)
  · intro u curr v hp
    by_cases hu : u = t
    · subst hu
      simp [Polled] at hp
    · exact absurd (Polled.current (by simpa [hu] using hp)).2 (hnone u)

theorem DrainInv.releaseWrite {es : List (Event T)} {s : State T} (h : DrainInv es s)
    (lock : LockInv s) (t : T) (curr v : Word) (ht : s.main t = .releasing curr v) :
    DrainInv (.other :: es) { s with
      globalTimestamp := timestamp v
      main := Function.update s.main t .idle } := by
  have hv := h.releasing t curr v ht
  subst hv
  have hnone : ∀ u, u ≠ t → ¬ Critical (s.main u) :=
    fun u hu hc => hu (lock.unique u t hc (by simp [ht, Critical]))
  refine ⟨by rw [stamp_timestamp]; exact h.count, ?_, ?_, ?_, ?_, ?_⟩
  · intro u
    rw [stamp_timestamp]
    exact h.own u
  · intro u c hc
    by_cases hu : u = t
    · subst hu
      simp [Current] at hc
    · exact absurd (Current.critical (by simpa [hu] using hc)) (hnone u hu)
  · intro u c w hm
    by_cases hu : u = t
    · subst hu
      simp at hm
    · exact absurd (by simp [show s.main u = _ by simpa [hu] using hm, Critical]) (hnone u hu)
  · intro u c rest hm
    by_cases hu : u = t
    · subst hu
      simp at hm
    · exact h.locked u c rest (by simpa [hu] using hm)
  · intro u c w hp
    by_cases hu : u = t
    · subst hu
      simp [Polled] at hp
    · exact absurd (Polled.current (by simpa [hu] using hp)).2 (hnone u hu)

theorem DrainInv.listAdd {es : List (Event T)} {s : State T} (h : DrainInv es s) (t : T)
    (ht : s.helper t = .unborn) (free : s.listLock = none) :
    DrainInv (.other :: es) { s with
      threadList := t :: s.threadList
      localTimestamp := Function.update s.localTimestamp t 0#64
      helper := Function.update s.helper t .born } := by
  have hdown := (h.own t).pc
  simp only [view, ht] at hdown
  have hnew : ∀ curr, Safe curr ⟨0#64, .born, s.helping t⟩ :=
    fun curr => ⟨by simp [hdown], by simp⟩
  refine ⟨h.count, ?_, h.current, h.releasing, h.locked, ?_⟩
  · intro u
    by_cases hu : u = t
    · subst hu
      exact ⟨by simp [view, stamp], by simp [view, hdown], by simp [view, hdown]⟩
    · simpa [view, hu] using h.own u
  · intro u curr w hp
    by_cases hw : w = t
    · subst hw
      simpa [view] using hnew curr
    · have hold : Polled curr s.threadList w (s.main u) := by
        cases hm : s.main u with
        | idle | attempt | won => simp [hm, Polled] at hp
        | polling c rest =>
          have := h.locked u c rest hm
          rw [free] at this
          cases this
        | holding c | releasing c v => simpa [hm, Polled, hw] using hp
      simpa [view, hw] using h.drain u curr w hold

theorem DrainInv.listRemove {es : List (Event T)} {s : State T} (h : DrainInv es s) (t : T)
    (free : s.listLock = none) :
    DrainInv (.other :: es) { s with threadList := s.threadList.erase t } := by
  refine ⟨h.count, h.own, h.current, h.releasing, h.locked, ?_⟩
  intro u curr w hp
  apply h.drain u curr w
  cases hm : s.main u with
  | idle | attempt | won => simp [hm, Polled] at hp
  | polling c rest =>
    have := h.locked u c rest hm
    rw [free] at this
    cases this
  | holding c | releasing c v =>
    simp only [hm, Polled] at hp ⊢
    exact ⟨hp.1, List.mem_of_mem_erase hp.2⟩

theorem DrainInv.step {es : List (Event T)} {s s' : State T} {e : Event T}
    (h : DrainInv es s) (lock : LockInv s) (move : Step s e s')
    (hr : rounds (e :: es) + 1 < 2 ^ 63) : DrainInv (e :: es) s' := by
  cases move with
  | tryRead t ht free =>
    exact h.advance rfl rfl rfl (fun _ => rfl) (by simp [Current]) (by simp) (by simp)
      (fun _ _ hl => hl) (by simp [Polled])
  | casWin t ht => exact h.casWin lock t ht hr
  | casFail t old ht lost =>
    exact h.advance rfl rfl rfl (fun _ => rfl) (by simp [Current]) (by simp) (by simp)
      (fun _ _ hl => hl) (by simp [Polled])
  | pollStart t curr ht free =>
    have hcurr := h.current t curr (by simp [ht, Current])
    refine h.advance rfl rfl rfl (fun _ => rfl) ?_ (by simp) (by simp) ?_ ?_
    · rintro c rfl
      exact hcurr
    · intro u _ hl
      rw [free] at hl
      cases hl
    · rintro c u ⟨_, hmem, hnot⟩
      exact absurd hmem hnot
  | pollNext t td curr rest ht passed =>
    have hcurr := h.current t curr (by simp [ht, Current])
    have hlock := h.locked t curr _ ht
    refine h.advance rfl rfl rfl (fun _ => rfl) ?_ (by simp) (fun _ _ _ => hlock)
      (fun _ _ hl => hl) ?_
    · rintro c rfl
      exact hcurr
    · rintro c u ⟨rfl, hmem, hnot⟩
      by_cases hu : u = td
      · subst hu
        exact safe_of_passed (h.own u) hcurr passed
      · exact h.drain t curr u (by simp [ht, Polled, hmem, hnot, hu])
  | pollEnd t curr ht =>
    have hcurr := h.current t curr (by simp [ht, Current])
    have hlock := h.locked t curr _ ht
    refine h.advance rfl rfl rfl (fun _ => rfl) ?_ (by simp) (by simp) ?_ ?_
    · rintro c rfl
      exact hcurr
    · intro u hu hl
      rw [hlock, Option.some.injEq] at hl
      exact absurd hl.symm hu
    · rintro c u ⟨rfl, hmem⟩
      exact h.drain t curr u (by simp [ht, Polled, hmem])
  | releaseRead t curr ht =>
    have hcurr := h.current t curr (by simp [ht, Current])
    refine h.advance rfl rfl rfl (fun _ => rfl) ?_ ?_ (by simp) (fun _ _ hl => hl) ?_
    · rintro c rfl
      exact hcurr
    · rintro c v ⟨⟩
      rfl
    · rintro c u ⟨rfl, hmem⟩
      exact h.drain t curr u (by simp [ht, Polled, hmem])
  | releaseWrite t curr v ht => exact h.releaseWrite lock t curr v ht
  | listAdd t ht free => exact h.listAdd t ht free
  | listRemove t free => exact h.listRemove t free
  | threadBase t ht => exact h.threadBase t ht
  | raiseRead t ht => exact h.raiseRead t
  | raisePublish t old ht => exact h.raisePublish t old ht
  | raiseGlobal t old ht => exact h.raiseGlobal t old ht
  | raiseFinish t old curr ht => exact h.raiseFinish t old curr ht _
  | lowerRead t ht => exact h.lowerRead t
  | lowerWrite t v ht => exact h.lowerWrite t v ht

omit [DecidableEq T] in
theorem rounds_le (e : Event T) (es : List (Event T)) : rounds es ≤ rounds (e :: es) := by
  cases e <;> simp [rounds]

theorem run_drainInv {ok : List (Event T) → State T → Event T → Prop} {es : List (Event T)}
    {s : State T} (run : Run (system T) ok es s) (few : rounds es + 1 < 2 ^ 63) :
    DrainInv es s := by
  revert few
  refine run.invariant (I := fun es s => rounds es + 1 < 2 ^ 63 → DrainInv es s) ?_ ?_
  · rintro s rfl _
    refine ⟨by simp [initial, stamp, rounds], ?_, by simp [initial, Current], by simp [initial], by simp [initial],
      by simp [initial, Polled]⟩
    exact fun h => ⟨by simp [view, initial, stamp], by simp [view, initial],
      by simp [view, initial]⟩
  · intro es s e t run ih _ move few
    have hle := rounds_le e es
    exact (ih (by omega)).step (run_lockInv run) move few

omit [DecidableEq T] in
theorem Holds.polled {curr : Word} {l : List T} {h : T} {m : Main T} (hold : Holds curr m)
    (hmem : h ∈ l) : Polled curr l h m := by
  cases m with
  | idle | attempt | won | polling => exact hold.elim
  | holding c | releasing c v => exact ⟨hold, hmem⟩

theorem run_drained {ok : List (Event T) → State T → Event T → Prop} {es : List (Event T)}
    {s : State T} (run : Run (system T) ok es s) (few : rounds es + 1 < 2 ^ 63) :
    Drained s := by
  intro t curr hold h hmem hhelp
  exact ((run_drainInv run few).drain t curr h (hold.polled hmem)).helping hhelp

/-- The reclaimer lock excludes, and while it is held no listed thread helps an earlier
round, for every run of fewer than `2 ^ 63 - 1` rounds. -/
theorem reclaimer_lock {es : List (Event T)} {s : State T}
    (run : Run (system T) anyEvent es s) :
    (∀ t t', Critical (s.main t) → Critical (s.main t') → t = t') ∧
    (rounds es < 2 ^ 63 - 1 → Drained s) := by
  refine ⟨(run_lockInv run).unique, fun few => run_drained run (by omega)⟩

/-- Two threads, `true` acquiring round after round and `false` never helping. -/
def soloState (k : ℕ) : State Bool where
  globalTimestamp := BitVec.ofNat 64 (k + 1)
  localTimestamp _ := 0#64
  timesWithoutUpdate _ := 0
  threadList := [false, true]
  listLock := none
  main _ := .idle
  helper _ := .idle
  helping _ := false

theorem stillHelping_zero (curr : Word) : stillHelping 0#64 curr = false := by
  simp [stillHelping, timestampIsActive]

theorem solo_round {k : ℕ} (hk : k + 1 < 2 ^ 63 - 1) {es : List (Event Bool)}
    (run : Run (system Bool) anyEvent es (soloState k)) :
    ∃ es', Run (system Bool) anyEvent es' (soloState (k + 1)) ∧ rounds es' = rounds es + 1 := by
  have hfree : timestampIsActive (BitVec.ofNat 64 (k + 1)) = false := by
    rw [timestampIsActive_eq_false, BitVec.toNat_ofNat]
    omega
  have r₁ := run.step trivial (.tryRead _ true rfl hfree)
  have r₂ := r₁.step trivial (.casWin _ true rfl)
  have r₃ := r₂.step trivial (.pollStart _ true _ rfl rfl)
  have r₄ := r₃.step trivial (.pollNext _ true false _ _ rfl (stillHelping_zero _))
  have r₅ := r₄.step trivial (.pollNext _ true true _ _ rfl (stillHelping_zero _))
  have r₆ := r₅.step trivial (.pollEnd _ true _ rfl)
  have r₇ := r₆.step trivial (.releaseRead _ true _ rfl)
  have r₈ := r₇.step trivial (.releaseWrite _ true _ _ rfl)
  refine ⟨_, r₈.of_eq ?_, rfl⟩
  apply State.ext
  case globalTimestamp =>
    apply BitVec.eq_of_toNat_eq
    rw [timestamp_toNat, timestampRaiseFlag_toNat]
    simp [soloState]
    omega
  case main =>
    funext t
    cases t <;> rfl
  all_goals rfl

theorem solo_run (k : ℕ) (hk : k < 2 ^ 63 - 1) :
    ∃ es, Run (system Bool) anyEvent es (soloState k) ∧ rounds es = k := by
  induction k with
  | zero =>
    have r₁ : Run (system Bool) anyEvent _ _ :=
      .step (.init rfl) trivial (.listAdd initial true rfl rfl)
    have r₂ := r₁.step trivial (.listAdd _ false rfl rfl)
    have r₃ := r₂.step trivial (.threadBase _ true rfl)
    have r₄ := r₃.step trivial (.threadBase _ false rfl)
    refine ⟨_, r₄.of_eq ?_, rfl⟩
    apply State.ext
    case localTimestamp | helper =>
      funext t
      cases t <;> rfl
    all_goals rfl
  | succ k ih =>
    obtain ⟨es, run, hes⟩ := ih (by omega)
    obtain ⟨es', run', hes'⟩ := solo_round hk run
    exact ⟨es', run', by omega⟩

/-- A thread helps the round that another one holds the lock for. -/
theorem reclaimer_lock_helper : ∃ (es : List (Event Bool)) (s : State Bool),
    Run (system Bool) anyEvent es s ∧ Critical (s.main true) ∧ s.helping false = true ∧
      Drained s := by
  obtain ⟨es, run, hes⟩ := solo_run 0 (by omega)
  have r₁ := run.step trivial (.tryRead _ true rfl (by decide))
  have r₂ := r₁.step trivial (.casWin _ true rfl)
  have r₃ := r₂.step trivial (.pollStart _ true _ rfl rfl)
  have r₄ := r₃.step trivial (.pollNext _ true false _ _ rfl (stillHelping_zero _))
  have r₅ := r₄.step trivial (.pollNext _ true true _ _ rfl (stillHelping_zero _))
  have r₆ := r₅.step trivial (.pollEnd _ true _ rfl)
  have r₇ := r₆.step trivial (.raiseRead _ false rfl)
  have r₈ := r₇.step trivial (.raisePublish _ false _ rfl)
  have r₉ := r₈.step trivial (.raiseGlobal _ false _ rfl)
  have r₁₀ := r₉.step trivial (.raiseFinish _ false _ _ rfl)
  exact ⟨_, _, r₁₀, trivial, rfl,
    (reclaimer_lock r₁₀).2 (by simp only [rounds]; omega)⟩

/-- In round `2 ^ 63 - 1` the stamp wraps to zero, the stamp of a thread that has never
helped: its half-raised flag then passes the poll and settles on the previous round. -/
theorem reclaimer_lock_wraps : ¬ ∀ (es : List (Event Bool)) (s : State Bool),
    Run (system Bool) anyEvent es s → rounds es < 2 ^ 63 → Drained s := by
  intro hdrained
  obtain ⟨es, run, hes⟩ := solo_run (2 ^ 63 - 2) (by omega)
  have r₁ := run.step trivial (.raiseRead _ false rfl)
  have r₂ := r₁.step trivial (.raisePublish _ false _ rfl)
  have r₃ := r₂.step trivial (.raiseGlobal _ false _ rfl)
  have r₄ := r₃.step trivial (.tryRead _ true rfl (by decide))
  have r₅ := r₄.step trivial (.casWin _ true rfl)
  have r₆ := r₅.step trivial (.pollStart _ true _ rfl rfl)
  have r₇ := r₆.step trivial (.pollNext _ true false _ _ rfl (by decide))
  have r₈ := r₇.step trivial (.pollNext _ true true _ _ rfl (stillHelping_zero _))
  have r₉ := r₈.step trivial (.pollEnd _ true _ rfl)
  have r₁₀ := r₉.step trivial (.raiseFinish _ false _ _ rfl)
  have hbad := hdrained _ _ r₁₀ (by simp only [rounds]; omega) true _ rfl false (by decide) rfl
  revert hbad
  decide

end ThreadScan.Timestamp
