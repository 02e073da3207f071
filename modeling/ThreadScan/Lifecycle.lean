import ThreadScan.LinkedList
import ThreadScan.Reclaim

/-! The life of a thread record (`wrappers.c`, with the lists of `util.c`): from
`pthread_create` over the thread list and the list of staged records to `pthread_join`, which
releases it. Both lists run through the `next` field of the records.

A record stands for its thread. Records are allocations: an address that is mapped again is
a new record. The lists are changed under their locks; a walk along a list is a step a cell. -/
namespace ThreadScan.Lifecycle
open Transition LinkedList
open Reclaim (Config maxThreadCount)

/-- The blocks of the allocator that belong to a record: the record itself, the buffer of its
queue and a stack of its own. -/
inductive Block (R : Type*)
  | threadData (td : R)
  | ptrList (td : R)
  | stack (td : R)
  deriving DecidableEq

/-- Where a record is. -/
inductive Place
  | unused
  | creating
  | listed
  | exiting
  | staged
  | released
  deriving DecidableEq

/-- Where a thread stands in the library. `target` is the thread that the underlying join has
returned for, if it has not failed. -/
inductive Pc (R K : Type*)
  | unborn
  | loading
  | loaded
  | starting
  | user
  | counted (userStack : Bool)
  | created (td : R) (userStack : Bool)
  | stacked (td : R)
  | added (td : R)
  | failed (td : R)
  | failedFree (td : R)
  | walking (cur : Option R)
  | exiting
  | removing (tmp : R)
  | removed
  | staging
  | staged
  | leaving
  | terminated
  | joined (tid : K) (target : Option R)
  | cleaning (tid : K) (target : Option R) (last cur : Option R)
  | cleaned (target : Option R) (td : R)
  | freeing (target : Option R) (td : R)
  | refused
  | fatal
  | abort
  | crashed

/-- The fields of the records, the two lists with their locks, the count and the blocks of the
allocator; then what the system knows of a thread: its id, whether it is detached, and whether
it has been joined. `place` is a history variable. -/
structure State (R K : Type*) where
  pc : R → Pc R K
  next : R → Option R
  self : R → K
  refCount : R → ℤ
  stackIsOurs : R → Bool
  isActive : R → Bool
  queued : R → ℕ
  head : Option R
  listLock : Option R
  tdStagedToFree : Option R
  stagedLock : Option R
  threadCount : ℤ
  mapped : Block R → Bool
  tid : R → K
  detached : R → Bool
  isJoined : R → Bool
  place : R → Place

inductive Event (R K : Type*)
  | new (t td : R)
  | mapStack (t td : R)
  | add (t td : R)
  | count (t : R)
  | refuse (t : R)
  | spawn (t td : R) (tid : K)
  | fail (t td : R)
  | unmapStack (t td : R)
  | free (t td : R)
  | remove (t : R)
  | stage (t : R)
  | uncount (t : R)
  | join (t td : R)
  | joinError (t : R)
  | unstage (t td : R)
  | other

variable {R K : Type*} [DecidableEq R]

def State.move (s : State R K) (t : R) (m : Pc R K) : State R K :=
  { s with pc := Function.update s.pc t m }

/-- The blocks that `threadscan_util_thread_data_new` maps and `threadscan_util_thread_data_free`
unmaps. -/
def setRecord (mapped : Block R → Bool) (td : R) (b : Bool) : Block R → Bool :=
  Function.update (Function.update mapped (.threadData td) b) (.ptrList td) b

/-- The record of another thread that the next step of a walk reads. -/
def Pc.reads : Pc R K → Option R
  | .walking cur => cur
  | .removing tmp => some tmp
  | .cleaning _ _ _ cur => cur
  | _ => none

inductive Step (cfg : Config) : State R K → Event R K → State R K → Prop
  /-- `main_replacement` sets up the record of the main thread. -/
  | load (s : State R K) (t : R) (h : s.pc t = .loading) :
      Step cfg s (.new t t) { s.move t .loaded with
        refCount := Function.update s.refCount t 1
        mapped := setRecord s.mapped t true
        place := Function.update s.place t .creating }
  | loadAdd (s : State R K) (t : R) (h : s.pc t = .loaded) (free : s.listLock = none) :
      Step cfg s (.add t t) { s.move t .starting with
        next := Function.update s.next t s.head
        head := some t
        place := Function.update s.place t .listed }
  /-- `threadscan_thread_base`. -/
  | base (s : State R K) (t : R) (h : s.pc t = .starting) :
      Step cfg s .other { s.move t .user with
        self := Function.update s.self t (s.tid t)
        isActive := Function.update s.isActive t true }
  /-- `threadscan_collect` with room in the queue. -/
  | collect (s : State R K) (t : R) (h : s.pc t = .user) (room : s.queued t + 1 < cfg.ptrsPerThread) :
      Step cfg s .other { s with queued := Function.update s.queued t (s.queued t + 1) }
  /-- The test of `pthread_create` reads the count before it is incremented. -/
  | count (s : State R K) (t : R) (userStack : Bool) (h : s.pc t = .user)
      (below : ¬ (maxThreadCount : ℤ) < s.threadCount) :
      Step cfg s (.count t) { s.move t (.counted userStack) with
        threadCount := s.threadCount + 1 }
  | refuse (s : State R K) (t : R) (h : s.pc t = .user)
      (above : (maxThreadCount : ℤ) < s.threadCount) :
      Step cfg s (.refuse t) { s.move t .refused with threadCount := s.threadCount + 1 }
  /-- `threadscan_util_thread_data_new`. -/
  | new (s : State R K) (t td : R) (userStack : Bool) (h : s.pc t = .counted userStack)
      (unborn : s.pc td = .unborn) (unused : s.place td = .unused) :
      Step cfg s (.new t td) { s.move t (.created td userStack) with
        refCount := Function.update s.refCount td 1
        mapped := setRecord s.mapped td true
        place := Function.update s.place td .creating }
  | userStack (s : State R K) (t td : R) (h : s.pc t = .created td true) :
      Step cfg s .other (s.move t (.stacked td))
  | ownStack (s : State R K) (t td : R) (h : s.pc t = .created td false) :
      Step cfg s (.mapStack t td) { s.move t (.stacked td) with
        stackIsOurs := Function.update s.stackIsOurs td true
        mapped := Function.update s.mapped (.stack td) true }
  /-- `threadscan_proc_add_thread_data`. -/
  | add (s : State R K) (t td : R) (h : s.pc t = .stacked td) (free : s.listLock = none) :
      Step cfg s (.add t td) { s.move t (.added td) with
        next := Function.update s.next td s.head
        head := some td
        place := Function.update s.place td .listed }
  | spawn (s : State R K) (t td : R) (tid : K) (detached : Bool) (h : s.pc t = .added td) :
      Step cfg s (.spawn t td tid)
        { s with
          pc := Function.update (Function.update s.pc t .user) td .starting
          tid := Function.update s.tid td tid
          detached := Function.update s.detached td detached }
  /-- `orig_pthread_create` returns an error. -/
  | fail (s : State R K) (t td : R) (h : s.pc t = .added td) :
      Step cfg s (.fail t td) (s.move t (.failed td))
  | failStack (s : State R K) (t td : R) (h : s.pc t = .failed td) (ours : s.stackIsOurs td = true) :
      Step cfg s (.unmapStack t td) { s.move t (.failedFree td) with
        mapped := Function.update s.mapped (.stack td) false }
  | failNoStack (s : State R K) (t td : R) (h : s.pc t = .failed td)
      (theirs : s.stackIsOurs td = false) :
      Step cfg s .other (s.move t (.failedFree td))
  /-- `threadscan_util_thread_data_free` asserts that nobody refers to the record. -/
  | failAssert (s : State R K) (t td : R) (h : s.pc t = .failedFree td) (debug : cfg.debug = true)
      (counted : s.refCount td ≠ 0) :
      Step cfg s .other (s.move t .abort)
  | failFree (s : State R K) (t td : R) (h : s.pc t = .failedFree td)
      (pass : cfg.debug = true → s.refCount td = 0) :
      Step cfg s (.free t td) { s.move t .user with
        mapped := setRecord s.mapped td false
        place := Function.update s.place td .released }
  /-- A traversal of the thread list, under its lock. -/
  | walk (s : State R K) (t : R) (h : s.pc t = .user) (free : s.listLock = none) :
      Step cfg s .other { s.move t (.walking s.head) with listLock := some t }
  /-- A traversal may take addresses out of the queue of the record it is at. -/
  | walkPop (s : State R K) (t u : R) (k : ℕ) (h : s.pc t = .walking (some u))
      (there : s.mapped (.threadData u) = true) :
      Step cfg s .other { s with queued := Function.update s.queued u (s.queued u - k) }
  | walkNext (s : State R K) (t u : R) (h : s.pc t = .walking (some u))
      (there : s.mapped (.threadData u) = true) :
      Step cfg s .other (s.move t (.walking (s.next u)))
  | walkEnd (s : State R K) (t : R) (h : s.pc t = .walking none) :
      Step cfg s .other { s.move t .user with listLock := none }
  /-- `threadscan_thread_cleanup`. -/
  | exit (s : State R K) (t : R) (h : s.pc t = .user) :
      Step cfg s .other { s.move t .exiting with isActive := Function.update s.isActive t false }
  | removeHead (s : State R K) (t : R) (h : s.pc t = .exiting) (free : s.listLock = none)
      (first : s.head = some t) :
      Step cfg s (.remove t) { s.move t .removed with
        head := s.next t
        place := Function.update s.place t .exiting }
  | removeWalk (s : State R K) (t tmp : R) (h : s.pc t = .exiting) (free : s.listLock = none)
      (first : s.head = some tmp) (ne : tmp ≠ t) :
      Step cfg s .other { s.move t (.removing tmp) with listLock := some t }
  | removeNone (s : State R K) (t : R) (h : s.pc t = .exiting) (free : s.listLock = none)
      (first : s.head = none) :
      Step cfg s .other (s.move t .crashed)
  | removeNext (s : State R K) (t tmp u : R) (h : s.pc t = .removing tmp)
      (there : s.mapped (.threadData tmp) = true) (link : s.next tmp = some u) (ne : u ≠ t) :
      Step cfg s .other (s.move t (.removing u))
  | removeLink (s : State R K) (t tmp : R) (h : s.pc t = .removing tmp)
      (there : s.mapped (.threadData tmp) = true) (link : s.next tmp = some t) :
      Step cfg s (.remove t) { s.move t .removed with
        next := Function.update s.next tmp (s.next t)
        listLock := none
        place := Function.update s.place t .exiting }
  | removeLost (s : State R K) (t tmp : R) (h : s.pc t = .removing tmp)
      (there : s.mapped (.threadData tmp) = true) (link : s.next tmp = none) :
      Step cfg s .other (s.move t .crashed)
  /-- `threadscan_util_thread_data_decr_ref`: the last reference stages the record. -/
  | decrRef (s : State R K) (t : R) (h : s.pc t = .removed) :
      Step cfg s .other { s.move t (if s.refCount t - 1 = 0 then .staging else .staged) with
        refCount := Function.update s.refCount t (s.refCount t - 1) }
  | stage (s : State R K) (t : R) (h : s.pc t = .staging) (free : s.stagedLock = none) :
      Step cfg s (.stage t) { s.move t .staged with
        next := Function.update s.next t s.tdStagedToFree
        tdStagedToFree := some t
        place := Function.update s.place t .staged }
  | uncount (s : State R K) (t : R) (h : s.pc t = .staged) :
      Step cfg s (.uncount t) { s.move t .leaving with threadCount := s.threadCount - 1 }
  | leave (s : State R K) (t : R) (h : s.pc t = .leaving) :
      Step cfg s .other (s.move t .terminated)
  /-- The underlying join returns for a thread that has terminated. -/
  | join (s : State R K) (t td : R) (h : s.pc t = .user) (gone : s.pc td = .terminated)
      (joinable : s.detached td = false) :
      Step cfg s (.join t td) { s.move t (.joined (s.tid td) (some td)) with
        isJoined := Function.update s.isJoined td true }
  | joinError (s : State R K) (t : R) (tid : K) (h : s.pc t = .user) :
      Step cfg s (.joinError t) (s.move t (.joined tid none))
  /-- `threadscan_util_thread_data_cleanup` looks for the id of the thread. -/
  | clean (s : State R K) (t : R) (tid : K) (target : Option R) (h : s.pc t = .joined tid target)
      (free : s.stagedLock = none) :
      Step cfg s .other { s.move t (.cleaning tid target none s.tdStagedToFree) with
        stagedLock := some t }
  | cleanNext (s : State R K) (t : R) (tid : K) (target last : Option R) (u : R)
      (h : s.pc t = .cleaning tid target last (some u)) (there : s.mapped (.threadData u) = true)
      (ne : s.self u ≠ tid) :
      Step cfg s .other (s.move t (.cleaning tid target (some u) (s.next u)))
  | cleanHead (s : State R K) (t : R) (tid : K) (target : Option R) (u : R)
      (h : s.pc t = .cleaning tid target none (some u)) (there : s.mapped (.threadData u) = true)
      (found : s.self u = tid) :
      Step cfg s (.unstage t u) { s.move t (.cleaned target u) with
        tdStagedToFree := s.next u
        stagedLock := none
        place := Function.update s.place u .released }
  | cleanLink (s : State R K) (t : R) (tid : K) (target : Option R) (last u : R)
      (h : s.pc t = .cleaning tid target (some last) (some u))
      (there : s.mapped (.threadData u) = true) (found : s.self u = tid) :
      Step cfg s (.unstage t u) { s.move t (.cleaned target u) with
        next := Function.update s.next last (s.next u)
        stagedLock := none
        place := Function.update s.place u .released }
  | cleanLost (s : State R K) (t : R) (tid : K) (target last : Option R)
      (h : s.pc t = .cleaning tid target last none) :
      Step cfg s .other (s.move t .crashed)
  | cleanRace (s : State R K) (t : R) (target : Option R) (u : R) (h : s.pc t = .cleaned target u)
      (race : 0 < s.refCount u) :
      Step cfg s .other (s.move t .fatal)
  | cleanStack (s : State R K) (t : R) (target : Option R) (u : R) (h : s.pc t = .cleaned target u)
      (quiet : ¬ 0 < s.refCount u) (ours : s.stackIsOurs u = true) :
      Step cfg s (.unmapStack t u) { s.move t (.freeing target u) with
        mapped := Function.update s.mapped (.stack u) false }
  | cleanNoStack (s : State R K) (t : R) (target : Option R) (u : R)
      (h : s.pc t = .cleaned target u) (quiet : ¬ 0 < s.refCount u)
      (theirs : s.stackIsOurs u = false) :
      Step cfg s .other (s.move t (.freeing target u))
  | cleanAssert (s : State R K) (t : R) (target : Option R) (u : R) (h : s.pc t = .freeing target u)
      (debug : cfg.debug = true) (counted : s.refCount u ≠ 0) :
      Step cfg s .other (s.move t .abort)
  | cleanFree (s : State R K) (t : R) (target : Option R) (u : R) (h : s.pc t = .freeing target u)
      (pass : cfg.debug = true → s.refCount u = 0) :
      Step cfg s (.free t u) { s.move t .user with mapped := setRecord s.mapped u false }
  /-- A walk that comes to a record that is not mapped any more. -/
  | fault (s : State R K) (t u : R) (h : (s.pc t).reads = some u)
      (gone : s.mapped (.threadData u) = false) :
      Step cfg s .other (s.move t .crashed)

/-- The library as it is loaded, with the main thread about to run `main_replacement`. -/
def initial (main : R) (self tid : R → K) : State R K where
  pc := Function.update (fun _ => .unborn) main .loading
  next _ := none
  self := self
  refCount _ := 0
  stackIsOurs _ := false
  isActive _ := false
  queued _ := 0
  head := none
  listLock := none
  tdStagedToFree := none
  stagedLock := none
  threadCount := 1
  mapped _ := false
  tid := tid
  detached _ := false
  isJoined _ := false
  place _ := .unused

def system (cfg : Config) : System (State R K) (Event R K) where
  init s := ∃ main self tid, s = initial main self tid
  step := Step cfg

/-! ### What the events leave behind -/

/-- The records on the thread list, by the history of its changes. -/
def listed : List (Event R K) → List R
  | [] => []
  | .add _ td :: es => td :: listed es
  | .remove t :: es => (listed es).erase t
  | _ :: es => listed es

/-- The staged records. -/
def stagedRecords : List (Event R K) → List R
  | [] => []
  | .stage t :: es => t :: stagedRecords es
  | .unstage _ td :: es => (stagedRecords es).erase td
  | _ :: es => stagedRecords es

/-- `g_thread_count`. -/
def counter : List (Event R K) → ℤ
  | [] => 1
  | .count _ :: es => counter es + 1
  | .refuse _ :: es => counter es + 1
  | .uncount _ :: es => counter es - 1
  | _ :: es => counter es

/-- The blocks of the allocator. -/
def blocks : List (Event R K) → Block R → Bool
  | [] => fun _ => false
  | .new _ td :: es => setRecord (blocks es) td true
  | .mapStack _ td :: es => Function.update (blocks es) (.stack td) true
  | .unmapStack _ td :: es => Function.update (blocks es) (.stack td) false
  | .free _ td :: es => setRecord (blocks es) td false
  | _ :: es => blocks es

/-- The record that a thread is creating a thread for. -/
def Pc.holds : Pc R K → Option R
  | .created td _ | .stacked td | .added td | .failed td | .failedFree td => some td
  | _ => none

/-- The thread's own record is on the thread list. -/
def Own (es : List (Event R K)) (s : State R K) (t : R) : Prop :=
  t ∈ listed es ∧ s.place t = .listed

/-- What a thread knows of the records where it stands. -/
def At (es : List (Event R K)) (s : State R K) (t : R) : Pc R K → Prop
  | .loading => s.place t = .unused
  | .loaded => s.place t = .creating
  | .starting | .user | .counted _ | .exiting | .joined _ _ | .cleaned _ _ | .freeing _ _ =>
    Own es s t
  | .created td _ | .stacked td => Own es s t ∧ s.place td = .creating ∧ s.pc td = .unborn
  | .added td | .failed td | .failedFree td => Own es s t ∧ Own es s td ∧ s.pc td = .unborn
  | .walking cur =>
    Own es s t ∧ s.listLock = some t ∧ ∃ a b, listed es = a ++ b ∧ cur = b.head?
  | .removing tmp =>
    Own es s t ∧ s.listLock = some t ∧ ∃ a b, listed es = a ++ tmp :: b ∧ t ∈ b
  | .removed | .staging => s.place t = .exiting
  | .cleaning tid _ last cur =>
    Own es s t ∧ s.stagedLock = some t ∧ ∃ a b, stagedRecords es = a ++ b ∧ cur = b.head? ∧
      last = a.getLast? ∧ ∀ u ∈ a, s.self u ≠ tid
  | .unborn | .staged | .leaving | .terminated | .refused | .fatal | .abort | .crashed => True

/-- Both lists are in order, whatever else has happened. -/
structure Inv (es : List (Event R K)) (s : State R K) : Prop where
  list : Linked s.next s.head (listed es)
  staged : Linked s.next s.tdStagedToFree (stagedRecords es)
  count : s.threadCount = counter es
  mapped : s.mapped = blocks es
  onList : ∀ r ∈ listed es, s.place r = .listed ∨ s.place r = .released
  onStaged : ∀ r, r ∈ stagedRecords es ↔ s.place r = .staged
  alone : ∀ t u td, (s.pc t).holds = some td → (s.pc u).holds = some td → t = u
  position : ∀ t, At es s t (s.pc t)

variable {cfg : Config} {es es' : List (Event R K)} {s s' : State R K} {t u : R}
  {m : Pc R K}

/-- What the steps of other threads leave alone. -/
structure Frame (es : List (Event R K)) (s : State R K) (es' : List (Event R K)) (s' : State R K)
    (u : R) : Prop where
  pc : s'.pc u = s.pc u
  own : s.pc u ≠ .unborn → s.place u ≠ .staged → s'.place u = s.place u
  held : ∀ td, (s.pc u).holds = some td → s'.place td = s.place td ∧ s'.pc td = s.pc td
  listed : ∀ r, s.place r = .listed → r ∈ listed es → r ∈ Lifecycle.listed es' ∨ s.place r ≠ s'.place r
  listLock : s.listLock = some u → s'.listLock = some u ∧ Lifecycle.listed es' = Lifecycle.listed es
  stagedLock : s.stagedLock = some u → s'.stagedLock = some u ∧
    stagedRecords es' = stagedRecords es ∧ ∀ r ∈ stagedRecords es, s'.self r = s.self r

theorem Own.frame {r : R} (h : Own es s r) (same : s'.place r = s.place r)
    (frame : Frame es s es' s' u) : Own es' s' r := by
  obtain ⟨hmem, hplace⟩ := h
  refine ⟨?_, same.trans hplace⟩
  rcases frame.listed r hplace hmem with hl | hne
  · exact hl
  · exact absurd same.symm hne

theorem At.frame (h : At es s u (s.pc u)) (frame : Frame es s es' s' u) :
    At es' s' u (s'.pc u) := by
  have hown : Own es s u → s.pc u ≠ .unborn → Own es' s' u := fun ho hb =>
    ho.frame (frame.own hb (by rw [ho.2]; simp)) frame
  have hheld := frame.held
  have hplace := frame.own
  rw [frame.pc]
  generalize s.pc u = m at h hown hheld hplace
  cases m with
  | loading | loaded => exact (hplace (by simp) (by rw [show s.place u = _ from h]; simp)).trans h
  | removed | staging => exact (hplace (by simp) (by rw [show s.place u = _ from h]; simp)).trans h
  | starting | user | counted | exiting | joined | cleaned | freeing => exact hown h (by simp)
  | created td | stacked td =>
    obtain ⟨ho, hp, hb⟩ := h
    obtain ⟨hp', hb'⟩ := hheld td rfl
    exact ⟨hown ho (by simp), hp'.trans hp, hb'.trans hb⟩
  | added td | failed td | failedFree td =>
    obtain ⟨ho, htd, hb⟩ := h
    obtain ⟨hp', hb'⟩ := hheld td rfl
    exact ⟨hown ho (by simp), htd.frame hp' frame, hb'.trans hb⟩
  | walking cur =>
    obtain ⟨ho, hlock, hsplit⟩ := h
    obtain ⟨hlock', hl⟩ := frame.listLock hlock
    exact ⟨hown ho (by simp), hlock', hl ▸ hsplit⟩
  | removing tmp =>
    obtain ⟨ho, hlock, hsplit⟩ := h
    obtain ⟨hlock', hl⟩ := frame.listLock hlock
    exact ⟨hown ho (by simp), hlock', hl ▸ hsplit⟩
  | cleaning tid target last cur =>
    obtain ⟨ho, hlock, a, b, hsplit, hcur, hlast, hne⟩ := h
    obtain ⟨hlock', hl, hself⟩ := frame.stagedLock hlock
    refine ⟨hown ho (by simp), hlock', a, b, hl.trans hsplit, hcur, hlast, fun r hr => ?_⟩
    rw [hself r (by rw [hsplit]; simp [hr])]
    exact hne r hr
  | unborn | staged | leaving | terminated | refused | fatal | abort | crashed => trivial

/-- A step of `t` that the other threads do not notice. -/
theorem Inv.update (inv : Inv es s) (t : R) (frame : ∀ u, u ≠ t → Frame es s es' s' u)
    (list : Linked s'.next s'.head (listed es'))
    (staged : Linked s'.next s'.tdStagedToFree (stagedRecords es'))
    (count : s'.threadCount = counter es') (mapped : s'.mapped = blocks es')
    (onList : ∀ r ∈ listed es', s'.place r = .listed ∨ s'.place r = .released)
    (onStaged : ∀ r, r ∈ stagedRecords es' ↔ s'.place r = .staged)
    (position : At es' s' t (s'.pc t))
    (alone : ∀ td, (s'.pc t).holds = some td →
      (s.pc t).holds = some td ∨ ∀ u, u ≠ t → (s.pc u).holds ≠ some td) : Inv es' s' where
  list := list
  staged := staged
  count := count
  mapped := mapped
  onList := onList
  onStaged := onStaged
  alone := by
    intro u v td hu hv
    by_cases hut : u = t <;> by_cases hvt : v = t
    · rw [hut, hvt]
    · subst hut
      rw [(frame v hvt).pc] at hv
      rcases alone td hu with h | h
      · exact inv.alone u v td h hv
      · exact absurd hv (h v hvt)
    · subst hvt
      rw [(frame u hut).pc] at hu
      rcases alone td hv with h | h
      · exact inv.alone u v td hu h
      · exact absurd hu (h u hut)
    · rw [(frame u hut).pc] at hu
      rw [(frame v hvt).pc] at hv
      exact inv.alone u v td hu hv
  position := by
    intro u
    by_cases hut : u = t
    · exact hut ▸ position
    · exact (inv.position u).frame (frame u hut)

/-- A thread that is being created has no step of its own. -/
theorem Inv.held_unborn (inv : Inv es s) {td : R} (h : (s.pc u).holds = some td) :
    s.pc td = .unborn := by
  have hat := inv.position u
  generalize s.pc u = m at h hat
  cases m with
  | created | stacked | added | failed | failedFree =>
    obtain rfl := Option.some.inj h
    exact hat.2.2
  | _ => exact absurd h (by simp [Pc.holds])

/-- The record of a thread that is being created is still set up, or on the thread list. -/
theorem Inv.held_place (inv : Inv es s) {td : R} (h : (s.pc u).holds = some td) :
    s.place td = .creating ∨ s.place td = .listed := by
  have hat := inv.position u
  generalize s.pc u = m at h hat
  cases m with
  | created | stacked =>
    obtain rfl := Option.some.inj h
    exact .inl hat.2.1
  | added | failed | failedFree =>
    obtain rfl := Option.some.inj h
    exact .inr hat.2.1.2
  | _ => exact absurd h (by simp [Pc.holds])

theorem Inv.at_of (inv : Inv es s) (h : s.pc t = m) : At es s t m := h ▸ inv.position t

theorem Inv.not_listed (inv : Inv es s) {r : R} (listed : s.place r ≠ .listed)
    (released : s.place r ≠ .released) : r ∉ Lifecycle.listed es :=
  fun hmem => (inv.onList r hmem).elim listed released

/-- A step that leaves both lists, their locks and the places of the records. -/
theorem Inv.stay (inv : Inv es s) {e : Event R K} (pc : s'.pc = Function.update s.pc t m)
    (born : s.pc t ≠ .unborn)
    (rest : s'.next = s.next ∧ s'.head = s.head ∧ s'.tdStagedToFree = s.tdStagedToFree ∧
      s'.place = s.place ∧ s'.listLock = s.listLock ∧ s'.stagedLock = s.stagedLock ∧
      s'.self = s.self)
    (event : listed (e :: es) = listed es ∧ stagedRecords (e :: es) = stagedRecords es)
    (count : s'.threadCount = counter (e :: es)) (mapped : s'.mapped = blocks (e :: es))
    (position : At (e :: es) s' t m)
    (alone : ∀ td, m.holds = some td → (s.pc t).holds = some td) : Inv (e :: es) s' := by
  obtain ⟨hnext, hhead, hstaged, hplace, hlock, hslock, hself⟩ := rest
  obtain ⟨hl, hs⟩ := event
  have hpc : s'.pc t = m := by rw [pc, Function.update_self]
  have hother : ∀ u, u ≠ t → s'.pc u = s.pc u := fun u hu => by rw [pc, Function.update_of_ne hu]
  refine inv.update t (fun u hu => ?_) ?_ ?_ count mapped ?_ ?_ (hpc ▸ position)
    fun td htd => .inl (alone td (hpc ▸ htd))
  · refine ⟨hother u hu, fun _ _ => by rw [hplace], fun td htd => ⟨by rw [hplace], hother td ?_⟩,
      fun r _ hr => .inl (hl ▸ hr), fun h => ⟨hlock ▸ h, hl⟩,
      fun h => ⟨hslock ▸ h, hs, fun r _ => by rw [hself]⟩⟩
    rintro rfl
    exact born (inv.held_unborn htd)
  · rw [hnext, hhead, hl]
    exact inv.list
  · rw [hnext, hstaged, hs]
    exact inv.staged
  · rw [hl, hplace]
    exact inv.onList
  · rw [hs, hplace]
    exact inv.onStaged

/-- A new record in front of the thread list. -/
theorem Inv.push (inv : Inv es s) {td : R} (pc : s'.pc = Function.update s.pc t m)
    (born : s.pc t ≠ .unborn) (place : s.place td = .creating)
    (mine : t = td ∨ s.pc td = .unborn ∧ (s.pc t).holds = some td) (free : s.listLock = none)
    (next : s'.next = Function.update s.next td s.head ∧ s'.head = some td)
    (placed : s'.place = Function.update s.place td .listed)
    (rest : s'.tdStagedToFree = s.tdStagedToFree ∧ s'.listLock = s.listLock ∧
      s'.stagedLock = s.stagedLock ∧ s'.self = s.self)
    (count : s'.threadCount = counter es) (mapped : s'.mapped = blocks es)
    (position : At (.add t td :: es) s' t m)
    (alone : ∀ x, m.holds = some x → (s.pc t).holds = some x) : Inv (.add t td :: es) s' := by
  obtain ⟨hstaged, hlock, hslock, hself⟩ := rest
  have hpc : s'.pc t = m := by rw [pc, Function.update_self]
  have hother : ∀ u, u ≠ t → s'.pc u = s.pc u := fun u hu => by rw [pc, Function.update_of_ne hu]
  have hnew : td ∉ listed es := inv.not_listed (by simp [place]) (by simp [place])
  have hnot : td ∉ stagedRecords es := by
    rw [inv.onStaged, place]
    simp
  have hkeep : ∀ r, r ≠ td → s'.place r = s.place r := fun r hr => by
    rw [placed, Function.update_of_ne hr]
  refine inv.update t (fun u hu => ?_) ?_ ?_ count mapped ?_ ?_ (hpc ▸ position)
    fun x hx => .inl (alone x (hpc ▸ hx))
  · refine ⟨hother u hu, fun hb _ => hkeep u ?_, fun x hx => ⟨hkeep x ?_, hother x ?_⟩,
      fun r _ hr => .inl (List.mem_cons_of_mem _ hr), fun h => ?_,
      fun h => ⟨hslock ▸ h, rfl, fun r _ => by rw [hself]⟩⟩
    · rintro rfl
      rcases mine with h | h
      · exact hu h.symm
      · exact hb h.1
    · rintro rfl
      rcases mine with rfl | h
      · exact born (inv.held_unborn hx)
      · exact hu (inv.alone u t x hx h.2)
    · rintro rfl
      exact born (inv.held_unborn hx)
    · rw [free] at h
      exact absurd h (by simp)
  · rw [next.1, next.2]
    exact inv.list.push hnew
  · rw [next.1, hstaged]
    exact inv.staged.update hnot _
  · intro r hr
    rcases List.mem_cons.mp hr with rfl | hr
    · left
      rw [placed, Function.update_self]
    · by_cases hrtd : r = td
      · exact absurd (hrtd ▸ hr) hnew
      · rw [hkeep r hrtd]
        exact inv.onList r hr
  · intro r
    change r ∈ stagedRecords es ↔ _
    by_cases hrtd : r = td
    · subst hrtd
      rw [placed, Function.update_self]
      exact iff_of_false hnot (by simp)
    · rw [hkeep r hrtd]
      exact inv.onStaged r

/-- A record leaves the thread list: the chain without it is at hand. -/
theorem Inv.remove (inv : Inv es s) (pc : s'.pc = Function.update s.pc t .removed)
    (own : Own es s t) (born : s.pc t ≠ .unborn)
    (list : Linked s'.next s'.head ((listed es).erase t))
    (staged : Linked s'.next s'.tdStagedToFree (stagedRecords es))
    (placed : s'.place = Function.update s.place t .exiting)
    (lock : ∀ u, u ≠ t → s.listLock ≠ some u)
    (rest : s'.stagedLock = s.stagedLock ∧ s'.self = s.self)
    (count : s'.threadCount = counter es) (mapped : s'.mapped = blocks es) :
    Inv (.remove t :: es) s' := by
  obtain ⟨hslock, hself⟩ := rest
  have hpc : s'.pc t = .removed := by rw [pc, Function.update_self]
  have hother : ∀ u, u ≠ t → s'.pc u = s.pc u := fun u hu => by rw [pc, Function.update_of_ne hu]
  have hkeep : ∀ r, r ≠ t → s'.place r = s.place r := fun r hr => by
    rw [placed, Function.update_of_ne hr]
  have hplace : s'.place t = .exiting := by rw [placed, Function.update_self]
  refine inv.update t (fun u hu => ?_) list staged count mapped ?_ ?_ ?_ ?_
  · refine ⟨hother u hu, fun _ _ => hkeep u hu, fun x hx => ⟨hkeep x ?_, hother x ?_⟩, ?_,
      fun h => absurd h (lock u hu), fun h => ⟨hslock ▸ h, rfl, fun r _ => by rw [hself]⟩⟩
    · rintro rfl
      exact born (inv.held_unborn hx)
    · rintro rfl
      exact born (inv.held_unborn hx)
    · intro r _ hr
      by_cases hrt : r = t
      · subst hrt
        right
        rw [hplace, own.2]
        simp
      · exact .inl ((List.mem_erase_of_ne hrt).mpr hr)
  · intro r hr
    by_cases hrt : r = t
    · subst hrt
      exact absurd hr (List.Nodup.not_mem_erase inv.list.nodup)
    · rw [hkeep r hrt]
      exact inv.onList r (List.mem_of_mem_erase hr)
  · intro r
    change r ∈ stagedRecords es ↔ _
    by_cases hrt : r = t
    · subst hrt
      rw [inv.onStaged, hplace, own.2]
      simp
    · rw [hkeep r hrt]
      exact inv.onStaged r
  · rw [hpc]
    exact hplace
  · intro x hx
    rw [hpc] at hx
    exact absurd hx (by simp [Pc.holds])

/-- A record leaves the list of staged records. -/
theorem Inv.unstage (inv : Inv es s) {target : Option R}
    (pc : s'.pc = Function.update s.pc t (.cleaned target u)) (own : Own es s t)
    (born : s.pc t ≠ .unborn) (hu : u ∈ stagedRecords es)
    (list : Linked s'.next s'.head (listed es))
    (staged : Linked s'.next s'.tdStagedToFree ((stagedRecords es).erase u))
    (placed : s'.place = Function.update s.place u .released)
    (lock : s.stagedLock = some t)
    (rest : s'.listLock = s.listLock ∧ s'.self = s.self)
    (count : s'.threadCount = counter es) (mapped : s'.mapped = blocks es) :
    Inv (.unstage t u :: es) s' := by
  obtain ⟨hlock, hself⟩ := rest
  have hplace := (inv.onStaged u).mp hu
  have hpc : s'.pc t = .cleaned target u := by rw [pc, Function.update_self]
  have hother : ∀ v, v ≠ t → s'.pc v = s.pc v := fun v hv => by rw [pc, Function.update_of_ne hv]
  have hkeep : ∀ r, s.place r ≠ .staged → s'.place r = s.place r := fun r hr => by
    rw [placed, Function.update_of_ne]
    rintro rfl
    exact hr hplace
  have hown : ∀ r, Own es s r → Own (.unstage t u :: es) s' r := fun r hr =>
    ⟨hr.1, (hkeep r (by rw [hr.2]; simp)).trans hr.2⟩
  refine inv.update t (fun v hv => ?_) list staged count mapped ?_ ?_ ?_ ?_
  · refine ⟨hother v hv, fun _ hs => hkeep v hs, fun x hx => ⟨hkeep x ?_, hother x ?_⟩,
      fun r _ hr => .inl hr, fun h => ⟨hlock ▸ h, rfl⟩, fun h => ?_⟩
    · rcases inv.held_place hx with hp | hp <;> simp [hp]
    · rintro rfl
      exact born (inv.held_unborn hx)
    · rw [lock] at h
      exact absurd (Option.some.inj h).symm hv
  · intro r hr
    rcases inv.onList r hr with h | h
    · exact .inl ((hkeep r (by rw [h]; simp)).trans h)
    · exact .inr ((hkeep r (by rw [h]; simp)).trans h)
  · intro r
    change r ∈ (stagedRecords es).erase u ↔ _
    by_cases hru : r = u
    · subst hru
      rw [placed, Function.update_self]
      exact iff_of_false (List.Nodup.not_mem_erase inv.staged.nodup) (by simp)
    · rw [placed, Function.update_of_ne hru, List.mem_erase_of_ne hru]
      exact inv.onStaged r
  · rw [hpc]
    exact hown t own
  · intro x hx
    rw [hpc] at hx
    exact absurd hx (by simp [Pc.holds])

/-- A record that has just been allocated. -/
theorem Inv.fresh (inv : Inv es s) {td : R} (pc : s'.pc = Function.update s.pc t m)
    (born : s.pc t ≠ .unborn) (mine : t = td ∨ s.pc td = .unborn) (unused : s.place td = .unused)
    (placed : s'.place = Function.update s.place td .creating)
    (rest : s'.next = s.next ∧ s'.head = s.head ∧ s'.tdStagedToFree = s.tdStagedToFree ∧
      s'.listLock = s.listLock ∧ s'.stagedLock = s.stagedLock ∧ s'.self = s.self)
    (count : s'.threadCount = counter es) (mapped : s'.mapped = setRecord (blocks es) td true)
    (position : At (.new t td :: es) s' t m) (holds : ∀ x, m.holds = some x → x = td) :
    Inv (.new t td :: es) s' := by
  obtain ⟨hnext, hhead, hstaged, hlock, hslock, hself⟩ := rest
  have hpc : s'.pc t = m := by rw [pc, Function.update_self]
  have hother : ∀ u, u ≠ t → s'.pc u = s.pc u := fun u hu => by rw [pc, Function.update_of_ne hu]
  have hkeep : ∀ r, s.place r ≠ .unused → s'.place r = s.place r := fun r hr => by
    rw [placed, Function.update_of_ne]
    rintro rfl
    exact hr unused
  have hheld : ∀ u x, (s.pc u).holds = some x → s.place x ≠ .unused := by
    intro u x hx
    rcases inv.held_place hx with hp | hp <;> simp [hp]
  refine inv.update t (fun u hu => ?_) ?_ ?_ count mapped ?_ ?_ (hpc ▸ position) fun x hx => .inr ?_
  · refine ⟨hother u hu, fun hb _ => ?_, fun x hx => ⟨hkeep x (hheld u x hx), hother x ?_⟩,
      fun r _ hr => .inl hr, fun h => ⟨hlock ▸ h, rfl⟩,
      fun h => ⟨hslock ▸ h, rfl, fun r _ => by rw [hself]⟩⟩
    · rw [placed, Function.update_of_ne]
      rintro rfl
      rcases mine with rfl | h
      · exact hu rfl
      · exact hb h
    · rintro rfl
      exact born (inv.held_unborn hx)
  · rw [hnext, hhead]
    exact inv.list
  · rw [hnext, hstaged]
    exact inv.staged
  · intro r hr
    have hold := inv.onList r hr
    rw [hkeep r (by rcases hold with h | h <;> rw [h] <;> simp)]
    exact hold
  · intro r
    change r ∈ stagedRecords es ↔ _
    by_cases hr : r = td
    · subst hr
      rw [inv.onStaged, placed, Function.update_self, unused]
      simp
    · rw [placed, Function.update_of_ne hr]
      exact inv.onStaged r
  · intro u _ hux
    rw [hpc] at hx
    obtain rfl := holds x hx
    exact hheld u x hux unused

theorem unborn_move {td : R} (h : s.pc td = .unborn) (born : s.pc t ≠ .unborn) :
    (Function.update s.pc t m) td = .unborn := by
  rw [Function.update_of_ne]
  · exact h
  · rintro rfl
    exact born h

/-- A thread takes a lock that nobody holds. -/
theorem Inv.lock (inv : Inv es s) (pc : s'.pc = Function.update s.pc t m)
    (born : s.pc t ≠ .unborn)
    (rest : s'.next = s.next ∧ s'.head = s.head ∧ s'.tdStagedToFree = s.tdStagedToFree ∧
      s'.place = s.place ∧ s'.self = s.self)
    (list : s'.listLock = s.listLock ∨ ∀ u, u ≠ t → s.listLock ≠ some u)
    (stage : s'.stagedLock = s.stagedLock ∨ ∀ u, u ≠ t → s.stagedLock ≠ some u)
    (count : s'.threadCount = counter es) (mapped : s'.mapped = blocks es)
    (position : At es s' t m) (alone : m.holds = none) : Inv (.other :: es) s' := by
  obtain ⟨hnext, hhead, hstaged, hplace, hself⟩ := rest
  have hpc : s'.pc t = m := by rw [pc, Function.update_self]
  have hother : ∀ u, u ≠ t → s'.pc u = s.pc u := fun u hu => by rw [pc, Function.update_of_ne hu]
  refine inv.update t (fun u hu => ?_) ?_ ?_ count mapped ?_ ?_ (hpc ▸ position)
    fun x hx => absurd (hpc ▸ hx) (by simp [alone])
  · refine ⟨hother u hu, fun _ _ => by rw [hplace], fun x hx => ⟨by rw [hplace], hother x ?_⟩,
      fun r _ hr => .inl hr, fun h => ⟨?_, rfl⟩, fun h => ⟨?_, rfl, fun r _ => by rw [hself]⟩⟩
    · rintro rfl
      exact born (inv.held_unborn hx)
    · rcases list with hl | hl
      · exact hl ▸ h
      · exact absurd h (hl u hu)
    · rcases stage with hl | hl
      · exact hl ▸ h
      · exact absurd h (hl u hu)
  · rw [hnext, hhead]
    exact inv.list
  · rw [hnext, hstaged]
    exact inv.staged
  · rw [hplace]
    exact inv.onList
  · rw [hplace]
    exact inv.onStaged

omit [DecidableEq R] in
/-- A walk that has found a cell stands in front of what is left of its list. -/
theorem split_next {next : R → Option R} {p : Option R} {l a b : List R} {x : R}
    (h : Linked next p l) (split : l = a ++ x :: b) :
    l = (a ++ [x]) ++ b ∧ next x = b.head? := by
  subst split
  exact ⟨by simp, h.next_eq⟩

theorem Inv.step (inv : Inv es s) {e : Event R K} (move : Step cfg s e s') : Inv (e :: es) s' := by
  cases move with
  | load t h =>
    have hunused := inv.at_of h
    exact inv.fresh (m := .loaded) rfl (by simp [h]) (.inl rfl) hunused rfl
      ⟨rfl, rfl, rfl, rfl, rfl, rfl⟩ inv.count (congrArg (setRecord · t true) inv.mapped)
      (Function.update_self ..) (by simp [Pc.holds])
  | loadAdd t h free =>
    exact inv.push (m := .starting) rfl (by simp [h]) (inv.at_of h) (.inl rfl) free ⟨rfl, rfl⟩ rfl
      ⟨rfl, rfl, rfl, rfl⟩ inv.count inv.mapped ⟨List.mem_cons_self, Function.update_self ..⟩
      (by simp [Pc.holds])
  | base t h =>
    have hown : Own es s t := inv.at_of h
    have hnot : t ∉ stagedRecords es := by
      rw [inv.onStaged, hown.2]
      simp
    have hself : ∀ r ∈ stagedRecords es, Function.update s.self t (s.tid t) r = s.self r :=
      fun r hr => Function.update_of_ne (fun he : r = t => hnot (he ▸ hr)) _ _
    refine inv.update t (fun u hu => ?_) inv.list inv.staged inv.count inv.mapped inv.onList
      inv.onStaged ?_ ?_
    · refine ⟨Function.update_of_ne hu _ _, fun _ _ => rfl, fun x hx =>
        ⟨rfl, unborn_move (inv.held_unborn hx) (by simp [h]) |>.trans (inv.held_unborn hx).symm⟩,
        fun r _ hr => .inl hr, fun hl => ⟨hl, rfl⟩, fun hl => ⟨hl, rfl, hself⟩⟩
    · simp only [State.move, Function.update_self]
      exact hown
    · simp [State.move, Pc.holds]
  | collect t h room =>
    exact inv.stay (m := .user) (by rw [← h, Function.update_eq_self]) (by simp [h])
      ⟨rfl, rfl, rfl, rfl, rfl, rfl, rfl⟩ ⟨rfl, rfl⟩ inv.count inv.mapped (inv.at_of h) (by simp [Pc.holds])
  | count t userStack h below =>
    exact inv.stay rfl (by simp [h]) ⟨rfl, rfl, rfl, rfl, rfl, rfl, rfl⟩ ⟨rfl, rfl⟩
      (congrArg (· + 1) inv.count) inv.mapped (inv.at_of h) (by simp [Pc.holds])
  | refuse t h above =>
    exact inv.stay rfl (by simp [h]) ⟨rfl, rfl, rfl, rfl, rfl, rfl, rfl⟩ ⟨rfl, rfl⟩
      (congrArg (· + 1) inv.count) inv.mapped trivial (by simp [Pc.holds])
  | new t td userStack h unborn unused =>
    have hown : Own es s t := inv.at_of h
    have hne : t ≠ td := by
      rintro rfl
      rw [h] at unborn
      exact absurd unborn (by simp)
    refine inv.fresh (m := .created td userStack) rfl (by simp [h]) (.inr unborn) unused rfl
      ⟨rfl, rfl, rfl, rfl, rfl, rfl⟩ inv.count (congrArg (setRecord · td true) inv.mapped)
      ⟨⟨hown.1, ?_⟩, Function.update_self .., unborn_move unborn (by simp [h])⟩
      (by simp [Pc.holds, eq_comm])
    exact (Function.update_of_ne hne _ _).trans hown.2
  | userStack t td h =>
    obtain ⟨hown, hplace, hb⟩ := inv.at_of h
    exact inv.stay (m := .stacked td) rfl (by simp [h]) ⟨rfl, rfl, rfl, rfl, rfl, rfl, rfl⟩
      ⟨rfl, rfl⟩ inv.count inv.mapped ⟨hown, hplace, unborn_move hb (by simp [h])⟩
      (by simp [Pc.holds, h])
  | ownStack t td h =>
    obtain ⟨hown, hplace, hb⟩ := inv.at_of h
    exact inv.stay (m := .stacked td) rfl (by simp [h]) ⟨rfl, rfl, rfl, rfl, rfl, rfl, rfl⟩
      ⟨rfl, rfl⟩ inv.count (congrArg (Function.update · (.stack td) true) inv.mapped)
      ⟨hown, hplace, unborn_move hb (by simp [h])⟩ (by simp [Pc.holds, h])
  | add t td h free =>
    obtain ⟨hown, hplace, hb⟩ := inv.at_of h
    have hne : t ≠ td := by
      rintro rfl
      rw [h] at hb
      exact absurd hb (by simp)
    refine inv.push (m := .added td) rfl (by simp [h]) hplace (.inr ⟨hb, by simp [h, Pc.holds]⟩)
      free ⟨rfl, rfl⟩ rfl ⟨rfl, rfl, rfl, rfl⟩ inv.count inv.mapped
      ⟨⟨List.mem_cons_of_mem _ hown.1, ?_⟩, ⟨List.mem_cons_self, Function.update_self ..⟩,
        unborn_move hb (by simp [h])⟩ (by simp [Pc.holds, h])
    exact (Function.update_of_ne hne _ _).trans hown.2
  | spawn t td tid detached h =>
    obtain ⟨hown, htd, hb⟩ := inv.at_of h
    have hne : td ≠ t := by
      rintro rfl
      rw [h] at hb
      exact absurd hb (by simp)
    -- first the creator goes on, then the new thread starts
    have hcreator : Inv (.spawn t td tid :: es) (s.move t .user) :=
      inv.stay (m := .user) rfl (by simp [h]) ⟨rfl, rfl, rfl, rfl, rfl, rfl, rfl⟩ ⟨rfl, rfl⟩
        inv.count inv.mapped hown (by simp [Pc.holds])
    refine hcreator.update td (fun u hu => ?_) inv.list inv.staged inv.count inv.mapped inv.onList
      inv.onStaged ?_ ?_
    · refine ⟨Function.update_of_ne hu _ _, fun _ _ => rfl, fun x hx =>
        ⟨rfl, Function.update_of_ne ?_ _ _⟩, fun r _ hr => .inl hr, fun hl => ⟨hl, rfl⟩,
        fun hl => ⟨hl, rfl, fun _ _ => rfl⟩⟩
      rintro rfl
      by_cases hut : u = t
      · subst hut
        simp [State.move, Pc.holds] at hx
      · have hx' : (s.pc u).holds = some x := by
          simpa only [State.move, Function.update_of_ne hut] using hx
        exact hut (inv.alone u t x hx' (by simp [h, Pc.holds]))
    · simp only [Function.update_self]
      exact htd
    · simp [Pc.holds]
  | fail t td h =>
    obtain ⟨hown, htd, hb⟩ := inv.at_of h
    exact inv.stay (m := .failed td) rfl (by simp [h]) ⟨rfl, rfl, rfl, rfl, rfl, rfl, rfl⟩
      ⟨rfl, rfl⟩ inv.count inv.mapped ⟨hown, htd, unborn_move hb (by simp [h])⟩
      (by simp [Pc.holds, h])
  | failStack t td h ours =>
    obtain ⟨hown, htd, hb⟩ := inv.at_of h
    exact inv.stay (m := .failedFree td) rfl (by simp [h]) ⟨rfl, rfl, rfl, rfl, rfl, rfl, rfl⟩
      ⟨rfl, rfl⟩ inv.count (congrArg (Function.update · (.stack td) false) inv.mapped)
      ⟨hown, htd, unborn_move hb (by simp [h])⟩ (by simp [Pc.holds, h])
  | failNoStack t td h theirs =>
    obtain ⟨hown, htd, hb⟩ := inv.at_of h
    exact inv.stay (m := .failedFree td) rfl (by simp [h]) ⟨rfl, rfl, rfl, rfl, rfl, rfl, rfl⟩
      ⟨rfl, rfl⟩ inv.count inv.mapped ⟨hown, htd, unborn_move hb (by simp [h])⟩
      (by simp [Pc.holds, h])
  | failAssert t td h debug counted =>
    exact inv.stay (m := .abort) rfl (by simp [h]) ⟨rfl, rfl, rfl, rfl, rfl, rfl, rfl⟩
      ⟨rfl, rfl⟩ inv.count inv.mapped trivial (by simp [Pc.holds])
  | failFree t td h pass =>
    obtain ⟨hown, htd, hb⟩ := inv.at_of h
    have hne : t ≠ td := by
      rintro rfl
      rw [h] at hb
      exact absurd hb (by simp)
    have hkeep : ∀ r, r ≠ td → Function.update s.place td .released r = s.place r :=
      fun r hr => Function.update_of_ne hr _ _
    have holds : (s.pc t).holds = some td := by simp [h, Pc.holds]
    -- the record is released, but it is still on the thread list
    refine inv.update t (fun u hu => ?_) inv.list inv.staged inv.count
      (congrArg (setRecord · td false) inv.mapped) ?_ ?_ ?_ ?_
    · refine ⟨Function.update_of_ne hu _ _, fun hborn _ => hkeep u ?_, fun x hx =>
        ⟨hkeep x ?_, unborn_move (inv.held_unborn hx) (by simp [h]) |>.trans
          (inv.held_unborn hx).symm⟩, fun r _ hr => .inl hr, fun hl => ⟨hl, rfl⟩,
        fun hl => ⟨hl, rfl, fun _ _ => rfl⟩⟩
      · rintro rfl
        exact hborn hb
      · rintro rfl
        exact hu (inv.alone u t x hx holds)
    · intro r hr
      by_cases hrtd : r = td
      · exact .inr (by rw [hrtd]; exact Function.update_self ..)
      · have hold := inv.onList r hr
        rwa [← hkeep r hrtd] at hold
    · intro r
      by_cases hrtd : r = td
      · subst hrtd
        refine iff_of_false (fun hr => ?_) (by simp)
        have hplace := (inv.onStaged r).mp hr
        rw [htd.2] at hplace
        exact absurd hplace (by simp)
      · have hold := inv.onStaged r
        rwa [← hkeep r hrtd] at hold
    · simp only [State.move, Function.update_self]
      exact ⟨hown.1, (hkeep t hne).trans hown.2⟩
    · simp [State.move, Pc.holds]
  | walk t h free =>
    refine inv.lock (m := .walking s.head) rfl (by simp [h]) ⟨rfl, rfl, rfl, rfl, rfl⟩
      (.inr fun u _ => by simp [free]) (.inl rfl) inv.count inv.mapped ?_ rfl
    exact ⟨inv.at_of h, rfl, [], listed es, rfl, inv.list.head⟩
  | walkPop t u k h there =>
    exact inv.stay (m := .walking (some u)) (by rw [← h, Function.update_eq_self]) (by simp [h])
      ⟨rfl, rfl, rfl, rfl, rfl, rfl, rfl⟩ ⟨rfl, rfl⟩ inv.count inv.mapped (inv.at_of h) (by simp [Pc.holds])
  | walkNext t u h there =>
    obtain ⟨hown, hlock, a, b, hsplit, hcur⟩ := inv.at_of h
    obtain ⟨b, rfl⟩ := List.head?_eq_some_iff.mp hcur.symm
    obtain ⟨hsplit', hnext⟩ := split_next inv.list hsplit
    exact inv.stay (m := .walking (s.next u)) rfl (by simp [h]) ⟨rfl, rfl, rfl, rfl, rfl, rfl, rfl⟩
      ⟨rfl, rfl⟩ inv.count inv.mapped ⟨hown, hlock, a ++ [u], b, hsplit', hnext⟩
      (by simp [Pc.holds])
  | walkEnd t h =>
    obtain ⟨hown, hlock, -⟩ := inv.at_of h
    exact inv.lock (m := .user) rfl (by simp [h]) ⟨rfl, rfl, rfl, rfl, rfl⟩
      (.inr fun u hu => by rw [hlock]; simpa using Ne.symm hu) (.inl rfl) inv.count inv.mapped hown
      rfl
  | exit t h =>
    exact inv.stay (m := .exiting) rfl (by simp [h]) ⟨rfl, rfl, rfl, rfl, rfl, rfl, rfl⟩
      ⟨rfl, rfl⟩ inv.count inv.mapped (inv.at_of h) (by simp [Pc.holds])
  | removeHead t h free first =>
    have hown : Own es s t := inv.at_of h
    obtain ⟨l, hl⟩ := List.head?_eq_some_iff.mp (inv.list.head.symm.trans first)
    have hlist := inv.list
    rw [hl] at hlist
    refine inv.remove rfl hown (by simp [h]) ?_ inv.staged rfl (fun u _ => by simp [free])
      ⟨rfl, rfl⟩ inv.count inv.mapped
    rw [hl, List.erase_cons_head]
    exact hlist.pop
  | removeWalk t tmp h free first ne =>
    have hown : Own es s t := inv.at_of h
    obtain ⟨l, hl⟩ := List.head?_eq_some_iff.mp (inv.list.head.symm.trans first)
    have hmem : t ∈ l := by
      have := hown.1
      rw [hl] at this
      exact (List.mem_cons.mp this).resolve_left (Ne.symm ne)
    exact inv.lock (m := .removing tmp) rfl (by simp [h]) ⟨rfl, rfl, rfl, rfl, rfl⟩
      (.inr fun u _ => by simp [free]) (.inl rfl) inv.count inv.mapped
      ⟨hown, rfl, [], l, hl, hmem⟩ rfl
  | removeNone t h free first =>
    exact inv.stay (m := .crashed) rfl (by simp [h]) ⟨rfl, rfl, rfl, rfl, rfl, rfl, rfl⟩
      ⟨rfl, rfl⟩ inv.count inv.mapped trivial (by simp [Pc.holds])
  | removeNext t tmp u h there link ne =>
    obtain ⟨hown, hlock, a, b, hsplit, hmem⟩ := inv.at_of h
    obtain ⟨hsplit', hnext⟩ := split_next inv.list hsplit
    rw [link] at hnext
    obtain ⟨b, rfl⟩ := List.head?_eq_some_iff.mp hnext.symm
    exact inv.stay (m := .removing u) rfl (by simp [h]) ⟨rfl, rfl, rfl, rfl, rfl, rfl, rfl⟩
      ⟨rfl, rfl⟩ inv.count inv.mapped
      ⟨hown, hlock, a ++ [tmp], b, hsplit', (List.mem_cons.mp hmem).resolve_left (Ne.symm ne)⟩
      (by simp [Pc.holds])
  | removeLink t tmp h there link =>
    obtain ⟨hown, hlock, a, b, hsplit, hmem⟩ := inv.at_of h
    obtain ⟨-, hnext⟩ := split_next inv.list hsplit
    rw [link] at hnext
    obtain ⟨b, rfl⟩ := List.head?_eq_some_iff.mp hnext.symm
    have hlist := inv.list
    rw [hsplit] at hlist
    have herase : (listed es).erase t = a ++ tmp :: b := by
      have hnodup := hlist.nodup
      rw [hsplit, show a ++ tmp :: t :: b = (a ++ [tmp]) ++ t :: b by simp] at *
      rw [erase_middle hnodup]
      simp
    have htmp : tmp ∉ stagedRecords es := by
      rw [inv.onStaged]
      rcases inv.onList tmp (by simp [hsplit]) with hp | hp <;> simp [hp]
    exact inv.remove rfl hown (by simp [h]) (herase ▸ hlist.unlink) (inv.staged.update htmp _) rfl
      (fun u hu => by rw [hlock]; simpa using Ne.symm hu) ⟨rfl, rfl⟩ inv.count inv.mapped
  | removeLost t tmp h there link =>
    exact inv.stay (m := .crashed) rfl (by simp [h]) ⟨rfl, rfl, rfl, rfl, rfl, rfl, rfl⟩
      ⟨rfl, rfl⟩ inv.count inv.mapped trivial (by simp [Pc.holds])
  | decrRef t h =>
    refine inv.stay rfl (by simp [h]) ⟨rfl, rfl, rfl, rfl, rfl, rfl, rfl⟩ ⟨rfl, rfl⟩ inv.count
      inv.mapped ?_ ?_
    · split_ifs
      · exact inv.at_of h
      · trivial
    · split_ifs <;> simp [Pc.holds]
  | stage t h free =>
    have hplace : s.place t = .exiting := inv.at_of h
    have hkeep : ∀ r, r ≠ t → Function.update s.place t .staged r = s.place r :=
      fun r hr => Function.update_of_ne hr _ _
    have hout : t ∉ listed es := inv.not_listed (by simp [hplace]) (by simp [hplace])
    have hnot : t ∉ stagedRecords es := by
      rw [inv.onStaged, hplace]
      simp
    have hheld : ∀ u x, (s.pc u).holds = some x → x ≠ t := by
      rintro u x hx rfl
      have := inv.held_unborn hx
      rw [h] at this
      exact absurd this (by simp)
    refine inv.update t (fun u hu => ?_) (inv.list.update hout _) (inv.staged.push hnot) inv.count
      inv.mapped ?_ ?_ ?_ ?_
    · refine ⟨Function.update_of_ne hu _ _, fun _ _ => hkeep u hu, fun x hx =>
        ⟨hkeep x (hheld u x hx), Function.update_of_ne (hheld u x hx) _ _⟩, fun r _ hr => .inl hr,
        fun hl => ⟨hl, rfl⟩, fun hl => ?_⟩
      rw [free] at hl
      exact absurd hl (by simp)
    · intro r hr
      have hrt : r ≠ t := by
        rintro rfl
        exact hout hr
      have hold := inv.onList r hr
      rwa [← hkeep r hrt] at hold
    · intro r
      change r ∈ t :: stagedRecords es ↔ _
      by_cases hrt : r = t
      · subst hrt
        simp
      · have hold := inv.onStaged r
        rw [← hkeep r hrt] at hold
        rw [List.mem_cons, or_iff_right hrt]
        exact hold
    · simp only [State.move, Function.update_self]
      trivial
    · simp [State.move, Pc.holds]
  | uncount t h =>
    exact inv.stay (m := .leaving) rfl (by simp [h]) ⟨rfl, rfl, rfl, rfl, rfl, rfl, rfl⟩ ⟨rfl, rfl⟩
      (congrArg (· - 1) inv.count) inv.mapped trivial (by simp [Pc.holds])
  | leave t h =>
    exact inv.stay (m := .terminated) rfl (by simp [h]) ⟨rfl, rfl, rfl, rfl, rfl, rfl, rfl⟩
      ⟨rfl, rfl⟩ inv.count inv.mapped trivial (by simp [Pc.holds])
  | join t td h gone joinable =>
    exact inv.stay (m := .joined (s.tid td) (some td)) rfl (by simp [h])
      ⟨rfl, rfl, rfl, rfl, rfl, rfl, rfl⟩ ⟨rfl, rfl⟩ inv.count inv.mapped (inv.at_of h)
      (by simp [Pc.holds])
  | joinError t tid h =>
    exact inv.stay (m := .joined tid none) rfl (by simp [h]) ⟨rfl, rfl, rfl, rfl, rfl, rfl, rfl⟩
      ⟨rfl, rfl⟩ inv.count inv.mapped (inv.at_of h) (by simp [Pc.holds])
  | clean t tid target h free =>
    refine inv.lock (m := .cleaning tid target none s.tdStagedToFree) rfl (by simp [h])
      ⟨rfl, rfl, rfl, rfl, rfl⟩ (.inl rfl) (.inr fun u _ => by simp [free]) inv.count inv.mapped ?_
      rfl
    exact ⟨inv.at_of h, rfl, [], stagedRecords es, rfl, inv.staged.head, rfl, by simp⟩
  | cleanNext t tid target last u h there ne =>
    obtain ⟨hown, hlock, a, b, hsplit, hcur, hlast, hbefore⟩ := inv.at_of h
    obtain ⟨b, rfl⟩ := List.head?_eq_some_iff.mp hcur.symm
    obtain ⟨hsplit', hnext⟩ := split_next inv.staged hsplit
    refine inv.stay (m := .cleaning tid target (some u) (s.next u)) rfl (by simp [h])
      ⟨rfl, rfl, rfl, rfl, rfl, rfl, rfl⟩ ⟨rfl, rfl⟩ inv.count inv.mapped
      ⟨hown, hlock, a ++ [u], b, hsplit', hnext, by simp, ?_⟩ (by simp [Pc.holds])
    intro v hv
    rcases List.mem_append.mp hv with hv | hv
    · exact hbefore v hv
    · obtain rfl := List.mem_singleton.mp hv
      exact ne
  | cleanHead t tid target u h there found =>
    obtain ⟨hown, hlock, a, b, hsplit, hcur, hlast, -⟩ := inv.at_of h
    obtain rfl : a = [] := by simpa [eq_comm] using hlast
    obtain ⟨b, rfl⟩ := List.head?_eq_some_iff.mp hcur.symm
    rw [List.nil_append] at hsplit
    have hstaged := inv.staged
    rw [hsplit] at hstaged
    refine inv.unstage rfl hown (by simp [h]) (by simp [hsplit]) inv.list ?_ rfl hlock ⟨rfl, rfl⟩
      inv.count inv.mapped
    rw [hsplit, List.erase_cons_head]
    exact hstaged.pop
  | cleanLink t tid target last u h there found =>
    obtain ⟨hown, hlock, a, b, hsplit, hcur, hlast, -⟩ := inv.at_of h
    obtain ⟨a, rfl⟩ := List.getLast?_eq_some_iff.mp hlast.symm
    obtain ⟨b, rfl⟩ := List.head?_eq_some_iff.mp hcur.symm
    have hstaged := inv.staged
    have herase : (stagedRecords es).erase u = a ++ last :: b := by
      have hnodup := hstaged.nodup
      rw [hsplit] at hnodup ⊢
      rw [erase_middle hnodup]
      simp
    rw [hsplit, List.append_assoc, List.singleton_append] at hstaged
    have hplace : s.place last = .staged := (inv.onStaged last).mp (by simp [hsplit])
    have hout : last ∉ listed es := inv.not_listed (by simp [hplace]) (by simp [hplace])
    exact inv.unstage rfl hown (by simp [h]) (by simp [hsplit]) (inv.list.update hout _)
      (herase ▸ hstaged.unlink) rfl hlock ⟨rfl, rfl⟩ inv.count inv.mapped
  | cleanLost t tid target last h =>
    exact inv.stay (m := .crashed) rfl (by simp [h]) ⟨rfl, rfl, rfl, rfl, rfl, rfl, rfl⟩
      ⟨rfl, rfl⟩ inv.count inv.mapped trivial (by simp [Pc.holds])
  | cleanRace t target u h race =>
    exact inv.stay (m := .fatal) rfl (by simp [h]) ⟨rfl, rfl, rfl, rfl, rfl, rfl, rfl⟩
      ⟨rfl, rfl⟩ inv.count inv.mapped trivial (by simp [Pc.holds])
  | cleanStack t target u h quiet ours =>
    exact inv.stay (m := .freeing target u) rfl (by simp [h]) ⟨rfl, rfl, rfl, rfl, rfl, rfl, rfl⟩
      ⟨rfl, rfl⟩ inv.count (congrArg (Function.update · (.stack u) false) inv.mapped) (inv.at_of h)
      (by simp [Pc.holds])
  | cleanNoStack t target u h quiet theirs =>
    exact inv.stay (m := .freeing target u) rfl (by simp [h]) ⟨rfl, rfl, rfl, rfl, rfl, rfl, rfl⟩
      ⟨rfl, rfl⟩ inv.count inv.mapped (inv.at_of h) (by simp [Pc.holds])
  | cleanAssert t target u h debug counted =>
    exact inv.stay (m := .abort) rfl (by simp [h]) ⟨rfl, rfl, rfl, rfl, rfl, rfl, rfl⟩
      ⟨rfl, rfl⟩ inv.count inv.mapped trivial (by simp [Pc.holds])
  | cleanFree t target u h pass =>
    exact inv.stay (m := .user) rfl (by simp [h]) ⟨rfl, rfl, rfl, rfl, rfl, rfl, rfl⟩ ⟨rfl, rfl⟩
      inv.count (congrArg (setRecord · u false) inv.mapped) (inv.at_of h) (by simp [Pc.holds])
  | fault t u h gone =>
    have hborn : s.pc t ≠ .unborn := by
      intro hb
      simp [hb, Pc.reads] at h
    exact inv.stay (m := .crashed) rfl hborn ⟨rfl, rfl, rfl, rfl, rfl, rfl, rfl⟩
      ⟨rfl, rfl⟩ inv.count inv.mapped trivial (by simp [Pc.holds])

theorem inv_initial (main : R) (self tid : R → K) : Inv [] (initial main self tid) := by
  have hpc : ∀ t, (initial main self tid).pc t = .loading ∨
      (initial main self tid).pc t = .unborn := by
    intro t
    by_cases ht : t = main
    · left
      simp [initial, ht]
    · right
      simp [initial, ht]
  refine ⟨rfl, rfl, rfl, rfl, by simp [listed], fun r => ?_, fun t u td ht => ?_, fun t => ?_⟩
  · exact iff_of_false (by simp [stagedRecords]) (by simp [initial])
  · rcases hpc t with h | h <;> rw [h] at ht <;> simp [Pc.holds] at ht
  · rcases hpc t with h | h <;> rw [h]
    · rfl
    · trivial

theorem run_inv {ok : List (Event R K) → State R K → Event R K → Prop}
    (run : Run (system cfg) ok es s) : Inv es s := by
  refine run.invariant (I := Inv) ?_ fun _ _ _ _ _ inv _ move => inv.step move
  rintro s ⟨main, self, tid, rfl⟩
  exact inv_initial main self tid

end ThreadScan.Lifecycle
