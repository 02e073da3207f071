import ThreadScan.Compaction
import ThreadScan.Search
import ThreadScan.Transition

/-! The reclamation protocol (`threadscan.c`, with the list and exit routines it meets):
threads collect addresses, one of those that find their queue full becomes the reclaimer
and runs a round, and the signalled threads help it from their handlers. Every step below
is a step of one thread.

The reclaimer lock is held by at most one thread (`Timestamp`), and a queue is a FIFO list
(`Queue`) whose bulk pop takes what it saw at its read of the head index. A buffer belongs
to the thread that mapped it; an access outside of it stays with it. -/
namespace ThreadScan.Reclaim
open Transition Search Compaction Rearrangement ThreadScan.Sort

/-- MAX_THREAD_COUNT. -/
def maxThreadCount : ℕ := 256

/-- The build, and what `env_init` leaves in `g_threadscan_ptrs_per_thread`. -/
structure Config where
  debug : Bool
  ptrsPerThread : ℕ
  sized : ∃ k, 10 ≤ k ∧ k ≤ 15 ∧ ptrsPerThread = 2 ^ k

def Config.maxPtrs (cfg : Config) : ℕ := cfg.ptrsPerThread * maxThreadCount

theorem Config.ptrsPerThread_bounds (cfg : Config) :
    1024 ≤ cfg.ptrsPerThread ∧ cfg.ptrsPerThread ≤ 32768 := by
  obtain ⟨k, hk, hk', h⟩ := cfg.sized
  have hlow : 2 ^ 10 ≤ 2 ^ k := Nat.pow_le_pow_right (by omega) hk
  have hhigh : 2 ^ k ≤ 2 ^ 15 := Nat.pow_le_pow_right (by omega) hk'
  omega

/-- A thread from its record to its termination. `is_active` is set in `active` only; the
record is on the thread list in `born`, `active` and `exiting`. -/
inductive Life
  | unborn
  | born
  | active
  | exiting
  | removed
  | terminated
  deriving DecidableEq

/-- The two ranges a thread searches, in this order. -/
inductive Stage
  | stack
  | localBlock
  deriving DecidableEq

/-- Where a thread stands in `threadscan_collect` and `threadscan_reclaim`. -/
inductive Main (T : Type*)
  | idle
  | isFull
  | tryAcquire
  | assign
  | exchange
  | leftovers (blocks : List (List Word)) (n : ℕ)
  | lockQueues (n : ℕ)
  | popHead (rest : List T) (n : ℕ)
  | popTail (td : T) (rest : List T) (n popped : ℕ)
  | count (n : ℕ)
  | sort
  | scanMap
  | reset
  | lockSignal
  | signal (rest : List T) (sigCount : ℕ)
  | search (sigCount : ℕ) (stage : Stage) (scan : Scan)
  | wait (sigCount : ℕ)
  | release (count : ℕ)
  | verify (count : ℕ)
  | handle (count i writePosition : ℕ)
  | randomize (remaining : ℕ)
  | store (remaining : ℕ)
  | fatal (count : ℕ)

/-- Where a thread stands in `signal_handler`. -/
inductive Handler
  | search (stage : Stage) (scan : Scan)
  | count
  | tail

/-- `stack` is the words from a thread's stack pointer to its `user_stack_high`; what a thread
keeps above that end is not in it. `storage` is the chain of leftover blocks and `bufOwner` the
thread whose buffer `buf_addrs` is. `sorted` is a history variable: the list of the current round
as the sort left it. -/
@[ext] structure State (T : Type*) where
  main : T → Main T
  handler : T → Option Handler
  pending : T → ℕ
  life : T → Life
  stack : T → List Word
  localBlock : T → Option (List Word)
  queue : T → List Word
  buffer : T → Mem
  threadList : List T
  listLock : Option T
  lock : Option T
  selfStacksSearched : ℕ
  bufOwner : Option T
  nAddrs : ℕ
  bufScanMap : Mem
  nScanMap : ℤ
  storage : List (List Word)
  sorted : Mem

inductive Event (T : Type*)
  | push (t : T) (ptr : Word)
  | mutate (t : T) (stack : List Word) (localBlock : Option (List Word))
  | exchange (t : T)
  | count (t : T) (n : ℕ)
  | reset (t : T)
  | kill (t u : T)
  | searched (u : T)
  | leave (t : T)
  | release (t : T)
  | handle (t : T)
  | keep (t : T)
  | free (t : T) (ptr : Word)
  | activate (t : T) (stack : List Word)
  | exit (t : T)
  | other

variable {T : Type*} [DecidableEq T]

/-- `g_tsdata.buf_addrs`. -/
def bufAddrs (s : State T) : Mem :=
  match s.bufOwner with
  | some t => s.buffer t
  | none => fun _ => 0#64

/-- The fields of `g_tsdata` that a search reads. -/
def working (s : State T) : Working := ⟨bufAddrs s, s.nAddrs, s.bufScanMap, s.nScanMap⟩

/-- The buffers after a store through `g_tsdata.buf_addrs`. -/
def storeBuf (s : State T) (st : Option (ℤ × Word)) : T → Mem :=
  match s.bufOwner with
  | some t => Function.update s.buffer t (Search.store (s.buffer t) st)
  | none => s.buffer

/-- `threadscan_queue_is_full`, of the values a queue holds. -/
def threadscanQueueIsFull (cfg : Config) (queue : List Word) : Bool :=
  cfg.ptrsPerThread ≤ queue.length + 1

/-- The condition `assert_monotonicity` checks; optimised builds check nothing. -/
def assertMonotonicity (cfg : Config) (a : Mem) (n : ℕ) : Prop :=
  cfg.debug = true → ∀ i : ℕ, i < n → (if i = 0 then 0#64 else a (i - 1)) < a i

/-- What a thread searches after a stage: its local block follows its stack. -/
def nextStage (cfg : Config) (localBlock : Option (List Word)) : Stage → Option (Stage × Scan)
  | .stack => localBlock.map fun words => (.localBlock, searchRange cfg.debug words)
  | .localBlock => none

/-- The steps of `threadscan_collect` and `threadscan_reclaim` that only move the thread. -/
inductive Goto (cfg : Config) (s : State T) (t : T) : Main T → Main T → Prop
  | full (h : threadscanQueueIsFull cfg (s.queue t) = true) : Goto cfg s t .isFull .tryAcquire
  | notFull (h : threadscanQueueIsFull cfg (s.queue t) = false) : Goto cfg s t .isFull .idle
  | yield : Goto cfg s t .tryAcquire .isFull
  | drained (n : ℕ) : Goto cfg s t (.leftovers [] n) (.lockQueues n)
  | popHead (td : T) (rest : List T) (n : ℕ) :
      Goto cfg s t (.popHead (td :: rest) n)
        (.popTail td rest n (min (2 * cfg.maxPtrs - n) (s.queue td).length))
  | skip (td : T) (rest : List T) (c : ℕ) (h : td = t ∨ s.life td ≠ .active) :
      Goto cfg s t (.signal (td :: rest) c) (.signal rest c)
  | nextStage (c : ℕ) (stage stage' : Stage) (scan scan' : Scan) (h : scan.pc = .done)
      (next : nextStage cfg (s.localBlock t) stage = some (stage', scan')) :
      Goto cfg s t (.search c stage scan) (.search c stage' scan')
  | searched (c : ℕ) (stage : Stage) (scan : Scan) (h : scan.pc = .done)
      (next : nextStage cfg (s.localBlock t) stage = none) :
      Goto cfg s t (.search c stage scan) (.wait c)
  | verifyFail (n : ℕ) (h : ¬ assertMonotonicity cfg (s.buffer t) n) :
      Goto cfg s t (.verify n) (.fatal n)
  | handled (n w : ℕ) : Goto cfg s t (.handle n n w) (.randomize w)
  | storeNone : Goto cfg s t (.store 0) .isFull

inductive Step (cfg : Config) : State T → Event T → State T → Prop
  /-- `threadscan_collect` returns at once for NULL. -/
  | push (s : State T) (t : T) (ptr : Word) (h : s.main t = .idle) (run : s.handler t = none)
      (alive : s.life t = .active) (nonnull : ptr ≠ 0#64) :
      Step cfg s (.push t ptr) { s with
        queue := Function.update s.queue t (s.queue t ++ [ptr])
        main := Function.update s.main t .isFull }
  | goto (s : State T) (t : T) (m : Main T) (run : s.handler t = none)
      (h : Goto cfg s t (s.main t) m) :
      Step cfg s .other { s with main := Function.update s.main t m }
  | acquire (s : State T) (t : T) (h : s.main t = .tryAcquire) (run : s.handler t = none)
      (free : s.lock = none) :
      Step cfg s .other { s with
        lock := some t
        main := Function.update s.main t .assign }
  /-- A fresh mapping is zero; what lies around it is anything. -/
  | assign (s : State T) (t : T) (mem map : Mem) (h : s.main t = .assign)
      (run : s.handler t = none) (zero : ∀ i, 0 ≤ i → i < 2 * cfg.maxPtrs → mem i = 0#64) :
      Step cfg s .other { s with
        buffer := Function.update s.buffer t mem
        bufOwner := some t
        bufScanMap := map
        main := Function.update s.main t .exchange }
  | exchange (s : State T) (t : T) (h : s.main t = .exchange) (run : s.handler t = none) :
      Step cfg s (.exchange t) { s with
        storage := []
        main := Function.update s.main t (.leftovers s.storage 0) }
  /-- `add_to_buf_addrs`; an overflow of the address list is fatal. -/
  | leftover (s : State T) (t : T) (block : List Word) (blocks : List (List Word)) (n : ℕ)
      (h : s.main t = .leftovers (block :: blocks) n) (run : s.handler t = none)
      (fits : n + block.length ≤ 2 * cfg.maxPtrs) :
      Step cfg s .other { s with
        buffer := Function.update s.buffer t (memcpy (s.buffer t) n block)
        main := Function.update s.main t (.leftovers blocks (n + block.length)) }
  | lockQueues (s : State T) (t : T) (n : ℕ) (h : s.main t = .lockQueues n)
      (run : s.handler t = none) (free : s.listLock = none) :
      Step cfg s .other { s with
        listLock := some t
        main := Function.update s.main t (.popHead s.threadList n) }
  | popTail (s : State T) (t td : T) (rest : List T) (n k : ℕ)
      (h : s.main t = .popTail td rest n k) (run : s.handler t = none) :
      Step cfg s .other { s with
        buffer := Function.update s.buffer t (memcpy (s.buffer t) n ((s.queue td).take k))
        queue := Function.update s.queue td ((s.queue td).drop k)
        main := Function.update s.main t (.popHead rest (n + ((s.queue td).take k).length)) }
  | unlockQueues (s : State T) (t : T) (n : ℕ) (h : s.main t = .popHead [] n)
      (run : s.handler t = none) :
      Step cfg s .other { s with
        listLock := none
        main := Function.update s.main t (.count n) }
  | count (s : State T) (t : T) (n : ℕ) (h : s.main t = .count n) (run : s.handler t = none) :
      Step cfg s (.count t n) { s with
        nAddrs := n
        main := Function.update s.main t .sort }
  | sort (s : State T) (t : T) (h : s.main t = .sort) (run : s.handler t = none) :
      Step cfg s .other { s with
        buffer := Function.update s.buffer t (threadscanUtilSort (s.buffer t) s.nAddrs)
        sorted := threadscanUtilSort (s.buffer t) s.nAddrs
        main := Function.update s.main t .scanMap }
  | scanMap (s : State T) (t : T) (h : s.main t = .scanMap) (run : s.handler t = none) :
      Step cfg s .other { s with
        bufScanMap := (generateScanMap (s.buffer t) s.nAddrs s.bufScanMap).1
        nScanMap := (generateScanMap (s.buffer t) s.nAddrs s.bufScanMap).2
        main := Function.update s.main t .reset }
  | reset (s : State T) (t : T) (h : s.main t = .reset) (run : s.handler t = none) :
      Step cfg s (.reset t) { s with
        selfStacksSearched := 0
        main := Function.update s.main t .lockSignal }
  | lockSignal (s : State T) (t : T) (h : s.main t = .lockSignal) (run : s.handler t = none)
      (free : s.listLock = none) :
      Step cfg s .other { s with
        listLock := some t
        main := Function.update s.main t (.signal s.threadList 0) }
  /-- `pthread_kill` of an active thread, which exists: the signal is counted. -/
  | kill (s : State T) (t td : T) (rest : List T) (c : ℕ)
      (h : s.main t = .signal (td :: rest) c) (run : s.handler t = none) (ne : td ≠ t)
      (active : s.life td = .active) :
      Step cfg s (.kill t td) { s with
        pending := Function.update s.pending td (s.pending td + 1)
        main := Function.update s.main t (.signal rest (c + 1)) }
  | unlockSignal (s : State T) (t : T) (c : ℕ) (h : s.main t = .signal [] c)
      (run : s.handler t = none) :
      Step cfg s .other { s with
        listLock := none
        main := Function.update s.main t (.search c .stack (searchRange cfg.debug (s.stack t))) }
  | search (s : State T) (t : T) (c : ℕ) (stage : Stage) (scan : Scan)
      (h : s.main t = .search c stage scan) (run : s.handler t = none) :
      Step cfg s .other { s with
        buffer := storeBuf s (searchNext cfg.debug (working s) scan).2
        main := Function.update s.main t
          (.search c stage (searchNext cfg.debug (working s) scan).1) }
  | leave (s : State T) (t : T) (c : ℕ) (h : s.main t = .wait c) (run : s.handler t = none)
      (all : c ≤ s.selfStacksSearched) :
      Step cfg s (.leave t) { s with main := Function.update s.main t (.release s.nAddrs) }
  | release (s : State T) (t : T) (n : ℕ) (h : s.main t = .release n) (run : s.handler t = none) :
      Step cfg s (.release t) { s with
        lock := none
        main := Function.update s.main t (.verify n) }
  | verify (s : State T) (t : T) (n : ℕ) (h : s.main t = .verify n) (run : s.handler t = none)
      (mono : assertMonotonicity cfg (s.buffer t) n) :
      Step cfg s (.handle t) { s with main := Function.update s.main t (.handle n 0 0) }
  | keep (s : State T) (t : T) (n i w : ℕ) (h : s.main t = .handle n i w)
      (run : s.handler t = none) (more : i < n)
      (kept : (handleEntry (s.buffer t) i w).2.2 = none) :
      Step cfg s (.keep t) { s with
        buffer := Function.update s.buffer t (handleEntry (s.buffer t) i w).1
        main := Function.update s.main t
          (.handle n (i + 1) (handleEntry (s.buffer t) i w).2.1) }
  | free (s : State T) (t : T) (n i w : ℕ) (ptr : Word) (h : s.main t = .handle n i w)
      (run : s.handler t = none) (more : i < n)
      (freed : (handleEntry (s.buffer t) i w).2.2 = some ptr) :
      Step cfg s (.free t ptr) { s with
        buffer := Function.update s.buffer t (handleEntry (s.buffer t) i w).1
        main := Function.update s.main t
          (.handle n (i + 1) (handleEntry (s.buffer t) i w).2.1) }
  | randomize (s : State T) (t : T) (n : ℕ) (h : s.main t = .randomize n)
      (run : s.handler t = none) :
      Step cfg s .other { s with
        buffer := Function.update s.buffer t (threadscanUtilRandomize (s.buffer t) n)
        main := Function.update s.main t (.store n) }
  /-- `store_remaining_addrs` publishes its block; running out of space is fatal. -/
  | store (s : State T) (t : T) (n : ℕ) (h : s.main t = .store n) (run : s.handler t = none)
      (some : n ≠ 0) (fits : n + 2 ≤ 2 * cfg.maxPtrs) :
      Step cfg s .other { s with
        storage := storeRemainingAddrs (s.buffer t) n :: s.storage
        main := Function.update s.main t .isFull }
  | enterHandler (s : State T) (u : T) (run : s.handler u = none) (signal : 0 < s.pending u) :
      Step cfg s .other { s with
        pending := Function.update s.pending u (s.pending u - 1)
        handler := Function.update s.handler u
          (some (.search .stack (searchRange cfg.debug (s.stack u)))) }
  | helperSearch (s : State T) (u : T) (stage : Stage) (scan : Scan)
      (h : s.handler u = some (.search stage scan)) :
      Step cfg s .other { s with
        buffer := storeBuf s (searchNext cfg.debug (working s) scan).2
        handler := Function.update s.handler u
          (some (.search stage (searchNext cfg.debug (working s) scan).1)) }
  | helperNext (s : State T) (u : T) (stage stage' : Stage) (scan scan' : Scan)
      (h : s.handler u = some (.search stage scan)) (done : scan.pc = .done)
      (next : nextStage cfg (s.localBlock u) stage = some (stage', scan')) :
      Step cfg s .other { s with
        handler := Function.update s.handler u (some (.search stage' scan')) }
  | helperDone (s : State T) (u : T) (stage : Stage) (scan : Scan)
      (h : s.handler u = some (.search stage scan)) (done : scan.pc = .done)
      (next : nextStage cfg (s.localBlock u) stage = none) :
      Step cfg s .other { s with handler := Function.update s.handler u (some .count) }
  | helperCount (s : State T) (u : T) (h : s.handler u = some .count) :
      Step cfg s (.searched u) { s with
        selfStacksSearched := s.selfStacksSearched + 1
        handler := Function.update s.handler u (some .tail) }
  | helperTail (s : State T) (u : T) (h : s.handler u = some .tail) :
      Step cfg s .other { s with handler := Function.update s.handler u none }
  /-- User code rewrites the memory that its thread is scanned for. -/
  | mutate (s : State T) (t : T) (stack : List Word) (block : Option (List Word))
      (alive : s.life t = .active) (run : s.handler t = none)
      (still : ∀ c stage scan, s.main t ≠ .search c stage scan) :
      Step cfg s (.mutate t stack block) { s with
        stack := Function.update s.stack t stack
        localBlock := Function.update s.localBlock t block }
  | create (s : State T) (t : T) (h : s.life t = .unborn) (free : s.listLock = none) :
      Step cfg s .other { s with
        life := Function.update s.life t .born
        threadList := t :: s.threadList }
  | activate (s : State T) (t : T) (stack : List Word) (h : s.life t = .born) :
      Step cfg s (.activate t stack) { s with
        life := Function.update s.life t .active
        stack := Function.update s.stack t stack
        localBlock := Function.update s.localBlock t none }
  | exit (s : State T) (t : T) (h : s.life t = .active) (run : s.handler t = none)
      (user : s.main t = .idle) :
      Step cfg s (.exit t) { s with life := Function.update s.life t .exiting }
  | remove (s : State T) (t : T) (h : s.life t = .exiting) (run : s.handler t = none)
      (free : s.listLock = none) :
      Step cfg s .other { s with
        life := Function.update s.life t .removed
        threadList := s.threadList.erase t }
  /-- A counted signal leads to a run of the handler before its target terminates. -/
  | terminate (s : State T) (t : T) (h : s.life t = .removed) (run : s.handler t = none)
      (none : s.pending t = 0) :
      Step cfg s .other { s with life := Function.update s.life t .terminated }

/-- The library as it is loaded: no thread is registered, `self_stacks_searched` is 1. -/
def initial (bufScanMap : Mem) : State T where
  main _ := .idle
  handler _ := none
  pending _ := 0
  life _ := .unborn
  stack _ := []
  localBlock _ := none
  queue _ := []
  buffer _ _ := 0#64
  threadList := []
  listLock := none
  lock := none
  selfStacksSearched := 1
  bufOwner := none
  nAddrs := 0
  bufScanMap := bufScanMap
  nScanMap := 0
  storage := []
  sorted _ := 0#64

def system (cfg : Config) : System (State T) (Event T) where
  init s := ∃ map, s = initial map
  step := Step cfg

end ThreadScan.Reclaim
