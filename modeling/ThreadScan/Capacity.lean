import ThreadScan.Bookkeeping
import ThreadScan.Progress
import ThreadScan.Tally

/-! The room of a working buffer (`threadscan.c`). `register_signal_handlers` reserves
`2 * max_ptrs` entries for the list of a round and a page-aligned rest for its scan map.
A round fills its list from the storage and from the queues, and what remains of the list
goes back to the storage in the same buffer. -/
namespace ThreadScan.Capacity
open Transition Search Compaction Rearrangement Reclaim Handshake Bookkeeping Progress Tally

variable {T : Type*} [DecidableEq T] {cfg : Config}
  {ok : List (Event T) → State T → Event T → Prop} {es : List (Event T)} {s s' : State T}

/-! ### The sizes -/

/-- PAGESIZE. -/
def pageSize : Word := 0x1000#64

/-- What `register_signal_handlers` leaves in `g_tsdata`. -/
structure Layout where
  maxPtrs : BitVec 32
  workingBufferSz : Word
  offset : Word

/-- The size of the scan map: an `int` that is computed in `size_t`. -/
def scanMapSize (maxPtrs : BitVec 32) : BitVec 32 :=
  let size : BitVec 32 := ((2#32 * maxPtrs).signExtend 64 * 8#64 * 8#64 / pageSize).setWidth 32
  if size.signExtend 64 % pageSize ≠ 0#64 then
    let size : BitVec 32 := (size.signExtend 64 + pageSize).setWidth 32
    (size.signExtend 64 &&& ~~~(pageSize - 1#64)).setWidth 32
  else size

def registerSignalHandlers (ptrsPerThread : BitVec 32) : Layout :=
  let maxPtrs := ptrsPerThread * BitVec.ofNat 32 maxThreadCount
  let size : Word := maxPtrs.signExtend 64 * 8#64 * 2#64
  { maxPtrs := maxPtrs
    workingBufferSz := size + (scanMapSize maxPtrs).signExtend 64
    offset := size }

def layout (cfg : Config) : Layout :=
  registerSignalHandlers (BitVec.ofNat 32 cfg.ptrsPerThread)

/-- A layout for lists of `2 * n` entries: the list ends where the scan map starts, the scan
map has an entry for every page of the list, and the buffer is made of whole pages. -/
structure Fitted (n : ℕ) (l : Layout) : Prop where
  maxPtrs : l.maxPtrs.toNat = n
  list : 8 * (2 * n) = l.offset.toNat
  scanMap : l.offset.toNat + 8 * ((2 * n + 511) / 512) ≤ l.workingBufferSz.toNat
  pages : l.workingBufferSz.toNat % pageSize.toNat = 0
  small : 2 * n ≤ 2 ^ 24

theorem layout_fitted (cfg : Config) : Fitted cfg.maxPtrs (layout cfg) := by
  rcases cfg with ⟨debug, ptrs, k, hk, hk', rfl⟩
  simp only [layout, Config.maxPtrs, maxThreadCount]
  interval_cases k <;> exact ⟨by decide, by decide, by decide, by decide, by decide⟩

/-! ### The entries -/

/-- The entries of the working list of a reclaimer. -/
def entries (m : Main T) (nAddrs : ℕ) : ℕ :=
  match m with
  | .leftovers blocks n => n + blocks.flatten.length
  | .lockQueues n | .popHead _ n | .popTail _ _ n _ | .count n => n
  | .sort | .scanMap | .reset | .lockSignal | .signal _ _ | .search _ _ _ | .wait _ => nAddrs
  | .release n | .verify n | .fatal n => n
  | .handle n i w => w + (n - i)
  | .randomize n | .store n => n
  | .idle | .isFull | .tryAcquire | .assign | .exchange => 0

/-- The entries of a place. -/
def slots (s : State T) : Place T → ℕ
  | .queue t => (s.queue t).length
  | .list t => entries (s.main t) s.nAddrs
  | .storage => s.storage.flatten.length

omit [DecidableEq T] in
theorem slots_eq (s : State T) (p : Place T) : slots s p = (place s p).length := by
  cases p with
  | queue t => rfl
  | storage => rfl
  | list t =>
    simp only [slots, place]
    cases s.main t <;> simp [entries, workingList, contents_length, pendingEntries]

/-- How many addresses have been collected and not been freed since. No address is freed by
`free` of a null pointer. -/
def outstanding : List (Event T) → ℕ
  | [] => 0
  | .push _ _ :: es => outstanding es + 1
  | .free _ a :: es => if a = 0#64 then outstanding es else outstanding es - 1
  | _ :: es => outstanding es

/-- The places hold no more than is outstanding. -/
def Tallied (es : List (Event T)) (s : State T) : Prop := Within (slots s) (outstanding es)

theorem slots_move {t : T} {m : Main T} (hm : s'.main = Function.update s.main t m)
    (hq : s'.queue = s.queue) (hs : s'.storage = s.storage) (hn : s'.nAddrs = s.nAddrs)
    {p : Place T} (hp : p ≠ .list t) : slots s' p = slots s p := by
  cases p with
  | queue u => simp only [slots, hq]
  | storage => simp only [slots, hs]
  | list u =>
    have hu : u ≠ t := fun he => hp (he ▸ rfl)
    simp only [slots, hm, hn, Function.update_of_ne hu]

theorem slots_stay {t : T} {m : Main T} (hm : s'.main = Function.update s.main t m)
    (hq : s'.queue = s.queue) (hs : s'.storage = s.storage) (hn : s'.nAddrs = s.nAddrs)
    (he : entries m s.nAddrs = entries (s.main t) s.nAddrs) : slots s' = slots s := by
  funext p
  by_cases hp : p = .list t
  · subst hp
    simp only [slots, hm, hn, Function.update_self, he]
  · exact slots_move hm hq hs hn hp

theorem slots_freed {t : T} {m : Main T} {n : ℕ} (h : Within (slots s) n)
    (hm : s'.main = Function.update s.main t m) (hq : s'.queue = s.queue)
    (hs : s'.storage = s.storage) (hn : s'.nAddrs = s.nAddrs)
    (he : entries (s.main t) s.nAddrs = entries m s.nAddrs + 1) : Within (slots s') (n - 1) := by
  refine h.given (p := .list t) ?_ fun p hp => slots_move hm hq hs hn hp
  simp only [slots, hm, hn, Function.update_self, he]

omit [DecidableEq T] in
theorem goto_entries {t : T} {m m' : Main T} (h : Goto cfg s t m m') (n : ℕ) :
    entries m' n = entries m n := by
  cases h <;> simp [entries]

/-- Where an entry is marked the compaction moves on with its write position. -/
theorem handleEntry_keeps {a : Mem} {i w : ℕ} (h : (handleEntry a i w).2.2 = none) :
    (handleEntry a i w).2.1 = w + 1 := by
  unfold handleEntry at h ⊢
  split_ifs at h ⊢
  rfl

theorem handleEntry_gives {a : Mem} {i w : ℕ} {ptr : Word}
    (h : (handleEntry a i w).2.2 = some ptr) : (handleEntry a i w).2.1 = w := by
  unfold handleEntry at h ⊢
  split_ifs at h ⊢
  rfl

/-- Every step leaves the entries where they are, moves some of them to another place, or
counts what it takes in and frees. -/
theorem Tallied.step (inv : Tallied es s) (run : Run (system cfg) ok es s) {e : Event T}
    (move : Step cfg s e s') : Tallied (e :: es) s' := by
  have hstay : slots s' = slots s → outstanding (e :: es) = outstanding es →
      Tallied (e :: es) s' := by
    intro hslots hout
    simpa only [Tallied, hslots, hout] using inv
  cases move with
  | push t ptr ht =>
    refine inv.taken (p := .queue t) ?_ ?_
    · simp [slots]
    · rintro (u | u | _) hu
      · have hne : u ≠ t := fun he => hu (he ▸ rfl)
        simp only [slots, Function.update_of_ne hne]
      · by_cases hut : u = t
        · subst hut
          simp [slots, ht, entries]
        · simp only [slots, Function.update_of_ne hut]
      · rfl
  | goto t m _ hg => exact hstay (slots_stay rfl rfl rfl rfl (goto_entries hg _)) rfl
  | exchange t ht =>
    refine inv.moved (p := .storage) (q := .list t) (k := s.storage.flatten.length) (by simp)
      ?_ ?_ ?_
    · simp [slots]
    · simp [slots, ht, entries]
    · rintro (u | u | _) h₁ h₂
      · rfl
      · have hne : u ≠ t := fun he => h₂ (he ▸ rfl)
        simp only [slots, Function.update_of_ne hne]
      · exact absurd rfl h₁
  | leftover t block blocks n ht =>
    refine hstay (slots_stay rfl rfl rfl rfl ?_) rfl
    rw [ht]
    simp [entries, Nat.add_assoc]
  | popTail t td rest n k ht =>
    refine inv.moved (p := .queue td) (q := .list t) (k := ((s.queue td).take k).length) (by simp)
      ?_ ?_ ?_
    · simp [slots]
      omega
    · simp [slots, ht, entries]
    · rintro (u | u | _) h₁ h₂
      · have hne : u ≠ td := fun he => h₁ (he ▸ rfl)
        simp only [slots, Function.update_of_ne hne]
      · have hne : u ≠ t := fun he => h₂ (he ▸ rfl)
        simp only [slots, Function.update_of_ne hne]
      · rfl
  | count t n ht =>
    -- nobody else reads the count of the list
    refine hstay ?_ rfl
    funext p
    rcases p with u | u | _
    · rfl
    · by_cases hut : u = t
      · subst hut
        simp [slots, ht, entries]
      · have haway : phase (s.main u) = .away := by
          by_contra hne
          exact hut (alone run hne (by simp [ht, phase]))
        simp only [slots, Function.update_of_ne hut]
        generalize s.main u = m at haway
        cases m <;> first | rfl | cases haway
    · rfl
  | keep t n i w ht _ more kept =>
    refine hstay (slots_stay rfl rfl rfl rfl ?_) rfl
    rw [ht, handleEntry_keeps kept]
    simp only [entries]
    omega
  | free t n i w ptr ht _ more freed =>
    rw [Tallied]
    refine Within.mono (slots_freed inv rfl rfl rfl rfl ?_) ?_
    · rw [ht, handleEntry_gives freed]
      simp only [entries]
      omega
    · simp only [outstanding]
      split_ifs <;> omega
  | store t n ht =>
    refine inv.moved (p := .list t) (q := .storage) (k := n) (by simp) ?_ ?_ ?_
    · simp [slots, ht, entries]
    · simp [slots, storeRemainingAddrs, Nat.add_comm]
    · rintro (u | u | _) h₁ h₂
      · rfl
      · have hne : u ≠ t := fun he => h₁ (he ▸ rfl)
        simp only [slots, Function.update_of_ne hne]
      · exact absurd rfl h₂
  | acquire t ht | assign t _ _ ht | lockQueues t _ ht | unlockQueues t _ ht | sort t ht
  | scanMap t ht | reset t ht | lockSignal t ht | kill t _ _ _ ht | unlockSignal t _ ht
  | search t _ _ _ ht | leave t _ ht | release t _ ht | randomize t _ ht =>
    exact hstay (slots_stay rfl rfl rfl rfl (by rw [ht]; rfl)) rfl
  | verify t n ht =>
    refine hstay (slots_stay rfl rfl rfl rfl ?_) rfl
    rw [ht]
    simp [entries]
  | _ => exact hstay rfl rfl

theorem run_tallied (run : Run (system cfg) ok es s) : Tallied es s := by
  refine run.invariant (I := fun es s => Tallied es s) ?_
    fun _ _ _ _ run inv _ move => inv.step run move
  rintro s ⟨map, rfl⟩
  have hnone : slots (initial map : State T) = fun _ => 0 := by
    funext p
    cases p <;> rfl
  rw [Tallied, hnone]
  exact within_zero

/-! ### The room -/

/-- A list, and the blocks that it still takes in. -/
def Room (cfg : Config) : Main T → Prop
  | .leftovers blocks n => n ≤ 2 * cfg.maxPtrs ∧ ∀ b ∈ blocks, b.length + 2 ≤ 2 * cfg.maxPtrs
  | .popTail _ _ n k => n + k ≤ 2 * cfg.maxPtrs
  | .lockQueues n | .popHead _ n | .count n | .release n | .verify n | .fatal n | .handle n _ _
  | .randomize n | .store n => n ≤ 2 * cfg.maxPtrs
  | _ => True

/-- Lists do not outgrow a working buffer, and blocks leave room for their header. -/
structure Roomy (cfg : Config) (s : State T) : Prop where
  list : ∀ t, Room cfg (s.main t)
  nAddrs : s.nAddrs ≤ 2 * cfg.maxPtrs
  storage : ∀ b ∈ s.storage, b.length + 2 ≤ 2 * cfg.maxPtrs

theorem Roomy.move (h : Roomy cfg s) {t : T} {m : Main T}
    (hm : s'.main = Function.update s.main t m) (room : Room cfg m)
    (hn : s'.nAddrs ≤ 2 * cfg.maxPtrs) (hs : ∀ b ∈ s'.storage, b.length + 2 ≤ 2 * cfg.maxPtrs) :
    Roomy cfg s' := by
  refine ⟨fun u => ?_, hn, hs⟩
  rw [hm]
  by_cases hu : u = t
  · rw [hu, Function.update_self]
    exact room
  · rw [Function.update_of_ne hu]
    exact h.list u

omit [DecidableEq T] in
theorem Room.goto (run : Compacting s) {t : T} {m : Main T} (room : Room cfg (s.main t))
    (h : Goto cfg s t (s.main t) m) : Room cfg m := by
  have hpos := run t
  generalize s.main t = m₀ at h hpos room
  cases h with
  | drained n => exact room.1
  | popHead td rest n =>
    simp only [Room] at room ⊢
    omega
  | verifyFail n => exact room
  | handled n w =>
    have hw := hpos n n w rfl
    simp only [Room] at room ⊢
    omega
  | _ => trivial

theorem Roomy.step (inv : Roomy cfg s) (run : Run (system cfg) ok es s) {e : Event T}
    (move : Step cfg s e s') : Roomy cfg s' := by
  have hlist := inv.list
  cases move with
  | goto t m _ hg =>
    exact inv.move rfl (Room.goto (run_compacting run) (hlist t) hg) inv.nAddrs inv.storage
  | exchange t ht => exact inv.move rfl ⟨Nat.zero_le _, inv.storage⟩ inv.nAddrs (by simp)
  | leftover t block blocks n ht _ fits =>
    have hroom := hlist t
    rw [ht] at hroom
    exact inv.move rfl ⟨fits, fun b hb => hroom.2 b (List.mem_cons_of_mem _ hb)⟩ inv.nAddrs
      inv.storage
  | lockQueues t n ht | unlockQueues t n ht | randomize t n ht | release t n ht =>
    have hroom := hlist t
    rw [ht] at hroom
    exact inv.move rfl hroom inv.nAddrs inv.storage
  | popTail t td rest n k ht =>
    have hroom := hlist t
    rw [ht] at hroom
    refine inv.move rfl ?_ inv.nAddrs inv.storage
    simp only [Room, List.length_take] at hroom ⊢
    omega
  | count t n ht =>
    have hroom := hlist t
    rw [ht] at hroom
    exact inv.move rfl trivial hroom inv.storage
  | leave t c ht => exact inv.move rfl inv.nAddrs inv.nAddrs inv.storage
  | verify t n ht =>
    have hroom := hlist t
    rw [ht] at hroom
    exact inv.move rfl hroom inv.nAddrs inv.storage
  | keep t n i w ht | free t n i w _ ht =>
    have hroom := hlist t
    rw [ht] at hroom
    exact inv.move rfl hroom inv.nAddrs inv.storage
  | store t n ht _ _ fits =>
    refine inv.move rfl trivial inv.nAddrs fun b hb => ?_
    rcases List.mem_cons.mp hb with rfl | hb
    · simpa [storeRemainingAddrs] using fits
    · exact inv.storage b hb
  | push | acquire | assign | sort | scanMap | reset | lockSignal | kill | unlockSignal | search =>
    exact inv.move rfl trivial inv.nAddrs inv.storage
  | _ => exact ⟨hlist, inv.nAddrs, inv.storage⟩

theorem run_roomy (run : Run (system cfg) ok es s) : Roomy cfg s := by
  refine run.invariant (I := fun _ s => Roomy cfg s) ?_
    fun _ _ _ _ run inv _ move => inv.step run move
  rintro s ⟨map, rfl⟩
  exact ⟨fun _ => trivial, Nat.zero_le _, by simp [initial]⟩

/-! ### What is written -/

/-- The indices of the scan map that the loop of `generate_scan_map` writes. -/
def scanMapWrites (nAddrs i n : ℤ) : List ℤ :=
  if i < nAddrs then n :: scanMapWrites nAddrs (i + pageWords) (n + 1) else []
termination_by (nAddrs - i).toNat
decreasing_by simp [pageWords]; omega

/-- It writes nothing else. -/
theorem scanMapLoop_other (a : Mem) {nAddrs i n : ℤ} (map : Mem) {j : ℤ}
    (h : j ∉ scanMapWrites nAddrs i n) : (scanMapLoop a nAddrs i n map).1 j = map j := by
  fun_induction scanMapLoop a nAddrs i n map with
  | case1 i n map hi ih =>
    rw [scanMapWrites, if_pos hi, List.mem_cons, not_or] at h
    rw [ih h.2, Function.update_of_ne h.1]
  | case2 i n map hi => rfl

theorem mem_scanMapWrites {nAddrs i n j : ℤ} (h : j ∈ scanMapWrites nAddrs i n) :
    n ≤ j ∧ i + pageWords * (j - n) < nAddrs := by
  fun_induction scanMapWrites nAddrs i n with
  | case1 i n hi ih =>
    rcases List.mem_cons.mp h with rfl | h
    · simpa using hi
    · have hj := ih h
      simp only [pageWords] at hj ⊢
      omega
  | case2 i n hi => simp at h

/-- The entries of `buf_addrs` that the next step of a thread copies to: in
`add_to_buf_addrs` once its check is passed, in `threadscan_queue_pop_bulk`, and in
`store_remaining_addrs` once its check is passed. -/
inductive Copies (cfg : Config) (s : State T) (t : T) : ℕ → Prop
  | leftover (block : List Word) (blocks : List (List Word)) (n i : ℕ)
      (h : s.main t = .leftovers (block :: blocks) n) (fits : ¬ n + block.length > 2 * cfg.maxPtrs)
      (lt : i < block.length) : Copies cfg s t (n + i)
  | popped (td : T) (rest : List T) (n k i : ℕ) (h : s.main t = .popTail td rest n k)
      (lt : i < k) : Copies cfg s t (n + i)
  | relocated (n i : ℕ) (h : s.main t = .store n) (some : n ≠ 0)
      (fits : ¬ n + 2 > 2 * cfg.maxPtrs) (lt : i < 2) : Copies cfg s t (n + i)

/-- "overflowed address list" -/
def Overflowed (cfg : Config) (m : Main T) : Prop :=
  ∃ block blocks n, m = .leftovers (block :: blocks) n ∧ n + block.length > 2 * cfg.maxPtrs

/-- "Ran out of storage space" -/
def RanOut (cfg : Config) (m : Main T) : Prop :=
  ∃ n, m = .store n ∧ n ≠ 0 ∧ n + 2 > 2 * cfg.maxPtrs

/-- The internal errors are not reached, every write goes to the room that is reserved for it,
and what is added to a list or passed to a bulk pop is what the types of C make of it. -/
structure Capacious (cfg : Config) (es : List (Event T)) (s : State T) : Prop where
  errors : outstanding es ≤ 2 * cfg.maxPtrs - 2 →
    ∀ t, ¬ Overflowed cfg (s.main t) ∧ ¬ RanOut cfg (s.main t)
  copies : ∀ t i, Copies cfg s t i →
    i < 2 * cfg.maxPtrs ∧ 8 * (i + 1) ≤ (layout cfg).offset.toNat
  scanMap : ∀ t, s.main t = .scanMap → ∀ i ∈ scanMapWrites s.nAddrs 0 0,
    0 ≤ i ∧ (layout cfg).offset.toNat + 8 * (i + 1) ≤ (layout cfg).workingBufferSz.toNat
  sum : ∀ t block blocks n, s.main t = .leftovers (block :: blocks) n →
    n + block.length < 2 ^ 31
  length : ∀ t td rest n, s.main t = .popHead (td :: rest) n →
    (0 : ℤ) ≤ cfg.maxPtrs * 2 - n

/-- In every run no error is reached as long as at most `2 * max_ptrs - 2` addresses are
outstanding, and no write leaves its part of the working buffer in any case. -/
theorem working_buffer_capacity (cfg : Config) (es : List (Event T)) (s : State T)
    (run : Run (system cfg) anyEvent es s) :
    Fitted cfg.maxPtrs (layout cfg) ∧ Capacious cfg es s := by
  have fitted := layout_fitted cfg
  have roomy := run_roomy run
  have hlarge : 2 ≤ 2 * cfg.maxPtrs := by
    have hlarge := cfg.ptrsPerThread_bounds.1
    simp only [Config.maxPtrs, maxThreadCount]
    omega
  have hcount : ∀ t, entries (s.main t) s.nAddrs ≤ outstanding es :=
    fun t => (run_tallied run).one (.list t)
  refine ⟨fitted, fun hmost t => ⟨?_, ?_⟩, ?_, ?_, ?_, ?_⟩
  · rintro ⟨block, blocks, n, ht, hover⟩
    have hin := hcount t
    rw [ht] at hin
    simp only [entries, List.flatten_cons, List.length_append] at hin
    omega
  · rintro ⟨n, ht, -, hover⟩
    have hin := hcount t
    rw [ht] at hin
    simp only [entries] at hin
    omega
  · intro t i hi
    have hlist := fitted.list
    have hlt : i < 2 * cfg.maxPtrs := by
      cases hi with
      | leftover block blocks n i ht fits lt => omega
      | popped td rest n k i ht lt =>
        have hroom := roomy.list t
        rw [ht] at hroom
        simp only [Room] at hroom
        omega
      | relocated n i ht _ fits lt => omega
    exact ⟨hlt, by omega⟩
  · intro t ht i hi
    have hin := mem_scanMapWrites hi
    have hn := roomy.nAddrs
    have hmap := fitted.scanMap
    simp only [pageWords] at hin
    omega
  · intro t block blocks n ht
    have hroom := roomy.list t
    rw [ht] at hroom
    have hblock := hroom.2 block List.mem_cons_self
    have hsmall := fitted.small
    have hn := hroom.1
    omega
  · intro t td rest n ht
    have hroom := roomy.list t
    rw [ht] at hroom
    simp only [Room] at hroom
    omega

/-- A thread with a full queue takes its addresses into an empty list. -/
theorem working_buffer_capacity_first : ∃ (es : List (Event Unit)) (s : State Unit),
    Run (system (leastConfig false)) anyEvent es s ∧ s.main () = .popHead [()] 0 ∧
      Capacious (leastConfig false) es s := by
  have lets : Lets (anyEvent : List (Event Unit) → State Unit → Event Unit → Prop) :=
    lets_anyEvent
  have hsmall : 16 * (256 + 1023) < 2 ^ 64 := by norm_num
  have run₀ : Run (system (leastConfig false)) anyEvent []
      (initial (T := Unit) fun _ => 0#64) := .init ⟨_, rfl⟩
  have run₁ := start_run lets run₀ () [] rfl rfl fun _ => trivial
  obtain ⟨es₂, run₂, -⟩ := fill_run lets run₁ () (addressRow 256 1023)
    (fun _ _ _ _ _ => trivial) (addressRow_nonzero hsmall (by norm_num))
    (addressRow_nodup hsmall) (fun a _ u hu => by simp at hu) rfl rfl rfl rfl
    (by rw [addressRow_length]; rfl)
  have run₃ := run₂.step trivial (.acquire _ () (by simp) rfl rfl)
  have run₄ := run₃.step trivial
    (.assign _ () (fun _ => 0#64) (fun _ => 0#64) (by simp) rfl fun _ _ _ => rfl)
  have run₅ := run₄.step trivial (.exchange _ () (by simp) rfl)
  have run₆ := run₅.step trivial (.goto _ () (.lockQueues 0) rfl (by
    simp only [Function.update_self]
    exact .drained 0))
  have run₇ := run₆.step trivial (.lockQueues _ () 0 (by simp) rfl rfl)
  exact ⟨_, _, run₇, by simp [initial], (working_buffer_capacity _ _ _ run₇).2⟩

end ThreadScan.Capacity
