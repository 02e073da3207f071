import ThreadScan.RingBuffer
import ThreadScan.Transition
import ThreadScan.Word

/-! The per-thread pointer queue (`queue.c`): a circular buffer pushed by its own thread
and drained in bulk by whichever thread is the reclaimer. -/
namespace ThreadScan.Queue
open Transition RingBuffer

/-- `queue_t`. The tail index runs `capacity` ahead of the values popped. -/
structure QueueT where
  e : ℕ → Word
  capacity : Word
  idxHead : Word
  idxTail : Word

/-- INDEXIFY: an absolute index becomes an array offset. -/
def indexify (absIdx capacity : Word) : Word := absIdx &&& (capacity - 1#64)

def threadscanQueueInit (buf : ℕ → Word) (capacity : Word) : QueueT :=
  ⟨buf, capacity, 0#64, capacity⟩

def threadscanQueueIsFull (q : QueueT) : Bool := q.idxTail ≤ q.idxHead + 1#64

/-- The slot store of `threadscan_queue_push`. -/
def pushStore (q : QueueT) (value : Word) : QueueT :=
  { q with e := Function.update q.e (indexify q.idxHead q.capacity).toNat value }

/-- The increment of `threadscan_queue_push`. -/
def pushHead (q : QueueT) : QueueT := { q with idxHead := q.idxHead + 1#64 }

def threadscanQueuePush (q : QueueT) (value : Word) : QueueT := pushHead (pushStore q value)

/-- The slots a `memcpy` of `count` words reads and writes, as (written, read) pairs. -/
def memcpySlots (dst src count : ℕ) : List (ℕ × ℕ) :=
  (List.range count).map fun j => (dst + j, src + j)

/-- The one or two copies of `threadscan_queue_pop_bulk`, for a head index that may
have been faked. -/
def copySlots (q : QueueT) (idxHead : Word) : List (ℕ × ℕ) :=
  let head := indexify idxHead q.capacity
  let start := indexify q.idxTail q.capacity
  if head < start then
    -- The start point is ahead of the end point: drain to the end of the buffer first.
    memcpySlots 0 start.toNat (q.capacity - start).toNat ++
      memcpySlots (q.capacity - start).toNat 0 (head - 0#64).toNat
  else memcpySlots 0 start.toNat (head - start).toNat

/-- The number of values between the tail and a cached head index. -/
def sizeAt (q : QueueT) (idxHead : Word) : Word := idxHead - (q.idxTail - q.capacity)

/-- Where `threadscan_queue_pop_bulk` stands; `popped` is its return value. -/
inductive Pop
  | idle
  | nothing
  | copying (idxHead popped : Word) (slots : List (ℕ × ℕ)) (values : ℕ → Word)

/-- From the read of `idx_head` to the first copy. -/
def popRead (q : QueueT) (len : Word) (values : ℕ → Word) : Pop :=
  let size := sizeAt q q.idxHead
  if size = 0#64 then .nothing
  else if len < size then
    -- Fake the head index so it looks like fewer elements have been pushed.
    let idxHead := q.idxHead - (size - len)
    .copying idxHead len (copySlots q idxHead) values
  else .copying q.idxHead size (copySlots q q.idxHead) values

def popTail (q : QueueT) (idxHead : Word) : QueueT := { q with idxTail := idxHead + q.capacity }

/-- The block a bulk pop leaves in the caller's buffer. -/
def block (popped : Word) (values : ℕ → Word) : List Word :=
  (List.range popped.toNat).map values

/-- A queue with its producer (may it push, and which value is in the slot but not yet
published) and its consumer. -/
structure State where
  q : QueueT
  mayPush : Bool
  stored : Option Word
  pop : Pop

inductive Event
  | isFull
  | pushStore (value : Word)
  | pushHead (value : Word)
  | popRead (len : Word)
  | popCopy
  | popReturn (values : List Word)

inductive Step : State → Event → State → Prop
  | isFull (s : State) (idle : s.stored = none) :
      Step s .isFull { s with mayPush := !threadscanQueueIsFull s.q }
  | pushStore (s : State) (v : Word) (idle : s.stored = none) (may : s.mayPush = true) :
      Step s (.pushStore v)
        { s with q := pushStore s.q v, mayPush := false, stored := some v }
  | pushHead (s : State) (v : Word) (h : s.stored = some v) :
      Step s (.pushHead v) { s with q := pushHead s.q, stored := none }
  | popRead (s : State) (len : Word) (values : ℕ → Word) (idle : s.pop = .idle) :
      Step s (.popRead len) { s with pop := popRead s.q len values }
  | popCopy (s : State) {idxHead popped : Word} {dst src : ℕ} {slots : List (ℕ × ℕ)}
      {values : ℕ → Word} (h : s.pop = .copying idxHead popped ((dst, src) :: slots) values) :
      Step s .popCopy { s with
        pop := .copying idxHead popped slots (Function.update values dst (s.q.e src)) }
  | popTail (s : State) {idxHead popped : Word} {values : ℕ → Word}
      (h : s.pop = .copying idxHead popped [] values) :
      Step s (.popReturn (block popped values))
        { s with q := popTail s.q idxHead, pop := .idle }
  | popNothing (s : State) (h : s.pop = .nothing) :
      Step s (.popReturn []) { s with pop := .idle }

/-- A fresh queue; `threadscan_collect` pushes before it first asks whether it is full. -/
def initial (buf : ℕ → Word) (capacity : Word) : State :=
  ⟨threadscanQueueInit buf capacity, true, none, .idle⟩

def system (capacity : Word) : System State Event where
  init s := ∃ buf, s = initial buf capacity
  step := Step

/-- The values pushed so far, oldest first. -/
def pushed : List Event → List Word
  | [] => []
  | .pushHead v :: es => pushed es ++ [v]
  | _ :: es => pushed es

/-- The blocks popped so far, oldest first. -/
def popped : List Event → List (List Word)
  | [] => []
  | .popReturn vs :: es => popped es ++ [vs]
  | _ :: es => popped es

/-- The length the last bulk pop asked for, and how much had been pushed when it read
`idx_head`. -/
def lastPop : List Event → ℕ × ℕ
  | [] => (0, 0)
  | .popRead len :: es => (len.toNat, (pushed es).length)
  | _ :: es => lastPop es

variable {k : ℕ}

theorem indexify_toNat {capacity : Word} (hc : capacity.toNat = 2 ^ k) (i : Word) :
    (indexify i capacity).toNat = i.toNat % 2 ^ k := by
  have hpos : 0 < 2 ^ k := Nat.two_pow_pos k
  have hmask : (capacity - 1#64).toNat = 2 ^ k - 1 := by bv_omega
  rw [indexify, BitVec.toNat_and, hmask, Nat.and_two_pow_sub_one_eq_mod]

theorem add_mod_window {c base j : ℕ} (hj : j < c) :
    (base + j) % c = if base % c + j < c then base % c + j else base % c + j - c := by
  have hb : base % c < c := Nat.mod_lt _ (by omega)
  rw [← Nat.mod_add_mod]
  split_ifs with h
  · exact Nat.mod_eq_of_lt h
  · rw [Nat.mod_eq_sub_mod (by omega)]
    exact Nat.mod_eq_of_lt (by omega)

/-- The one or two copies read the `m` oldest slots in order and fill the block from its
first entry on, wherever the window wraps. -/
theorem copySlots_eq {q : QueueT} {base m : ℕ} {idxHead : Word}
    (hc : q.capacity.toNat = 2 ^ k) (htail : q.idxTail.toNat = base + 2 ^ k)
    (hhead : idxHead.toNat = base + m) (hm : m < 2 ^ k) :
    copySlots q idxHead = (List.range m).map fun j => (j, (base + j) % 2 ^ k) := by
  have hh := indexify_toNat hc idxHead
  have hs := indexify_toNat hc q.idxTail
  rw [hhead, add_mod_window hm] at hh
  rw [htail, Nat.add_mod_right] at hs
  have hb : base % 2 ^ k < 2 ^ k := Nat.mod_lt _ (by omega)
  unfold copySlots memcpySlots
  dsimp only
  split_ifs with hwrap
  · rw [BitVec.lt_def] at hwrap
    have hge : ¬ base % 2 ^ k + m < 2 ^ k := by
      intro hlt
      rw [if_pos hlt] at hh
      omega
    rw [if_neg hge] at hh
    have hfirst : (q.capacity - indexify q.idxTail q.capacity).toNat = 2 ^ k - base % 2 ^ k := by
      bv_omega
    have hsecond : (indexify idxHead q.capacity - 0#64).toNat = base % 2 ^ k + m - 2 ^ k := by
      bv_omega
    have hsum : m = (2 ^ k - base % 2 ^ k) + (base % 2 ^ k + m - 2 ^ k) := by omega
    rw [hfirst, hsecond, hs]
    conv_rhs => rw [hsum, List.range_add, List.map_append, List.map_map]
    congr 1
    · apply List.map_congr_left
      intro j hj
      have hj' := List.mem_range.mp hj
      rw [add_mod_window (by omega), if_pos (by omega), Nat.zero_add]
    · apply List.map_congr_left
      intro j hj
      have hj' := List.mem_range.mp hj
      rw [Function.comp_apply, add_mod_window (by omega), if_neg (by omega)]
      congr 1
      omega
  · rw [BitVec.lt_def] at hwrap
    have hlt : base % 2 ^ k + m < 2 ^ k := by
      by_contra hge
      rw [if_neg hge] at hh
      omega
    rw [if_pos hlt] at hh
    have hcount : (indexify idxHead q.capacity - indexify q.idxTail q.capacity).toNat = m := by
      bv_omega
    rw [hcount, hs]
    apply List.map_congr_left
    intro j hj
    have hj' := List.mem_range.mp hj
    rw [add_mod_window (by omega), if_pos (by omega), Nat.zero_add]

theorem sizeAt_toNat {q : QueueT} {head base : ℕ} (hc : q.capacity.toNat = 2 ^ k)
    (hhead : q.idxHead.toNat = head) (htail : q.idxTail.toNat = base + 2 ^ k)
    (hle : base ≤ head) : (sizeAt q q.idxHead).toNat = head - base := by
  unfold sizeAt
  bv_omega

theorem popRead_nothing {q : QueueT} {base : ℕ} (len : Word) (values : ℕ → Word)
    (hc : q.capacity.toNat = 2 ^ k) (hhead : q.idxHead.toNat = base)
    (htail : q.idxTail.toNat = base + 2 ^ k) : popRead q len values = .nothing := by
  have hz : sizeAt q q.idxHead = 0#64 := by
    apply BitVec.eq_of_toNat_eq
    rw [sizeAt_toNat hc hhead htail le_rfl]
    simp
  unfold popRead
  simp only [hz, if_true]

/-- A bulk pop of a non-empty queue plans to take `min len (head - base)` values. -/
theorem popRead_copying {q : QueueT} {head base : ℕ} (len : Word) (values : ℕ → Word)
    (hc : q.capacity.toNat = 2 ^ k) (hhead : q.idxHead.toNat = head)
    (htail : q.idxTail.toNat = base + 2 ^ k) (hlt : base < head) (hroom : head < base + 2 ^ k) :
    ∃ idxHead popped : Word, popRead q len values = .copying idxHead popped
        ((List.range (min len.toNat (head - base))).map fun j => (j, (base + j) % 2 ^ k)) values ∧
      idxHead.toNat = base + min len.toNat (head - base) ∧
      popped.toNat = min len.toNat (head - base) := by
  have hsize := sizeAt_toNat hc hhead htail hlt.le
  have hnz : sizeAt q q.idxHead ≠ 0#64 := by
    intro h
    rw [h] at hsize
    simp at hsize
    omega
  unfold popRead
  dsimp only
  rw [if_neg hnz]
  by_cases hlen : len < sizeAt q q.idxHead
  · have hl : len.toNat < head - base := by rwa [BitVec.lt_def, hsize] at hlen
    have hm : min len.toNat (head - base) = len.toNat := by omega
    have hfake : (q.idxHead - (sizeAt q q.idxHead - len)).toNat = base + len.toNat := by bv_omega
    rw [if_pos hlen, hm, copySlots_eq hc htail hfake (by omega)]
    exact ⟨_, _, rfl, hfake, rfl⟩
  · have hl : head - base ≤ len.toNat := by rwa [BitVec.lt_def, hsize, not_lt] at hlen
    have hm : min len.toNat (head - base) = head - base := by omega
    have hwhole : q.idxHead.toNat = base + (head - base) := by omega
    rw [if_neg hlen, hm, copySlots_eq hc htail hwhole (by omega)]
    exact ⟨_, _, rfl, hwhole, hsize⟩

/-- What the consumer knows between its read of `idx_head` and its return: `base` values
had been popped, `m` are being popped, and the copies are done up to some entry. -/
def PopInv (k : ℕ) (es : List Event) : Pop → Prop
  | .idle => True
  | .nothing => (lastPop es).2 = (popped es).flatten.length
  | .copying idxHead p slots values =>
      let base := (popped es).flatten.length
      let m := min (lastPop es).1 ((lastPop es).2 - base)
      base + m ≤ (pushed es).length ∧ m < 2 ^ k ∧ idxHead.toNat = base + m ∧ p.toNat = m ∧
      ∃ done ≤ m, slots = (List.range' done (m - done)).map (fun j => (j, (base + j) % 2 ^ k)) ∧
        ∀ j < done, (pushed es)[base + j]? = some (values j)

/-- The queue at any moment, against the values pushed and popped so far. -/
structure Inv (k : ℕ) (es : List Event) (s : State) : Prop where
  capacity : s.q.capacity.toNat = 2 ^ k
  head : s.q.idxHead.toNat = (pushed es).length
  tail : s.q.idxTail.toNat = (popped es).flatten.length + 2 ^ k
  order : (popped es).flatten <+: pushed es
  room : (pushed es).length < (popped es).flatten.length + 2 ^ k
  window : Holds s.q.e (2 ^ k) (popped es).flatten.length
    ((pushed es).drop (popped es).flatten.length)
  may : s.mayPush = true → (pushed es).length + 1 < (popped es).flatten.length + 2 ^ k
  stored : ∀ v, s.stored = some v → s.mayPush = false ∧
    (pushed es).length + 1 < (popped es).flatten.length + 2 ^ k ∧
      s.q.e ((pushed es).length % 2 ^ k) = v
  pop : PopInv k es s.pop

theorem initial_inv {capacity : Word} (hc : capacity.toNat = 2 ^ k) (hk : 1 ≤ k)
    (buf : ℕ → Word) : Inv k [] (initial buf capacity) := by
  have hpow : 2 ^ 1 ≤ 2 ^ k := Nat.pow_le_pow_right (by omega) hk
  refine ⟨hc, rfl, ?_, List.prefix_rfl, ?_, Holds.nil _ _ _, ?_, ?_, trivial⟩
  · simp [initial, threadscanQueueInit, popped, hc]
  · simp [pushed, popped]
  · intro _
    simp only [pushed, popped, List.flatten_nil, List.length_nil]
    omega
  · intro v hv
    cases hv

theorem Inv.base_le {es : List Event} {s : State} (h : Inv k es s) :
    (popped es).flatten.length ≤ (pushed es).length := h.order.length_le

/-- The test of `threadscan_queue_is_full` leaves exactly one slot unused. -/
theorem Inv.isFull_eq {es : List Event} {s : State} (h : Inv k es s)
    (hb : (pushed es).length + 2 ^ k < 2 ^ 64) :
    threadscanQueueIsFull s.q = true ↔
      (popped es).flatten.length + 2 ^ k ≤ (pushed es).length + 1 := by
  have hh := h.head
  have ht := h.tail
  have hpos : 0 < 2 ^ k := Nat.two_pow_pos k
  have hnext : (s.q.idxHead + 1#64).toNat = (pushed es).length + 1 := by bv_omega
  simp only [threadscanQueueIsFull, decide_eq_true_eq, BitVec.le_def, hnext, ht]

theorem Inv.isFull {es : List Event} {s : State} (h : Inv k es s)
    (hb : (pushed es).length + 2 ^ k < 2 ^ 64) (idle : s.stored = none) :
    Inv k (.isFull :: es) { s with mayPush := !threadscanQueueIsFull s.q } := by
  refine ⟨h.capacity, h.head, h.tail, h.order, h.room, h.window, ?_, ?_, h.pop⟩
  · intro hmay
    have hfull : ¬ threadscanQueueIsFull s.q = true := by simpa using hmay
    rw [h.isFull_eq hb] at hfull
    simp only [pushed, popped]
    omega
  · intro v hv
    rw [idle] at hv
    cases hv

theorem Inv.pushStore {es : List Event} {s : State} (h : Inv k es s) (v : Word)
    (may : s.mayPush = true) :
    Inv k (.pushStore v :: es)
      { s with q := pushStore s.q v, mayPush := false, stored := some v } := by
  have hslot : (indexify s.q.idxHead s.q.capacity).toNat = (pushed es).length % 2 ^ k := by
    rw [indexify_toNat h.capacity, h.head]
  have hmay := h.may may
  have hle := h.base_le
  refine ⟨h.capacity, h.head, h.tail, h.order, h.room, ?_, ?_, ?_, h.pop⟩
  · have hlen : (popped es).flatten.length +
        ((pushed es).drop (popped es).flatten.length).length = (pushed es).length := by
      rw [List.length_drop]
      omega
    have hw := h.window.store (by rw [List.length_drop]; omega) v
    rw [hlen] at hw
    simpa only [pushed, popped, Queue.pushStore, hslot] using hw
  · intro hf
    cases hf
  · intro w hw
    cases hw
    refine ⟨rfl, hmay, ?_⟩
    simp [pushed, Queue.pushStore, hslot]

/-- A push during the copy leaves the consumer's knowledge intact. -/
theorem PopInv.push {es : List Event} {p : Pop} (h : PopInv k es p) (v : Word) :
    PopInv k (.pushHead v :: es) p := by
  cases p with
  | idle => trivial
  | nothing => exact h
  | copying idxHead popped slots values =>
    obtain ⟨hle, hm, hhead, hpop, done, hdone, hslots, hvalues⟩ := h
    refine ⟨?_, hm, hhead, hpop, done, hdone, hslots, ?_⟩
    · simp only [pushed, Queue.popped, lastPop, List.length_append, List.length_singleton] at hle ⊢
      omega
    · intro j hj
      have hlt := (List.getElem?_eq_some_iff.mp (hvalues j hj)).1
      exact (List.getElem?_append_left hlt).trans (hvalues j hj)

theorem Inv.pushHead {es : List Event} {s : State} (h : Inv k es s) (v : Word)
    (stored : s.stored = some v) (hb : (pushed es).length + 1 + 2 ^ k < 2 ^ 64) :
    Inv k (.pushHead v :: es) { s with q := pushHead s.q, stored := none } := by
  obtain ⟨hbusy, hroom, hslot⟩ := h.stored v stored
  have hle := h.base_le
  have hh := h.head
  refine ⟨h.capacity, ?_, h.tail, ?_, ?_, ?_, ?_, ?_, ?_⟩
  · simp only [pushed, List.length_append, List.length_singleton, Queue.pushHead]
    bv_omega
  · exact h.order.trans (List.prefix_append _ _)
  · simpa only [pushed, popped, List.length_append, List.length_singleton] using hroom
  · have hlen : (popped es).flatten.length +
        ((pushed es).drop (popped es).flatten.length).length = (pushed es).length := by
      rw [List.length_drop]
      omega
    have hw := h.window.extend (v := v) (by rw [hlen]; exact hslot)
    simpa only [pushed, popped, Queue.pushHead, List.drop_append_of_le_length hle] using hw
  · intro hmay
    rw [hbusy] at hmay
    cases hmay
  · intro w hw
    cases hw
  · exact h.pop.push v

theorem Inv.popRead {es : List Event} {s : State} (h : Inv k es s) (len : Word)
    (values : ℕ → Word) :
    Inv k (.popRead len :: es) { s with pop := popRead s.q len values } := by
  have hle := h.base_le
  have hroom := h.room
  refine ⟨h.capacity, h.head, h.tail, h.order, h.room, h.window, h.may, h.stored, ?_⟩
  rcases Nat.lt_or_ge (popped es).flatten.length (pushed es).length with hlt | hge
  · obtain ⟨idxHead, p, hread, hhead, hp⟩ :=
      popRead_copying len values h.capacity h.head h.tail hlt h.room
    simp only [hread]
    refine ⟨?_, ?_, hhead, hp, 0, by omega, ?_, by simp⟩
    · simp only [pushed, popped, lastPop]
      omega
    · simp only [popped, lastPop]
      omega
    · simp only [popped, lastPop, Nat.sub_zero, List.range_eq_range']
  · have he : (pushed es).length = (popped es).flatten.length := le_antisymm hge hle
    have hread := popRead_nothing len values h.capacity (h.head.trans he) h.tail
    simp only [hread]
    exact he

theorem Inv.popCopy {es : List Event} {s : State} (h : Inv k es s) {idxHead p : Word}
    {dst src : ℕ} {slots : List (ℕ × ℕ)} {values : ℕ → Word}
    (hpop : s.pop = .copying idxHead p ((dst, src) :: slots) values) :
    Inv k (.popCopy :: es) { s with
      pop := .copying idxHead p slots (Function.update values dst (s.q.e src)) } := by
  have hinv := h.pop
  rw [hpop] at hinv
  obtain ⟨hle, hm, hhead, hp, done, hdone, hslots, hvalues⟩ := hinv
  refine ⟨h.capacity, h.head, h.tail, h.order, h.room, h.window, h.may, h.stored, ?_⟩
  have hlt : done < min (lastPop es).1 ((lastPop es).2 - (popped es).flatten.length) := by
    by_contra hge
    rw [Nat.sub_eq_zero_of_le (by omega)] at hslots
    simp at hslots
  obtain ⟨r, hr⟩ := Nat.exists_eq_add_of_lt hlt
  rw [hr, show done + r + 1 - done = r + 1 by omega, List.range'_succ, List.map_cons,
    List.cons.injEq, Prod.mk.injEq] at hslots
  obtain ⟨⟨rfl, rfl⟩, rfl⟩ := hslots
  have hwin : (popped es).flatten.length + dst < (pushed es).length := by omega
  have hcell := h.window dst (by rw [List.length_drop]; omega)
  rw [List.getElem_drop] at hcell
  refine ⟨hle, hm, hhead, hp, dst + 1, hlt, ?_, ?_⟩
  · simp only [lastPop, Queue.popped, hr]
    rw [show dst + r + 1 - (dst + 1) = r by omega]
  · intro j hj
    rcases Nat.lt_succ_iff_lt_or_eq.mp hj with hlt' | rfl
    · rw [Function.update_of_ne hlt'.ne]
      exact hvalues j hlt'
    · rw [Function.update_self, hcell]
      exact List.getElem?_eq_getElem hwin

/-- What a finished copy holds: the `m` oldest values, in order. -/
theorem block_eq {xs : List Word} {base m : ℕ} {p : Word} {values : ℕ → Word}
    (hp : p.toNat = m) (hvalues : ∀ j < m, xs[base + j]? = some (values j)) :
    block p values = (xs.drop base).take m := by
  apply List.ext_getElem?
  intro j
  rw [block, hp, List.getElem?_map, List.getElem?_take]
  split_ifs with hj
  · rw [List.getElem?_range hj, List.getElem?_drop, hvalues j hj]
    rfl
  · rw [List.getElem?_eq_none (by simpa using hj)]
    rfl

theorem Inv.block_eq {es : List Event} {s : State} (h : Inv k es s) {idxHead p : Word}
    {values : ℕ → Word} (hpop : s.pop = .copying idxHead p [] values) :
    block p values = ((pushed es).drop (popped es).flatten.length).take
      (min (lastPop es).1 ((lastPop es).2 - (popped es).flatten.length)) := by
  have hinv := h.pop
  rw [hpop] at hinv
  obtain ⟨_, _, _, hp, done, hdone, hslots, hvalues⟩ := hinv
  have hall : done = min (lastPop es).1 ((lastPop es).2 - (popped es).flatten.length) := by
    have hlen := congrArg List.length hslots
    simp only [List.length_nil, List.length_map, List.length_range'] at hlen
    omega
  exact Queue.block_eq hp (hall ▸ hvalues)

theorem Inv.popTail {es : List Event} {s : State} (h : Inv k es s) {idxHead p : Word}
    {values : ℕ → Word} (hpop : s.pop = .copying idxHead p [] values)
    (hb : (pushed es).length + 2 ^ k < 2 ^ 64) :
    (block p values).length =
        min (lastPop es).1 ((lastPop es).2 - (popped es).flatten.length) ∧
      Inv k (.popReturn (block p values) :: es)
        { s with q := popTail s.q idxHead, pop := .idle } := by
  have hinv := h.pop
  have hblock := h.block_eq hpop
  rw [hpop] at hinv
  obtain ⟨hle, _, hhead, hp, _⟩ := hinv
  have hlen : (block p values).length =
      min (lastPop es).1 ((lastPop es).2 - (popped es).flatten.length) := by
    simp [block, hp]
  have hflat : (popped (.popReturn (block p values) :: es)).flatten =
      (popped es).flatten ++ block p values := by simp [popped]
  have hflen : (popped (.popReturn (block p values) :: es)).flatten.length =
      (popped es).flatten.length + (block p values).length := by rw [hflat, List.length_append]
  have hcap := h.capacity
  have hroom := h.room
  refine ⟨hlen, ⟨h.capacity, h.head, ?_, ?_, ?_, ?_, ?_, ?_, trivial⟩⟩
  · rw [hflen, hlen]
    simp only [Queue.popTail]
    bv_omega
  · have hcut := List.prefix_iff_eq_take.mp h.order
    rw [hflat, hblock]
    nth_rewrite 1 [hcut]
    rw [← List.take_add]
    exact List.take_prefix _ _
  · rw [hflen]
    simp only [pushed]
    omega
  · rw [hflen]
    have hw := h.window.drop (block p values).length
    rwa [List.drop_drop] at hw
  · intro hmay
    have := h.may hmay
    rw [hflen]
    simp only [pushed]
    omega
  · intro v hv
    obtain ⟨hbusy, hfree, hslot⟩ := h.stored v hv
    rw [hflen]
    exact ⟨hbusy, by simp only [pushed]; omega, hslot⟩

theorem Inv.popNothing {es : List Event} {s : State} (h : Inv k es s) :
    Inv k (.popReturn [] :: es) { s with pop := .idle } := by
  have hflat : (popped (.popReturn [] :: es)).flatten = (popped es).flatten := by simp [popped]
  refine ⟨h.capacity, h.head, ?_, ?_, ?_, ?_, ?_, ?_, trivial⟩ <;> rw [hflat]
  exacts [h.tail, h.order, h.room, h.window, h.may, h.stored]

theorem Inv.step {es : List Event} {s t : State} {e : Event} (h : Inv k es s)
    (move : Step s e t) (hb : (pushed (e :: es)).length + 2 ^ k < 2 ^ 64) :
    Inv k (e :: es) t := by
  cases move with
  | isFull idle => exact h.isFull hb idle
  | pushStore v idle may => exact h.pushStore v may
  | pushHead v stored =>
    rw [pushed, List.length_append, List.length_singleton] at hb
    exact h.pushHead v stored hb
  | popRead len values idle => exact h.popRead len values
  | popCopy hpop => exact h.popCopy hpop
  | popTail hpop => exact (h.popTail hpop hb).2
  | popNothing hpop => exact h.popNothing

theorem pushed_length_le (e : Event) (es : List Event) :
    (pushed es).length ≤ (pushed (e :: es)).length := by
  cases e <;> simp [pushed]

theorem run_inv {capacity : Word} (hc : capacity.toNat = 2 ^ k) (hk : 1 ≤ k)
    {ok : List Event → State → Event → Prop} {es : List Event} {s : State}
    (run : Run (system capacity) ok es s) (hb : (pushed es).length + 2 ^ k < 2 ^ 64) :
    Inv k es s := by
  revert hb
  refine run.invariant (I := fun es s => (pushed es).length + 2 ^ k < 2 ^ 64 → Inv k es s) ?_ ?_
  · rintro s ⟨buf, rfl⟩ _
    exact initial_inv hc hk buf
  · intro es s e t _ ih _ move hb
    have hle := pushed_length_le e es
    exact (ih (by omega)).step move hb

/-- A single-producer single-consumer queue is a linearizable FIFO: what is popped is a
prefix of what is pushed, every pop is as long as it can be, no slot in use is
overwritten, and the absolute indices stay ordered. -/
theorem queue_linearizable (k : ℕ) (hk : 1 ≤ k) (hk30 : k ≤ 30) (es : List Event) (s : State)
    (run : Run (system (BitVec.ofNat 64 (2 ^ k))) anyEvent es s)
    (few : (pushed es).length < 2 ^ 64 - 2 ^ k) :
    (popped es).flatten <+: pushed es ∧
    (∀ vs t, Step s (.popReturn vs) t →
      vs.length = min (lastPop es).1 ((lastPop es).2 - (popped es).flatten.length) ∧
      vs = ((pushed es).drop (popped es).flatten.length).take vs.length) ∧
    (∀ i, (popped es).flatten.length ≤ i → (h : i < (pushed es).length) →
      s.q.e (i % 2 ^ k) = (pushed es)[i]) ∧
    (∀ v t, Step s (.pushStore v) t →
      ∀ i, (popped es).flatten.length ≤ i → i < (pushed es).length →
        t.q.e (i % 2 ^ k) = s.q.e (i % 2 ^ k)) ∧
    s.q.idxTail - s.q.capacity ≤ s.q.idxHead ∧
    s.q.idxHead - (s.q.idxTail - s.q.capacity) ≤ s.q.capacity - 1#64 ∧
    s.q.idxHead < s.q.idxTail := by
  have hpow : 2 ^ k ≤ 2 ^ 30 := Nat.pow_le_pow_right (by omega) hk30
  have hpos : 2 ^ 1 ≤ 2 ^ k := Nat.pow_le_pow_right (by omega) hk
  have hc : (BitVec.ofNat 64 (2 ^ k)).toNat = 2 ^ k := by
    rw [BitVec.toNat_ofNat]
    exact Nat.mod_eq_of_lt (by omega)
  have hinv := run_inv hc hk run (by omega)
  have hle := hinv.base_le
  have hroom := hinv.room
  have hcap := hinv.capacity
  have hhead := hinv.head
  have htail := hinv.tail
  have hbase : (s.q.idxTail - s.q.capacity).toNat = (popped es).flatten.length := by bv_omega
  have hused : (s.q.idxHead - (s.q.idxTail - s.q.capacity)).toNat =
      (pushed es).length - (popped es).flatten.length := by bv_omega
  have hlast : (s.q.capacity - 1#64).toNat = 2 ^ k - 1 := by bv_omega
  refine ⟨hinv.order, ?_, ?_, ?_, ?_, ?_, ?_⟩
  · intro vs t move
    cases move with
    | popTail hpop =>
      have hlen := (hinv.popTail hpop (by omega)).1
      exact ⟨hlen, by rw [hlen, hinv.block_eq hpop]⟩
    | popNothing hpop =>
      have hseen := hinv.pop
      rw [hpop] at hseen
      refine ⟨?_, by simp⟩
      rw [show (lastPop es).2 = _ from hseen]
      simp
  · intro i hi h
    have hcell := hinv.window (i - (popped es).flatten.length) (by rw [List.length_drop]; omega)
    rw [Nat.add_sub_cancel' hi] at hcell
    simpa only [List.getElem_drop, Nat.add_sub_cancel' hi] using hcell
  · intro v t move i hi h
    cases move with
    | pushStore _ idle may =>
      have hslot := indexify_toNat hinv.capacity s.q.idxHead
      simp only [pushStore, hslot, hhead]
      exact Function.update_of_ne (slot_ne h (by omega)) _ _
  · rw [BitVec.le_def, hbase, hhead]
    exact hle
  · rw [BitVec.le_def, hused, hlast]
    omega
  · rw [BitVec.lt_def, hhead, htail]
    omega

/-- The promise to push no more than a number of values. -/
def upTo (n : ℕ) (es : List Event) (_ : State) (e : Event) : Prop := (pushed (e :: es)).length ≤ n

theorem push_run {n : ℕ} {capacity : Word} {es : List Event} {q : QueueT} (v : Word)
    (run : Run (system capacity) (upTo n) es ⟨q, false, none, .idle⟩) (few : (pushed es).length < n)
    (room : threadscanQueueIsFull q = false) :
    Run (system capacity) (upTo n) (.pushHead v :: .pushStore v :: .isFull :: es)
      ⟨threadscanQueuePush q v, false, none, .idle⟩ := by
  have hask : upTo n es ⟨q, false, none, .idle⟩ .isFull := few.le
  have run₁ := run.step hask (.isFull _ rfl)
  have hstore : upTo n (.isFull :: es) ⟨q, !threadscanQueueIsFull q, none, .idle⟩ (.pushStore v) :=
    few.le
  have run₂ := run₁.step hstore (.pushStore _ v rfl (by simp [room]))
  refine run₂.step ?_ (.pushHead _ v rfl)
  simp only [upTo, pushed, List.length_append, List.length_singleton]
  omega

/-- Five values go through a queue of four slots. The first bulk pop is cut short; the second
one wraps around the end of the buffer. -/
theorem wrapped_run : ∃ es s, Run (system (BitVec.ofNat 64 (2 ^ 2))) (upTo 5) es s ∧
    pushed es = [7#64, 8#64, 9#64, 10#64, 11#64] ∧
    popped es = [[7#64, 8#64], [9#64, 10#64, 11#64]] := by
  have run₀ : Run (system (BitVec.ofNat 64 (2 ^ 2))) (upTo 5) []
      (initial (fun _ => 0#64) (BitVec.ofNat 64 (2 ^ 2))) := .init ⟨_, rfl⟩
  have run₁ := (run₀.step (by simp [upTo, pushed]) (.pushStore _ 7#64 rfl rfl)).step
    (by simp [upTo, pushed]) (.pushHead _ 7#64 rfl)
  have run₂ := push_run 9#64 (push_run 8#64 run₁ (by simp [pushed]) rfl) (by simp [pushed]) rfl
  have run₃ := run₂.step (by simp [upTo, pushed]) (.popRead _ 2#64 (fun _ => 0#64) rfl)
  have run₄ := (run₃.step (by simp [upTo, pushed]) (.popCopy _ rfl)).step (by simp [upTo, pushed])
    (.popCopy _ rfl)
  have run₅ := run₄.step (by simp [upTo, pushed]) (.popTail _ rfl)
  have run₆ := push_run 11#64 (push_run 10#64 run₅ (by simp [pushed]) rfl) (by simp [pushed]) rfl
  have run₇ := run₆.step (by simp [upTo, pushed]) (.popRead _ 5#64 (fun _ => 0#64) rfl)
  have run₈ := ((run₇.step (by simp [upTo, pushed]) (.popCopy _ rfl)).step (by simp [upTo, pushed])
    (.popCopy _ rfl)).step (by simp [upTo, pushed]) (.popCopy _ rfl)
  exact ⟨_, _, run₈.step (by simp [upTo, pushed]) (.popTail _ rfl), rfl, rfl⟩

/-- What has been popped in that run is what has been pushed. -/
theorem queue_linearizable_wrapped : ∃ es s,
    Run (system (BitVec.ofNat 64 (2 ^ 2))) anyEvent es s ∧
      popped es = [[7#64, 8#64], [9#64, 10#64, 11#64]] ∧ (popped es).flatten <+: pushed es := by
  obtain ⟨es, s, run, hpushed, hpopped⟩ := wrapped_run
  have run' : Run (system (BitVec.ofNat 64 (2 ^ 2))) anyEvent es s := run.weaken fun _ _ _ _ => trivial
  exact ⟨es, s, run', hpopped,
    (queue_linearizable 2 (by decide) (by decide) es s run' (by rw [hpushed]; decide)).1⟩

end ThreadScan.Queue
