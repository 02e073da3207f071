import ThreadScan.Drain
import ThreadScan.Fifo
import ThreadScan.Queue

/-! The queue of a thread on two levels. The ring buffer of `queue.c` is a bounded queue for any
one producer and one consumer that keep to its contract, and the threads of the protocol keep
to that contract with the queue of each of them. -/
namespace ThreadScan.QueueContract
open Transition RingBuffer

/-! ### The ring buffer -/

section Ring
open Queue

variable {k : ℕ} {es : List Queue.Event} {s s' : Queue.State}

/-- The values between the two indices. -/
def values (q : QueueT) : List Word :=
  (List.range (sizeAt q q.idxHead).toNat).map fun i =>
    q.e (((q.idxTail - q.capacity).toNat + i) % q.capacity.toNat)

/-- How much the consumer has seen. -/
def seen : Pop → Option ℕ
  | .idle => none
  | .nothing => some 0
  | .copying _ popped _ _ => some popped.toNat

/-- The bounded queue that a ring buffer stands for. -/
def fifo (s : Queue.State) : Fifo.State Word :=
  ⟨values s.q, s.mayPush || s.stored.isSome, seen s.pop⟩

def action : Queue.Event → Fifo.Event Word
  | .isFull => .ask
  | .pushHead v => .push v
  | .popRead len => .look len.toNat
  | .popReturn vs => .take vs
  | .pushStore _ | .popCopy => .other

/-- The absolute indices do not wrap. -/
def unwrapped (k : ℕ) (es : List Queue.Event) (_ : Queue.State) (e : Queue.Event) : Prop :=
  (Queue.pushed (e :: es)).length + 2 ^ k < 2 ^ 64

theorem values_eq (inv : Inv k es s) :
    values s.q = (Queue.pushed es).drop (Queue.popped es).flatten.length := by
  have hle := inv.base_le
  have hsize := sizeAt_toNat inv.capacity inv.head inv.tail hle
  have hbase : (s.q.idxTail - s.q.capacity).toNat = (Queue.popped es).flatten.length := by
    have htail := inv.tail
    have hcap := inv.capacity
    bv_omega
  apply List.ext_getElem
  · simp [values, hsize]
  · intro i h₁ h₂
    simp only [values, List.getElem_map, List.getElem_range, hbase, inv.capacity]
    exact inv.window i h₂

/-- A bulk pop sees what is in the queue, or as much of it as it asks for. -/
theorem seen_popRead (inv : Inv k es s) (len : Word) (vals : ℕ → Word) :
    seen (popRead s.q len vals) = some (min len.toNat (values s.q).length) := by
  rw [values_eq inv, List.length_drop]
  rcases inv.base_le.lt_or_eq with hlt | heq
  · obtain ⟨idxHead, p, hread, -, hp⟩ :=
      popRead_copying len vals inv.capacity inv.head inv.tail hlt inv.room
    rw [hread, seen, hp]
  · have hread := popRead_nothing len vals inv.capacity (inv.head.trans heq.symm) inv.tail
    rw [hread, seen, heq, Nat.sub_self, Nat.min_zero]

/-- It returns what it saw. -/
theorem block_seen (inv : Inv k es s) {idxHead p : Word} {vals : ℕ → Word}
    (hpop : s.pop = .copying idxHead p [] vals) : block p vals = (values s.q).take p.toNat := by
  have hblock := inv.block_eq hpop
  have hseen := inv.pop
  rw [hpop] at hseen
  obtain ⟨-, -, -, hp, -⟩ := hseen
  rw [hblock, values_eq inv, hp]

theorem fifo_step (inv : Inv k es s) {e : Queue.Event} (inv' : Inv k (e :: es) s')
    (room : (Queue.pushed es).length + 2 ^ k < 2 ^ 64) (move : Queue.Step s e s') :
    Fifo.Step (2 ^ k) (fifo s) (action e) (fifo s') := by
  have hbefore := values_eq inv
  have hafter := values_eq inv'
  have hle := inv.base_le
  cases move with
  | isFull idle =>
    have hask : (!threadscanQueueIsFull s.q || s.stored.isSome) =
        decide ((values s.q).length + 1 < 2 ^ k) := by
      have hfull := inv.isFull_eq room
      rw [hbefore, List.length_drop, idle, Option.isSome_none, Bool.or_false]
      by_cases hq : threadscanQueueIsFull s.q = true
      · have := hfull.mp hq
        rw [hq]
        exact (decide_eq_false (by omega)).symm
      · have : ¬ _ := fun h => hq (hfull.mpr h)
        rw [Bool.not_eq_true] at hq
        rw [hq]
        exact (decide_eq_true (by omega)).symm
    have hstate : fifo { s with mayPush := !threadscanQueueIsFull s.q } =
        { fifo s with mayPush := decide ((fifo s).items.length + 1 < 2 ^ k) } := by
      simp only [fifo, hask]
      rfl
    rw [hstate]
    exact .ask _
  | pushStore v idle may =>
    have hstate : fifo { s with q := pushStore s.q v, mayPush := false, stored := some v } =
        fifo s := by
      simp only [fifo, hafter, hbefore, may, Queue.pushed, Queue.popped, Option.isSome_some,
        Bool.or_true, Bool.true_or]
    rw [hstate]
    exact .stutter _
  | pushHead v stored =>
    obtain ⟨hbusy, -, -⟩ := inv.stored v stored
    have hitems : values (pushHead s.q) = values s.q ++ [v] := by
      rw [hafter, hbefore]
      exact List.drop_append_of_le_length hle
    have hstate : fifo { s with q := pushHead s.q, stored := none } =
        { fifo s with items := (fifo s).items ++ [v], mayPush := false } := by
      simp only [fifo, hitems, hbusy, Option.isSome_none, Bool.or_false]
    rw [hstate]
    exact .push _ v (by simp [fifo, stored])
  | popRead len vals idle =>
    have hstate : fifo { s with pop := popRead s.q len vals } =
        { fifo s with seen := some (min len.toNat (fifo s).items.length) } := by
      simp only [fifo, seen_popRead inv]
    rw [hstate]
    exact .look _ _ (by simp [fifo, seen, idle])
  | @popCopy idxHead p dst src slots vals hpop =>
    have hstate : fifo { s with
        pop := .copying idxHead p slots (Function.update vals dst (s.q.e src)) } = fifo s := by
      simp only [fifo, hpop, seen]
    rw [hstate]
    exact .stutter _
  | @popTail idxHead p vals hpop =>
    have hblock := block_seen inv hpop
    have hlen : (block p vals).length = p.toNat := by simp [block]
    have hitems : values (popTail s.q idxHead) = (values s.q).drop p.toNat := by
      rw [hafter, hbefore, List.drop_drop]
      simp only [Queue.pushed, Queue.popped, List.flatten_append, List.flatten_singleton,
        List.length_append, hlen]
    have hstate : fifo { s with q := popTail s.q idxHead, pop := .idle } =
        { fifo s with items := (fifo s).items.drop p.toNat, seen := none } := by
      simp only [fifo, hitems, seen]
    rw [hstate, action, hblock]
    exact .take _ p.toNat (by simp [fifo, seen, hpop])
  | popNothing hpop =>
    have hstate : fifo { s with pop := .idle } =
        { fifo s with items := (fifo s).items.drop 0, seen := none } := by
      simp only [fifo, seen, List.drop_zero]
    rw [hstate, action]
    exact .take _ 0 (by simp [fifo, seen, hpop])

/-- The ring buffer is a bounded queue that keeps one slot free. -/
theorem ring_refines (k : ℕ) (hk : 1 ≤ k) (hk30 : k ≤ 30) (es : List Queue.Event) (s : Queue.State)
    (run : Run (Queue.system (BitVec.ofNat 64 (2 ^ k))) (unwrapped k) es s) :
    Run (Fifo.system (2 ^ k)) anyEvent (es.map action) (fifo s) := by
  have hpow : 2 ^ k ≤ 2 ^ 30 := Nat.pow_le_pow_right (by omega) hk30
  have hc : (BitVec.ofNat 64 (2 ^ k)).toNat = 2 ^ k := by
    rw [BitVec.toNat_ofNat]
    exact Nat.mod_eq_of_lt (by omega)
  refine run.refine (fun _ s => fifo s) action ?_ ?_
  · rintro s ⟨buf, rfl⟩
    have hinit := values_eq (initial_inv hc hk buf)
    simp only [fifo, hinit]
    rfl
  · intro es s e s' run allowed move
    have hle := pushed_length_le e es
    have hroom : (Queue.pushed (e :: es)).length + 2 ^ k < 2 ^ 64 := allowed
    have inv := Queue.run_inv hc hk run (by omega)
    exact fifo_step inv (inv.step move hroom) (by omega) move

/-- A queue of four slots, pushed to five times and drained twice, as a bounded queue. -/
theorem ring_refines_wrapped : ∃ (es : List Queue.Event) (s : Queue.State) (q : Fifo.State Word),
    Run (Queue.system (BitVec.ofNat 64 (2 ^ 2))) (unwrapped 2) es s ∧
      Queue.popped es = [[7#64, 8#64], [9#64, 10#64, 11#64]] ∧
      Run (Fifo.system (2 ^ 2)) anyEvent (es.map action) q := by
  obtain ⟨es, s, run, -, hpopped⟩ := wrapped_run
  have run' : Run (Queue.system (BitVec.ofNat 64 (2 ^ 2))) (unwrapped 2) es s := by
    refine run.weaken fun es s e few => ?_
    simp only [upTo] at few
    simp only [unwrapped]
    omega
  exact ⟨es, s, _, run', hpopped, ring_refines 2 (by decide) (by decide) es s run'⟩

end Ring

/-! ### The protocol -/

section Protocol
open Compaction Reclaim Handshake Departure

variable {T : Type*} [DecidableEq T] {cfg : Config}
  {ok : List (Reclaim.Event T) → Reclaim.State T → Reclaim.Event T → Prop}
  {es : List (Reclaim.Event T)} {s s' : Reclaim.State T} {t u : T}

/-- The thread is in user code, and free to collect. -/
def mayCollect : Main T → Bool
  | .idle => true
  | _ => false

/-- How much a reclaimer has seen of a queue that it pops. -/
def taking (u : T) : Main T → Option ℕ
  | .popTail td _ _ k => if td = u then some k else none
  | _ => none

/-- The bounded queue of a thread: its consumer is whoever walks the thread list. -/
def queueOf (s : Reclaim.State T) (u : T) : Fifo.State Word :=
  ⟨s.queue u, mayCollect (s.main u), s.listLock.bind fun t => taking u (s.main t)⟩

/-- The addresses that a thread has collected, oldest first. -/
def collectedBy (u : T) : List (Reclaim.Event T) → List Word
  | [] => []
  | .push t a :: es => if t = u then collectedBy u es ++ [a] else collectedBy u es
  | _ :: es => collectedBy u es

/-- A step of the bounded queue that goes with a step of the protocol: what is pushed the thread
collects, and what is taken gets on the list of a reclaimer that pops its queue. -/
def Follows (cfg : Config) (u : T) (s : Reclaim.State T) (e : Reclaim.Event T)
    (s' : Reclaim.State T) : Prop :=
  ∃ e', Fifo.Step cfg.ptrsPerThread (queueOf s u) e' (queueOf s' u) ∧
    (∀ a, e' = .push a ↔ e = .push u a) ∧
    ∀ as, e' = .take as → ∃ t rest n k, s.main t = .popTail u rest n k ∧
      as = (s.queue u).take k ∧ s'.buffer t = memcpy (s.buffer t) n as

/-- Steps that leave the queue of a thread alone. -/
theorem Follows.stay {e : Reclaim.Event T} (h : queueOf s' u = queueOf s u)
    (quiet : ∀ a, e ≠ .push u a) : Follows cfg u s e s' :=
  ⟨.other, h ▸ .stutter _, fun a => iff_of_false (by simp) (quiet a), by simp⟩

theorem pushed_follows {e : Reclaim.Event T} {e' : Fifo.Event Word}
    {es' : List (Fifo.Event Word)} (pushes : ∀ a, e' = .push a ↔ e = .push u a)
    (h : Fifo.pushed es' = collectedBy u es) :
    Fifo.pushed (e' :: es') = collectedBy u (e :: es) := by
  have hrest : (∀ a, e ≠ .push u a) → collectedBy u (e :: es) = collectedBy u es := by
    intro hnot
    cases e with
    | push t a =>
      refine if_neg ?_
      rintro rfl
      exact hnot a rfl
    | _ => rfl
  cases e' with
  | push a =>
    obtain rfl := (pushes a).mp rfl
    simp only [Fifo.pushed, collectedBy, if_true, h]
  | _ => exact h.trans (hrest fun a he => by cases (pushes a).mpr he).symm

theorem mayCollect_move {m : Main T} (hm : s'.main = Function.update s.main t m)
    (collects : t = u → mayCollect m = mayCollect (s.main t)) :
    mayCollect (s'.main u) = mayCollect (s.main u) := by
  rw [hm]
  by_cases hut : u = t
  · rw [hut, Function.update_self, collects hut.symm]
  · rw [Function.update_of_ne hut]

theorem taking_move {m : Main T} (hm : s'.main = Function.update s.main t m)
    (takes : taking u m = taking u (s.main t)) (v : T) :
    taking u (s'.main v) = taking u (s.main v) := by
  rw [hm]
  by_cases hvt : v = t
  · rw [hvt, Function.update_self, takes]
  · rw [Function.update_of_ne hvt]

/-- Such as those of a thread that neither returns, pops nor takes or gives the list lock. -/
theorem queueOf_move {m : Main T} (hm : s'.main = Function.update s.main t m)
    (hlock : s'.listLock = s.listLock) (hq : s'.queue u = s.queue u)
    (collects : t = u → mayCollect m = mayCollect (s.main t))
    (takes : taking u m = taking u (s.main t)) : queueOf s' u = queueOf s u := by
  simp only [queueOf, hq, hlock, mayCollect_move hm collects, taking_move hm takes]

/-- The lock of the list changes hands between walks. -/
theorem queueOf_lock {m : Main T} (hm : s'.main = Function.update s.main t m)
    (hlock : s'.listLock = some t) (free : s.listLock = none) (hq : s'.queue u = s.queue u)
    (collects : mayCollect m = mayCollect (s.main t)) (takes : taking u m = none) :
    queueOf s' u = queueOf s u := by
  have htakes : taking u (s'.main t) = none := by rw [hm, Function.update_self, takes]
  simp only [queueOf, hq, hlock, free, mayCollect_move hm fun _ => collects, Option.bind_some,
    Option.bind_none, htakes]

theorem queueOf_unlock (run : Run (Reclaim.system cfg) ok es s) {m : Main T}
    (walks : Completion.Walks (s.main t)) (hm : s'.main = Function.update s.main t m)
    (hlock : s'.listLock = none) (hq : s'.queue u = s.queue u)
    (collects : mayCollect m = mayCollect (s.main t)) (takes : taking u (s.main t) = none) :
    queueOf s' u = queueOf s u := by
  have hheld := (run_walkers run).locked t walks
  simp only [queueOf, hq, hlock, hheld, mayCollect_move hm fun _ => collects, Option.bind_some,
    Option.bind_none, takes]

/-- A collect is a push that the thread has been told there is room for. -/
theorem push_follows {ptr : Word} (ht : s.main t = .idle)
    (hm : s'.main = Function.update s.main t .isFull) (hlock : s'.listLock = s.listLock)
    (hq : s'.queue = Function.update s.queue t (s.queue t ++ [ptr])) :
    Follows cfg u s (.push t ptr) s' := by
  have htakes : taking u .isFull = taking u (s.main t) := by
    rw [ht]
    rfl
  by_cases htu : t = u
  · subst htu
    have hbusy : mayCollect (s'.main t) = false := by
      rw [hm, Function.update_self]
      rfl
    have hstate : queueOf s' t =
        { queueOf s t with items := (queueOf s t).items ++ [ptr], mayPush := false } := by
      simp only [queueOf, hlock, hq, taking_move hm htakes, hbusy, Function.update_self]
    refine ⟨.push ptr, hstate ▸ .push _ ptr ?_, fun a => ?_, by simp⟩
    · simp only [queueOf, ht, mayCollect]
    · simp
  · have hsame : s'.queue u = s.queue u := by rw [hq, Function.update_of_ne (Ne.symm htu)]
    refine .stay (queueOf_move hm hlock hsame (fun he => absurd he htu) htakes) fun a he => ?_
    exact htu (Reclaim.Event.push.inj he).1

/-- A thread goes back to user code when it has asked whether there is room. -/
theorem notFull_follows (ht : s.main t = .isFull)
    (room : Reclaim.threadscanQueueIsFull cfg (s.queue t) = false)
    (hm : s'.main = Function.update s.main t .idle) (hlock : s'.listLock = s.listLock)
    (hq : s'.queue = s.queue) : Follows cfg u s .other s' := by
  have htakes : taking u .idle = taking u (s.main t) := by
    rw [ht]
    rfl
  by_cases htu : t = u
  · subst htu
    have hroom : (s.queue t).length + 1 < cfg.ptrsPerThread := by
      simpa [Reclaim.threadscanQueueIsFull] using room
    have hready : mayCollect (s'.main t) = true := by
      rw [hm, Function.update_self]
      rfl
    have hstate : queueOf s' t = { queueOf s t with
        mayPush := decide ((queueOf s t).items.length + 1 < cfg.ptrsPerThread) } := by
      simp only [queueOf, hlock, hq, taking_move hm htakes, hready, hroom, decide_true]
    exact ⟨.ask, hstate ▸ .ask _, by simp, by simp⟩
  · exact .stay (queueOf_move hm hlock (congrFun hq u) (fun he => absurd he htu) htakes) (by simp)

/-- A reclaimer looks at a queue under the lock, when nobody else does. -/
theorem popHead_follows (run : Run (Reclaim.system cfg) ok es s) {td : T} {rest : List T}
    {n len : ℕ} (ht : s.main t = .popHead (td :: rest) n)
    (hm : s'.main = Function.update s.main t
      (.popTail td rest n (min len (s.queue td).length)))
    (hlock : s'.listLock = s.listLock) (hq : s'.queue = s.queue) : Follows cfg u s .other s' := by
  have hcollects : mayCollect (.popTail td rest n (min len (s.queue td).length)) =
      mayCollect (s.main t) := by
    rw [ht]
    rfl
  by_cases htd : td = u
  · subst htd
    have hheld := (run_walkers run).locked t (by rw [ht]; trivial)
    have hnone : (queueOf s td).seen = none := by
      simp only [queueOf, hheld, Option.bind_some, ht, taking]
    have hseen : taking td (s'.main t) = some (min len (s.queue td).length) := by
      simp only [hm, Function.update_self, taking, if_true]
    have hstate : queueOf s' td =
        { queueOf s td with seen := some (min len (queueOf s td).items.length) } := by
      simp only [queueOf, hlock, hq, hheld, Option.bind_some, hseen,
        mayCollect_move hm fun _ => hcollects]
    exact ⟨.look len, hstate ▸ .look _ _ hnone, by simp, by simp⟩
  · refine .stay (queueOf_move hm hlock (congrFun hq u) (fun _ => hcollects) ?_) (by simp)
    rw [ht]
    exact if_neg htd

/-- It takes what it saw. -/
theorem popTail_follows (run : Run (Reclaim.system cfg) ok es s) {td : T} {rest : List T}
    {n n' k : ℕ} (ht : s.main t = .popTail td rest n k)
    (hm : s'.main = Function.update s.main t (.popHead rest n'))
    (hlock : s'.listLock = s.listLock)
    (hq : s'.queue = Function.update s.queue td ((s.queue td).drop k))
    (hb : s'.buffer = Function.update s.buffer t (memcpy (s.buffer t) n ((s.queue td).take k))) :
    Follows cfg u s .other s' := by
  have hcollects : mayCollect (.popHead rest n') = mayCollect (s.main t) := by
    rw [ht]
    rfl
  by_cases htd : td = u
  · subst htd
    have hheld := (run_walkers run).locked t (by rw [ht]; trivial)
    have hseen : (queueOf s td).seen = some k := by
      simp only [queueOf, hheld, Option.bind_some, ht, taking, if_true]
    have hnone : taking td (s'.main t) = none := by
      simp only [hm, Function.update_self, taking]
    have hstate : queueOf s' td =
        { queueOf s td with items := (queueOf s td).items.drop k, seen := none } := by
      simp only [queueOf, hlock, hq, hheld, Option.bind_some, hnone, Function.update_self,
        mayCollect_move hm fun _ => hcollects]
    refine ⟨.take ((queueOf s td).items.take k), hstate ▸ .take _ k hseen, by simp, ?_⟩
    rintro as ⟨⟩
    exact ⟨t, rest, n, k, ht, rfl, by rw [hb, Function.update_self]; rfl⟩
  · have hsame : s'.queue u = s.queue u := by rw [hq, Function.update_of_ne (Ne.symm htd)]
    refine .stay (queueOf_move hm hlock hsame (fun _ => hcollects) ?_) (by simp)
    rw [ht]
    exact (if_neg htd).symm

theorem contract_step (run : Run (Reclaim.system cfg) ok es s) {e : Reclaim.Event T}
    (move : Reclaim.Step cfg s e s') (u : T) : Follows cfg u s e s' := by
  cases move with
  | push t ptr ht => exact push_follows ht rfl rfl rfl
  | goto t m awake hg =>
    cases hm : s.main t with
    | isFull =>
      rw [hm] at hg
      cases hg with
      | full =>
        exact .stay (queueOf_move rfl rfl rfl (fun _ => by rw [hm]; rfl) (by rw [hm]; rfl)) (by simp)
      | notFull room => exact notFull_follows hm room rfl rfl rfl
    | popHead rest n =>
      rw [hm] at hg
      cases hg with
      | popHead td rest n => exact popHead_follows run hm rfl rfl rfl
    | _ =>
      rw [hm] at hg
      cases hg <;>
        exact .stay (queueOf_move rfl rfl rfl (fun _ => by rw [hm]; rfl) (by rw [hm]; rfl)) (by simp)
  | popTail t td rest n k ht => exact popTail_follows run ht rfl rfl rfl rfl
  | lockQueues t n ht _ free | lockSignal t ht _ free =>
    exact .stay (queueOf_lock rfl rfl free rfl (by rw [ht]; rfl) rfl) (by simp)
  | unlockQueues t n ht | unlockSignal t n ht =>
    exact .stay (queueOf_unlock run (by rw [ht]; trivial) rfl rfl rfl (by rw [ht]; rfl)
      (by rw [ht]; rfl)) (by simp)
  | acquire t ht | assign t _ _ ht | exchange t ht | leftover t _ _ _ ht | count t _ ht | sort t ht
  | scanMap t ht | reset t ht | kill t _ _ _ ht | search t _ _ _ ht | leave t _ ht | release t _ ht
  | verify t _ ht | keep t _ _ _ ht | free t _ _ _ _ ht | randomize t _ ht | store t _ ht =>
    exact .stay (queueOf_move rfl rfl rfl (fun _ => by rw [ht]; rfl) (by rw [ht]; rfl)) (by simp)
  | _ => exact .stay rfl (by simp)

/-- The threads of the protocol keep to the contract of the ring buffer: whatever they do, a
thread collects only when it has been told that its queue has room, and one reclaimer at a time
takes what it has seen of it, onto its list. So the queue holds fewer addresses than it has
slots, and they are the last ones that the thread has collected, in order. -/
theorem queue_contract (cfg : Config) (es : List (Reclaim.Event T)) (s : Reclaim.State T)
    (run : Run (Reclaim.system cfg) anyEvent es s) (u : T) :
    (∃ es', Run (Fifo.system cfg.ptrsPerThread) anyEvent es' (queueOf s u) ∧
      Fifo.pushed es' = collectedBy u es) ∧
    (s.queue u).length < cfg.ptrsPerThread ∧ s.queue u <:+ collectedBy u es ∧
    ∀ e s', Reclaim.Step cfg s e s' →
      ∃ e', Fifo.Step cfg.ptrsPerThread (queueOf s u) e' (queueOf s' u) ∧
        (∀ a, e' = .push a ↔ e = .push u a) ∧
        ∀ as, e' = .take as → ∃ t rest n k, s.main t = .popTail u rest n k ∧
          as = (s.queue u).take k ∧ s'.buffer t = memcpy (s.buffer t) n as := by
  have hfifo : ∃ es', Run (Fifo.system cfg.ptrsPerThread) anyEvent es' (queueOf s u) ∧
      Fifo.pushed es' = collectedBy u es := by
    refine run.invariant (I := fun es s => ∃ es', Run (Fifo.system cfg.ptrsPerThread) anyEvent es'
      (queueOf s u) ∧ Fifo.pushed es' = collectedBy u es) ?_ ?_
    · rintro s ⟨map, rfl⟩
      exact ⟨[], .init rfl, rfl⟩
    · rintro es s e s' run ⟨es', hrun, hpushed⟩ - move
      obtain ⟨e', hstep, hpushes, -⟩ := contract_step run move u
      exact ⟨e' :: es', hrun.step trivial hstep, pushed_follows hpushes hpushed⟩
  have hlarge : 2 ≤ cfg.ptrsPerThread := le_trans (by omega) cfg.ptrsPerThread_bounds.1
  obtain ⟨es', hrun, hpushed⟩ := hfifo
  have hbounded := Fifo.run_bounded hlarge hrun
  refine ⟨⟨es', hrun, hpushed⟩, hbounded.room, ⟨Fifo.taken es', ?_⟩,
    fun e s' move => contract_step run move u⟩
  rw [← hpushed, hbounded.order]
  rfl

/-- A reclaimer takes what it saw of the queue of another thread, which has collected again
meanwhile. -/
theorem queue_contract_pair : ∃ (es : List (Reclaim.Event Bool)) (s : Reclaim.State Bool),
    Run (Reclaim.system (Progress.leastConfig false)) anyEvent es s ∧
      s.main true = .popHead [] 1024 ∧ s.buffer true 1023 = 32768#64 ∧
      s.queue false = [32784#64] ∧ s.queue false <:+ collectedBy false es := by
  have hsmall : 16 * (256 + 1023) < 2 ^ 64 := by norm_num
  have hlength := Progress.addressRow_length 256 1023
  have hmax : (Progress.leastConfig false).maxPtrs = 262144 := Progress.leastConfig_maxPtrs false
  have run₀ : Run (Reclaim.system (Progress.leastConfig false)) anyEvent []
      (Reclaim.initial (T := Bool) fun _ => 0#64) := .init ⟨_, rfl⟩
  have run₁ := Progress.start_run Progress.lets_anyEvent run₀ false [] rfl rfl fun _ => trivial
  have run₂ := Progress.start_run Progress.lets_anyEvent run₁ true [] (by simp [Reclaim.initial]) rfl
    fun _ => trivial
  obtain ⟨es₃, run₃, -⟩ := Progress.fill_run Progress.lets_anyEvent run₂ true
    (Progress.addressRow 256 1023) (fun _ _ _ _ _ => trivial)
    (Progress.addressRow_nonzero hsmall (by norm_num)) (Progress.addressRow_nodup hsmall)
    (fun a _ u hu => by simp at hu) rfl rfl (by simp) rfl (by rw [hlength]; rfl)
  have run₄ := run₃.step (show anyEvent _ _ (Reclaim.Event.push false 32768#64) from trivial)
    (.push _ false 32768#64 rfl rfl (by simp) (by decide))
  have run₅ := run₄.step trivial (.goto _ false .idle rfl (by
    simp only [Function.update_self]
    exact .notFull (by simp [Reclaim.threadscanQueueIsFull, Reclaim.initial,
      Progress.leastConfig_ptrsPerThread])))
  have run₆ := run₅.step trivial (.acquire _ true (by simp) rfl rfl)
  have run₇ := run₆.step trivial (.assign _ true (fun _ => 0#64) (fun _ => 0#64) (by simp) rfl
    fun _ _ _ => rfl)
  have run₈ := run₇.step trivial (.exchange _ true (by simp) rfl)
  have run₉ := run₈.step trivial (.goto _ true (.lockQueues 0) rfl (by
    simp only [Function.update_self]
    exact .drained 0))
  have run₁₀ := run₉.step trivial (.lockQueues _ true 0 (by simp) rfl rfl)
  have run₁₁ := run₁₀.step trivial (.goto _ true _ rfl (by
    simp only [Function.update_self, Reclaim.initial]
    exact .popHead true [false] 0))
  have run₁₂ := run₁₁.step trivial (.popTail _ true true [false] 0 _ (by
    simp only [Function.update_self]
    rfl) rfl)
  have run₁₃ := run₁₂.step trivial (.goto _ true _ rfl (by
    simp only [Function.update_self]
    exact .popHead false [] _))
  -- the other thread collects while its queue is being popped
  have run₁₄ := run₁₃.step (show anyEvent _ _ (Reclaim.Event.push false 32784#64) from trivial)
    (.push _ false 32784#64 (by simp) rfl (by simp) (by decide))
  have run₁₅ := run₁₄.step trivial (.popTail _ true false [] _ _ (by
    simp only [Function.update_of_ne (show true ≠ false by decide), Function.update_self]
    rfl) rfl)
  refine ⟨_, _, run₁₅, ?_, ?_, ?_, (queue_contract _ _ _ run₁₅ false).2.2.1⟩
  · simp [hlength, hmax, Reclaim.initial]
  · simp [memcpy, hlength, hmax, Reclaim.initial]
  · simp [hlength, hmax, Reclaim.initial]

end Protocol

end ThreadScan.QueueContract
