import ThreadScan.LinkedList
import ThreadScan.Reclaim

/-! The storage of leftover addresses (`threadscan.c`). A reclaimer turns its working buffer in
place into a block of addresses and pushes it onto a chain with compare-and-swap; the next
reclaimers take the whole chain, copy the addresses and unmap the blocks.

Buffers go by their addresses, which are used again once they are unmapped. What is in a buffer
between a drain and a store (the queues, the sort, the search) is anything. -/
namespace ThreadScan.Storage
open Transition LinkedList Compaction Rearrangement
open Reclaim (Config)

/-- Where a thread stands in `threadscan_reclaim`: `buf` is its working buffer. -/
inductive Pc
  | idle
  | working (buf : Word)
  | leftovers (buf tmp : Word) (n : ℕ)
  | copied (buf tmp : Word) (n : ℕ)
  | unmap (buf tmp next : Word) (n : ℕ)
  | store (buf : Word) (n : ℕ)
  | converted (buf : Word) (n : ℕ)
  | loaded (buf next : Word) (n : ℕ)
  | linked (buf : Word) (n : ℕ)
  | fatal

/-- The memory behind each address, what the allocator has mapped, `g_tsdata.storage` and the
thread that holds the reclaimer lock. -/
structure State (T : Type*) where
  pc : T → Pc
  mem : Word → Mem
  mapped : Word → Bool
  storage : Word
  lock : Option T

inductive Event (T : Type*)
  | map (t : T) (buf : Word)
  | exchange (t : T)
  | copy (t : T) (buf : Word)
  | drained (t : T)
  | store (t : T) (buf : Word) (addrs : List Word)
  | publish (t : T) (buf : Word)
  | unmap (t : T) (buf : Word)
  | other

variable {T : Type*} [DecidableEq T]

def State.move (s : State T) (t : T) (m : Pc) : State T :=
  { s with pc := Function.update s.pc t m }

/-- A C pointer to a block. -/
def pointer (p : Word) : Option Word := if p = 0#64 then none else some p

/-- The fields `next`, `length` and `addrs` of `addr_storage_t`. Lengths stay below 2^31: that
`add_to_buf_addrs` takes them for an `int` changes nothing. -/
def next (mem : Word → Mem) (b : Word) : Option Word := pointer (mem b 0)

def length (mem : Word → Mem) (b : Word) : ℕ := (mem b 1).toNat

def addrs (mem : Word → Mem) (b : Word) : List Word :=
  (List.range (length mem b)).map fun i : ℕ => mem b (i + 2)

/-- The assignments of `store_remaining_addrs` before its loop. -/
def convert (a : Mem) (n : ℕ) : Mem :=
  let a := Function.update a n (a 0)
  let a := Function.update a (n + 1) (a 1)
  Function.update a 1 (BitVec.ofNat 64 n)

inductive Step (cfg : Config) : State T → Event T → State T → Prop
  /-- `threadscan_alloc_mmap` and `assign_working_space`. -/
  | map (s : State T) (t : T) (buf : Word) (a : Mem) (h : s.pc t = .idle)
      (free : s.mapped buf = false) (nonnull : buf ≠ 0#64) :
      Step cfg s (.map t buf) { s.move t (.working buf) with
        mapped := Function.update s.mapped buf true
        mem := Function.update s.mem buf a }
  /-- Whatever the reclaimer does to its list. -/
  | work (s : State T) (t : T) (buf : Word) (a : Mem) (h : s.pc t = .working buf) :
      Step cfg s .other { s with mem := Function.update s.mem buf a }
  /-- `generate_working_pointers_list`, under the reclaimer lock. -/
  | exchange (s : State T) (t : T) (buf : Word) (h : s.pc t = .working buf)
      (free : s.lock = none) :
      Step cfg s (.exchange t) { s.move t (.leftovers buf s.storage 0) with
        storage := 0#64
        lock := some t }
  /-- `add_to_buf_addrs`. -/
  | copy (s : State T) (t : T) (buf tmp : Word) (n : ℕ) (h : s.pc t = .leftovers buf tmp n)
      (more : tmp ≠ 0#64) (fits : n + length s.mem tmp ≤ 2 * cfg.maxPtrs) :
      Step cfg s (.copy t tmp) { s.move t (.copied buf tmp (n + length s.mem tmp)) with
        mem := Function.update s.mem buf (memcpy (s.mem buf) n (addrs s.mem tmp)) }
  | overflow (s : State T) (t : T) (buf tmp : Word) (n : ℕ) (h : s.pc t = .leftovers buf tmp n)
      (more : tmp ≠ 0#64) (full : 2 * cfg.maxPtrs < n + length s.mem tmp) :
      Step cfg s .other (s.move t .fatal)
  | next (s : State T) (t : T) (buf tmp : Word) (n : ℕ) (h : s.pc t = .copied buf tmp n) :
      Step cfg s .other (s.move t (.unmap buf tmp (s.mem tmp 0) n))
  | unmap (s : State T) (t : T) (buf tmp next : Word) (n : ℕ) (h : s.pc t = .unmap buf tmp next n) :
      Step cfg s (.unmap t tmp) { s.move t (.leftovers buf next n) with
        mapped := Function.update s.mapped tmp false }
  | drained (s : State T) (t : T) (buf : Word) (n : ℕ) (h : s.pc t = .leftovers buf 0#64 n) :
      Step cfg s (.drained t) { s.move t (.working buf) with lock := none }
  /-- `store_remaining_addrs`. -/
  | store (s : State T) (t : T) (buf : Word) (n : ℕ) (h : s.pc t = .working buf) :
      Step cfg s (.store t buf (contents (s.mem buf) n)) (s.move t (.store buf n))
  /-- Nothing remaining, nothing to store. -/
  | nothing (s : State T) (t : T) (buf : Word) (h : s.pc t = .store buf 0) :
      Step cfg s (.unmap t buf) { s.move t .idle with
        mapped := Function.update s.mapped buf false }
  | noSpace (s : State T) (t : T) (buf : Word) (n : ℕ) (h : s.pc t = .store buf n) (some : n ≠ 0)
      (full : 2 * cfg.maxPtrs < n + 2) : Step cfg s .other (s.move t .fatal)
  | convert (s : State T) (t : T) (buf : Word) (n : ℕ) (h : s.pc t = .store buf n) (some : n ≠ 0)
      (fits : n + 2 ≤ 2 * cfg.maxPtrs) :
      Step cfg s .other { s.move t (.converted buf n) with
        mem := Function.update s.mem buf (convert (s.mem buf) n) }
  | load (s : State T) (t : T) (buf : Word) (n : ℕ) (h : s.pc t = .converted buf n) :
      Step cfg s .other (s.move t (.loaded buf s.storage n))
  | link (s : State T) (t : T) (buf next : Word) (n : ℕ) (h : s.pc t = .loaded buf next n) :
      Step cfg s .other { s.move t (.linked buf n) with
        mem := Function.update s.mem buf (Function.update (s.mem buf) 0 next) }
  /-- The compare-and-swap. -/
  | publish (s : State T) (t : T) (buf : Word) (n : ℕ) (h : s.pc t = .linked buf n)
      (same : s.storage = s.mem buf 0) :
      Step cfg s (.publish t buf) { s.move t .idle with storage := buf }
  | retry (s : State T) (t : T) (buf : Word) (n : ℕ) (h : s.pc t = .linked buf n)
      (changed : s.storage ≠ s.mem buf 0) : Step cfg s .other (s.move t (.converted buf n))

/-- Before the first round. -/
def initial (mem : Word → Mem) : State T where
  pc _ := .idle
  mem := mem
  mapped _ := false
  storage := 0#64
  lock := none

def system (cfg : Config) : System (State T) (Event T) where
  init s := ∃ mem, s = initial mem
  step := Step cfg

/-! ### What the events leave behind -/

/-- The blocks on the chain. -/
def stack : List (Event T) → List Word
  | [] => []
  | .publish _ b :: es => b :: stack es
  | .exchange _ :: _ => []
  | _ :: es => stack es

/-- The blocks that the last drain took and has not unmapped yet. -/
def pending : List (Event T) → List Word
  | [] => []
  | .exchange _ :: es => stack es
  | .unmap _ b :: es => (pending es).erase b
  | _ :: es => pending es

/-- The addresses that were last stored through a buffer. -/
def given : List (Event T) → Word → List Word
  | [] => fun _ => []
  | .store _ b l :: es => Function.update (given es) b l
  | _ :: es => given es

/-- The lists that have been published since the last exchange. -/
def undrained : List (Event T) → List (List Word)
  | [] => []
  | .publish _ b :: es => given es b :: undrained es
  | .exchange _ :: _ => []
  | _ :: es => undrained es

/-- The lists that had been published and not drained at the last exchange. -/
def taken : List (Event T) → List (List Word)
  | [] => []
  | .exchange _ :: es => undrained es
  | _ :: es => taken es

/-- The lists that have been copied since. -/
def consumed : List (Event T) → List (List Word)
  | [] => []
  | .exchange _ :: _ => []
  | .copy _ b :: es => consumed es ++ [given es b]
  | _ :: es => consumed es

/-- All the lists that have been published, and those that a drain has taken. -/
def published : List (Event T) → List (List Word)
  | [] => []
  | .publish _ b :: es => given es b :: published es
  | _ :: es => published es

def drained : List (Event T) → List (List Word)
  | [] => []
  | .exchange _ :: es => undrained es ++ drained es
  | _ :: es => drained es

/-- How often a buffer has been mapped, and unmapped. -/
def maps (b : Word) : List (Event T) → ℕ
  | [] => 0
  | .map _ b' :: es => (if b' = b then 1 else 0) + maps b es
  | _ :: es => maps b es

def unmaps (b : Word) : List (Event T) → ℕ
  | [] => 0
  | .unmap _ b' :: es => (if b' = b then 1 else 0) + unmaps b es
  | _ :: es => unmaps b es

/-- The working buffer of a thread. -/
def owned : Pc → Option Word
  | .working b | .leftovers b _ _ | .copied b _ _ | .unmap b _ _ _ | .store b _ | .converted b _
  | .loaded b _ _ | .linked b _ => some b
  | .idle | .fatal => none

def Draining : Pc → Prop
  | .leftovers _ _ _ | .copied _ _ _ | .unmap _ _ _ _ => True
  | _ => False

/-- A block that holds the addresses `l`. -/
def Holds (mem : Word → Mem) (b : Word) (l : List Word) : Prop :=
  length mem b = l.length ∧ (addrs mem b).Perm l

/-- What a thread knows where it stands. -/
def At (es : List (Event T)) (s : State T) : Pc → Prop
  | .leftovers buf tmp n => Linked (next s.mem) (pointer tmp) (pending es) ∧
      taken es = consumed es ++ (pending es).map (given es) ∧
      (contents (s.mem buf) n).Perm (consumed es).flatten
  | .copied buf tmp n => Linked (next s.mem) (pointer tmp) (pending es) ∧ ∃ rest,
      pending es = tmp :: rest ∧ taken es = consumed es ++ rest.map (given es) ∧
      (contents (s.mem buf) n).Perm (consumed es).flatten ∧ given es tmp ∈ consumed es
  | .unmap buf tmp p n => ∃ rest, pending es = tmp :: rest ∧ Linked (next s.mem) (pointer p) rest ∧
      taken es = consumed es ++ rest.map (given es) ∧
      (contents (s.mem buf) n).Perm (consumed es).flatten ∧ given es tmp ∈ consumed es
  | .store buf n => given es buf = contents (s.mem buf) n
  | .converted buf n | .loaded buf _ n | .linked buf n =>
    (given es buf).length = n ∧ Holds s.mem buf (given es buf)
  | .fatal => False
  | .idle | .working _ => True

structure Inv (es : List (Event T)) (s : State T) : Prop where
  chain : Linked (next s.mem) (pointer s.storage) (stack es)
  holds : ∀ b ∈ stack es ++ pending es, b ≠ 0#64 ∧ s.mapped b = true ∧ Holds s.mem b (given es b)
  lists : undrained es = (stack es).map (given es)
  nodup : (stack es ++ pending es).Nodup
  buffers : ∀ t b, owned (s.pc t) = some b → b ≠ 0#64 ∧ s.mapped b = true ∧ b ∉ stack es ++ pending es
  single : ∀ t u b, owned (s.pc t) = some b → owned (s.pc u) = some b → t = u
  mapped : ∀ b, s.mapped b = true → b ∈ stack es ++ pending es ∨ ∃ t, owned (s.pc t) = some b
  lock : ∀ t, s.lock = some t ↔ Draining (s.pc t)
  rest : s.lock = none → pending es = []
  lives : ∀ b, maps b es = unmaps b es + if s.mapped b then 1 else 0
  position : ∀ t, At es s (s.pc t)

variable {cfg : Config} {es es' : List (Event T)} {s s' : State T} {e : Event T} {t : T} {m : Pc}
  {mem mem' : Word → Mem} {b : Word} {l : List Word}

theorem Holds.congr (h : Holds mem b l) (same : mem' b = mem b) : Holds mem' b l := by
  simp only [Holds, length, addrs, same]
  exact h

omit [DecidableEq T] in
/-- What a thread knows depends on its buffer, and on the blocks it drains. -/
theorem At.frame (h : At es s m)
    (own : ∀ b, owned m = some b → s'.mem b = s.mem b ∧ given es' b = given es b)
    (drain : Draining m → pending es' = pending es ∧ taken es' = taken es ∧
      consumed es' = consumed es ∧ ∀ b ∈ pending es, s'.mem b = s.mem b ∧ given es' b = given es b) :
    At es' s' m := by
  have hlinked : ∀ {p l}, (∀ b ∈ l, s'.mem b = s.mem b) → Linked (next s.mem) p l →
      Linked (next s'.mem) p l := fun hmem hl =>
    hl.congr fun b hb => by simp only [next, hmem b hb]
  have hgiven : ∀ {l : List Word}, (∀ b ∈ l, given es' b = given es b) →
      l.map (given es') = l.map (given es) := fun hl => List.map_congr_left hl
  cases m with
  | leftovers buf tmp n =>
    obtain ⟨hl, htaken, hperm⟩ := h
    obtain ⟨hp, ht, hc, hsame⟩ := drain trivial
    refine ⟨hp ▸ hlinked (fun b hb => (hsame b hb).1) hl, ?_, ?_⟩
    · rw [ht, hc, hp, hgiven fun b hb => (hsame b hb).2]
      exact htaken
    · rw [(own buf rfl).1, hc]
      exact hperm
  | copied buf tmp n =>
    obtain ⟨hl, rest, hpend, htaken, hperm, hmem⟩ := h
    obtain ⟨hp, ht, hc, hsame⟩ := drain trivial
    refine ⟨hp ▸ hlinked (fun b hb => (hsame b hb).1) hl, rest, hp.trans hpend, ?_, ?_, ?_⟩
    · rw [ht, hc, hgiven fun b hb => (hsame b (by simp [hpend, hb])).2]
      exact htaken
    · rw [(own buf rfl).1, hc]
      exact hperm
    · rw [hc, (hsame tmp (by simp [hpend])).2]
      exact hmem
  | unmap buf tmp p n =>
    obtain ⟨rest, hpend, hl, htaken, hperm, hmem⟩ := h
    obtain ⟨hp, ht, hc, hsame⟩ := drain trivial
    refine ⟨rest, hp.trans hpend, hlinked (fun b hb => (hsame b (by simp [hpend, hb])).1) hl, ?_, ?_,
      ?_⟩
    · rw [ht, hc, hgiven fun b hb => (hsame b (by simp [hpend, hb])).2]
      exact htaken
    · rw [(own buf rfl).1, hc]
      exact hperm
    · rw [hc, (hsame tmp (by simp [hpend])).2]
      exact hmem
  | store buf n =>
    change given es' buf = contents (s'.mem buf) n
    rw [(own buf rfl).1, (own buf rfl).2]
    exact h
  | converted buf n | loaded buf _ n | linked buf n =>
    obtain ⟨hlen, hholds⟩ := h
    obtain ⟨hm, hg⟩ := own buf rfl
    refine ⟨?_, ?_⟩
    · rw [hg]
      exact hlen
    · rw [hg]
      exact hholds.congr hm
  | fatal => exact h
  | idle | working => trivial

omit [DecidableEq T] in
theorem Inv.at_of (inv : Inv es s) (h : s.pc t = m) : At es s m := h ▸ inv.position t

omit [DecidableEq T] in
/-- A thread's buffer is its own: nobody else has it, and it is no block. -/
theorem Inv.own_buffer (inv : Inv es s) (own : owned (s.pc t) = some b) : b ≠ 0#64 ∧
    s.mapped b = true ∧ b ∉ stack es ++ pending es ∧ ∀ u, u ≠ t → owned (s.pc u) ≠ some b := by
  obtain ⟨hnull, hmap, hout⟩ := inv.buffers t b own
  exact ⟨hnull, hmap, hout, fun u hu hub => hu (inv.single u t b hub own)⟩

omit [DecidableEq T] in
theorem Inv.block_ne (inv : Inv es s) (own : owned (s.pc t) = some b) {b' : Word}
    (h : b' ∈ stack es ++ pending es) : b' ≠ b := by
  rintro rfl
  exact (inv.buffers t b' own).2.2 h

omit [DecidableEq T] in
theorem Inv.other_ne (inv : Inv es s) (own : owned (s.pc t) = some b) {u : T} (hu : u ≠ t)
    {b' : Word} (h : owned (s.pc u) = some b') : b' ≠ b := by
  rintro rfl
  exact hu (inv.single u t b' h own)

/-- What is mapped is a block, or it belongs to `t` or to another thread. -/
theorem Inv.mapped_by (inv : Inv es s) (own : owned (s.pc t) = some b) {b' : Word}
    (h : s.mapped b' = true) : b' ∈ stack es ++ pending es ∨ some b = some b' ∨
      ∃ u, u ≠ t ∧ owned (s.pc u) = some b' := by
  rcases inv.mapped b' h with hin | ⟨u, hu⟩
  · exact .inl hin
  · by_cases hut : u = t
    · rw [hut, own] at hu
      exact .inr (.inl hu)
    · exact .inr (.inr ⟨u, hut, hu⟩)

omit [DecidableEq T] in
/-- Only one thread drains. -/
theorem Inv.not_draining (inv : Inv es s) (lock : s.lock = some t) {u : T} (hu : u ≠ t) :
    ¬ Draining (s.pc u) := by
  intro hd
  have hu' := (inv.lock u).mpr hd
  rw [lock] at hu'
  exact hu (Option.some.inj hu').symm

omit [DecidableEq T] in
theorem Inv.lives_unmap (inv : Inv es s) (mapped : s.mapped b = true) (t : T) (b' : Word) :
    maps b' (.unmap t b :: es) = unmaps b' (.unmap t b :: es) +
      if Function.update s.mapped b false b' then 1 else 0 := by
  by_cases hb : b = b'
  · subst hb
    have := inv.lives b
    rw [mapped, if_pos rfl] at this
    simp [maps, unmaps, this, Nat.add_comm]
  · simpa [maps, unmaps, hb, Ne.symm hb] using inv.lives b'

omit [DecidableEq T] in
theorem mapped_of_update {b' : Word} (h : Function.update s.mapped b false b' = true) :
    b' ≠ b ∧ s.mapped b' = true := by
  have hb : b' ≠ b := by
    rintro rfl
    simp at h
  exact ⟨hb, (Function.update_of_ne hb _ _).symm.trans h⟩

/-- A step of `t` that the other threads do not notice. -/
theorem Inv.update (inv : Inv es s) (pc : s'.pc = Function.update s.pc t m)
    (own : ∀ b, owned m = some b → b ≠ 0#64 ∧ s'.mapped b = true ∧ b ∉ stack es' ++ pending es' ∧
      ∀ u, u ≠ t → owned (s.pc u) ≠ some b)
    (others : ∀ u, u ≠ t → ∀ b, owned (s.pc u) = some b → s'.mapped b = true ∧
      b ∉ stack es' ++ pending es' ∧ s'.mem b = s.mem b ∧ given es' b = given es b)
    (drain : ∀ u, u ≠ t → Draining (s.pc u) → pending es' = pending es ∧ taken es' = taken es ∧
      consumed es' = consumed es ∧ ∀ b ∈ pending es, s'.mem b = s.mem b ∧ given es' b = given es b)
    (chain : Linked (next s'.mem) (pointer s'.storage) (stack es'))
    (holds : ∀ b ∈ stack es' ++ pending es',
      b ≠ 0#64 ∧ s'.mapped b = true ∧ Holds s'.mem b (given es' b))
    (lists : undrained es' = (stack es').map (given es'))
    (nodup : (stack es' ++ pending es').Nodup)
    (mapped : ∀ b, s'.mapped b = true → b ∈ stack es' ++ pending es' ∨ owned m = some b ∨
      ∃ u, u ≠ t ∧ owned (s.pc u) = some b)
    (lock : (s'.lock = some t ↔ Draining m) ∧ ∀ u, u ≠ t → (s'.lock = some u ↔ Draining (s.pc u)))
    (rest : s'.lock = none → pending es' = [])
    (lives : ∀ b, maps b es' = unmaps b es' + if s'.mapped b then 1 else 0)
    (position : At es' s' m) : Inv es' s' := by
  have hself : s'.pc t = m := by rw [pc, Function.update_self]
  have hpc : ∀ u, u ≠ t → s'.pc u = s.pc u := fun u hu => by rw [pc, Function.update_of_ne hu]
  refine ⟨chain, holds, lists, nodup, fun u b hu => ?_, fun u v b hu hv => ?_, fun b hb => ?_,
    fun u => ?_, rest, lives, fun u => ?_⟩
  · by_cases hut : u = t
    · rw [hut, hself] at hu
      obtain ⟨hnull, hmap, hout, -⟩ := own b hu
      exact ⟨hnull, hmap, hout⟩
    · rw [hpc u hut] at hu
      obtain ⟨hmap, hout, -⟩ := others u hut b hu
      exact ⟨(inv.buffers u b hu).1, hmap, hout⟩
  · by_cases hut : u = t <;> by_cases hvt : v = t
    · rw [hut, hvt]
    · rw [hut, hself] at hu
      rw [hpc v hvt] at hv
      exact absurd hv ((own b hu).2.2.2 v hvt)
    · rw [hvt, hself] at hv
      rw [hpc u hut] at hu
      exact absurd hu ((own b hv).2.2.2 u hut)
    · rw [hpc u hut] at hu
      rw [hpc v hvt] at hv
      exact inv.single u v b hu hv
  · rcases mapped b hb with h | h | ⟨u, hu, h⟩
    · exact .inl h
    · exact .inr ⟨t, by rw [hself]; exact h⟩
    · exact .inr ⟨u, by rw [hpc u hu]; exact h⟩
  · by_cases hut : u = t
    · rw [hut, hself]
      exact lock.1
    · rw [hpc u hut]
      exact lock.2 u hut
  · by_cases hut : u = t
    · rw [hut, hself]
      exact position
    · rw [hpc u hut]
      exact (inv.position u).frame (fun b hb => (others u hut b hb).2.2) (drain u hut)

/-- A step of a thread on its own buffer. -/
theorem Inv.stay (inv : Inv es s) (own : owned (s.pc t) = some b) (own' : owned m = some b)
    (pc : s'.pc = Function.update s.pc t m)
    (rest : s'.storage = s.storage ∧ s'.lock = s.lock ∧ s'.mapped = s.mapped)
    (mem : ∀ b', b' ≠ b → s'.mem b' = s.mem b' ∧ given (e :: es) b' = given es b')
    (event : stack (e :: es) = stack es ∧ pending (e :: es) = pending es ∧
      undrained (e :: es) = undrained es ∧ taken (e :: es) = taken es)
    (lives : ∀ b, maps b (e :: es) = maps b es ∧ unmaps b (e :: es) = unmaps b es)
    (consumed : ¬ Draining (s.pc t) → consumed (e :: es) = consumed es)
    (draining : Draining m ↔ Draining (s.pc t)) (position : At (e :: es) s' m) :
    Inv (e :: es) s' := by
  obtain ⟨hstorage, hlock, hmapped⟩ := rest
  obtain ⟨hstack, hpending, hundrained, htaken⟩ := event
  have hblock : ∀ b' ∈ stack es ++ pending es, b' ≠ b := fun b' hb' => inv.block_ne own hb'
  refine inv.update pc (fun b' hb' => ?_) (fun u hu b' hb' => ?_) (fun u hu hd => ?_) ?_
    (fun b' hb' => ?_) ?_ ?_ (fun b' hb' => ?_) ⟨?_, fun u _ => ?_⟩ ?_ (fun b' => ?_) position
  · obtain rfl : b = b' := Option.some.inj (own'.symm.trans hb')
    rw [hstack, hpending, hmapped]
    exact inv.own_buffer own
  · rw [hstack, hpending, hmapped]
    obtain ⟨-, hmap, hout⟩ := inv.buffers u b' hb'
    exact ⟨hmap, hout, mem b' (inv.other_ne own hu hb')⟩
  · refine ⟨hpending, htaken, consumed fun ht => ?_, fun b' hb' => mem b' (hblock b' (by simp [hb']))⟩
    exact inv.not_draining ((inv.lock t).mpr ht) hu hd
  · rw [hstorage, hstack]
    refine inv.chain.congr fun b' hb' => ?_
    simp only [next, (mem b' (hblock b' (by simp [hb']))).1]
  · rw [hstack, hpending] at hb'
    obtain ⟨hnull, hmap, hholds⟩ := inv.holds b' hb'
    obtain ⟨hm, hg⟩ := mem b' (hblock b' hb')
    rw [hg, hmapped]
    exact ⟨hnull, hmap, hholds.congr hm⟩
  · rw [hundrained, hstack, inv.lists]
    exact List.map_congr_left fun b' hb' => (mem b' (hblock b' (by simp [hb']))).2.symm
  · rw [hstack, hpending]
    exact inv.nodup
  · rw [hmapped] at hb'
    rw [hstack, hpending, own']
    exact inv.mapped_by own hb'
  · rw [hlock, inv.lock, draining]
  · rw [hlock, inv.lock]
  · rw [hlock, hpending]
    exact inv.rest
  · rw [(lives b').1, (lives b').2, hmapped]
    exact inv.lives b'

/-- The lists that one drain takes fit into the working list, and what is stored leaves room for
the link and the length. -/
def fitting (cfg : Config) (es : List (Event T)) (_ : State T) : Event T → Prop
  | .exchange _ => (undrained es).flatten.length ≤ 2 * cfg.maxPtrs
  | .store _ _ l => l.length + 2 ≤ 2 * cfg.maxPtrs
  | _ => True

theorem maxPtrs_bounds (cfg : Config) : 1 ≤ cfg.maxPtrs ∧ 2 * cfg.maxPtrs ≤ 2 ^ 24 := by
  have hbounds := cfg.ptrsPerThread_bounds
  simp only [Config.maxPtrs, Reclaim.maxThreadCount]
  omega

theorem run_small (run : Run (system cfg) (fitting cfg) es s) :
    (taken es).flatten.length ≤ 2 * cfg.maxPtrs ∧
      ∀ b, (given es b).length + 2 ≤ 2 * cfg.maxPtrs := by
  have hmax := maxPtrs_bounds cfg
  induction run with
  | init => exact ⟨by simp [taken], fun b => by simp only [given, List.length_nil]; omega⟩
  | @step es s s' e run allowed move ih =>
    obtain ⟨htaken, hgiven⟩ := ih
    cases e with
    | exchange => exact ⟨allowed, hgiven⟩
    | store t buf l =>
      refine ⟨htaken, fun b => ?_⟩
      simp only [given, Function.update_apply]
      split_ifs
      · exact allowed
      · exact hgiven b
    | _ => exact ⟨htaken, hgiven⟩

/-- The block that a buffer is converted into holds what was stored through it. -/
theorem convert_holds {a : Mem} {n : ℕ} (pos : n ≠ 0) (small : n < 2 ^ 64) (mem : Word → Mem)
    (b : Word) : Holds (Function.update mem b (convert a n)) b (contents a n) := by
  have hlength : length (Function.update mem b (convert a n)) b = n := by
    simp only [length, convert, Function.update_self, BitVec.toNat_ofNat]
    exact Nat.mod_eq_of_lt small
  refine ⟨by rw [hlength, contents_length], ?_⟩
  have haddrs : addrs (Function.update mem b (convert a n)) b = storeRemainingAddrs a n := by
    simp only [addrs, hlength]
    simp only [storeRemainingAddrs, Function.update_self, convert]
    refine List.map_congr_left fun i _ => ?_
    rw [Function.update_of_ne (by omega)]
  rw [haddrs]
  exact storeRemainingAddrs_perm a (by omega)

/-- The link of a block is none of its addresses. -/
theorem Holds.link {a : Mem} (h : Holds mem b l) (p : Word) (same : mem b = a) :
    Holds (Function.update mem b (Function.update a 0 p)) b l := by
  subst same
  have hlength : length (Function.update mem b (Function.update (mem b) 0 p)) b = length mem b := by
    simp [length]
  refine ⟨hlength.trans h.1, ?_⟩
  have haddrs : addrs (Function.update mem b (Function.update (mem b) 0 p)) b = addrs mem b := by
    simp only [addrs, hlength, Function.update_self]
    refine List.map_congr_left fun i _ => ?_
    rw [Function.update_of_ne (by omega)]
  rw [haddrs]
  exact h.2

omit [DecidableEq T] in
theorem pending_cons {p : Word} {l : List Word} (h : Linked (next mem) (pointer p) l)
    (some : p ≠ 0#64) : ∃ rest, l = p :: rest := by
  have hhead := h.head
  rw [pointer, if_neg some] at hhead
  cases l with
  | nil => exact absurd hhead (by simp)
  | cons a l => exact ⟨l, by simpa [eq_comm] using hhead⟩

omit [DecidableEq T] in
theorem pending_nil {l : List Word} (h : Linked (next mem) (pointer 0#64) l) : l = [] := by
  have hhead := h.head
  rw [pointer, if_pos rfl] at hhead
  exact List.head?_eq_none_iff.mp hhead.symm

theorem Inv.step (inv : Inv es s) (small : (taken es).flatten.length ≤ 2 * cfg.maxPtrs)
    (room : ∀ b, (given es b).length + 2 ≤ 2 * cfg.maxPtrs) (move : Step cfg s e s') :
    Inv (e :: es) s' := by
  have hmax := maxPtrs_bounds cfg
  cases move with
  | work t buf a h =>
    exact inv.stay (t := t) (m := .working buf) (b := buf) (by rw [h]; rfl) rfl
      (by rw [← h, Function.update_eq_self]) ⟨rfl, rfl, rfl⟩
      (fun b' hb' => ⟨Function.update_of_ne hb' _ _, rfl⟩) ⟨rfl, rfl, rfl, rfl⟩
      (fun _ => ⟨rfl, rfl⟩) (fun _ => rfl) (by rw [h]) trivial
  | copy t buf tmp n h more fits =>
    obtain ⟨hl, htaken, hperm⟩ := inv.at_of h
    obtain ⟨rest, hrest⟩ := pending_cons hl more
    have hown : owned (s.pc t) = some buf := by rw [h]; rfl
    have hholds := (inv.holds tmp (by simp [hrest])).2.2
    refine inv.stay (m := .copied buf tmp _) hown rfl rfl ⟨rfl, rfl, rfl⟩
      (fun b' hb' => ⟨Function.update_of_ne hb' _ _, rfl⟩) ⟨rfl, rfl, rfl, rfl⟩
      (fun _ => ⟨rfl, rfl⟩) (fun hd => absurd (by rw [h]; trivial) hd) (by rw [h]; rfl) ?_
    refine ⟨hl.congr fun b hb => ?_, rest, hrest, ?_, ?_, ?_⟩
    · simp only [next]
      rw [Function.update_of_ne (inv.block_ne hown (List.mem_append_right _ hb))]
    · simp only [taken, consumed, given, htaken, hrest, List.map_cons, List.append_assoc,
        List.singleton_append]
    · have hlen : length s.mem tmp = (addrs s.mem tmp).length := by simp [addrs]
      simp only [consumed, Function.update_self, List.flatten_append]
      rw [hlen, contents_memcpy]
      simpa using hperm.append hholds.2
    · simp [consumed, given]
  | overflow t buf tmp n h more full =>
    obtain ⟨hl, htaken, hperm⟩ := inv.at_of h
    obtain ⟨rest, hrest⟩ := pending_cons hl more
    have hlen := (inv.holds tmp (by simp [hrest])).2.2.1
    have hn := hperm.length_eq
    rw [contents_length] at hn
    rw [htaken, hrest] at small
    simp only [List.map_cons, List.flatten_append, List.flatten_cons, List.length_append] at small
    omega
  | next t buf tmp n h =>
    obtain ⟨hl, rest, hrest, htaken, hperm, hmem⟩ := inv.at_of h
    rw [hrest] at hl
    exact inv.stay (m := .unmap buf tmp _ n) (b := buf) (by rw [h]; rfl) rfl rfl ⟨rfl, rfl, rfl⟩
      (fun _ _ => ⟨rfl, rfl⟩) ⟨rfl, rfl, rfl, rfl⟩ (fun _ => ⟨rfl, rfl⟩)
      (fun _ => rfl) (by rw [h]; rfl) ⟨rest, hrest, hl.pop, htaken, hperm, hmem⟩
  | store t buf n h =>
    exact inv.stay (m := .store buf n) (b := buf) (by rw [h]; rfl) rfl rfl ⟨rfl, rfl, rfl⟩
      (fun b' hb' => ⟨rfl, Function.update_of_ne hb' _ _⟩) ⟨rfl, rfl, rfl, rfl⟩
      (fun _ => ⟨rfl, rfl⟩) (fun _ => rfl) (by rw [h]; rfl) (Function.update_self ..)
  | noSpace t buf n h _ full =>
    have hgiven : given es buf = contents (s.mem buf) n := inv.at_of h
    have hroom := room buf
    rw [hgiven, contents_length] at hroom
    omega
  | convert t buf n h pos fits =>
    have hgiven : given es buf = contents (s.mem buf) n := inv.at_of h
    refine inv.stay (m := .converted buf n) (b := buf) (by rw [h]; rfl) rfl rfl ⟨rfl, rfl, rfl⟩
      (fun b' hb' => ⟨Function.update_of_ne hb' _ _, rfl⟩) ⟨rfl, rfl, rfl, rfl⟩
      (fun _ => ⟨rfl, rfl⟩) (fun _ => rfl) (by rw [h]; rfl) ?_
    change (given es buf).length = n ∧ Holds _ buf (given es buf)
    rw [hgiven]
    exact ⟨contents_length _ _, convert_holds pos (by omega) _ _⟩
  | load t buf n h =>
    exact inv.stay (m := .loaded buf s.storage n) (b := buf) (by rw [h]; rfl) rfl rfl
      ⟨rfl, rfl, rfl⟩ (fun _ _ => ⟨rfl, rfl⟩) ⟨rfl, rfl, rfl, rfl⟩ (fun _ => ⟨rfl, rfl⟩)
      (fun _ => rfl) (by rw [h]; rfl) (inv.at_of h)
  | link t buf p n h =>
    obtain ⟨hlen, hholds⟩ := inv.at_of h
    exact inv.stay (m := .linked buf n) (b := buf) (by rw [h]; rfl) rfl rfl ⟨rfl, rfl, rfl⟩
      (fun b' hb' => ⟨Function.update_of_ne hb' _ _, rfl⟩) ⟨rfl, rfl, rfl, rfl⟩
      (fun _ => ⟨rfl, rfl⟩) (fun _ => rfl) (by rw [h]; rfl) ⟨hlen, hholds.link p rfl⟩
  | retry t buf n h changed =>
    exact inv.stay (m := .converted buf n) (b := buf) (by rw [h]; rfl) rfl rfl ⟨rfl, rfl, rfl⟩
      (fun _ _ => ⟨rfl, rfl⟩) ⟨rfl, rfl, rfl, rfl⟩ (fun _ => ⟨rfl, rfl⟩) (fun _ => rfl)
      (by rw [h]; rfl) (inv.at_of h)
  | map t buf a h free nonnull =>
    have hne : ∀ b, s.mapped b = true → b ≠ buf := by
      rintro b hb rfl
      rw [free] at hb
      exact absurd hb (by simp)
    have hmap : ∀ b, s.mapped b = true → Function.update s.mapped buf true b = true := fun b hb => by
      rw [Function.update_of_ne (hne b hb), hb]
    have hblocks : ∀ b ∈ stack es ++ pending es, b ≠ buf := fun b hb =>
      hne b (inv.holds b hb).2.1
    have howned : ∀ u b, owned (s.pc u) = some b → b ≠ buf := fun u b hb =>
      hne b (inv.buffers u b hb).2.1
    refine inv.update rfl (fun b hb => ?_) (fun u hu b hb => ?_) (fun u hu hd => ?_) ?_
      (fun b hb => ?_) inv.lists inv.nodup (fun b hb => ?_) ⟨?_, fun u _ => inv.lock u⟩ inv.rest
      (fun b => ?_) trivial
    · obtain rfl : buf = b := Option.some.inj hb
      exact ⟨nonnull, Function.update_self .., fun hmem => hblocks buf hmem rfl,
        fun u _ hu => howned u buf hu rfl⟩
    · obtain ⟨-, hm, hout⟩ := inv.buffers u b hb
      exact ⟨hmap b hm, hout, Function.update_of_ne (howned u b hb) _ _, rfl⟩
    · exact ⟨rfl, rfl, rfl, fun b hb =>
        ⟨Function.update_of_ne (hblocks b (List.mem_append_right _ hb)) _ _, rfl⟩⟩
    · refine inv.chain.congr fun b hb => ?_
      simp only [next]
      rw [Function.update_of_ne (hblocks b (List.mem_append_left _ hb))]
    · obtain ⟨hnull, hm, hholds⟩ := inv.holds b hb
      exact ⟨hnull, hmap b hm, hholds.congr (Function.update_of_ne (hblocks b hb) _ _)⟩
    · by_cases hbuf : b = buf
      · exact .inr (.inl (by rw [hbuf]; rfl))
      · simp only [Function.update_of_ne hbuf] at hb
        rcases inv.mapped b hb with hin | ⟨u, hu⟩
        · exact .inl hin
        · refine .inr (.inr ⟨u, ?_, hu⟩)
          rintro rfl
          rw [h] at hu
          exact absurd hu (by simp [owned])
    · change s.lock = some t ↔ False
      rw [inv.lock, h]
      exact .rfl
    · by_cases hbuf : buf = b
      · subst hbuf
        have := inv.lives buf
        simp only [free] at this
        simp [maps, unmaps, this, Nat.add_comm]
      · simpa [maps, unmaps, hbuf, Ne.symm hbuf] using inv.lives b
  | exchange t buf h free =>
    have hpend := inv.rest free
    have hdrain : ∀ u, ¬ Draining (s.pc u) := fun u hu => by
      have := (inv.lock u).mpr hu
      rw [free] at this
      exact absurd this (by simp)
    have hown : owned (s.pc t) = some buf := by rw [h]; rfl
    have hmem : ∀ b, b ∈ stack (.exchange t :: es) ++ pending (.exchange t :: es) ↔
        b ∈ stack es ++ pending es := by
      intro b
      simp [stack, pending, hpend]
    refine inv.update rfl (fun b hb => ?_) (fun u hu b hb => ?_) (fun u hu hd => absurd hd (hdrain u))
      rfl (fun b hb => inv.holds b ((hmem b).mp hb)) rfl ?_ (fun b hb => ?_)
      ⟨iff_of_true rfl trivial, fun u hu => ?_⟩ (fun hnone => absurd hnone (by simp)) inv.lives ?_
    · obtain rfl : buf = b := Option.some.inj hb
      rw [hmem]
      exact inv.own_buffer hown
    · obtain ⟨-, hm, hout⟩ := inv.buffers u b hb
      rw [hmem]
      exact ⟨hm, hout, rfl, rfl⟩
    · have hnodup := inv.nodup
      rw [hpend, List.append_nil] at hnodup
      exact hnodup
    · rw [hmem]
      exact inv.mapped_by hown hb
    · exact iff_of_false (fun he => hu (Option.some.inj he).symm) (hdrain u)
    · exact ⟨inv.chain, inv.lists, by simp [contents, consumed]⟩
  | unmap t buf tmp p n h =>
    obtain ⟨rest, hrest, hl, htaken, hperm, hmem⟩ := inv.at_of h
    have hown : owned (s.pc t) = some buf := by rw [h]; rfl
    have hpend : pending (.unmap t tmp :: es) = rest := by
      simp only [pending, hrest, List.erase_cons_head]
    have hlock : s.lock = some t := (inv.lock t).mpr (by rw [h]; trivial)
    have hnodup := inv.nodup
    rw [hrest] at hnodup
    have hout : tmp ∉ stack es ++ rest := by
      simp only [List.nodup_append', List.nodup_cons, List.disjoint_cons_right, List.mem_append,
        not_or] at hnodup ⊢
      exact ⟨hnodup.2.2.1, hnodup.2.1.1⟩
    have hsub : ∀ b, b ∈ stack es ++ rest → b ∈ stack es ++ pending es ∧ b ≠ tmp := by
      intro b hb
      refine ⟨?_, fun he => hout (he ▸ hb)⟩
      rw [hrest]
      rcases List.mem_append.mp hb with hb | hb
      · exact List.mem_append_left _ hb
      · exact List.mem_append_right _ (List.mem_cons_of_mem _ hb)
    have htmp : tmp ∈ stack es ++ pending es := by simp [hrest]
    have hne : ∀ u b, owned (s.pc u) = some b → b ≠ tmp := by
      rintro u b hb rfl
      exact (inv.buffers u b hb).2.2 htmp
    refine inv.update rfl (fun b hb => ?_) (fun u hu b hb => ?_)
      (fun u hu hd => absurd hd (inv.not_draining hlock hu)) inv.chain
      (fun b hb => ?_) inv.lists ?_ (fun b hb => ?_) ⟨iff_of_true hlock trivial, fun u _ => inv.lock u⟩
      (fun hnone => absurd (hlock.symm.trans hnone) (by simp))
      (inv.lives_unmap (inv.holds tmp htmp).2.1 t) ?_
    · obtain rfl : buf = b := Option.some.inj hb
      obtain ⟨hnull, hm, hnot, hsingle⟩ := inv.own_buffer hown
      exact ⟨hnull, (Function.update_of_ne (hne t buf hown) _ _).trans hm,
        fun hin => hnot (hsub buf (hpend ▸ hin)).1, hsingle⟩
    · obtain ⟨-, hm, hnot⟩ := inv.buffers u b hb
      exact ⟨(Function.update_of_ne (hne u b hb) _ _).trans hm,
        fun hin => hnot (hsub b (hpend ▸ hin)).1, rfl, rfl⟩
    · rw [hpend] at hb
      obtain ⟨hin, hb'⟩ := hsub b hb
      obtain ⟨hnull, hm, hholds⟩ := inv.holds b hin
      exact ⟨hnull, (Function.update_of_ne hb' _ _).trans hm, hholds⟩
    · rw [hpend]
      refine hnodup.sublist ?_
      exact (List.sublist_cons_self _ _).append_left _
    · obtain ⟨hb', hb⟩ := mapped_of_update hb
      rw [hpend]
      refine (inv.mapped_by hown hb).imp_left fun hin => ?_
      rw [hrest] at hin
      change b ∈ stack es ++ rest
      simpa [hb'] using hin
    · refine ⟨hpend ▸ hl, ?_, hperm⟩
      rw [hpend]
      exact htaken
  | drained t buf n h =>
    obtain ⟨hl, -⟩ := inv.at_of h
    have hown : owned (s.pc t) = some buf := by rw [h]; rfl
    have hlock : s.lock = some t := (inv.lock t).mpr (by rw [h]; trivial)
    have hdrain : ∀ u, u ≠ t → ¬ Draining (s.pc u) := fun u hu => inv.not_draining hlock hu
    refine inv.update rfl (fun b hb => ?_) (fun u hu b hb => ?_)
      (fun u hu hd => absurd hd (hdrain u hu)) inv.chain inv.holds inv.lists inv.nodup
      (fun b hb => inv.mapped_by hown hb)
      ⟨iff_of_false (by simp) id, fun u hu => iff_of_false (by simp) (hdrain u hu)⟩
      (fun _ => pending_nil hl) inv.lives trivial
    · obtain rfl : buf = b := Option.some.inj hb
      exact inv.own_buffer hown
    · obtain ⟨-, hm, hout⟩ := inv.buffers u b hb
      exact ⟨hm, hout, rfl, rfl⟩
  | nothing t buf h =>
    have hown : owned (s.pc t) = some buf := by rw [h]; rfl
    obtain ⟨-, hm, hout⟩ := inv.buffers t buf hown
    have hpend : pending (.unmap t buf :: es) = pending es := by
      refine List.erase_of_not_mem fun hin => hout ?_
      exact List.mem_append_right _ hin
    refine inv.update rfl (fun b hb => absurd hb (by simp [owned])) (fun u hu b hb => ?_)
      (fun u hu hd => ⟨hpend, rfl, rfl, fun _ _ => ⟨rfl, rfl⟩⟩) inv.chain (fun b hb => ?_) inv.lists ?_
      (fun b hb => ?_) ⟨?_, fun u _ => inv.lock u⟩ (fun hnone => hpend.trans (inv.rest hnone))
      (inv.lives_unmap hm t) trivial
    · obtain ⟨-, hmb, houtb⟩ := inv.buffers u b hb
      rw [hpend]
      exact ⟨(Function.update_of_ne (inv.other_ne hown hu hb) _ _).trans hmb, houtb, rfl, rfl⟩
    · rw [hpend] at hb
      obtain ⟨hnull, hmb, hholds⟩ := inv.holds b hb
      exact ⟨hnull, (Function.update_of_ne (inv.block_ne hown hb) _ _).trans hmb, hholds⟩
    · rw [hpend]
      exact inv.nodup
    · obtain ⟨hb', hb⟩ := mapped_of_update hb
      rw [hpend]
      rcases inv.mapped_by hown hb with hin | hbuf | hu
      · exact .inl hin
      · exact absurd (Option.some.inj hbuf).symm hb'
      · exact .inr (.inr hu)
    · change s.lock = some t ↔ False
      rw [inv.lock, h]
      exact .rfl
  | publish t buf n h same =>
    obtain ⟨hlen, hholds⟩ := inv.at_of h
    have hown : owned (s.pc t) = some buf := by rw [h]; rfl
    obtain ⟨hnull, hm, hout⟩ := inv.buffers t buf hown
    refine inv.update rfl (fun b hb => absurd hb (by simp [owned])) (fun u hu b hb => ?_)
      (fun u hu hd => ⟨rfl, rfl, rfl, fun _ _ => ⟨rfl, rfl⟩⟩) ⟨?_, ?_⟩ (fun b hb => ?_) ?_ ?_
      (fun b hb => ?_) ⟨?_, fun u _ => inv.lock u⟩ inv.rest inv.lives trivial
    · obtain ⟨-, hmb, houtb⟩ := inv.buffers u b hb
      refine ⟨hmb, fun hin => ?_, rfl, rfl⟩
      exact (List.mem_cons.mp hin).elim (inv.other_ne hown hu hb) houtb
    · exact if_neg hnull
    · change Linked (next s.mem) (pointer (s.mem buf 0)) (stack es)
      rw [← same]
      exact inv.chain
    · rcases List.mem_cons.mp hb with rfl | hb
      · exact ⟨hnull, hm, hholds⟩
      · exact inv.holds b hb
    · exact congrArg (given es buf :: ·) inv.lists
    · exact List.nodup_cons.mpr ⟨hout, inv.nodup⟩
    · rcases inv.mapped_by hown hb with hin | hbuf | hu
      · exact .inl (List.mem_cons_of_mem _ hin)
      · obtain rfl := Option.some.inj hbuf
        exact .inl List.mem_cons_self
      · exact .inr (.inr hu)
    · change s.lock = some t ↔ False
      rw [inv.lock, h]
      exact .rfl

omit [DecidableEq T] in
theorem inv_initial (mem : Word → Mem) : Inv [] (initial mem : State T) where
  chain := rfl
  holds := by simp [stack, pending]
  lists := rfl
  nodup := List.nodup_nil
  buffers := by simp [initial, owned]
  single := by simp [initial, owned]
  mapped := by simp [initial]
  lock := by simp [initial, Draining]
  rest _ := rfl
  lives _ := rfl
  position _ := trivial

theorem run_inv (run : Run (system cfg) (fitting cfg) es s) : Inv es s := by
  induction run with
  | init start =>
    obtain ⟨mem, rfl⟩ := start
    exact inv_initial mem
  | step run _ move ih =>
    obtain ⟨small, room⟩ := run_small run
    exact ih.step small room move

omit [DecidableEq T] in
/-- No list is drained twice, and none is skipped. -/
theorem published_perm (es : List (Event T)) :
    (published es).Perm (drained es ++ undrained es) := by
  induction es with
  | nil => rfl
  | cons e es ih =>
    cases e with
    | publish t b => exact (ih.cons (given es b)).trans List.perm_middle.symm
    | exchange t =>
      refine ih.trans ?_
      simp only [drained, undrained, List.append_nil]
      exact List.perm_append_comm
    | _ => exact ih

structure RoundTrip (es : List (Event T)) (s : State T) : Prop where
  /-- A drain that is done has appended what had been published and not drained before. -/
  drain : ∀ t buf n, s.pc t = .leftovers buf 0#64 n →
    (contents (s.mem buf) n).Perm (taken es).flatten
  partition : (published es).Perm (drained es ++ undrained es)
  /-- The chain holds what has not been drained. -/
  chain : Linked (next s.mem) (pointer s.storage) (stack es)
  blocks : ∀ b ∈ stack es ++ pending es, Holds s.mem b (given es b)
  lists : undrained es = (stack es).map (given es)
  /-- Every mapped buffer is in the hands of one thread, on the chain, or in the hands of the
  drain that took it. -/
  owner : ∀ b, s.mapped b = true ↔
    b ∈ stack es ++ pending es ∨ ∃ t, owned (s.pc t) = some b
  apart : ∀ t b, owned (s.pc t) = some b → b ∉ stack es ++ pending es
  single : ∀ t u b, owned (s.pc t) = some b → owned (s.pc u) = some b → t = u
  once : ∀ b, maps b es = unmaps b es + if s.mapped b then 1 else 0
  /-- Whoever hands a buffer to `threadscan_alloc_munmap` has it, and has read all of it. -/
  discard : ∀ t buf, s.pc t = .store buf 0 → s.mapped buf = true
  consumed : ∀ t buf tmp p n, s.pc t = .unmap buf tmp p n → s.mapped tmp = true ∧
    given es tmp ∈ consumed es ∧ (contents (s.mem buf) n).Perm (consumed es).flatten ∧
    ∃ rest, pending es = tmp :: rest ∧ Linked (next s.mem) (pointer p) rest
  read : ∀ t buf tmp n, s.pc t = .leftovers buf tmp n ∧ tmp ≠ 0#64 ∨ s.pc t = .copied buf tmp n →
    s.mapped tmp = true
  sound : ∀ t, s.pc t ≠ .fatal

/-- Leftovers come back, all of them and once, and their buffers are unmapped once. -/
theorem storage_round_trip (run : Run (system cfg) (fitting cfg) es s) : RoundTrip es s := by
  have inv := run_inv run
  refine ⟨fun t buf n h => ?_, published_perm es, inv.chain, fun b hb => (inv.holds b hb).2.2,
    inv.lists, fun b => ⟨inv.mapped b, ?_⟩, fun t b h => (inv.buffers t b h).2.2, inv.single,
    inv.lives, fun t buf h => (inv.buffers t buf (by rw [h]; rfl)).2.1,
    fun t buf tmp p n h => ?_, fun t buf tmp n h => ?_, fun t h => inv.at_of h⟩
  · obtain ⟨hl, htaken, hperm⟩ := inv.at_of h
    rw [htaken, pending_nil hl, List.map_nil, List.append_nil]
    exact hperm
  · rintro (hb | ⟨t, ht⟩)
    · exact (inv.holds b hb).2.1
    · exact (inv.buffers t b ht).2.1
  · obtain ⟨rest, hrest, hl, -, hperm, hmem⟩ := inv.at_of h
    exact ⟨(inv.holds tmp (by simp [hrest])).2.1, hmem, hperm, rest, hrest, hl⟩
  · rcases h with ⟨h, hnull⟩ | h
    · obtain ⟨hl, -⟩ := inv.at_of h
      obtain ⟨rest, hrest⟩ := pending_cons hl hnull
      exact (inv.holds tmp (by simp [hrest])).2.1
    · obtain ⟨-, rest, hrest, -⟩ := inv.at_of h
      exact (inv.holds tmp (by simp [hrest])).2.1

/-- Thread 0 publishes one address, and thread 1 drains it. -/
theorem storage_round_trip_one :
    ∃ (cfg : Config) (es : List (Event ℕ)) (s : State ℕ), Run (system cfg) (fitting cfg) es s ∧
      s.pc 1 = .leftovers 8192#64 0#64 1 ∧ taken es = [[16#64]] ∧ RoundTrip es s := by
  have hmax : (⟨true, 1024, 10, by simp⟩ : Config).maxPtrs = 262144 := by decide
  have run : Run (system ⟨true, 1024, 10, by simp⟩) (fitting ⟨true, 1024, 10, by simp⟩) []
      (initial fun _ _ => 0#64 : State ℕ) := .init ⟨_, rfl⟩
  have run := run.step (by trivial) (.map _ 0 4096#64 (fun _ => 16#64) rfl rfl (by decide))
  have run := run.step (by simp [fitting, contents_length, hmax]) (.store _ 0 4096#64 1 rfl)
  have run := run.step (by trivial) (.convert _ 0 4096#64 1 rfl (by decide) (by simp [hmax]))
  have run := run.step (by trivial) (.load _ 0 4096#64 1 rfl)
  have run := run.step (by trivial) (.link _ 0 4096#64 0#64 1 rfl)
  have run := run.step (by trivial) (.publish _ 0 4096#64 1 rfl rfl)
  have run := run.step (by trivial) (.map _ 1 8192#64 (fun _ => 0#64) rfl rfl (by decide))
  have run := run.step (by simp [fitting, undrained, given, contents_length, hmax])
    (.exchange _ 1 8192#64 rfl rfl)
  have run := run.step (by trivial) (.copy _ 1 8192#64 4096#64 0 rfl (by decide) (by
    rw [hmax]
    decide))
  have run := run.step (by trivial) (.next _ 1 8192#64 4096#64 1 rfl)
  have run := run.step (by trivial) (.unmap _ 1 8192#64 4096#64 0#64 1 rfl)
  exact ⟨_, _, _, run, rfl, rfl, storage_round_trip run⟩

end ThreadScan.Storage
