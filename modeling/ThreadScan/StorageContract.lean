import ThreadScan.Drain
import ThreadScan.Shelf
import ThreadScan.Storage
import ThreadScan.Tracking

/-! The storage of leftover addresses on two levels. The chain of blocks, with its
compare-and-swap and its conversions in place, is a shelf of lists, on which each list is turned
by two entries; and the rounds of the protocol use a shelf. -/
namespace ThreadScan.StorageContract
open Transition Compaction Rearrangement
open Reclaim (Config)

/-- `store_remaining_addrs` turns its list: the first two entries go to the end. -/
theorem storeRemainingAddrs_eq (a : Mem) {n : ℕ} (h : n ≠ 0) :
    storeRemainingAddrs a n = (contents a n).rotate 2 := by
  apply List.ext_getElem
  · simp [storeRemainingAddrs, contents_length]
  · intro i h₁ h₂
    have hi : i < n := by simpa [storeRemainingAddrs] using h₁
    rw [List.getElem_rotate]
    simp only [storeRemainingAddrs, contents, List.getElem_map, List.getElem_range, List.length_map,
      List.length_range]
    obtain hlt | heq | heq : i + 2 < n ∨ i + 2 = n ∨ i + 2 = n + 1 := by omega
    · rw [Function.update_of_ne (by omega), Function.update_of_ne (by omega), Nat.mod_eq_of_lt hlt]
      push_cast
      rfl
    · have hin : (i : ℤ) + 2 = n := by omega
      rw [hin, Function.update_of_ne (by omega), Function.update_self, heq, Nat.mod_self]
      rfl
    · have hin : (i : ℤ) + 2 = n + 1 := by omega
      rw [hin, Function.update_self, heq, Nat.add_mod_left]
      obtain rfl | hn : n = 1 ∨ 1 < n := by omega
      · simp
      · rw [Nat.mod_eq_of_lt hn, Function.update_of_ne (by omega)]
        rfl

variable {T : Type*} [DecidableEq T] {cfg : Config}

/-! ### The chain -/

section Chain
open Storage

variable {es : List (Event T)} {s s' : State T} {e : Event T} {t : T} {m : Pc} {mem : Word → Mem}
  {b : Word}

/-- What a thread has in its hands. -/
def hand (mem : Word → Mem) (pending : List Word) : Pc → Shelf.Hand Word
  | .idle | .working _ | .fatal => .empty
  | .leftovers buf _ n => .reading (pending.map (addrs mem)) (contents (mem buf) n)
  | .copied buf _ n | .unmap buf _ _ n =>
    .reading (pending.tail.map (addrs mem)) (contents (mem buf) n)
  | .store buf n => .putting ((contents (mem buf) n).rotate 2)
  | .converted buf _ | .loaded buf _ _ | .linked buf _ => .putting (addrs mem buf)

/-- The shelf that a chain stands for: what the memory holds at its blocks. -/
def shelf (es : List (Event T)) (s : State T) : Shelf.State T Word :=
  ⟨(stack es).map (addrs s.mem), fun t => hand s.mem (pending es) (s.pc t)⟩

def action : Event T → Shelf.Event T Word
  | .store t _ l => .pick t (l.rotate 2)
  | .publish t _ => .put t
  | .exchange t => .take t
  | _ => .other

/-- The addresses of a block whose memory is as it was. -/
theorem addrs_congr {mem' : Word → Mem} (h : mem' b = mem b) : addrs mem' b = addrs mem b := by
  simp only [addrs, length, h]

theorem map_addrs_congr {mem' : Word → Mem} {bs : List Word} (h : ∀ b ∈ bs, mem' b = mem b) :
    bs.map (addrs mem') = bs.map (addrs mem) :=
  List.map_congr_left fun b hb => addrs_congr (h b hb)

/-- A thread's hands depend on its buffer, and on the blocks that it drains. -/
theorem hand_congr {mem' : Word → Mem} {bs bs' : List Word}
    (own : ∀ b, owned m = some b → mem' b = mem b)
    (drain : Draining m → bs' = bs ∧ ∀ b ∈ bs, mem' b = mem b) :
    hand mem' bs' m = hand mem bs m := by
  cases m with
  | idle | working | fatal => rfl
  | leftovers buf tmp n | copied buf tmp n | unmap buf tmp next n =>
    obtain ⟨rfl, hsame⟩ := drain trivial
    have htail : ∀ b ∈ bs'.tail, mem' b = mem b := fun b hb => hsame b (List.mem_of_mem_tail hb)
    simp only [hand, own buf rfl, map_addrs_congr hsame, map_addrs_congr htail]
  | store buf n => simp only [hand, own buf rfl]
  | converted buf n | loaded buf next n | linked buf n =>
    simp only [hand, addrs_congr (own buf rfl)]

/-- The addresses of a buffer that has been converted. -/
theorem addrs_convert (a : Mem) {n : ℕ} (pos : n ≠ 0) (small : n < 2 ^ 64) (mem : Word → Mem)
    (b : Word) : addrs (Function.update mem b (convert a n)) b = (contents a n).rotate 2 := by
  have hlength : length (Function.update mem b (convert a n)) b = n := by
    simp only [length, convert, Function.update_self, BitVec.toNat_ofNat]
    exact Nat.mod_eq_of_lt small
  rw [← storeRemainingAddrs_eq a pos]
  simp only [addrs, hlength]
  simp only [storeRemainingAddrs, Function.update_self, convert]
  apply List.map_congr_left
  intro i _
  rw [Function.update_of_ne (by omega)]

/-- The link of a block is none of its addresses. -/
theorem addrs_link (mem : Word → Mem) (b p : Word) :
    addrs (Function.update mem b (Function.update (mem b) 0 p)) b = addrs mem b := by
  have hlength : length (Function.update mem b (Function.update (mem b) 0 p)) b = length mem b := by
    simp [length]
  simp only [addrs, hlength, Function.update_self]
  apply List.map_congr_left
  intro i _
  rw [Function.update_of_ne (by omega)]

/-- A step of `t` that the other threads do not notice. -/
theorem hand_update (pc : s'.pc = Function.update s.pc t m)
    (drain : ∀ u, u ≠ t → Draining (s.pc u) → pending (e :: es) = pending es)
    (blocks : ∀ b ∈ pending es, s'.mem b = s.mem b)
    (others : ∀ u, u ≠ t → ∀ b, owned (s.pc u) = some b → s'.mem b = s.mem b) :
    (shelf (e :: es) s').hand =
      Function.update (shelf es s).hand t (hand s'.mem (pending (e :: es)) m) := by
  funext u
  simp only [shelf, pc]
  by_cases hu : u = t
  · subst hu
    rw [Function.update_self, Function.update_self]
  · rw [Function.update_of_ne hu, Function.update_of_ne hu]
    exact hand_congr (others u hu) fun hd => ⟨drain u hu hd, blocks⟩

omit [DecidableEq T] in
theorem shelf_eq {f : Shelf.State T Word} (shelf' : (shelf es s).shelf = f.shelf)
    (hand' : (shelf es s).hand = f.hand) : shelf es s = f := by
  rw [show shelf es s = ⟨(shelf es s).shelf, (shelf es s).hand⟩ from rfl, shelf', hand']

variable (s') in
/-- Neither do the blocks. -/
theorem shelf_update (pc : s'.pc = Function.update s.pc t m) (chain : stack (e :: es) = stack es)
    (drain : ∀ u, u ≠ t → Draining (s.pc u) → pending (e :: es) = pending es)
    (blocks : ∀ b ∈ stack es ++ pending es, s'.mem b = s.mem b)
    (others : ∀ u, u ≠ t → ∀ b, owned (s.pc u) = some b → s'.mem b = s.mem b) :
    shelf (e :: es) s' = { shelf es s with
      hand := Function.update (shelf es s).hand t (hand s'.mem (pending (e :: es)) m) } := by
  refine shelf_eq ?_ ?_
  · simp only [shelf, chain]
    exact map_addrs_congr fun b hb => blocks b (List.mem_append_left _ hb)
  · exact hand_update pc drain (fun b hb => blocks b (List.mem_append_right _ hb)) others

/-- A step of a thread on its own buffer. -/
theorem step_own {a : Shelf.Event T Word} (inv : Inv es s) (own : owned (s.pc t) = some b)
    (pc : s'.pc = Function.update s.pc t m) (chain : stack (e :: es) = stack es)
    (drain : ∀ u, u ≠ t → Draining (s.pc u) → pending (e :: es) = pending es)
    (mem : ∀ b', b' ≠ b → s'.mem b' = s.mem b')
    (step : Shelf.Step (shelf es s) a { shelf es s with
      hand := Function.update (shelf es s).hand t (hand s'.mem (pending (e :: es)) m) }) :
    Shelf.Step (shelf es s) a (shelf (e :: es) s') := by
  rw [shelf_update _ pc chain drain (fun b' hb' => mem b' (inv.block_ne own hb'))
    fun _ hu b' hb' => mem b' (inv.other_ne own hu hb')]
  exact step

/-- A step after which a thread has the same in its hands as before. -/
theorem step_stutter {h : Shelf.Hand Word} (same : (shelf es s).hand t = h) :
    Shelf.Step (shelf es s) .other { shelf es s with
      hand := Function.update (shelf es s).hand t h } := by
  rw [← same, Function.update_eq_self]
  exact .stutter _

/-- Every step of the chain is one of the shelf. -/
theorem shelf_step (inv : Inv es s) (inv' : Inv (e :: es) s') (move : Step cfg s e s') :
    Shelf.Step (shelf es s) (action e) (shelf (e :: es) s') := by
  have hhand : ∀ {t : T} {m : Pc}, s.pc t = m → (shelf es s).hand t = hand s.mem (pending es) m :=
    fun h => congrArg (hand s.mem (pending es)) h
  have hfatal : ∀ {t : T}, s'.pc t = .fatal → False := fun h => inv'.at_of h
  cases move with
  | map t buf a h free nonnull =>
    have hfresh : ∀ b, s.mapped b = true → b ≠ buf := by
      rintro b hb rfl
      rw [free] at hb
      cases hb
    have hafter : shelf (.map t buf :: es) _ = _ :=
      shelf_update { s.move t (.working buf) with
        mapped := Function.update s.mapped buf true
        mem := Function.update s.mem buf a } (m := .working buf) rfl rfl (fun _ _ _ => rfl)
        (fun b hb => Function.update_of_ne (hfresh b (inv.holds b hb).2.1) _ _)
        fun u _ b hb => Function.update_of_ne (hfresh b (inv.buffers u b hb).2.1) _ _
    rw [hafter]
    exact step_stutter (hhand h)
  | work t buf a h =>
    have hpc : s.pc = Function.update s.pc t (.working buf) := by rw [← h, Function.update_eq_self]
    exact step_own inv (b := buf) (by rw [h]; rfl) hpc rfl (fun _ _ _ => rfl)
      (fun b' hb' => Function.update_of_ne hb' _ _) (step_stutter ((hhand h).trans rfl))
  | exchange t buf h free =>
    have hafter : shelf (.exchange t :: es) { s.move t (.leftovers buf s.storage 0) with
        storage := 0#64
        lock := some t } = ⟨[], Function.update (shelf es s).hand t (.reading (shelf es s).shelf [])⟩ := by
      refine shelf_eq rfl ?_
      refine hand_update (m := .leftovers buf s.storage 0) rfl (fun u _ hd => ?_) (fun _ _ => rfl)
        fun _ _ _ _ => rfl
      rw [← inv.lock, free] at hd
      cases hd
    rw [hafter]
    exact .take _ t (hhand h)
  | copy t buf tmp n h more fits =>
    obtain ⟨hl, -, -⟩ := inv.at_of h
    obtain ⟨rest, hrest⟩ := pending_cons hl more
    have hown : owned (s.pc t) = some buf := by rw [h]; rfl
    refine step_own inv hown rfl rfl (fun _ _ _ => rfl)
      (fun b' hb' => Function.update_of_ne hb' _ _) ?_
    have hblocks : ∀ b ∈ pending es,
        Function.update s.mem buf (memcpy (s.mem buf) n (addrs s.mem tmp)) b = s.mem b :=
      fun b hb => Function.update_of_ne (inv.block_ne hown (List.mem_append_right _ hb)) _ _
    have hlen : length s.mem tmp = (addrs s.mem tmp).length := by simp [addrs]
    have hread : (shelf es s).hand t =
        .reading (addrs s.mem tmp :: rest.map (addrs s.mem)) (contents (s.mem buf) n) := by
      rw [hhand h, hrest]
      rfl
    have hafter : hand (Function.update s.mem buf (memcpy (s.mem buf) n (addrs s.mem tmp)))
        (pending (.copy t tmp :: es)) (.copied buf tmp (n + length s.mem tmp)) =
        .reading (rest.map (addrs s.mem)) (contents (s.mem buf) n ++ addrs s.mem tmp) := by
      have hrestmem : ∀ b ∈ rest, b ∈ pending es := fun b hb => hrest ▸ List.mem_cons_of_mem _ hb
      simp only [hand, pending, hrest, List.tail_cons, Function.update_self, hlen, contents_memcpy]
      rw [map_addrs_congr fun b hb => hblocks b (hrestmem b hb)]
    rw [hafter]
    exact .read _ t _ _ _ hread
  | overflow t buf tmp n h more full => exact (hfatal (t := t) (Function.update_self ..)).elim
  | next t buf tmp n h =>
    exact step_own inv (b := buf) (by rw [h]; rfl) rfl rfl (fun _ _ _ => rfl) (fun _ _ => rfl)
      (step_stutter ((hhand h).trans rfl))
  | unmap t buf tmp next n h =>
    obtain ⟨rest, hrest, -⟩ := inv.at_of h
    have hlock : s.lock = some t := (inv.lock t).mpr (by rw [h]; trivial)
    refine step_own inv (b := buf) (by rw [h]; rfl) rfl rfl (fun u hu hd => ?_) (fun _ _ => rfl)
      (step_stutter ((hhand h).trans ?_))
    · exact absurd hd (inv.not_draining hlock hu)
    · simp only [hand, pending, hrest, List.tail_cons, List.erase_cons_head]
      rfl
  | drained t buf n h =>
    obtain ⟨hl, -⟩ := inv.at_of h
    have hnil := pending_nil hl
    have hread : (shelf es s).hand t = .reading [] (contents (s.mem buf) n) := by
      rw [hhand h, hnil]
      rfl
    exact step_own inv (b := buf) (by rw [h]; rfl) rfl rfl (fun _ _ _ => rfl) (fun _ _ => rfl)
      (.done _ t _ hread)
  | store t buf n h =>
    exact step_own inv (b := buf) (by rw [h]; rfl) rfl rfl (fun _ _ _ => rfl) (fun _ _ => rfl)
      (.pick _ t _ (hhand h))
  | nothing t buf h =>
    have hout := (inv.buffers t buf (by rw [h]; rfl)).2.2
    rw [List.mem_append, not_or] at hout
    have hsame : pending (.unmap t buf :: es) = pending es := List.erase_of_not_mem hout.2
    refine step_own inv (b := buf) (by rw [h]; rfl) rfl rfl (fun _ _ _ => hsame) (fun _ _ => rfl)
      (.drop _ t ?_)
    exact hhand h
  | noSpace t buf n h some full => exact (hfatal (t := t) (Function.update_self ..)).elim
  | convert t buf n h pos fits =>
    have hmax := (maxPtrs_bounds cfg).2
    refine step_own inv (b := buf) (by rw [h]; rfl) rfl rfl (fun _ _ _ => rfl)
      (fun b' hb' => Function.update_of_ne hb' _ _) (step_stutter ((hhand h).trans ?_))
    simp only [hand]
    rw [addrs_convert (s.mem buf) pos (by omega)]
  | load t buf n h =>
    exact step_own inv (b := buf) (by rw [h]; rfl) rfl rfl (fun _ _ _ => rfl) (fun _ _ => rfl)
      (step_stutter ((hhand h).trans rfl))
  | link t buf next n h =>
    refine step_own inv (b := buf) (by rw [h]; rfl) rfl rfl (fun _ _ _ => rfl)
      (fun b' hb' => Function.update_of_ne hb' _ _) (step_stutter ((hhand h).trans ?_))
    simp only [hand, addrs_link]
  | publish t buf n h same =>
    have hafter : shelf (.publish t buf :: es) { s.move t .idle with storage := buf } =
        ⟨addrs s.mem buf :: (shelf es s).shelf, Function.update (shelf es s).hand t .empty⟩ :=
      shelf_eq rfl (hand_update (m := .idle) rfl (fun _ _ _ => rfl) (fun _ _ => rfl)
        fun _ _ _ _ => rfl)
    rw [hafter]
    exact .put _ t _ (hhand h)
  | retry t buf n h changed =>
    exact step_own inv (b := buf) (by rw [h]; rfl) rfl rfl (fun _ _ _ => rfl) (fun _ _ => rfl)
      (step_stutter ((hhand h).trans rfl))

/-- Leftovers are kept as on a shelf. A drain that is done has copied the lists that had been
published, the last one first and each with its first two entries at its end, in that order. -/
theorem chain_refines (cfg : Config) (es : List (Event T)) (s : State T)
    (run : Run (system cfg) (fitting cfg) es s) :
    Run Shelf.system anyEvent (es.map action) (shelf es s) ∧
    ∀ t buf n, s.pc t = .leftovers buf 0#64 n →
      contents (s.mem buf) n = (Shelf.caught t (es.map action)).flatten := by
  have hrun : Run Shelf.system anyEvent (es.map action) (shelf es s) := by
    refine run.refine shelf action ?_ ?_
    · rintro s ⟨mem, rfl⟩
      rfl
    · intro es s e s' run allowed move
      exact shelf_step (run_inv run) (run_inv (run.step allowed move)) move
  refine ⟨hrun, ?_⟩
  intro t buf n h
  obtain ⟨hl, -⟩ := (run_inv run).at_of h
  have hordered := (Shelf.run_ordered hrun).hand t
  have hhand : (shelf es s).hand t = .reading [] (contents (s.mem buf) n) := by
    simp only [shelf, h, hand, pending_nil hl, List.map_nil]
  rw [hhand] at hordered
  exact (List.append_nil _).symm.trans hordered

/-- Thread 1 drains the three addresses that thread 0 has published. -/
theorem chain_refines_three : ∃ (cfg : Config) (es : List (Event ℕ)) (s : State ℕ),
    Run (system cfg) (fitting cfg) es s ∧ s.pc 1 = .leftovers 8192#64 0#64 3 ∧
      contents (s.mem 8192#64) 3 = [48#64, 16#64, 32#64] := by
  have hmax : (⟨true, 1024, 10, by simp⟩ : Config).maxPtrs = 262144 := by decide
  have run : Run (system ⟨true, 1024, 10, by simp⟩) (fitting ⟨true, 1024, 10, by simp⟩) []
      (initial fun _ _ => 0#64 : State ℕ) := .init ⟨_, rfl⟩
  have run := run.step (by trivial)
    (.map _ 0 4096#64 (fun i => BitVec.ofInt 64 (16 * i + 16)) rfl rfl (by decide))
  have run := run.step (by simp [fitting, contents_length, hmax]) (.store _ 0 4096#64 3 rfl)
  have run := run.step (by trivial) (.convert _ 0 4096#64 3 rfl (by decide) (by simp [hmax]))
  have run := run.step (by trivial) (.load _ 0 4096#64 3 rfl)
  have run := run.step (by trivial) (.link _ 0 4096#64 0#64 3 rfl)
  have run := run.step (by trivial) (.publish _ 0 4096#64 3 rfl rfl)
  have run := run.step (by trivial) (.map _ 1 8192#64 (fun _ => 0#64) rfl rfl (by decide))
  have run := run.step (by simp [fitting, undrained, given, contents_length, hmax])
    (.exchange _ 1 8192#64 rfl rfl)
  have run := run.step (by trivial) (.copy _ 1 8192#64 4096#64 0 rfl (by decide) (by
    rw [hmax]
    decide))
  have run := run.step (by trivial) (.next _ 1 8192#64 4096#64 3 rfl)
  have run := run.step (by trivial) (.unmap _ 1 8192#64 4096#64 0#64 3 rfl)
  exact ⟨_, _, _, run, rfl, (chain_refines _ _ _ run).2 1 8192#64 3 rfl⟩

end Chain

/-! ### The rounds -/

section Rounds
open Search Reclaim Handshake Rounds

variable {ok : List (Event T) → State T → Event T → Prop} {es : List (Event T)} {s s' : State T}
  {t : T} {m : Main T} {a : Mem}

/-- What a reclaimer with its buffer has in its hands. -/
def roundHand (a : Mem) : Main T → Shelf.Hand Word
  | .leftovers blocks n => .reading blocks (contents a n)
  | .store n => .putting ((contents a n).rotate 2)
  | _ => .empty

/-- The storage of the protocol and what its threads have in their hands. -/
def roundShelf (s : State T) : Shelf.State T Word :=
  ⟨s.storage, fun t => roundHand (s.buffer t) (s.main t)⟩

/-- The thread that takes the storage. -/
def exchanger : Event T → Option T
  | .exchange t => some t
  | _ => none

def taker : Shelf.Event T Word → Option T
  | .take t => some t
  | _ => none

/-- A reclaimer stores what is left of its list. -/
def Stores (s : State T) (t : T) (n : ℕ) (s' : State T) : Prop :=
  n ≠ 0 ∧ s.main t = .store n ∧ s'.main t ≠ .store n

/-- The step is one of the shelf. It takes the shelf if the storage is exchanged, and puts a list
on it if a reclaimer stores what is left of its own. -/
structure Shelves (s : State T) (e : Event T) (s' : State T) (f : Shelf.Event T Word) : Prop where
  step : Shelf.Step (roundShelf s) f (roundShelf s')
  take : taker f = exchanger e
  put : ∀ t, f = .put t ↔ ∃ n, Stores s t n s'

/-- A thread that moves has nothing to store, and the others do not move. -/
theorem not_stores (main : s'.main = Function.update s.main t m)
    (nothing : ∀ n, n ≠ 0 → s.main t ≠ .store n) (u : T) : ¬ ∃ n, Stores s u n s' := by
  rintro ⟨n, pos, hn, hout⟩
  rw [main] at hout
  by_cases hu : u = t
  · exact nothing n pos (hu ▸ hn)
  · rw [Function.update_of_ne hu] at hout
    exact hout hn

omit [DecidableEq T] in
theorem rests_stores (main : s'.main = s.main) (u : T) : ¬ ∃ n, Stores s u n s' := by
  rintro ⟨n, -, hn, hout⟩
  rw [main] at hout
  exact hout hn

/-- A thread moves on with its own list. -/
theorem shelves_move {e : Event T} {f : Shelf.Event T Word}
    (main : s'.main = Function.update s.main t m)
    (buffer : s'.buffer = Function.update s.buffer t a) (take : taker f = exchanger e)
    (put : ∀ u, f = .put u ↔ ∃ n, Stores s u n s')
    (step : Shelf.Step (roundShelf s) f
      ⟨s'.storage, Function.update (roundShelf s).hand t (roundHand a m)⟩) : Shelves s e s' f := by
  refine ⟨?_, take, put⟩
  have hhand : (roundShelf s').hand = Function.update (roundShelf s).hand t (roundHand a m) := by
    funext u
    simp only [roundShelf, main, buffer]
    by_cases hu : u = t
    · subst hu
      simp only [Function.update_self]
    · simp only [Function.update_of_ne hu]
  rwa [← hhand] at step

/-- Nobody's hands change. -/
theorem shelves_still {e : Event T} (storage : s'.storage = s.storage)
    (hands : ∀ u, roundHand (s'.buffer u) (s'.main u) = roundHand (s.buffer u) (s.main u))
    (none : exchanger e = none) (nothing : ∀ u, ¬ ∃ n, Stores s u n s') : Shelves s e s' .other := by
  refine ⟨?_, none.symm, fun u => ⟨fun h => (by cases h), fun h => (nothing u h).elim⟩⟩
  have hsame : roundShelf s' = roundShelf s := by
    simp only [roundShelf, storage, hands]
  rw [hsame]
  exact .stutter _

/-- A thread moves on with nothing in its hands before or after. -/
theorem shelves_empty {e : Event T} (main : s'.main = Function.update s.main t m)
    (buffer : ∀ u, u ≠ t → s'.buffer u = s.buffer u) (storage : s'.storage = s.storage)
    (before : ∀ a, roundHand a (s.main t) = .empty) (after : ∀ a, roundHand a m = .empty)
    (none : exchanger e = none) : Shelves s e s' .other := by
  refine shelves_still storage (fun u => ?_) none (not_stores main fun n _ hn => ?_)
  · rw [main]
    by_cases hu : u = t
    · subst hu
      rw [Function.update_self, before, after]
    · rw [Function.update_of_ne hu, buffer u hu]
  · have hempty := before (s.buffer t)
    rw [hn] at hempty
    cases hempty

/-- A search marks the list of a thread with nothing in its hands. -/
theorem hand_scans (run : Run (system cfg) ok es s) {u : T} {scan : Scan} (h : Scans s u scan)
    (st : Option (ℤ × Word)) (v : T) :
    roundHand (storeBuf s st v) (s.main v) = roundHand (s.buffer v) (s.main v) := by
  obtain ⟨r, hr⟩ := scans_open run h
  have hready := ready_of_open hr
  simp only [storeBuf, run_owner run r hready.ne_away.1 hready.ne_away.2]
  by_cases hv : v = r
  · subst hv
    generalize s.main v = m at hr
    cases m <;> first | rfl | exact hr.elim
  · rw [Function.update_of_ne hv]

theorem round_shelves (run : Run (system cfg) ok es s) {e : Event T} (move : Step cfg s e s') :
    ∃ f, Shelves s e s' f := by
  have hother : ∀ {f : Shelf.Event T Word}, (∀ u, f ≠ .put u) → (∀ u, ¬ ∃ n, Stores s u n s') →
      ∀ u, f = .put u ↔ ∃ n, Stores s u n s' :=
    fun hf hnothing u => ⟨fun h => (hf u h).elim, fun h => (hnothing u h).elim⟩
  cases move with
  | goto t m _ hg =>
    generalize hm : s.main t = m₀ at hg
    cases hg with
    | drained n =>
      have hread : (roundShelf s).hand t = .reading [] (contents (s.buffer t) n) := by
        simp only [roundShelf, hm, roundHand]
      exact ⟨_, shelves_move rfl (Function.update_eq_self t s.buffer).symm rfl
        (hother (by simp) (not_stores rfl (by simp [hm]))) (.done _ t _ hread)⟩
    | storeNone =>
      have hput : (roundShelf s).hand t = .putting [] := by
        simp only [roundShelf, hm, roundHand]
        rfl
      exact ⟨_, shelves_move rfl (Function.update_eq_self t s.buffer).symm rfl
        (hother (by simp) (not_stores rfl fun n pos => by simp [hm, pos.symm])) (.drop _ t hput)⟩
    | _ =>
      exact ⟨_, shelves_empty rfl (fun _ _ => rfl) rfl (by simp [hm, roundHand]) (fun _ => rfl) rfl⟩
  | exchange t ht =>
    have hempty : (roundShelf s).hand t = .empty := by simp only [roundShelf, ht, roundHand]
    exact ⟨_, shelves_move rfl (Function.update_eq_self t s.buffer).symm rfl
      (hother (by simp) (not_stores rfl (by simp [ht]))) (.take _ t hempty)⟩
  | leftover t block blocks n ht =>
    have hread : (roundShelf s).hand t = .reading (block :: blocks) (contents (s.buffer t) n) := by
      simp only [roundShelf, ht, roundHand]
    refine ⟨.other, shelves_move rfl rfl rfl (hother (by simp) (not_stores rfl (by simp [ht]))) ?_⟩
    simp only [roundHand, contents_memcpy]
    exact .read _ t block blocks _ hread
  | randomize t n ht =>
    have hempty : (roundShelf s).hand t = .empty := by simp only [roundShelf, ht, roundHand]
    exact ⟨_, shelves_move rfl rfl rfl (hother (by simp) (not_stores rfl (by simp [ht])))
      (.pick _ t _ hempty)⟩
  | store t n ht _ pos =>
    have hput : (roundShelf s).hand t = .putting (storeRemainingAddrs (s.buffer t) n) := by
      simp only [roundShelf, ht, roundHand, storeRemainingAddrs_eq (s.buffer t) pos]
    refine ⟨.put t, shelves_move rfl (Function.update_eq_self t s.buffer).symm rfl (fun u => ?_)
      (.put _ t _ hput)⟩
    constructor
    · intro hu
      cases hu
      exact ⟨n, pos, ht, by simp⟩
    · rintro ⟨k, -, hk, hout⟩
      by_cases hu : u = t
      · rw [hu]
      · simp only [Function.update_of_ne hu] at hout
        exact absurd hk hout
  | search t c stage scan ht =>
    refine ⟨_, shelves_still rfl (fun u => ?_) rfl (not_stores rfl (by simp [ht]))⟩
    have hsame := hand_scans run (.inl ⟨c, stage, ht⟩) (searchNext cfg.debug (working s) scan).2 u
    by_cases hu : u = t
    · subst hu
      simp only [Function.update_self, ht, roundHand]
    · simpa only [Function.update_of_ne hu] using hsame
  | helperSearch u stage scan hu =>
    exact ⟨_, shelves_still rfl (hand_scans run (.inr ⟨stage, hu⟩) _) rfl (rests_stores rfl)⟩
  | push t ptr ht | acquire t ht | assign t _ _ ht | lockQueues t _ ht | popTail t _ _ _ _ ht
  | unlockQueues t _ ht | count t _ ht | sort t ht | scanMap t ht | reset t ht | lockSignal t ht
  | kill t _ _ _ ht | unlockSignal t _ ht | leave t _ ht | release t _ ht | verify t _ ht
  | keep t _ _ _ ht | free t _ _ _ _ ht =>
    exact ⟨_, shelves_empty rfl (fun _ hu => by simp [hu]) rfl (by simp [ht, roundHand]) (fun _ => rfl)
      rfl⟩
  | enterHandler | helperNext | helperDone | helperCount | helperTail | mutate | create
  | activate | exit | remove | terminate =>
    exact ⟨_, shelves_still rfl (fun _ => rfl) rfl (rests_stores rfl)⟩

/-- What is stored is put on top as one list. -/
theorem storage_stores {e : Event T} {f : Shelf.Event T Word} (h : Shelves s e s' f) {n : ℕ}
    (stores : Stores s t n s') : s'.storage = storeRemainingAddrs (s.buffer t) n :: s.storage := by
  obtain rfl := (h.put t).mpr ⟨n, stores⟩
  have hstep := h.step
  generalize hr : roundShelf s' = r at hstep
  cases hstep with
  | put _ l hl =>
    have hhand : (roundShelf s).hand t = .putting (storeRemainingAddrs (s.buffer t) n) := by
      simp only [roundShelf, stores.2.1, roundHand, storeRemainingAddrs_eq (s.buffer t) stores.1]
    rw [hhand] at hl
    cases hl
    exact congrArg Shelf.State.shelf hr

/-- The rounds of the protocol use the storage as a shelf. Every step is one of the shelf: an
exchange takes all that is there, and a reclaimer that is done puts what is left of its list on top
as one list. So a reclaimer copies the lists of the rounds before, the last one first. -/
theorem storage_contract (cfg : Config) (es : List (Event T)) (s : State T)
    (run : Run (system cfg) anyEvent es s) :
    (∀ e s', Step cfg s e s' → (∃ f, Shelves s e s' f) ∧
      ∀ t n, Stores s t n s' → s'.storage = storeRemainingAddrs (s.buffer t) n :: s.storage) ∧
    ∃ fs, Run Shelf.system anyEvent fs (roundShelf s) ∧ fs.filterMap taker = es.filterMap exchanger ∧
      ∀ r blocks n, s.main r = .leftovers blocks n →
        contents (s.buffer r) n ++ blocks.flatten = (Shelf.caught r fs).flatten := by
  refine ⟨fun e s' move => ?_, ?_⟩
  · obtain ⟨f, hf⟩ := round_shelves run move
    exact ⟨⟨f, hf⟩, fun t n => storage_stores hf⟩
  have hshelf : ∃ fs, Run Shelf.system anyEvent fs (roundShelf s) ∧
      fs.filterMap taker = es.filterMap exchanger := by
    refine run.invariant (I := fun es s => ∃ fs, Run Shelf.system anyEvent fs (roundShelf s) ∧
      fs.filterMap taker = es.filterMap exchanger) ?_ ?_
    · rintro s ⟨map, rfl⟩
      exact ⟨[], .init rfl, rfl⟩
    · rintro es s e s' run ⟨fs, hrun, hsame⟩ - move
      obtain ⟨f, hf⟩ := round_shelves run move
      refine ⟨f :: fs, hrun.step trivial hf.step, ?_⟩
      rw [List.filterMap_cons, List.filterMap_cons, hf.take, hsame]
  obtain ⟨fs, hrun, hsame⟩ := hshelf
  refine ⟨fs, hrun, hsame, ?_⟩
  intro r blocks n hr
  have hordered := (Shelf.run_ordered hrun).hand r
  have hhand : (roundShelf s).hand r = .reading blocks (contents (s.buffer r) n) := by
    simp only [roundShelf, hr, roundHand]
  rw [hhand] at hordered
  exact hordered

/-- The second round of a thread takes the address that its first one has stored. -/
theorem storage_contract_second : ∃ (es : List (Event Unit)) (s s' : State Unit)
    (fs : List (Shelf.Event Unit Word)),
    Run (system (Progress.leastConfig false)) anyEvent (.exchange () :: es) s' ∧
      (∃ f, Shelves s (.exchange ()) s' f) ∧ 4112#64 ∈ s.storage.flatten ∧ s'.storage = [] ∧
      Run Shelf.system anyEvent fs (roundShelf s') ∧ 4112#64 ∈ (Shelf.caught () fs).flatten := by
  obtain ⟨es, s, run₀, lone, idle, free, empty, hkept, -, hes⟩ := Tracking.kept_round false
  have hsmall : 16 * (1279 + 1023) < 2 ^ 64 := by norm_num
  have run : Run (system (Progress.leastConfig false)) anyEvent es s :=
    run₀.weaken fun _ _ _ _ => trivial
  obtain ⟨es₁, run₁, -⟩ := Progress.fill_run Progress.lets_anyEvent run ()
    (Progress.addressRow 1279 1023) (fun _ _ _ _ _ => trivial)
    (Progress.addressRow_nonzero hsmall (by norm_num)) (Progress.addressRow_nodup hsmall)
    (fun a ha u hu => Progress.addressRow_apart ha (hes u a hu))
    idle lone.handler lone.life empty (by rw [Progress.addressRow_length]; rfl)
  have run₂ := run₁.step trivial (.acquire _ () (by simp) lone.handler free)
  have run₃ := run₂.step trivial (.assign _ () (fun _ => 0#64) s.bufScanMap (by simp) lone.handler
    fun _ _ _ => rfl)
  have run₄ := run₃.step trivial (.exchange _ () (by simp) lone.handler)
  obtain ⟨fs, hfs, -, hcaught⟩ := (storage_contract _ _ _ run₄).2
  have hshelves := (storage_contract _ _ _ run₃).1 _ _ (.exchange _ () (by simp) lone.handler)
  refine ⟨_, _, _, fs, run₄, hshelves.1, hkept, rfl, hfs, ?_⟩
  rw [← hcaught () s.storage 0 (by simp)]
  exact List.mem_append_right _ hkept

end Rounds

end ThreadScan.StorageContract
