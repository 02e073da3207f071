import ThreadScan.Custody
import ThreadScan.Rounds

/-! The way of an address: from the queue of the thread that collects it to the working list
of a round, and from there to `free` or, through the storage, to the list of a later round.
A compaction that overwrites its first entry is the one step that breaks the chain. -/
namespace ThreadScan.Bookkeeping
open Transition Search Marking Compaction Rearrangement Custody Reclaim Handshake Rounds

variable {T : Type*} [DecidableEq T] {cfg : Config}
  {ok : List (Event T) → State T → Event T → Prop} {es : List (Event T)} {s s' : State T}

inductive Place (T : Type*)
  | queue (t : T)
  | list (t : T)
  | storage
  deriving DecidableEq

/-- The addresses a reclaimer is working on, without their marks. -/
def workingList (m : Main T) (a : Mem) (nAddrs : ℕ) : List Word :=
  match m with
  | .leftovers blocks n => contents a n ++ blocks.flatten
  | .lockQueues n | .popHead _ n | .popTail _ _ n _ | .count n => contents a n
  | .sort | .scanMap | .reset | .lockSignal | .signal _ _ | .search _ _ _ | .wait _ =>
    (contents a nAddrs).map unmark
  | .release n | .verify n | .fatal n => (contents a n).map unmark
  | .handle n i w => contents a w ++ pendingEntries a i n
  | .randomize n | .store n => contents a n
  | .idle | .isFull | .tryAcquire | .assign | .exchange => []

/-- The entries of a place. -/
def place (s : State T) : Place T → List Word
  | .queue t => s.queue t
  | .list t => workingList (s.main t) (s.buffer t) s.nAddrs
  | .storage => s.storage.flatten

/-- The addresses in a place: a zero entry is none. -/
def addresses (s : State T) (p : Place T) : List Word := (place s p).filter (· ≠ 0#64)

/-- The address has been collected, and not been freed since. -/
def Live (a : Word) : List (Event T) → Prop
  | [] => False
  | .push _ b :: es => b = a ∨ Live a es
  | .free _ b :: es => b ≠ a ∧ Live a es
  | _ :: es => Live a es

/-- The address has been collected. -/
def Collected (a : Word) (es : List (Event T)) : Prop := ∃ t, Event.push t a ∈ es

/-- How often the address has been freed since it was last collected. -/
def freesSince (a : Word) : List (Event T) → ℕ
  | [] => 0
  | .push _ b :: es => if b = a then 0 else freesSince a es
  | .free _ b :: es => if b = a then freesSince a es + 1 else freesSince a es
  | _ :: es => freesSince a es

/-- The position of the compaction. -/
def Compacting (s : State T) : Prop := ∀ t n i w, s.main t = .handle n i w → w ≤ i ∧ i ≤ n

theorem Compacting.step {e : Event T} (h : Compacting s) (move : Step cfg s e s') :
    Compacting s' := by
  have hother : ∀ {t : T} {m : Main T}, s'.main = Function.update s.main t m →
      (∀ n i w, m = .handle n i w → w ≤ i ∧ i ≤ n) → Compacting s' := by
    intro t m hm hnew u n i w hu
    rw [hm] at hu
    by_cases he : u = t
    · subst he
      rw [Function.update_self] at hu
      exact hnew n i w hu
    · rw [Function.update_of_ne he] at hu
      exact h u n i w hu
  cases move with
  | goto t m _ hg =>
    refine hother rfl ?_
    rintro n i w rfl
    generalize s.main t = m₀ at hg
    cases hg
  | verify t n ht =>
    refine hother rfl fun n' i w he => ?_
    cases he
    omega
  | keep t n i w ht _ more kept =>
    refine hother rfl fun n' i' w' he => ?_
    obtain ⟨hw, -⟩ := h t n i w ht
    have hpos := handleEntry_position (s.buffer t) i w
    cases he
    omega
  | free t n i w ptr ht _ more freed =>
    refine hother rfl fun n' i' w' he => ?_
    obtain ⟨hw, -⟩ := h t n i w ht
    have hpos := handleEntry_position (s.buffer t) i w
    cases he
    omega
  | push | acquire | assign | exchange | leftover | lockQueues | popTail | unlockQueues | count
  | sort | scanMap | reset | lockSignal | kill | unlockSignal | search | leave | release
  | randomize | store =>
    exact hother rfl (by simp)
  | _ => exact h

theorem run_compacting (run : Run (system cfg) ok es s) : Compacting s := by
  refine run.invariant (I := fun _ s => Compacting s) ?_ fun _ _ _ _ _ inv _ move => inv.step move
  rintro s ⟨map, rfl⟩ t n i w h
  simp [initial] at h

/-! ### What one step does with the addresses -/

/-- The event neither collects nor frees. -/
def Passing : Event T → Prop
  | .push _ _ | .free _ _ => False
  | _ => True

/-- What a step does with the entries: it hands them on as its event says, or a compaction
overwrites the entry at its write position with zero. -/
inductive Handing (s s' : State T) : Event T → Prop
  | push (t : T) (a : Word) (h : Change (place s) (place s') (.take a)) : Handing s s' (.push t a)
  | free (t : T) (a : Word) (h : Change (place s) (place s') (.give a)) : Handing s s' (.free t a)
  | keep (e : Event T) (pass : Passing e) (h : Change (place s) (place s') .keep) :
      Handing s s' e
  | lost (t : T) (n i : ℕ) (x : Word) (r : List Word) (at_ : s.main t = .handle n i i)
      (more : i < n) (marked : lowBit (s.buffer t i) = true) (before : (place s (.list t)).Perm (x :: r))
      (after : (place s' (.list t)).Perm (0#64 :: r))
      (other : ∀ p, p ≠ .list t → place s' p = place s p) : Handing s s' (.keep t)

/-- A thread that moves on with its own list. -/
theorem change_list {t : T} {m : Main T} {a : Mem} (hm : s'.main = Function.update s.main t m)
    (hb : s'.buffer = Function.update s.buffer t a) (hq : s'.queue = s.queue)
    (hs : s'.storage = s.storage) (hn : s'.nAddrs = s.nAddrs)
    (hp : (workingList m a s.nAddrs).Perm (workingList (s.main t) (s.buffer t) s.nAddrs)) :
    Change (place s) (place s') .keep := by
  refine Change.of_perm (p := .list t) ?_ ?_
  · simpa only [place, hm, hb, hn, Function.update_self] using hp
  · rintro (u | u | _) hu
    · simp only [place, hq]
    · have hne : u ≠ t := fun he => hu (he ▸ rfl)
      simp only [place, hm, hb, hn, Function.update_of_ne hne]
    · simp only [place, hs]

theorem change_stay {t : T} {m : Main T} (hm : s'.main = Function.update s.main t m)
    (hb : s'.buffer = s.buffer) (hq : s'.queue = s.queue) (hs : s'.storage = s.storage)
    (hn : s'.nAddrs = s.nAddrs)
    (hp : (workingList m (s.buffer t) s.nAddrs).Perm
      (workingList (s.main t) (s.buffer t) s.nAddrs)) :
    Change (place s) (place s') .keep :=
  change_list hm (hb.trans (Function.update_eq_self t _).symm) hq hs hn hp

omit [DecidableEq T] in
theorem goto_list {t : T} {m m' : Main T} (h : Goto cfg s t m m') (a : Mem) (n : ℕ) :
    workingList m' a n = workingList m a n := by
  cases h with
  | handled n w => simp [workingList, pendingEntries_self]
  | storeNone => rfl
  | drained n => simp [workingList]
  | _ => rfl

/-- A mark does not change the address it is made on. -/
theorem unmark_store {orig a : Mem} {n : ℤ} {words : List Word} {st : Option (ℤ × Word)}
    (marked : Marked n orig a) (h : Marks orig n words st) (i : ℤ) :
    unmark (Search.store a st i) = unmark (a i) := by
  cases st with
  | none => rfl
  | some p =>
    obtain ⟨-, h4, -, hv⟩ := h p rfl
    by_cases hi : i = p.1
    · subst hi
      simp only [Search.store, Function.update_self, hv]
      obtain he | ⟨-, -, he⟩ := marked p.1
      · rw [he, unmark_add_one h4, unmark_of_even (by omega)]
      · rw [he]
    · simp only [Search.store, Function.update_of_ne hi]

omit [DecidableEq T] in
theorem open_list {m : Main T} (h : RollCall.Open (phase m)) (a : Mem) (n : ℕ) :
    workingList m a n = (contents a n).map unmark := by
  cases m <;> first | rfl | exact h.elim

/-- Marks leave every working list as it is. -/
theorem list_marks (run : Run (system cfg) ok es s) {u : T} {scan : Scan} (h : Scans s u scan)
    (v : T) :
    workingList (s.main v) (storeBuf s (searchNext cfg.debug (working s) scan).2 v) s.nAddrs =
      workingList (s.main v) (s.buffer v) s.nAddrs := by
  obtain ⟨r, hr⟩ := scans_open run h
  have hready := ready_of_open hr
  have howner := run_owner run r hready.ne_away.1 hready.ne_away.2
  simp only [storeBuf, howner]
  by_cases hv : v = r
  · subst hv
    rw [Function.update_self, open_list hr, open_list hr]
    by_cases hn : s.nAddrs = 0
    · rw [hn]
      rfl
    · have inv := run_searches run
      have hlist := inv.list v hready (by omega)
      obtain ⟨words, hsound⟩ := inv.sound u scan h (by omega)
      have hmarks := (hsound.next (g := working s) hlist cfg.debug).2
      have hmarked := hlist.marked
      simp only [working, bufAddrs_of_owner howner] at hmarked
      simp only [contents, List.map_map]
      apply List.map_congr_left
      intro i _
      exact unmark_store hmarked hmarks i
  · rw [Function.update_of_ne hv]

/-- A compaction at its write position exchanges the entry for a zero. -/
theorem list_overwritten {t : T} {n i : ℕ} (ht : s.main t = .handle n i i)
    (marked : lowBit (s.buffer t i) = true) (move : Step cfg s (.keep t) s') :
    ∃ r, (place s (.list t)).Perm (unmark (s.buffer t i) :: r) ∧
      (place s' (.list t)).Perm (0#64 :: r) ∧ ∀ p, p ≠ .list t → place s' p = place s p := by
  cases move with
  | keep _ n' i' w' ht' awake more kept =>
    rw [ht] at ht'
    cases ht'
    obtain ⟨hpos, hlist⟩ := handleEntry_loses marked
    refine ⟨contents (s.buffer t) i ++ pendingEntries (s.buffer t) (i + 1) n, ?_, ?_, ?_⟩
    · simp only [place, ht, workingList, pendingEntries_cons (s.buffer t) more]
      exact List.perm_middle
    · simp only [place, Function.update_self, workingList, hpos, hlist,
        pendingEntries_handleEntry (s.buffer t) le_rfl n]
      rw [List.append_assoc]
      exact List.perm_middle
    · rintro (u | u | _) hu
      · rfl
      · have hne : u ≠ t := fun he => hu (he ▸ rfl)
        simp only [place, Function.update_of_ne hne]
      · rfl

theorem perm_push (l : List Word) (a : Word) : (l ++ [a]).Perm (a :: l) :=
  List.perm_append_comm

/-- Every step hands the addresses on, but for a compaction that overwrites its entry. -/
theorem handing (run : Run (system cfg) ok es s) {e : Event T} (move : Step cfg s e s')
    (even : ∀ p, ∀ x ∈ place s p, x.toNat % 2 = 0) : Handing s s' e := by
  have hat : ∀ {t : T} {m : Main T}, s.main t = m →
      workingList (s.main t) (s.buffer t) s.nAddrs = workingList m (s.buffer t) s.nAddrs :=
    fun h => by rw [h]
  cases move with
  | push t ptr ht =>
    refine .push t ptr (.taken (.queue t) ptr ?_ ?_)
    · simpa only [place, Function.update_self] using perm_push (s.queue t) ptr
    · rintro (u | u | _) hu
      · have hne : u ≠ t := fun he => hu (he ▸ rfl)
        simp only [place, Function.update_of_ne hne, List.Perm.refl]
      · by_cases hut : u = t
        · subst hut
          simp [place, ht, workingList]
        · simp only [place, Function.update_of_ne hut, List.Perm.refl]
      · exact List.Perm.refl _
  | goto t m _ hg =>
    exact .keep _ trivial (change_stay rfl rfl rfl rfl rfl (by rw [goto_list hg]))
  | acquire t ht => exact .keep _ trivial (change_stay rfl rfl rfl rfl rfl (by rw [hat ht]; rfl))
  | assign t mem map ht => exact .keep _ trivial (change_list rfl rfl rfl rfl rfl (by rw [hat ht]; rfl))
  | exchange t ht =>
    refine .keep _ trivial (.moved .storage (.list t) s.storage.flatten [] (by simp) ?_ ?_ ?_ ?_)
    · simp [place]
    · simp [place]
    · simp [place, ht, workingList, contents]
    · rintro (u | u | _) h₁ h₂
      · exact List.Perm.refl _
      · have hne : u ≠ t := fun he => h₂ (he ▸ rfl)
        simp only [place, Function.update_of_ne hne, List.Perm.refl]
      · exact absurd rfl h₁
  | leftover t block blocks n ht =>
    refine .keep _ trivial (change_list rfl rfl rfl rfl rfl ?_)
    rw [hat ht]
    simp only [workingList, contents_memcpy, List.flatten_cons, List.append_assoc, List.Perm.refl]
  | lockQueues t n ht | unlockQueues t n ht =>
    exact .keep _ trivial (change_stay rfl rfl rfl rfl rfl (by rw [hat ht]; rfl))
  | popTail t td rest n k ht =>
    refine .keep _ trivial (.moved (.queue td) (.list t) ((s.queue td).take k) ((s.queue td).drop k)
      (by simp) ?_ ?_ ?_ ?_)
    · simp [place]
    · simp [place]
    · simp only [place, Function.update_self]
      rw [hat ht]
      simp only [workingList, contents_memcpy, List.Perm.refl]
    · rintro (u | u | _) h₁ h₂
      · have hne : u ≠ td := fun he => h₁ (he ▸ rfl)
        simp only [place, Function.update_of_ne hne, List.Perm.refl]
      · have hne : u ≠ t := fun he => h₂ (he ▸ rfl)
        simp only [place, Function.update_of_ne hne, List.Perm.refl]
      · exact List.Perm.refl _
  | count t n ht =>
    refine .keep _ trivial (.rearranged ?_)
    rintro (u | u | _)
    · exact List.Perm.refl _
    · by_cases hut : u = t
      · subst hut
        have heven := even (.list u)
        simp only [place] at heven
        rw [hat ht] at heven
        simp only [workingList] at heven
        have hmap : (contents (s.buffer u) n).map unmark = contents (s.buffer u) n :=
          (List.map_congr_left fun x hx => unmark_of_even (heven x hx)).trans (List.map_id _)
        simp only [place, Function.update_self]
        rw [hat ht]
        simp only [workingList, hmap, List.Perm.refl]
      · have haway : phase (s.main u) = .away := by
          by_contra hne
          exact hut (alone run hne (by simp [ht, phase]))
        simp only [place, Function.update_of_ne hut]
        generalize s.main u = m at haway
        cases m <;> first | exact List.Perm.refl _ | cases haway
    · exact List.Perm.refl _
  | sort t ht =>
    refine .keep _ trivial (change_list rfl rfl rfl rfl rfl ?_)
    rw [hat ht]
    exact (ThreadScan.Sort.threadscanUtilSort_perm _ _).map unmark
  | scanMap t ht | reset t ht | lockSignal t ht | kill t _ _ _ ht | unlockSignal t _ ht
  | leave t _ ht | release t _ ht =>
    exact .keep _ trivial (change_stay rfl rfl rfl rfl rfl (by rw [hat ht]; rfl))
  | search t c stage scan ht =>
    refine .keep _ trivial (.rearranged ?_)
    rintro (u | u | _)
    · exact List.Perm.refl _
    · have hmarks := list_marks run (.inl ⟨c, stage, ht⟩) u
      by_cases hut : u = t
      · subst hut
        rw [ht] at hmarks
        simp only [place, Function.update_self]
        rw [hat ht]
        exact .of_eq hmarks
      · simp only [place, Function.update_of_ne hut]
        exact .of_eq hmarks
    · exact List.Perm.refl _
  | verify t n ht =>
    refine .keep _ trivial (change_stay rfl rfl rfl rfl rfl ?_)
    rw [hat ht]
    simp [workingList, pendingEntries_zero, contents]
  | keep t n i w ht awake more kept =>
    obtain ⟨hw, -⟩ := run_compacting run t n i w ht
    have hlow := lowBit_of_kept kept
    have hrest := pendingEntries_handleEntry (s.buffer t) hw n
    have hall := pendingEntries_cons (s.buffer t) more
    obtain hlt | rfl : w < i ∨ w = i := by omega
    · obtain ⟨hpos, hlist⟩ := handleEntry_moves hlt hlow
      refine .keep _ trivial (change_list rfl rfl rfl rfl rfl ?_)
      rw [hat ht, hpos]
      simp only [workingList, hlist, hrest, hall, List.append_assoc, List.singleton_append,
        List.Perm.refl]
    · obtain ⟨r, hbefore, hafter, hother⟩ := list_overwritten ht hlow
        (show Step cfg s _ _ from .keep s t n w w ht awake more kept)
      exact .lost t n w (unmark (s.buffer t w)) r ht more hlow hbefore hafter hother
  | free t n i w ptr ht _ more freed =>
    obtain ⟨hw, -⟩ := run_compacting run t n i w ht
    have hlow := lowBit_of_freed freed
    have hrest := pendingEntries_handleEntry (s.buffer t) hw n
    have hall := pendingEntries_cons (s.buffer t) more
    obtain ⟨hout, hlist⟩ := handleEntry_frees hw hlow
    rw [unmark_of_not_lowBit hlow] at hall
    rw [hout] at freed
    obtain rfl := Option.some.inj freed
    refine .free t _ (.given (.list t) _ ?_ ?_)
    · simp only [place, Function.update_self]
      rw [hat ht]
      simp only [workingList, hout, hlist, hrest, hall]
      exact List.perm_middle
    · rintro (u | u | _) hu
      · exact List.Perm.refl _
      · have hne : u ≠ t := fun he => hu (he ▸ rfl)
        simp only [place, Function.update_of_ne hne, List.Perm.refl]
      · exact List.Perm.refl _
  | randomize t n ht =>
    refine .keep _ trivial (change_list rfl rfl rfl rfl rfl ?_)
    rw [hat ht]
    exact threadscanUtilRandomize_perm _ _
  | store t n ht _ some =>
    refine .keep _ trivial (.moved (.list t) .storage (contents (s.buffer t) n) [] (by simp) ?_ ?_ ?_ ?_)
    · simp only [place]
      rw [hat ht]
      simp only [workingList, List.append_nil, List.Perm.refl]
    · simp [place, workingList]
    · simp only [place, List.flatten_cons]
      exact List.perm_append_comm.trans
        ((storeRemainingAddrs_perm _ (by omega)).append_left s.storage.flatten)
    · rintro (u | u | _) h₁ h₂
      · exact List.Perm.refl _
      · have hne : u ≠ t := fun he => h₁ (he ▸ rfl)
        simp only [place, Function.update_of_ne hne, List.Perm.refl]
      · exact absurd rfl h₂
  | helperSearch u stage scan hu =>
    refine .keep _ trivial (.rearranged ?_)
    rintro (v | v | _)
    · exact List.Perm.refl _
    · exact .of_eq (list_marks run (.inr ⟨stage, hu⟩) v)
    · exact List.Perm.refl _
  | enterHandler | helperNext | helperDone | helperCount | helperTail | mutate | create
  | activate | exit | remove | terminate => exact .keep _ trivial (Change.refl _)

/-! ### Along a run -/

/-- Only even addresses are collected, and none again before it has been freed. -/
def Collects (ok : List (Event T) → State T → Event T → Prop) : Prop :=
  ∀ es s t a, ok es s (.push t a) → a.toNat % 2 = 0 ∧ ¬ Live a es

omit [DecidableEq T] in
theorem live_passing {e : Event T} (h : Passing e) (a : Word) (es : List (Event T)) :
    Live a (e :: es) ↔ Live a es := by
  cases e <;> first | exact h.elim | exact Iff.rfl

omit [DecidableEq T] in
theorem collected_of_live {a : Word} {es : List (Event T)} (h : Live a es) : Collected a es := by
  induction es with
  | nil => exact h.elim
  | cons e es ih =>
    have hcons : Live a es → Collected a (e :: es) := by
      intro h
      obtain ⟨t, ht⟩ := ih h
      exact ⟨t, List.mem_cons_of_mem e ht⟩
    cases e with
    | push t b =>
      obtain rfl | h := h
      · exact ⟨t, List.mem_cons_self⟩
      · exact hcons h
    | free t b => exact hcons h.2
    | _ => exact hcons h

omit [DecidableEq T] in
theorem freesSince_of_live {a : Word} {es : List (Event T)} (h : Live a es) :
    freesSince a es = 0 := by
  induction es with
  | nil => exact h.elim
  | cons e es ih =>
    cases e with
    | push t b =>
      by_cases hb : b = a
      · simp [freesSince, hb]
      · simp only [freesSince, if_neg hb]
        exact ih (h.resolve_left hb)
    | free t b =>
      simp only [freesSince, if_neg h.1]
      exact ih h.2
    | _ => exact ih h

/-- An address that is alive was collected, and is as the client promises. -/
theorem run_live {P : Word → Prop} (pushed : ∀ es s t a, ok es s (.push t a) → P a)
    (run : Run (system cfg) ok es s) (a : Word) (h : Live a es) : P a ∧ a ≠ 0#64 := by
  revert h
  refine run.invariant (I := fun es _ => Live a es → P a ∧ a ≠ 0#64) ?_ ?_
  · exact fun s _ h => h.elim
  · intro es s e s' _ ih allowed move h
    cases move with
    | push t ptr _ _ _ nonnull =>
      obtain rfl | h := h
      · exact ⟨pushed _ _ _ _ allowed, nonnull⟩
      · exact ih h
    | free => exact ih h.2
    | _ => exact ih h

/-- No address is in two places or twice in one, and only addresses that have been collected
and not freed are in any. -/
structure Kept (es : List (Event T)) (s : State T) : Prop where
  exclusive : Exclusive (addresses s)
  live : ∀ a, Held (addresses s) a → Live a es

omit [DecidableEq T] in
theorem held_addresses {a : Word} : Held (addresses s) a ↔ a ≠ 0#64 ∧ Held (place s) a := by
  simp only [Held, addresses, List.mem_filter, decide_eq_true_eq]
  constructor
  · rintro ⟨p, hp, hne⟩
    exact ⟨hne, p, hp⟩
  · rintro ⟨hne, p, hp⟩
    exact ⟨p, hp, hne⟩

theorem Kept.even (collects : Collects ok) (run : Run (system cfg) ok es s) (h : Kept es s)
    (p : Place T) (x : Word) (hx : x ∈ place s p) : x.toNat % 2 = 0 := by
  by_cases h₀ : x = 0#64
  · subst h₀
    rfl
  · have hlive := h.live x (held_addresses.mpr ⟨h₀, p, hx⟩)
    exact (run_live (fun es s t a ha => (collects es s t a ha).1) run x hlive).1

theorem Kept.step (collects : Collects ok) (run : Run (system cfg) ok es s) (inv : Kept es s)
    {e : Event T} (allowed : ok es s e) (move : Step cfg s e s') : Kept (e :: es) s' := by
  have hnonnull : ∀ t a, e = .push t a → a ≠ 0#64 := by
    rintro t a rfl
    cases move with
    | push _ _ _ _ _ nonnull => exact nonnull
  cases handing run move (inv.even collects run) with
  | push t a h =>
    have hchange := h.select (· ≠ 0#64)
    rw [Effect.select, if_pos (by simpa using hnonnull t a rfl)] at hchange
    refine ⟨hchange.exclusive inv.exclusive ?_, fun x hx => ?_⟩
    · rintro b hb hheld
      cases hb
      exact (collects _ _ _ _ allowed).2 (inv.live _ hheld)
    · exact ((hchange.held_take x).mp hx).imp Eq.symm (inv.live x)
  | free t a h =>
    have hchange := h.select (· ≠ 0#64)
    simp only [Effect.select] at hchange
    split_ifs at hchange with ha
    · refine ⟨hchange.exclusive inv.exclusive (by simp), fun x hx => ?_⟩
      obtain ⟨hne, hheld⟩ := ((hchange.held_give inv.exclusive).2 x).mp hx
      exact ⟨hne.symm, inv.live x hheld⟩
    · refine ⟨hchange.exclusive inv.exclusive (by simp), fun x hx => ?_⟩
      have hzero : a = 0#64 := by simpa using ha
      exact ⟨fun he => (held_addresses.mp hx).1 (he ▸ hzero),
        inv.live x ((hchange.held_keep x).mp hx)⟩
  | keep _ pass h =>
    have hchange := h.select (· ≠ 0#64)
    simp only [Effect.select] at hchange
    refine ⟨hchange.exclusive inv.exclusive (by simp), fun x hx => ?_⟩
    exact (live_passing pass x es).mpr (inv.live x ((hchange.held_keep x).mp hx))
  | lost t n i x r _ _ _ before after other =>
    have hafter : (addresses s' (.list t)).Perm (r.filter (· ≠ 0#64)) := by
      simpa [addresses] using after.filter (· ≠ 0#64)
    have hbefore : (addresses s (.list t)).Perm ((x :: r).filter (· ≠ 0#64)) := before.filter _
    have hother : ∀ p, p ≠ .list t → addresses s' p = addresses s p := by
      intro p hp
      simp only [addresses, other p hp]
    by_cases hx : x = 0#64
    · have hchange : Change (addresses s) (addresses s') .keep := by
        refine Change.of_perm (p := .list t) (hafter.trans ?_) hother
        rw [List.filter_cons_of_neg (by simpa using hx)] at hbefore
        exact hbefore.symm
      exact ⟨hchange.exclusive inv.exclusive (by simp),
        fun y hy => inv.live y ((hchange.held_keep y).mp hy)⟩
    · have hchange : Change (addresses s) (addresses s') (.give x) := by
        rw [List.filter_cons_of_pos (by simpa using hx)] at hbefore
        exact .given (.list t) x (hbefore.trans (hafter.symm.cons x))
          fun p hp => .of_eq (hother p hp)
      exact ⟨hchange.exclusive inv.exclusive (by simp),
        fun y hy => inv.live y (((hchange.held_give inv.exclusive).2 y).mp hy).2⟩

omit [DecidableEq T] in
theorem place_initial (map : Mem) (p : Place T) : place (initial map) p = [] := by
  cases p <;> rfl

/-- The address has been collected and not freed, and is in no place. -/
def Lost (a : Word) (es : List (Event T)) (s : State T) : Prop :=
  Live a es ∧ ∀ p, a ∉ place s p

/-- An address is lost when a compaction finds it marked at its write position. -/
theorem lost_of_overwritten (kept : Kept es s) {t : T} {n i : ℕ} (ht : s.main t = .handle n i i)
    (marked : lowBit (s.buffer t i) = true) (nonzero : unmark (s.buffer t i) ≠ 0#64)
    (move : Step cfg s (.keep t) s') : Lost (unmark (s.buffer t i)) (.keep t :: es) s' := by
  obtain ⟨r, hbefore, hafter, hother⟩ := list_overwritten ht marked move
  have hmem : unmark (s.buffer t i) ∈ place s (.list t) :=
    hbefore.mem_iff.mpr List.mem_cons_self
  refine ⟨kept.live _ (held_addresses.mpr ⟨nonzero, .list t, hmem⟩), fun p hp => ?_⟩
  have haddress : ∀ q, unmark (s.buffer t i) ∈ place s q →
      unmark (s.buffer t i) ∈ addresses s q := by
    intro q hq
    exact List.mem_filter.mpr ⟨hq, by simpa using nonzero⟩
  by_cases hpt : p = .list t
  · subst hpt
    have hr := (List.mem_cons.mp (hafter.mem_iff.mp hp)).resolve_left nonzero
    have hnodup := kept.exclusive.nodup (.list t)
    have hperm := hbefore.filter (· ≠ 0#64)
    rw [List.filter_cons_of_pos (by simpa using nonzero)] at hperm
    have hnot := (List.nodup_cons.mp (hperm.nodup_iff.mp hnodup)).1
    exact hnot (List.mem_filter.mpr ⟨hr, by simpa using nonzero⟩)
  · rw [hother p hpt] at hp
    exact hpt (kept.exclusive.apart p _ _ (haddress p hp) (haddress _ hmem))

/-- An address that is lost stays lost. -/
theorem Lost.step (collects : Collects ok) (run : Run (system cfg) ok es s) (kept : Kept es s)
    {a : Word} (h : Lost a es s) {e : Event T} (allowed : ok es s e) (move : Step cfg s e s') :
    Lost a (e :: es) s' := by
  obtain ⟨hlive, hnone⟩ := h
  have hnot : ¬ Held (place s) a := fun ⟨p, hp⟩ => hnone p hp
  have hzero := (run_live (fun es s t a ha => (collects es s t a ha).1) run a hlive).2
  have hgone : ¬ Held (place s') a → ∀ p, a ∉ place s' p := fun h p hp => h ⟨p, hp⟩
  cases handing run move (kept.even collects run) with
  | push t b h =>
    refine ⟨.inr hlive, hgone fun hheld => ?_⟩
    obtain rfl | hheld := (h.held_take a).mp hheld
    · exact (collects _ _ _ _ allowed).2 hlive
    · exact hnot hheld
  | free t b h =>
    cases h with
    | given p _ before other =>
      have hb : b ∈ place s p := before.mem_iff.mpr List.mem_cons_self
      refine ⟨⟨fun he => hnone p (he ▸ hb), hlive⟩, fun q hq => ?_⟩
      by_cases hqp : q = p
      · subst hqp
        exact hnone q (before.mem_iff.mpr (List.mem_cons_of_mem _ hq))
      · exact hnone q ((other q hqp).mem_iff.mp hq)
  | keep _ pass h =>
    exact ⟨(live_passing pass a es).mpr hlive, hgone fun hheld => hnot ((h.held_keep a).mp hheld)⟩
  | lost t n i x r _ _ _ before after other =>
    refine ⟨hlive, fun p hp => ?_⟩
    by_cases hpt : p = .list t
    · subst hpt
      have hr := (List.mem_cons.mp (after.mem_iff.mp hp)).resolve_left hzero
      exact hnone _ (before.mem_iff.mpr (List.mem_cons_of_mem _ hr))
    · exact hnone p (other p hpt ▸ hp)

theorem run_kept (collects : Collects ok) (run : Run (system cfg) ok es s) : Kept es s := by
  refine run.invariant (I := fun es s => Kept es s) ?_
    fun _ _ _ _ run inv allowed move => inv.step collects run allowed move
  rintro s ⟨map, rfl⟩
  refine ⟨⟨fun p => by simp [addresses, place_initial], ?_⟩, ?_⟩
  · intro p q a hp
    simp [addresses, place_initial] at hp
  · rintro a ⟨p, hp⟩
    simp [addresses, place_initial] at hp

/-! ### Rounds whose first entry is unmarked -/

/-- Whenever a compaction starts, its list is empty or its first entry unmarked. -/
def KeepsFirst (ok : List (Event T) → State T → Event T → Prop) : Prop :=
  ∀ es s t n, ok es s (.handle t) → s.main t = .verify n →
    n = 0 ∨ lowBit (s.buffer t 0) = false

/-- The write position of a compaction stays behind its read position. -/
def Behind (s : State T) : Prop :=
  ∀ t n i w, s.main t = .handle n i w →
    i = 0 ∧ (n = 0 ∨ lowBit (s.buffer t 0) = false) ∨ w < i

theorem Behind.step (keeps : KeepsFirst ok) (run : Run (system cfg) ok es s) (h : Behind s)
    {e : Event T} (allowed : ok es s e) (move : Step cfg s e s') : Behind s' := by
  -- a compaction whose thread does not move keeps its list to itself
  have hother : ∀ {t : T} {m : Main T}, s'.main = Function.update s.main t m →
      (∀ u, u ≠ t → phase (s.main u) = .away → s'.buffer u = s.buffer u) →
      (∀ n i w, m = .handle n i w →
        i = 0 ∧ (n = 0 ∨ lowBit (s'.buffer t 0) = false) ∨ w < i) → Behind s' := by
    intro t m hm hb hnew u n i w hu
    rw [hm] at hu
    by_cases he : u = t
    · subst he
      rw [Function.update_self] at hu
      exact hnew n i w hu
    · rw [Function.update_of_ne he] at hu
      rw [hb u he (by rw [hu]; rfl)]
      exact h u n i w hu
  have hupdate : ∀ {t : T} {a : Mem}, ∀ u, u ≠ t → phase (s.main u) = .away →
      Function.update s.buffer t a u = s.buffer u :=
    fun u hu _ => Function.update_of_ne hu _ _
  have hsearch : ∀ {v : T} {scan : Scan} (st : Option (ℤ × Word)), Scans s v scan →
      ∀ u, phase (s.main u) = .away → storeBuf s st u = s.buffer u :=
    fun st hv u hu => storeBuf_other run hv st (by rw [hu]; exact id)
  cases move with
  | goto t m _ hg =>
    refine hother rfl (fun _ _ _ => rfl) ?_
    rintro n i w rfl
    generalize s.main t = m₀ at hg
    cases hg
  | verify t n ht =>
    have hfirst := keeps _ _ _ _ allowed ht
    refine hother rfl (fun _ _ _ => rfl) fun n' i w he => ?_
    cases he
    exact .inl ⟨rfl, hfirst⟩
  | keep t n i w ht _ more kept =>
    refine hother rfl hupdate fun n' i' w' he => ?_
    have hlow := lowBit_of_kept kept
    have hpos := handleEntry_position (s.buffer t) i w
    cases he
    obtain ⟨rfl, hn | hfirst⟩ | hlt := h t n i w ht
    · omega
    · rw [Nat.cast_zero] at hlow
      rw [hlow] at hfirst
      cases hfirst
    · exact .inr (by omega)
  | free t n i w ptr ht _ more freed =>
    refine hother rfl hupdate fun n' i' w' he => ?_
    have hlow := lowBit_of_freed freed
    have hw := (run_compacting run t n i w ht).1
    have hout := (handleEntry_frees hw hlow).1
    rw [hout] at he
    cases he
    exact .inr (by omega)
  | assign | leftover | popTail | sort | randomize =>
    exact hother rfl hupdate (by simp)
  | search t c stage scan ht =>
    exact hother rfl (fun u _ hu => hsearch _ (.inl ⟨c, stage, ht⟩) u hu) (by simp)
  | helperSearch v stage scan hv =>
    intro u n i w hu
    have hb := hsearch (searchNext cfg.debug (working s) scan).2 (.inr ⟨stage, hv⟩) u
      (by rw [show s.main u = .handle n i w from hu]; rfl)
    dsimp only
    rw [hb]
    exact h u n i w hu
  | push | acquire | exchange | lockQueues | unlockQueues | count | scanMap | reset | lockSignal
  | kill | unlockSignal | leave | release | store =>
    exact hother rfl (fun _ _ _ => rfl) (by simp)
  | _ => exact h

theorem run_behind (keeps : KeepsFirst ok) (run : Run (system cfg) ok es s) : Behind s := by
  refine run.invariant (I := fun _ s => Behind s) ?_
    fun _ _ _ _ run inv allowed move => inv.step keeps run allowed move
  rintro s ⟨map, rfl⟩ t n i w h
  simp [initial] at h

/-- Every address that has been collected and not freed is in exactly one place, once, and
nothing else is in any. -/
structure Complete (es : List (Event T)) (s : State T) : Prop where
  exclusive : Exclusive (place s)
  live : ∀ a, Held (place s) a ↔ Live a es
  since : ∀ a, Collected a es → Live a es ∨ freesSince a es = 1

theorem Complete.step (collects : Collects ok) (keeps : KeepsFirst ok)
    (run : Run (system cfg) ok es s) (inv : Complete es s) {e : Event T} (allowed : ok es s e)
    (move : Step cfg s e s') : Complete (e :: es) s' := by
  have hpassing : ∀ a, Passing e → Collected a (e :: es) →
      Collected a es ∧ freesSince a (e :: es) = freesSince a es := by
    rintro a hpass ⟨t, ht⟩
    obtain rfl | ht := List.mem_cons.mp ht
    · exact hpass.elim
    · exact ⟨⟨t, ht⟩, by cases e <;> first | exact hpass.elim | rfl⟩
  cases handing run move ((run_kept collects run).even collects run) with
  | push t a h =>
    refine ⟨h.exclusive inv.exclusive ?_, fun x => ?_, fun x hx => ?_⟩
    · rintro b hb hheld
      cases hb
      exact (collects _ _ _ _ allowed).2 ((inv.live _).mp hheld)
    · rw [h.held_take x, inv.live x]
      exact or_congr eq_comm Iff.rfl
    · by_cases hxa : a = x
      · exact .inl (.inl hxa)
      · obtain ⟨u, hu⟩ := hx
        have hold : Collected x es := by
          obtain he | hu := List.mem_cons.mp hu
          · cases he
            exact absurd rfl hxa
          · exact ⟨u, hu⟩
        simp only [Live, freesSince, hxa, false_or]
        exact inv.since x hold
  | free t a h =>
    obtain ⟨hheld, hgive⟩ := h.held_give inv.exclusive
    refine ⟨h.exclusive inv.exclusive (by simp), fun x => ?_, fun x hx => ?_⟩
    · rw [hgive x, inv.live x]
      exact and_congr ne_comm Iff.rfl
    · obtain ⟨u, hu⟩ := hx
      have hold : Collected x es := ⟨u, (List.mem_cons.mp hu).resolve_left (by simp)⟩
      by_cases hxa : a = x
      · subst hxa
        refine .inr ?_
        simp [freesSince, freesSince_of_live ((inv.live a).mp hheld)]
      · simp only [Live, freesSince, if_neg hxa]
        simpa [hxa] using inv.since x hold
  | keep _ pass h =>
    refine ⟨h.exclusive inv.exclusive (by simp), fun x => ?_, fun x hx => ?_⟩
    · rw [h.held_keep x, inv.live x, live_passing pass]
    · obtain ⟨hold, hfrees⟩ := hpassing x pass hx
      rw [live_passing pass, hfrees]
      exact inv.since x hold
  | lost t n i x r ht more marked =>
    obtain ⟨rfl, hn | hfirst⟩ | hlt := run_behind keeps run t n i i ht
    · omega
    · rw [Nat.cast_zero, hfirst] at marked
      cases marked
    · omega

theorem run_complete (collects : Collects ok) (keeps : KeepsFirst ok)
    (run : Run (system cfg) ok es s) : Complete es s := by
  refine run.invariant (I := fun es s => Complete es s) ?_
    fun _ _ _ _ run inv allowed move => inv.step collects keeps run allowed move
  rintro s ⟨map, rfl⟩
  refine ⟨⟨fun p => by simp [place_initial], ?_⟩, fun a => ?_, ?_⟩
  · intro p q a hp
    simp [place_initial] at hp
  · simp [Held, place_initial, Live]
  · rintro a ⟨t, ht⟩
    simp at ht

end ThreadScan.Bookkeeping
