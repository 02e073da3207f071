import ThreadScan.Bookkeeping
import ThreadScan.Progress

/-! No address is freed while a thread refers to it. A thread may look at its own memory long
after the list was drained, and change it before and after; since nobody gets hold of a
collected address again, each look finds every reference that is still there at the end. -/
namespace ThreadScan.Coverage
open Transition Search Marking Compaction Rearrangement Reclaim Handshake Rounds Listed
open Bookkeeping ThreadScan.Sort

variable {T : Type*} [DecidableEq T] {cfg : Config}
  {ok : List (Event T) → State T → Event T → Prop} {es : List (Event T)} {s s' : State T}

/-- The memory a thread is scanned for: its stack up to `user_stack_high` and its registered local
block. -/
def memory (s : State T) (t : T) : List Word := s.stack t ++ (s.localBlock t).getD []

/-- Some word refers to the address. -/
def Refers (words : List Word) (a : Word) : Prop := ∃ w ∈ words, ptrMask w = a

/-- The promise of a client: aligned addresses, none collected again before it is freed, and
no reference to a collected address from anywhere but the thread's own memory. Each round
has something to work on. -/
def honours (es : List (Event T)) (s : State T) : Event T → Prop
  | .push _ a => a.toNat % 4 = 0 ∧ ¬ Live a es
  | .mutate t stack block =>
    ∀ a, Live a es → Refers (stack ++ block.getD []) a → Refers (memory s t) a
  | .activate _ stack => ∀ a, Live a es → ¬ Refers stack a
  | .count _ n => 1 ≤ n
  | _ => True

omit [DecidableEq T] in
theorem refers_append {l r : List Word} {a : Word} :
    Refers (l ++ r) a ↔ Refers l a ∨ Refers r a := by
  simp only [Refers, List.mem_append, or_and_right, exists_or]

/-! ### Looking at the memory of a thread -/

/-- How far a thread has got with the searches of its memory in the current round. -/
inductive View
  | ahead
  | scanning (stage : Stage) (scan : Scan)
  | finished

/-- A signalled thread searches its memory in its handler. -/
def helperView (s : State T) (u : T) : View :=
  if 0 < s.pending u then .ahead
  else
    match s.handler u with
    | some (.search stage scan) => .scanning stage scan
    | _ => .finished

/-- The searches of `u` in the round of `r`. -/
def view (s : State T) (r u : T) : View :=
  match s.main r with
  | .signal rest _ => if u = r ∨ u ∈ rest then .ahead else helperView s u
  | .search _ stage scan => if u = r then .scanning stage scan else helperView s u
  | .wait _ => if u = r then .finished else helperView s u
  | _ => .ahead

/-- The unmarked entries that a reclaimer is going to free. -/
def Doomed (m : Main T) (a : Mem) (x : Word) : Prop :=
  match m with
  | .release n | .verify n => ∃ k : ℕ, k < n ∧ a k = x ∧ lowBit x = false
  | .handle n i _ => ∃ k : ℕ, i ≤ k ∧ k < n ∧ a k = x ∧ lowBit x = false
  | _ => False

/-- The part of the promise that is about collecting. -/
def collects (es : List (Event T)) (_ : State T) : Event T → Prop
  | .push _ a => a.toNat % 4 = 0 ∧ ¬ Live a es
  | _ => True

/-- A promise that lets some threads get hold of a collected address: in user code, and while no
round is about to free it. The unmarked entries of a round are none of theirs. -/
def careful (late : T → Prop) (es : List (Event T)) (s : State T) : Event T → Prop
  | .mutate t stack block =>
    ∀ a, Live a es → Refers (stack ++ block.getD []) a → Refers (memory s t) a ∨
      late t ∧ s.main t = .idle ∧ ∀ r, ¬ Doomed (s.main r) (s.buffer r) a
  | .activate _ stack => ∀ a, Live a es → ¬ Refers stack a
  | .leave r =>
    ∀ u a, a ≠ 0#64 → a ∈ contents (s.buffer r) s.nAddrs → late u → s.life u = .active →
      ¬ Refers (memory s u) a
  | _ => True

omit [DecidableEq T] in
theorem careful_of_honours {e : Event T} (h : honours es s e) : careful (fun _ => False) es s e := by
  cases e with
  | mutate t stack block => exact fun a ha hr => .inl (h a ha hr)
  | activate => exact h
  | leave => exact fun _ _ _ _ hlate => hlate.elim
  | _ => trivial

/-! ### The list of a round -/

/-- What a round knows of its addresses. -/
def Aligned (_ : ℕ) (l : List Word) : Prop :=
  (∀ x ∈ l, x.toNat % 4 = 0) ∧ (l.filter (· ≠ 0#64)).Nodup

variable (honest : ∀ es s t a, ok es s (.push t a) → a.toNat % 4 = 0 ∧ ¬ Live a es)

include honest

omit [DecidableEq T] in
theorem collects_of_honest : Collects ok := by
  intro es s t a allowed
  obtain ⟨h4, hfresh⟩ := honest _ _ _ _ allowed
  exact ⟨by omega, hfresh⟩

theorem counts_aligned : Counts cfg ok Aligned := by
  intro es s t n run allowed ht
  have kept := run_kept (collects_of_honest honest) run
  have hplace : place s (.list t) = contents (s.buffer t) n := by
    simp only [place, ht, workingList]
  refine ⟨fun x hx => ?_, ?_⟩
  · by_cases h₀ : x = 0#64
    · subst h₀
      rfl
    · have hheld := held_addresses.mpr ⟨h₀, .list t, hplace ▸ hx⟩
      exact (run_live (fun es s t a ha => (honest _ _ _ _ ha).1) run x (kept.live x hheld)).1
  · have hnodup := kept.exclusive.nodup (.list t)
    rwa [addresses, hplace] at hnodup

/-- The sorted list of a round. -/
theorem list_of_sorted (run : Run (system cfg) ok es s) {r : T} (h : Sorted (s.main r)) :
    (∀ j : ℤ, 0 ≤ j → j < s.nAddrs → (s.sorted j).toNat % 4 = 0) ∧
      Ordered s.nAddrs s.sorted := by
  obtain ⟨l, ⟨h4, hnodup⟩, hperm, hsort⟩ :=
    (run_listing (counts_aligned honest) run).sorted r h
  refine ⟨fun j h₀ hj => ?_, ordered_of_sorted hsort ?_⟩
  · obtain ⟨j, rfl⟩ := Int.eq_ofNat_of_zero_le h₀
    refine h4 _ (hperm.mem_iff.mp ?_)
    exact List.mem_map.mpr ⟨j, List.mem_range.mpr (by omega), rfl⟩
  · exact (hperm.filter _).nodup_iff.mpr hnodup

/-- The sorted list of a round in its searches is its working list. -/
theorem listed_of_open (run : Run (system cfg) ok es s) {r : T}
    (h : RollCall.Open (phase (s.main r))) {j : ℤ} (hj : 0 ≤ j ∧ j < s.nAddrs) :
    s.sorted j ∈ place s (.list r) := by
  have hready := ready_of_open h
  obtain ⟨h4, -⟩ := list_of_sorted honest run (.inr hready)
  have hmarked := ((run_searches run).list r hready (by omega)).marked
  simp only [working, bufAddrs_of_owner (run_owner run r hready.ne_away.1 hready.ne_away.2)]
    at hmarked
  have hunmark : unmark (s.buffer r j) = s.sorted j := by
    have haligned := h4 j hj.1 hj.2
    obtain he | ⟨-, -, he⟩ := hmarked j
    · rw [he, unmark_of_even (by omega)]
    · rw [he, unmark_add_one haligned]
  simp only [place, open_list h]
  obtain ⟨hj₀, hjn⟩ := hj
  obtain ⟨j, rfl⟩ := Int.eq_ofNat_of_zero_le hj₀
  refine List.mem_map.mpr ⟨s.buffer r j, ?_, hunmark⟩
  exact List.mem_map.mpr ⟨j, List.mem_range.mpr (by omega), rfl⟩

/-- The addresses of a round in its searches are alive. -/
theorem live_of_open (run : Run (system cfg) ok es s) {r : T}
    (h : RollCall.Open (phase (s.main r))) {j : ℤ} (hj : 0 ≤ j ∧ j < s.nAddrs)
    (h₀ : s.sorted j ≠ 0#64) : Live (s.sorted j) es :=
  (run_kept (collects_of_honest honest) run).live _
    (held_addresses.mpr ⟨h₀, .list r, listed_of_open honest run h hj⟩)

omit honest

/-! ### What the looks at a thread find -/

/-- The entry is marked. -/
def Flagged (s : State T) (j : ℤ) : Prop := bufAddrs s j = s.sorted j + 1#64

/-- What has been searched of a thread's memory refers to marked entries only. -/
def Covers (s : State T) (u : T) (j : ℤ) : View → Prop
  | .ahead => True
  | .scanning .stack scan =>
    Refers (s.stack u) (s.sorted j) → Flagged s j ∨ Pending s.sorted j scan
  | .scanning .localBlock scan =>
    (Refers (s.stack u) (s.sorted j) → Flagged s j) ∧
      (Refers ((s.localBlock u).getD []) (s.sorted j) → Flagged s j ∨ Pending s.sorted j scan)
  | .finished => Refers (memory s u) (s.sorted j) → Flagged s j

/-- Every look at the memory of an active thread counts, but for those that are late and have
not answered a signal since. -/
def Covered (late : T → Prop) (s : State T) : Prop :=
  ∀ r u (j : ℤ), s.life u = .active → 0 ≤ j ∧ j < s.nAddrs → s.sorted j ≠ 0#64 →
    (late u ∧ s.handler u = none ∧ u ≠ r) ∨ Covers s u j (view s r u)

omit [DecidableEq T] in
theorem Covers.of_not_refers {u : T} {j : ℤ} (h : ¬ Refers (memory s u) (s.sorted j)) (v : View) :
    Covers s u j v := by
  rw [memory, refers_append, not_or] at h
  match v with
  | .ahead => trivial
  | .scanning .stack scan => exact fun hr => absurd hr h.1
  | .scanning .localBlock scan => exact ⟨fun hr => absurd hr h.1, fun hr => absurd hr h.2⟩
  | .finished => exact fun hr => absurd (refers_append.mp hr) (by tauto)

omit [DecidableEq T] in
/-- More marks cover as much. -/
theorem Covers.mono {u : T} {j : ℤ} {v : View} (h : Covers s u j v)
    (hstack : s'.stack u = s.stack u) (hblock : s'.localBlock u = s.localBlock u)
    (hsorted : s'.sorted = s.sorted) (hflag : Flagged s j → Flagged s' j) : Covers s' u j v := by
  match v with
  | .ahead => trivial
  | .scanning .stack scan =>
    simp only [Covers, hstack, hsorted] at h ⊢
    exact fun hr => (h hr).imp_left hflag
  | .scanning .localBlock scan =>
    simp only [Covers, hstack, hblock, hsorted] at h ⊢
    exact ⟨fun hr => hflag (h.1 hr), fun hr => (h.2 hr).imp_left hflag⟩
  | .finished =>
    simp only [Covers, memory, hstack, hblock, hsorted] at h ⊢
    exact fun hr => hflag (h hr)

omit [DecidableEq T] in
/-- A search that has started covers what it searches. -/
theorem covers_stack (debug : Bool) (s : State T) (u : T) (j : ℤ) :
    Covers s u j (.scanning .stack (searchRange debug (s.stack u))) :=
  fun h => .inr (pending_searchRange debug h)

omit [DecidableEq T] in
theorem Covers.advance {u : T} {j : ℤ} {stage : Stage} {scan scan' : Scan}
    (h : Covers s u j (.scanning stage scan)) (hstack : s'.stack u = s.stack u)
    (hblock : s'.localBlock u = s.localBlock u) (hsorted : s'.sorted = s.sorted)
    (hflag : Flagged s j → Flagged s' j)
    (hpend : Pending s.sorted j scan → Flagged s' j ∨ Pending s.sorted j scan') :
    Covers s' u j (.scanning stage scan') := by
  have hstep : Flagged s j ∨ Pending s.sorted j scan → Flagged s' j ∨ Pending s.sorted j scan' := by
    rintro (hf | hp)
    · exact .inl (hflag hf)
    · exact hpend hp
  cases stage with
  | stack =>
    simp only [Covers, hstack, hsorted] at h ⊢
    exact fun hr => hstep (h hr)
  | localBlock =>
    simp only [Covers, hstack, hblock, hsorted] at h ⊢
    exact ⟨fun hr => hflag (h.1 hr), fun hr => hstep (h.2 hr)⟩

omit [DecidableEq T] in
/-- The local block is searched after the stack. -/
theorem Covers.next_stage {u : T} {j n : ℤ} {stage stage' : Stage} {scan scan' : Scan}
    {words : List Word} (h : Covers s u j (.scanning stage scan))
    (sound : Sound s.sorted n words scan) (hdone : scan.pc = .done)
    (next : nextStage cfg (s.localBlock u) stage = some (stage', scan')) :
    Covers s u j (.scanning stage' scan') := by
  cases stage with
  | localBlock => cases next
  | stack =>
    obtain ⟨block, hblock, he⟩ := Option.map_eq_some_iff.mp next
    cases he
    refine ⟨fun hr => (h hr).resolve_right fun hp => hp.not_done sound hdone, fun hr => .inr ?_⟩
    rw [hblock] at hr
    exact pending_searchRange _ hr

omit [DecidableEq T] in
theorem Covers.finish {u : T} {j n : ℤ} {stage : Stage} {scan : Scan} {words : List Word}
    (h : Covers s u j (.scanning stage scan)) (sound : Sound s.sorted n words scan)
    (hdone : scan.pc = .done) (next : nextStage cfg (s.localBlock u) stage = none) :
    Covers s u j .finished := by
  intro hr
  cases stage with
  | stack =>
    have hblock : s.localBlock u = none := by simpa [nextStage] using next
    rw [memory, hblock, Option.getD_none, List.append_nil] at hr
    exact (h hr).resolve_right fun hp => hp.not_done sound hdone
  | localBlock =>
    obtain hr | hr := refers_append.mp hr
    · exact h.1 hr
    · exact (h.2 hr).resolve_right fun hp => hp.not_done sound hdone

theorem open_of_view {r u : T} (h : view s r u ≠ .ahead) :
    RollCall.Open (phase (s.main r)) ∧ s.main r ≠ .lockSignal := by
  unfold view at h
  cases hm : s.main r <;> rw [hm] at h <;> first | exact absurd rfl h | exact ⟨trivial, by simp⟩

/-- A thread is seen in the round alone, or in its handler alone. -/
theorem view_cases (s : State T) (r u : T) :
    ((u = r ∨ view s r u = .ahead) ∧
        ∀ s' : State T, s'.main r = s.main r → view s' r u = view s r u) ∨
      ∀ s' : State T, s'.main r = s.main r → view s' r u = helperView s' u := by
  cases hm : s.main r with
  | signal rest c =>
    by_cases hu : u = r ∨ u ∈ rest
    · exact .inl ⟨.inr (by simp [view, hm, hu]), fun s' hm' => by simp [view, hm, hm', hu]⟩
    · exact .inr fun s' hm' => by simp [view, hm', hu]
  | search c stage scan =>
    by_cases hu : u = r
    · exact .inl ⟨.inl hu, fun s' hm' => by simp [view, hm, hm', hu]⟩
    · exact .inr fun s' hm' => by simp [view, hm', hu]
  | wait c =>
    by_cases hu : u = r
    · exact .inl ⟨.inl hu, fun s' hm' => by simp [view, hm, hm', hu]⟩
    · exact .inr fun s' hm' => by simp [view, hm', hu]
  | _ => exact .inl ⟨.inr (by simp [view, hm]), fun s' hm' => by simp [view, hm, hm']⟩

/-- A thread that is seen searching does so for the round, or in its handler. -/
theorem view_scanning {r u : T} {stage : Stage} {scan : Scan}
    (h : view s r u = .scanning stage scan) :
    (∃ c, s.main u = .search c stage scan) ∨ s.handler u = some (.search stage scan) := by
  have hhelper : helperView s u = .scanning stage scan →
      s.handler u = some (.search stage scan) := by
    intro h
    unfold helperView at h
    split_ifs at h
    split at h
    · next hh =>
      cases h
      exact hh
    · cases h
  obtain - | hhand := view_cases s r u
  · unfold view at h
    split at h
    · split_ifs at h
      exact .inr (hhelper h)
    · next c _ _ hm =>
      split_ifs at h with hu
      · cases h
        exact .inl ⟨c, hu ▸ hm⟩
      · exact .inr (hhelper h)
    · split_ifs at h
      exact .inr (hhelper h)
    · cases h
  · exact .inr (hhelper ((hhand s rfl).symm.trans h))

theorem view_congr {r u : T} (hm : s'.main r = s.main r) (hp : s'.pending u = s.pending u)
    (hh : s'.handler u = s.handler u) : view s' r u = view s r u := by
  simp only [view, helperView, hm, hp, hh]

/-- While a round is open its list only gains marks. -/
theorem list_step (run : Run (system cfg) ok es s) {r : T} (hr : Ready (s.main r))
    (h : ListStep cfg s s') :
    s'.nAddrs = s.nAddrs ∧ s'.sorted = s.sorted ∧
      (1 ≤ s.nAddrs → ∀ j, Flagged s j → Flagged s' j) := by
  cases h with
  | rests list sorted scans =>
    refine ⟨Int.ofNat.inj (congrArg Working.nAddrs list), sorted, fun hpos j hj => ?_⟩
    have hb : bufAddrs s' = bufAddrs s := congrArg Working.bufAddrs list
    rwa [Flagged, hb, sorted]
  | searched v scan hv list sorted scans =>
    refine ⟨Int.ofNat.inj (congrArg Working.nAddrs list), sorted, fun hpos j hj => ?_⟩
    have inv := run_searches run
    obtain ⟨words, hsound⟩ := inv.sound v scan hv hpos
    have hmarks := (hsound.next (g := working s) (inv.list r hr hpos) cfg.debug).2
    have hb : bufAddrs s' =
        Search.store (bufAddrs s) (searchNext cfg.debug (working s) scan).2 :=
      congrArg Working.bufAddrs list
    rw [Flagged, hb, sorted]
    exact hmarks.store_grows j hj

include honest

/-- A step of a search marks the entry it is after, or stays after it. -/
theorem pending_step (run : Run (system cfg) ok es s) {r v : T} {scan : Scan}
    (hr : Ready (s.main r)) (hv : Scans s v scan) {j : ℤ} (hj : 0 ≤ j ∧ j < s.nAddrs)
    (h₀ : s.sorted j ≠ 0#64) (h : Pending s.sorted j scan) :
    Flagged s j ∨
      Search.store (bufAddrs s) (searchNext cfg.debug (working s) scan).2 j = s.sorted j + 1#64 ∨
      Pending s.sorted j (searchNext cfg.debug (working s) scan).1 := by
  obtain ⟨-, hord⟩ := list_of_sorted honest run (.inr hr)
  have hpos : 1 ≤ s.nAddrs := by omega
  have inv := run_searches run
  have hlist := inv.list r hr hpos
  obtain ⟨words, hsound⟩ := inv.sound v scan hv hpos
  obtain he | ⟨-, -, he⟩ := hlist.marked j
  · have hne : (s.sorted j).toNat ≠ 0 := fun hz => h₀ (BitVec.eq_of_toNat_eq hz)
    exact .inr (Pending.next (g := working s) hlist hord hsound (inv.caught v scan hv hpos) hj hne
      he h)
  · exact .inl he

omit honest in
/-- A late thread stays as it is until it takes a signal, and then all of its memory is ahead. -/
theorem late_step {late' : T → Prop} (run : Run (system cfg) ok es s) {e : Event T} {r u : T}
    (hopen : RollCall.Open (phase (s'.main r))) (hnot : s'.main r ≠ .lockSignal) (hur : u ≠ r)
    (hawake : s.handler u = none) (stays : late' u ∨ ∃ t, e = .reset t)
    (move : Step cfg s e s') (j : ℤ) :
    (late' u ∧ s'.handler u = none ∧ u ≠ r) ∨ Covers s' u j (view s' r u) := by
  by_cases hh : s'.handler u = none
  · obtain hlate | ⟨t, rfl⟩ := stays
    · exact .inl ⟨hlate, hh, hur⟩
    · -- nobody else is open while a round resets its counter
      cases move with
      | reset _ ht =>
        by_cases hrt : r = t
        · subst hrt
          exact absurd (Function.update_self ..) hnot
        · simp only [Function.update_of_ne hrt] at hopen
          exact absurd (alone run hopen.ne_away (by simp [ht, phase])) hrt
  · right
    have hother : ∀ {v : T} {m : Option Handler}, s'.handler = Function.update s.handler v m →
        u = v := by
      intro v m hm
      by_contra huv
      rw [hm, Function.update_of_ne huv] at hh
      exact hh hawake
    cases move with
    | enterHandler v =>
      obtain rfl := hother rfl
      obtain ⟨hround | hround, -⟩ | hhand := view_cases { s with
          pending := Function.update s.pending u (s.pending u - 1)
          handler := Function.update s.handler u
            (some (.search .stack (searchRange cfg.debug (s.stack u)))) } r u
      · exact absurd hround hur
      · rw [hround]
        trivial
      · rw [hhand _ rfl]
        simp only [helperView, Function.update_self]
        split_ifs
        · trivial
        · exact covers_stack _ _ _ _
    | helperSearch v _ _ hv | helperNext v _ _ _ _ hv | helperDone v _ _ hv | helperCount v hv
    | helperTail v hv =>
      obtain rfl := hother rfl
      rw [hawake] at hv
      cases hv
    | _ => exact absurd hawake hh

theorem Covered.step {late late' : T → Prop} (run : Run (system cfg) ok es s)
    (inv : Covered late s) {e : Event T} (allowed : careful late' es s e)
    (stays : ∀ u, late u → s.handler u = none → late' u ∨ ∃ t, e = .reset t)
    (move : Step cfg s e s') : Covered late' s' := by
  intro r u j hu hj h₀
  by_cases hahead : view s' r u = .ahead
  · rw [hahead]
    exact .inr trivial
  obtain ⟨hopen, hnot⟩ := open_of_view hahead
  obtain ⟨-, hm, -⟩ | ⟨hready, hstep⟩ := ready_step run move (ready_of_open hopen)
  · rw [hm, Function.update_self] at hopen
    exact hopen.elim
  obtain ⟨hn, hsorted, hgrow⟩ := list_step run hready hstep
  rw [hn] at hj
  rw [hsorted] at h₀
  by_cases hexempt : late u ∧ s.handler u = none ∧ u ≠ r
  · obtain ⟨hlate, hawake, hur⟩ := hexempt
    exact late_step run hopen hnot hur hawake (stays u hlate hawake) move j
  have hpos : 1 ≤ s.nAddrs := by omega
  have hflag := hgrow hpos
  have searches := run_searches run
  replace inv : s.life u = .active → Covers s u j (view s r u) := fun hu =>
    (inv r u j hu hj h₀).resolve_left hexempt
  by_cases hlate' : late' u ∧ s'.handler u = none ∧ u ≠ r
  · exact .inl hlate'
  suffices hcovers : Covers s' u j (view s' r u) from .inr hcovers
  -- a thread whose view of its memory stays as it is
  have hsame : view s' r u = view s r u → s'.life u = s.life u → s'.stack u = s.stack u →
      s'.localBlock u = s.localBlock u → Covers s' u j (view s' r u) := by
    intro hv hl hstack hblock
    rw [hv]
    exact (inv (hl ▸ hu)).mono hstack hblock hsorted (hflag j)
  -- the round is not that of a thread that moves outside of its searches
  have hmain : ∀ {t : T} {m : Main T}, s'.main = Function.update s.main t m →
      ¬ RollCall.Open (phase m) ∨ m = .lockSignal → s'.main r = s.main r := by
    intro t m hm hm'
    rw [hm]
    apply Function.update_of_ne
    rintro rfl
    rw [hm, Function.update_self] at hopen hnot
    exact hm'.elim (fun h => h hopen) hnot
  have hother : ∀ {t : T} {m : Main T}, s'.main = Function.update s.main t m → r ≠ t →
      s'.main r = s.main r := by
    intro t m hm hne
    rw [hm, Function.update_of_ne hne]
  -- a thread that moves in its handler, where it is seen there
  have hhand : ∀ v, s'.main r = s.main r →
      (∀ w, w ≠ v → s'.pending w = s.pending w ∧ s'.handler w = s.handler w) →
      s'.life = s.life → s'.stack = s.stack → s'.localBlock = s.localBlock →
      (u = v → view s' r u = helperView s' u → view s r u = helperView s u →
        Covers s' u j (view s' r u)) → Covers s' u j (view s' r u) := by
    intro v hm hothers hl hstack hblock hown
    obtain ⟨-, hround⟩ | hhand := view_cases s r u
    · exact hsame (hround s' hm) (by rw [hl]) (by rw [hstack]) (by rw [hblock])
    by_cases huv : u = v
    · exact hown huv (hhand s' hm) (hhand s rfl)
    · obtain ⟨hpending, hhandler⟩ := hothers u huv
      exact hsame (view_congr hm hpending hhandler) (by rw [hl]) (by rw [hstack]) (by rw [hblock])
  have hsearch : ∀ {v : T} {scan : Scan}, Scans s v scan →
      s'.buffer = storeBuf s (searchNext cfg.debug (working s) scan).2 →
      s'.bufOwner = s.bufOwner → Pending s.sorted j scan →
      Flagged s' j ∨ Pending s.sorted j (searchNext cfg.debug (working s) scan).1 := by
    intro v scan hv hb ho hp
    have howner := run_owner run r hready.ne_away.1 hready.ne_away.2
    obtain hf | hf | hp := pending_step honest run hready hv hj h₀ hp
    · exact .inl (hflag j hf)
    · refine .inl ?_
      rw [Flagged, bufAddrs_storeBuf howner hb ho, hsorted]
      exact hf
    · exact .inr hp
  cases move with
  | mutate t stack block alive awake still =>
    by_cases hut : u = t
    · subst hut
      have hlive := live_of_open honest run hopen hj h₀
      have hview : view { s with
          stack := Function.update s.stack u stack
          localBlock := Function.update s.localBlock u block } r u = view s r u :=
        view_congr rfl rfl rfl
      have hold := inv hu
      rw [hview] at hahead ⊢
      cases hv : view s r u with
      | ahead => exact absurd hv hahead
      | scanning stage scan =>
        obtain ⟨c, hm⟩ | hh := view_scanning hv
        · exact absurd hm (still c stage scan)
        · rw [awake] at hh
          cases hh
      | finished =>
        rw [hv] at hold
        intro hr
        simp only [memory, Function.update_self] at hr
        obtain hr | ⟨hlate, hidle, -⟩ := allowed _ hlive hr
        · exact hold hr
        · refine absurd ⟨hlate, awake, ?_⟩ hlate'
          rintro rfl
          rw [hidle] at hopen
          exact hopen.elim
    · exact hsame (view_congr rfl rfl rfl) rfl (Function.update_of_ne hut _ _)
        (Function.update_of_ne hut _ _)
  | activate t stack ht =>
    by_cases hut : u = t
    · subst hut
      apply Covers.of_not_refers
      have hlive := live_of_open honest run hopen hj h₀
      simpa [memory] using allowed _ hlive
    · exact hsame (view_congr rfl rfl rfl) (Function.update_of_ne hut _ _)
        (Function.update_of_ne hut _ _) (Function.update_of_ne hut _ _)
  | goto t m awake hg =>
    generalize hm₀ : s.main t = m₀ at hg
    by_cases hrt : r = t
    swap
    · exact hsame (view_congr (hother rfl hrt) rfl rfl) rfl rfl rfl
    subst hrt
    cases hg with
    | skip td rest c hskip =>
      refine hsame ?_ rfl rfl rfl
      have hnot : ¬ (u = r ∨ u ∈ rest) := by
        intro h
        apply hahead
        simp [view, h]
      have hne : u ≠ td := by
        rintro rfl
        obtain rfl | hinactive := hskip
        · exact hnot (.inl rfl)
        · exact hinactive hu
      simp only [view, Function.update_self, hm₀, List.mem_cons, hne, false_or]
      rfl
    | nextStage c stage stage' scan scan' hdone next =>
      by_cases hur : u = r
      · subst hur
        have hold := inv hu
        obtain ⟨words, hsound⟩ := searches.sound u scan (.inl ⟨c, stage, hm₀⟩) hpos
        simp only [view, hm₀, Function.update_self, if_true] at hold ⊢
        exact (hold.next_stage hsound hdone next).mono rfl rfl rfl (hflag j)
      · refine hsame ?_ rfl rfl rfl
        simp only [view, Function.update_self, hm₀, if_neg hur]
        rfl
    | searched c stage scan hdone next =>
      by_cases hur : u = r
      · subst hur
        have hold := inv hu
        obtain ⟨words, hsound⟩ := searches.sound u scan (.inl ⟨c, stage, hm₀⟩) hpos
        simp only [view, hm₀, Function.update_self, if_true] at hold ⊢
        exact (hold.finish hsound hdone next).mono rfl rfl rfl (hflag j)
      · refine hsame ?_ rfl rfl rfl
        simp only [view, Function.update_self, hm₀, if_neg hur]
        rfl
    | _ => simp [phase, RollCall.Open] at hopen
  | kill t td rest c ht awake hne active =>
    have hrt : r = t := by
      by_contra hrt
      rw [hother rfl hrt] at hopen
      exact hrt (alone run hopen.ne_away (by simp [ht, phase]))
    subst hrt
    -- the thread that is signalled has its searches ahead
    have hut : u ≠ td := by
      rintro rfl
      apply hahead
      simp [view, helperView]
    refine hsame ?_ rfl rfl rfl
    simp only [view, Function.update_self, ht, List.mem_cons, hut, false_or, helperView,
      Function.update_of_ne hut]
  | lockSignal t ht =>
    by_cases hrt : r = t
    · subst hrt
      refine absurd ?_ hahead
      have hlisted := ((run_roster run).listed u).mpr (.inr (.inl hu))
      simp [view, hlisted]
    · exact hsame (view_congr (hother rfl hrt) rfl rfl) rfl rfl rfl
  | unlockSignal t c ht =>
    by_cases hrt : r = t
    · subst hrt
      by_cases hur : u = r
      · subst hur
        simp only [view, Function.update_self, if_true]
        exact covers_stack _ _ _ _
      · refine hsame ?_ rfl rfl rfl
        simp only [view, Function.update_self, ht, if_neg hur, List.not_mem_nil, or_false]
        rfl
    · exact hsame (view_congr (hother rfl hrt) rfl rfl) rfl rfl rfl
  | search t c stage scan ht =>
    by_cases hrt : r = t
    · subst hrt
      by_cases hur : u = r
      · subst hur
        have hold := inv hu
        simp only [view, ht, Function.update_self, if_true] at hold ⊢
        exact hold.advance rfl rfl rfl (hflag j) (hsearch (.inl ⟨c, stage, ht⟩) rfl rfl)
      · refine hsame ?_ rfl rfl rfl
        simp only [view, Function.update_self, ht, if_neg hur]
        rfl
    · exact hsame (view_congr (hother rfl hrt) rfl rfl) rfl rfl rfl
  | enterHandler v awake signal =>
    refine hhand v rfl
      (fun w hw => ⟨Function.update_of_ne hw _ _, Function.update_of_ne hw _ _⟩) rfl rfl rfl ?_
    rintro rfl hview' -
    rw [hview'] at hahead ⊢
    simp only [helperView, Function.update_self] at hahead ⊢
    split_ifs at hahead ⊢
    · trivial
    · exact covers_stack _ _ _ _
  | helperSearch v stage scan hv =>
    refine hhand v rfl (fun w hw => ⟨rfl, Function.update_of_ne hw _ _⟩) rfl rfl rfl ?_
    rintro rfl hview' hview
    have hold := inv hu
    rw [hview] at hold
    rw [hview'] at hahead ⊢
    simp only [helperView, Function.update_self, hv] at hahead hold ⊢
    split_ifs at hahead hold ⊢
    · trivial
    · exact hold.advance rfl rfl rfl (hflag j) (hsearch (.inr ⟨stage, hv⟩) rfl rfl)
  | helperNext v stage stage' scan scan' hv hdone next =>
    refine hhand v rfl (fun w hw => ⟨rfl, Function.update_of_ne hw _ _⟩) rfl rfl rfl ?_
    rintro rfl hview' hview
    have hold := inv hu
    obtain ⟨words, hsound⟩ := searches.sound u scan (.inr ⟨stage, hv⟩) hpos
    rw [hview] at hold
    rw [hview'] at hahead ⊢
    simp only [helperView, Function.update_self, hv] at hahead hold ⊢
    split_ifs at hahead hold ⊢
    · trivial
    · exact (hold.next_stage hsound hdone next).mono rfl rfl rfl (hflag j)
  | helperDone v stage scan hv hdone next =>
    refine hhand v rfl (fun w hw => ⟨rfl, Function.update_of_ne hw _ _⟩) rfl rfl rfl ?_
    rintro rfl hview' hview
    have hold := inv hu
    obtain ⟨words, hsound⟩ := searches.sound u scan (.inr ⟨stage, hv⟩) hpos
    rw [hview] at hold
    rw [hview'] at hahead ⊢
    simp only [helperView, Function.update_self, hv] at hahead hold ⊢
    split_ifs at hahead hold ⊢
    · trivial
    · exact (hold.finish hsound hdone next).mono rfl rfl rfl (hflag j)
  | helperCount v hv | helperTail v hv =>
    refine hhand v rfl (fun w hw => ⟨rfl, Function.update_of_ne hw _ _⟩) rfl rfl rfl ?_
    rintro rfl hview' hview
    refine hsame ?_ rfl rfl rfl
    rw [hview', hview]
    simp only [helperView, Function.update_self, hv]
  | push | acquire | assign | exchange | leftover | lockQueues | popTail | unlockQueues | count
  | sort | scanMap | reset | leave | release | verify | keep | free | randomize | store =>
    exact hsame (view_congr (hmain rfl (by simp [phase, RollCall.Open])) rfl rfl) rfl rfl rfl
  | create t ht | exit t ht | remove t ht | terminate t ht =>
    have hut : u ≠ t := by
      rintro rfl
      simp at hu
    exact hsame (view_congr rfl rfl rfl) (Function.update_of_ne hut _ _) rfl rfl

omit honest

/-! ### What is about to be freed -/

/-- No active thread refers to what is about to be freed. -/
def Unreferenced (s : State T) : Prop :=
  ∀ t x, Doomed (s.main t) (s.buffer t) x → x ≠ 0#64 → ∀ u, s.life u = .active →
    ¬ Refers (memory s u) x

omit [DecidableEq T] in
theorem doomed_mem {t : T} {x : Word} (h : Doomed (s.main t) (s.buffer t) x) :
    x ∈ place s (.list t) := by
  have hunmark : ∀ {k : ℕ}, s.buffer t k = x → lowBit x = false → unmark (s.buffer t k) = x := by
    intro k he hlow
    rw [he, unmark_of_not_lowBit hlow]
  cases hm : s.main t with
  | release n | verify n =>
    rw [hm] at h
    obtain ⟨k, hk, he, hlow⟩ := h
    simp only [place, hm, workingList, List.mem_map, contents]
    exact ⟨_, ⟨k, List.mem_range.mpr hk, rfl⟩, hunmark he hlow⟩
  | handle n i w =>
    rw [hm] at h
    obtain ⟨k, hi, hk, he, hlow⟩ := h
    simp only [place, hm, workingList, List.mem_append, pendingEntries, List.mem_map]
    exact .inr ⟨k, List.mem_range'_1.mpr ⟨hi, by omega⟩, hunmark he hlow⟩
  | _ =>
    rw [hm] at h
    exact h.elim

/-- What is about to be freed was so before, or is left unmarked when its round leaves the
wait loop. -/
theorem doomed_step (run : Run (system cfg) ok es s) {e : Event T} (move : Step cfg s e s') {t : T}
    {x : Word} (h : Doomed (s'.main t) (s'.buffer t) x) :
    Doomed (s.main t) (s.buffer t) x ∨ e = .leave t ∧ ∃ c, ∃ k : ℕ, s.main t = .wait c ∧
      c ≤ s.selfStacksSearched ∧ k < s.nAddrs ∧ s.buffer t k = x ∧ lowBit x = false := by
  have hclosed : ∀ {a : Mem}, Doomed (s.main t) a x → ¬ RollCall.Open (phase (s.main t)) := by
    intro a hx
    cases hm : s.main t <;> rw [hm] at hx <;> first | exact hx.elim | exact id
  have hmove : ∀ {v : T} {m : Main T}, s'.main = Function.update s.main v m →
      (t ≠ v → ¬ RollCall.Open (phase (s.main t)) → s'.buffer t = s.buffer t) →
      (t = v → Doomed m (s'.buffer v) x → Doomed (s.main v) (s.buffer v) x) →
      Doomed (s.main t) (s.buffer t) x := by
    intro v m hm hb hnew
    rw [hm] at h
    by_cases htv : t = v
    · subst htv
      rw [Function.update_self] at h
      exact hnew rfl h
    · rw [Function.update_of_ne htv] at h
      rwa [hb htv (hclosed h)] at h
  have hupdate : ∀ {v : T} {a : Mem}, t ≠ v → ¬ RollCall.Open (phase (s.main t)) →
      Function.update s.buffer v a t = s.buffer t :=
    fun ht _ => Function.update_of_ne ht _ _
  cases move with
  | leave v c ht awake all =>
    by_cases htv : t = v
    · subst htv
      simp only [Function.update_self] at h
      obtain ⟨k, hk, he, hlow⟩ := h
      exact .inr ⟨rfl, c, k, ht, all, hk, he, hlow⟩
    · simp only [Function.update_of_ne htv] at h
      exact .inl h
  | release v n ht =>
    refine .inl (hmove rfl (fun _ _ => rfl) fun _ hx => ?_)
    rw [ht]
    exact hx
  | verify v n ht =>
    refine .inl (hmove rfl (fun _ _ => rfl) fun _ hx => ?_)
    rw [ht]
    obtain ⟨k, -, hk⟩ := hx
    exact ⟨k, hk⟩
  | keep v n i w ht | free v n i w _ ht =>
    refine .inl (hmove rfl hupdate fun _ hx => ?_)
    obtain ⟨hw, -⟩ := run_compacting run v n i w ht
    rw [ht]
    obtain ⟨k, hi, hk, he, hlow⟩ := hx
    refine ⟨k, by omega, hk, ?_, hlow⟩
    simp only [Function.update_self] at he
    rw [← he]
    exact (handleEntry_rest _ hw (by omega)).symm
  | search v c stage scan ht =>
    refine .inl (hmove rfl ?_ fun _ hx => hx.elim)
    exact fun _ ht' => storeBuf_other run (.inl ⟨c, stage, ht⟩) _ ht'
  | helperSearch v stage scan hv =>
    have hb := storeBuf_other run (.inr ⟨stage, hv⟩)
      (searchNext cfg.debug (working s) scan).2 (hclosed h)
    simp only [hb] at h
    exact .inl h
  | goto v m _ hg =>
    refine .inl (hmove rfl (fun _ _ => rfl) fun _ hx => ?_)
    generalize s.main v = m₀ at hg
    cases hg <;> exact hx.elim
  | assign | leftover | popTail | sort | randomize =>
    exact .inl (hmove rfl hupdate fun _ hx => hx.elim)
  | push | acquire | exchange | lockQueues | unlockQueues | count | scanMap | reset | lockSignal
  | kill | unlockSignal | store =>
    exact .inl (hmove rfl (fun _ _ => rfl) fun _ hx => hx.elim)
  | _ => exact .inl h

/-- What an active thread is scanned for changes in user code only. -/
theorem memory_step {e : Event T} (move : Step cfg s e s') {u : T} (hu : s'.life u = .active) :
    s.life u = .active ∧ memory s' u = memory s u ∨
      (∃ stack block, e = .mutate u stack block ∧ s.life u = .active ∧
        memory s' u = stack ++ block.getD []) ∨
      ∃ stack, e = .activate u stack ∧ memory s' u = stack := by
  have hexit : ∀ {t : T} {l : Life}, s'.life = Function.update s.life t l → l ≠ .active →
      s.life u = .active := by
    intro t l hl hne
    rw [hl] at hu
    by_cases hut : u = t
    · subst hut
      rw [Function.update_self] at hu
      exact absurd hu hne
    · rwa [Function.update_of_ne hut] at hu
  cases move with
  | mutate t stack block alive =>
    by_cases hut : u = t
    · subst hut
      exact .inr (.inl ⟨stack, block, rfl, alive, by simp only [memory, Function.update_self]⟩)
    · exact .inl ⟨hu, by simp only [memory, Function.update_of_ne hut]⟩
  | activate t stack =>
    by_cases hut : u = t
    · subst hut
      exact .inr (.inr ⟨stack, rfl, by simp [memory]⟩)
    · simp only [Function.update_of_ne hut] at hu
      exact .inl ⟨hu, by simp only [memory, Function.update_of_ne hut]⟩
  | create | exit | remove | terminate => exact .inl ⟨hexit rfl (by simp), rfl⟩
  | _ => exact .inl ⟨hu, rfl⟩

include honest

/-- When everybody has answered, nobody refers to an unmarked entry of the list but those that
are late. -/
theorem unreferenced_leave {late : T → Prop} (run : Run (system cfg) ok es s) (inv : Covered late s)
    {t u : T} {c : ℕ} {x : Word} (ht : s.main t = .wait c) (all : c ≤ s.selfStacksSearched) {k : ℕ} (hk : k < s.nAddrs)
    (hx : s.buffer t k = x) (hlow : lowBit x = false) (h₀ : x ≠ 0#64)
    (hu : s.life u = .active) (hr : Refers (memory s u) x) : late u ∧ s.handler u = none := by
  have hready : Ready (s.main t) := by rw [ht]; trivial
  obtain ⟨h4, -⟩ := list_of_sorted honest run (.inr hready)
  have howner := run_owner run t hready.ne_away.1 hready.ne_away.2
  have hmarked := ((run_searches run).list t hready (by omega)).marked k
  simp only [working, bufAddrs_of_owner howner] at hmarked
  have haligned := h4 k (by omega) (by omega)
  have hnot : ¬ Flagged s k := by
    intro hf
    rw [Flagged, bufAddrs_of_owner howner, hx] at hf
    rw [hf, lowBit_add_one (by omega)] at hlow
    cases hlow
  have hentry : s.sorted k = x := by
    obtain he | ⟨-, -, he⟩ := hmarked
    · rw [← he, hx]
    · rw [Flagged, bufAddrs_of_owner howner] at hnot
      exact absurd he hnot
  have hview : view s t u = .finished := by
    obtain ⟨hpending, hworking⟩ := (RollCall.outstanding_eq_zero _ u).mp
      ((run_roll run).all_answered (t := t) (congrArg phase ht) all u)
    change s.pending u = 0 at hpending
    change helper (s.handler u) ≠ .working at hworking
    simp only [view, ht, helperView, hpending, lt_irrefl, if_false, ite_eq_left_iff]
    intro _
    split
    · next hh =>
      rw [hh] at hworking
      exact absurd rfl hworking
    · rfl
  obtain ⟨hlate, hawake, -⟩ | hcovers := inv t u k hu ⟨by omega, by omega⟩ (hentry ▸ h₀)
  · exact ⟨hlate, hawake⟩
  · rw [hview] at hcovers
    exact absurd (hcovers (hentry ▸ hr)) hnot

theorem Unreferenced.step {late late' : T → Prop} (run : Run (system cfg) ok es s)
    (covered : Covered late s) (inv : Unreferenced s) {e : Event T} (allowed : careful late' es s e)
    (stays : ∀ u, late u → s.handler u = none → late' u ∨ ∃ t, e = .reset t)
    (move : Step cfg s e s') : Unreferenced s' := by
  have kept := run_kept (collects_of_honest honest) run
  intro t x hx h₀ u hu
  obtain hold | ⟨rfl, c, k, ht, all, hk, he, hlow⟩ := doomed_step run move hx
  · have hlive := kept.live x (held_addresses.mpr ⟨h₀, .list t, doomed_mem hold⟩)
    obtain ⟨hu, hm⟩ | ⟨stack, block, rfl, hu, hm⟩ | ⟨stack, rfl, hm⟩ := memory_step move hu
    · rw [hm]
      exact inv t x hold h₀ u hu
    · rw [hm]
      intro hr
      obtain hr | ⟨-, -, hspared⟩ := allowed x hlive hr
      · exact inv t x hold h₀ u hu hr
      · exact hspared t hold
    · rw [hm]
      exact allowed x hlive
  · obtain ⟨hu, hm⟩ | ⟨_, _, he, -⟩ | ⟨_, he, -⟩ := memory_step move hu
    · rw [hm]
      intro hr
      obtain ⟨hlate, hawake⟩ := unreferenced_leave honest run covered ht all hk he hlow h₀ hu hr
      have hlate' := (stays u hlate hawake).resolve_right (by simp)
      have hmem : x ∈ contents (s.buffer t) s.nAddrs :=
        List.mem_map.mpr ⟨k, List.mem_range.mpr hk, he⟩
      exact allowed u x h₀ hmem hlate' hu hr
    · cases he
    · cases he

/-- What is guaranteed of the references of active threads. -/
structure Guarded (late : T → Prop) (s : State T) : Prop where
  covered : Covered late s
  unreferenced : Unreferenced s

omit honest in
theorem guarded_initial (late : T → Prop) (map : Mem) : Guarded late (initial map) := by
  refine ⟨fun r u j hu => ?_, fun t x hx => hx.elim⟩
  simp [initial] at hu

theorem Guarded.step {late late' : T → Prop} (run : Run (system cfg) ok es s)
    (inv : Guarded late s) {e : Event T} (allowed : careful late' es s e)
    (stays : ∀ u, late u → s.handler u = none → late' u ∨ ∃ t, e = .reset t)
    (move : Step cfg s e s') : Guarded late' s' :=
  ⟨inv.covered.step honest run allowed stays move,
    inv.unreferenced.step honest run inv.covered allowed stays move⟩

omit honest

theorem run_guarded (honest : ∀ es s e, ok es s e → honours es s e)
    (run : Run (system cfg) ok es s) : Guarded (fun _ => False) s := by
  refine run.invariant (I := fun _ s => Guarded (fun _ => False) s) ?_ ?_
  · rintro s ⟨map, rfl⟩
    exact guarded_initial _ map
  · exact fun es s e s' run inv allowed move => inv.step (fun _ _ _ _ h => honest _ _ _ h) run
      (careful_of_honours (honest _ _ _ allowed)) (fun _ hlate => hlate.elim) move

/-- What is freed was about to be. -/
theorem doomed_of_free {t : T} {a : Word} (move : Step cfg s (.free t a) s') :
    Doomed (s.main t) (s.buffer t) a := by
  cases move with
  | free _ n i w _ ht _ more freed =>
    rw [ht]
    simp only [handleEntry] at freed
    split_ifs at freed with hlow
    exact ⟨i, le_rfl, more, Option.some.inj freed, Option.some.inj freed ▸ by simpa using hlow⟩

/-- When an address is freed, no active thread's stack or local block refers to it. -/
theorem no_premature_free (cfg : Config) (es : List (Event T)) (s s' : State T)
    (run : Run (system cfg) honours es s) (t : T) (a : Word) (nonnull : a ≠ 0#64)
    (move : Step cfg s (.free t a) s') (u : T) (alive : s.life u = .active) :
    ¬ ∃ w ∈ s.stack u ++ (s.localBlock u).getD [], ptrMask w = a := by
  exact (run_guarded (fun _ _ _ h => h) run).unreferenced t a (doomed_of_free move) nonnull u alive

omit [DecidableEq T] in
theorem not_live_of_fresh {a : Word} (h : Progress.Fresh a es) : ¬ Live a es := by
  intro hlive
  obtain ⟨u, hu⟩ := collected_of_live hlive
  exact h u hu

omit [DecidableEq T] in
theorem lets_honours : Progress.Lets (honours (T := T)) := by
  intro es s e h
  cases e <;> first | exact h.elim | trivial

/-- A thread that still refers to its second address frees its first one. -/
theorem no_premature_free_first : ∃ (es : List (Event Unit)) (s s' : State Unit) (a : Word),
    Run (system (Progress.leastConfig false)) honours es s ∧
    Step (Progress.leastConfig false) s (.free () a) s' ∧ s.stack () = [4112#64] ∧
    ¬ ∃ w ∈ s.stack () ++ (s.localBlock ()).getD [], ptrMask w = a := by
  obtain ⟨es, s, b₀, run, lone, hm, -, -, -, -, mono, -, hmarked, hmarks, hfirst⟩ :=
    Progress.first_round honours false lets_honours [4112#64]
      (fun s' a h => h.elim)
      (fun es s a h4 hf => ⟨h4, not_live_of_fresh hf⟩)
      (fun _ _ _ _ => trivial) (fun _ _ => by simp [honours])
  have hentry : s.buffer () 0 = b₀ 0 := by
    obtain he | ⟨w, hw, he⟩ := hmarks 0
    · exact he
    · obtain rfl := List.mem_singleton.mp hw
      rw [← he] at hfirst
      exact absurd hfirst (by decide)
  have hlow : lowBit (s.buffer () 0) = false := by
    rw [lowBit_eq_false, hentry]
    omega
  have hassert : assertMonotonicity (Progress.leastConfig false) (s.buffer ()) 1023 :=
    fun h => Bool.noConfusion h
  have run' := run.step (show honours es s (.handle ()) from trivial)
    (Step.verify s () 1023 hm lone.handler hassert)
  have hfree : Step (Progress.leastConfig false) _ (.free () (s.buffer () 0)) _ := Step.free { s with
      main := Function.update s.main () (.handle 1023 0 0) } () 1023 0 0 (s.buffer () 0)
    (by simp) lone.handler (by norm_num) (by simp [handleEntry, hlow])
  have hnone := no_premature_free _ _ _ _ run' () (s.buffer () 0)
    (by
      rw [hentry]
      intro hz
      rw [hz] at hfirst
      exact absurd hfirst (by decide))
    hfree () lone.life
  exact ⟨_, _, _, _, run', hfree, lone.stack, hnone⟩

end ThreadScan.Coverage
