import ThreadScan.Coverage
import ThreadScan.Progress

/-! Every collected address can be told where it is. In rounds whose lowest address has no
references, an address is in one place or has been freed, and one that is still referenced
comes back in the list of a later round. A round whose lowest address is referenced loses it. -/
namespace ThreadScan.Tracking
open Transition Search Marking Compaction Rearrangement Custody Reclaim Handshake Rounds Listed
open Bookkeeping Coverage Progress ThreadScan.Sort

variable {T : Type*} [DecidableEq T] {cfg : Config}
  {ok : List (Event T) → State T → Event T → Prop} {es es' : List (Event T)} {s s' : State T}

/-- Nobody exits, only even addresses are collected, none again before it has been freed, and
whenever a compaction starts its list is empty or its first entry unmarked. -/
def unmarkedFirst (es : List (Event T)) (s : State T) : Event T → Prop
  | .push _ a => a.toNat % 2 = 0 ∧ ¬ Live a es
  | .handle t => ∀ n, s.main t = .verify n → n = 0 ∨ lowBit (s.buffer t 0) = false
  | .exit _ => False
  | _ => True

omit [DecidableEq T] in
theorem unmarkedFirst_collects : Collects (unmarkedFirst (T := T)) := fun _ _ _ _ h => h

omit [DecidableEq T] in
theorem unmarkedFirst_keeps : KeepsFirst (unmarkedFirst (T := T)) := fun _ _ _ n h => h n

/-! ### Addresses that are still referenced -/

/-- The address is an entry that a compaction keeps. -/
def Carried (x : Word) (m : Main T) (a : Mem) : Prop :=
  match m with
  | .verify n | .fatal n => ∃ k : ℕ, k < n ∧ lowBit (a k) = true ∧ unmark (a k) = x
  | .handle n i w =>
    x ∈ contents a w ∨ ∃ k : ℕ, i ≤ k ∧ k < n ∧ lowBit (a k) = true ∧ unmark (a k) = x
  | .randomize n | .store n => x ∈ contents a n
  | _ => False

theorem mem_contents_iff {a : Mem} {n : ℕ} {x : Word} :
    x ∈ contents a n ↔ ∃ k : ℕ, k < n ∧ a k = x := by
  simp only [contents, List.mem_map, List.mem_range]

omit [DecidableEq T] in
theorem Carried.mem_list {t : T} {x : Word} (h : Carried x (s.main t) (s.buffer t)) :
    x ∈ place s (.list t) := by
  cases hm : s.main t with
  | verify n | fatal n =>
    rw [hm] at h
    obtain ⟨k, hk, -, he⟩ := h
    simp only [place, hm, workingList, List.mem_map]
    exact ⟨_, mem_contents_iff.mpr ⟨k, hk, rfl⟩, he⟩
  | handle n i w =>
    rw [hm] at h
    simp only [place, hm, workingList, List.mem_append, pendingEntries, List.mem_map]
    obtain h | ⟨k, hi, hk, -, he⟩ := h
    · exact .inl h
    · exact .inr ⟨k, List.mem_range'_1.mpr ⟨hi, by omega⟩, he⟩
  | randomize n | store n =>
    rw [hm] at h
    simp only [place, hm, workingList]
    exact h
  | _ =>
    rw [hm] at h
    exact h.elim

/-- A compaction hands what it keeps on to the storage. -/
theorem Carried.step (run : Run (system cfg) ok es s) (behind : Behind s) {t : T} {x : Word}
    (h : Carried x (s.main t) (s.buffer t)) {e : Event T} (move : Step cfg s e s') :
    Carried x (s'.main t) (s'.buffer t) ∨ x ∈ s'.storage.flatten := by
  have hclosed : ¬ RollCall.Open (phase (s.main t)) := by
    cases hm : s.main t <;> rw [hm] at h <;> first | exact h.elim | exact id
  -- the step of another thread, or one of the thread itself
  have hmove : ∀ {v : T} {m : Main T}, s'.main = Function.update s.main v m →
      (t ≠ v → s'.buffer t = s.buffer t) →
      (t = v → Carried x m (s'.buffer t) ∨ x ∈ s'.storage.flatten) →
      Carried x (s'.main t) (s'.buffer t) ∨ x ∈ s'.storage.flatten := by
    intro v m hm hb hself
    rw [hm]
    by_cases htv : t = v
    · subst htv
      rw [Function.update_self]
      exact hself rfl
    · rw [Function.update_of_ne htv, hb htv]
      exact .inl h
  have hupdate : ∀ {v : T} {a : Mem}, t ≠ v → Function.update s.buffer v a t = s.buffer t :=
    fun htv => Function.update_of_ne htv _ _
  cases move with
  | goto v m _ hg =>
    refine hmove rfl (fun _ => rfl) ?_
    rintro rfl
    generalize s.main t = m₀ at hg h
    cases hg with
    | verifyFail n => exact .inl h
    | handled n w =>
      obtain h | ⟨k, hi, hk, -⟩ := h
      · exact .inl h
      · omega
    | storeNone =>
      obtain ⟨k, hk, -⟩ := mem_contents_iff.mp h
      omega
    | _ => exact h.elim
  | verify v n hv =>
    refine hmove rfl (fun _ => rfl) ?_
    rintro rfl
    rw [hv] at h
    obtain ⟨k, hk⟩ := h
    exact .inl (.inr ⟨k, Nat.zero_le k, hk⟩)
  | keep v n i w hv _ more kept =>
    refine hmove rfl hupdate ?_
    rintro rfl
    obtain ⟨hw, -⟩ := run_compacting run t n i w hv
    have hlow := lowBit_of_kept kept
    have hlt : w < i := by
      obtain ⟨rfl, hn | hfirst⟩ | hlt := behind t n i w hv
      · omega
      · rw [Nat.cast_zero, hfirst] at hlow
        cases hlow
      · exact hlt
    obtain ⟨hpos, hlist⟩ := handleEntry_moves hlt hlow
    rw [hv] at h
    simp only [Function.update_self, Carried, hpos, hlist, List.mem_append, List.mem_singleton]
    obtain h | ⟨k, hi, hk, hmark, he⟩ := h
    · exact .inl (.inl (.inl h))
    obtain rfl | hik : i = k ∨ i < k := by omega
    · exact .inl (.inl (.inr he.symm))
    · refine .inl (.inr ⟨k, by omega, hk, ?_⟩)
      rw [handleEntry_rest _ hw hik]
      exact ⟨hmark, he⟩
  | free v n i w ptr hv _ more freed =>
    refine hmove rfl hupdate ?_
    rintro rfl
    obtain ⟨hw, -⟩ := run_compacting run t n i w hv
    have hlow := lowBit_of_freed freed
    obtain ⟨hout, hlist⟩ := handleEntry_frees hw hlow
    rw [hv] at h
    simp only [Function.update_self, Carried, hout, hlist]
    obtain h | ⟨k, hi, hk, hmark, he⟩ := h
    · exact .inl (.inl h)
    have hne : i ≠ k := by
      rintro rfl
      rw [hlow] at hmark
      cases hmark
    refine .inl (.inr ⟨k, by omega, hk, ?_⟩)
    rw [handleEntry_rest _ hw (by omega)]
    exact ⟨hmark, he⟩
  | randomize v n hv =>
    refine hmove rfl hupdate ?_
    rintro rfl
    rw [hv] at h
    simp only [Function.update_self]
    exact .inl ((threadscanUtilRandomize_perm _ _).mem_iff.mpr h)
  | store v n hv _ some =>
    refine hmove rfl (fun _ => rfl) ?_
    rintro rfl
    rw [hv] at h
    refine .inr ?_
    rw [List.flatten_cons]
    exact List.mem_append_left _
      ((storeRemainingAddrs_perm _ (by omega)).mem_iff.mpr h)
  | search v c stage scan hv =>
    refine hmove rfl (fun _ => storeBuf_other run (.inl ⟨c, stage, hv⟩) _ hclosed) ?_
    rintro rfl
    rw [hv] at h
    exact h.elim
  | helperSearch v stage scan hv =>
    have hb := storeBuf_other run (.inr ⟨stage, hv⟩)
      (searchNext cfg.debug (working s) scan).2 hclosed
    dsimp only
    rw [hb]
    exact .inl h
  | assign v _ _ hv | leftover v _ _ _ hv | popTail v _ _ _ _ hv | sort v hv =>
    refine hmove rfl hupdate ?_
    rintro rfl
    rw [hv] at h
    exact h.elim
  | push v _ hv | acquire v hv | exchange v hv | lockQueues v _ hv | unlockQueues v _ hv
  | count v _ hv | scanMap v hv | reset v hv | lockSignal v hv | kill v _ _ _ hv
  | unlockSignal v _ hv | leave v _ hv | release v _ hv =>
    refine hmove rfl (fun _ => rfl) ?_
    rintro rfl
    rw [hv] at h
    exact h.elim
  | _ => exact .inl h

/-- The address waits in the list of `t` or in the storage, or it has been taken from there
into the list of a later round. -/
def Returns (cfg : Config) (ok : List (Event T) → State T → Event T → Prop) (t : T) (x : Word)
    (es : List (Event T)) (s : State T) (es' : List (Event T)) (s' : State T) : Prop :=
  x ∈ place s' (.list t) ∨ x ∈ place s' .storage ∨
    ∃ es₁ s₁ r s₂, Moves (system cfg) ok (es, s) (es₁, s₁) ∧ Step cfg s₁ (.exchange r) s₂ ∧
      x ∈ place s₂ (.list r) ∧ Moves (system cfg) ok (.exchange r :: es₁, s₂) (es', s')

/-- A round that takes the storage has all of it in its list. -/
theorem exchange_takes {r : T} (move : Step cfg s (.exchange r) s') {x : Word}
    (h : x ∈ place s .storage) : x ∈ place s' (.list r) := by
  cases move with
  | exchange _ hr =>
    simp only [place, Function.update_self, workingList]
    exact List.mem_append_right _ h

theorem storage_step {e : Event T} (move : Step cfg s e s') {x : Word}
    (h : x ∈ place s .storage) : x ∈ place s' .storage ∨ ∃ r, e = .exchange r := by
  cases move with
  | exchange r => exact .inr ⟨r, rfl⟩
  | store t n =>
    refine .inl ?_
    simp only [place, List.flatten_cons]
    exact List.mem_append_right _ h
  | _ => exact .inl h

/-- While nobody takes the storage, what a compaction keeps is in its hands or in the storage. -/
theorem carried_stored (keeps : KeepsFirst ok) (run : Run (system cfg) ok es s) {t : T} {x : Word}
    (h : Carried x (s.main t) (s.buffer t)) {c : List (Event T) × State T}
    (course : Moves (system cfg) (fun es s e => ok es s e ∧ ∀ r, e ≠ .exchange r) (es, s) c) :
    Carried x (c.2.main t) (c.2.buffer t) ∨ x ∈ place c.2 .storage := by
  induction course with
  | refl => exact .inl h
  | @tail b d before last ih =>
    obtain ⟨e, hd, ⟨allowed, hnone⟩, move⟩ := last
    have runb := Run.extend (c := (es, s)) run (Moves.weaken (fun _ _ _ h => h.1) before)
    obtain hcarried | hstored := ih
    · exact hcarried.step runb (run_behind keeps runb) move
    · exact .inr ((storage_step move hstored).resolve_right fun ⟨r, hr⟩ => hnone r hr)

/-- An address that is found referenced comes back in a later round. -/
theorem referenced_returns (keeps : KeepsFirst ok)
    (run : Run (system cfg) ok es s) {t : T} {n k : ℕ} (ht : s.main t = .verify n) (hk : k < n)
    (marked : lowBit (s.buffer t k) = true) (h : Moves (system cfg) ok (es, s) (es', s')) :
    Returns cfg ok t (unmark (s.buffer t k)) es s es' s' := by
  have hstart : Carried (unmark (s.buffer t k)) (s.main t) (s.buffer t) := by
    rw [ht]
    exact ⟨k, hk, marked, rfl⟩
  generalize unmark (s.buffer t k) = x at hstart
  have hall : ∀ c, Moves (system cfg) ok (es, s) c → Carried x (c.2.main t) (c.2.buffer t) ∨
      x ∈ place c.2 .storage ∨ ∃ es₁ s₁ r s₂, Moves (system cfg) ok (es, s) (es₁, s₁) ∧
        Step cfg s₁ (.exchange r) s₂ ∧ x ∈ place s₂ (.list r) ∧
        Moves (system cfg) ok (.exchange r :: es₁, s₂) c := by
    intro c hc
    induction hc with
    | refl => exact .inl hstart
    | @tail b d before last ih =>
      obtain ⟨e, hd, allowed, move⟩ := last
      have runb := run.extend before
      obtain hcarried | hstored | ⟨es₁, s₁, r, s₂, hbefore, htake, hlist, hafter⟩ := ih
      · obtain hcarried | hstored := hcarried.step runb (run_behind keeps runb) move
        · exact .inl hcarried
        · exact .inr (.inl hstored)
      · obtain hstored' | ⟨r, rfl⟩ := storage_step move hstored
        · exact .inr (.inl hstored')
        · refine .inr (.inr ⟨b.1, b.2, r, d.2, before, move, exchange_takes move hstored, ?_⟩)
          rw [← hd]
          exact .refl _
      · exact .inr (.inr ⟨es₁, s₁, r, s₂, hbefore, htake, hlist,
          Relation.ReflTransGen.tail hafter ⟨e, hd, allowed, move⟩⟩)
  obtain hcarried | hrest := hall _ h
  · exact .inl hcarried.mem_list
  · exact .inr hrest

/-! ### A round that keeps an address -/

/-- A client that honours its obligations, and threads that do not exit. -/
def patient (es : List (Event T)) (s : State T) (e : Event T) : Prop :=
  honours es s e ∧ ∀ t, e ≠ .exit t

omit [DecidableEq T] in
theorem lets_patient : Lets (patient (T := T)) := by
  intro es s e h
  refine ⟨lets_honours es s e h, ?_⟩
  rintro t rfl
  exact h

omit [DecidableEq T] in
theorem patient_handle (es : List (Event T)) (s : State T) (t : T) :
    patient es s (.handle t) := ⟨trivial, by simp⟩

/-- And no compaction starts with a marked entry. -/
def orderly (es : List (Event T)) (s : State T) (e : Event T) : Prop :=
  patient es s e ∧ ∀ t n, e = .handle t → s.main t = .verify n → n = 0 ∨ lowBit (s.buffer t 0) = false

omit [DecidableEq T] in
theorem lets_orderly : Lets (orderly (T := T)) := by
  intro es s e h
  refine ⟨lets_patient es s e h, ?_⟩
  rintro t n rfl
  exact h.elim

omit [DecidableEq T] in
theorem orderly_keeps : KeepsFirst (orderly (T := T)) := fun _ _ t n h => h.2 t n rfl

omit [DecidableEq T] in
theorem unmarkedFirst_of_orderly {e : Event T} (h : orderly es s e) : unmarkedFirst es s e := by
  obtain ⟨⟨hhonours, hstays⟩, hfirst⟩ := h
  cases e with
  | push t a => exact ⟨by have := hhonours.1; omega, hhonours.2⟩
  | handle t => exact fun n => hfirst t n rfl
  | exit t => exact absurd rfl (hstays t)
  | _ => trivial

/-- An entry that an active thread refers to is marked when the searches of its round are over. -/
theorem marked_of_referred (honest : ∀ es s e, ok es s e → honours es s e)
    (run : Run (system cfg) ok es s) {t u : T} {n k : ℕ} {orig : Mem} {x : Word}
    (ht : s.main t = .verify n) (marked : Marked n orig (s.buffer t)) (hk : k < n)
    (entry : orig k = x) (nonnull : x ≠ 0#64) (even : lowBit x = false)
    (active : s.life u = .active) (refers : Refers (memory s u) x) :
    s.buffer t k = x + 1#64 := by
  obtain hsame | ⟨-, -, hmark⟩ := marked k
  · -- nothing that is referenced is about to be freed
    refine ((run_guarded honest run).unreferenced t x ?_ nonnull u active refers).elim
    rw [ht]
    exact ⟨k, hk, hsame.trans entry, even⟩
  · rw [hmark, entry]

/-- The compaction of a thread that refers to its second address starts. -/
theorem kept_start (debug : Bool) : ∃ (es : List (Event Unit)) (s : State Unit),
    Run (system (leastConfig debug)) orderly es s ∧ Lone s () [4112#64] ∧
    s.main () = .handle 1023 0 0 ∧ s.lock = none ∧ s.storage = [] ∧ s.queue () = [] ∧
    s.buffer () (0 : ℕ) = 4096#64 ∧ Carried 4112#64 (s.main ()) (s.buffer ()) ∧
    ∀ u a, Event.push u a ∈ es → a ∈ addressRow 256 1023 := by
  obtain ⟨es, s, b₀, run, lone, hm, hlock, hstorage, hqueue, hes, mono, hperm, hmarked, hmarks, hfirst⟩ :=
    first_round orderly debug lets_orderly [4112#64]
      (fun s' => ⟨⟨fun a h => h.elim, by simp⟩, by simp⟩)
      (fun es s a h4 hf => ⟨⟨⟨h4, not_live_of_fresh hf⟩, by simp⟩, by simp⟩)
      (fun _ _ _ _ => ⟨⟨trivial, by simp⟩, by simp⟩)
      (fun _ _ => ⟨⟨by simp [honours], by simp⟩, by simp⟩)
  have hentry : s.buffer () 0 = b₀ 0 := by
    obtain he | ⟨w, hw, he⟩ := hmarks 0
    · exact he
    · obtain rfl := List.mem_singleton.mp hw
      rw [← he] at hfirst
      exact absurd hfirst (by decide)
  have hword : b₀ 0 = 4096#64 := BitVec.eq_of_toNat_eq hfirst
  have hlow : lowBit (s.buffer () 0) = false := by
    rw [hentry, hword]
    decide
  obtain ⟨k, hk, he⟩ : ∃ k : ℕ, k < 1023 ∧ b₀ k = 4112#64 := by
    rw [← mem_contents_iff, hperm.mem_iff]
    exact List.mem_map.mpr ⟨1, by simp, by decide⟩
  have hmark := marked_of_referred (fun _ _ _ h => h.1.1) run hm hmarked hk he (by decide) (by decide)
    lone.life ⟨4112#64, by simp [memory, lone.stack], by decide⟩
  have hcarried : Carried 4112#64 (.handle 1023 0 0 : Main Unit) (s.buffer ()) := by
    refine .inr ⟨k, Nat.zero_le k, hk, ?_⟩
    rw [hmark]
    decide
  have run' := run.step ⟨patient_handle es s (), fun _ _ _ _ => .inr hlow⟩
    (Step.verify s () 1023 hm lone.handler (assert_of_marked mono hmarked))
  refine ⟨_, _, run', ⟨lone.handler, lone.life, lone.stack, lone.localBlock, lone.threadList,
    lone.listLock⟩, by simp, hlock, hstorage, hqueue, hentry.trans hword, ?_,
    fun u a ha => hes u a (by simpa using ha)⟩
  simp only [Function.update_self]
  exact hcarried

/-- The round ends with the address in the storage. -/
theorem kept_round (debug : Bool) : ∃ (es : List (Event Unit)) (s : State Unit),
    Run (system (leastConfig debug)) orderly es s ∧ Lone s () [4112#64] ∧ s.main () = .idle ∧
    s.lock = none ∧ s.queue () = [] ∧ 4112#64 ∈ s.storage.flatten ∧
    s.storage.flatten.length ≤ 1023 ∧ ∀ u a, Event.push u a ∈ es → a ∈ addressRow 256 1023 := by
  obtain ⟨es, s, run, lone, hm, hlock, hstorage, hqueue, -, hcarried, hes⟩ := kept_start debug
  obtain ⟨es', s', hleads, b, b', w, blocks, -, hw, -, hperm, rfl⟩ :
      Reach (leastConfig debug) (fun es s e => orderly es s e ∧ ∀ r, e ≠ .exchange r) es s _ :=
    compact_reach (fun es s e h => ⟨lets_orderly es s e h, by rintro r rfl; exact h⟩) () es s 1023 0 0
      hm (by norm_num) lone.handler (by rw [leastConfig_maxPtrs]; omega)
      (by simp [hqueue, leastConfig])
  have hstored := carried_stored orderly_keeps run hcarried hleads.1
  simp only [Function.update_self, Carried, false_or] at hstored
  refine ⟨es', _, run.extend (hleads.1.weaken fun _ _ _ h => h.1), ⟨lone.handler, lone.life,
    lone.stack, lone.localBlock, lone.threadList, lone.listLock⟩, by simp, hlock, hqueue, hstored, ?_,
    fun u a ha => hes u a (hleads.2 u a ha)⟩
  simp only [hstorage, List.append_nil]
  rw [hperm.length_eq, contents_length]
  omega

/-! ### All addresses -/

/-- Where nobody exits and no compaction starts with a marked entry, a collected address is
in one place, once, or has been freed, once; nothing else is in any place; and what a round
finds referenced comes back in the list of a later one. -/
theorem tracked (cfg : Config) (es : List (Event T)) (s : State T)
    (run : Run (system cfg) unmarkedFirst es s) :
    (∀ a, Collected a es →
      (∃ p, (place s p).count a = 1 ∧ (∀ q, a ∈ place s q → q = p) ∧ freesSince a es = 0) ∨
      (∀ p, a ∉ place s p) ∧ freesSince a es = 1) ∧
    (∀ p, ∀ x ∈ place s p, Collected x es) ∧
    (∀ t n k, s.main t = .verify n → k < n → lowBit (s.buffer t (k : ℕ)) = true →
      ∀ es' s', Moves (system cfg) unmarkedFirst (es, s) (es', s') →
        Returns cfg unmarkedFirst t (unmark (s.buffer t (k : ℕ))) es s es' s') := by
  have inv := run_complete unmarkedFirst_collects unmarkedFirst_keeps run
  refine ⟨fun a ha => ?_, fun p x hx => ?_, fun t n k ht hk hmark es' s' h => ?_⟩
  · obtain hlive | hsince := inv.since a ha
    · obtain ⟨p, hp⟩ := (inv.live a).mpr hlive
      refine .inl ⟨p, List.count_eq_one_of_mem (inv.exclusive.nodup p) hp, fun q hq => ?_,
        freesSince_of_live hlive⟩
      exact inv.exclusive.apart q p a hq hp
    · refine .inr ⟨fun p hp => ?_, hsince⟩
      have hnone := freesSince_of_live ((inv.live a).mp ⟨p, hp⟩)
      omega
  · exact collected_of_live ((inv.live x).mp ⟨p, hx⟩)
  · exact referenced_returns unmarkedFirst_keeps run ht hk hmark h

/-- A compaction starts whose second address is referenced: all its addresses are tracked. -/
theorem tracked_second : ∃ (es : List (Event Unit)) (s : State Unit),
    Run (system (leastConfig false)) unmarkedFirst es s ∧ s.main () = .handle 1023 0 0 ∧
    s.stack () = [4112#64] ∧ Collected 4096#64 es ∧
    ((∃ p, (place s p).count 4096#64 = 1 ∧ (∀ q, 4096#64 ∈ place s q → q = p) ∧
      freesSince 4096#64 es = 0) ∨ (∀ p, 4096#64 ∉ place s p) ∧ freesSince 4096#64 es = 1) := by
  obtain ⟨es, s, run, lone, hm, -, -, -, hentry, -⟩ := kept_start false
  have run' := run.weaken fun _ _ _ h => unmarkedFirst_of_orderly h
  have hplace : 4096#64 ∈ place s (.list ()) := by
    simp only [place, hm, workingList, pendingEntries_zero, List.mem_append, List.mem_map]
    exact .inr ⟨_, mem_contents_iff.mpr ⟨0, by norm_num, rfl⟩, by
      rw [hentry, unmark_of_even (by decide)]⟩
  obtain ⟨hone, honly, -⟩ := tracked _ _ _ run'
  have hcollected := honly _ _ hplace
  exact ⟨es, s, run', hm, lone.stack, hcollected, hone _ hcollected⟩

/-! ### The round that loses an address -/

theorem lost_moves (collects : Collects ok) (run : Run (system cfg) ok es s) {a : Word}
    (h : Lost a es s) {c : List (Event T) × State T} (moves : Moves (system cfg) ok (es, s) c) :
    Lost a c.1 c.2 := by
  induction moves with
  | refl => exact h
  | @tail b d before last ih =>
    obtain ⟨e, hd, allowed, move⟩ := last
    have runb := run.extend before
    rw [hd]
    exact Lost.step collects runb (run_kept collects runb) ih allowed move

/-- A thread refers to the lowest address of its first round: the compaction loses it. -/
theorem lossy_start (debug : Bool) : ∃ (es : List (Event Unit)) (s : State Unit),
    Run (system (leastConfig debug)) patient es s ∧ Lone s () [4096#64] ∧
    s.main () = .handle 1023 1 1 ∧ s.buffer () (0 : ℕ) = 0#64 ∧ s.lock = none ∧
    s.storage = [] ∧ s.queue () = [] ∧ Lost 4096#64 es s ∧
    ∀ u a, Event.push u a ∈ es → a ∈ addressRow 256 1023 := by
  obtain ⟨es, s, b₀, run, lone, hm, hlock, hstorage, hqueue, hes, mono, -, hmarked, -, hfirst⟩ :=
    first_round patient debug lets_patient [4096#64] (fun s' => ⟨fun a h => h.elim, by simp⟩)
      (fun es s a h4 hf => ⟨⟨h4, not_live_of_fresh hf⟩, by simp⟩)
      (fun _ _ _ _ => ⟨trivial, by simp⟩) (fun _ _ => ⟨by simp [honours], by simp⟩)
  have collects : Collects (patient (T := Unit)) :=
    collects_of_honest fun _ _ _ _ h => h.1
  have hword : b₀ 0 = 4096#64 := BitVec.eq_of_toNat_eq hfirst
  have hmark := marked_of_referred (k := 0) (fun _ _ _ h => h.1) run hm hmarked (by norm_num) hword
    (by decide) (by decide) lone.life ⟨4096#64, by simp [memory, lone.stack], by decide⟩
  rw [Nat.cast_zero] at hmark
  have hlow : lowBit (s.buffer () 0) = true := by
    rw [hmark]
    decide
  have hunmark : unmark (s.buffer () 0) = 4096#64 := by
    rw [hmark]
    decide
  have run₁ := run.step (patient_handle es s ()) (Step.verify s () 1023 hm lone.handler
    (assert_of_marked mono hmarked))
  have hkeep : Step (leastConfig debug) _ (.keep ()) _ := Step.keep { s with
      main := Function.update s.main () (.handle 1023 0 0) } () 1023 0 0 (by simp) lone.handler
    (by norm_num) (by simp [handleEntry, hlow])
  have hnonzero : unmark (s.buffer () (0 : ℕ)) ≠ 0#64 := by
    rw [Nat.cast_zero, hunmark]
    decide
  have hlost := lost_of_overwritten (run_kept collects run₁) (n := 1023) (i := 0)
    (by simp) hlow hnonzero hkeep
  change Lost (unmark (s.buffer () 0)) _ _ at hlost
  rw [hunmark] at hlost
  refine ⟨_, _, run₁.step (lets_patient _ _ (.keep ()) trivial) hkeep, ⟨lone.handler, lone.life,
    lone.stack, lone.localBlock, lone.threadList, lone.listLock⟩, ?_, ?_, hlock, hstorage, hqueue,
    hlost, fun u a ha => hes u a (by simpa using ha)⟩
  · simp only [Function.update_self, handleEntry, Nat.cast_zero, hlow, if_true, Nat.zero_add]
  · simp only [Function.update_self, handleEntry, Nat.cast_zero, hlow, if_true]

/-- The round ends with a zero in the storage. -/
theorem lossy_round (debug : Bool) : ∃ (es : List (Event Unit)) (s : State Unit),
    Run (system (leastConfig debug)) patient es s ∧ Lone s () [4096#64] ∧ s.main () = .idle ∧
    s.lock = none ∧ s.queue () = [] ∧ 0#64 ∈ s.storage.flatten ∧
    s.storage.flatten.length ≤ 1023 ∧ Lost 4096#64 es s ∧
    ∀ u a, Event.push u a ∈ es → a ∈ addressRow 256 1023 := by
  obtain ⟨es, s, run, lone, hm, hzero, hlock, hstorage, hqueue, hlost, hes⟩ := lossy_start debug
  obtain ⟨es', s', hleads, b, b', w, blocks, hw, hw', hkept, hperm, rfl⟩ :
      Reach (leastConfig debug) patient es s _ :=
    compact_reach lets_patient () es s 1023 1 1 hm (by norm_num) lone.handler
      (by rw [leastConfig_maxPtrs]; omega) (by simp [hqueue, leastConfig])
  refine ⟨es', _, hleads.run run, ⟨lone.handler, lone.life, lone.stack, lone.localBlock,
    lone.threadList, lone.listLock⟩, by simp, hlock, hqueue, ?_, ?_,
    lost_moves (collects_of_honest fun _ _ _ _ h => h.1) run hlost hleads.1,
    fun u a ha => hes u a (hleads.2 u a ha)⟩
  · simp only [hstorage, List.append_nil]
    refine hperm.mem_iff.mpr (mem_contents_iff.mpr ⟨0, by omega, ?_⟩)
    rw [hkept 0 (by norm_num) (by norm_num), hzero]
  · simp only [hstorage, List.append_nil]
    rw [hperm.length_eq, contents_length]
    omega

/-- Where the lowest address of a round is still referenced, the address is nowhere and has not
been freed. -/
theorem untracked : ∃ (es : List (Event Unit)) (s : State Unit),
    Run (system (leastConfig false)) patient es s ∧ s.main () = .idle ∧
    Collected 4096#64 es ∧ (∀ p, 4096#64 ∉ place s p) ∧ freesSince 4096#64 es = 0 := by
  obtain ⟨es, s, run, -, hm, -, -, -, -, ⟨hlive, hnone⟩, -⟩ := lossy_round false
  exact ⟨es, s, run, hm, collected_of_live hlive, hnone, freesSince_of_live hlive⟩

end ThreadScan.Tracking
