import ThreadScan.Collector
import ThreadScan.Precision
import ThreadScan.Tracking

/-! The protocol is a deferred reclaimer. Its collected addresses are in limbo, what a thread
refers to is what its memory holds, and every step is one of the reclaimer; in particular
the addresses that a compaction overwrites stay in limbo for good, and are not freed twice. -/
namespace ThreadScan.Refinement
open Transition Search Compaction Rearrangement Reclaim Bookkeeping Coverage

variable {T : Type*} [DecidableEq T] {cfg : Config} {es : List (Event T)} {s s' : State T}

/-- What happens to the objects; `free(NULL)` does nothing. -/
def event : Event T → Collector.Event Word
  | .push _ a => .retire a
  | .free _ a => if a = 0#64 then .other else .free a
  | _ => .other

/-- The reclaimer that a state of the protocol stands for. -/
def collector (es : List (Event T)) (s : State T) : Collector.State T Word where
  limbo := {a | Live a es}
  refs t := if s.life t = .active then some {a | Refers (memory s t) a} else none

omit [DecidableEq T] in
/-- A step that neither collects nor frees changes what the threads refer to at most. -/
theorem collector_passing (e : Event T) (s : State T) (pass : Passing e)
    {refs : T → Option (Set Word)} (h : (collector es s').refs = refs) :
    collector (e :: es) s' = { collector es s with refs := refs } := by
  have hlimbo : {a | Live a (e :: es)} = {a | Live a es} := by
    ext a
    exact live_passing pass a es
  rw [collector, hlimbo, ← h]
  rfl

theorem live_nonnull (run : Run (system cfg) honours es s) {a : Word} (h : Live a es) :
    a ≠ 0#64 := by
  have hpushed : ∀ (es : List (Event T)) (s : State T) (t : T) (x : Word),
      honours es s (.push t x) → x.toNat % 4 = 0 := fun _ _ _ _ h => h.1
  exact (run_live hpushed run a h).2

/-- What one thread refers to is replaced. -/
theorem refs_update (s : State T) {t : T} {o : Option (Set Word)}
    (ht : (if s'.life t = .active then some {a | Refers (memory s' t) a} else none) = o)
    (hl : ∀ u, u ≠ t → s'.life u = s.life u) (hm : ∀ u, u ≠ t → memory s' u = memory s u) :
    (collector es s').refs = Function.update (collector es s).refs t o := by
  funext u
  by_cases hu : u = t
  · subst hu
    rw [Function.update_self]
    exact ht
  · rw [Function.update_of_ne hu]
    simp only [collector, hl u hu, hm u hu]

/-- Only the start, the exit and the user code of a thread change what it refers to. -/
theorem refs_life {t : T} {l : Life} (hl : s'.life = Function.update s.life t l)
    (hm : memory s' = memory s) (hold : s.life t ≠ .active) (hnew : l ≠ .active) :
    (collector es s').refs = (collector es s).refs := by
  funext u
  simp only [collector, hl, hm]
  by_cases hu : u = t
  · subst hu
    simp [hold, hnew]
  · rw [Function.update_of_ne hu]

/-- Every step of the protocol is a step of the reclaimer. -/
theorem collector_step (run : Run (system cfg) honours es s) {e : Event T}
    (allowed : honours es s e) (move : Step cfg s e s') :
    Collector.Step (collector es s) (event e) (collector (e :: es) s') := by
  have hrefs : ∀ {e : Event T} {refs : T → Option (Set Word)}, Passing e → event e = .other →
      (collector es s').refs = refs →
      Collector.Step (collector es s) .other { collector es s with refs := refs } →
      Collector.Step (collector es s) (event e) (collector (e :: es) s') := by
    intro e refs pass hother h hstep
    rw [collector_passing e s pass h, hother]
    exact hstep
  cases move with
  | push t a =>
    have hlimbo : {x | Live x (.push t a :: es)} = insert a {x | Live x es} := by
      ext x
      exact or_congr_left eq_comm
    have hstep := Collector.Step.retire (collector es s) a allowed.2
    rwa [show insert a (collector es s).limbo = {x | Live x (.push t a :: es)} from hlimbo.symm]
      at hstep
  | free t n i w a ht awake more freed =>
    have move : Step cfg s (.free t a) _ := .free s t n i w a ht awake more freed
    have hdoomed := doomed_of_free move
    by_cases h₀ : a = 0#64
    · -- an entry that a compaction has overwritten
      have hlimbo : {x | Live x (.free t a :: es)} = {x | Live x es} := by
        ext x
        refine ⟨fun h => h.2, fun h => ⟨fun he => ?_, h⟩⟩
        exact live_nonnull run h (he ▸ h₀)
      simp only [collector, event, if_pos h₀, hlimbo]
      exact .stutter _
    · have hlive : Live a es := (run_kept Precision.collects_honours run).live a
        (held_addresses.mpr ⟨h₀, .list t, doomed_mem hdoomed⟩)
      have hlimbo : {x | Live x (.free t a :: es)} = {x | Live x es} \ {a} := by
        ext x
        exact and_comm.trans (and_congr_right fun _ => ne_comm)
      have hunref : ∀ u R, (collector es s).refs u = some R → a ∉ R := by
        intro u R hu
        simp only [collector, Option.ite_none_right_eq_some, Option.some.injEq] at hu
        obtain ⟨hactive, rfl⟩ := hu
        exact (run_guarded (fun _ _ _ h => h) run).unreferenced t a hdoomed h₀ u hactive
      simp only [event, if_neg h₀]
      have hstep := Collector.Step.free (collector es s) a hlive hunref
      rwa [show (collector es s).limbo \ {a} = {x | Live x (.free t a :: es)} from hlimbo.symm]
        at hstep
  | mutate t stack block alive =>
    have hold : (collector es s).refs t = some {a | Refers (memory s t) a} := if_pos alive
    exact hrefs trivial rfl (refs_update s (by simp [alive, memory]) (fun _ _ => rfl)
        fun u hu => by simp only [memory, Function.update_of_ne hu])
      (.touch _ t _ {a | Refers (stack ++ block.getD []) a} hold fun a ha hr => allowed a ha hr)
  | activate t stack ht =>
    have hold : (collector es s).refs t = none := if_neg (by simp [ht])
    exact hrefs trivial rfl (refs_update s (by simp [memory])
        (fun u hu => Function.update_of_ne hu _ _)
        fun u hu => by simp only [memory, Function.update_of_ne hu])
      (.start _ t {a | Refers stack a} hold fun a ha => allowed a ha)
  | exit t ht =>
    exact hrefs trivial rfl (refs_update s (by simp) (fun u hu => Function.update_of_ne hu _ _)
      fun _ _ => rfl) (.stop _ t)
  | create t ht | remove t ht | terminate t ht =>
    exact hrefs trivial rfl (refs_life rfl rfl (by simp [ht]) (by simp)) (.stutter _)
  | _ => exact hrefs trivial rfl rfl (.stutter _)

/-- Every run of the protocol is a run of a deferred reclaimer, whatever its threads do and
whichever addresses its compactions lose; so an address is freed as often as it is collected,
or once less while it is still to be freed. -/
theorem refines_collector (cfg : Config) (es : List (Event T)) (s : State T)
    (run : Run (system cfg) honours es s) :
    Run Collector.system anyEvent (es.map event) (collector es s) ∧
    ∀ a, (Live a es → (es.map event).count (.retire a) = (es.map event).count (.free a) + 1) ∧
      (¬ Live a es → (es.map event).count (.retire a) = (es.map event).count (.free a)) := by
  have hrun : Run Collector.system anyEvent (es.map event) (collector es s) := by
    refine run.refine collector event ?_
      fun _ _ _ _ run allowed move => collector_step run allowed move
    rintro s ⟨map, rfl⟩
    exact ⟨rfl, fun t => rfl⟩
  exact ⟨hrun, Collector.run_balanced hrun⟩

/-- The first round of a thread that refers to its second address frees the first one, and has
the second one still to be freed. -/
theorem refines_collector_freed : ∃ (es : List (Event Unit)) (s : State Unit),
    Run (system (Progress.leastConfig false)) honours es s ∧ s.stack () = [4112#64] ∧
      Event.free () 4096#64 ∈ es ∧
      (es.map event).count (.retire 4096#64) = (es.map event).count (.free 4096#64) ∧
      4112#64 ∈ (collector es s).limbo ∧
      (es.map event).count (.retire 4112#64) = (es.map event).count (.free 4112#64) + 1 := by
  obtain ⟨es, s, run₀, lone, hm, -, -, -, hentry, hcarried, -⟩ := Tracking.kept_start false
  have run := run₀.weaken fun _ _ _ h => h.1.1
  have hfree : Step (Progress.leastConfig false) s (.free () 4096#64) _ :=
    .free s () 1023 0 0 4096#64 hm lone.handler (by norm_num) (by
      simp only [handleEntry, hentry, show lowBit 4096#64 = false by decide, Bool.false_eq_true,
        if_false])
  have hlive : Live 4112#64 es := (run_kept Precision.collects_honours run).live _
    (held_addresses.mpr ⟨by decide, .list (), hcarried.mem_list⟩)
  have hlive' : Live 4112#64 (.free () 4096#64 :: es) := ⟨by decide, hlive⟩
  have hfreed : ¬ Live 4096#64 (.free () 4096#64 :: es) := fun h => h.1 rfl
  have run' := run.step (show honours es s (.free () 4096#64) from trivial) hfree
  have hbalanced := (refines_collector _ _ _ run').2
  exact ⟨_, _, run', lone.stack, List.mem_cons_self, (hbalanced _).2 hfreed, hlive',
    (hbalanced _).1 hlive'⟩

end ThreadScan.Refinement
