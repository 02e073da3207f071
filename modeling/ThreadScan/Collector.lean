import ThreadScan.Transition

/-! What a deferred memory reclaimer is for. Threads hold references; an object that is
retired stays in limbo until it is freed, a thread that does not refer to an object in limbo
does not get hold of it, and only objects in limbo that no thread refers to are freed. -/
namespace ThreadScan.Collector
open Transition

/-- The objects that are retired and not yet freed, and what each running thread refers to. -/
structure State (T A : Type*) where
  limbo : Set A
  refs : T → Option (Set A)

inductive Event (A : Type*)
  | retire (a : A)
  | free (a : A)
  | other
  deriving DecidableEq

variable {T A : Type*} [DecidableEq T]

inductive Step : State T A → Event A → State T A → Prop
  | stutter (s : State T A) : Step s .other s
  | retire (s : State T A) (a : A) (fresh : a ∉ s.limbo) :
      Step s (.retire a) { s with limbo := insert a s.limbo }
  | free (s : State T A) (a : A) (retired : a ∈ s.limbo)
      (unreferred : ∀ t R, s.refs t = some R → a ∉ R) :
      Step s (.free a) { s with limbo := s.limbo \ {a} }
  | touch (s : State T A) (t : T) (R R' : Set A) (h : s.refs t = some R)
      (kept : ∀ a ∈ s.limbo, a ∈ R' → a ∈ R) :
      Step s .other { s with refs := Function.update s.refs t (some R') }
  | start (s : State T A) (t : T) (R : Set A) (h : s.refs t = none) (fresh : ∀ a ∈ s.limbo, a ∉ R) :
      Step s .other { s with refs := Function.update s.refs t (some R) }
  | stop (s : State T A) (t : T) : Step s .other { s with refs := Function.update s.refs t none }

/-- Nothing is retired, and no thread runs. -/
def system : System (State T A) (Event A) where
  init s := s.limbo = ∅ ∧ ∀ t, s.refs t = none
  step := Step

variable {ok : List (Event A) → State T A → Event A → Prop} {es : List (Event A)}
  {s s' : State T A}

/-- The object is retired as often as it is freed, and once more while it is in limbo. -/
def Balanced [DecidableEq A] (es : List (Event A)) (s : State T A) : Prop :=
  ∀ a, (a ∈ s.limbo → es.count (.retire a) = es.count (.free a) + 1) ∧
    (a ∉ s.limbo → es.count (.retire a) = es.count (.free a))

theorem Balanced.step [DecidableEq A] (h : Balanced es s) {e : Event A} (move : Step s e s') :
    Balanced (e :: es) s' := by
  intro x
  obtain ⟨hin, hout⟩ := h x
  cases move with
  | retire a fresh =>
    by_cases hx : x = a
    · subst hx
      simp [hout fresh]
    · have hne : a ≠ x := Ne.symm hx
      simp only [Set.mem_insert_iff, hx, false_or]
      simpa [hne] using ⟨hin, hout⟩
  | free a retired =>
    by_cases hx : x = a
    · subst hx
      simp [hin retired]
    · have hne : a ≠ x := Ne.symm hx
      simp only [Set.mem_sdiff, Set.mem_singleton_iff, hx, not_false_eq_true, and_true]
      simpa [hne] using ⟨hin, hout⟩
  | stutter | touch | start | stop => simpa using ⟨hin, hout⟩

theorem run_balanced [DecidableEq A] (run : Run system ok es s) : Balanced es s := by
  refine run.invariant (I := fun es s => Balanced es s) ?_ fun _ _ _ _ _ inv _ move => inv.step move
  rintro s ⟨hnone, -⟩ a
  simp [hnone]

end ThreadScan.Collector
