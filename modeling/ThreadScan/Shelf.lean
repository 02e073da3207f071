import ThreadScan.Transition

/-! A shelf of lists. A party puts lists on it one by one, or takes all of them at once and
reads them one after the other into a single list, the one that was put there last first. -/
namespace ThreadScan.Shelf
open Transition

/-- What a party has in its hands: the list that it is about to put on the shelf, or the lists
that it has taken and not read yet, and what it has read of the others. -/
inductive Hand (α : Type*)
  | empty
  | putting (l : List α)
  | reading (ls : List (List α)) (r : List α)

structure State (T α : Type*) where
  shelf : List (List α)
  hand : T → Hand α

inductive Event (T α : Type*)
  | pick (t : T) (l : List α)
  | put (t : T)
  | take (t : T)
  | other

variable {T α : Type*} [DecidableEq T]

inductive Step : State T α → Event T α → State T α → Prop
  | pick (s : State T α) (t : T) (l : List α) (h : s.hand t = .empty) :
      Step s (.pick t l) { s with hand := Function.update s.hand t (.putting l) }
  | put (s : State T α) (t : T) (l : List α) (h : s.hand t = .putting l) :
      Step s (.put t) { s with
        shelf := l :: s.shelf
        hand := Function.update s.hand t .empty }
  /-- A list with nothing in it is not worth it. -/
  | drop (s : State T α) (t : T) (h : s.hand t = .putting []) :
      Step s .other { s with hand := Function.update s.hand t .empty }
  | take (s : State T α) (t : T) (h : s.hand t = .empty) :
      Step s (.take t) { s with
        shelf := []
        hand := Function.update s.hand t (.reading s.shelf []) }
  | read (s : State T α) (t : T) (l : List α) (ls : List (List α)) (r : List α)
      (h : s.hand t = .reading (l :: ls) r) :
      Step s .other { s with hand := Function.update s.hand t (.reading ls (r ++ l)) }
  | done (s : State T α) (t : T) (r : List α) (h : s.hand t = .reading [] r) :
      Step s .other { s with hand := Function.update s.hand t .empty }
  | stutter (s : State T α) : Step s .other s

def system : System (State T α) (Event T α) where
  init s := s = ⟨[], fun _ => .empty⟩
  step := Step

/-- The list that the party picked last. -/
def held (t : T) : List (Event T α) → List α
  | [] => []
  | .pick u l :: es => if u = t then l else held t es
  | _ :: es => held t es

/-- The lists that have been put on the shelf since it was last cleared, newest first. -/
def shelved : List (Event T α) → List (List α)
  | [] => []
  | .put t :: es => held t es :: shelved es
  | .take _ :: _ => []
  | _ :: es => shelved es

/-- The lists that the party took last. -/
def caught (t : T) : List (Event T α) → List (List α)
  | [] => []
  | .take u :: es => if u = t then shelved es else caught t es
  | _ :: es => caught t es

/-- What the events say that a party has in its hands. -/
def Agrees (es : List (Event T α)) (t : T) : Hand α → Prop
  | .empty => True
  | .putting l => l = held t es
  | .reading ls r => r ++ ls.flatten = (caught t es).flatten

/-- The invariant. -/
structure Ordered (es : List (Event T α)) (s : State T α) : Prop where
  shelf : s.shelf = shelved es
  hand : ∀ t, Agrees es t (s.hand t)

variable {es : List (Event T α)} {s s' : State T α} {t : T} {h : Hand α} {e : Event T α}

/-- One party's step leaves the others' hands alone. -/
theorem agrees_update (inv : ∀ u, Agrees es u (s.hand u)) (own : Agrees (e :: es) t h)
    (others : ∀ u, u ≠ t → held u (e :: es) = held u es ∧ caught u (e :: es) = caught u es) (u : T) :
    Agrees (e :: es) u (Function.update s.hand t h u) := by
  by_cases hu : u = t
  · subst hu
    rwa [Function.update_self]
  · rw [Function.update_of_ne hu]
    have hagrees := inv u
    obtain ⟨hheld, hcaught⟩ := others u hu
    generalize s.hand u = m at hagrees
    cases m with
    | empty => trivial
    | putting l => exact hagrees.trans hheld.symm
    | reading ls r =>
      unfold Agrees
      rw [hcaught]
      exact hagrees

theorem Ordered.step (inv : Ordered es s) (move : Step s e s') : Ordered (e :: es) s' := by
  cases move with
  | pick t l ht =>
    refine ⟨inv.shelf, agrees_update inv.hand ?_ ?_⟩
    · exact (if_pos rfl).symm
    · exact fun u hu => ⟨if_neg hu.symm, rfl⟩
  | put t l ht =>
    have hagrees := inv.hand t
    rw [ht] at hagrees
    refine ⟨?_, agrees_update inv.hand trivial fun u _ => ⟨rfl, rfl⟩⟩
    simp only [shelved, inv.shelf, show l = held t es from hagrees]
  | drop t ht => exact ⟨inv.shelf, agrees_update inv.hand trivial fun u _ => ⟨rfl, rfl⟩⟩
  | take t ht =>
    refine ⟨rfl, agrees_update inv.hand ?_ ?_⟩
    · simp only [Agrees, caught, if_true, List.nil_append, inv.shelf]
    · exact fun u hu => ⟨rfl, if_neg hu.symm⟩
  | read t l ls r ht =>
    have hagrees := inv.hand t
    rw [ht] at hagrees
    refine ⟨inv.shelf, agrees_update inv.hand ?_ fun u _ => ⟨rfl, rfl⟩⟩
    exact (List.append_assoc r l ls.flatten).trans hagrees
  | done t r ht => exact ⟨inv.shelf, agrees_update inv.hand trivial fun u _ => ⟨rfl, rfl⟩⟩
  | stutter =>
    refine ⟨inv.shelf, fun u => ?_⟩
    have hagrees := inv.hand u
    generalize s.hand u = m at hagrees
    cases m <;> exact hagrees

/-- A party that reads what it took gets the lists in the order of the shelf. -/
theorem run_ordered {ok : List (Event T α) → State T α → Event T α → Prop}
    (run : Run system ok es s) : Ordered es s := by
  refine run.invariant (I := fun es s => Ordered es s) ?_ fun _ _ _ _ _ inv _ move => inv.step move
  rintro s rfl
  exact ⟨rfl, fun _ => trivial⟩

end ThreadScan.Shelf
