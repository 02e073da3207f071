import ThreadScan.Transition

/-! A bounded queue with one producer and one consumer. The producer pushes once for every
time it has been told that there is room; the consumer looks how much there is to take, and
takes as much as it saw. -/
namespace ThreadScan.Fifo
open Transition

structure State (α : Type*) where
  items : List α
  mayPush : Bool
  seen : Option ℕ

inductive Event (α : Type*)
  | ask
  | push (a : α)
  | look (n : ℕ)
  | take (as : List α)
  | other

variable {α : Type*}

inductive Step (c : ℕ) : State α → Event α → State α → Prop
  | ask (s : State α) : Step c s .ask { s with mayPush := decide (s.items.length + 1 < c) }
  | push (s : State α) (a : α) (may : s.mayPush = true) :
      Step c s (.push a) { s with items := s.items ++ [a], mayPush := false }
  | look (s : State α) (n : ℕ) (idle : s.seen = none) :
      Step c s (.look n) { s with seen := some (min n s.items.length) }
  | take (s : State α) (k : ℕ) (h : s.seen = some k) :
      Step c s (.take (s.items.take k)) { s with items := s.items.drop k, seen := none }
  | stutter (s : State α) : Step c s .other s

/-- The first push needs no asking. -/
def system (c : ℕ) : System (State α) (Event α) where
  init s := s = ⟨[], true, none⟩
  step := Step c

/-- What has been pushed and what has been taken, oldest first. -/
def pushed : List (Event α) → List α
  | [] => []
  | .push a :: es => pushed es ++ [a]
  | _ :: es => pushed es

def taken : List (Event α) → List α
  | [] => []
  | .take as :: es => taken es ++ as
  | _ :: es => taken es

variable {c : ℕ} {ok : List (Event α) → State α → Event α → Prop} {es : List (Event α)}
  {s s' : State α}

/-- One place stays free, the consumer has seen no more than there is, and what is in the queue
is what has been pushed and not taken, in order. -/
structure Bounded (c : ℕ) (es : List (Event α)) (s : State α) : Prop where
  room : s.items.length < c
  may : s.mayPush = true → s.items.length + 1 < c
  seen : ∀ k, s.seen = some k → k ≤ s.items.length
  order : pushed es = taken es ++ s.items

theorem Bounded.step (h : Bounded c es s) {e : Event α} (move : Step c s e s') :
    Bounded c (e :: es) s' := by
  cases move with
  | ask =>
    refine ⟨h.room, fun hmay => ?_, h.seen, h.order⟩
    simpa using hmay
  | push a may =>
    have hroom := h.may may
    refine ⟨?_, fun hf => absurd hf (by simp), fun k hk => ?_, ?_⟩
    · rw [List.length_append, List.length_singleton]
      exact hroom
    · rw [List.length_append]
      exact (h.seen k hk).trans (Nat.le_add_right _ _)
    · simp only [pushed, taken, h.order, List.append_assoc]
  | look n idle =>
    refine ⟨h.room, h.may, fun k hk => ?_, h.order⟩
    obtain rfl := Option.some.inj hk
    exact Nat.min_le_right _ _
  | take k hk =>
    have hroom := h.room
    refine ⟨?_, fun hmay => ?_, fun _ hnone => absurd hnone (by simp), ?_⟩
    · rw [List.length_drop]
      omega
    · have := h.may hmay
      rw [List.length_drop]
      omega
    · simp only [pushed, taken, h.order, List.append_assoc, List.take_append_drop]
  | stutter => exact ⟨h.room, h.may, h.seen, h.order⟩

theorem run_bounded (hc : 2 ≤ c) (run : Run (system c) ok es s) : Bounded c es s := by
  refine run.invariant (I := fun es s => Bounded c es s) ?_ fun _ _ _ _ _ inv _ move => inv.step move
  rintro s rfl
  exact ⟨Nat.lt_of_lt_of_le Nat.two_pos hc, fun _ => hc, fun _ h => absurd h (by simp), rfl⟩

end ThreadScan.Fifo
