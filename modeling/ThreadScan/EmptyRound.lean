import ThreadScan.Precision

/-! Rounds that find nothing. `threadscan_collect` asks whether its queue is full before it
tries to become the reclaimer; another round may drain the queue in between, and publishes
what it could not free only after it has released the lock. A round that starts out empty
makes `do_search` read `buf_addrs[-1]`. -/
namespace ThreadScan.EmptyRound
open Transition Search Marking Reclaim Handshake Rounds Progress Precision

variable {T : Type*} [DecidableEq T] {cfg : Config} {es : List (Event T)} {s s' : State T}

/-- Every round drains something: a reclaimer that has got nothing from the storage, nor from
the queues before, does not find the last queue of the list empty when it looks. -/
def stockedRounds (_ : List (Event T)) (s : State T) (_ : Event T) : Prop :=
  ∀ t td, s.main t ≠ .popTail td [] 0 0

/-- What a round counts is not nothing. -/
def nonemptyRounds (_ : List (Event T)) (_ : State T) : Event T → Prop
  | .count _ n => 1 ≤ n
  | _ => True

/-- What is drained or still to be drained is not nothing. -/
def Found (s : State T) : Main T → Prop
  | .popHead rest n => 1 ≤ n ∨ rest ≠ []
  | .popTail td _ _ k => k ≤ (s.queue td).length
  | .count n => 1 ≤ n
  | .sort | .scanMap | .reset | .lockSignal | .signal _ _ | .search _ _ _ | .wait _
  | .release _ => 1 ≤ s.nAddrs
  | _ => True

omit [DecidableEq T] in
theorem found_away {m : Main T} (h : phase m = .away) : Found s m := by
  cases m <;> trivial

omit [DecidableEq T] in
/-- Queues that fill take nothing away. -/
theorem Found.mono {m : Main T} (h : Found s m)
    (hq : ∀ u, (s.queue u).length ≤ (s'.queue u).length) (hn : s'.nAddrs = s.nAddrs) :
    Found s' m := by
  cases m with
  | popTail td rest n k => exact h.trans (hq td)
  | sort | scanMap | reset | lockSignal | signal | search | wait | release =>
    simp only [Found, hn] at h ⊢
    exact h
  | _ => exact h

omit [DecidableEq T] in
theorem Found.goto {t : T} {m m' : Main T} (h : Found s m) (hg : Goto cfg s t m m') :
    Found s m' := by
  cases hg with
  | popHead td rest n => exact min_le_right _ _
  | full | notFull | yield | drained | verifyFail | handled | storeNone => trivial
  | skip | nextStage | searched => exact h

theorem Found.step {ok : List (Event T) → State T → Event T → Prop}
    (found : ∀ t, Found s (s.main t)) (run : Run (system cfg) ok es s) {e : Event T}
    (allowed : stockedRounds es s e) (move : Step cfg s e s') (u : T) : Found s' (s'.main u) := by
  -- the steps under the lock find every other thread away
  have hheld : ∀ {t : T} {m : Main T}, phase (s.main t) ≠ .away →
      s'.main = Function.update s.main t m → Found s' m → Found s' (s'.main u) := by
    intro t m ht hm hf
    rw [hm]
    by_cases hu : u = t
    · subst hu
      rwa [Function.update_self]
    · rw [Function.update_of_ne hu]
      apply found_away
      by_contra haway
      exact hu (alone run haway ht)
  have hkeep : ∀ {t : T} {m : Main T}, s'.main = Function.update s.main t m →
      s'.queue = s.queue → s'.nAddrs = s.nAddrs → Found s m → Found s' (s'.main u) := by
    intro t m hm hq hn hf
    have hmono : ∀ m', Found s m' → Found s' m' := fun m' h => h.mono (fun v => by rw [hq]) hn
    rw [hm]
    by_cases hu : u = t
    · subst hu
      rw [Function.update_self]
      exact hmono m hf
    · rw [Function.update_of_ne hu]
      exact hmono _ (found u)
  have hsame : s'.main = s.main → s'.queue = s.queue → s'.nAddrs = s.nAddrs →
      Found s' (s'.main u) := by
    intro hm hq hn
    rw [hm]
    exact (found u).mono (fun v => by rw [hq]) hn
  have hat : ∀ {t : T} {m : Main T}, s.main t = m → Found s m := fun h => h ▸ found _
  cases move with
  | push t ptr ht =>
    by_cases hu : u = t
    · subst hu
      simp [Found]
    · simp only [Function.update_of_ne hu]
      refine (found u).mono (fun v => ?_) rfl
      by_cases hvt : v = t
      · subst hvt
        simp
      · simp [Function.update_of_ne hvt]
  | goto t m _ hg => exact hkeep rfl rfl rfl ((found t).goto hg)
  | lockQueues t n ht =>
    -- the reclaimer is on the list itself
    have hlisted : t ∈ s.threadList :=
      ((run_roster run).listed t).mpr (.inr (.inl ((run_attended run).collects t (by simp [ht]))))
    exact hkeep rfl rfl rfl (.inr (List.ne_nil_of_mem hlisted))
  | popTail t td rest n k ht =>
    refine hheld (by simp [ht, phase]) rfl ?_
    have hseen : k ≤ (s.queue td).length := hat ht
    have hlength : ((s.queue td).take k).length = k := by
      rw [List.length_take]
      omega
    by_cases hrest : rest = []
    · subst hrest
      left
      by_contra hnone
      obtain ⟨rfl, rfl⟩ : n = 0 ∧ k = 0 := by omega
      exact allowed t td ht
    · exact .inr hrest
  | unlockQueues t n ht => exact hkeep rfl rfl rfl ((hat ht).resolve_right (by simp))
  | count t n ht => exact hheld (by simp [ht, phase]) rfl (hat ht)
  | acquire t ht | assign t _ _ ht | exchange t ht | leftover t _ _ _ ht | release t _ ht
  | verify t _ ht | keep t _ _ _ ht | free t _ _ _ _ ht | randomize t _ ht | store t _ ht =>
    exact hkeep rfl rfl rfl trivial
  | sort t ht | scanMap t ht | reset t ht | lockSignal t ht | kill t _ _ _ ht
  | unlockSignal t _ ht | search t _ _ _ ht | leave t _ ht =>
    have hfound := hat ht
    exact hkeep rfl rfl rfl hfound
  | _ => exact hsame rfl rfl rfl

omit [DecidableEq T] in
theorem lets_nonemptyRounds : Lets (nonemptyRounds (T := T)) := by
  intro es s e h
  cases e <;> first | exact h.elim | trivial

end ThreadScan.EmptyRound
