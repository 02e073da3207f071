import Mathlib

/-! Labelled transition systems whose environment keeps a promise. The promise may
read the history of events, newest first, and the state a step starts from, so an
obligation such as "not before it was freed" needs no bookkeeping in the state. -/
namespace ThreadScan.Transition

structure System (σ ε : Type*) where
  init : σ → Prop
  step : σ → ε → σ → Prop

variable {σ ε : Type*} {M : System σ ε} {ok : List ε → σ → ε → Prop}

inductive Run (M : System σ ε) (ok : List ε → σ → ε → Prop) : List ε → σ → Prop
  | init {s : σ} (start : M.init s) : Run M ok [] s
  | step {es : List ε} {s t : σ} {e : ε} (run : Run M ok es s) (allowed : ok es s e)
      (move : M.step s e t) : Run M ok (e :: es) t

/-- The environment that promises nothing. -/
def anyEvent (_ : List ε) (_ : σ) (_ : ε) : Prop := True

/-- Invariant rule: what holds initially and survives every allowed step of a run
holds along every run. -/
theorem Run.invariant {I : List ε → σ → Prop}
    (start : ∀ s, M.init s → I [] s)
    (move : ∀ es s e t, Run M ok es s → I es s → ok es s e → M.step s e t → I (e :: es) t)
    {es : List ε} {s : σ} (run : Run M ok es s) : I es s := by
  induction run with
  | init h => exact start _ h
  | step run allowed h ih => exact move _ _ _ _ run ih allowed h

/-- A run under a stronger promise is a run under a weaker one. -/
theorem Run.weaken {ok' : List ε → σ → ε → Prop}
    (h : ∀ es s e, ok es s e → ok' es s e) {es : List ε} {s : σ}
    (run : Run M ok es s) : Run M ok' es s := by
  induction run with
  | init start => exact .init start
  | step _ allowed move ih => exact .step ih (h _ _ _ allowed) move

theorem Run.of_eq {es : List ε} {s t : σ} (run : Run M ok es s) (h : s = t) : Run M ok es t :=
  h ▸ run

/-- Simulation rule: a system whose steps are matched by steps of another one under an
abstraction has only runs that the other one has. -/
theorem Run.simulate {σ' ε' : Type*} {N : System σ' ε'} (f : σ → σ') (g : ε → ε')
    (start : ∀ s, M.init s → N.init (f s))
    (move : ∀ es s e t, Run M ok es s → M.step s e t → N.step (f s) (g e) (f t))
    {es : List ε} {s : σ} (run : Run M ok es s) : Run N anyEvent (es.map g) (f s) := by
  induction run with
  | init h => exact .init (start _ h)
  | step run _ h ih => exact .step ih trivial (move _ _ _ _ run h)

/-- Simulation rule where the abstraction reads the history, and steps are matched for their
promise. -/
theorem Run.refine {σ' ε' : Type*} {N : System σ' ε'} (f : List ε → σ → σ') (g : ε → ε')
    (start : ∀ s, M.init s → N.init (f [] s))
    (move : ∀ es s e t, Run M ok es s → ok es s e → M.step s e t →
      N.step (f es s) (g e) (f (e :: es) t))
    {es : List ε} {s : σ} (run : Run M ok es s) : Run N anyEvent (es.map g) (f es s) := by
  induction run with
  | init h => exact .init (start _ h)
  | step run allowed h ih => exact .step ih trivial (move _ _ _ _ run allowed h)

/-- A part of a composed system takes a step of its own, or rests. -/
def System.Takes (M : System σ ε) (s : σ) : Option ε → σ → Prop
  | some e, t => M.step s e t
  | none, t => t = s

/-- Composition rule: a part of a composed system has runs of its own. -/
theorem Run.part {ε' : Type*} {g : ε' → Option ε} {es : List ε'} {e : ε'} {s t : σ}
    (run : Run M anyEvent (es.filterMap g) s) (takes : M.Takes s (g e) t) :
    Run M anyEvent ((e :: es).filterMap g) t := by
  rw [List.filterMap_cons]
  cases hg : g e with
  | none =>
    rw [hg] at takes
    exact run.of_eq (Eq.symm takes)
  | some a =>
    rw [hg] at takes
    exact .step run trivial takes

/-- One allowed step, with the history it extends. -/
def Move (M : System σ ε) (ok : List ε → σ → ε → Prop) (c d : List ε × σ) : Prop :=
  ∃ e, d.1 = e :: c.1 ∧ ok c.1 c.2 e ∧ M.step c.2 e d.2

/-- Finitely many allowed steps. -/
def Moves (M : System σ ε) (ok : List ε → σ → ε → Prop) : List ε × σ → List ε × σ → Prop :=
  Relation.ReflTransGen (Move M ok)

theorem Moves.refl (c : List ε × σ) : Moves M ok c c := Relation.ReflTransGen.refl

theorem Moves.trans {a b c : List ε × σ} (h : Moves M ok a b) (g : Moves M ok b c) :
    Moves M ok a c := Relation.ReflTransGen.trans h g

theorem Moves.one {es : List ε} {s t : σ} {e : ε} (allowed : ok es s e)
    (move : M.step s e t) : Moves M ok (es, s) (e :: es, t) :=
  Relation.ReflTransGen.single ⟨e, rfl, allowed, move⟩

theorem Moves.head {es : List ε} {s t : σ} {e : ε} {c : List ε × σ} (allowed : ok es s e)
    (move : M.step s e t) (rest : Moves M ok (e :: es, t) c) : Moves M ok (es, s) c :=
  (Moves.one allowed move).trans rest

theorem Moves.tail {es : List ε} {s t : σ} {e : ε} {c : List ε × σ} (course : Moves M ok c (es, s))
    (allowed : ok es s e) (move : M.step s e t) : Moves M ok c (e :: es, t) :=
  course.trans (Moves.one allowed move)

theorem Moves.weaken {ok' : List ε → σ → ε → Prop} (h : ∀ es s e, ok es s e → ok' es s e)
    {c d : List ε × σ} (course : Moves M ok c d) : Moves M ok' c d := by
  refine Relation.ReflTransGen.mono ?_ _ _ course
  rintro a b ⟨e, he, allowed, move⟩
  exact ⟨e, he, h _ _ _ allowed, move⟩

/-- What a step keeps, unless it is an event of a kind, holds until the first such event. -/
theorem Moves.until {P : σ → Prop} {F : ε → Prop} {c d : List ε × σ} (start : P c.2)
    (step : ∀ {es s e t}, Moves M ok c (es, s) → P s → ok es s e → M.step s e t → P t ∨ F e)
    (course : Moves M ok c d) : ∃ fs, d.1 = fs ++ c.1 ∧ ((∃ e ∈ fs, F e) ∨ P d.2) := by
  induction course with
  | refl => exact ⟨[], rfl, .inr start⟩
  | @tail b d moves last ih =>
    obtain ⟨e, he, allowed, move⟩ := last
    obtain ⟨fs, hfs, ⟨f, hf, hkind⟩ | hb⟩ := ih
    · exact ⟨e :: fs, by rw [he, hfs, List.cons_append], .inl ⟨f, List.mem_cons_of_mem e hf, hkind⟩⟩
    · refine ⟨e :: fs, by rw [he, hfs, List.cons_append], ?_⟩
      obtain hd | hkind := step moves hb allowed move
      · exact .inr hd
      · exact .inl ⟨e, List.mem_cons_self, hkind⟩

theorem Moves.history {c d : List ε × σ} (course : Moves M ok c d) : ∃ fs, d.1 = fs ++ c.1 := by
  obtain ⟨fs, hfs, -⟩ := Moves.until (P := fun _ => True) (F := fun _ => False) trivial
    (fun _ _ _ _ => .inl trivial) course
  exact ⟨fs, hfs⟩

/-- A run continues along any sequence of allowed steps. -/
theorem Run.extend {c d : List ε × σ} (run : Run M ok c.1 c.2) (h : Moves M ok c d) :
    Run M ok d.1 d.2 := by
  induction h with
  | refl => exact run
  | @tail b d _ last ih =>
    obtain ⟨e, hd, allowed, move⟩ := last
    rw [hd]
    exact .step ih allowed move

end ThreadScan.Transition
