import ThreadScan.Transition

/-! A roll call: the holder of a lock calls every member once and waits for a shared counter
of answers to reach the number of its calls. The counter does not say who answered, and is
reset before the calls go out; members may join, leave and be late to lower their hands. -/
namespace ThreadScan.RollCall
open Transition

inductive Phase (T : Type*)
  | away
  | held
  | opened
  | calling (rest : List T) (count : ℕ)
  | waiting (count : ℕ)

inductive Helper
  | idle
  | working
  | answered
  deriving DecidableEq

structure State (T : Type*) where
  phase : T → Phase T
  helper : T → Helper
  calls : T → ℕ
  members : List T
  lock : Option T
  counter : ℕ

inductive Event (T : Type*)
  | reset
  | call (u : T)
  | answer (u : T)
  | leave (t : T)
  | other

variable {T : Type*}

inductive Step [DecidableEq T] : State T → Event T → State T → Prop
  | stutter (s : State T) : Step s .other s
  | acquire (s : State T) (t : T) (h : s.phase t = .away) (free : s.lock = none) :
      Step s .other { s with lock := some t, phase := Function.update s.phase t .held }
  | reset (s : State T) (t : T) (h : s.phase t = .held) :
      Step s .reset { s with counter := 0, phase := Function.update s.phase t .opened }
  | start (s : State T) (t : T) (h : s.phase t = .opened) :
      Step s .other { s with phase := Function.update s.phase t (.calling s.members 0) }
  | call (s : State T) (t u : T) (rest : List T) (c : ℕ)
      (h : s.phase t = .calling (u :: rest) c) :
      Step s (.call u) { s with
        calls := Function.update s.calls u (s.calls u + 1)
        phase := Function.update s.phase t (.calling rest (c + 1)) }
  | skip (s : State T) (t u : T) (rest : List T) (c : ℕ)
      (h : s.phase t = .calling (u :: rest) c) :
      Step s .other { s with phase := Function.update s.phase t (.calling rest c) }
  | finish (s : State T) (t : T) (c : ℕ) (h : s.phase t = .calling [] c) :
      Step s .other { s with phase := Function.update s.phase t (.waiting c) }
  | leave (s : State T) (t : T) (c : ℕ) (h : s.phase t = .waiting c) (all : c ≤ s.counter) :
      Step s (.leave t) { s with phase := Function.update s.phase t .held }
  | release (s : State T) (t : T) (h : s.phase t = .held) :
      Step s .other { s with lock := none, phase := Function.update s.phase t .away }
  | enter (s : State T) (u : T) (h : s.helper u = .idle) (called : 0 < s.calls u) :
      Step s .other { s with
        calls := Function.update s.calls u (s.calls u - 1)
        helper := Function.update s.helper u .working }
  | answer (s : State T) (u : T) (h : s.helper u = .working) :
      Step s (.answer u) { s with
        counter := s.counter + 1
        helper := Function.update s.helper u .answered }
  | lower (s : State T) (u : T) (h : s.helper u = .answered) :
      Step s .other { s with helper := Function.update s.helper u .idle }
  | join (s : State T) (t : T) (h : t ∉ s.members) :
      Step s .other { s with members := t :: s.members }
  | part (s : State T) (t : T) : Step s .other { s with members := s.members.erase t }

/-- Nobody holds the lock, is called or works. -/
def Quiet (s : State T) : Prop :=
  (∀ t, s.phase t = .away) ∧ (∀ u, s.helper u = .idle) ∧ (∀ u, s.calls u = 0) ∧
    s.members.Nodup ∧ s.lock = none

def system [DecidableEq T] : System (State T) (Event T) where
  init := Quiet
  step := Step

/-- A call in flight, or one taken but not answered. -/
def outstanding (s : State T) (u : T) : ℕ := s.calls u + if s.helper u = .working then 1 else 0

theorem outstanding_eq_zero (s : State T) (u : T) :
    outstanding s u = 0 ↔ s.calls u = 0 ∧ s.helper u ≠ .working := by
  unfold outstanding
  split_ifs with h <;> simp [h]

/-- From the reset to the end of the wait. -/
def Open : Phase T → Prop
  | .opened | .calling _ _ | .waiting _ => True
  | .away | .held => False

def callsMade : Phase T → ℕ
  | .calling _ c | .waiting c => c
  | _ => 0

/-- The members still to be called, where the walk over them has begun. -/
def uncalled : Phase T → List T
  | .calling rest _ => rest
  | _ => []

/-- Whether the counter has been reset at all. -/
def wasReset : List (Event T) → Bool
  | [] => false
  | .reset :: _ => true
  | _ :: es => wasReset es

/-- Who has been called since the last reset. -/
def called : List (Event T) → List T
  | [] => []
  | .reset :: _ => []
  | .call u :: es => u :: called es
  | _ :: es => called es

/-- Who has answered since the last reset. -/
def answered : List (Event T) → List T
  | [] => []
  | .reset :: _ => []
  | .answer u :: es => u :: answered es
  | _ :: es => answered es

structure Inv (es : List (Event T)) (s : State T) : Prop where
  holder : ∀ t, s.phase t ≠ .away ↔ s.lock = some t
  nodup : s.members.Nodup
  once : (called es).Nodup
  single : ∀ u, outstanding s u ≤ 1
  known : ∀ u, outstanding s u = 1 → u ∈ called es
  closed : (∀ t, ¬ Open (s.phase t)) → ∀ u, outstanding s u = 0
  begun : ∀ t, Open (s.phase t) → wasReset es = true
  made : ∀ t, Open (s.phase t) → callsMade (s.phase t) = (called es).length
  ahead : ∀ t, (uncalled (s.phase t)).Nodup ∧ ∀ u ∈ uncalled (s.phase t), u ∉ called es
  heard : ∀ u ∈ called es, outstanding s u = 0 → u ∈ answered es
  total : wasReset es = true → s.counter = (called es).countP fun u => outstanding s u = 0

theorem Inv.only {es : List (Event T)} {s : State T} (h : Inv es s) {t u : T}
    (ht : s.phase t ≠ .away) (hu : s.phase u ≠ .away) : t = u := by
  have h₁ := (h.holder t).mp ht
  have h₂ := (h.holder u).mp hu
  rw [h₁] at h₂
  exact Option.some.inj h₂

theorem Open.ne_away {p : Phase T} (h : Open p) : p ≠ .away := by
  rintro rfl
  exact h

/-- If the holder's call is not open, no call is, and nothing is outstanding. -/
theorem Inv.quiet {es : List (Event T)} {s : State T} (h : Inv es s) {t : T}
    (ht : s.phase t ≠ .away) (hopen : ¬ Open (s.phase t)) (u : T) : outstanding s u = 0 := by
  refine h.closed (fun v hv => ?_) u
  have := h.only hv.ne_away ht
  subst this
  exact hopen hv

theorem Inv.others {es : List (Event T)} {s : State T} (h : Inv es s) {t : T}
    (ht : s.phase t ≠ .away ∨ s.lock = none) (u : T) (hu : u ≠ t) : s.phase u = .away := by
  by_contra hn
  obtain ht | hfree := ht
  · exact hu (h.only hn ht)
  · have := (h.holder u).mp hn
    rw [hfree] at this
    cases this

/-- Everything but the phase of the only thread that may hold the lock. -/
structure Outer (es : List (Event T)) (s : State T) : Prop where
  nodup : s.members.Nodup
  once : (called es).Nodup
  single : ∀ u, outstanding s u ≤ 1
  known : ∀ u, outstanding s u = 1 → u ∈ called es
  heard : ∀ u ∈ called es, outstanding s u = 0 → u ∈ answered es
  total : wasReset es = true → s.counter = (called es).countP fun u => outstanding s u = 0

theorem Inv.outer {es : List (Event T)} {s : State T} (h : Inv es s) : Outer es s :=
  ⟨h.nodup, h.once, h.single, h.known, h.heard, h.total⟩

/-- The invariant of a state in which `t` alone may be anywhere but away. -/
theorem Outer.inv {es : List (Event T)} {s : State T} {t : T} (o : Outer es s)
    (others : ∀ u, u ≠ t → s.phase u = .away) (holder : s.phase t ≠ .away ↔ s.lock = some t)
    (lock : ∀ u, s.lock = some u → u = t)
    (closed : ¬ Open (s.phase t) → ∀ u, outstanding s u = 0)
    (begun : Open (s.phase t) → wasReset es = true)
    (made : Open (s.phase t) → callsMade (s.phase t) = (called es).length)
    (ahead : (uncalled (s.phase t)).Nodup ∧ ∀ u ∈ uncalled (s.phase t), u ∉ called es) :
    Inv es s := by
  have hopen : ∀ u, Open (s.phase u) → u = t := by
    intro u hu
    by_contra hne
    exact hu.ne_away (others u hne)
  refine ⟨?_, o.nodup, o.once, o.single, o.known, fun h => closed (h t), ?_, ?_, ?_, o.heard,
    o.total⟩
  · intro u
    by_cases hu : u = t
    · subst hu
      exact holder
    · exact ⟨fun h => absurd (others u hu) h, fun h => absurd (lock u h) hu⟩
  · intro u hu
    obtain rfl := hopen u hu
    exact begun hu
  · intro u hu
    obtain rfl := hopen u hu
    exact made hu
  · intro u
    by_cases hu : u = t
    · subst hu
      exact ahead
    · rw [others u hu]
      exact ⟨List.nodup_nil, fun _ h => absurd h List.not_mem_nil⟩

theorem outstanding_phase (s : State T) (phase : T → Phase T) (lock : Option T)
    (counter : ℕ) (u : T) :
    outstanding { s with phase := phase, lock := lock, counter := counter } u =
      outstanding s u := rfl

theorem outstanding_call [DecidableEq T] (s : State T) (u v : T) (phase : T → Phase T) :
    outstanding { s with calls := Function.update s.calls u (s.calls u + 1), phase := phase } v =
      outstanding s v + if v = u then 1 else 0 := by
  unfold outstanding
  by_cases hv : v = u
  · subst hv
    simp only [Function.update_self, ↓reduceIte]
    omega
  · simp only [Function.update_of_ne hv, hv, ↓reduceIte]
    omega

/-- Only the call of `u` itself is outstanding, once it is called. -/
theorem Inv.fresh {es : List (Event T)} {s : State T} (h : Inv es s) {u : T}
    (hu : u ∉ called es) : outstanding s u = 0 := by
  have h₁ := h.single u
  have h₂ := h.known u
  by_contra hne
  exact hu (h₂ (by omega))

/-- The holder of the lock moves on and keeps it. -/
theorem Inv.move [DecidableEq T] {es es' : List (Event T)} {s s' : State T} {t : T} {p : Phase T} (h : Inv es s)
    (ht : s.phase t ≠ .away) (hphase : s'.phase = Function.update s.phase t p)
    (hlock : s'.lock = s.lock) (hp : p ≠ .away) (o : Outer es' s')
    (closed : ¬ Open p → ∀ u, outstanding s' u = 0) (begun : Open p → wasReset es' = true)
    (made : Open p → callsMade p = (called es').length)
    (ahead : (uncalled p).Nodup ∧ ∀ u ∈ uncalled p, u ∉ called es') : Inv es' s' := by
  have hself : s'.phase t = p := by rw [hphase, Function.update_self]
  have hholds := (h.holder t).mp ht
  refine o.inv (t := t) ?_ ?_ ?_ ?_ ?_ ?_ ?_
  · intro u hu
    rw [hphase, Function.update_of_ne hu]
    exact h.others (.inl ht) u hu
  · rw [hself, hlock]
    exact iff_of_true hp hholds
  · intro u hu
    rw [hlock, hholds] at hu
    exact (Option.some.inj hu).symm
  all_goals rwa [hself]

/-- The answer of a called member makes it count. -/
theorem countP_answer [DecidableEq T] {l : List T} {u : T} (hl : l.Nodup) (hu : u ∈ l) {p q : T → Bool}
    (hp : p u = false) (hq : q u = true) (same : ∀ v, v ≠ u → q v = p v) :
    l.countP q = l.countP p + 1 := by
  have hperm := List.perm_cons_erase hu
  rw [hperm.countP_eq q, hperm.countP_eq p, List.countP_cons_of_pos hq,
    List.countP_cons_of_neg (by simp [hp])]
  congr 1
  apply List.countP_congr
  intro v hv
  rw [same v]
  rintro rfl
  exact hl.not_mem_erase hv

theorem outstanding_answer [DecidableEq T] {s : State T} {u : T} (hu : s.helper u = .working) (counter : ℕ)
    (v : T) : outstanding s v =
      outstanding { s with
        counter := counter
        helper := Function.update s.helper u .answered } v + if v = u then 1 else 0 := by
  unfold outstanding
  by_cases hv : v = u
  · subst hv
    simp [hu]
  · simp [hv]

/-- A signal that its target takes stays outstanding. -/
theorem outstanding_enter [DecidableEq T] {s : State T} {u : T} (hu : s.helper u = .idle) (hc : 0 < s.calls u)
    (v : T) : outstanding { s with
        calls := Function.update s.calls u (s.calls u - 1)
        helper := Function.update s.helper u .working } v = outstanding s v := by
  unfold outstanding
  by_cases hv : v = u
  · subst hv
    simp [hu]
    omega
  · simp [Function.update_of_ne hv]

theorem outstanding_lower [DecidableEq T] {s : State T} {u : T} (hu : s.helper u = .answered) (v : T) :
    outstanding { s with helper := Function.update s.helper u .idle } v = outstanding s v := by
  unfold outstanding
  by_cases hv : v = u
  · subst hv
    simp [hu]
  · simp [Function.update_of_ne hv]

/-- Whatever leaves the phases, the lock, the counter and the outstanding calls alone. -/
theorem Inv.same {es : List (Event T)} {s s' : State T} (h : Inv es s)
    (hphase : s'.phase = s.phase) (hlock : s'.lock = s.lock) (hcounter : s'.counter = s.counter)
    (hout : ∀ u, outstanding s' u = outstanding s u) (nodup : s'.members.Nodup) :
    Inv (.other :: es) s' := by
  refine ⟨?_, nodup, h.once, ?_, ?_, ?_, ?_, ?_, ?_, ?_, ?_⟩
  · rw [hphase, hlock]
    exact h.holder
  · exact fun u => hout u ▸ h.single u
  · exact fun u hu => h.known u (hout u ▸ hu)
  · rw [hphase]
    exact fun hc u => (hout u).trans (h.closed hc u)
  · rw [hphase]
    exact h.begun
  · rw [hphase]
    exact h.made
  · rw [hphase]
    exact h.ahead
  · exact fun u hu h₀ => h.heard u hu (hout u ▸ h₀)
  · intro hreset
    simp only [hcounter, hout]
    exact h.total hreset

/-- When the counter has reached the number of calls, every call is answered. -/
theorem Inv.all_answered {es : List (Event T)} {s : State T} (h : Inv es s) {t : T} {c : ℕ}
    (ht : s.phase t = .waiting c) (all : c ≤ s.counter) (u : T) : outstanding s u = 0 := by
  have hopen : Open (s.phase t) := by simp [ht, Open]
  have hmade := h.made t hopen
  have htotal := h.total (h.begun t hopen)
  simp only [ht, callsMade] at hmade
  have hle := List.countP_le_length (p := fun u => decide (outstanding s u = 0)) (l := called es)
  have hall := List.countP_eq_length.mp (le_antisymm hle (by omega))
  by_cases hu : u ∈ called es
  · simpa using hall u hu
  · exact h.fresh hu

theorem Outer.move {es : List (Event T)} {s : State T} (o : Outer es s) (phase : T → Phase T)
    (lock : Option T) : Outer (.other :: es) { s with phase := phase, lock := lock } :=
  ⟨o.nodup, o.once, o.single, o.known, o.heard, o.total⟩

theorem Inv.step [DecidableEq T] {es : List (Event T)} {s s' : State T} {e : Event T} (h : Inv es s)
    (move : Step s e s') : Inv (e :: es) s' := by
  have o := h.outer
  cases move with
  | stutter => exact h.same rfl rfl rfl (fun _ => rfl) h.nodup
  | acquire t ht free =>
    have hothers := h.others (t := t) (.inr free)
    have hquiet : ∀ u, outstanding s u = 0 := by
      refine h.closed fun u hu => ?_
      by_cases he : u = t
      · subst he
        exact hu.ne_away ht
      · exact hu.ne_away (hothers u he)
    refine (o.move _ _).inv (t := t) ?_ ?_ ?_ ?_ ?_ ?_ ?_
    · exact fun u hu => by simpa [Function.update_of_ne hu] using hothers u hu
    · simp
    · exact fun u hu => (Option.some.inj hu).symm
    · exact fun _ => hquiet
    all_goals simp [Open, uncalled]
  | reset t ht =>
    have hne : s.phase t ≠ .away := by simp [ht]
    have hquiet := h.quiet hne (by simp [ht, Open])
    refine h.move hne rfl rfl (by simp) ⟨o.nodup, List.nodup_nil, o.single, ?_, ?_, fun _ => rfl⟩
      (fun _ => hquiet) (fun _ => rfl) (fun _ => rfl) (by simp [uncalled])
    · intro u hu
      have := hquiet u
      rw [outstanding_phase] at hu
      omega
    · exact fun u hu => absurd hu List.not_mem_nil
  | start t ht =>
    have hopen : Open (s.phase t) := by simp [ht, Open]
    have hmade := h.made t hopen
    have hnone : called es = [] := by
      simpa [ht, callsMade] using hmade.symm
    refine h.move hopen.ne_away rfl rfl (by simp) (o.move _ _) (by simp [Open])
      (fun _ => h.begun t hopen) (fun _ => ?_) ⟨h.nodup, ?_⟩
    · simp [callsMade, called, hnone]
    · intro u _ hu
      simp only [called, hnone] at hu
      exact absurd hu List.not_mem_nil
  | call t u rest c ht =>
    have hopen : Open (s.phase t) := by simp [ht, Open]
    have hmade := h.made t hopen
    obtain ⟨hnodup, hnew⟩ := h.ahead t
    simp only [ht, uncalled, callsMade] at hnodup hnew hmade
    have hu : u ∉ called es := hnew u List.mem_cons_self
    have hzero := h.fresh hu
    obtain ⟨hurest, hrest⟩ := List.nodup_cons.mp hnodup
    refine h.move hopen.ne_away rfl rfl (by simp) ⟨o.nodup, ?_, ?_, ?_, ?_, ?_⟩ (by simp [Open])
      (fun _ => h.begun t hopen) (fun _ => ?_) ⟨hrest, ?_⟩
    · exact List.nodup_cons.mpr ⟨hu, o.once⟩
    · intro v
      rw [outstanding_call]
      have := o.single v
      split_ifs with hv
      · subst hv
        omega
      · omega
    · intro v hv
      rw [outstanding_call] at hv
      split_ifs at hv with he
      · exact he ▸ List.mem_cons_self
      · exact List.mem_cons_of_mem _ (o.known v hv)
    · intro v hv h₀
      rw [outstanding_call] at h₀
      split_ifs at h₀ with he
      obtain rfl | hv := List.mem_cons.mp hv
      · exact absurd rfl he
      · exact o.heard v hv h₀
    · intro hreset
      simp only [outstanding_call, called]
      rw [List.countP_cons_of_neg (by simp), o.total hreset]
      apply List.countP_congr
      intro v hv
      have hne : v ≠ u := fun he => hu (he ▸ hv)
      simp [hne]
    · simp only [callsMade, called, List.length_cons]
      omega
    · intro v hv hmem
      obtain rfl | hmem := List.mem_cons.mp hmem
      · exact hurest hv
      · exact hnew v (List.mem_cons_of_mem _ hv) hmem
  | skip t u rest c ht =>
    have hopen : Open (s.phase t) := by simp [ht, Open]
    have hmade := h.made t hopen
    obtain ⟨hnodup, hnew⟩ := h.ahead t
    simp only [ht, uncalled, callsMade] at hnodup hnew hmade
    exact h.move hopen.ne_away rfl rfl (by simp) (o.move _ _) (by simp [Open])
      (fun _ => h.begun t hopen) (fun _ => hmade)
      ⟨(List.nodup_cons.mp hnodup).2, fun v hv => hnew v (List.mem_cons_of_mem _ hv)⟩
  | finish t c ht =>
    have hopen : Open (s.phase t) := by simp [ht, Open]
    have hmade := h.made t hopen
    simp only [ht, callsMade] at hmade
    exact h.move hopen.ne_away rfl rfl (by simp) (o.move _ _) (by simp [Open])
      (fun _ => h.begun t hopen) (fun _ => hmade) (by simp [uncalled])
  | leave t c ht all =>
    have hne : s.phase t ≠ .away := by simp [ht]
    have hquiet := h.all_answered ht all
    exact h.move hne rfl rfl (by simp) ⟨o.nodup, o.once, o.single, o.known, o.heard, o.total⟩
      (fun _ => hquiet) (by simp [Open]) (by simp [Open]) (by simp [uncalled])
  | release t ht =>
    have hne : s.phase t ≠ .away := by simp [ht]
    have hquiet := h.quiet hne (by simp [ht, Open])
    have hothers := h.others (.inl hne)
    refine (o.move _ _).inv (t := t) ?_ ?_ ?_ ?_ ?_ ?_ ?_
    · exact fun u hu => by simpa [Function.update_of_ne hu] using hothers u hu
    · simp
    · exact fun u hu => absurd hu (by simp)
    · exact fun _ => hquiet
    all_goals simp [Open, uncalled]
  | enter u hu hc => exact h.same rfl rfl rfl (outstanding_enter hu hc) h.nodup
  | answer u hu =>
    have hout := outstanding_answer hu (s.counter + 1)
    have hself := hout u
    rw [if_pos rfl] at hself
    have hone := h.single u
    have hknown := h.known u (by omega)
    have hsame : ∀ v, v ≠ u → outstanding { s with
        counter := s.counter + 1
        helper := Function.update s.helper u .answered } v = outstanding s v := by
      intro v hv
      have := hout v
      rw [if_neg hv] at this
      omega
    have hle : ∀ v, outstanding { s with
        counter := s.counter + 1
        helper := Function.update s.helper u .answered } v ≤ outstanding s v := by
      intro v
      have := hout v
      omega
    refine ⟨h.holder, h.nodup, h.once, fun v => (hle v).trans (h.single v), ?_, ?_, h.begun, h.made,
      h.ahead, ?_, ?_⟩
    · intro v hv
      have := hle v
      have := h.single v
      exact h.known v (by omega)
    · intro hclosed v
      have := h.closed hclosed v
      have := hle v
      omega
    · intro v hv h₀
      by_cases he : v = u
      · exact he ▸ List.mem_cons_self
      · rw [hsame v he] at h₀
        exact List.mem_cons_of_mem _ (h.heard v hv h₀)
    · intro hreset
      have htotal := h.total hreset
      simp only [called]
      rw [countP_answer h.once hknown (p := fun v => decide (outstanding s v = 0)) ?_ ?_ ?_, htotal]
      · simp only [decide_eq_false_iff_not]
        omega
      · simp only [decide_eq_true_eq]
        omega
      · exact fun v hv => by rw [hsame v hv]
  | lower u hu => exact h.same rfl rfl rfl (outstanding_lower hu) h.nodup
  | join t ht => exact h.same rfl rfl rfl (fun _ => rfl) (List.nodup_cons.mpr ⟨ht, h.nodup⟩)
  | part t => exact h.same rfl rfl rfl (fun _ => rfl) (h.nodup.erase t)

theorem inv_quiet {s : State T} (h : Quiet s) : Inv [] s := by
  obtain ⟨hphase, hhelper, hcalls, hnodup, hlock⟩ := h
  have hout : ∀ u, outstanding s u = 0 := fun u => by simp [outstanding, hcalls, hhelper]
  refine ⟨fun t => by simp [hphase, hlock], hnodup, List.nodup_nil, fun u => by simp [hout],
    fun u hu => by simp [hout] at hu, fun _ => hout, ?_, ?_, ?_, ?_, ?_⟩
  all_goals simp [hphase, Open, uncalled, called, wasReset]

/-- The invariant holds along every run of a roll call. -/
theorem run_inv [DecidableEq T] {ok : List (Event T) → State T → Event T → Prop} {es : List (Event T)}
    {s : State T} (run : Run system ok es s) : Inv es s :=
  run.invariant (fun _ => inv_quiet) fun _ _ _ _ _ inv _ move => inv.step move

/-- The counter never runs ahead of the calls of its round. -/
theorem Inv.counter_le {es : List (Event T)} {s : State T} (h : Inv es s)
    (reset : wasReset es = true) : s.counter ≤ (called es).length := by
  rw [h.total reset]
  exact List.countP_le_length

end ThreadScan.RollCall
