import ThreadScan.Lifecycle

/-! The records of joinable and detached threads. A record leads a life of its own, whatever
the other threads do; the staged list is searched for a thread id, which may have been given
to another thread by then. -/
namespace ThreadScan.Records
open Transition LinkedList Lifecycle
open Reclaim (Config)

/-- How far a thread has come, seen from its record. -/
inductive Standing
  | unborn
  | loading
  | loaded
  | starting
  | running
  | removed
  | staging
  | past
  | terminated
  deriving DecidableEq

/-- A record and what the system knows of its thread. -/
structure Record (K : Type*) where
  standing : Standing
  place : Place
  refCount : ℤ
  self : K
  tid : K
  detached : Bool
  isJoined : Bool
  stackIsOurs : Bool

variable {R K : Type*} [DecidableEq R]

def standing : Pc R K → Standing
  | .unborn => .unborn
  | .loading => .loading
  | .loaded => .loaded
  | .starting => .starting
  | .removed => .removed
  | .staging => .staging
  | .staged | .leaving => .past
  | .terminated => .terminated
  | _ => .running

def record (s : State R K) (r : R) : Record K :=
  ⟨standing (s.pc r), s.place r, s.refCount r, s.self r, s.tid r, s.detached r, s.isJoined r,
    s.stackIsOurs r⟩

/-- The record that an event is about. -/
def subject : Event R K → Option R
  | .new _ td | .mapStack _ td | .add _ td | .spawn _ td _ | .remove td | .stage td | .join _ td
  | .unstage _ td => some td
  | _ => none

/-- The life of a record. -/
inductive RecordStep (r : R) : Record K → Event R K → Record K → Prop
  | rest (v : Record K) (e : Event R K) (h : subject e ≠ some r) : RecordStep r v e v
  | load (v : Record K) (h : v.standing = .loading) (unused : v.place = .unused) :
      RecordStep r v (.new r r) { v with standing := .loaded, place := .creating, refCount := 1 }
  | new (v : Record K) (t : R) (h : v.standing = .unborn) (unused : v.place = .unused) :
      RecordStep r v (.new t r) { v with place := .creating, refCount := 1 }
  | mapStack (v : Record K) (t : R) (h : v.place = .creating) :
      RecordStep r v (.mapStack t r) { v with stackIsOurs := true }
  | loadAdd (v : Record K) (h : v.standing = .loaded) :
      RecordStep r v (.add r r) { v with standing := .starting, place := .listed }
  | add (v : Record K) (t : R) (h : v.standing = .unborn) (creating : v.place = .creating) :
      RecordStep r v (.add t r) { v with place := .listed }
  | spawn (v : Record K) (t : R) (tid : K) (detached : Bool) (h : v.standing = .unborn)
      (listed : v.place = .listed) :
      RecordStep r v (.spawn t r tid)
        { v with standing := .starting, tid := tid, detached := detached }
  | base (v : Record K) (e : Event R K) (h : v.standing = .starting) (quiet : subject e = none) :
      RecordStep r v e { v with standing := .running, self := v.tid }
  | remove (v : Record K) (h : v.standing = .running) :
      RecordStep r v (.remove r) { v with standing := .removed, place := .exiting }
  | decrRef (v : Record K) (e : Event R K) (h : v.standing = .removed) (quiet : subject e = none) :
      RecordStep r v e
        { v with standing := if v.refCount - 1 = 0 then .staging else .past
                 refCount := v.refCount - 1 }
  | stage (v : Record K) (h : v.standing = .staging) :
      RecordStep r v (.stage r) { v with standing := .past, place := .staged }
  | leave (v : Record K) (e : Event R K) (h : v.standing = .past) (quiet : subject e = none) :
      RecordStep r v e { v with standing := .terminated }
  | join (v : Record K) (t : R) (h : v.standing = .terminated) (joinable : v.detached = false) :
      RecordStep r v (.join t r) { v with isJoined := true }
  | unstage (v : Record K) (t : R) (h : v.place = .staged) :
      RecordStep r v (.unstage t r) { v with place := .released }

variable {cfg : Config} {ok : List (Event R K) → State R K → Event R K → Prop}
  {es : List (Event R K)} {s s' : State R K} {e : Event R K} {t r : R} {m : Pc R K}

theorem standing_move (same : standing m = standing (s.pc t)) (r : R) :
    standing (Function.update s.pc t m r) = standing (s.pc r) := by
  by_cases hr : r = t
  · subst hr
    rw [Function.update_self, same]
  · rw [Function.update_of_ne hr]

theorem record_stay (pc : s'.pc = Function.update s.pc t m)
    (same : standing m = standing (s.pc t))
    (rest : s'.place = s.place ∧ s'.refCount = s.refCount ∧ s'.self = s.self ∧ s'.tid = s.tid ∧
      s'.detached = s.detached ∧ s'.isJoined = s.isJoined ∧ s'.stackIsOurs = s.stackIsOurs)
    (quiet : subject e ≠ some r) : RecordStep r (record s r) e (record s' r) := by
  obtain ⟨hplace, href, hself, htid, hdetached, hjoined, hours⟩ := rest
  have hpc : standing (s'.pc r) = standing (s.pc r) := by
    rw [pc, standing_move same]
  have hsame : record s' r = record s r := by
    simp only [record, hpc, hplace, href, hself, htid, hdetached, hjoined, hours]
  rw [hsame]
  exact .rest _ _ quiet

omit [DecidableEq R] in
/-- A walk is made by a running thread. -/
theorem reads_running {u : R} (h : m.reads = some u) : standing m = .running := by
  cases m with
  | walking | removing | cleaning => rfl
  | _ => exact absurd h (by simp [Pc.reads])

/-- Every step of the library is a step in the life of every record, unless a creation fails. -/
theorem record_step (inv : Inv es s) (sound : ∀ t td, s.pc t ≠ .failedFree td)
    (move : Step cfg s e s') (r : R) : RecordStep r (record s r) e (record s' r) := by
  -- a record that the step is not about
  have hother : record s' r = record s r → subject e ≠ some r →
      RecordStep r (record s r) e (record s' r) := fun hsame hquiet => by
    rw [hsame]
    exact .rest _ _ hquiet
  cases move with
  | load t h =>
    by_cases hr : r = t
    · subst hr
      simpa [record, State.move, standing] using
        RecordStep.load (r := r) (record s r) (by simp [record, h, standing]) (inv.at_of h)
    · exact hother (by simp [record, State.move, hr]) (by simp [subject, Ne.symm hr])
  | loadAdd t h =>
    by_cases hr : r = t
    · subst hr
      simpa [record, State.move, standing] using
        RecordStep.loadAdd (r := r) (record s r) (by simp [record, h, standing])
    · exact hother (by simp [record, State.move, hr]) (by simp [subject, Ne.symm hr])
  | base t h =>
    by_cases hr : r = t
    · subst hr
      simpa [record, State.move, standing] using
        RecordStep.base (r := r) (record s r) .other (by simp [record, h, standing]) rfl
    · exact hother (by simp [record, State.move, hr]) (by simp [subject])
  | new t td userStack h unborn unused =>
    have hne : td ≠ t := by
      rintro rfl
      rw [h] at unborn
      exact absurd unborn (by simp)
    have hstanding : standing (Function.update s.pc t (.created td userStack) r) =
        standing (s.pc r) := standing_move (by rw [h]; rfl) r
    by_cases hr : r = td
    · subst hr
      simpa [record, State.move, hne] using
        RecordStep.new (r := r) (record s r) t (by simp [record, unborn, standing]) unused
    · exact hother (by simp [record, State.move, hr, hstanding]) (by simp [subject, Ne.symm hr])
  | ownStack t td h =>
    obtain ⟨-, hplace, hb⟩ := inv.at_of h
    have hne : td ≠ t := by
      rintro rfl
      rw [h] at hb
      exact absurd hb (by simp)
    have hstanding : standing (Function.update s.pc t (.stacked td) r) =
        standing (s.pc r) := standing_move (by rw [h]; rfl) r
    by_cases hr : r = td
    · subst hr
      simpa [record, State.move, hne] using
        RecordStep.mapStack (r := r) (record s r) t hplace
    · exact hother (by simp [record, State.move, hr, hstanding]) (by simp [subject, Ne.symm hr])
  | add t td h =>
    obtain ⟨-, hplace, hb⟩ := inv.at_of h
    have hne : td ≠ t := by
      rintro rfl
      rw [h] at hb
      exact absurd hb (by simp)
    have hstanding : standing (Function.update s.pc t (.added td) r) =
        standing (s.pc r) := standing_move (by rw [h]; rfl) r
    by_cases hr : r = td
    · subst hr
      simpa [record, State.move, hne] using
        RecordStep.add (r := r) (record s r) t (by simp [record, hb, standing]) hplace
    · exact hother (by simp [record, State.move, hr, hstanding]) (by simp [subject, Ne.symm hr])
  | spawn t td tid detached h =>
    obtain ⟨-, htd, hb⟩ := inv.at_of h
    have hne : td ≠ t := by
      rintro rfl
      rw [h] at hb
      exact absurd hb (by simp)
    have hstanding : standing (Function.update s.pc t .user r) = standing (s.pc r) :=
      standing_move (by rw [h]; rfl) r
    by_cases hr : r = td
    · subst hr
      simpa [record, hne, standing] using
        RecordStep.spawn (r := r) (record s r) t tid detached (by simp [record, hb, standing]) htd.2
    · exact hother (by simp [record, hr, hstanding]) (by simp [subject, Ne.symm hr])
  | failFree t td h => exact absurd h (sound t td)
  | removeHead t h | removeLink t _ h =>
    by_cases hr : r = t
    · subst hr
      simpa [record, State.move, standing] using
        RecordStep.remove (r := r) (record s r) (by simp [record, h, standing])
    · exact hother (by simp [record, State.move, hr]) (by simp [subject, Ne.symm hr])
  | decrRef t h =>
    by_cases hr : r = t
    · subst hr
      have hstep := RecordStep.decrRef (r := r) (record s r) .other (by simp [record, h, standing])
        rfl
      by_cases hlast : s.refCount r - 1 = 0
      · simpa [record, State.move, standing, hlast] using hstep
      · simpa [record, State.move, standing, hlast] using hstep
    · exact hother (by simp [record, State.move, hr]) (by simp [subject])
  | stage t h =>
    by_cases hr : r = t
    · subst hr
      simpa [record, State.move, standing] using
        RecordStep.stage (r := r) (record s r) (by simp [record, h, standing])
    · exact hother (by simp [record, State.move, hr]) (by simp [subject, Ne.symm hr])
  | leave t h =>
    by_cases hr : r = t
    · subst hr
      simpa [record, State.move, standing] using
        RecordStep.leave (r := r) (record s r) .other (by simp [record, h, standing]) rfl
    · exact hother (by simp [record, State.move, hr]) (by simp [subject])
  | join t td h gone joinable =>
    have hne : td ≠ t := by
      rintro rfl
      rw [h] at gone
      exact absurd gone (by simp)
    have hstanding : standing (Function.update s.pc t (.joined (s.tid td) (some td)) r) =
        standing (s.pc r) := standing_move (by rw [h]; rfl) r
    by_cases hr : r = td
    · subst hr
      simpa [record, State.move, hne] using
        RecordStep.join (r := r) (record s r) t (by simp [record, gone, standing]) joinable
    · exact hother (by simp [record, State.move, hr, hstanding]) (by simp [subject, Ne.symm hr])
  | cleanHead t tid target u h | cleanLink t tid target last u h =>
    obtain ⟨-, -, a, b, hsplit, hcur, -⟩ := inv.at_of h
    have hstaged : s.place u = .staged := by
      refine (inv.onStaged u).mp ?_
      rw [hsplit]
      exact List.mem_append_right _ (List.mem_of_mem_head? hcur.symm)
    have hstanding : standing (Function.update s.pc t (.cleaned target u) r) =
        standing (s.pc r) := standing_move (by rw [h]; rfl) r
    by_cases hr : r = u
    · subst hr
      simpa [record, State.move, hstanding] using
        RecordStep.unstage (r := r) (record s r) t hstaged
    · exact hother (by simp [record, State.move, hr, hstanding]) (by simp [subject, Ne.symm hr])
  | collect t h | walkPop t _ _ h => exact hother rfl (by simp [subject])
  | fault t u h =>
    exact record_stay (t := t) (m := .crashed) rfl (reads_running h).symm
      ⟨rfl, rfl, rfl, rfl, rfl, rfl, rfl⟩ (by simp [subject])
  | count t _ h | refuse t h | userStack t _ h | fail t _ h | failStack t _ h
  | failNoStack t _ h | failAssert t _ h | walk t h | walkNext t _ h | walkEnd t h | exit t h
  | removeWalk t _ h | removeNone t h | removeNext t _ _ h | removeLost t _ h | uncount t h
  | joinError t _ h | clean t _ _ h | cleanNext t _ _ _ _ h | cleanLost t _ _ _ h
  | cleanRace t _ _ h | cleanStack t _ _ h | cleanNoStack t _ _ h | cleanAssert t _ _ h
  | cleanFree t _ _ h =>
    exact record_stay (t := t) rfl (by simp [h, standing]) ⟨rfl, rfl, rfl, rfl, rfl, rfl, rfl⟩
      (by simp [subject])

/-! ### The record of a thread at each stage of the thread -/

/-- Where the record of a thread can be. -/
def Fits : Standing → Place → Prop
  | .unborn, p => p = .unused ∨ p = .creating ∨ p = .listed
  | .loading, p => p = .unused
  | .loaded, p => p = .creating
  | .starting, p | .running, p => p = .listed
  | .removed, p | .staging, p => p = .exiting
  | .past, p => p = .staged
  | .terminated, p => p = .staged ∨ p = .released

/-- `ref_count`. -/
def references : Standing → ℤ
  | .staging | .past | .terminated => 0
  | _ => 1

/-- `threadscan_thread_base` has stored the id of the thread. -/
def Named : Standing → Prop
  | .unborn | .loading | .loaded | .starting => False
  | _ => True

structure Sound (v : Record K) : Prop where
  place : Fits v.standing v.place
  refs : v.place ≠ .unused → v.refCount = references v.standing
  self : Named v.standing → v.self = v.tid
  joined : v.isJoined = true → v.standing = .terminated ∧ v.detached = false
  released : v.place = .released → v.isJoined = true

omit [DecidableEq R] in
theorem RecordStep.sound {v v' : Record K} (h : RecordStep r v e v') (sound : Sound v)
    (joined : ∀ t, e = .unstage t r → v.isJoined = true) : Sound v' := by
  have hplace := sound.place
  have hjoined : v.standing ≠ .terminated → v.isJoined ≠ true := fun hne hj =>
    hne (sound.joined hj).1
  cases h with
  | rest => exact sound
  | mapStack => exact ⟨sound.place, sound.refs, sound.self, sound.joined, sound.released⟩
  | load h | new t h =>
    exact ⟨by simp [h, Fits], by simp [h, references], by simp [h, Named],
      fun hj => absurd hj (hjoined (by simp [h])), by simp⟩
  | loadAdd h =>
    rw [h] at hplace
    have href := sound.refs (by simp [show v.place = .creating from hplace])
    exact ⟨by simp [Fits], fun _ => by simpa [h, references] using href, by simp [Named],
      fun hj => absurd hj (hjoined (by simp [h])), by simp⟩
  | add t h creating =>
    have href := sound.refs (by simp [creating])
    exact ⟨by simp [h, Fits], fun _ => by simpa [h, references] using href, by simp [h, Named],
      fun hj => absurd hj (hjoined (by simp [h])), by simp⟩
  | spawn t tid detached h listed =>
    have href := sound.refs (by simp [listed])
    exact ⟨listed, fun _ => by simpa [h, references] using href, by simp [Named],
      fun hj => absurd hj (hjoined (by simp [h])), sound.released⟩
  | base e h =>
    rw [h] at hplace
    have href := sound.refs (by simp [show v.place = .listed from hplace])
    exact ⟨hplace, fun _ => by simpa [h, references] using href, fun _ => rfl,
      fun hj => absurd hj (hjoined (by simp [h])), sound.released⟩
  | remove h =>
    rw [h] at hplace
    have href := sound.refs (by simp [show v.place = .listed from hplace])
    exact ⟨rfl, fun _ => by simpa [h, references] using href,
      fun _ => sound.self (by simp [h, Named]), fun hj => absurd hj (hjoined (by simp [h])),
      by simp⟩
  | decrRef e h =>
    rw [h] at hplace
    have href := sound.refs (by simp [show v.place = .exiting from hplace])
    simp only [h, references] at href
    simp only [href, sub_self, if_true]
    exact ⟨hplace, fun _ => rfl, fun _ => sound.self (by simp [h, Named]),
      fun hj => absurd hj (hjoined (by simp [h])), sound.released⟩
  | stage h =>
    rw [h] at hplace
    have href := sound.refs (by simp [show v.place = .exiting from hplace])
    exact ⟨rfl, fun _ => by simpa [h, references] using href,
      fun _ => sound.self (by simp [h, Named]), fun hj => absurd hj (hjoined (by simp [h])),
      by simp⟩
  | leave e h =>
    rw [h] at hplace
    have href := sound.refs (by simp [show v.place = .staged from hplace])
    exact ⟨.inl hplace, fun _ => by simpa [h, references] using href,
      fun _ => sound.self (by simp [h, Named]), fun hj => absurd hj (hjoined (by simp [h])),
      sound.released⟩
  | join t h joinable =>
    exact ⟨sound.place, sound.refs, sound.self, fun _ => ⟨h, joinable⟩, fun _ => rfl⟩
  | unstage t staged =>
    have hj := joined t rfl
    have hend := (sound.joined hj).1
    have href := sound.refs (by simp [staged])
    exact ⟨by simp [hend, Fits], fun _ => href, sound.self, sound.joined, fun _ => hj⟩

omit [DecidableEq R] in
/-- What has been joined stays as it is until its record is taken from the staged list. -/
theorem RecordStep.settled {v v' : Record K} (h : RecordStep r v e v') (sound : Sound v)
    (joined : v.isJoined = true) :
    v'.standing = .terminated ∧ v'.self = v.self ∧ v'.isJoined = true ∧
      v'.stackIsOurs = v.stackIsOurs ∧ v'.detached = v.detached ∧
      (v'.place = v.place ∨ ∃ t, e = .unstage t r ∧ v'.place = .released) := by
  have hplace := sound.place
  have hend := (sound.joined joined).1
  rw [hend] at hplace
  cases h with
  | rest => exact ⟨hend, rfl, joined, rfl, rfl, .inl rfl⟩
  | mapStack t creating =>
    rw [creating] at hplace
    exact absurd hplace (by simp [Fits])
  | join => exact ⟨hend, rfl, rfl, rfl, rfl, .inl rfl⟩
  | unstage t => exact ⟨hend, rfl, joined, rfl, rfl, .inr ⟨t, rfl, rfl⟩⟩
  | load h | new t h | loadAdd h | add t h | spawn t tid detached h | base e h | remove h
  | decrRef e h | stage h | leave e h =>
    rw [h] at hend
    exact absurd hend (by simp)

/-! How a step moves the record to and from its places. -/

omit [DecidableEq R] in
theorem RecordStep.unused {v v' : Record K} (h : RecordStep r v e v') (sound : Sound v) :
    v'.place = .unused ↔ v.place = .unused ∧ ∀ t, e ≠ .new t r := by
  have hplace := sound.place
  cases h with
  | rest _ h =>
    refine (and_iff_left fun t he => ?_).symm
    exact h (by rw [he]; rfl)
  | base _ _ quiet | decrRef _ _ quiet | leave _ _ quiet =>
    refine (and_iff_left fun t he => ?_).symm
    rw [he] at quiet
    exact absurd quiet (by simp [subject])
  | load | new | mapStack | spawn | join => simp
  | loadAdd h | remove h | stage h =>
    rw [h] at hplace
    simp [show v.place = _ from hplace]
  | add _ _ creating => simp [creating]
  | unstage _ staged => simp [staged]

omit [DecidableEq R] in
theorem RecordStep.listed {v v' : Record K} (h : RecordStep r v e v') (sound : Sound v) :
    v'.place = .listed ↔ v.place = .listed ∧ e ≠ .remove r ∨ ∃ t, e = .add t r := by
  have hplace := sound.place
  cases h with
  | rest _ h =>
    have hremove : e ≠ .remove r := fun he => h (by rw [he]; rfl)
    have hadd : ¬ ∃ t, e = .add t r := fun ⟨t, he⟩ => h (by rw [he]; rfl)
    simp [hremove, hadd]
  | base _ _ quiet | decrRef _ _ quiet | leave _ _ quiet =>
    have hremove : e ≠ .remove r := fun he => by simp [he, subject] at quiet
    have hadd : ¬ ∃ t, e = .add t r := fun ⟨t, he⟩ => by simp [he, subject] at quiet
    simp [hremove, hadd]
  | load _ unused | new _ _ unused => simp [unused]
  | mapStack | spawn | join | loadAdd | add => simp
  | remove => simp
  | stage h =>
    rw [h] at hplace
    simp [show v.place = _ from hplace]
  | unstage _ staged => simp [staged]

omit [DecidableEq R] in
theorem RecordStep.released {v v' : Record K} (h : RecordStep r v e v') (sound : Sound v) :
    v'.place = .released ↔ v.place = .released ∨ ∃ t, e = .unstage t r := by
  have hplace := sound.place
  cases h with
  | rest _ h =>
    have hunstage : ¬ ∃ t, e = .unstage t r := fun ⟨t, he⟩ => h (by rw [he]; rfl)
    simp [hunstage]
  | base _ _ quiet | decrRef _ _ quiet | leave _ _ quiet =>
    have hunstage : ¬ ∃ t, e = .unstage t r := fun ⟨t, he⟩ => by simp [he, subject] at quiet
    simp [hunstage]
  | load _ unused | new _ _ unused => simp [unused]
  | mapStack | spawn | join => simp
  | loadAdd h | remove h | stage h =>
    rw [h] at hplace
    simp [show v.place = _ from hplace]
  | add _ _ creating => simp [creating]
  | unstage => simp

omit [DecidableEq R] in
theorem RecordStep.stack {v v' : Record K} (h : RecordStep r v e v')
    (ours : v'.stackIsOurs = true) : v.stackIsOurs = true ∨ ∃ t, e = .mapStack t r := by
  cases h with
  | mapStack t => exact .inr ⟨t, rfl⟩
  | _ => exact .inl ours

omit [DecidableEq R] in
/-- The name of a staged record. -/
theorem RecordStep.named {v v' : Record K} (h : RecordStep r v e v') (sound : Sound v)
    (staged : v.place = .staged ∨ v.standing = .staging) :
    v'.self = v.self ∧ v'.detached = v.detached := by
  have hplace := sound.place
  cases h with
  | spawn _ _ _ h listed =>
    rw [listed, h] at staged
    exact absurd staged (by simp)
  | base _ h =>
    rw [h] at hplace staged
    rw [show v.place = .listed from hplace] at staged
    exact absurd staged (by simp)
  | _ => exact ⟨rfl, rfl⟩

omit [DecidableEq R] in
theorem RecordStep.first {v v' : Record K} (h : RecordStep r v e v') (before : v.isJoined = false)
    (after : v'.isJoined = true) : ∃ t, e = .join t r := by
  cases h with
  | join t => exact ⟨t, rfl⟩
  | _ => exact absurd (before.symm.trans after) (by simp)

omit [DecidableEq R] in
theorem RecordStep.unjoined {v v' : Record K} (h : RecordStep r v e v')
    (after : v'.isJoined = false) : v.isJoined = false := by
  cases h with
  | join => exact absurd after (by simp)
  | _ => exact after

omit [DecidableEq R] in
theorem RecordStep.joined {v v' : Record K} (h : RecordStep r v (.join t r) v') :
    v' = { v with isJoined := true } := by
  cases h with
  | rest _ h => exact absurd rfl h
  | base _ _ quiet | decrRef _ _ quiet | leave _ _ quiet => exact absurd quiet (by simp [subject])
  | join => rfl

omit [DecidableEq R] in
theorem RecordStep.unstaged {v v' : Record K} (h : RecordStep r v (.unstage t r) v') :
    v' = { v with place := .released } := by
  cases h with
  | rest _ h => exact absurd rfl h
  | base _ _ quiet | decrRef _ _ quiet | leave _ _ quiet => exact absurd quiet (by simp [subject])
  | unstage => rfl

/-! ### What a thread does that has joined another one -/

inductive Joining (R K : Type*)
  | idle
  | looking (tid : K) (target : Option R)
  | found (target : Option R) (td : R)
  | freeing (target : Option R) (td : R)
  | lost

def joining : Pc R K → Joining R K
  | .joined tid target | .cleaning tid target _ _ => .looking tid target
  | .cleaned target td => .found target td
  | .freeing target td => .freeing target td
  | .failed _ | .failedFree _ | .fatal | .abort | .crashed => .lost
  | _ => .idle

def target : Joining R K → Option R
  | .looking _ target | .found target _ | .freeing target _ => target
  | _ => none

/-- The events in the course of a join. -/
def Quiet : Event R K → Prop
  | .join _ _ | .unstage _ _ | .unmapStack _ _ | .free _ _ => False
  | _ => True

inductive JoinStep (s : State R K) (t : R) : Joining R K → Event R K → Joining R K → Prop
  | rest (j : Joining R K) (e : Event R K) (quiet : Quiet e) (sound : j ≠ .lost) : JoinStep s t j e j
  | join (r : R) (gone : s.pc r = .terminated) (first : s.isJoined r = false) :
      JoinStep s t .idle (.join t r) (.looking (s.tid r) (some r))
  | unstage (tid : K) (r : R) :
      JoinStep s t (.looking tid (some r)) (.unstage t r) (.found (some r) r)
  | unmapStack (r : R) (ours : s.stackIsOurs r = true) :
      JoinStep s t (.found (some r) r) (.unmapStack t r) (.freeing (some r) r)
  | noStack (r : R) (e : Event R K) (quiet : Quiet e) (theirs : s.stackIsOurs r = false) :
      JoinStep s t (.found (some r) r) e (.freeing (some r) r)
  | free (r : R) : JoinStep s t (.freeing (some r) r) (.free t r) .idle

/-- How often a block has been handed back. -/
def releases (b : Block R) : List (Event R K) → ℕ
  | [] => 0
  | .free _ td :: es => (if b = .threadData td ∨ b = .ptrList td then 1 else 0) + releases b es
  | .unmapStack _ td :: es => (if b = .stack td then 1 else 0) + releases b es
  | _ :: es => releases b es

/-- The record with its buffer has been released `n` times, its stack `k` times. -/
structure Released (es : List (Event R K)) (r : R) (n k : ℕ) : Prop where
  threadData : releases (.threadData r) es = n
  ptrList : releases (.ptrList r) es = n
  stack : releases (.stack r) es = k

/-- A stack that has to be released with its record. -/
def ours (s : State R K) (r : R) : ℕ := if s.stackIsOurs r then 1 else 0

/-- How much of the stack has been released where a join stands. -/
def stackReleased (s : State R K) (r : R) : Joining R K → ℕ
  | .freeing _ _ => ours s r
  | _ => 0

/-- A thread that joins another one is after its record. -/
def Aims (s : State R K) : Joining R K → Prop
  | .idle => True
  | .looking tid target => ∃ r, target = some r ∧ s.place r = .staged ∧ s.isJoined r = true ∧
      s.self r = tid
  | .found target td | .freeing target td =>
    target = some td ∧ s.place td = .released ∧ s.isJoined td = true
  | .lost => False

/-- `threadscan_util_thread_data_new` before `threadscan_proc_add_thread_data`. -/
def Making (m : Pc R K) (r : R) : Prop := (∃ b, m = .created r b) ∨ m = .stacked r

structure Order (es : List (Event R K)) (s : State R K) : Prop where
  sound : ∀ r, Sound (record s r)
  aims : ∀ t, Aims s (joining (s.pc t))
  alone : ∀ t u r, target (joining (s.pc t)) = some r → target (joining (s.pc u)) = some r → t = u
  unused : ∀ r, s.place r = .unused ↔ ∀ t, .new t r ∉ es
  creating : ∀ r, s.place r = .creating → s.pc r = .loaded ∨ ∃ t, Making (s.pc t) r
  onList : ∀ r, r ∈ listed es ↔ s.place r = .listed
  released : ∀ r, s.place r = .released ↔ ∃ t, .unstage t r ∈ es
  stack : ∀ r, s.stackIsOurs r = true → ∃ t, .mapStack t r ∈ es
  order : (stagedRecords es).Pairwise fun u r => s.detached r = false → s.self u ≠ s.self r
  idle : ∀ r, s.isJoined r = false → Released es r 0 0
  busy : ∀ t r, target (joining (s.pc t)) = some r →
    Released es r 0 (stackReleased s r (joining (s.pc t)))
  done : ∀ r, s.isJoined r = true → (∀ t, target (joining (s.pc t)) ≠ some r) →
    s.place r = .released ∧ Released es r 1 (ours s r)

/-- Creations and joins succeed, nobody is joined twice, and an id is given to a new thread
only after every thread that had it has terminated. -/
def lawful (_ : List (Event R K)) (s : State R K) : Event R K → Prop
  | .fail _ _ => False
  | .joinError _ => False
  | .join _ r => s.isJoined r = false
  | .spawn _ _ tid => ∀ r, s.pc r ≠ .unborn → s.pc r ≠ .terminated → s.tid r ≠ tid
  | _ => True

/-- Nor is a record staged while there is a staged record of a joinable thread with its id. -/
def orderly (es : List (Event R K)) (s : State R K) (e : Event R K) : Prop :=
  lawful es s e ∧ ∀ t, e = .stage t →
    ∀ r, s.place r = .staged → s.detached r = false → s.self t ≠ s.self r

/-! ### Blocks -/

theorem setRecord_threadData (mapped : Block R → Bool) (td r : R) (b : Bool) :
    setRecord mapped td b (.threadData r) = if r = td then b else mapped (.threadData r) := by
  simp only [setRecord, Function.update_apply, Block.threadData.injEq, reduceCtorEq, if_false]

theorem setRecord_ptrList (mapped : Block R → Bool) (td r : R) (b : Bool) :
    setRecord mapped td b (.ptrList r) = if r = td then b else mapped (.ptrList r) := by
  simp only [setRecord, Function.update_apply, Block.ptrList.injEq, reduceCtorEq, if_false]

theorem setRecord_stack (mapped : Block R → Bool) (td r : R) (b : Bool) :
    setRecord mapped td b (.stack r) = mapped (.stack r) := by
  simp only [setRecord, Function.update_apply, reduceCtorEq, if_false]

/-- A record that has been made and not been released is mapped. -/
theorem blocks_record (made : .new t r ∈ es) (kept : releases (.threadData r) es = 0) :
    blocks es (.threadData r) = true ∧ blocks es (.ptrList r) = true := by
  induction es with
  | nil => exact absurd made (by simp)
  | cons e es ih =>
    cases e with
    | new u td =>
      simp only [blocks, setRecord_threadData, setRecord_ptrList]
      split_ifs with hr
      · exact ⟨rfl, rfl⟩
      · exact ih (by simpa [hr] using made) kept
    | mapStack u td =>
      have := ih (by simpa using made) kept
      simpa [blocks] using this
    | unmapStack u td =>
      have := ih (by simpa using made) (by simpa [releases] using kept)
      simpa [blocks] using this
    | free u td =>
      have hr : r ≠ td := by
        rintro rfl
        simp [releases] at kept
      have := ih (by simpa using made) (by simpa [releases, hr] using kept)
      simpa [blocks, setRecord_threadData, setRecord_ptrList, hr] using this
    | _ => exact ih (by simpa using made) kept

theorem blocks_stack (made : .mapStack t r ∈ es) (kept : releases (.stack r) es = 0) :
    blocks es (.stack r) = true := by
  induction es with
  | nil => exact absurd made (by simp)
  | cons e es ih =>
    cases e with
    | new u td =>
      simpa [blocks, setRecord_stack] using ih (by simpa using made) kept
    | mapStack u td =>
      by_cases hr : r = td
      · simp [blocks, hr]
      · simpa [blocks, hr] using ih (by simpa [hr] using made) kept
    | unmapStack u td =>
      have hr : r ≠ td := by
        rintro rfl
        simp [releases] at kept
      simpa [blocks, hr] using ih (by simpa using made) (by simpa [releases, hr] using kept)
    | free u td =>
      simpa [blocks, setRecord_stack] using
        ih (by simpa using made) (by simpa [releases] using kept)
    | _ => exact ih (by simpa using made) kept

/-- A record on one of the lists has not been released. -/
theorem Order.kept (order : Order es s) (place : s.place r = .listed ∨ s.place r = .staged) :
    Released es r 0 0 := by
  by_cases hj : s.isJoined r = true
  · by_cases hbusy : ∃ t, target (joining (s.pc t)) = some r
    · obtain ⟨t, ht⟩ := hbusy
      have haims := order.aims t
      have hfreed := order.busy t r ht
      generalize joining (s.pc t) = j at ht haims hfreed
      cases j with
      | idle | lost => exact absurd ht (by simp [target])
      | looking => exact hfreed
      | found tg td | freeing tg td =>
        obtain ⟨htg, hplace, -⟩ := haims
        obtain rfl : td = r := Option.some.inj (htg.symm.trans ht)
        rcases place with h | h <;> rw [hplace] at h <;> exact absurd h (by simp)
    · obtain ⟨hplace, -⟩ := order.done r hj (not_exists.mp hbusy)
      rcases place with h | h <;> rw [hplace] at h <;> exact absurd h (by simp)
  · exact order.idle r (by simpa using hj)

theorem Order.mapped (order : Order es s) (inv : Inv es s)
    (place : s.place r = .listed ∨ s.place r = .staged) :
    s.mapped (.threadData r) = true := by
  have hused : s.place r ≠ .unused := by rcases place with h | h <;> simp [h]
  obtain ⟨t, made⟩ : ∃ t, .new t r ∈ es := by
    by_contra hnone
    exact hused ((order.unused r).mpr (not_exists.mp hnone))
  rw [inv.mapped]
  exact (blocks_record made (order.kept place).threadData).1

/-! ### One step -/

/-- A walk that has come to a record with the id it looks for has come to the right one. -/
theorem Order.found (order : Order es s) (inv : Inv es s) {tid : K} {tg last : Option R} {u : R}
    (h : s.pc t = .cleaning tid tg last (some u)) (found : s.self u = tid) : tg = some u := by
  have haims := order.aims t
  have hat := inv.position t
  rw [h] at haims hat
  obtain ⟨r, rfl, hplace, hjoined, hself⟩ := haims
  obtain ⟨-, -, a, b, hsplit, hcur, -, hbefore⟩ := hat
  obtain ⟨b, rfl⟩ := List.head?_eq_some_iff.mp hcur.symm
  have hmem := (inv.onStaged r).mpr hplace
  rw [hsplit] at hmem
  rcases List.mem_append.mp hmem with ha | hb
  · exact absurd hself (hbefore r ha)
  · rcases List.mem_cons.mp hb with rfl | hb
    · rfl
    · -- the record lies behind one that was staged with the same id after it
      have hpair := order.order
      rw [hsplit] at hpair
      have hne := (List.pairwise_cons.mp (List.pairwise_append.mp hpair).2.1).1 r hb
        ((order.sound r).joined hjoined).2
      exact absurd (found.trans hself.symm) hne

/-- The walk for a record never runs off the list. -/
theorem Order.ahead (order : Order es s) (inv : Inv es s) {tid : K} {tg last cur : Option R}
    (h : s.pc t = .cleaning tid tg last cur) :
    ∃ r l, tg = some r ∧ Linked s.next cur l ∧ r ∈ l ∧ s.self r = tid := by
  have haims := order.aims t
  have hat := inv.position t
  rw [h] at haims hat
  obtain ⟨r, rfl, hplace, hjoined, hself⟩ := haims
  obtain ⟨-, -, a, b, hsplit, hcur, -, hbefore⟩ := hat
  have hmem := (inv.onStaged r).mpr hplace
  rw [hsplit] at hmem
  have hb : r ∈ b := (List.mem_append.mp hmem).resolve_left fun ha => hbefore r ha hself
  refine ⟨r, b, rfl, ?_, hb, hself⟩
  have hstaged := inv.staged
  rw [hsplit] at hstaged
  cases b with
  | nil => exact absurd hb (by simp)
  | cons v b => exact ⟨hcur, hstaged.suffix⟩

/-- One thread takes a step in the course of its joins, or rests there. -/
def ThreadStep (s : State R K) (e : Event R K) (s' : State R K) : Prop :=
  ∃ t, JoinStep s t (joining (s.pc t)) e (joining (s'.pc t)) ∧
    ∀ u, u ≠ t → joining (s'.pc u) = joining (s.pc u)

theorem ThreadStep.move {j : Joining R K} (pc : s'.pc = Function.update s.pc t m)
    (h : JoinStep s t j e (joining m)) (before : joining (s.pc t) = j) : ThreadStep s e s' := by
  refine ⟨t, ?_, fun u hu => ?_⟩
  · rw [pc, Function.update_self, before]
    exact h
  · rw [pc, Function.update_of_ne hu]

/-- The list that a thread removes its record from contains the record. -/
theorem head_some (inv : Inv es s) (h : s.pc t = .exiting) : s.head ≠ none := by
  have hown := inv.position t
  rw [h] at hown
  rw [inv.list.head]
  intro hnone
  have hmem := hown.1
  rw [List.head?_eq_none_iff.mp hnone] at hmem
  exact absurd hmem (by simp)

theorem next_some (inv : Inv es s) {tmp : R} (h : s.pc t = .removing tmp) :
    s.next tmp ≠ none := by
  have hat := inv.position t
  rw [h] at hat
  obtain ⟨-, -, a, b, hsplit, hmem⟩ := hat
  have hlist := inv.list
  rw [hsplit] at hlist
  rw [hlist.next_eq]
  intro hnone
  rw [List.head?_eq_none_iff.mp hnone] at hmem
  exact absurd hmem (by simp)

/-- The record at which a walk stands has not been released. -/
theorem Order.reads (order : Order es s) (inv : Inv es s) {u : R} (h : (s.pc t).reads = some u) :
    s.mapped (.threadData u) = true := by
  refine order.mapped inv ?_
  have hat := inv.position t
  generalize s.pc t = m at h hat
  cases m with
  | walking cur =>
    obtain ⟨-, -, a, b, hsplit, hcur⟩ := hat
    have hcur' : cur = some u := h
    refine .inl ((order.onList u).mp ?_)
    rw [hsplit]
    exact List.mem_append_right _ (List.mem_of_mem_head? (hcur.symm.trans hcur'))
  | removing tmp =>
    obtain ⟨-, -, a, b, hsplit, -⟩ := hat
    obtain rfl : tmp = u := Option.some.inj h
    refine .inl ((order.onList tmp).mp ?_)
    rw [hsplit]
    simp
  | cleaning tid tg last cur =>
    obtain ⟨-, -, a, b, hsplit, hcur, -⟩ := hat
    have hcur' : cur = some u := h
    refine .inr ((inv.onStaged u).mp ?_)
    rw [hsplit]
    exact List.mem_append_right _ (List.mem_of_mem_head? (hcur.symm.trans hcur'))
  | _ => exact absurd h (by simp [Pc.reads])

/-- Every step of the library is a step of one thread in the course of its joins. -/
theorem thread_step (order : Order es s) (inv : Inv es s) (allowed : lawful es s e)
    (move : Step cfg s e s') : ThreadStep s e s' := by
  have haims : ∀ {t : R} {m : Pc R K}, s.pc t = m → Aims s (joining m) :=
    fun h => h ▸ order.aims _
  have hrefs : ∀ {u : R}, s.place u = .released → s.refCount u = 0 := by
    intro u hu
    have hsound := order.sound u
    have hend := (hsound.joined (hsound.released hu)).1
    have href := hsound.refs (show s.place u ≠ .unused by simp [hu])
    rwa [hend] at href
  cases move with
  | spawn t td tid detached h =>
    have hb : s.pc td = .unborn := (h ▸ inv.position t : At es s t (.added td)).2.2
    refine ⟨t, ?_, fun u hu => ?_⟩
    · have hne : t ≠ td := by
        rintro rfl
        rw [h] at hb
        exact absurd hb (by simp)
      simp only [Function.update_of_ne hne, Function.update_self, h]
      exact .rest _ _ trivial (by simp [joining])
    · by_cases hutd : u = td
      · subst hutd
        simp [hb, joining]
      · simp [hutd, hu]
  | fail | joinError => exact allowed.elim
  | failStack t td h | failNoStack t td h | failAssert t td h | failFree t td h =>
    exact (haims h).elim
  | removeNone t h free first => exact absurd first (head_some inv h)
  | removeLost t tmp h there link => exact absurd link (next_some inv h)
  | cleanLost t tid tg last h =>
    obtain ⟨r, l, -, hl, hr, -⟩ := order.ahead inv h
    cases l with
    | nil => exact absurd hr (by simp)
    | cons v l => exact absurd hl.1 (by simp)
  | cleanRace t tg u h race =>
    obtain ⟨-, hplace, -⟩ := haims h
    have := hrefs hplace
    omega
  | cleanAssert t tg u h debug counted =>
    obtain ⟨-, hplace, -⟩ := haims h
    exact absurd (hrefs hplace) counted
  | fault t u h gone =>
    have := order.reads inv h
    rw [gone] at this
    exact absurd this (by simp)
  | join t td h gone joinable => exact .move rfl (.join td gone allowed) (by rw [h]; rfl)
  | cleanHead t tid tg u h there found | cleanLink t tid tg last u h there found =>
    obtain rfl := order.found inv h found
    exact .move rfl (.unstage tid u) (by rw [h]; rfl)
  | cleanStack t tg u h quiet mine =>
    obtain ⟨rfl, -⟩ := haims h
    exact .move rfl (.unmapStack u mine) (by rw [h]; rfl)
  | cleanNoStack t tg u h quiet theirs =>
    obtain ⟨rfl, -⟩ := haims h
    exact .move rfl (.noStack u .other trivial theirs) (by rw [h]; rfl)
  | cleanFree t tg u h pass =>
    obtain ⟨rfl, -⟩ := haims h
    exact .move rfl (.free u) (by rw [h]; rfl)
  | clean t tid tg h => exact .move rfl (.rest _ _ trivial (by simp [joining])) (by rw [h]; rfl)
  | cleanNext t tid tg last u h =>
    exact .move rfl (.rest _ _ trivial (by simp [joining])) (by rw [h]; rfl)
  | decrRef t h =>
    have hidle : joining (s.pc t) = .idle := by rw [h]; rfl
    refine .move rfl ?_ hidle
    split_ifs
    · exact .rest .idle _ trivial (by simp)
    · exact .rest .idle _ trivial (by simp)
  | collect t h | walkPop t u k h =>
    exact ⟨t, .rest _ _ trivial (by simp [h, joining]), fun _ _ => rfl⟩
  | load t h | loadAdd t h | base t h | count t _ h | refuse t h | new t _ _ h | userStack t _ h
  | ownStack t _ h | add t _ h | walk t h | walkNext t _ h | walkEnd t h | exit t h
  | removeHead t h | removeWalk t _ h | removeNext t _ _ h | removeLink t _ h | stage t h
  | uncount t h | leave t h =>
    exact .move rfl (.rest .idle _ trivial (by simp)) (by rw [h]; rfl)

/-- Only the thread that has joined a record takes it from the staged list. -/
theorem unstage_joined (order : Order es s) (threads : ThreadStep s e s') {u : R}
    (h : e = .unstage u r) : target (joining (s.pc u)) = some r ∧ s.isJoined r = true := by
  obtain ⟨t, step, -⟩ := threads
  have haims := order.aims t
  subst h
  generalize hj : joining (s.pc t) = j at step haims
  generalize joining (s'.pc t) = j' at step
  cases step with
  | rest _ _ quiet => exact quiet.elim
  | unstage tid =>
    obtain ⟨r', hr', -, hjoined, -⟩ := haims
    obtain rfl := Option.some.inj hr'
    exact ⟨by rw [hj]; rfl, hjoined⟩
  | noStack _ _ quiet => exact quiet.elim

omit [DecidableEq R] in
/-- What is handed back belongs to a thread that has been joined. -/
theorem release_joined (threads : ThreadStep s e s') {u : R}
    (h : e = .free u r ∨ e = .unmapStack u r) : target (joining (s.pc u)) = some r := by
  obtain ⟨t, step, -⟩ := threads
  rcases h with rfl | rfl
  all_goals
    generalize hj : joining (s.pc t) = j at step
    generalize joining (s'.pc t) = j' at step
    cases step with
    | rest _ _ quiet | noStack _ _ quiet => exact quiet.elim
    | _ =>
      rw [hj]
      rfl

/-- What a thread is after has been joined. -/
theorem Order.target_joined (order : Order es s) (h : target (joining (s.pc t)) = some r) :
    s.isJoined r = true := by
  have haims := order.aims t
  generalize joining (s.pc t) = j at h haims
  cases j with
  | idle | lost => exact absurd h (by simp [target])
  | looking tid tg =>
    obtain ⟨r', hr', -, hj, -⟩ := haims
    obtain rfl : r' = r := Option.some.inj (hr'.symm.trans h)
    exact hj
  | found tg td | freeing tg td =>
    obtain ⟨htg, -, hj⟩ := haims
    obtain rfl : td = r := Option.some.inj (htg.symm.trans h)
    exact hj

section Step
variable (order : Order es s) (records : ∀ r, RecordStep r (record s r) e (record s' r))
  (threads : ThreadStep s e s')
include order records threads

theorem sound_step (r : R) : Sound (record s' r) :=
  (records r).sound (order.sound r) fun _ he => (unstage_joined order threads he).2

/-- The record that a thread is after stays as it is, unless the thread itself takes it. -/
theorem aimed_step {u : R} (aimed : target (joining (s.pc u)) = some r) :
    s'.self r = s.self r ∧ s'.isJoined r = true ∧ s'.stackIsOurs r = s.stackIsOurs r ∧
      (s'.place r = s.place r ∨ e = .unstage u r ∧ s'.place r = .released) := by
  obtain ⟨-, hself, hj, hours, -, hplace⟩ :=
    (records r).settled (order.sound r) (order.target_joined aimed)
  refine ⟨hself, hj, hours, hplace.imp id ?_⟩
  rintro ⟨v, he, hp⟩
  obtain rfl := order.alone v u r (unstage_joined order threads he).1 aimed
  exact ⟨he, hp⟩

theorem aims_step (u : R) : Aims s' (joining (s'.pc u)) := by
  have haims := order.aims u
  have haimed := fun r => aimed_step order records threads (u := u) (r := r)
  -- a thread that does not move in its join
  have hstay : joining (s'.pc u) = joining (s.pc u) → (∀ r, e ≠ .unstage u r) →
      Aims s' (joining (s'.pc u)) := by
    intro hsame hne
    rw [hsame]
    generalize joining (s.pc u) = j at haims haimed
    cases j with
    | idle => trivial
    | lost => exact haims
    | looking tid tg =>
      obtain ⟨r, rfl, hplace, -, hself⟩ := haims
      obtain ⟨hs, hj, -, hp⟩ := haimed r rfl
      exact ⟨r, rfl, (hp.resolve_right fun h => hne r h.1).trans hplace, hj, hs.trans hself⟩
    | found tg td | freeing tg td =>
      obtain ⟨rfl, hplace, -⟩ := haims
      obtain ⟨-, hj, -, hp⟩ := haimed td rfl
      exact ⟨rfl, (hp.resolve_right fun h => hne td h.1).trans hplace, hj⟩
  obtain ⟨t, step, rest⟩ := id threads
  by_cases hu : u = t
  · subst hu
    generalize hj : joining (s.pc u) = j at step haims haimed
    generalize hj' : joining (s'.pc u) = j' at step hstay
    cases step with
    | rest _ _ quiet => exact hstay hj.symm fun r he => by rw [he] at quiet; exact quiet
    | join r gone first =>
      have hsound := order.sound r
      have hend : (record s r).standing = .terminated := by simp [record, gone, standing]
      have hplace : s.place r = .staged := by
        have hfits := hsound.place
        rw [hend] at hfits
        refine hfits.resolve_right fun hr => ?_
        have := hsound.released hr
        rw [show (record s r).isJoined = s.isJoined r from rfl, first] at this
        exact absurd this (by simp)
      have hself : s.self r = s.tid r := hsound.self (by rw [hend]; trivial)
      have hstep := (records r).joined
      have hplace' : s'.place r = s.place r := congrArg Record.place hstep
      have hself' : s'.self r = s.self r := congrArg Record.self hstep
      have hjoined' : s'.isJoined r = true := congrArg Record.isJoined hstep
      exact ⟨r, rfl, hplace'.trans hplace, hjoined', hself'.trans hself⟩
    | unstage tid r =>
      obtain ⟨r', hr', hplace, -⟩ := haims
      obtain rfl := Option.some.inj hr'
      obtain ⟨-, hj', -, -⟩ := haimed r rfl
      have hstep := (records r).unstaged
      exact ⟨rfl, congrArg Record.place hstep, hj'⟩
    | unmapStack r mine =>
      obtain ⟨-, hplace, -⟩ := haims
      obtain ⟨-, hj', -, hp⟩ := haimed r rfl
      exact ⟨rfl, (hp.resolve_right fun h => absurd h.1 (by simp)).trans hplace, hj'⟩
    | noStack r _ quiet theirs =>
      obtain ⟨-, hplace, -⟩ := haims
      obtain ⟨-, hj', -, hp⟩ := haimed r rfl
      refine ⟨rfl, (hp.resolve_right fun h => ?_).trans hplace, hj'⟩
      rw [h.1] at quiet
      exact quiet
    | free r => trivial
  · refine hstay (rest u hu) fun r he => hu ?_
    subst he
    generalize joining (s.pc t) = j at step
    generalize joining (s'.pc t) = j' at step
    cases step with
    | rest _ _ quiet | noStack _ _ quiet => exact quiet.elim
    | unstage => rfl

/-- No two threads are after one record. -/
theorem alone_step {u v : R} (hu : target (joining (s'.pc u)) = some r)
    (hv : target (joining (s'.pc v)) = some r) : u = v := by
  obtain ⟨t, step, rest⟩ := id threads
  -- a thread that is after the record was so before, or has just joined it
  have hback : ∀ w, target (joining (s'.pc w)) = some r →
      target (joining (s.pc w)) = some r ∨ w = t ∧ s.isJoined r = false := by
    intro w hw
    by_cases hwt : w = t
    · subst hwt
      generalize joining (s.pc w) = j at step
      generalize joining (s'.pc w) = j' at step hw
      cases step with
      | join r' _ first =>
        obtain rfl : r' = r := Option.some.inj hw
        exact .inr ⟨rfl, first⟩
      | free => exact absurd hw (by simp [target])
      | _ => exact .inl hw
    · rw [rest w hwt] at hw
      exact .inl hw
  have hjoined : ∀ w, target (joining (s.pc w)) = some r → s.isJoined r ≠ false := by
    intro w hw
    simp [order.target_joined hw]
  rcases hback u hu with hu' | ⟨rfl, hfirst⟩ <;> rcases hback v hv with hv' | ⟨rfl, hfirst'⟩
  · exact order.alone u v r hu' hv'
  · exact absurd hfirst' (hjoined u hu')
  · exact absurd hfirst (hjoined v hv')
  · rfl

end Step

theorem mem_listed (nodup : (listed es).Nodup) :
    r ∈ listed (e :: es) ↔ r ∈ listed es ∧ e ≠ .remove r ∨ ∃ t, e = .add t r := by
  cases e with
  | add t td =>
    change r ∈ td :: listed es ↔ _
    rw [List.mem_cons]
    simp [or_comm, eq_comm]
  | remove t =>
    change r ∈ (listed es).erase t ↔ _
    rw [nodup.mem_erase_iff]
    simp [and_comm, eq_comm]
  | _ => simp [listed]

theorem Released.quiet {n k : ℕ} (h : Released es r n k) (free : ∀ t, e ≠ .free t r)
    (stack : ∀ t, e ≠ .unmapStack t r) : Released (e :: es) r n k := by
  cases e with
  | free t td =>
    have hr : r ≠ td := by
      rintro rfl
      exact free t rfl
    exact ⟨by simpa [releases, hr] using h.threadData, by simpa [releases, hr] using h.ptrList,
      by simpa [releases] using h.stack⟩
  | unmapStack t td =>
    have hr : r ≠ td := by
      rintro rfl
      exact stack t rfl
    exact ⟨by simpa [releases] using h.threadData, by simpa [releases] using h.ptrList,
      by simpa [releases, hr] using h.stack⟩
  | _ => exact ⟨h.threadData, h.ptrList, h.stack⟩

theorem Released.free {n k : ℕ} (h : Released es r n k) (t : R) :
    Released (.free t r :: es) r (1 + n) k :=
  ⟨by simp [releases, h.threadData], by simp [releases, h.ptrList], by simp [releases, h.stack]⟩

theorem Released.unmapStack {n k : ℕ} (h : Released es r n k) (t : R) :
    Released (.unmapStack t r :: es) r n (1 + k) :=
  ⟨by simp [releases, h.threadData], by simp [releases, h.ptrList], by simp [releases, h.stack]⟩

section Step
variable (order : Order es s) (records : ∀ r, RecordStep r (record s r) e (record s' r))
  (threads : ThreadStep s e s')
include order records threads

theorem idle_step (first : s'.isJoined r = false) : Released (e :: es) r 0 0 := by
  have hfirst : s.isJoined r = false := (records r).unjoined first
  have hne : ∀ u, target (joining (s.pc u)) ≠ some r := fun u hu => by
    have := order.target_joined hu
    rw [hfirst] at this
    exact absurd this (by simp)
  exact (order.idle r hfirst).quiet
    (fun t he => hne t (release_joined threads (.inl he)))
    (fun t he => hne t (release_joined threads (.inr he)))

theorem busy_step {u : R} (h : target (joining (s'.pc u)) = some r) :
    Released (e :: es) r 0 (stackReleased s' r (joining (s'.pc u))) := by
  have hbusy := order.busy u r
  have hours : target (joining (s.pc u)) = some r → ours s' r = ours s r := fun hu => by
    simp only [ours, (aimed_step order records threads hu).2.2.1]
  have hother : ∀ v, e = .free v r ∨ e = .unmapStack v r → target (joining (s.pc u)) = some r →
      v = u := fun v he hu => order.alone v u r (release_joined threads he) hu
  obtain ⟨t, step, rest⟩ := id threads
  -- a thread that keeps its position in its join
  have hstay : joining (s'.pc u) = joining (s.pc u) → (∀ r, e ≠ .free u r) →
      (∀ r, e ≠ .unmapStack u r) →
      Released (e :: es) r 0 (stackReleased s' r (joining (s'.pc u))) := by
    intro hsame hfree hstack
    rw [hsame] at h ⊢
    have hsame' : stackReleased s' r (joining (s.pc u)) = stackReleased s r (joining (s.pc u)) := by
      generalize joining (s.pc u) = j at h hours
      cases j with
      | freeing => exact hours h
      | _ => rfl
    rw [hsame']
    refine (hbusy h).quiet (fun v he => ?_) (fun v he => ?_)
    · obtain rfl := hother v (.inl he) h
      exact hfree r he
    · obtain rfl := hother v (.inr he) h
      exact hstack r he
  by_cases hu : u = t
  · subst hu
    generalize hj : joining (s.pc u) = j at step hbusy hours hstay
    generalize hj' : joining (s'.pc u) = j' at step h hstay
    cases step with
    | rest _ _ quiet =>
      refine hstay rfl (fun r he => ?_) (fun r he => ?_) <;>
      · rw [he] at quiet
        exact quiet
    | join r' _ first =>
      obtain rfl : r' = r := Option.some.inj h
      exact (order.idle r' first).quiet (by simp) (by simp)
    | unstage tid r' =>
      obtain rfl : r' = r := Option.some.inj h
      exact (hbusy rfl).quiet (by simp) (by simp)
    | unmapStack r' mine =>
      obtain rfl : r' = r := Option.some.inj h
      have hone : stackReleased s' r' (.freeing (some r') r') = 1 + 0 := by
        change ours s' r' = 1
        rw [hours rfl]
        simp [ours, mine]
      rw [hone]
      exact (hbusy rfl).unmapStack u
    | noStack r' _ quiet theirs =>
      obtain rfl : r' = r := Option.some.inj h
      have hzero : stackReleased s' r' (.freeing (some r') r') = 0 := by
        change ours s' r' = 0
        rw [hours rfl]
        simp [ours, theirs]
      rw [hzero]
      refine (hbusy rfl).quiet (fun v he => ?_) (fun v he => ?_) <;>
      · rw [he] at quiet
        exact quiet
    | free => exact absurd h (by simp [target])
  · refine hstay (rest u hu) (fun r he => ?_) (fun r he => ?_)
    all_goals
      subst he
      generalize joining (s.pc t) = j at step
      generalize joining (s'.pc t) = j' at step
      cases step with
      | rest _ _ quiet | noStack _ _ quiet => exact quiet
      | _ => exact hu rfl

theorem done_step (joined : s'.isJoined r = true)
    (alone : ∀ u, target (joining (s'.pc u)) ≠ some r) :
    s'.place r = .released ∧ Released (e :: es) r 1 (ours s' r) := by
  obtain ⟨t, step, rest⟩ := id threads
  by_cases hj : s.isJoined r = true
  · obtain ⟨-, -, -, hours, -, hplace⟩ := (records r).settled (order.sound r) hj
    have hours' : ours s' r = ours s r := by
      simp only [ours]
      rw [show s'.stackIsOurs r = s.stackIsOurs r from hours]
    have hkeep : s.place r = .released → s'.place r = .released := fun hp => by
      rcases hplace with h | ⟨-, -, h⟩
      · exact h.trans hp
      · exact h
    rw [hours']
    by_cases hbusy : ∃ u, target (joining (s.pc u)) = some r
    · obtain ⟨u, hu⟩ := hbusy
      have hut : u = t := by
        by_contra hne
        exact alone u (by rw [rest u hne]; exact hu)
      subst hut
      have hafter := alone u
      have haims := order.aims u
      have hreleased := order.busy u r hu
      generalize joining (s.pc u) = j at step hu haims hreleased
      generalize joining (s'.pc u) = j' at step hafter
      cases step with
      | free r' =>
        obtain rfl : r' = r := Option.some.inj hu
        exact ⟨hkeep haims.2.1, hreleased.free u⟩
      | join => exact absurd hu (by simp [target])
      | _ => exact absurd hu hafter
    · obtain ⟨hp, hreleased⟩ := order.done r hj (not_exists.mp hbusy)
      exact ⟨hkeep hp, hreleased.quiet
        (fun u he => hbusy ⟨u, release_joined threads (.inl he)⟩)
        (fun u he => hbusy ⟨u, release_joined threads (.inr he)⟩)⟩
  · obtain ⟨u, rfl⟩ := (records r).first (by simpa [record] using hj) joined
    have hafter := alone t
    generalize joining (s.pc t) = j at step
    generalize joining (s'.pc t) = j' at step hafter
    cases step with
    | rest _ _ quiet | noStack _ _ quiet => exact quiet.elim
    | join => exact absurd rfl hafter

end Step

/-- A record that is being made stays with the thread that makes it. -/
theorem Order.made (order : Order es s) (place : s.place r = .creating)
    (keep : ∀ u, Making (s.pc u) r → Making (s'.pc u) r)
    (loaded : s.pc r = .loaded → s'.pc r = .loaded) :
    s'.pc r = .loaded ∨ ∃ t, Making (s'.pc t) r := by
  rcases order.creating r place with h | ⟨u, hu⟩
  · exact .inl (loaded h)
  · exact .inr ⟨u, keep u hu⟩

theorem creating_step (order : Order es s) (inv : Inv es s) (lawful : lawful es s e)
    (move : Step cfg s e s') (h : s'.place r = .creating) :
    s'.pc r = .loaded ∨ ∃ t, Making (s'.pc t) r := by
  -- a thread that makes no record leaves those alone that are being made
  have hplain : ∀ {t : R} {m : Pc R K}, s'.pc = Function.update s.pc t m → s.pc t ≠ .loaded →
      ¬ Making (s.pc t) r → s.place r = .creating → s'.pc r = .loaded ∨ ∃ t, Making (s'.pc t) r := by
    intro t m hpc hloaded hmaking hplace
    refine order.made hplace (fun u hu => ?_) (fun hr => ?_)
    · rw [hpc, Function.update_of_ne]
      · exact hu
      · rintro rfl
        exact hmaking hu
    · rw [hpc, Function.update_of_ne]
      · exact hr
      · rintro rfl
        exact hloaded hr
  have hout : ∀ {u : R} {p : Place}, p ≠ .creating → Function.update s.place u p r = .creating →
      s.place r = .creating := by
    intro u p hp hr
    by_cases hru : r = u
    · subst hru
      rw [Function.update_self] at hr
      exact absurd hr hp
    · rwa [Function.update_of_ne hru] at hr
  cases move with
  | load t ht =>
    by_cases hr : r = t
    · subst hr
      exact .inl (by simp [State.move])
    · have hplace : s.place r = .creating := by simpa [hr] using h
      exact hplain rfl (by simp [ht]) (by simp [ht, Making]) hplace
  | new t td userStack ht =>
    by_cases hr : r = td
    · subst hr
      exact .inr ⟨t, .inl ⟨userStack, by simp [State.move]⟩⟩
    · have hplace : s.place r = .creating := by simpa [hr] using h
      exact hplain rfl (by simp [ht]) (by simp [ht, Making]) hplace
  | userStack t td ht | ownStack t td ht =>
    have hplace : s.place r = .creating := h
    refine order.made hplace (fun u hu => ?_) (fun hr => ?_)
    · by_cases hut : u = t
      · subst hut
        have htd : td = r := by simpa [ht, Making] using hu
        exact .inr (by simp [State.move, htd])
      · simpa [State.move, hut] using hu
    · have hrt : r ≠ t := by
        rintro rfl
        rw [ht] at hr
        exact absurd hr (by simp)
      simpa [State.move, hrt] using hr
  | loadAdd t ht =>
    have hrt : r ≠ t := by
      rintro rfl
      simp at h
    have hplace : s.place r = .creating := by simpa [hrt] using h
    refine order.made hplace (fun u hu => ?_) (fun hr => ?_)
    · have hut : u ≠ t := by
        rintro rfl
        simp [ht, Making] at hu
      simpa [State.move, hut] using hu
    · simpa [State.move, hrt] using hr
  | add t td ht =>
    have hrtd : td ≠ r := by
      rintro rfl
      simp at h
    have hplace : s.place r = .creating := by simpa [Ne.symm hrtd] using h
    exact hplain rfl (by simp [ht]) (by simp [ht, Making, hrtd]) hplace
  | spawn t td tid detached ht =>
    have hb : s.pc td = .unborn := (ht ▸ inv.position t : At es s t (.added td)).2.2
    refine order.made h (fun u hu => ?_) (fun hr => ?_)
    · have hutd : u ≠ td := by
        rintro rfl
        simp [hb, Making] at hu
      have hut : u ≠ t := by
        rintro rfl
        simp [ht, Making] at hu
      simpa [hutd, hut] using hu
    · have hrtd : r ≠ td := by
        rintro rfl
        simp [hb] at hr
      have hrt : r ≠ t := by
        rintro rfl
        simp [ht] at hr
      simpa [hrtd, hrt] using hr
  | fail | joinError => exact lawful.elim
  | failFree t td ht => exact ((ht ▸ order.aims t : Aims s (joining (.failedFree td)))).elim
  | collect t ht | walkPop t _ _ ht => exact order.creating r h
  | fault t u ht =>
    refine hplain rfl (fun hl => ?_) (fun hm => ?_) h
    · simp [hl, Pc.reads] at ht
    · rcases hm with ⟨b, hm⟩ | hm <;> simp [hm, Pc.reads] at ht
  | removeHead t ht | removeLink t _ ht | stage t ht =>
    exact hplain rfl (by simp [ht]) (by simp [ht, Making]) (hout (by simp) h)
  | cleanHead t _ _ _ ht | cleanLink t _ _ _ _ ht =>
    exact hplain rfl (by simp [ht]) (by simp [ht, Making]) (hout (by simp) h)
  | base t ht | count t _ ht | refuse t ht | failStack t _ ht | failNoStack t _ ht
  | failAssert t _ ht | walk t ht | walkNext t _ ht | walkEnd t ht | exit t ht | removeWalk t _ ht
  | removeNone t ht | removeNext t _ _ ht | removeLost t _ ht | decrRef t ht | uncount t ht
  | leave t ht | join t _ ht | clean t _ _ ht | cleanNext t _ _ _ _ ht | cleanLost t _ _ _ ht
  | cleanRace t _ _ ht | cleanStack t _ _ ht | cleanNoStack t _ _ ht | cleanAssert t _ _ ht
  | cleanFree t _ _ ht =>
    exact hplain rfl (by simp [ht]) (by simp [ht, Making]) h

/-- The staged records of joinable threads have the last staged record of their id. -/
theorem order_step (order : Order es s) (inv : Inv es s)
    (records : ∀ r, RecordStep r (record s r) e (record s' r)) (allowed : orderly es s e)
    (staging : ∀ t, e = .stage t → s.pc t = .staging) :
    (stagedRecords (e :: es)).Pairwise fun u r => s'.detached r = false → s'.self u ≠ s'.self r := by
  have hname : ∀ r, s.place r = .staged ∨ s.pc r = .staging →
      s'.self r = s.self r ∧ s'.detached r = s.detached r := fun r hr =>
    (records r).named (order.sound r) (hr.imp id fun h => by simp [record, h, standing])
  have hold : (stagedRecords es).Pairwise
      fun u r => s'.detached r = false → s'.self u ≠ s'.self r := by
    refine order.order.imp_of_mem fun {u r} hu hr h => ?_
    rw [(hname u (.inl ((inv.onStaged u).mp hu))).1, (hname r (.inl ((inv.onStaged r).mp hr))).1,
      (hname r (.inl ((inv.onStaged r).mp hr))).2]
    exact h
  cases e with
  | stage t =>
    refine List.pairwise_cons.mpr ⟨fun r hr => ?_, hold⟩
    have hplace := (inv.onStaged r).mp hr
    rw [(hname t (.inr (staging t rfl))).1, (hname r (.inl hplace)).1, (hname r (.inl hplace)).2]
    exact allowed.2 t rfl r hplace
  | unstage t td => exact hold.sublist List.erase_sublist
  | _ => exact hold

theorem Order.step (order : Order es s) (inv : Inv es s) (allowed : orderly es s e)
    (move : Step cfg s e s') : Order (e :: es) s' := by
  have threads := thread_step order inv allowed.1 move
  have records : ∀ r, RecordStep r (record s r) e (record s' r) := by
    refine record_step inv (fun t td ht => ?_) move
    have haims := order.aims t
    rw [ht] at haims
    exact haims
  have hstaging : ∀ t, e = .stage t → s.pc t = .staging := by
    rintro t rfl
    cases move
    assumption
  constructor
  · exact fun r => sound_step order records threads r
  · exact fun u => aims_step order records threads u
  · exact fun u v r hu hv => alone_step order records threads hu hv
  · intro r
    rw [show s'.place r = (record s' r).place from rfl, (records r).unused (order.sound r)]
    rw [show (record s r).place = s.place r from rfl, order.unused r]
    simp [forall_and, and_comm, eq_comm]
  · exact fun r h => creating_step order inv allowed.1 move h
  · intro r
    rw [mem_listed inv.list.nodup, order.onList r]
    exact ((records r).listed (order.sound r)).symm
  · intro r
    rw [show s'.place r = (record s' r).place from rfl, (records r).released (order.sound r)]
    rw [show (record s r).place = s.place r from rfl, order.released r]
    simp [exists_or, or_comm, eq_comm]
  · intro r hr
    rcases (records r).stack hr with h | ⟨t, rfl⟩
    · obtain ⟨t, ht⟩ := order.stack r h
      exact ⟨t, List.mem_cons_of_mem _ ht⟩
    · exact ⟨t, List.mem_cons_self⟩
  · exact order_step order inv records allowed hstaging
  · exact fun r hr => idle_step order records threads hr
  · exact fun u r h => busy_step order records threads h
  · exact fun r hj ha => done_step order records threads hj ha

theorem order_initial (main : R) (self tid : R → K) : Order [] (initial main self tid) := by
  have hpc : ∀ t, (initial main self tid).pc t = if t = main then .loading else .unborn := by
    intro t
    simp only [initial, Function.update_apply]
  have hidle : ∀ t, joining ((initial main self tid).pc t) = .idle := by
    intro t
    rw [hpc]
    split_ifs <;> rfl
  constructor
  · intro r
    have hfits : Fits (standing ((initial main self tid).pc r)) .unused := by
      rw [hpc]
      split_ifs
      · rfl
      · exact .inl rfl
    have hnamed : ¬ Named (standing ((initial main self tid).pc r)) := by
      rw [hpc]
      split_ifs <;> exact id
    exact ⟨hfits, fun h => absurd rfl h, fun h => absurd h hnamed, fun h => absurd h (by simp [record, initial]),
      fun h => absurd h (by simp [record, initial])⟩
  · intro t
    rw [hidle]
    trivial
  · intro t u r ht
    rw [hidle] at ht
    exact absurd ht (by simp [target])
  · simp [initial]
  · intro r hr
    exact absurd hr (by simp [initial])
  · simp [listed, initial]
  · simp [initial]
  · simp [initial]
  · exact List.Pairwise.nil
  · exact fun r _ => ⟨rfl, rfl, rfl⟩
  · intro t r ht
    rw [hidle] at ht
    exact absurd ht (by simp [target])
  · simp [initial]

theorem run_order (run : Run (system cfg) orderly es s) : Order es s := by
  induction run with
  | init start =>
    obtain ⟨main, self, tid, rfl⟩ := start
    exact order_initial main self tid
  | step run allowed move ih => exact ih.step (run_inv run) allowed move

/-! ### The life of every record -/

/-- The states of a record: not made yet, being created, on the thread list, held by its
exiting thread, on the staged list, or released. -/
def Lies (es : List (Event R K)) (s : State R K) (r : R) : Place → Prop
  | .unused => ∀ t, .new t r ∉ es
  | .creating => s.pc r = .loaded ∨ ∃ t, Making (s.pc t) r
  | .listed => ∃ l, Linked s.next s.head l ∧ r ∈ l
  | .exiting => s.pc r = .removed ∨ s.pc r = .staging
  | .staged => ∃ l, Linked s.next s.tdStagedToFree l ∧ r ∈ l
  | .released => ∃ t, .unstage t r ∈ es

structure Lived (es : List (Event R K)) (s : State R K) : Prop where
  one : ∀ r, ∃! p, Lies es s r p
  list : ∃ l, Linked s.next s.head l ∧ l.Nodup
  staged : ∃ l, Linked s.next s.tdStagedToFree l ∧ l.Nodup
  apart : ∀ r l, Lies es s r .released →
    Linked s.next s.head l ∨ Linked s.next s.tdStagedToFree l → r ∉ l
  finds : ∀ t tid tg last cur, s.pc t = .cleaning tid tg last cur →
    ∃ r l, tg = some r ∧ Linked s.next cur l ∧ r ∈ l ∧ s.self r = tid
  belongs : ∀ t tg u, s.pc t = .cleaned tg u ∨ s.pc t = .freeing tg u → tg = some u
  stack : ∀ t tg u, s.pc t = .cleaned tg u → s.stackIsOurs u = true → s.mapped (.stack u) = true
  record : ∀ t tg u, s.pc t = .freeing tg u →
    s.mapped (.threadData u) = true ∧ s.mapped (.ptrList u) = true
  once : ∀ b, releases b es ≤ 1
  unjoined : ∀ r, s.isJoined r = false → Released es r 0 0
  released : ∀ r, s.isJoined r = true → (∀ t, target (joining (s.pc t)) ≠ some r) →
    Released es r 1 (ours s r)
  sound : ∀ t, joining (s.pc t) ≠ .lost

theorem Order.lies (order : Order es s) (inv : Inv es s) {p : Place} :
    Lies es s r p ↔ s.place r = p := by
  have hat := inv.position r
  cases p with
  | unused => exact (order.unused r).symm
  | creating =>
    refine ⟨?_, order.creating r⟩
    rintro (h | ⟨t, ⟨b, h⟩ | h⟩)
    · rw [h] at hat
      exact hat
    · exact (h ▸ inv.position t : At es s t (.created r b)).2.1
    · exact (h ▸ inv.position t : At es s t (.stacked r)).2.1
  | listed =>
    rw [← order.onList r]
    constructor
    · rintro ⟨l, hl, hr⟩
      rwa [hl.unique inv.list] at hr
    · exact fun hr => ⟨_, inv.list, hr⟩
  | exiting =>
    constructor
    · rintro (h | h) <;> rw [h] at hat <;> exact hat
    · intro hp
      have hfits := (order.sound r).place
      simp only [record, hp] at hfits
      change s.pc r = .removed ∨ s.pc r = .staging
      generalize s.pc r = m at hfits ⊢
      cases m with
      | removed => exact .inl rfl
      | staging => exact .inr rfl
      | _ => exact absurd hfits (by simp [standing, Fits])
  | staged =>
    rw [← inv.onStaged r]
    constructor
    · rintro ⟨l, hl, hr⟩
      rwa [hl.unique inv.staged] at hr
    · exact fun hr => ⟨_, inv.staged, hr⟩
  | released => exact (order.released r).symm

theorem Order.once (order : Order es s) (r : R) : ∃ n k, n ≤ 1 ∧ k ≤ 1 ∧ Released es r n k := by
  have hours : ours s r ≤ 1 := by
    simp only [ours]
    split_ifs <;> omega
  by_cases hj : s.isJoined r = true
  · by_cases hbusy : ∃ t, target (joining (s.pc t)) = some r
    · obtain ⟨t, ht⟩ := hbusy
      refine ⟨0, _, by omega, ?_, order.busy t r ht⟩
      cases joining (s.pc t) with
      | freeing => exact hours
      | _ => exact Nat.zero_le _
    · exact ⟨1, _, le_rfl, hours, (order.done r hj (not_exists.mp hbusy)).2⟩
  · exact ⟨0, 0, by omega, by omega, order.idle r (by simpa using hj)⟩

/-- Every record leads its life to the end, once. -/
theorem thread_lifecycle (run : Run (system cfg) orderly es s) : Lived es s := by
  have inv := run_inv run
  have order := run_order run
  have hmade : ∀ r, s.place r ≠ .unused → ∃ t, .new t r ∈ es := by
    intro r hr
    by_contra hnone
    exact hr ((order.unused r).mpr (not_exists.mp hnone))
  constructor
  · exact fun r => ⟨s.place r, (order.lies inv).mpr rfl, fun p hp => ((order.lies inv).mp hp).symm⟩
  · exact ⟨_, inv.list, inv.list.nodup⟩
  · exact ⟨_, inv.staged, inv.staged.nodup⟩
  · intro r l hr hl hmem
    have hplace := (order.lies inv).mp hr
    rcases hl with hl | hl
    · have := (order.lies inv (p := .listed)).mp ⟨l, hl, hmem⟩
      rw [hplace] at this
      exact absurd this (by simp)
    · have := (order.lies inv (p := .staged)).mp ⟨l, hl, hmem⟩
      rw [hplace] at this
      exact absurd this (by simp)
  · exact fun t tid tg last cur h => order.ahead inv h
  · rintro t tg u (h | h)
    · exact (h ▸ order.aims t : Aims s (joining (.cleaned tg u))).1
    · exact (h ▸ order.aims t : Aims s (joining (.freeing tg u))).1
  · intro t tg u h hours
    obtain ⟨htg, -⟩ : Aims s (joining (.cleaned tg u)) := h ▸ order.aims t
    have hbusy := order.busy t u (by rw [h]; exact htg)
    rw [h] at hbusy
    obtain ⟨v, made⟩ := order.stack u hours
    rw [inv.mapped]
    exact blocks_stack made hbusy.stack
  · intro t tg u h
    obtain ⟨htg, hplace, -⟩ : Aims s (joining (.freeing tg u)) := h ▸ order.aims t
    have hbusy := order.busy t u (by rw [h]; exact htg)
    obtain ⟨v, made⟩ := hmade u (by simp [hplace])
    rw [inv.mapped]
    exact blocks_record made hbusy.threadData
  · intro b
    cases b with
    | threadData r | ptrList r | stack r =>
      obtain ⟨n, k, hn, hk, h⟩ := order.once r
      first | exact h.threadData.trans_le hn | exact h.ptrList.trans_le hn | exact h.stack.trans_le hk
  · exact order.idle
  · exact fun r hj ha => (order.done r hj ha).2
  · intro t h
    have haims := order.aims t
    rw [h] at haims
    exact haims

/-! ### An id that is given away too early -/

section Runs
variable {promise : List (Event ℕ ℕ) → State ℕ ℕ → Event ℕ ℕ → Prop}
  (free : ∀ es s e, lawful es s e → (∀ t, e ≠ .stage t) → promise es s e)
  {es : List (Event ℕ ℕ)} {s : State ℕ ℕ}

/-- Thread `td` has been created, on a stack of its creator's, and runs. -/
def created (s : State ℕ ℕ) (td tid : ℕ) : State ℕ ℕ :=
  { s with
    pc := Function.update s.pc td .user
    next := Function.update s.next td s.head
    self := Function.update s.self td tid
    refCount := Function.update s.refCount td 1
    isActive := Function.update s.isActive td true
    head := some td
    threadCount := s.threadCount + 1
    mapped := setRecord s.mapped td true
    tid := Function.update s.tid td tid
    detached := Function.update s.detached td false
    place := Function.update s.place td .listed }

include free in
theorem created_run (run : Run (system cfg) promise es s) (t td tid : ℕ) (user : s.pc t = .user)
    (below : ¬ (Reclaim.maxThreadCount : ℤ) < s.threadCount) (lock : s.listLock = none)
    (unborn : s.pc td = .unborn) (unused : s.place td = .unused)
    (fresh : ∀ r, r ≠ td → s.pc r ≠ .unborn → s.pc r ≠ .terminated → s.tid r ≠ tid) :
    ∃ es', Run (system cfg) promise es' (created s td tid) := by
  have hne : td ≠ t := by
    rintro rfl
    rw [user] at unborn
    exact absurd unborn (by simp)
  have run := run.step (free _ _ (.count t) trivial (by simp)) (.count s t true user below)
  have run := run.step (free _ _ (.new t td) trivial (by simp))
    (.new _ t td true (by simp [State.move]) (by simpa [State.move, hne] using unborn) unused)
  have run := run.step (free _ _ (.other) trivial (by simp))
    (.userStack _ t td (by simp [State.move]))
  have run := run.step (free _ _ (.add t td) trivial (by simp))
    (.add _ t td (by simp [State.move]) lock)
  have run := run.step (free _ _ (.spawn t td tid) (fun r hb hd => ?_) (by simp))
    (.spawn _ t td tid false (by simp [State.move]))
  have run := run.step (free _ _ (.other) trivial (by simp)) (.base _ td (by simp))
  refine ⟨_, run.of_eq ?_⟩
  · have hpc : Function.update s.pc t .user = s.pc := by rw [← user, Function.update_eq_self]
    simp only [State.move, created, Function.update_idem, Function.update_self, hpc]
  · have hrtd : r ≠ td := by
      rintro rfl
      exact hb (by simpa [State.move, hne] using unborn)
    by_cases hrt : r = t
    · exact fresh r hrtd (by simp [hrt, user]) (by simp [hrt, user])
    · exact fresh r hrtd (by simpa [State.move, hrt] using hb) (by simpa [State.move, hrt] using hd)

/-- Thread `t`, the first on the list, has exited. -/
def gone (s : State ℕ ℕ) (t : ℕ) : State ℕ ℕ :=
  { s with
    pc := Function.update s.pc t .terminated
    next := Function.update s.next t s.tdStagedToFree
    refCount := Function.update s.refCount t 0
    isActive := Function.update s.isActive t false
    head := s.next t
    tdStagedToFree := some t
    threadCount := s.threadCount - 1
    place := Function.update s.place t .staged }

include free in
theorem gone_run (run : Run (system cfg) promise es s) (t : ℕ) (user : s.pc t = .user)
    (lock : s.listLock = none) (stagedLock : s.stagedLock = none) (first : s.head = some t)
    (last : s.refCount t = 1)
    (stage : ∀ es' s', s'.pc t = .staging → s'.self = s.self → s'.detached = s.detached →
      s'.place = Function.update s.place t .exiting → promise es' s' (.stage t)) :
    ∃ es', Run (system cfg) promise es' (gone s t) := by
  have run := run.step (free _ _ .other trivial (by simp)) (.exit s t user)
  have run := run.step (free _ _ (.remove t) trivial (by simp))
    (.removeHead _ t (by simp [State.move]) lock first)
  have run := run.step (free _ _ .other trivial (by simp))
    (.decrRef _ t (by simp [State.move]))
  have run := run.step (stage _ _ (by simp [State.move, last]) rfl rfl rfl)
    (.stage _ t (by simp [State.move, last]) stagedLock)
  have run := run.step (free _ _ (.uncount t) trivial (by simp)) (.uncount _ t (by simp [State.move]))
  have run := run.step (free _ _ .other trivial (by simp)) (.leave _ t (by simp [State.move]))
  refine ⟨_, run.of_eq ?_⟩
  simp only [State.move, gone, Function.update_idem, last, sub_self]

/-- The main thread, alone. -/
def started : State ℕ ℕ :=
  { initial 0 id id with
    pc := Function.update (fun _ => .unborn) 0 .user
    refCount := Function.update (fun _ => 0) 0 1
    isActive := Function.update (fun _ => false) 0 true
    head := some 0
    mapped := setRecord (fun _ => false) 0 true
    place := Function.update (fun _ => .unused) 0 .listed }

include free in
theorem started_run (cfg : Config) : ∃ es, Run (system cfg) promise es started := by
  have run : Run (system cfg) promise [] (initial 0 id id) := .init ⟨0, id, id, rfl⟩
  have run := run.step (free _ _ (.new 0 0) trivial (by simp)) (.load _ 0 rfl)
  have run := run.step (free _ _ (.add 0 0) trivial (by simp)) (.loadAdd _ 0 rfl rfl)
  have run := run.step (free _ _ .other trivial (by simp)) (.base _ 0 rfl)
  refine ⟨_, run.of_eq ?_⟩
  simp only [State.move, started, initial, State.mk.injEq, Function.update_idem, and_true]
  exact ⟨trivial, Function.update_eq_self 0 fun _ => none, Function.update_eq_self 0 id⟩

end Runs

/-- A created thread that exits and is joined: its record is released, once. -/
theorem thread_lifecycle_joined :
    ∃ (cfg : Config) (es : List (Event ℕ ℕ)) (s : State ℕ ℕ), Run (system cfg) orderly es s ∧
      s.isJoined 1 = true ∧ Lived es s ∧ releases (.threadData 1) es = 1 := by
  have free : ∀ (es : List (Event ℕ ℕ)) (s : State ℕ ℕ) (e : Event ℕ ℕ), lawful es s e →
      (∀ t, e ≠ .stage t) → orderly es s e := fun _ _ _ h hne => ⟨h, fun t he => absurd he (hne t)⟩
  obtain ⟨es, run⟩ := started_run free ⟨true, 1024, 10, by simp⟩
  obtain ⟨es, run⟩ := created_run free run 0 1 1 rfl (by decide) rfl rfl rfl fun r _ hb _ => by
    have hr : r = 0 := by simpa [started, Function.update_apply] using hb
    simp [hr, started, initial]
  obtain ⟨es, run⟩ := gone_run free run 1 rfl rfl rfl rfl rfl fun es' s' _ _ _ hplace => by
    refine ⟨trivial, fun t _ r hr => absurd hr ?_⟩
    simp only [hplace, created, started, Function.update_apply]
    split_ifs <;> simp
  have run := run.step (free _ _ (.join 0 1) rfl (by simp)) (.join _ 0 1 rfl rfl rfl)
  have run := run.step (free _ _ .other trivial (by simp)) (.clean _ 0 1 (some 1) rfl rfl)
  have run := run.step (free _ _ (.unstage 0 1) trivial (by simp))
    (.cleanHead _ 0 1 (some 1) 1 rfl rfl rfl)
  have run := run.step (free _ _ .other trivial (by simp))
    (.cleanNoStack _ 0 (some 1) 1 rfl (by decide) rfl)
  have run := run.step (free _ _ (.free 0 1) trivial (by simp))
    (.cleanFree _ 0 (some 1) 1 rfl fun _ => rfl)
  have lived := thread_lifecycle run
  refine ⟨_, _, _, run, rfl, lived, (lived.released 1 rfl fun t => ?_).threadData⟩
  simp only [State.move, gone, created, started, Function.update_apply]
  split_ifs <;> simp [joining, target]

/-- Thread 0 has joined thread 2, whose id then goes to thread 3; thread 3 stages its record
before thread 0 has looked for the one of thread 2, and thread 0 takes the wrong one. -/
theorem thread_lifecycle_mistaken :
    ∃ (cfg : Config) (es : List (Event ℕ ℕ)) (s : State ℕ ℕ), Run (system cfg) lawful es s ∧
      s.pc 0 = .cleaned (some 2) 3 ∧ ¬ Lived es s := by
  have free : ∀ (es : List (Event ℕ ℕ)) (s : State ℕ ℕ) (e : Event ℕ ℕ), lawful es s e →
      (∀ t, e ≠ .stage t) → lawful es s e := fun _ _ _ h _ => h
  obtain ⟨es, run⟩ := started_run free ⟨true, 1024, 10, by simp⟩
  obtain ⟨es, run⟩ := created_run free run 0 1 1 rfl (by decide) rfl rfl rfl fun r _ hb _ => by
    have hr : r = 0 := by simpa [started, Function.update_apply] using hb
    simp [hr, started, initial]
  obtain ⟨es, run⟩ := created_run free run 0 2 2 rfl (by decide) rfl rfl rfl fun r _ hb _ => by
    simp only [created, started, initial, Function.update_apply, id_eq] at hb ⊢
    split_ifs at hb ⊢ <;> simp_all
  obtain ⟨es, run⟩ := gone_run free run 2 rfl rfl rfl rfl rfl fun _ _ _ _ _ _ => trivial
  have run := run.step (free _ _ (.join 0 2) rfl (by simp)) (.join _ 0 2 rfl rfl rfl)
  obtain ⟨es, run⟩ := created_run free run 1 3 2 rfl (by decide) rfl rfl rfl fun r _ hb hd => by
    simp only [State.move, gone, created, started, initial, Function.update_apply, id_eq] at hb hd ⊢
    split_ifs at hb hd ⊢ <;> simp_all
  obtain ⟨es, run⟩ := gone_run free run 3 rfl rfl rfl rfl rfl fun _ _ _ _ _ _ => trivial
  have run := run.step (free _ _ .other trivial (by simp)) (.clean _ 0 2 (some 2) rfl rfl)
  have run := run.step (free _ _ (.unstage 0 3) trivial (by simp))
    (.cleanHead _ 0 2 (some 2) 3 rfl rfl rfl)
  refine ⟨_, _, _, run, rfl, fun lived => ?_⟩
  exact absurd (lived.belongs 0 (some 2) 3 (.inl rfl)) (by simp)

end ThreadScan.Records
