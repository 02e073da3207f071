import Mathlib

/-! Circular doubly linked lists of cells that carry their own links, and walks along the links
until a test succeeds. -/
namespace ThreadScan.CircularList

variable {α : Type*} {next prev next' prev' : α → α} {a c m : α} {l r : List α}

/-- The cells are neighbours. -/
def Link (next prev : α → α) (x y : α) : Prop := next x = y ∧ prev y = x

/-- The links run through the listed cells in both directions, from the last one back to the
first. -/
def Circular (next prev : α → α) : List α → Prop
  | [] => True
  | a :: l => List.IsChain (Link next prev) (a :: (l ++ [a]))

theorem Circular.single (h : next a = a) (g : prev a = a) : Circular next prev [a] := by
  simp [Circular, Link, h, g]

/-- A ring has no first cell. -/
theorem Circular.rotate (h : Circular next prev (l ++ r)) : Circular next prev (r ++ l) := by
  cases l with
  | nil => simpa using h
  | cons a l =>
    cases r with
    | nil => simpa using h
    | cons c r =>
      simp only [Circular, List.cons_append, List.append_assoc] at h ⊢
      rw [List.isChain_cons_split] at h ⊢
      exact ⟨h.2, h.1⟩

theorem Circular.congr (h : Circular next prev l) (hnext : ∀ x ∈ l, next' x = next x)
    (hprev : ∀ x ∈ l, prev' x = prev x) : Circular next' prev' l := by
  cases l with
  | nil => trivial
  | cons a l =>
    refine List.IsChain.imp_of_mem_imp (fun x y hx hy hxy => ?_) h
    have hmem : ∀ z ∈ a :: (l ++ [a]), z ∈ a :: l := by
      intro z hz
      simp only [List.mem_cons, List.mem_append, List.not_mem_nil, or_false] at hz ⊢
      tauto
    exact ⟨(hnext x (hmem x hx)).trans hxy.1, (hprev y (hmem y hy)).trans hxy.2⟩

/-- The first cell follows the last one. -/
theorem Circular.last (h : Circular next prev (l ++ [c])) (head : a ∈ (l ++ [c]).head?) :
    Link next prev c a := by
  cases l with
  | nil =>
    obtain rfl : c = a := by simpa using head
    simpa [Circular] using h
  | cons b l =>
    obtain rfl : b = a := by simpa using head
    simp only [Circular, List.cons_append, List.append_assoc] at h
    rw [List.isChain_cons_split] at h
    simpa using h.2

/-- The predecessor of the first cell is the last one. -/
theorem Circular.prev_head (h : Circular next prev (a :: l)) : prev a = (a :: l).getLast (by simp) := by
  obtain ⟨s, c, hs⟩ : ∃ s c, a :: l = s ++ [c] :=
    ⟨_, _, (List.dropLast_append_getLast (List.cons_ne_nil a l)).symm⟩
  have hlast := Circular.last (hs ▸ h) (a := a) (by simp [← hs])
  simp only [hs, List.getLast_append_singleton]
  exact hlast.2

section Update
variable [DecidableEq α]

/-- A new cell between the last and the first one. -/
theorem Circular.insert (h : Circular next prev (c :: l)) (nodup : (c :: l).Nodup) (hm : m ∉ c :: l) :
    Circular (Function.update (Function.update next m c) (prev c) m)
      (Function.update (Function.update prev m (prev c)) c m) (c :: (l ++ [m])) := by
  obtain ⟨s, z, hs⟩ : ∃ s z, c :: l = s ++ [z] :=
    ⟨_, _, (List.dropLast_append_getLast (List.cons_ne_nil c l)).symm⟩
  obtain ⟨hnext, hprev⟩ : Link next prev z c := Circular.last (hs ▸ h) (by simp [← hs])
  have hz : z ∈ c :: l := by simp [hs]
  have hzm : m ≠ z := fun he => hm (he ▸ hz)
  have hcm : m ≠ c := fun he => hm (he ▸ List.mem_cons_self)
  have hchain : List.IsChain (Link next prev) (s ++ [z]) := by
    rw [← hs]
    have hall : List.IsChain (Link next prev) ((c :: l) ++ [c]) := h
    exact hall.left_of_append
  have hgoal : c :: (l ++ [m] ++ [c]) = s ++ z :: m :: [c] := by
    rw [← List.cons_append, ← List.cons_append, hs]
    simp
  rw [Circular, hgoal, List.isChain_append_cons_cons, hprev]
  refine ⟨?_, ⟨by rw [Function.update_self], ?_⟩, ?_⟩
  · -- the links of the old cells stay, but for that of the last one
    refine hchain.imp_of_mem_tail_imp fun x y hx hy hxy => ?_
    rw [← hs] at hx hy
    have hyc : y ≠ c := fun he => (List.nodup_cons.mp nodup).1 (he ▸ hy)
    have hxz : x ≠ z := by
      rintro rfl
      exact hyc (hxy.1.symm.trans hnext)
    have hxm : x ≠ m := fun he => hm (he ▸ hx)
    have hym : y ≠ m := fun he => hm (he ▸ List.mem_of_mem_tail hy)
    exact ⟨by rw [Function.update_of_ne hxz, Function.update_of_ne hxm, hxy.1],
      by rw [Function.update_of_ne hyc, Function.update_of_ne hym, hxy.2]⟩
  · rw [Function.update_of_ne hcm, Function.update_self]
  · rw [List.isChain_pair]
    exact ⟨by rw [Function.update_of_ne hzm, Function.update_self], by rw [Function.update_self]⟩

/-- The first cell leaves a ring of at least two. -/
theorem Circular.remove (h : Circular next prev (c :: a :: l)) (nodup : (c :: a :: l).Nodup) :
    Circular (Function.update next (prev c) (next c)) (Function.update prev (next c) (prev c))
      (a :: l) := by
  obtain ⟨s, z, hs⟩ : ∃ s z, a :: l = s ++ [z] :=
    ⟨_, _, (List.dropLast_append_getLast (List.cons_ne_nil a l)).symm⟩
  obtain ⟨hnext, hprev⟩ : Link next prev z c := by
    refine Circular.last (l := c :: s) ?_ rfl
    rw [List.cons_append, ← hs]
    exact h
  obtain ⟨hca, hchain⟩ := List.isChain_cons_cons.mp h
  obtain ⟨hc, hnodup⟩ := List.nodup_cons.mp nodup
  have hgoal : a :: (l ++ [a]) = s ++ z :: [a] := by
    rw [← List.cons_append, hs]
    simp
  have hold : List.IsChain (Link next prev) (s ++ [z]) := by
    rw [← hs]
    have hall : List.IsChain (Link next prev) ((a :: l) ++ [c]) := hchain
    exact hall.left_of_append
  rw [Circular, hgoal, List.isChain_split, hprev, hca.1]
  refine ⟨?_, ?_⟩
  · refine hold.imp_of_mem_tail_imp fun x y hx hy hxy => ?_
    rw [← hs] at hx hy
    have hya : y ≠ a := fun he => (List.nodup_cons.mp hnodup).1 (he ▸ hy)
    have hxz : x ≠ z := by
      rintro rfl
      exact hc (hxy.1.symm.trans hnext ▸ List.mem_of_mem_tail hy)
    exact ⟨by rw [Function.update_of_ne hxz, hxy.1], by rw [Function.update_of_ne hya, hxy.2]⟩
  · rw [List.isChain_pair]
    exact ⟨by rw [Function.update_self], by rw [Function.update_self]⟩

end Update

/-! ### Walks -/

/-- Along the links from `a` to the first cell that passes the test, if that takes less than the
given number of steps. -/
def walk (next : α → α) (stop : α → Bool) : ℕ → α → Option α
  | 0, _ => none
  | fuel + 1, a => if stop a then some a else walk next stop fuel (next a)

theorem walk_succ {stop : α → Bool} {fuel : ℕ} (h : walk next stop fuel a = some c) :
    walk next stop (fuel + 1) a = some c := by
  induction fuel generalizing a with
  | zero => cases h
  | succ fuel ih =>
    rw [walk] at h ⊢
    split_ifs at h ⊢ with ha
    · exact h
    · exact ih h

theorem walk_mono {stop : α → Bool} {fuel fuel' : ℕ} (le : fuel ≤ fuel')
    (h : walk next stop fuel a = some c) : walk next stop fuel' a = some c := by
  induction fuel', le using Nat.le_induction with
  | base => exact h
  | succ n _ ih => exact walk_succ ih

/-- A walk ends in one cell only. -/
theorem walk_unique {stop : α → Bool} {fuel fuel' : ℕ} {c' : α}
    (h : walk next stop fuel a = some c) (g : walk next stop fuel' a = some c') : c = c' := by
  have hlong := walk_mono (Nat.le_max_left fuel fuel') h
  rw [walk_mono (Nat.le_max_right fuel fuel') g] at hlong
  exact (Option.some.inj hlong).symm

/-- A walk along linked cells finds the first one that passes. -/
theorem walk_finds {stop : α → Bool} (chain : List.IsChain (Link next prev) (l ++ [c]))
    (pass : stop c = true) (fail : ∀ x ∈ l, stop x = false) (head : a ∈ (l ++ [c]).head?) :
    walk next stop (l.length + 1) a = some c := by
  induction l generalizing a with
  | nil =>
    obtain rfl : c = a := by simpa using head
    simp [walk, pass]
  | cons b l ih =>
    obtain rfl : b = a := by simpa using head
    rw [List.length_cons, walk, if_neg (by simp [fail b])]
    rw [List.cons_append, List.isChain_cons] at chain
    refine ih chain.2 (fun x hx => fail x (List.mem_cons_of_mem _ hx)) ?_
    obtain ⟨y, hy⟩ : ∃ y, y ∈ (l ++ [c]).head? := by cases l <;> simp
    rwa [(chain.1 y hy).1]

/-- A walk around a ring finds the first cell that passes, if there is one. -/
theorem Circular.walk_finds {stop : α → Bool} (h : Circular next prev l) (head : a ∈ l.head?)
    (pass : ∃ x ∈ l, stop x = true) :
    ∃ s c t, l = s ++ c :: t ∧ stop c = true ∧ (∀ x ∈ s, stop x = false) ∧
      walk next stop (s.length + 1) a = some c := by
  obtain ⟨c, hc⟩ := Option.isSome_iff_exists.mp (List.find?_isSome.mpr pass)
  obtain ⟨hstop, s, t, rfl, hfail⟩ := List.find?_eq_some_iff_append.mp hc
  have hfail : ∀ x ∈ s, stop x = false := by simpa using hfail
  have hchain : List.IsChain (Link next prev) (s ++ [c]) := by
    cases s with
    | nil => exact List.isChain_singleton c
    | cons b s =>
      simp only [Circular, List.cons_append, List.append_assoc] at h
      exact (List.isChain_cons_split.mp h).1
  refine ⟨s, c, t, rfl, hstop, hfail, ThreadScan.CircularList.walk_finds hchain hstop hfail ?_⟩
  cases s <;> simpa using head

end ThreadScan.CircularList
