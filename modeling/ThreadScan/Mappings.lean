import ThreadScan.Alloc

/-! What the operating system has mapped for the library (`alloc.c`). Every range belongs to a
block that is tracked, to a page of metadata nodes or to a call that is under way; and an address
of no such range is sought around the ring of blocks without end. -/
namespace ThreadScan.Mappings
open CircularList Transition Metadata Alloc

section Ring
variable {α : Type*} {next prev : α → α} {a c : α} {l : List α} {stop : α → Bool}

/-- The links of a ring do not leave it. -/
theorem circular_next_mem (h : Circular next prev l) (hc : c ∈ l) : next c ∈ l := by
  obtain ⟨s, t, rfl⟩ := List.append_of_mem hc
  have hring := h.rotate
  cases t with
  | nil =>
    cases s with
    | nil =>
      simp only [List.nil_append, Circular, List.isChain_cons_cons] at h
      rw [h.1.1]
      simp
    | cons b s =>
      simp only [List.cons_append, List.nil_append, Circular, List.isChain_cons_cons] at hring
      rw [hring.1.1]
      simp
  | cons b t =>
    simp only [List.cons_append, Circular, List.isChain_cons_cons] at hring
    rw [hring.1.1]
    simp

/-- A walk around a ring in which no cell passes the test does not end. -/
theorem walk_never (h : Circular next prev l) (fail : ∀ x ∈ l, stop x = false) (ha : a ∈ l)
    (fuel : ℕ) : walk next stop fuel a = none := by
  induction fuel generalizing a with
  | zero => rfl
  | succ fuel ih =>
    unfold walk
    rw [fail a ha, if_neg Bool.false_ne_true]
    exact ih (circular_next_mem h ha)

end Ring

variable {T : Type*} [DecidableEq T] {es : List (Event T)} {s s' : State T} {ns fs : List ℕ} {t : T}
  {n a k fuel : ℕ} {c : Pc} {l l' : Lists}

/-! ### What the walks leave alone -/

theorem metadataDoInsert_keeps (h : metadataDoInsert l n fuel = some l') :
    l'.addr = l.addr ∧ l'.length = l.length := by
  unfold metadataDoInsert at h
  split_ifs at h
  · obtain rfl := Option.some.inj h
    exact ⟨rfl, rfl⟩
  · obtain rfl := Option.some.inj h
    exact ⟨rfl, rfl⟩
  · obtain ⟨curr, -, rfl⟩ := Option.map_eq_some_iff.mp h
    split_ifs <;> exact ⟨rfl, rfl⟩

theorem metadataRemove_keeps (h : metadataRemove l a fuel = some (n, l')) :
    l'.addr = l.addr ∧ l'.length = l.length := by
  unfold metadataRemove at h
  obtain ⟨curr, -, hl⟩ := Option.map_eq_some_iff.mp h
  obtain ⟨rfl, rfl⟩ := Prod.mk.inj hl
  constructor
  · dsimp only
    split_ifs <;> rfl
  · dsimp only
    split_ifs <;> rfl

/-! ### Removals -/

/-- `metadata_remove` does not end on an address that no block of the ring has. -/
theorem metadataRemove_never (h : WellFormed l ns) (ne : l.allocList ≠ 0)
    (unknown : ∀ x ∈ ns, l.addr x ≠ a) : metadataRemove l a fuel = none := by
  have hstart : l.allocList ∈ ns := by
    cases ns with
    | nil => exact absurd h.start ne
    | cons c r =>
      rw [h.start]
      simp
  unfold metadataRemove
  rw [walk_never h.ring (fun x hx => decide_eq_false (unknown x hx)) hstart]
  rfl

/-- In every run the walk of `metadata_remove` ends on exactly the addresses that are tracked:
an address that was never returned, or was released before, keeps the caller in it for ever. The
ring is not empty, as the assert says. -/
theorem remove_returns (run : Run system ownedRelease es s) (nonempty : s.lists.allocList ≠ 0)
    (a : ℕ) : (∃ fuel r, metadataRemove s.lists a fuel = some r) ↔
      (∃ k, Inserted a k es) ∨ a ∈ pages es := by
  obtain ⟨ns, fs, h⟩ := run_tracked run
  have hcontents : (∃ n ∈ ns, s.lists.addr n = a) ↔ (∃ k, Inserted a k es) ∨ a ∈ pages es := by
    constructor
    · rintro ⟨n, hn, hna⟩
      rcases (h.contents a _).mp ⟨n, hn, hna, rfl⟩ with hins | ⟨hp, -⟩
      · exact .inl ⟨_, hins⟩
      · exact .inr hp
    · rintro (⟨k, hins⟩ | hp)
      · obtain ⟨n, hn, hna, -⟩ := (h.contents a k).mpr (.inl hins)
        exact ⟨n, hn, hna⟩
      · obtain ⟨n, hn, hna, -⟩ := (h.contents a allocBlocksize).mpr (.inr ⟨hp, rfl⟩)
        exact ⟨n, hn, hna⟩
  rw [← hcontents]
  constructor
  · rintro ⟨fuel, r, hr⟩
    by_contra hnone
    have hunknown : ∀ x ∈ ns, s.lists.addr x ≠ a := fun x hx hxa => hnone ⟨x, hx, hxa⟩
    rw [metadataRemove_never h.well nonempty hunknown] at hr
    cases hr
  · intro htracked
    obtain ⟨-, -, -, -, -, hends, -⟩ := metadataRemove_spec h.well htracked
    exact hends

/-! ### Mapped ranges -/

/-- The range is that of a block which a call holds: it is mapped and not on the list yet, or
off the list and not unmapped yet. -/
def Pending (s : State T) (a k : ℕ) : Prop :=
  ∃ t, ∃ n ∈ (s.pc t).range, s.lists.addr n = a ∧ s.lists.length n = k

def Accounted (es : List (Event T)) (s : State T) (a k : ℕ) : Prop :=
  Inserted a k es ∨ a ∈ pages es ∧ k = allocBlocksize ∨ Pending s a k

/-- A step that takes no block out of a thread's hands. -/
theorem Pending.keep (h : Pending s a k) (hpc : s'.pc = Function.update s.pc t c)
    (range : ∀ n ∈ (s.pc t).range, n ∈ c.range)
    (addr : ∀ u, ∀ n ∈ (s.pc u).range, s'.lists.addr n = s.lists.addr n)
    (length : ∀ u, ∀ n ∈ (s.pc u).range, s'.lists.length n = s.lists.length n) :
    Pending s' a k := by
  obtain ⟨u, n, hn, rfl, rfl⟩ := h
  refine ⟨u, n, ?_, addr u n hn, length u n hn⟩
  rw [hpc]
  by_cases hu : u = t
  · subst hu
    rw [Function.update_self]
    exact range n hn
  · rw [Function.update_of_ne hu]
    exact hn

omit [DecidableEq T] in
/-- `metadata_remove` returns the node of the block. -/
theorem removed_block (h : Tracked es s ns fs) (removes : metadataRemove s.lists a fuel = some (n, l))
    (hins : Inserted a k es) : s.lists.addr n = a ∧ s.lists.length n = k := by
  obtain ⟨c, hc, hcp, hca, hck⟩ := (h.blocks a k).mp hins
  obtain ⟨xs, c', ys, rfl, hca', -, hspec⟩ := metadataRemove_spec h.well ⟨c, hc, hca⟩
  obtain rfl : c = c' := h.well.addr_inj hc (by simp) (hca.trans hca'.symm)
  obtain ⟨rfl, -, -⟩ := hspec (h.others hcp) fuel n l removes
  exact ⟨hca, hck⟩

/-- The invariant. -/
structure Covered (es : List (Event T)) (s : State T) : Prop where
  mapped : ∀ r ∈ s.mapped, Accounted es s r.1 r.2
  spoken : ∀ a k, Inserted a k es → Owned a es ∨ ∃ t, s.pc t = .remove a

/-- A step that maps nothing, and changes neither the list nor what a thread holds. -/
theorem Covered.still (h : Covered es s) {e : Event T} (hpc : s'.pc = Function.update s.pc t c)
    (range : ∀ n ∈ (s.pc t).range, n ∈ c.range)
    (addr : ∀ u, ∀ n ∈ (s.pc u).range, s'.lists.addr n = s.lists.addr n)
    (length : ∀ u, ∀ n ∈ (s.pc u).range, s'.lists.length n = s.lists.length n)
    (inserted : ∀ a k, Inserted a k es → Inserted a k (e :: es))
    (paged : ∀ p ∈ pages es, p ∈ pages (e :: es)) (r : ℕ × ℕ) (hr : r ∈ s.mapped) :
    Accounted (e :: es) s' r.1 r.2 := by
  rcases h.mapped r hr with hins | ⟨hp, hk⟩ | hpending
  · exact .inl (inserted _ _ hins)
  · exact .inr (.inl ⟨paged _ hp, hk⟩)
  · exact .inr (.inr (hpending.keep hpc range addr length))

/-- A thread that was not at a removal is not the one that removes the block. -/
theorem remover_update (h : ∀ a, s.pc t ≠ .remove a) (hr : ∃ u, s.pc u = .remove a) :
    ∃ u, Function.update s.pc t c u = .remove a := by
  obtain ⟨u, hu⟩ := hr
  refine ⟨u, ?_⟩
  have hut : u ≠ t := by
    rintro rfl
    exact h a hu
  rwa [Function.update_of_ne hut]

theorem Covered.step {e : Event T} (h : Covered es s) (htracked : Tracked es s ns fs)
    (move : Step s e s') : Covered (e :: es) s' := by
  cases move with
  | call t k hpc =>
    have hrange : (s.pc t).range = [] := by simp [hpc, Pc.range]
    refine ⟨h.still rfl (by simp [hrange]) (fun _ _ _ => rfl) (fun _ _ _ => rfl)
      (fun _ _ hins => hins) fun _ hp => hp, ?_⟩
    intro a j hins
    exact (h.spoken a j hins).imp_right (remover_update (by simp [hpc]))
  | take t k n fuel p l hpc nodes new =>
    have hrange : (s.pc t).range = [] := by simp [hpc, Pc.range]
    obtain ⟨m, cs, -, -, hnew⟩ := metadataNew_take htracked.chain nodes
    obtain ⟨rfl, rfl⟩ := Prod.mk.inj (Option.some.inj ((hnew p fuel).symm.trans new))
    refine ⟨h.still rfl (by simp [hrange]) (fun _ _ _ => rfl) (fun _ _ _ => rfl)
      (fun _ _ hins => hins) fun _ hp => hp, ?_⟩
    intro a j hins
    exact (h.spoken a j hins).imp_right (remover_update (by simp [hpc]))
  | page t k n fuel p l hpc empty maps new =>
    have hrange : (s.pc t).range = [] := by simp [hpc, Pc.range]
    obtain ⟨xs, ys, -, -, hnew⟩ := metadataNew_page htracked.well empty maps.1
      (fun m hm => htracked.maps_apart maps (.inl hm))
      fun m hm hmem => htracked.page_fresh maps hm ((htracked.held m).mp ⟨.alloc, hmem⟩)
    obtain ⟨-, -, haddr, hlength⟩ := hnew fuel n l new
    -- the page is in no thread's hands
    have hne : ∀ u, ∀ m ∈ (s.pc u).range, m ≠ p := by
      rintro u m hm rfl
      refine htracked.page_fresh maps ⟨0, le_refl 0, by omega, rfl⟩ ((htracked.held m).mp ?_)
      exact ⟨.hand u, Pc.hand_of_range hm⟩
    refine ⟨?_, ?_⟩
    · intro r hr
      rcases List.mem_cons.mp hr with rfl | hr
      · exact .inr (.inl ⟨List.mem_cons_self, rfl⟩)
      · refine h.still (e := .page t p) rfl (by simp [hrange]) (fun u m hm => ?_) (fun u m hm => ?_)
          (fun _ _ hins => hins) (fun _ hp => List.mem_cons_of_mem _ hp) r hr
        · rw [haddr, Function.update_of_ne (hne u m hm)]
        · rw [hlength, Function.update_of_ne (hne u m hm)]
    · intro a j hins
      exact (h.spoken a j hins).imp_right (remover_update (by simp [hpc]))
  | map t n k a hpc maps =>
    have hrange : (s.pc t).range = [] := by simp [hpc, Pc.range]
    have hnot := htracked.not_ranged (n := n) (by simp [hpc, Pc.hand]) hrange
    have hne : ∀ u, ∀ m ∈ (s.pc u).range, m ≠ n := by
      rintro u m hm rfl
      exact hnot (.inr ⟨u, hm⟩)
    refine ⟨?_, ?_⟩
    · intro r hr
      rcases List.mem_cons.mp hr with rfl | hr
      · exact .inr (.inr ⟨t, n, by simp [Pc.range], by simp, by simp⟩)
      · refine h.still (e := .map t a k) rfl (by simp [hrange]) (fun u m hm => ?_) (fun u m hm => ?_)
          (fun _ _ hins => hins) (fun _ hp => hp) r hr
        · exact Function.update_of_ne (hne u m hm) _ _
        · exact Function.update_of_ne (hne u m hm) _ _
    · intro b j hins
      exact (h.spoken b j hins).imp_right (remover_update (by simp [hpc]))
  | insert t n fuel l hpc inserts =>
    have hkeeps := metadataDoInsert_keeps inserts
    refine ⟨?_, ?_⟩
    · intro r hr
      rcases h.mapped r hr with hins | hp | ⟨u, m, hm, ha, hk⟩
      · exact .inl (.inr hins)
      · exact .inr (.inl hp)
      · by_cases hu : u = t
        · -- the block goes from the thread's hands to the list
          subst hu
          obtain rfl : m = n := by simpa [hpc, Pc.range] using hm
          exact .inl (.inl ⟨ha.symm, hk.symm⟩)
        · refine .inr (.inr ⟨u, m, ?_, ?_, ?_⟩)
          · simpa only [Function.update_of_ne hu] using hm
          · rw [hkeeps.1]
            exact ha
          · rw [hkeeps.2]
            exact hk
    · intro b j hins
      rcases hins with ⟨rfl, rfl⟩ | hins
      · exact .inl (.inl rfl)
      · rcases h.spoken b j hins with howned | hr
        · exact .inl (.inr howned)
        · exact .inr (remover_update (by simp [hpc]) hr)
  | release t a hpc =>
    have hrange : (s.pc t).range = [] := by simp [hpc, Pc.range]
    refine ⟨h.still rfl (by simp [hrange]) (fun _ _ _ => rfl) (fun _ _ _ => rfl)
      (fun _ _ hins => hins) fun _ hp => hp, ?_⟩
    intro b j hins
    by_cases hb : b = a
    · subst hb
      exact .inr ⟨t, Function.update_self _ _ _⟩
    · rcases h.spoken b j hins with howned | hr
      · exact .inl ⟨hb, howned⟩
      · exact .inr (remover_update (by simp [hpc]) hr)
  | remove t a n fuel l hpc removes =>
    have hrange : (s.pc t).range = [] := by simp [hpc, Pc.range]
    obtain ⟨haddr, hlength⟩ := metadataRemove_keeps removes
    refine ⟨?_, ?_⟩
    · intro r hr
      rcases h.mapped r hr with hins | hp | hpending
      · by_cases hra : r.1 = a
        · -- the block goes from the list to the thread's hands
          rw [hra] at hins
          obtain ⟨hlist, hlen⟩ := removed_block htracked removes hins
          refine .inr (.inr ⟨t, n, by simp [Pc.range], ?_, ?_⟩)
          · rw [haddr, hra]
            exact hlist
          · rw [hlength]
            exact hlen
        · exact .inl ⟨hra, hins⟩
      · exact .inr (.inl hp)
      · refine .inr (.inr (hpending.keep rfl (by simp [hrange]) (fun u m _ => ?_) fun u m _ => ?_))
        · rw [haddr]
        · rw [hlength]
    · intro b j hins
      obtain ⟨hba, hins⟩ := hins
      rcases h.spoken b j hins with howned | ⟨u, hu⟩
      · exact .inl howned
      · have hut : u ≠ t := by
          rintro rfl
          exact hba (Pc.remove.inj (hu.symm.trans hpc))
        exact .inr ⟨u, (Function.update_of_ne hut _ _).trans hu⟩
  | unmap t n hpc =>
    refine ⟨?_, ?_⟩
    · intro r hr
      obtain ⟨hr, hne⟩ := List.mem_filter.mp hr
      rcases h.mapped r hr with hins | hp | ⟨u, m, hm, ha, hk⟩
      · exact .inl hins
      · exact .inr (.inl hp)
      · have hu : u ≠ t := by
          rintro rfl
          obtain rfl : m = n := by simpa [hpc, Pc.range] using hm
          simp [ha, hk] at hne
        refine .inr (.inr ⟨u, m, ?_, ha, hk⟩)
        simpa only [Function.update_of_ne hu] using hm
    · intro b j hins
      exact (h.spoken b j hins).imp_right (remover_update (by simp [hpc]))
  | free t n hpc =>
    have hrange : (s.pc t).range = [] := by simp [hpc, Pc.range]
    refine ⟨h.still rfl (by simp [hrange]) (fun _ _ _ => rfl) (fun _ _ _ => rfl)
      (fun _ _ hins => hins) fun _ hp => hp, ?_⟩
    intro a j hins
    exact (h.spoken a j hins).imp_right (remover_update (by simp [hpc]))

theorem run_covered (run : Run system ownedRelease es s) : Covered es s := by
  refine run.invariant (I := fun es s => Covered es s) ?_ ?_
  · rintro s rfl
    refine ⟨?_, ?_⟩
    · intro r hr
      cases hr
    · intro a k hins
      cases hins
  · intro es s e s' run inv _ move
    obtain ⟨ns, fs, htracked⟩ := run_tracked run
    exact inv.step htracked move

/-- In every run the ranges that are mapped for the library are those of the blocks on the list,
of the pages of metadata nodes, and of the blocks that calls hold. Where no call is under way
these are the pages and the blocks that were returned and not released since: nothing is
leaked. -/
theorem mapped_exact (run : Run system ownedRelease es s) :
    (∀ a k, (a, k) ∈ s.mapped ↔ Accounted es s a k) ∧
      ((∀ t, s.pc t = .idle) →
        ∀ a, (∃ k, (a, k) ∈ s.mapped) ↔ Owned a es ∨ a ∈ pages es) := by
  obtain ⟨ns, fs, htracked⟩ := run_tracked run
  obtain ⟨hmapped, hspoken⟩ := run_covered run
  have hexact : ∀ a k, (a, k) ∈ s.mapped ↔ Accounted es s a k := by
    intro a k
    constructor
    · exact hmapped (a, k)
    · rintro (hins | hp | ⟨t, n, hn, rfl, rfl⟩)
      · obtain ⟨n, hn, rfl, rfl⟩ := (htracked.contents a k).mpr (.inl hins)
        exact (htracked.ranges n (.inl hn)).2
      · obtain ⟨n, hn, rfl, rfl⟩ := (htracked.contents a k).mpr (.inr hp)
        exact (htracked.ranges n (.inl hn)).2
      · exact (htracked.ranges n (.inr ⟨t, hn⟩)).2
  refine ⟨hexact, ?_⟩
  intro hidle a
  constructor
  · rintro ⟨k, hk⟩
    rcases (hexact a k).mp hk with hins | ⟨hp, -⟩ | ⟨t, n, hn, -⟩
    · rcases hspoken a k hins with howned | ⟨t, ht⟩
      · exact .inl howned
      · rw [hidle t] at ht
        cases ht
    · exact .inr hp
    · rw [hidle t] at hn
      cases hn
  · rintro (howned | hp)
    · obtain ⟨k, hins⟩ := htracked.owned a howned
      exact ⟨k, (hexact a k).mpr (.inl hins)⟩
    · exact ⟨allocBlocksize, (hexact a _).mpr (.inr (.inl ⟨hp, rfl⟩))⟩

/-- The first call maps a page for its node. -/
theorem first_page : ∃ s : State Unit, Run system ownedRelease [.page () 4096, .call () 4096] s ∧
    s.lists.allocList ≠ 0 ∧ ∃ n, s.pc () = .map n 4096 ∧ s.mapped = [(4096, 4096)] := by
  have hcall : Run system ownedRelease [.call () 4096] _ :=
    .step (.init (rfl : system.init (initial : State Unit))) trivial (.call initial () 4096 rfl)
  have hmaps : Maps [] 4096 allocBlocksize := by simp [Maps, allocBlocksize]
  obtain ⟨-, -, -, ⟨fuel, ⟨n, l⟩, hn⟩, -⟩ := metadataNew_page (l := (initial : State Unit).lists)
    (p := 4096) Tracked.initial.well rfl (by decide) (by simp) (by simp)
  have hpage : Run system ownedRelease [.page () 4096, .call () 4096] _ :=
    .step hcall trivial (.page _ () 4096 n fuel 4096 l (by simp) rfl hmaps hn)
  refine ⟨_, hpage, ?_, n, by simp, rfl⟩
  intro hnull
  obtain ⟨ns, fs, htracked⟩ := run_tracked hpage
  have hmem := (htracked.page 4096 (by simp [pages])).1
  rw [htracked.well.allocList_eq_zero.mp hnull] at hmem
  cases hmem

/-- A page of metadata nodes can be removed, an unknown address is sought for ever. -/
theorem remove_returns_first : ∃ s : State Unit,
    Run system ownedRelease [.page () 4096, .call () 4096] s ∧
    (∃ fuel r, metadataRemove s.lists 4096 fuel = some r) ∧
    ¬ ∃ fuel r, metadataRemove s.lists 8192 fuel = some r := by
  obtain ⟨s, hrun, hlist, -⟩ := first_page
  refine ⟨s, hrun, ?_, ?_⟩
  · exact (remove_returns hrun hlist 4096).mpr (.inr (by simp [pages]))
  · rw [remove_returns hrun hlist 8192]
    simp [pages, Inserted]

/-- The first call has returned. -/
theorem mapped_exact_first : ∃ s : State Unit, Run system ownedRelease
      [.insert () 8192 4096, .map () 8192 4096, .page () 4096, .call () 4096] s ∧
    (8192, 4096) ∈ s.mapped ∧ ¬ ∃ k, (12288, k) ∈ s.mapped := by
  obtain ⟨s, hpage, -, n, hpc, hmapped⟩ := first_page
  have hmaps : Maps s.mapped 8192 4096 := by simp [hmapped, Maps, allocBlocksize]
  have hmap : Run system ownedRelease [.map () 8192 4096, .page () 4096, .call () 4096] _ :=
    .step hpage trivial (.map s () n 4096 8192 hpc hmaps)
  obtain ⟨ns, fs, htracked⟩ := run_tracked hmap
  obtain ⟨fuel, l, hl⟩ := htracked.inserts (t := ()) (n := n) (by simp)
  have hstep := Step.insert _ () n fuel l (by simp) hl
  simp only [Function.update_self] at hstep
  have hrun : Run system ownedRelease
      [.insert () 8192 4096, .map () 8192 4096, .page () 4096, .call () 4096] _ :=
    .step hmap trivial hstep
  obtain ⟨hexact, hidle⟩ := mapped_exact hrun
  refine ⟨_, hrun, (hexact 8192 4096).mpr (.inl (.inl ⟨rfl, rfl⟩)), ?_⟩
  rw [hidle (fun _ => rfl)]
  simp [Owned, pages]

end ThreadScan.Mappings
