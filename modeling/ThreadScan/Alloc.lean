import ThreadScan.Custody
import ThreadScan.Metadata
import ThreadScan.Transition

/-! The tracking of mapped memory by any number of threads (`alloc.c`). Sections under
`list_lock` are one step, and so are `mmap` and `munmap`. The asserts, which only end runs, are
left out. -/
namespace ThreadScan.Alloc
open Transition Metadata Custody

/-- Where a thread stands in `threadscan_alloc_mmap` and `threadscan_alloc_munmap`. -/
inductive Pc
  | idle
  | new (size : ℕ)
  | map (node size : ℕ)
  | insert (node : ℕ)
  | remove (addr : ℕ)
  | unmap (node : ℕ)
  | free (node : ℕ)

/-- `mapped` is what the operating system has mapped for the library. -/
structure State (T : Type*) where
  lists : Lists
  mapped : List (ℕ × ℕ)
  pc : T → Pc

inductive Event (T : Type*)
  | call (t : T) (size : ℕ)
  | take (t : T)
  | page (t : T) (p : ℕ)
  | map (t : T) (addr size : ℕ)
  | insert (t : T) (addr size : ℕ)
  | release (t : T) (addr : ℕ)
  | remove (t : T) (addr : ℕ)
  | unmap (t : T) (addr size : ℕ)
  | free (t : T)

variable {T : Type*} [DecidableEq T]

/-- What `mmap` returns: a non-empty page-aligned range that is disjoint from what is mapped. -/
def Maps (mapped : List (ℕ × ℕ)) (addr size : ℕ) : Prop :=
  addr ≠ 0 ∧ addr % allocBlocksize = 0 ∧ 0 < size ∧
    ∀ r ∈ mapped, addr + size ≤ r.1 ∨ r.1 + r.2 ≤ addr

inductive Step : State T → Event T → State T → Prop
  | call (s : State T) (t : T) (size : ℕ) (h : s.pc t = .idle) :
      Step s (.call t size) { s with pc := Function.update s.pc t (.new size) }
  | take (s : State T) (t : T) (size node fuel p : ℕ) (l : Lists) (h : s.pc t = .new size)
      (nodes : s.lists.freeList ≠ 0) (new : metadataNew s.lists p fuel = some (node, l)) :
      Step s (.take t) { s with lists := l, pc := Function.update s.pc t (.map node size) }
  | page (s : State T) (t : T) (size node fuel p : ℕ) (l : Lists) (h : s.pc t = .new size)
      (empty : s.lists.freeList = 0) (maps : Maps s.mapped p allocBlocksize)
      (new : metadataNew s.lists p fuel = some (node, l)) :
      Step s (.page t p) {
        lists := l
        mapped := (p, allocBlocksize) :: s.mapped
        pc := Function.update s.pc t (.map node size) }
  | map (s : State T) (t : T) (node size addr : ℕ) (h : s.pc t = .map node size)
      (maps : Maps s.mapped addr size) :
      Step s (.map t addr size) {
        lists := { s.lists with
          length := Function.update s.lists.length node size
          addr := Function.update s.lists.addr node addr }
        mapped := (addr, size) :: s.mapped
        pc := Function.update s.pc t (.insert node) }
  /-- `metadata_insert`, after which the address is returned. -/
  | insert (s : State T) (t : T) (node fuel : ℕ) (l : Lists) (h : s.pc t = .insert node)
      (inserts : metadataDoInsert s.lists node fuel = some l) :
      Step s (.insert t (s.lists.addr node) (s.lists.length node)) { s with
        lists := l
        pc := Function.update s.pc t .idle }
  | release (s : State T) (t : T) (addr : ℕ) (h : s.pc t = .idle) :
      Step s (.release t addr) { s with pc := Function.update s.pc t (.remove addr) }
  | remove (s : State T) (t : T) (addr node fuel : ℕ) (l : Lists) (h : s.pc t = .remove addr)
      (removes : metadataRemove s.lists addr fuel = some (node, l)) :
      Step s (.remove t addr) { s with
        lists := l
        pc := Function.update s.pc t (.unmap node) }
  | unmap (s : State T) (t : T) (node : ℕ) (h : s.pc t = .unmap node) :
      Step s (.unmap t (s.lists.addr node) (s.lists.length node)) { s with
        mapped := s.mapped.filter (· ≠ (s.lists.addr node, s.lists.length node))
        pc := Function.update s.pc t (.free node) }
  | free (s : State T) (t : T) (node : ℕ) (h : s.pc t = .free node) :
      Step s (.free t) { s with
        lists := metadataFree s.lists node
        pc := Function.update s.pc t .idle }

def initial : State T where
  lists := ⟨fun _ => 0, fun _ => 0, fun _ => 0, fun _ => 0, 0, 0⟩
  mapped := []
  pc _ := .idle

def system : System (State T) (Event T) where
  init s := s = initial
  step := Step

/-! ### What the calls have done so far -/

/-- The pages of metadata nodes. -/
def pages : List (Event T) → List ℕ
  | [] => []
  | .page _ p :: es => p :: pages es
  | _ :: es => pages es

/-- The block has been inserted, and not been removed since. -/
def Inserted (a k : ℕ) : List (Event T) → Prop
  | [] => False
  | .insert _ b m :: es => a = b ∧ k = m ∨ Inserted a k es
  | .remove _ b :: es => a ≠ b ∧ Inserted a k es
  | _ :: es => Inserted a k es

/-- The address has been returned, and not been released since. -/
def Owned (a : ℕ) : List (Event T) → Prop
  | [] => False
  | .insert _ b _ :: es => a = b ∨ Owned a es
  | .release _ b :: es => a ≠ b ∧ Owned a es
  | _ :: es => Owned a es

/-- A metadata node has been carved from a page, the page's own one included. -/
def Carved (n : ℕ) (es : List (Event T)) : Prop := ∃ p ∈ pages es, InPage p 0 n

/-- Only what was returned is released, and only once. -/
def ownedRelease (es : List (Event T)) (_ : State T) : Event T → Prop
  | .release _ a => Owned a es
  | _ => True

/-- The metadata node that the thread holds. -/
def Pc.hand : Pc → List ℕ
  | .map node _ => [node]
  | .insert node => [node]
  | .unmap node => [node]
  | .free node => [node]
  | _ => []

/-- The metadata node of a mapped block that the thread holds. -/
def Pc.range : Pc → List ℕ
  | .insert node => [node]
  | .unmap node => [node]
  | _ => []

theorem Pc.hand_of_range {c : Pc} {n : ℕ} (h : n ∈ c.range) : n ∈ c.hand := by
  cases c <;> simp_all [Pc.range, Pc.hand]

/-- Where a metadata node can be. -/
inductive Place (T : Type*)
  | alloc
  | free
  | hand (t : T)

def bag (ns fs : List ℕ) (pc : T → Pc) : Place T → List ℕ
  | .alloc => ns
  | .free => fs
  | .hand t => (pc t).hand

/-- The node stands for a block that is mapped. -/
def Ranged (ns : List ℕ) (pc : T → Pc) (n : ℕ) : Prop := n ∈ ns ∨ ∃ t, n ∈ (pc t).range

/-- The invariant: `ns` are the blocks on the list and `fs` the free nodes. -/
structure Tracked (es : List (Event T)) (s : State T) (ns fs : List ℕ) : Prop where
  well : WellFormed s.lists ns
  chain : Chain s.lists fs
  exclusive : Exclusive (bag ns fs s.pc)
  held : ∀ n, Held (bag ns fs s.pc) n ↔ Carved n es
  nonnull : ∀ p ∈ pages es, p ≠ 0
  ranges : ∀ n, Ranged ns s.pc n →
    0 < s.lists.length n ∧ (s.lists.addr n, s.lists.length n) ∈ s.mapped
  apart : ∀ m n, Ranged ns s.pc m → Ranged ns s.pc n → m ≠ n → Apart s.lists m n
  page : ∀ p ∈ pages es, p ∈ ns ∧ s.lists.addr p = p ∧ s.lists.length p = allocBlocksize
  blocks : ∀ a k, Inserted a k es ↔
    ∃ n ∈ ns, n ∉ pages es ∧ s.lists.addr n = a ∧ s.lists.length n = k
  owned : ∀ a, Owned a es → ∃ k, Inserted a k es
  removing : ∀ t a, s.pc t = .remove a → (∃ k, Inserted a k es) ∧ ¬ Owned a es
  alone : ∀ t u a, s.pc t = .remove a → s.pc u = .remove a → t = u

variable {es : List (Event T)} {s s' : State T} {ns fs ns' fs' xs ys : List ℕ} {t u : T}
  {m n p a k : ℕ} {c : Pc} {pc : T → Pc}

theorem bag_update_hand : bag ns fs (Function.update pc t c) (.hand t) = c.hand := by
  simp [bag]

/-- A thread's step leaves alone what is in other places. -/
theorem bag_update_other {q : Place T} (h : q ≠ .hand t) :
    bag ns fs (Function.update pc t c) q = bag ns fs pc q := by
  cases q with
  | alloc => rfl
  | free => rfl
  | hand u =>
    have hu : u ≠ t := fun he => h (he ▸ rfl)
    simp [bag, hu]

theorem bag_update_same (h : c.hand = (pc t).hand) :
    bag ns fs (Function.update pc t c) = bag ns fs pc := by
  funext q
  by_cases hq : q = .hand t
  · rw [hq, bag_update_hand, h]
    rfl
  · exact bag_update_other hq

/-- A node goes from the list of blocks, or that of free nodes, to a thread. -/
theorem change_hand {q : Place T} (stored : q = .alloc ∨ q = .free) (before : (pc t).hand = [])
    (after : c.hand = [n]) (here : (bag ns fs pc q).Perm (n :: bag ns' fs' pc q))
    (there : ∀ x, x = .alloc ∨ x = .free → x ≠ q → bag ns' fs' pc x = bag ns fs pc x) :
    Change (bag ns fs pc) (bag ns' fs' (Function.update pc t c)) .keep := by
  have hne : q ≠ .hand t := by rcases stored with rfl | rfl <;> simp
  refine .moved q (.hand t) [n] (bag ns' fs' pc q) hne here ?_ ?_ fun x hx hxt => ?_
  · rw [bag_update_other hne]
  · rw [bag_update_hand, after]
    simp [bag, before]
  · rw [bag_update_other hxt]
    cases x with
    | alloc => rw [there _ (.inl rfl) hx]
    | free => rw [there _ (.inr rfl) hx]
    | hand u => exact List.Perm.refl _

/-- A thread puts its node back. -/
theorem change_store {q : Place T} (stored : q = .alloc ∨ q = .free) (before : (pc t).hand = [n])
    (after : c.hand = []) (here : (bag ns' fs' pc q).Perm (n :: bag ns fs pc q))
    (there : ∀ x, x = .alloc ∨ x = .free → x ≠ q → bag ns' fs' pc x = bag ns fs pc x) :
    Change (bag ns fs pc) (bag ns' fs' (Function.update pc t c)) .keep := by
  have hne : q ≠ .hand t := by rcases stored with rfl | rfl <;> simp
  refine .moved (.hand t) q [n] [] hne.symm ?_ ?_ ?_ fun x hxt hx => ?_
  · simp [bag, before]
  · rw [bag_update_hand, after]
  · rw [bag_update_other hne]
    exact here.trans (List.perm_append_singleton n _).symm
  · rw [bag_update_other hxt]
    cases x with
    | alloc => rw [there _ (.inl rfl) hx]
    | free => rw [there _ (.inr rfl) hx]
    | hand u => exact List.Perm.refl _

theorem ranged_update : Ranged ns (Function.update pc t c) n ↔
    n ∈ ns ∨ n ∈ c.range ∨ ∃ u, u ≠ t ∧ n ∈ (pc u).range := by
  refine or_congr_right ?_
  constructor
  · rintro ⟨u, hu⟩
    by_cases he : u = t
    · subst he
      exact .inl (by simpa using hu)
    · exact .inr ⟨u, he, by simpa [he] using hu⟩
  · rintro (hc | ⟨u, hu, hn⟩)
    · exact ⟨t, by simpa using hc⟩
    · exact ⟨u, by simpa [hu] using hn⟩

theorem ranged_of_update (hc : c.range = []) (h : Ranged ns (Function.update pc t c) n) :
    Ranged ns pc n := by
  rcases ranged_update.mp h with hn | hn | ⟨u, -, hu⟩
  · exact .inl hn
  · rw [hc] at hn
    cases hn
  · exact .inr ⟨u, hu⟩

/-- A thread that is not at a removal takes no part in one. -/
theorem remove_of_update (h : Function.update pc t c u = .remove a) (hc : ∀ a, c ≠ .remove a) :
    u ≠ t ∧ pc u = .remove a := by
  by_cases hu : u = t
  · subst hu
    exact absurd (by simpa using h) (hc a)
  · exact ⟨hu, by simpa [hu] using h⟩

/-- The others go on with their removals. -/
theorem Tracked.removing_update (h : Tracked es s ns fs) (hc : ∀ a, c ≠ .remove a) (u : T) (a : ℕ)
    (hu : Function.update s.pc t c u = .remove a) : (∃ k, Inserted a k es) ∧ ¬ Owned a es :=
  h.removing u a (remove_of_update hu hc).2

theorem Tracked.alone_update (h : Tracked es s ns fs) (hc : ∀ a, c ≠ .remove a) (u v : T) (a : ℕ)
    (hu : Function.update s.pc t c u = .remove a) (hv : Function.update s.pc t c v = .remove a) :
    u = v :=
  h.alone u v a (remove_of_update hu hc).2 (remove_of_update hv hc).2

omit [DecidableEq T] in
theorem Tracked.held_of_ranged (h : Ranged ns s.pc n) : Held (bag ns fs s.pc) n := by
  rcases h with hn | ⟨t, ht⟩
  · exact ⟨.alloc, hn⟩
  · exact ⟨.hand t, Pc.hand_of_range ht⟩

omit [DecidableEq T] in
/-- What a thread holds is on neither list and with no other thread. -/
theorem Tracked.of_hand (h : Tracked es s ns fs) (ht : n ∈ (s.pc t).hand) :
    n ∉ ns ∧ n ∉ fs ∧ ∀ u, n ∈ (s.pc u).hand → u = t := by
  refine ⟨fun hn => ?_, fun hn => ?_, fun u hu => ?_⟩
  · exact absurd (h.exclusive.apart .alloc (.hand t) n hn ht) (by simp)
  · exact absurd (h.exclusive.apart .free (.hand t) n hn ht) (by simp)
  · exact Place.hand.inj (h.exclusive.apart (.hand u) (.hand t) n hu ht)

omit [DecidableEq T] in
theorem Tracked.not_free (h : Tracked es s ns fs) (hn : n ∈ ns) : n ∉ fs :=
  fun hf => absurd (h.exclusive.apart .alloc .free n hn hf) (by simp)

omit [DecidableEq T] in
theorem Tracked.ne_zero (h : Tracked es s ns fs) (hn : Held (bag ns fs s.pc) n) : n ≠ 0 := by
  obtain ⟨p, hp, i, -, -, rfl⟩ := (h.held n).mp hn
  have hp := h.nonnull p hp
  omega

omit [DecidableEq T] in
/-- What the exchange of nodes between the places leaves as it was. -/
theorem Tracked.exchange (h : Tracked es s ns fs) {e : Event T}
    (change : Change (bag ns fs s.pc) (bag ns' fs' pc) .keep) (same : pages (e :: es) = pages es) :
    Exclusive (bag ns' fs' pc) ∧ ∀ n, Held (bag ns' fs' pc) n ↔ Carved n (e :: es) := by
  refine ⟨change.exclusive h.exclusive (by simp), fun n => ?_⟩
  rw [change.held_keep, h.held, Carved, Carved, same]

omit [DecidableEq T] in
theorem Tracked.initial : Tracked [] (initial : State T) [] [] where
  well := ⟨trivial, rfl, .nil, by simp, by simp⟩
  chain := rfl
  exclusive := by
    refine ⟨fun q => ?_, fun q r n hn => ?_⟩ <;> rcases q with _ | _ | q <;>
      simp_all [bag, Alloc.initial, Pc.hand]
  held n := by
    simp only [Carved, pages, List.not_mem_nil, false_and, exists_false, iff_false]
    rintro ⟨q, hq⟩
    rcases q with _ | _ | q <;> simp [bag, Alloc.initial, Pc.hand] at hq
  nonnull := by simp [pages]
  ranges n h := by simp [Ranged, Alloc.initial, Pc.range] at h
  apart m n h := by simp [Ranged, Alloc.initial, Pc.range] at h
  page := by simp [pages]
  blocks := by simp [Inserted]
  owned := by simp [Owned]
  removing t a h := by simp [Alloc.initial] at h
  alone t u a h := by simp [Alloc.initial] at h

theorem Tracked.step_call (h : Tracked es s ns fs) (hpc : s.pc t = .idle) :
    Tracked (.call t k :: es) { s with pc := Function.update s.pc t (.new k) } ns fs := by
  have hbag : bag ns fs (Function.update s.pc t (.new k)) = bag ns fs s.pc :=
    bag_update_same (by simp [hpc, Pc.hand])
  exact {
    well := h.well
    chain := h.chain
    exclusive := by
      rw [hbag]
      exact h.exclusive
    held := by
      rw [hbag]
      exact h.held
    nonnull := h.nonnull
    ranges n hn := h.ranges n (ranged_of_update rfl hn)
    apart m n hm hn := h.apart m n (ranged_of_update rfl hm) (ranged_of_update rfl hn)
    page := h.page
    blocks := h.blocks
    owned := h.owned
    removing := h.removing_update (by simp)
    alone := h.alone_update (by simp) }

theorem Tracked.step_take (h : Tracked es s ns fs) (hpc : s.pc t = .new k)
    (nodes : s.lists.freeList ≠ 0) {fuel : ℕ} {l : Lists}
    (new : metadataNew s.lists p fuel = some (n, l)) :
    ∃ fs', Tracked (.take t :: es)
      { s with lists := l, pc := Function.update s.pc t (.map n k) } ns fs' := by
  obtain ⟨n', cs, rfl, hchain, hnew⟩ := metadataNew_take h.chain nodes
  obtain ⟨rfl, rfl⟩ := Prod.mk.inj (Option.some.inj ((hnew p fuel).symm.trans new))
  have hchange : Change (bag ns (n' :: cs) s.pc)
      (bag ns cs (Function.update s.pc t (.map n' k))) .keep := by
    refine change_hand (.inr rfl) (by simp [hpc, Pc.hand]) rfl (List.Perm.refl _) fun x hx hne => ?_
    rcases hx with rfl | rfl
    · rfl
    · exact absurd rfl hne
  obtain ⟨hexclusive, hheld⟩ := h.exchange (e := .take t) hchange rfl
  refine ⟨cs, ?_⟩
  exact {
    well := h.well.congr rfl (fun _ _ => rfl) (fun _ _ => rfl) (fun _ _ => rfl) fun _ _ => rfl
    chain := hchain
    exclusive := hexclusive
    held := hheld
    nonnull := h.nonnull
    ranges m hm := h.ranges m (ranged_of_update rfl hm)
    apart m m' hm hm' := h.apart m m' (ranged_of_update rfl hm) (ranged_of_update rfl hm')
    page := h.page
    blocks := h.blocks
    owned := h.owned
    removing := h.removing_update (by simp)
    alone := h.alone_update (by simp) }

omit [DecidableEq T] in
/-- A new range does not overlap with that of a node. -/
theorem Tracked.maps_apart (h : Tracked es s ns fs) (maps : Maps s.mapped a k)
    (hn : Ranged ns s.pc n) : a + k ≤ lowAddr s.lists n ∨ highAddr s.lists n ≤ a :=
  maps.2.2.2 _ (h.ranges n hn).2

omit [DecidableEq T] in
/-- A new page has no metadata nodes yet. -/
theorem Tracked.page_fresh (h : Tracked es s ns fs) (maps : Maps s.mapped p allocBlocksize)
    (hn : InPage p 0 n) : ¬ Carved n es := by
  rintro ⟨q, hq, j, -, hj, rfl⟩
  obtain ⟨i, -, hi, hij⟩ := hn
  obtain ⟨hmem, haddr, hlength⟩ := h.page q hq
  have hapart := h.maps_apart maps (.inl hmem)
  simp only [highAddr, lowAddr, haddr, hlength, allocBlocksize] at hapart
  simp only [metadataSize] at hij
  omega

omit [DecidableEq T] in
theorem carved_page : Carved n (.page t p :: es) ↔ InPage p 0 n ∨ Carved n es := by
  simp [Carved, pages]

/-- The nodes of a new page go to their places. -/
theorem Tracked.exchange_page (h : Tracked es s ns []) (maps : Maps s.mapped p allocBlocksize)
    (hpc : (s.pc t).hand = []) (hc : c.hand = [n]) (ins : ns = xs ++ ys) (nodup : (n :: fs').Nodup)
    (nodes : ∀ m, m ∈ n :: fs' ↔ InPage p 1 m) :
    Exclusive (bag (xs ++ p :: ys) fs' (Function.update s.pc t c)) ∧
      ∀ m, Held (bag (xs ++ p :: ys) fs' (Function.update s.pc t c)) m ↔
        Carved m (.page t p :: es) := by
  have hsucc : ∀ m, InPage p 0 m ↔ m = p ∨ InPage p 1 m := fun m => inPage_succ (Nat.zero_le _)
  have hfresh : ∀ m, InPage p 0 m → ¬ Held (bag ns [] s.pc) m :=
    fun m hm hheld => h.page_fresh maps hm ((h.held m).mp hheld)
  -- first the page's own node, then the free ones
  obtain ⟨hex₁, hheld₁⟩ : Exclusive (bag (xs ++ p :: ys) [] s.pc) ∧
      ∀ m, Held (bag (xs ++ p :: ys) [] s.pc) m ↔ m ∈ [p] ∨ Held (bag ns [] s.pc) m := by
    refine h.exclusive.gather (p := .alloc) ?_ ?_ (List.nodup_singleton p) ?_
    · simp [bag, ins]
    · intro x hx
      cases x with
      | alloc => exact absurd rfl hx
      | free => rfl
      | hand u => rfl
    · intro m hm
      exact hfresh m ((hsucc m).mpr (.inl (List.mem_singleton.mp hm)))
  obtain ⟨hex₂, hheld₂⟩ : Exclusive (bag (xs ++ p :: ys) (n :: fs') s.pc) ∧
      ∀ m, Held (bag (xs ++ p :: ys) (n :: fs') s.pc) m ↔
        m ∈ n :: fs' ∨ Held (bag (xs ++ p :: ys) [] s.pc) m := by
    refine hex₁.gather (p := .free) ?_ ?_ nodup ?_
    · simp [bag]
    · intro x hx
      cases x with
      | alloc => rfl
      | free => exact absurd rfl hx
      | hand u => rfl
    · intro m hm hheld
      have hpage := (nodes m).mp hm
      rcases (hheld₁ m).mp hheld with hp | hheld
      · obtain ⟨i, hi, -, rfl⟩ := hpage
        simp only [List.mem_singleton, metadataSize] at hp
        omega
      · exact hfresh m ((hsucc m).mpr (.inr hpage)) hheld
  have hchange : Change (bag (xs ++ p :: ys) (n :: fs') s.pc)
      (bag (xs ++ p :: ys) fs' (Function.update s.pc t c)) .keep := by
    refine change_hand (.inr rfl) hpc hc (List.Perm.refl _) fun x hx hne => ?_
    rcases hx with rfl | rfl
    · rfl
    · exact absurd rfl hne
  refine ⟨hchange.exclusive hex₂ (by simp), fun m => ?_⟩
  rw [hchange.held_keep, hheld₂, hheld₁, nodes, h.held, carved_page, hsucc, List.mem_singleton]
  tauto

theorem Tracked.step_page (h : Tracked es s ns fs) (hpc : s.pc t = .new k)
    (empty : s.lists.freeList = 0) (maps : Maps s.mapped p allocBlocksize) {fuel : ℕ} {l : Lists}
    (new : metadataNew s.lists p fuel = some (n, l)) :
    ∃ ns' fs', Tracked (.page t p :: es) {
      lists := l
      mapped := (p, allocBlocksize) :: s.mapped
      pc := Function.update s.pc t (.map n k) } ns' fs' := by
  obtain rfl := h.chain.eq_nil_iff.mpr empty
  have hfresh : ∀ m, InPage p 0 m → ¬ Held (bag ns [] s.pc) m :=
    fun m hm hheld => h.page_fresh maps hm ((h.held m).mp hheld)
  obtain ⟨xs, ys, hsplit, -, hnew⟩ := metadataNew_page h.well empty maps.1
    (fun m hm => h.maps_apart maps (.inl hm)) fun m hm hmem => hfresh m hm ⟨.alloc, hmem⟩
  obtain ⟨hwell, ⟨cs, hchain, hnodup, hcs⟩, haddr, hlength⟩ := hnew fuel n l new
  obtain ⟨hexclusive, hheld⟩ := h.exchange_page (t := t) (c := .map n k) maps
    (by simp [hpc, Pc.hand]) rfl hsplit hnodup hcs
  have hpage : l.addr p = p ∧ l.length p = allocBlocksize := by simp [haddr, hlength]
  have hmem : ∀ m, m ∈ xs ++ p :: ys ↔ m = p ∨ m ∈ ns := by
    intro m
    simp only [hsplit, List.mem_append, List.mem_cons]
    tauto
  have hold : ∀ m, Ranged ns s.pc m → m ≠ p := by
    rintro m hm rfl
    exact hfresh m ⟨0, le_refl 0, by omega, rfl⟩ (Tracked.held_of_ranged hm)
  have hsame : ∀ m, Ranged ns s.pc m →
      l.addr m = s.lists.addr m ∧ l.length m = s.lists.length m := by
    intro m hm
    rw [haddr, hlength, Function.update_of_ne (hold m hm), Function.update_of_ne (hold m hm)]
    exact ⟨rfl, rfl⟩
  have hranged : ∀ m, Ranged (xs ++ p :: ys) (Function.update s.pc t (.map n k)) m →
      m = p ∨ Ranged ns s.pc m := by
    intro m hm
    rcases ranged_of_update rfl hm with hm | hm
    · exact ((hmem m).mp hm).imp_right .inl
    · exact .inr (.inr hm)
  have hapart : ∀ m, Ranged ns s.pc m → Apart l p m := by
    intro m hm
    have happ := h.maps_apart maps hm
    simp only [Apart, highAddr, lowAddr, hpage.1, hpage.2, (hsame m hm).1, (hsame m hm).2] at happ ⊢
    exact happ
  refine ⟨xs ++ p :: ys, cs, ?_⟩
  exact {
    well := hwell
    chain := hchain
    exclusive := hexclusive
    held := hheld
    nonnull := by
      intro q hq
      rcases List.mem_cons.mp hq with rfl | hq
      · exact maps.1
      · exact h.nonnull q hq
    ranges := by
      intro m hm
      rcases hranged m hm with rfl | hm
      · rw [hpage.1, hpage.2]
        exact ⟨by simp [allocBlocksize], by simp⟩
      · obtain ⟨hpos, hmapped⟩ := h.ranges m hm
        rw [(hsame m hm).1, (hsame m hm).2]
        exact ⟨hpos, List.mem_cons_of_mem _ hmapped⟩
    apart := by
      intro m m' hm hm' hne
      rcases hranged m hm with he | hr <;> rcases hranged m' hm' with he' | hr'
      · exact absurd (he.trans he'.symm) hne
      · rw [he]
        exact hapart m' hr'
      · rw [he']
        exact (hapart m hr).symm
      · have happ := h.apart m m' hr hr' hne
        simp only [Apart, highAddr, lowAddr, (hsame m hr).1, (hsame m hr).2, (hsame m' hr').1,
          (hsame m' hr').2] at happ ⊢
        exact happ
    page := by
      intro q hq
      rcases List.mem_cons.mp hq with rfl | hq
      · exact ⟨(hmem q).mpr (.inl rfl), hpage⟩
      · obtain ⟨hq, hqpage⟩ := h.page q hq
        refine ⟨(hmem q).mpr (.inr hq), ?_⟩
        rw [(hsame q (.inl hq)).1, (hsame q (.inl hq)).2]
        exact hqpage
    blocks := by
      intro a j
      refine (h.blocks a j).trans ?_
      constructor
      · rintro ⟨m, hm, hmp, hblock⟩
        refine ⟨m, (hmem m).mpr (.inr hm), ?_, ?_⟩
        · rw [pages, List.mem_cons, not_or]
          exact ⟨hold m (.inl hm), hmp⟩
        · rw [(hsame m (.inl hm)).1, (hsame m (.inl hm)).2]
          exact hblock
      · rintro ⟨m, hm, hmp, hblock⟩
        rw [pages, List.mem_cons, not_or] at hmp
        have hm' := ((hmem m).mp hm).resolve_left hmp.1
        rw [(hsame m (.inl hm')).1, (hsame m (.inl hm')).2] at hblock
        exact ⟨m, hm', hmp.2, hblock⟩
    owned := h.owned
    removing := h.removing_update (by simp)
    alone := h.alone_update (by simp) }

omit [DecidableEq T] in
/-- A thread may hold a node of a block, or one without. -/
theorem Tracked.not_ranged (h : Tracked es s ns fs) (hn : n ∈ (s.pc t).hand)
    (hrange : (s.pc t).range = []) : ¬ Ranged ns s.pc n := by
  obtain ⟨hns, -, hother⟩ := h.of_hand hn
  rintro (hmem | ⟨u, hu⟩)
  · exact hns hmem
  · rw [hother u (Pc.hand_of_range hu), hrange] at hu
    cases hu

theorem Tracked.step_map (h : Tracked es s ns fs) (hpc : s.pc t = .map n m)
    (maps : Maps s.mapped a k) :
    Tracked (.map t a k :: es) {
      lists := { s.lists with
        length := Function.update s.lists.length n k
        addr := Function.update s.lists.addr n a }
      mapped := (a, k) :: s.mapped
      pc := Function.update s.pc t (.insert n) } ns fs := by
  have hhand : n ∈ (s.pc t).hand := by simp [hpc, Pc.hand]
  have hnew : ¬ Ranged ns s.pc n := h.not_ranged hhand (by simp [hpc, Pc.range])
  have hold : ∀ x, Ranged ns s.pc x → x ≠ n := fun x hx he => hnew (he ▸ hx)
  have hbag : bag ns fs (Function.update s.pc t (.insert n)) = bag ns fs s.pc :=
    bag_update_same (by simp [hpc, Pc.hand])
  have hranged : ∀ x, Ranged ns (Function.update s.pc t (.insert n)) x →
      x = n ∨ Ranged ns s.pc x := by
    intro x hx
    rcases ranged_update.mp hx with hx | hx | ⟨u, -, hu⟩
    · exact .inr (.inl hx)
    · exact .inl (by simpa [Pc.range] using hx)
    · exact .inr (.inr ⟨u, hu⟩)
  have haddr : ∀ x, Ranged ns s.pc x → Function.update s.lists.addr n a x = s.lists.addr x :=
    fun x hx => Function.update_of_ne (hold x hx) _ _
  have hlength : ∀ x, Ranged ns s.pc x → Function.update s.lists.length n k x = s.lists.length x :=
    fun x hx => Function.update_of_ne (hold x hx) _ _
  have hapart : ∀ x, Ranged ns s.pc x → Apart { s.lists with
      length := Function.update s.lists.length n k
      addr := Function.update s.lists.addr n a } n x := by
    intro x hx
    have happ := h.maps_apart maps hx
    simp only [Apart, highAddr, lowAddr, Function.update_self, haddr x hx, hlength x hx] at happ ⊢
    exact happ
  exact {
    well := h.well.congr rfl (fun _ _ => rfl) (fun _ _ => rfl) (fun x hx => haddr x (.inl hx))
      fun x hx => hlength x (.inl hx)
    chain := h.chain
    exclusive := by
      rw [hbag]
      exact h.exclusive
    held := by
      rw [hbag]
      exact h.held
    nonnull := h.nonnull
    ranges := by
      intro x hx
      rcases hranged x hx with rfl | hx
      · simp only [Function.update_self]
        exact ⟨maps.2.2.1, List.mem_cons_self⟩
      · obtain ⟨hpos, hmapped⟩ := h.ranges x hx
        simp only [haddr x hx, hlength x hx]
        exact ⟨hpos, List.mem_cons_of_mem _ hmapped⟩
    apart := by
      intro x y hx hy hne
      rcases hranged x hx with he | hr <;> rcases hranged y hy with he' | hr'
      · exact absurd (he.trans he'.symm) hne
      · rw [he]
        exact hapart y hr'
      · rw [he']
        exact (hapart x hr).symm
      · have happ := h.apart x y hr hr' hne
        simp only [Apart, highAddr, lowAddr, haddr x hr, haddr y hr', hlength x hr,
          hlength y hr'] at happ ⊢
        exact happ
    page := by
      intro q hq
      obtain ⟨hmem, hpage⟩ := h.page q hq
      simp only [haddr q (.inl hmem), hlength q (.inl hmem)]
      exact ⟨hmem, hpage⟩
    blocks := by
      intro b j
      refine (h.blocks b j).trans (exists_congr fun x => and_congr_right fun hx => ?_)
      simp only [haddr x (.inl hx), hlength x (.inl hx)]
      rfl
    owned := h.owned
    removing := h.removing_update (by simp)
    alone := h.alone_update (by simp) }

theorem Tracked.step_insert (h : Tracked es s ns fs) (hpc : s.pc t = .insert n) {fuel : ℕ}
    {l : Lists} (inserts : metadataDoInsert s.lists n fuel = some l) :
    ∃ ns', Tracked (.insert t (s.lists.addr n) (s.lists.length n) :: es)
      { s with lists := l, pc := Function.update s.pc t .idle } ns' fs := by
  have hrange : n ∈ (s.pc t).range := by simp [hpc, Pc.range]
  have hhand := Pc.hand_of_range hrange
  have hranged : Ranged ns s.pc n := .inr ⟨t, hrange⟩
  obtain ⟨hnot, hnotfree, hother⟩ := h.of_hand hhand
  obtain ⟨xs, ys, rfl, -, hspec⟩ := metadataDoInsert_spec h.well hnot (h.ne_zero ⟨.hand t, hhand⟩)
    (h.ranges n hranged).1 fun x hx => h.apart n x hranged (.inl hx) fun he => hnot (he ▸ hx)
  obtain ⟨hwell, hkeeps⟩ := hspec fuel l inserts
  have hmem : ∀ x, x ∈ xs ++ n :: ys ↔ x = n ∨ x ∈ xs ++ ys := by
    intro x
    simp only [List.mem_append, List.mem_cons]
    tauto
  have hchange : Change (bag (xs ++ ys) fs s.pc)
      (bag (xs ++ n :: ys) fs (Function.update s.pc t .idle)) .keep := by
    refine change_store (.inl rfl) (by simp [hpc, Pc.hand]) rfl List.perm_middle fun x hx hne => ?_
    rcases hx with rfl | rfl
    · exact absurd rfl hne
    · rfl
  obtain ⟨hexclusive, hheld⟩ := h.exchange
    (e := .insert t (s.lists.addr n) (s.lists.length n)) hchange rfl
  have hback : ∀ x, Ranged (xs ++ n :: ys) (Function.update s.pc t .idle) x →
      Ranged (xs ++ ys) s.pc x := by
    intro x hx
    rcases ranged_of_update rfl hx with hx | hx
    · rcases (hmem x).mp hx with rfl | hx
      · exact hranged
      · exact .inl hx
    · exact .inr hx
  have hpages : n ∉ pages es := fun hp => hnot (h.page n hp).1
  -- a block that is being removed is another one
  have hne : ∀ b j, Inserted b j es → b ≠ s.lists.addr n := by
    intro b j hb he
    obtain ⟨x, hx, -, hxb, -⟩ := (h.blocks b j).mp hb
    have hapart := h.apart n x hranged (.inl hx) fun he => hnot (he ▸ hx)
    have hpos := (h.ranges x (.inl hx)).1
    have hpos' := (h.ranges n hranged).1
    simp only [Apart, highAddr, lowAddr] at hapart
    omega
  refine ⟨xs ++ n :: ys, ?_⟩
  exact {
    well := hwell
    chain := by
      refine h.chain.congr hkeeps.freeList fun x hx => hkeeps.next x ?_
      rw [List.mem_cons, not_or]
      exact ⟨fun he => hnotfree (he ▸ hx), fun hm => h.not_free hm hx⟩
    exclusive := hexclusive
    held := hheld
    nonnull := h.nonnull
    ranges := by
      intro x hx
      rw [hkeeps.addr, hkeeps.length]
      exact h.ranges x (hback x hx)
    apart := by
      intro x y hx hy hxy
      have happ := h.apart x y (hback x hx) (hback y hy) hxy
      simp only [Apart, highAddr, lowAddr, hkeeps.addr, hkeeps.length] at happ ⊢
      exact happ
    page := by
      intro q hq
      obtain ⟨hq, hpage⟩ := h.page q hq
      rw [hkeeps.addr, hkeeps.length]
      exact ⟨(hmem q).mpr (.inr hq), hpage⟩
    blocks := by
      intro b j
      simp only [Inserted, pages, hkeeps.addr, hkeeps.length, h.blocks, hmem, or_and_right, exists_or,
        exists_eq_left]
      refine or_congr_left ?_
      simp only [hpages, not_false_eq_true, true_and]
      exact and_congr eq_comm eq_comm
    owned := by
      intro b hb
      rcases hb with rfl | hb
      · exact ⟨_, .inl ⟨rfl, rfl⟩⟩
      · obtain ⟨j, hj⟩ := h.owned b hb
        exact ⟨j, .inr hj⟩
    removing := by
      intro u b hu
      obtain ⟨⟨j, hj⟩, hb⟩ := h.removing u b (remove_of_update hu (by simp)).2
      exact ⟨⟨j, .inr hj⟩, not_or.mpr ⟨hne b j hj, hb⟩⟩
    alone := h.alone_update (by simp) }

theorem Tracked.step_release (h : Tracked es s ns fs) (hpc : s.pc t = .idle) (ours : Owned a es) :
    Tracked (.release t a :: es) { s with pc := Function.update s.pc t (.remove a) } ns fs := by
  have hbag : bag ns fs (Function.update s.pc t (.remove a)) = bag ns fs s.pc :=
    bag_update_same (by simp [hpc, Pc.hand])
  have hremove : ∀ u b, Function.update s.pc t (.remove a) u = .remove b →
      u = t ∧ b = a ∨ u ≠ t ∧ s.pc u = .remove b := by
    intro u b hu
    by_cases he : u = t
    · subst he
      exact .inl ⟨rfl, by simpa using hu.symm⟩
    · exact .inr ⟨he, by simpa [he] using hu⟩
  exact {
    well := h.well
    chain := h.chain
    exclusive := by
      rw [hbag]
      exact h.exclusive
    held := by
      rw [hbag]
      exact h.held
    nonnull := h.nonnull
    ranges n hn := h.ranges n (ranged_of_update rfl hn)
    apart m n hm hn := h.apart m n (ranged_of_update rfl hm) (ranged_of_update rfl hn)
    page := h.page
    blocks := h.blocks
    owned b hb := h.owned b hb.2
    removing := by
      intro u b hu
      rcases hremove u b hu with ⟨-, rfl⟩ | ⟨-, hu⟩
      · exact ⟨h.owned b ours, fun hb => hb.1 rfl⟩
      · obtain ⟨hins, hb⟩ := h.removing u b hu
        exact ⟨hins, fun hb' => hb hb'.2⟩
    alone := by
      intro u v b hu hv
      rcases hremove u b hu with ⟨hut, hba⟩ | ⟨-, hu⟩ <;>
        rcases hremove v b hv with ⟨hvt, hba'⟩ | ⟨-, hv⟩
      · rw [hut, hvt]
      · exact absurd (hba ▸ ours) (h.removing v b hv).2
      · exact absurd (hba' ▸ ours) (h.removing u b hu).2
      · exact h.alone u v b hu hv }

omit [DecidableEq T] in
/-- A block that is not a page shares the list with the page of its node. -/
theorem Tracked.others (h : Tracked es s (xs ++ n :: ys) fs) (hn : n ∉ pages es) :
    xs ++ ys ≠ [] := by
  obtain ⟨p, hp, -⟩ := (h.held n).mp ⟨.alloc, by simp [bag]⟩
  have hmem := (h.page p hp).1
  simp only [List.mem_append, List.mem_cons] at hmem
  rcases hmem with hmem | rfl | hmem
  · exact List.ne_nil_of_mem (List.mem_append_left ys hmem)
  · exact absurd hp hn
  · exact List.ne_nil_of_mem (List.mem_append_right xs hmem)

theorem Tracked.step_remove (h : Tracked es s ns fs) (hpc : s.pc t = .remove a) {fuel : ℕ}
    {l : Lists} (removes : metadataRemove s.lists a fuel = some (n, l)) :
    ∃ ns', Tracked (.remove t a :: es)
      { s with lists := l, pc := Function.update s.pc t (.unmap n) } ns' fs := by
  obtain ⟨⟨j, hj⟩, hgone⟩ := h.removing t a hpc
  obtain ⟨c, hc, hcp, hca, -⟩ := (h.blocks a j).mp hj
  obtain ⟨xs, c', ys, rfl, hca', -, hspec⟩ := metadataRemove_spec h.well ⟨c, hc, hca⟩
  obtain rfl : c = c' := h.well.addr_inj hc (by simp) (hca.trans hca'.symm)
  obtain ⟨rfl, hwell, hkeeps⟩ := hspec (h.others hcp) fuel n l removes
  have hnodup := h.well.nodup
  rw [List.nodup_middle, List.nodup_cons] at hnodup
  have hmem : ∀ x, x ∈ xs ++ n :: ys ↔ x = n ∨ x ∈ xs ++ ys := by
    intro x
    simp only [List.mem_append, List.mem_cons]
    tauto
  have hchange : Change (bag (xs ++ n :: ys) fs s.pc)
      (bag (xs ++ ys) fs (Function.update s.pc t (.unmap n))) .keep := by
    refine change_hand (.inl rfl) (by simp [hpc, Pc.hand]) rfl List.perm_middle fun x hx hne => ?_
    rcases hx with rfl | rfl
    · exact absurd rfl hne
    · rfl
  obtain ⟨hexclusive, hheld⟩ := h.exchange (e := .remove t a) hchange rfl
  have hback : ∀ x, Ranged (xs ++ ys) (Function.update s.pc t (.unmap n)) x →
      Ranged (xs ++ n :: ys) s.pc x := by
    intro x hx
    rcases ranged_update.mp hx with hx | hx | ⟨u, -, hu⟩
    · exact .inl ((hmem x).mpr (.inr hx))
    · exact .inl ((hmem x).mpr (.inl (by simpa [Pc.range] using hx)))
    · exact .inr ⟨u, hu⟩
  refine ⟨xs ++ ys, ?_⟩
  exact {
    well := hwell
    chain := h.chain.congr hkeeps.freeList fun x hx => hkeeps.next x fun hm => h.not_free hm hx
    exclusive := hexclusive
    held := hheld
    nonnull := h.nonnull
    ranges := by
      intro x hx
      rw [hkeeps.addr, hkeeps.length]
      exact h.ranges x (hback x hx)
    apart := by
      intro x y hx hy hxy
      have happ := h.apart x y (hback x hx) (hback y hy) hxy
      simp only [Apart, highAddr, lowAddr, hkeeps.addr, hkeeps.length] at happ ⊢
      exact happ
    page := by
      intro q hq
      obtain ⟨hmemq, hpage⟩ := h.page q hq
      rw [hkeeps.addr, hkeeps.length]
      refine ⟨((hmem q).mp hmemq).resolve_left fun he => hcp (he ▸ hq), hpage⟩
    blocks := by
      intro b i
      simp only [Inserted, pages, hkeeps.addr, hkeeps.length, h.blocks, hmem]
      constructor
      · rintro ⟨hba, x, rfl | hx, hxp, hxb, hxi⟩
        · exact absurd (hxb.symm.trans hca) hba
        · exact ⟨x, hx, hxp, hxb, hxi⟩
      · rintro ⟨x, hx, hxp, hxb, hxi⟩
        refine ⟨fun hba => ?_, x, .inr hx, hxp, hxb, hxi⟩
        -- no other block has the address
        have he : x = n := h.well.addr_inj ((hmem x).mpr (.inr hx)) hc
          (hxb.trans (hba.trans hca.symm))
        exact hnodup.1 (he ▸ hx)
    owned := by
      intro b hb
      obtain ⟨i, hi⟩ := h.owned b hb
      exact ⟨i, fun he => hgone (he ▸ hb), hi⟩
    removing := by
      intro u b hu
      obtain ⟨hut, hu⟩ := remove_of_update hu (by simp)
      obtain ⟨⟨i, hi⟩, hb⟩ := h.removing u b hu
      refine ⟨⟨i, fun he => hut (h.alone u t a (he ▸ hu) hpc), hi⟩, hb⟩
    alone := h.alone_update (by simp) }

theorem Tracked.step_unmap (h : Tracked es s ns fs) (hpc : s.pc t = .unmap n) :
    Tracked (.unmap t (s.lists.addr n) (s.lists.length n) :: es) { s with
      mapped := s.mapped.filter (· ≠ (s.lists.addr n, s.lists.length n))
      pc := Function.update s.pc t (.free n) } ns fs := by
  have hrange : n ∈ (s.pc t).range := by simp [hpc, Pc.range]
  have hranged : Ranged ns s.pc n := .inr ⟨t, hrange⟩
  obtain ⟨hnot, -, hother⟩ := h.of_hand (Pc.hand_of_range hrange)
  have hbag : bag ns fs (Function.update s.pc t (.free n)) = bag ns fs s.pc :=
    bag_update_same (by simp [hpc, Pc.hand])
  have hback : ∀ x, Ranged ns (Function.update s.pc t (.free n)) x →
      x ≠ n ∧ Ranged ns s.pc x := by
    intro x hx
    rcases ranged_update.mp hx with hx | hx | ⟨u, hut, hu⟩
    · exact ⟨fun he => hnot (he ▸ hx), .inl hx⟩
    · cases hx
    · exact ⟨fun he => hut (hother u (Pc.hand_of_range (he ▸ hu))), .inr ⟨u, hu⟩⟩
  exact {
    well := h.well
    chain := h.chain
    exclusive := by
      rw [hbag]
      exact h.exclusive
    held := by
      rw [hbag]
      exact h.held
    nonnull := h.nonnull
    ranges := by
      intro x hx
      obtain ⟨hxn, hx⟩ := hback x hx
      obtain ⟨hpos, hmapped⟩ := h.ranges x hx
      refine ⟨hpos, List.mem_filter.mpr ⟨hmapped, ?_⟩⟩
      -- two equal ranges would overlap
      have happ := h.apart x n hx hranged hxn
      simp only [Apart, highAddr, lowAddr] at happ
      simp only [ne_eq, Prod.mk.injEq, decide_not, Bool.not_eq_true', decide_eq_false_iff_not]
      omega
    apart x y hx hy := h.apart x y (hback x hx).2 (hback y hy).2
    page := h.page
    blocks := h.blocks
    owned := h.owned
    removing := h.removing_update (by simp)
    alone := h.alone_update (by simp) }

theorem Tracked.step_free (h : Tracked es s ns fs) (hpc : s.pc t = .free n) :
    Tracked (.free t :: es) { s with
      lists := metadataFree s.lists n
      pc := Function.update s.pc t .idle } ns (n :: fs) := by
  have hhand : n ∈ (s.pc t).hand := by simp [hpc, Pc.hand]
  obtain ⟨hnot, hnotfree, -⟩ := h.of_hand hhand
  have hchange : Change (bag ns fs s.pc) (bag ns (n :: fs) (Function.update s.pc t .idle)) .keep := by
    refine change_store (.inr rfl) (by simp [hpc, Pc.hand]) rfl (List.Perm.refl _) fun x hx hne => ?_
    rcases hx with rfl | rfl
    · rfl
    · exact absurd rfl hne
  obtain ⟨hexclusive, hheld⟩ := h.exchange (e := .free t) hchange rfl
  exact {
    well := by
      refine h.well.congr rfl (fun m hm => ?_) (fun _ _ => rfl) (fun _ _ => rfl) fun _ _ => rfl
      refine Function.update_of_ne ?_ _ _
      rintro rfl
      exact hnot hm
    chain := h.chain.push hnotfree (h.ne_zero ⟨.hand t, hhand⟩)
    exclusive := hexclusive
    held := hheld
    nonnull := h.nonnull
    ranges m hm := h.ranges m (ranged_of_update rfl hm)
    apart m m' hm hm' := h.apart m m' (ranged_of_update rfl hm) (ranged_of_update rfl hm')
    page := h.page
    blocks := h.blocks
    owned := h.owned
    removing := h.removing_update (by simp)
    alone := h.alone_update (by simp) }

/-- Every step keeps the invariant. -/
theorem Tracked.step {e : Event T} (h : Tracked es s ns fs) (allowed : ownedRelease es s e)
    (move : Step s e s') : ∃ ns' fs', Tracked (e :: es) s' ns' fs' := by
  cases move with
  | call t k hpc => exact ⟨ns, fs, h.step_call hpc⟩
  | take t k n fuel p l hpc nodes new => exact ⟨ns, h.step_take hpc nodes new⟩
  | page t k n fuel p l hpc empty maps new => exact h.step_page hpc empty maps new
  | map t n k a hpc maps => exact ⟨ns, fs, h.step_map hpc maps⟩
  | insert t n fuel l hpc inserts =>
    obtain ⟨ns', h'⟩ := h.step_insert hpc inserts
    exact ⟨ns', fs, h'⟩
  | release t a hpc => exact ⟨ns, fs, h.step_release hpc allowed⟩
  | remove t a n fuel l hpc removes =>
    obtain ⟨ns', h'⟩ := h.step_remove hpc removes
    exact ⟨ns', fs, h'⟩
  | unmap t n hpc => exact ⟨ns, fs, h.step_unmap hpc⟩
  | free t n hpc => exact ⟨ns, n :: fs, h.step_free hpc⟩

theorem run_tracked (run : Run system ownedRelease es s) : ∃ ns fs, Tracked es s ns fs := by
  refine Run.invariant (I := fun es s => ∃ ns fs, Tracked es s ns fs) ?_ ?_ run
  · rintro _ rfl
    exact ⟨[], [], Tracked.initial⟩
  · rintro es s e s' - ⟨ns, fs, h⟩ allowed move
    exact h.step allowed move

omit [DecidableEq T] in
theorem Tracked.pages_ne_nil (h : Tracked es s ns fs) (hn : Held (bag ns fs s.pc) n) :
    pages es ≠ [] := by
  obtain ⟨p, hp, -⟩ := (h.held n).mp hn
  exact List.ne_nil_of_mem hp

omit [DecidableEq T] in
theorem Tracked.pages_of_inserted (h : Tracked es s ns fs) (hins : ∃ k, Inserted a k es) :
    pages es ≠ [] := by
  obtain ⟨k, hk⟩ := hins
  obtain ⟨n, hn, -⟩ := (h.blocks a k).mp hk
  exact h.pages_ne_nil ⟨.alloc, hn⟩

/-- Nothing happens after the entry of the first call without a page. -/
theorem Tracked.paged {e : Event T} (h : Tracked es s ns fs) (allowed : ownedRelease es s e)
    (move : Step s e s') (ne : ∀ t k, e ≠ .call t k) : pages (e :: es) ≠ [] := by
  have hold : ∀ {t : T} {n : ℕ}, n ∈ (s.pc t).hand → pages es ≠ [] :=
    fun ht => h.pages_ne_nil ⟨.hand _, ht⟩
  cases move with
  | call t k => exact absurd rfl (ne t k)
  | take t k n fuel p l hpc nodes new =>
    obtain ⟨x, cs, rfl, -⟩ := metadataNew_take h.chain nodes
    have hx : Held (bag ns (x :: cs) s.pc) x := ⟨.free, by simp [bag]⟩
    exact h.pages_ne_nil hx
  | page t k n fuel p => exact List.cons_ne_nil p _
  | map t n k a hpc => exact hold (t := t) (n := n) (by simp [hpc, Pc.hand])
  | insert t n fuel l hpc => exact hold (t := t) (n := n) (by simp [hpc, Pc.hand])
  | release t a => exact h.pages_of_inserted (h.owned a allowed)
  | remove t a n fuel l hpc => exact h.pages_of_inserted (h.removing t a hpc).1
  | unmap t n hpc => exact hold (t := t) (n := n) (by simp [hpc, Pc.hand])
  | free t n hpc => exact hold (t := t) (n := n) (by simp [hpc, Pc.hand])

omit [DecidableEq T] in
theorem pages_cons {e : Event T} (h : pages es ≠ []) : pages (e :: es) ≠ [] := by
  cases e with
  | page t p => exact List.cons_ne_nil p _
  | _ => exact h

theorem paged (run : Run system ownedRelease es s) :
    ∀ e ∈ es, (∀ t k, e ≠ .call t k) → pages es ≠ [] := by
  induction run with
  | init => simp
  | step run allowed move ih =>
    intro e' he ne
    rcases List.mem_cons.mp he with rfl | he
    · obtain ⟨ns, fs, h⟩ := run_tracked run
      exact h.paged allowed move ne
    · exact pages_cons (ih e' he ne)

omit [DecidableEq T] in
/-- The blocks on the list are those in use and the pages. -/
theorem Tracked.contents (h : Tracked es s ns fs) (a k : ℕ) :
    (∃ n ∈ ns, s.lists.addr n = a ∧ s.lists.length n = k) ↔
      Inserted a k es ∨ a ∈ pages es ∧ k = allocBlocksize := by
  rw [h.blocks]
  constructor
  · rintro ⟨n, hn, rfl, rfl⟩
    by_cases hp : n ∈ pages es
    · obtain ⟨-, haddr, hlength⟩ := h.page n hp
      rw [haddr]
      exact .inr ⟨hp, hlength⟩
    · exact .inl ⟨n, hn, hp, rfl, rfl⟩
  · rintro (⟨n, hn, -, hblock⟩ | ⟨ha, rfl⟩)
    · exact ⟨n, hn, hblock⟩
    · exact ⟨a, h.page a ha⟩

omit [DecidableEq T] in
/-- The insertion walk ends. -/
theorem Tracked.inserts (h : Tracked es s ns fs) (hpc : s.pc t = .insert n) :
    ∃ fuel l, metadataDoInsert s.lists n fuel = some l := by
  have hrange : n ∈ (s.pc t).range := by simp [hpc, Pc.range]
  have hhand := Pc.hand_of_range hrange
  have hnot := (h.of_hand hhand).1
  obtain ⟨-, -, -, hends, -⟩ := metadataDoInsert_spec h.well hnot (h.ne_zero ⟨.hand t, hhand⟩)
    (h.ranges n (.inr ⟨t, hrange⟩)).1
    fun x hx => h.apart n x (.inr ⟨t, hrange⟩) (.inl hx) fun he => hnot (he ▸ hx)
  exact hends

omit [DecidableEq T] in
/-- So does the one for the node of a new page. -/
theorem Tracked.inserts_page (h : Tracked es s ns fs) (empty : s.lists.freeList = 0)
    (maps : Maps s.mapped p allocBlocksize) : ∃ fuel r, metadataNew s.lists p fuel = some r := by
  obtain ⟨-, -, -, hends, -⟩ := metadataNew_page h.well empty maps.1
    (fun m hm => h.maps_apart maps (.inl hm))
    fun m hm hmem => h.page_fresh maps hm ((h.held m).mp ⟨.alloc, hmem⟩)
  exact hends

omit [DecidableEq T] in
/-- The removal walk ends. -/
theorem Tracked.removes (h : Tracked es s ns fs) (hpc : s.pc t = .remove a) :
    ∃ fuel r, metadataRemove s.lists a fuel = some r := by
  obtain ⟨⟨k, hk⟩, -⟩ := h.removing t a hpc
  obtain ⟨c, hc, -, hca, -⟩ := (h.blocks a k).mp hk
  obtain ⟨-, -, -, -, -, hends, -⟩ := metadataRemove_spec h.well ⟨c, hc, hca⟩
  exact hends

/-- In every run the list of blocks is a ring that ascends without overlaps from its head on; it
holds the blocks in use and the pages of metadata nodes, and is not empty once the first call has
taken a node; each node is in one place; and all walks end. -/
theorem blocks_tracked (run : Run system ownedRelease es s) :
    ∃ ns fs : List ℕ, WellFormed s.lists ns ∧ Chain s.lists fs ∧
      (ns.Pairwise fun m n => s.lists.addr m < s.lists.addr n) ∧
      (∀ a k, (∃ n ∈ ns, s.lists.addr n = a ∧ s.lists.length n = k) ↔
        Inserted a k es ∨ a ∈ pages es ∧ k = allocBlocksize) ∧
      (∀ e ∈ es, (∀ t k, e ≠ .call t k) → s.lists.allocList ≠ 0) ∧
      Exclusive (bag ns fs s.pc) ∧ (∀ n, Held (bag ns fs s.pc) n ↔ Carved n es) ∧
      (∀ t n, s.pc t = .insert n → ∃ fuel l, metadataDoInsert s.lists n fuel = some l) ∧
      (∀ t k p, s.pc t = .new k → s.lists.freeList = 0 → Maps s.mapped p allocBlocksize →
        ∃ fuel r, metadataNew s.lists p fuel = some r) ∧
      ∀ t a, s.pc t = .remove a → ∃ fuel r, metadataRemove s.lists a fuel = some r := by
  obtain ⟨ns, fs, h⟩ := run_tracked run
  refine ⟨ns, fs, h.well, h.chain, h.well.ascending, h.contents, ?_, h.exclusive, h.held,
    fun t n => h.inserts, fun t k p _ => h.inserts_page, fun t a => h.removes⟩
  intro e he ne hzero
  obtain ⟨p, hp⟩ := List.exists_mem_of_ne_nil _ (paged run e he ne)
  have hmem := (h.page p hp).1
  rw [h.well.allocList_eq_zero.mp hzero] at hmem
  cases hmem

/-! ### Calls of one thread -/

theorem map_run (run : Run system ownedRelease es s) (hpc : s.pc t = .map n k)
    (maps : Maps s.mapped a k) :
    ∃ s', Run system ownedRelease (.insert t a k :: .map t a k :: es) s' ∧ s'.pc t = .idle ∧
      s'.mapped = (a, k) :: s.mapped := by
  have hmap := run.step (show ownedRelease es s (.map t a k) from trivial) (.map s t n k a hpc maps)
  obtain ⟨ns, fs, h⟩ := run_tracked hmap
  obtain ⟨fuel, l, hl⟩ := h.inserts (t := t) (n := n) (Function.update_self ..)
  have hinsert := Step.insert _ t n fuel l (Function.update_self ..) hl
  simp only [Function.update_self] at hinsert
  exact ⟨_, hmap.step trivial hinsert, Function.update_self .., rfl⟩

/-- A call of `threadscan_alloc_mmap`, which maps a page if no node is free. -/
theorem mmap_run (run : Run system ownedRelease es s) (idle : s.pc t = .idle)
    (page : Maps s.mapped p allocBlocksize) (maps : Maps ((p, allocBlocksize) :: s.mapped) a k) :
    ∃ e s', (e = .take t ∨ e = .page t p) ∧
      Run system ownedRelease (.insert t a k :: .map t a k :: e :: .call t k :: es) s' ∧
      s'.pc t = .idle ∧ ∀ r ∈ s'.mapped, r = (a, k) ∨ r = (p, allocBlocksize) ∨ r ∈ s.mapped := by
  have hcall := run.step (show ownedRelease es s (.call t k) from trivial) (.call s t k idle)
  obtain ⟨ns, fs, h⟩ := run_tracked hcall
  by_cases empty : s.lists.freeList = 0
  · obtain ⟨fuel, ⟨n, l⟩, hn⟩ := h.inserts_page empty page
    have hpage := hcall.step (show ownedRelease _ _ (.page t p) from trivial)
      (.page _ t k n fuel p l (Function.update_self ..) empty page hn)
    obtain ⟨s', hrun, hidle, hmapped⟩ := map_run hpage (Function.update_self ..) maps
    refine ⟨_, s', .inr rfl, hrun, hidle, fun r hr => ?_⟩
    rw [hmapped] at hr
    simpa using hr
  · obtain ⟨n, cs, -, -, hn⟩ := metadataNew_take h.chain empty
    have htake := hcall.step (show ownedRelease _ _ (.take t) from trivial)
      (.take _ t k n 0 p _ (Function.update_self ..) empty (hn p 0))
    obtain ⟨haddr, halign, hsize, happart⟩ := maps
    obtain ⟨s', hrun, hidle, hmapped⟩ := map_run htake (Function.update_self ..)
      ⟨haddr, halign, hsize, fun r hr => happart r (List.mem_cons_of_mem _ hr)⟩
    refine ⟨_, s', .inl rfl, hrun, hidle, fun r hr => ?_⟩
    rw [hmapped] at hr
    exact (List.mem_cons.mp hr).imp_right .inr

/-- A call of `threadscan_alloc_munmap`. -/
theorem munmap_run (run : Run system ownedRelease es s) (idle : s.pc t = .idle) (owned : Owned a es) :
    ∃ b m s', Run system ownedRelease
      (.free t :: .unmap t b m :: .remove t a :: .release t a :: es) s' ∧ s'.pc t = .idle := by
  have hrelease := run.step (show ownedRelease es s (.release t a) from owned) (.release s t a idle)
  obtain ⟨ns, fs, h⟩ := run_tracked hrelease
  obtain ⟨fuel, ⟨n, l⟩, hn⟩ := h.removes (t := t) (a := a) (Function.update_self ..)
  have hremove := hrelease.step (show ownedRelease _ _ (.remove t a) from trivial)
    (.remove _ t a n fuel l (Function.update_self ..) hn)
  have hunmap := hremove.step (show ownedRelease _ _ (.unmap t (l.addr n) (l.length n)) from trivial)
    (.unmap _ t n (Function.update_self ..))
  have hfree := hunmap.step (show ownedRelease _ _ (.free t) from trivial)
    (.free _ t n (Function.update_self ..))
  exact ⟨_, _, _, hfree, Function.update_self ..⟩

/-- A block gets on the list behind a page, and another one between the two; then the first one
is unmapped. -/
theorem blocks_tracked_unmap : ∃ (es : List (Event Unit)) (s : State Unit) (ns : List ℕ),
    Run system ownedRelease es s ∧ Event.insert () 16384 4096 ∈ es ∧ Event.free () ∈ es ∧
    WellFormed s.lists ns ∧ (∃ n ∈ ns, s.lists.addr n = 8192 ∧ s.lists.length n = 4096) ∧
    ∀ n ∈ ns, s.lists.addr n ≠ 16384 := by
  obtain ⟨e₁, s₁, he₁, run₁, idle₁, hmapped₁⟩ := mmap_run (t := ()) (p := 4096) (a := 16384)
    (k := 4096) (.init (rfl : system.init (initial : State Unit))) rfl
    (by simp [Maps, initial, allocBlocksize]) (by simp [Maps, initial, allocBlocksize])
  have hranges₁ : ∀ r ∈ s₁.mapped, r = (16384, 4096) ∨ r = (4096, 4096) := fun r hr => by
    simpa [initial, allocBlocksize] using hmapped₁ r hr
  obtain ⟨e₂, s₂, he₂, run₂, idle₂, -⟩ := mmap_run (p := 32768) (a := 8192) (k := 4096) run₁ idle₁
    ⟨by decide, by decide, by decide, fun r hr => by
      obtain rfl | rfl := hranges₁ r hr <;> simp⟩
    ⟨by decide, by decide, by decide, fun r hr => by
      obtain rfl | hr := List.mem_cons.mp hr
      · simp
      · obtain rfl | rfl := hranges₁ r hr <;> simp⟩
  have howned : Owned 16384 (.insert () 8192 4096 :: .map () 8192 4096 :: e₂ :: .call () 4096 ::
      .insert () 16384 4096 :: .map () 16384 4096 :: e₁ :: .call () 4096 :: []) := by
    obtain rfl | rfl := he₂ <;> simp [Owned]
  obtain ⟨b, m, s₃, run₃, -⟩ := munmap_run run₂ idle₂ howned
  obtain ⟨ns, fs, hwell, -, -, hcontents, -⟩ := blocks_tracked run₃
  refine ⟨_, s₃, ns, run₃, by simp, by simp, hwell, (hcontents 8192 4096).mpr (.inl ?_), ?_⟩
  · simp [Inserted]
  · intro n hn hna
    obtain hinserted | ⟨hpage, -⟩ := (hcontents 16384 _).mp ⟨n, hn, hna, rfl⟩
    · obtain rfl | rfl := he₁ <;> obtain rfl | rfl := he₂ <;> simp [Inserted] at hinserted
    · obtain rfl | rfl := he₁ <;> obtain rfl | rfl := he₂ <;> simp [pages] at hpage

end ThreadScan.Alloc
