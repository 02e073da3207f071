import ThreadScan.CircularList
import ThreadScan.LinkedList

/-! The metadata nodes of mapped memory (`alloc.c`): a sorted circular list of the blocks in use
and a chain of free nodes. The nodes live in pages whose own blocks are on the list. -/
namespace ThreadScan.Metadata
open CircularList LinkedList

/-- ALLOC_BLOCKSIZE. -/
def allocBlocksize : ℕ := 4096

/-- sizeof(memory_metadata_t). -/
def metadataSize : ℕ := 32

/-- The fields of the `memory_metadata_t` objects by address, null being 0, and the two lists. -/
structure Lists where
  addr : ℕ → ℕ
  length : ℕ → ℕ
  next : ℕ → ℕ
  prev : ℕ → ℕ
  freeList : ℕ
  allocList : ℕ

def lowAddr (l : Lists) (m : ℕ) : ℕ := l.addr m

def highAddr (l : Lists) (m : ℕ) : ℕ := lowAddr l m + l.length m

/-- The stores by which `metadata_do_insert` puts a node in front of another one. -/
def linkBefore (l : Lists) (node curr : ℕ) : Lists :=
  let l := { l with next := Function.update l.next node curr }
  let l := { l with prev := Function.update l.prev node (l.prev curr) }
  let l := { l with next := Function.update l.next (l.prev curr) node }
  { l with prev := Function.update l.prev curr node }

/-- `metadata_do_insert`, if its walk takes less than the given number of steps. -/
def metadataDoInsert (l : Lists) (node fuel : ℕ) : Option Lists :=
  if l.allocList = 0 then
    some { l with
      allocList := node
      next := Function.update l.next node node
      prev := Function.update l.prev node node }
  else if highAddr l (l.prev l.allocList) ≤ lowAddr l node then
    -- the common case, if mmap() is allocating blocks at increasing addresses
    some (linkBefore l node l.allocList)
  else
    (walk l.next (fun curr => !decide (lowAddr l curr < highAddr l node)) fuel l.allocList).map
      fun curr =>
        if curr = l.allocList then { linkBefore l node curr with allocList := node }
        else linkBefore l node curr

/-- `metadata_remove`: the node of the address, and the lists without it. The links of the node
are cleared after the lock is released, when no other thread looks at it. -/
def metadataRemove (l : Lists) (addr fuel : ℕ) : Option (ℕ × Lists) :=
  (walk l.next (fun curr => decide (l.addr curr = addr)) fuel l.allocList).map fun curr =>
    let l := { l with prev := Function.update l.prev (l.next curr) (l.prev curr) }
    let l := { l with next := Function.update l.next (l.prev curr) (l.next curr) }
    let l := if curr = l.allocList then { l with allocList := l.next curr } else l
    (curr, { l with
      next := Function.update l.next curr 0
      prev := Function.update l.prev curr 0 })

/-- The loop of `metadata_new` that turns the rest of a page into free nodes. -/
def carve (p offset : ℕ) (l : Lists) : Lists :=
  if offset < allocBlocksize - metadataSize then
    carve p (offset + metadataSize) { l with
      next := Function.update l.next (p + offset) l.freeList
      freeList := p + offset }
  else l
termination_by allocBlocksize - offset
decreasing_by simp [allocBlocksize, metadataSize] at *; omega

/-- `metadata_new`: the first free node, and the lists without it. Where there is none, `p` is
the page that `mmap_wrap` returns. -/
def metadataNew (l : Lists) (p fuel : ℕ) : Option (ℕ × Lists) :=
  let filled :=
    if l.freeList = 0 then
      (metadataDoInsert { l with
        addr := Function.update l.addr p p
        length := Function.update l.length p allocBlocksize } p fuel).map (carve p metadataSize)
    else some l
  filled.map fun l => (l.freeList, { l with freeList := l.next l.freeList })

def metadataFree (l : Lists) (node : ℕ) : Lists :=
  { l with next := Function.update l.next node l.freeList, freeList := node }

/-! ### The list of blocks -/

/-- A ring from the lowest block on, without overlaps. -/
structure WellFormed (l : Lists) (ns : List ℕ) : Prop where
  ring : Circular l.next l.prev ns
  start : l.allocList = ns.head?.getD 0
  sorted : ns.Pairwise fun m n => highAddr l m ≤ lowAddr l n
  positive : ∀ n ∈ ns, 0 < l.length n
  nonnull : ∀ n ∈ ns, n ≠ 0

variable {l l' : Lists} {ns xs ys : List ℕ} {m n node curr addr fuel : ℕ}

/-- The ranges of two nodes do not overlap. -/
def Apart (l : Lists) (m n : ℕ) : Prop := highAddr l m ≤ lowAddr l n ∨ highAddr l n ≤ lowAddr l m

theorem Apart.symm (h : Apart l m n) : Apart l n m := Or.symm h

/-- What an operation on the ring leaves alone. -/
structure Keeps (l l' : Lists) (ns : List ℕ) : Prop where
  addr : l'.addr = l.addr
  length : l'.length = l.length
  freeList : l'.freeList = l.freeList
  next : ∀ m, m ∉ ns → l'.next m = l.next m

/-- The addresses ascend. -/
theorem WellFormed.ascending (h : WellFormed l ns) : ns.Pairwise fun m n => l.addr m < l.addr n := by
  refine h.sorted.imp_of_mem fun {m n} hm _ hmn => ?_
  have hpos := h.positive m hm
  simp only [highAddr, lowAddr] at hmn
  omega

theorem WellFormed.nodup (h : WellFormed l ns) : ns.Nodup :=
  h.ascending.imp fun hmn he => by simp [he] at hmn

theorem WellFormed.apart (h : WellFormed l ns) (hm : m ∈ ns) (hn : n ∈ ns) (ne : m ≠ n) :
    Apart l m n := by
  have hsymm : Std.Symm (Apart l) := ⟨fun _ _ => Apart.symm⟩
  have hapart : ns.Pairwise (Apart l) := h.sorted.imp Or.inl
  exact hapart.forall hm hn ne

theorem WellFormed.addr_inj (h : WellFormed l ns) (hm : m ∈ ns) (hn : n ∈ ns)
    (he : l.addr m = l.addr n) : m = n := by
  by_contra hne
  have hmpos := h.positive m hm
  have hnpos := h.positive n hn
  rcases h.apart hm hn hne with hd | hd <;> simp only [highAddr, lowAddr] at hd <;> omega

/-- The list has blocks exactly if its head is not null. -/
theorem WellFormed.allocList_eq_zero (h : WellFormed l ns) : l.allocList = 0 ↔ ns = [] := by
  rw [h.start]
  cases ns with
  | nil => simp
  | cons a ns => simpa using h.nonnull a (by simp)

theorem linkBefore_next (ne : curr ≠ node) : (linkBefore l node curr).next =
    Function.update (Function.update l.next node curr) (l.prev curr) node := by
  simp [linkBefore, Function.update_of_ne ne]

theorem linkBefore_prev (ne : curr ≠ node) : (linkBefore l node curr).prev =
    Function.update (Function.update l.prev node (l.prev curr)) curr node := by
  simp [linkBefore, Function.update_of_ne ne]

/-- The stores put the node between the blocks in front of `curr` and `curr`. -/
theorem WellFormed.linkBefore_ring (h : WellFormed l (xs ++ curr :: ys))
    (fresh : node ∉ xs ++ curr :: ys) :
    Circular (linkBefore l node curr).next (linkBefore l node curr).prev (xs ++ node :: curr :: ys) := by
  have hmem : ∀ x, x ∈ curr :: (ys ++ xs) ↔ x ∈ xs ++ curr :: ys := by
    intro x
    simp only [List.mem_cons, List.mem_append]
    tauto
  have hnodup : (curr :: (ys ++ xs)).Nodup := by
    have hperm : (xs ++ curr :: ys).Perm (curr :: (ys ++ xs)) := List.perm_append_comm
    exact hperm.nodup_iff.mp h.nodup
  have hne : curr ≠ node := fun he => fresh (by simp [← he])
  have hring : Circular l.next l.prev (curr :: (ys ++ xs)) := h.ring.rotate
  have hinsert := hring.insert hnodup (fun hx => fresh ((hmem _).mp hx))
  rw [linkBefore_next hne, linkBefore_prev hne]
  have hsplit : curr :: (ys ++ xs ++ [node]) = (curr :: ys) ++ (xs ++ [node]) := by simp
  rw [hsplit] at hinsert
  have hrotated := hinsert.rotate
  simpa using hrotated

/-- The predecessor of a block is on the list. -/
theorem WellFormed.prev_mem (h : WellFormed l (xs ++ curr :: ys)) :
    l.prev curr ∈ xs ++ curr :: ys := by
  have hring : Circular l.next l.prev (curr :: (ys ++ xs)) := h.ring.rotate
  rw [hring.prev_head]
  have hlast := List.getLast_mem (List.cons_ne_nil curr (ys ++ xs))
  simp only [List.mem_cons, List.mem_append] at hlast ⊢
  tauto

theorem WellFormed.linkBefore_keeps (h : WellFormed l (xs ++ curr :: ys))
    (fresh : node ∉ xs ++ curr :: ys) :
    Keeps l (linkBefore l node curr) (node :: (xs ++ curr :: ys)) := by
  have hne : curr ≠ node := fun he => fresh (by simp [← he])
  refine ⟨rfl, rfl, rfl, fun m hm => ?_⟩
  rw [List.mem_cons, not_or] at hm
  have hprev : m ≠ l.prev curr := fun he => hm.2 (he ▸ h.prev_mem)
  rw [linkBefore_next hne, Function.update_of_ne hprev, Function.update_of_ne hm.1]

/-- A block that fits between two parts of the list. -/
theorem sorted_insert (h : (xs ++ ys).Pairwise fun m n => highAddr l m ≤ lowAddr l n)
    (below : ∀ x ∈ xs, highAddr l x ≤ lowAddr l node)
    (above : ∀ y ∈ ys, highAddr l node ≤ lowAddr l y) :
    (xs ++ node :: ys).Pairwise fun m n => highAddr l m ≤ lowAddr l n := by
  rw [List.pairwise_append] at h ⊢
  refine ⟨h.1, List.pairwise_cons.mpr ⟨above, h.2.1⟩, fun x hx y hy => ?_⟩
  rcases List.mem_cons.mp hy with rfl | hy
  · exact below x hx
  · exact h.2.2 x hx y hy

theorem WellFormed.below_of_sorted (h : WellFormed l (xs ++ curr :: ys)) {x : ℕ} (hx : x ∈ xs) :
    highAddr l x ≤ lowAddr l curr :=
  (List.pairwise_append.mp h.sorted).2.2 x hx curr List.mem_cons_self

theorem WellFormed.above_of_sorted (h : WellFormed l (xs ++ curr :: ys)) {y : ℕ} (hy : y ∈ ys) :
    highAddr l curr ≤ lowAddr l y :=
  (List.pairwise_cons.mp (List.pairwise_append.mp h.sorted).2.1).1 y hy

/-- The ring with the node in it, once the links and the head are right. -/
theorem WellFormed.insert (h : WellFormed l (xs ++ ys)) (keeps : Keeps l l' (node :: (xs ++ ys)))
    (ring : Circular l'.next l'.prev (xs ++ node :: ys))
    (start : l'.allocList = (xs ++ node :: ys).head?.getD 0) (nonnull : node ≠ 0)
    (positive : 0 < l.length node) (below : ∀ x ∈ xs, highAddr l x ≤ lowAddr l node)
    (above : ∀ y ∈ ys, highAddr l node ≤ lowAddr l y) : WellFormed l' (xs ++ node :: ys) := by
  have hlow : lowAddr l' = lowAddr l := by
    funext m
    simp only [lowAddr, keeps.addr]
  have hhigh : highAddr l' = highAddr l := by
    funext m
    simp only [highAddr, hlow, keeps.length]
  have hmem : ∀ n, n ∈ xs ++ node :: ys → n = node ∨ n ∈ xs ++ ys := by
    intro n hn
    simp only [List.mem_append, List.mem_cons] at hn ⊢
    tauto
  refine ⟨ring, start, ?_, ?_, ?_⟩
  · rw [hlow, hhigh]
    exact sorted_insert h.sorted below above
  · intro n hn
    rw [keeps.length]
    rcases hmem n hn with rfl | hn
    · exact positive
    · exact h.positive n hn
  · intro n hn
    rcases hmem n hn with rfl | hn
    · exact nonnull
    · exact h.nonnull n hn

/-- The insertion into an empty list. -/
theorem metadataDoInsert_nil (h : WellFormed l []) (nonnull : node ≠ 0)
    (positive : 0 < l.length node) :
    ∃ l', (∀ fuel, metadataDoInsert l node fuel = some l') ∧ WellFormed l' [node] ∧
      Keeps l l' [node] := by
  have halloc : l.allocList = 0 := h.allocList_eq_zero.mpr rfl
  refine ⟨_, fun fuel => by rw [metadataDoInsert, if_pos halloc], ?_, ?_⟩
  · have hnil : WellFormed l ([] ++ []) := h
    refine hnil.insert ⟨rfl, rfl, rfl, ?_⟩ ?_ rfl nonnull positive ?_ ?_
    · intro m hm
      exact Function.update_of_ne (by simpa using hm) _ _
    · exact Circular.single (Function.update_self ..) (Function.update_self ..)
    · simp
    · simp
  · exact ⟨rfl, rfl, rfl, fun m hm => Function.update_of_ne (by simpa using hm) _ _⟩

/-- The insertion at the end, which takes no walk. -/
theorem metadataDoInsert_append (h : WellFormed l ns) (ne : ns ≠ []) (fresh : node ∉ ns)
    (nonnull : node ≠ 0) (positive : 0 < l.length node)
    (last : highAddr l (l.prev l.allocList) ≤ lowAddr l node) :
    ∃ l', (∀ fuel, metadataDoInsert l node fuel = some l') ∧ WellFormed l' (ns ++ [node]) ∧
      Keeps l l' (node :: ns) := by
  cases ns with
  | nil => exact absurd rfl ne
  | cons c r =>
    have halloc : l.allocList = c := h.start
    have hzero : l.allocList ≠ 0 := fun he => ne (h.allocList_eq_zero.mp he)
    have hfront : WellFormed l ([] ++ c :: r) := h
    have hback : WellFormed l (c :: r ++ []) := by rwa [List.append_nil]
    have hkeeps := hfront.linkBefore_keeps fresh
    refine ⟨_, fun fuel => by rw [metadataDoInsert, if_neg hzero, if_pos last], ?_, ?_⟩
    · rw [halloc]
      refine hback.insert (by rwa [List.append_nil]) ?_ ?_ nonnull positive ?_ (by simp)
      · have hring := hfront.linkBefore_ring fresh
        exact Circular.rotate (l := [node]) hring
      · exact halloc
      · -- the last block is above all others
        intro x hx
        rw [halloc, h.ring.prev_head] at last
        obtain ⟨s, z, hs⟩ : ∃ s z, c :: r = s ++ [z] :=
          ⟨_, _, (List.dropLast_append_getLast (List.cons_ne_nil c r)).symm⟩
        simp only [hs, List.getLast_append_singleton] at last
        rw [hs] at hx h
        rcases List.mem_append.mp hx with hx | hx
        · have hbelow := h.below_of_sorted hx
          simp only [highAddr] at last hbelow ⊢
          omega
        · rw [List.mem_singleton.mp hx]
          exact last
    · rw [halloc]
      exact hkeeps

/-- The insertion in front of the first block that is not below the new one. -/
theorem metadataDoInsert_walk (h : WellFormed l ns) (ne : ns ≠ []) (fresh : node ∉ ns)
    (nonnull : node ≠ 0) (positive : 0 < l.length node) (apart : ∀ n ∈ ns, Apart l node n)
    (last : ¬ highAddr l (l.prev l.allocList) ≤ lowAddr l node) :
    ∃ xs ys, ns = xs ++ ys ∧ (∃ fuel l', metadataDoInsert l node fuel = some l') ∧
      ∀ fuel l', metadataDoInsert l node fuel = some l' →
        WellFormed l' (xs ++ node :: ys) ∧ Keeps l l' (node :: ns) := by
  have hzero : l.allocList ≠ 0 := fun he => ne (h.allocList_eq_zero.mp he)
  have hhead : l.allocList ∈ ns.head? := by
    cases ns with
    | nil => exact absurd rfl ne
    | cons c r => simpa using h.start.symm
  -- the last block is above the new one and stops the walk
  have hpass : ∃ x ∈ ns, (!decide (lowAddr l x < highAddr l node)) = true := by
    cases ns with
    | nil => exact absurd rfl ne
    | cons c r =>
      have hfront : WellFormed l ([] ++ c :: r) := h
      have hmem : l.prev l.allocList ∈ c :: r := by
        rw [show l.allocList = c from h.start]
        exact hfront.prev_mem
      refine ⟨_, hmem, ?_⟩
      rcases apart _ hmem with happ | happ
      · simpa using happ
      · exact absurd happ last
  obtain ⟨xs, curr, ys, rfl, hstop, hfail, hwalk⟩ := h.ring.walk_finds hhead hpass
  have hkeeps := h.linkBefore_keeps fresh
  have hring := h.linkBefore_ring fresh
  have habove : ∀ y ∈ curr :: ys, highAddr l node ≤ lowAddr l y := by
    have hcurr : highAddr l node ≤ lowAddr l curr := by simpa using hstop
    intro y hy
    rcases List.mem_cons.mp hy with rfl | hy
    · exact hcurr
    · have hsorted := h.above_of_sorted hy
      have hpos := h.positive curr (by simp)
      simp only [highAddr] at hcurr hsorted ⊢
      omega
  have hbelow : ∀ x ∈ xs, highAddr l x ≤ lowAddr l node := by
    intro x hx
    have hx' : lowAddr l x < highAddr l node := by simpa using hfail x hx
    rcases apart x (by simp [hx]) with happ | happ
    · omega
    · exact happ
  refine ⟨xs, curr :: ys, rfl, ⟨xs.length + 1, ?_⟩, fun fuel l' hl' => ?_⟩
  · rw [metadataDoInsert, if_neg hzero, if_neg last, hwalk]
    exact ⟨_, rfl⟩
  · rw [metadataDoInsert, if_neg hzero, if_neg last, Option.map_eq_some_iff] at hl'
    obtain ⟨curr', hwalk', rfl⟩ := hl'
    obtain rfl := walk_unique hwalk' hwalk
    cases xs with
    | nil =>
      have hcurr : curr' = l.allocList := h.start.symm
      rw [if_pos hcurr]
      have hkeeps' : Keeps l { linkBefore l node curr' with allocList := node }
          (node :: ([] ++ curr' :: ys)) := ⟨rfl, rfl, rfl, hkeeps.next⟩
      exact ⟨h.insert hkeeps' hring rfl nonnull positive hbelow habove, hkeeps'⟩
    | cons c xs =>
      have hcurr : curr' ≠ l.allocList := by
        rw [show l.allocList = c from h.start]
        have hnodup := h.nodup
        simp only [List.cons_append, List.nodup_cons, List.mem_append, List.mem_cons, not_or] at hnodup
        exact Ne.symm hnodup.1.2.1
      rw [if_neg hcurr]
      exact ⟨h.insert hkeeps hring h.start nonnull positive hbelow habove, hkeeps⟩

/-- `metadata_do_insert` ends, and puts the node where it belongs. -/
theorem metadataDoInsert_spec (h : WellFormed l ns) (fresh : node ∉ ns) (nonnull : node ≠ 0)
    (positive : 0 < l.length node) (apart : ∀ n ∈ ns, Apart l node n) :
    ∃ xs ys, ns = xs ++ ys ∧ (∃ fuel l', metadataDoInsert l node fuel = some l') ∧
      ∀ fuel l', metadataDoInsert l node fuel = some l' →
        WellFormed l' (xs ++ node :: ys) ∧ Keeps l l' (node :: ns) := by
  by_cases ne : ns = []
  · subst ne
    obtain ⟨l', hl', hgood⟩ := metadataDoInsert_nil h nonnull positive
    refine ⟨[], [], rfl, ⟨0, l', hl' 0⟩, fun fuel l'' hl'' => ?_⟩
    obtain rfl : l' = l'' := Option.some.inj ((hl' fuel).symm.trans hl'')
    exact hgood
  by_cases last : highAddr l (l.prev l.allocList) ≤ lowAddr l node
  · obtain ⟨l', hl', hgood⟩ := metadataDoInsert_append h ne fresh nonnull positive last
    refine ⟨ns, [], (List.append_nil ns).symm, ⟨0, l', hl' 0⟩, fun fuel l'' hl'' => ?_⟩
    obtain rfl : l' = l'' := Option.some.inj ((hl' fuel).symm.trans hl'')
    exact hgood
  · exact metadataDoInsert_walk h ne fresh nonnull positive apart last

/-- The neighbours of a block that is not the only one are other blocks. -/
theorem WellFormed.neighbours (h : WellFormed l (xs ++ curr :: ys)) (ne : xs ++ ys ≠ []) :
    l.next curr ∈ (ys ++ xs).head? ∧ l.next curr ≠ curr ∧ l.prev curr ≠ curr := by
  have hring : Circular l.next l.prev (curr :: (ys ++ xs)) := h.ring.rotate
  have hnodup := h.nodup
  rw [List.nodup_middle, List.nodup_cons, List.mem_append] at hnodup
  obtain ⟨a, r, hr⟩ : ∃ a r, ys ++ xs = a :: r := by
    refine List.exists_cons_of_ne_nil fun he => ne ?_
    rw [List.append_eq_nil_iff] at he ⊢
    exact he.symm
  have hother : ∀ x ∈ a :: r, x ≠ curr := by
    intro x hx he
    rw [← hr, List.mem_append, he] at hx
    exact hnodup.1 hx.symm
  rw [hr] at hring ⊢
  obtain ⟨hlink, -⟩ := List.isChain_cons_cons.mp hring
  refine ⟨?_, ?_, ?_⟩
  · rw [hlink.1]
    rfl
  · rw [hlink.1]
    exact hother a (by simp)
  · rw [hring.prev_head, List.getLast_cons (by simp)]
    exact hother _ (List.getLast_mem _)

/-- The ring without a block that is not the only one. -/
theorem WellFormed.unlink_ring (h : WellFormed l (xs ++ curr :: ys)) (ne : xs ++ ys ≠ []) :
    Circular (Function.update l.next (l.prev curr) (l.next curr))
      (Function.update l.prev (l.next curr) (l.prev curr)) (xs ++ ys) := by
  have hring : Circular l.next l.prev (curr :: (ys ++ xs)) := h.ring.rotate
  have hperm : (xs ++ curr :: ys).Perm (curr :: (ys ++ xs)) := List.perm_append_comm
  have hnodup := hperm.nodup_iff.mp h.nodup
  obtain ⟨a, r, hr⟩ : ∃ a r, ys ++ xs = a :: r := by
    refine List.exists_cons_of_ne_nil fun he => ne ?_
    rw [List.append_eq_nil_iff] at he ⊢
    exact he.symm
  rw [hr] at hring hnodup
  have hremoved := hring.remove hnodup
  rw [← hr] at hremoved
  exact hremoved.rotate

/-- Some blocks of a ring, once the links and the head are right. -/
theorem WellFormed.sublist {l l' : Lists} {ns ns' : List ℕ} (h : WellFormed l ns)
    (sub : ns'.Sublist ns) (addr : l'.addr = l.addr) (length : l'.length = l.length)
    (ring : Circular l'.next l'.prev ns') (start : l'.allocList = ns'.head?.getD 0) :
    WellFormed l' ns' := by
  have hlow : lowAddr l' = lowAddr l := by
    funext m
    simp only [lowAddr, addr]
  have hhigh : highAddr l' = highAddr l := by
    funext m
    simp only [highAddr, hlow, length]
  refine ⟨ring, start, ?_, fun n hn => ?_, fun n hn => h.nonnull n (sub.subset hn)⟩
  · rw [hlow, hhigh]
    exact h.sorted.sublist sub
  · rw [length]
    exact h.positive n (sub.subset hn)

/-- `metadata_remove` ends if the address is that of a block, and takes the block out if that is
not the only one. -/
theorem metadataRemove_spec (h : WellFormed l ns) (tracked : ∃ c ∈ ns, l.addr c = addr) :
    ∃ xs c ys, ns = xs ++ c :: ys ∧ l.addr c = addr ∧
      (∃ fuel r, metadataRemove l addr fuel = some r) ∧
      (xs ++ ys ≠ [] → ∀ fuel n l', metadataRemove l addr fuel = some (n, l') →
        n = c ∧ WellFormed l' (xs ++ ys) ∧ Keeps l l' ns) := by
  have hhead : l.allocList ∈ ns.head? := by
    cases ns with
    | nil => obtain ⟨c, hc, -⟩ := tracked; cases hc
    | cons c r => simpa using h.start.symm
  have hpass : ∃ c ∈ ns, decide (l.addr c = addr) = true := by simpa using tracked
  obtain ⟨xs, curr, ys, rfl, hstop, -, hwalk⟩ := h.ring.walk_finds hhead hpass
  refine ⟨xs, curr, ys, rfl, by simpa using hstop, ⟨xs.length + 1, ?_⟩, ?_⟩
  · rw [metadataRemove, hwalk]
    exact ⟨_, rfl⟩
  intro ne fuel n l' hl'
  rw [metadataRemove, Option.map_eq_some_iff] at hl'
  obtain ⟨curr', hwalk', hl'⟩ := hl'
  obtain rfl := walk_unique hwalk' hwalk
  obtain ⟨hnext, hnextne, hprevne⟩ := h.neighbours ne
  have hnodup := h.nodup
  rw [List.nodup_middle, List.nodup_cons] at hnodup
  have hsub : (xs ++ ys).Sublist (xs ++ curr' :: ys) :=
    List.Sublist.append_left (List.sublist_cons_self curr' ys) xs
  simp only [Function.update_of_ne hnextne.symm, Function.update_of_ne hprevne.symm] at hl'
  obtain ⟨rfl, rfl⟩ := Prod.mk.inj hl'
  have hother : ∀ x ∈ xs ++ ys, x ≠ curr' := fun x hx he => hnodup.1 (he ▸ hx)
  have hring : Circular
      (Function.update (Function.update l.next (l.prev curr') (l.next curr')) curr' 0)
      (Function.update (Function.update l.prev (l.next curr') (l.prev curr')) curr' 0)
      (xs ++ ys) :=
    (h.unlink_ring ne).congr (fun x hx => Function.update_of_ne (hother x hx) _ _)
      fun x hx => Function.update_of_ne (hother x hx) _ _
  have hout : ∀ m, m ∉ xs ++ curr' :: ys →
      Function.update (Function.update l.next (l.prev curr') (l.next curr')) curr' 0 m = l.next m := by
    intro m hm
    rw [Function.update_of_ne, Function.update_of_ne]
    · exact fun he => hm (he ▸ h.prev_mem)
    · exact fun he => hm (by simp [he])
  refine ⟨rfl, ?_⟩
  cases xs with
  | nil =>
    have hcurr : curr' = l.allocList := h.start.symm
    simp only [if_pos hcurr]
    refine ⟨h.sublist hsub rfl rfl hring ?_, rfl, rfl, rfl, hout⟩
    rw [List.append_nil] at hnext
    simp only [List.nil_append, Option.mem_def.mp hnext, Option.getD_some]
  | cons c xs =>
    have hcurr : curr' ≠ l.allocList := by
      rw [show l.allocList = c from h.start]
      exact (hother c (by simp)).symm
    simp only [if_neg hcurr]
    exact ⟨h.sublist hsub rfl rfl hring h.start, rfl, rfl, rfl, hout⟩

/-- The ring sees nothing of a change elsewhere. -/
theorem WellFormed.congr (h : WellFormed l ns) (start : l'.allocList = l.allocList)
    (next : ∀ m ∈ ns, l'.next m = l.next m) (prev : ∀ m ∈ ns, l'.prev m = l.prev m)
    (addr : ∀ m ∈ ns, l'.addr m = l.addr m) (length : ∀ m ∈ ns, l'.length m = l.length m) :
    WellFormed l' ns := by
  refine ⟨h.ring.congr next prev, start.trans h.start, ?_, fun n hn => ?_, h.nonnull⟩
  · refine h.sorted.imp_of_mem fun {m n} hm hn hmn => ?_
    simp only [highAddr, lowAddr, addr m hm, addr n hn, length m hm] at hmn ⊢
    exact hmn
  · rw [length n hn]
    exact h.positive n hn

/-! ### The free nodes -/

/-- A pointer, null being 0. -/
def pointer (p : ℕ) : Option ℕ := if p = 0 then none else some p

theorem pointer_eq_none {p : ℕ} : pointer p = none ↔ p = 0 := by simp [pointer]

theorem pointer_of_ne {p : ℕ} (h : p ≠ 0) : pointer p = some p := if_neg h

/-- The chain of the free nodes. -/
def Chain (l : Lists) (fs : List ℕ) : Prop :=
  Linked (fun m => pointer (l.next m)) (pointer l.freeList) fs

variable {fs : List ℕ} {p : ℕ}

theorem Chain.congr (h : Chain l fs) (freeList : l'.freeList = l.freeList)
    (next : ∀ m ∈ fs, l'.next m = l.next m) : Chain l' fs := by
  rw [Chain, freeList]
  exact Linked.congr h fun m hm => by simp only [next m hm]

theorem Chain.nodup (h : Chain l fs) : fs.Nodup := Linked.nodup h

theorem Chain.eq_nil_iff (h : Chain l fs) : fs = [] ↔ l.freeList = 0 := by
  rw [← pointer_eq_none, Linked.head h, List.head?_eq_none_iff]

theorem Chain.push (h : Chain l fs) (fresh : node ∉ fs) (nonnull : node ≠ 0) :
    Chain (metadataFree l node) (node :: fs) := by
  refine ⟨pointer_of_ne nonnull, ?_⟩
  simp only [metadataFree, Function.update_self]
  refine Linked.congr h fun m hm => ?_
  rw [Function.update_of_ne]
  exact fun he => fresh (he ▸ hm)

/-- The first free node is taken. -/
theorem Chain.pop (h : Chain l (node :: fs)) :
    l.freeList = node ∧ Chain { l with freeList := l.next node } fs := by
  obtain ⟨hhead, hrest⟩ := h
  refine ⟨?_, hrest⟩
  by_cases hzero : l.freeList = 0
  · rw [pointer_eq_none.mpr hzero] at hhead
    cases hhead
  · rw [pointer_of_ne hzero] at hhead
    exact Option.some.inj hhead

/-- The nodes of a page but for its first one. -/
def InPage (p j n : ℕ) : Prop := ∃ i, j ≤ i ∧ i ≤ 126 ∧ n = p + metadataSize * i

theorem inPage_succ {j n : ℕ} (hj : j ≤ 126) :
    InPage p j n ↔ n = p + metadataSize * j ∨ InPage p (j + 1) n := by
  constructor
  · rintro ⟨i, hji, hi, rfl⟩
    rcases Nat.eq_or_lt_of_le hji with rfl | hlt
    · exact .inl rfl
    · exact .inr ⟨i, hlt, hi, rfl⟩
  · rintro (rfl | ⟨i, hji, hi, rfl⟩)
    · exact ⟨j, le_refl j, hj, rfl⟩
    · exact ⟨i, by omega, hi, rfl⟩

/-- What the loop over a page from its `j`-th node on does. -/
theorem carve_spec (p : ℕ) (hp : p ≠ 0) (k : ℕ) : ∀ (j : ℕ) (l : Lists) (fs : List ℕ),
    j + k = 127 → Chain l fs → (∀ n, InPage p j n → n ∉ fs) →
    ∃ cs, Chain (carve p (metadataSize * j) l) (cs ++ fs) ∧ (∀ n, n ∈ cs ↔ InPage p j n) ∧
      (carve p (metadataSize * j) l).addr = l.addr ∧
      (carve p (metadataSize * j) l).length = l.length ∧
      (carve p (metadataSize * j) l).prev = l.prev ∧
      (carve p (metadataSize * j) l).allocList = l.allocList ∧
      ∀ m, ¬ InPage p j m → (carve p (metadataSize * j) l).next m = l.next m := by
  induction k with
  | zero =>
    intro j l fs hj chain fresh
    have hend : ¬ metadataSize * j < allocBlocksize - metadataSize := by
      simp only [metadataSize, allocBlocksize]
      omega
    rw [carve, if_neg hend]
    refine ⟨[], chain, fun n => ?_, rfl, rfl, rfl, rfl, fun _ _ => rfl⟩
    have hnone : ¬ InPage p j n := by
      rintro ⟨i, hji, hi, -⟩
      omega
    simp [hnone]
  | succ k ih =>
    intro j l fs hj chain fresh
    have hmore : metadataSize * j < allocBlocksize - metadataSize := by
      simp only [metadataSize, allocBlocksize]
      omega
    have hsucc : ∀ n, InPage p j n ↔ n = p + metadataSize * j ∨ InPage p (j + 1) n :=
      fun n => inPage_succ (by omega)
    have hpush := chain.push (fresh _ ((hsucc _).mpr (.inl rfl))) (by omega)
    have hfresh : ∀ n, InPage p (j + 1) n → n ∉ (p + metadataSize * j) :: fs := by
      intro n hn
      rw [List.mem_cons, not_or]
      refine ⟨?_, fresh n ((hsucc n).mpr (.inr hn))⟩
      obtain ⟨i, hji, -, rfl⟩ := hn
      simp only [metadataSize]
      omega
    obtain ⟨cs, hchain, hcs, haddr, hlength, hprev, halloc, hnext⟩ :=
      ih (j + 1) (metadataFree l (p + metadataSize * j)) _ (by omega) hpush hfresh
    rw [carve, if_pos hmore]
    refine ⟨cs ++ [p + metadataSize * j], ?_, fun n => ?_, haddr, hlength, hprev, halloc, ?_⟩
    · rw [List.append_assoc]
      exact hchain
    · rw [List.mem_append, List.mem_singleton, hcs, hsucc, or_comm]
    · intro m hm
      rw [hsucc, not_or] at hm
      exact (hnext m hm.2).trans (Function.update_of_ne hm.1 _ _)

/-- `metadata_new` where there is a free node. -/
theorem metadataNew_take (chain : Chain l fs) (nodes : l.freeList ≠ 0) :
    ∃ n cs, fs = n :: cs ∧ Chain { l with freeList := l.next n } cs ∧
      ∀ p fuel, metadataNew l p fuel = some (n, { l with freeList := l.next n }) := by
  cases fs with
  | nil => exact absurd (chain.eq_nil_iff.mp rfl) nodes
  | cons n cs =>
    obtain ⟨hhead, hrest⟩ := chain.pop
    refine ⟨n, cs, rfl, hrest, fun p fuel => ?_⟩
    simp only [metadataNew, if_neg nodes, Option.map_some]
    rw [hhead]

/-- `metadata_new` where a page is needed: the page is on the list, and its other nodes are free
but for the one that is returned. -/
theorem metadataNew_page (h : WellFormed l ns) (empty : l.freeList = 0) (nonnull : p ≠ 0)
    (apart : ∀ n ∈ ns, p + allocBlocksize ≤ lowAddr l n ∨ highAddr l n ≤ p)
    (out : ∀ n, InPage p 0 n → n ∉ ns) :
    ∃ xs ys, ns = xs ++ ys ∧ (∃ fuel r, metadataNew l p fuel = some r) ∧
      ∀ fuel n l', metadataNew l p fuel = some (n, l') →
        WellFormed l' (xs ++ p :: ys) ∧
        (∃ cs, Chain l' cs ∧ (n :: cs).Nodup ∧ ∀ m, m ∈ n :: cs ↔ InPage p 1 m) ∧
        l'.addr = Function.update l.addr p p ∧
        l'.length = Function.update l.length p allocBlocksize := by
  have hfirst : InPage p 0 p := ⟨0, le_refl 0, by omega, rfl⟩
  have hp : p ∉ ns := out p hfirst
  let d : Lists := { l with
    addr := Function.update l.addr p p
    length := Function.update l.length p allocBlocksize }
  have hne : ∀ n ∈ ns, n ≠ p := fun n hn he => hp (he ▸ hn)
  have hd : WellFormed d ns := h.congr rfl (fun _ _ => rfl) (fun _ _ => rfl)
    (fun n hn => Function.update_of_ne (hne n hn) _ _)
    fun n hn => Function.update_of_ne (hne n hn) _ _
  have hlow : ∀ n ∈ ns, lowAddr d n = lowAddr l n :=
    fun n hn => Function.update_of_ne (hne n hn) _ _
  have hhigh : ∀ n ∈ ns, highAddr d n = highAddr l n := by
    intro n hn
    simp only [highAddr, hlow n hn, d, Function.update_of_ne (hne n hn)]
  have hpage : lowAddr d p = p ∧ highAddr d p = p + allocBlocksize := by
    simp [highAddr, lowAddr, d]
  have hapart : ∀ n ∈ ns, Apart d p n := by
    intro n hn
    rw [Apart, hpage.1, hpage.2, hlow n hn, hhigh n hn]
    exact apart n hn
  have hpos : 0 < d.length p := by simp [d, allocBlocksize]
  obtain ⟨xs, ys, rfl, ⟨fuel, l₁, hl₁⟩, hinsert⟩ := metadataDoInsert_spec hd hp nonnull hpos hapart
  refine ⟨xs, ys, rfl, ⟨fuel, ?_⟩, fun fuel n l' hl' => ?_⟩
  · simp only [metadataNew, if_pos empty, d] at hl₁ ⊢
    rw [hl₁]
    exact ⟨_, rfl⟩
  simp only [metadataNew, if_pos empty, Option.map_map, Option.map_eq_some_iff,
    Function.comp_apply] at hl'
  obtain ⟨l₁, hl₁, hl'⟩ := hl'
  obtain ⟨hwell, hkeeps⟩ := hinsert fuel l₁ hl₁
  have hnil : Chain l₁ [] := by
    rw [Chain, hkeeps.freeList]
    exact pointer_eq_none.mpr empty
  obtain ⟨cs, hchain, hcs, haddr, hlength, hprev, halloc, hnext⟩ :=
    carve_spec p nonnull 126 1 l₁ [] rfl hnil (by simp)
  rw [List.append_nil] at hchain
  simp only [Nat.mul_one] at hchain haddr hlength hprev halloc hnext
  -- the loop writes to no block of the list
  have hring : ∀ m ∈ xs ++ p :: ys, ¬ InPage p 1 m := by
    rintro m hm ⟨i, hi, hi', rfl⟩
    have hmem : p + metadataSize * i = p ∨ p + metadataSize * i ∈ xs ++ ys := by
      simp only [List.mem_append, List.mem_cons] at hm ⊢
      tauto
    rcases hmem with he | hm
    · simp only [metadataSize] at he
      omega
    · exact out _ ⟨i, by omega, hi', rfl⟩ hm
  have hwell' : WellFormed (carve p metadataSize l₁) (xs ++ p :: ys) :=
    hwell.congr halloc (fun m hm => hnext m (hring m hm)) (fun m _ => by rw [hprev])
      (fun m _ => by rw [haddr]) fun m _ => by rw [hlength]
  have hnodes : (carve p metadataSize l₁).freeList ≠ 0 := by
    intro he
    have hlast : p + metadataSize * 126 ∈ cs := (hcs _).mpr ⟨126, by omega, le_refl _, rfl⟩
    rw [hchain.eq_nil_iff.mpr he] at hlast
    cases hlast
  obtain ⟨n', cs', rfl, hrest, -⟩ := metadataNew_take hchain hnodes
  obtain ⟨hhead, -⟩ := hchain.pop
  obtain ⟨rfl, rfl⟩ := Prod.mk.inj hl'
  rw [hhead]
  refine ⟨hwell'.congr rfl (fun _ _ => rfl) (fun _ _ => rfl) (fun _ _ => rfl) fun _ _ => rfl,
    ⟨cs', hrest, hchain.nodup, hcs⟩, ?_, ?_⟩
  · exact haddr.trans hkeeps.addr
  · exact hlength.trans hkeeps.length

end ThreadScan.Metadata
