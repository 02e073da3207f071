import ThreadScan.Alloc

/-! How much memory the tracking of mapped memory takes (`alloc.c`). Metadata nodes are carved
from pages, 126 from each, and go back to the pool; a page is mapped when the pool is empty,
and none is ever given back. -/
namespace ThreadScan.Footprint
open Transition LinkedList Metadata Alloc

variable {T : Type*} [DecidableEq T] {es : List (Event T)} {s s' : State T} {ns fs : List ℕ}

/-- How many nodes `metadata_new` has returned. -/
def handed : List (Event T) → ℕ
  | [] => 0
  | .take _ :: es | .page _ _ :: es => handed es + 1
  | _ :: es => handed es

/-- How many of them `metadata_free` has taken back. -/
def returned : List (Event T) → ℕ
  | [] => 0
  | .free _ :: es => returned es + 1
  | _ :: es => returned es

/-- The nodes that stand for a block, or are about to. -/
def inUse (es : List (Event T)) : ℕ := handed es - returned es

/-- The most nodes that have been in use at a time. -/
def peak : List (Event T) → ℕ
  | [] => 0
  | e :: es => max (inUse (e :: es)) (peak es)

/-- A page has room for 126 nodes besides its own. -/
theorem page_nodes {p : ℕ} {l : List ℕ} (nodup : l.Nodup) (nodes : ∀ m, m ∈ l ↔ InPage p 1 m) :
    l.length = 126 := by
  have hrow : ((List.range' 1 126).map fun i => p + metadataSize * i).Nodup := by
    refine (List.nodup_range').map fun i j hij => ?_
    simp only [metadataSize] at hij
    omega
  have hperm : l.Perm ((List.range' 1 126).map fun i => p + metadataSize * i) := by
    rw [List.perm_ext_iff_of_nodup nodup hrow]
    intro m
    rw [nodes, List.mem_map]
    constructor
    · rintro ⟨i, h₁, h₂, rfl⟩
      exact ⟨i, List.mem_range'_1.mpr ⟨h₁, by omega⟩, rfl⟩
    · rintro ⟨i, hi, rfl⟩
      obtain ⟨h₁, h₂⟩ := List.mem_range'_1.mp hi
      exact ⟨i, h₁, by omega, rfl⟩
  rw [hperm.length_eq, List.length_map, List.length_range']

/-- Every node that is not in use is in the pool, and pages are only mapped when they are
needed. -/
structure Counted (es : List (Event T)) (s : State T) : Prop where
  pool : ∃ ns fs, Tracked es s ns fs ∧ fs.length + handed es = 126 * (pages es).length + returned es
  enough : peak es ≤ 126 * (pages es).length
  needed : 126 * (pages es).length < peak es + 126

/-- Taking a node from the pool. -/
theorem take_pool (h : Tracked es s ns fs) {t : T} {size n fuel p : ℕ} {l : Lists}
    (hpc : s.pc t = .new size) (nodes : s.lists.freeList ≠ 0)
    (new : metadataNew s.lists p fuel = some (n, l)) :
    ∃ fs', Tracked (.take t :: es)
      { s with lists := l, pc := Function.update s.pc t (.map n size) } ns fs' ∧
      fs.length = fs'.length + 1 := by
  obtain ⟨fs', htracked⟩ := h.step_take hpc nodes new
  obtain ⟨n', cs, rfl, hchain, hnew⟩ := metadataNew_take h.chain nodes
  obtain ⟨rfl, rfl⟩ := Prod.mk.inj (Option.some.inj ((hnew p fuel).symm.trans new))
  obtain rfl : cs = fs' := Linked.unique hchain htracked.chain
  exact ⟨cs, htracked, List.length_cons⟩

/-- Mapping a page for an empty pool. -/
theorem page_pool (h : Tracked es s ns fs) {t : T} {size n fuel p : ℕ} {l : Lists}
    (hpc : s.pc t = .new size) (empty : s.lists.freeList = 0)
    (maps : Maps s.mapped p allocBlocksize) (new : metadataNew s.lists p fuel = some (n, l)) :
    ∃ ns' fs', Tracked (.page t p :: es) {
      lists := l
      mapped := (p, allocBlocksize) :: s.mapped
      pc := Function.update s.pc t (.map n size) } ns' fs' ∧ fs = [] ∧ fs'.length = 125 := by
  obtain ⟨ns', fs', htracked⟩ := h.step_page hpc empty maps new
  obtain rfl : fs = [] := h.chain.eq_nil_iff.mpr empty
  have hfresh : ∀ m, InPage p 0 m → m ∉ ns := by
    intro m hm hmem
    exact h.page_fresh maps hm ((h.held m).mp ⟨.alloc, hmem⟩)
  obtain ⟨xs, ys, -, -, hnew⟩ := metadataNew_page h.well empty maps.1
    (fun m hm => h.maps_apart maps (.inl hm)) hfresh
  obtain ⟨-, ⟨cs, hchain, hnodup, hnodes⟩, -⟩ := hnew fuel n l new
  obtain rfl : cs = fs' := Linked.unique hchain htracked.chain
  have hlength := page_nodes hnodup hnodes
  rw [List.length_cons] at hlength
  exact ⟨ns', cs, htracked, rfl, by omega⟩

omit [DecidableEq T] in
/-- Steps that map no page keep the account. -/
theorem Counted.stay (h : Counted es s) {e : Event T} (pool : ∃ ns fs, Tracked (e :: es) s' ns fs ∧
      fs.length + handed (e :: es) = 126 * (pages (e :: es)).length + returned (e :: es))
    (same : pages (e :: es) = pages es) : Counted (e :: es) s' := by
  obtain ⟨-, henough, hneeded⟩ := h
  have huse : inUse (e :: es) ≤ 126 * (pages (e :: es)).length := by
    obtain ⟨_, _, -, hcount⟩ := pool
    simp only [inUse]
    omega
  refine ⟨pool, ?_, ?_⟩
  · rw [peak, same] at *
    omega
  · rw [peak, same]
    omega

theorem Counted.step (h : Counted es s) {e : Event T} (allowed : ownedRelease es s e)
    (move : Step s e s') : Counted (e :: es) s' := by
  obtain ⟨ns, fs, htracked, hcount⟩ := h.pool
  cases move with
  | take t size n fuel p l hpc nodes new =>
    obtain ⟨fs', htracked', hlength⟩ := take_pool htracked hpc nodes new
    refine h.stay ⟨ns, fs', htracked', ?_⟩ rfl
    simp only [handed, returned, pages]
    omega
  | page t size n fuel p l hpc empty maps new =>
    obtain ⟨ns', fs', htracked', rfl, hlength⟩ := page_pool htracked hpc empty maps new
    rw [List.length_nil] at hcount
    have henough := h.enough
    refine ⟨⟨ns', fs', htracked', ?_⟩, ?_, ?_⟩
    · simp only [handed, returned, pages, List.length_cons]
      omega
    · simp only [peak, inUse, handed, returned, pages, List.length_cons]
      omega
    · simp only [peak, inUse, handed, returned, pages, List.length_cons]
      omega
  | call t k hpc => exact h.stay ⟨ns, fs, htracked.step_call hpc, hcount⟩ rfl
  | map t n k a hpc maps => exact h.stay ⟨ns, fs, htracked.step_map hpc maps, hcount⟩ rfl
  | insert t n fuel l hpc inserts =>
    obtain ⟨ns', htracked'⟩ := htracked.step_insert hpc inserts
    exact h.stay ⟨ns', fs, htracked', hcount⟩ rfl
  | release t a hpc => exact h.stay ⟨ns, fs, htracked.step_release hpc allowed, hcount⟩ rfl
  | remove t a n fuel l hpc removes =>
    obtain ⟨ns', htracked'⟩ := htracked.step_remove hpc removes
    exact h.stay ⟨ns', fs, htracked', hcount⟩ rfl
  | unmap t n hpc => exact h.stay ⟨ns, fs, htracked.step_unmap hpc, hcount⟩ rfl
  | free t n hpc =>
    refine h.stay ⟨ns, n :: fs, htracked.step_free hpc, ?_⟩ rfl
    simp only [handed, returned, pages, List.length_cons]
    omega

theorem run_counted (run : Run system ownedRelease es s) : Counted es s := by
  refine run.invariant (I := fun es s => Counted es s) ?_
    fun _ _ _ _ _ inv allowed move => inv.step allowed move
  rintro s rfl
  exact ⟨⟨[], [], Tracked.initial, rfl⟩, le_rfl, by simp [pages, peak]⟩

/-- The library has mapped as many pages for its metadata as the most nodes that were ever in
use at a time need. They all stay mapped, and it maps another one only when every node of them
is in use. -/
theorem metadata_pages (es : List (Event T)) (s : State T) (run : Run system ownedRelease es s) :
    (pages es).length = (peak es + 125) / 126 ∧
      (∀ p ∈ pages es, (p, allocBlocksize) ∈ s.mapped) ∧
      ∀ t p s', Step s (.page t p) s' → inUse es = 126 * (pages es).length := by
  obtain ⟨⟨ns, fs, htracked, hcount⟩, henough, hneeded⟩ := run_counted run
  refine ⟨by omega, fun p hp => ?_, fun t p s' move => ?_⟩
  · obtain ⟨hmem, haddr, hlength⟩ := htracked.page p hp
    have hmapped := (htracked.ranges p (.inl hmem)).2
    rwa [haddr, hlength] at hmapped
  · cases move with
    | page _ size n fuel _ l hpc empty =>
      rw [htracked.chain.eq_nil_iff.mpr empty, List.length_nil] at hcount
      simp only [inUse]
      omega

/-- A thread maps blocks one after the other. -/
theorem blocks_run (n : ℕ) : ∃ (es : List (Event Unit)) (s : State Unit),
    Run system ownedRelease es s ∧ s.pc () = .idle ∧ handed es = n ∧ returned es = 0 ∧
      peak es = n ∧ (∀ r ∈ s.mapped, r.1 + r.2 ≤ 4096 * (2 * n + 1)) ∧
      (1 ≤ n → Owned (4096 * (2 * n)) es) := by
  induction n with
  | zero => exact ⟨[], initial, .init rfl, rfl, rfl, rfl, rfl, by simp [initial], by omega⟩
  | succ n ih =>
    obtain ⟨es, s, run, idle, hhanded, hreturned, hpeak, hmapped, -⟩ := ih
    obtain ⟨e, s', he, run', idle', hmapped'⟩ := mmap_run (p := 4096 * (2 * n + 1))
      (a := 4096 * (2 * (n + 1))) (k := 4096) run idle
      ⟨by omega, Nat.mul_mod_right .., by decide, fun r hr => .inr (hmapped r hr)⟩
      ⟨by omega, Nat.mul_mod_right .., by decide, fun r hr => by
        obtain rfl | hr := List.mem_cons.mp hr
        · right
          simp only [allocBlocksize]
          omega
        · have := hmapped r hr
          omega⟩
    refine ⟨_, s', run', idle', ?_, ?_, ?_, fun r hr => ?_, fun _ => .inl rfl⟩
    · obtain rfl | rfl := he <;> simp [handed, hhanded]
    · obtain rfl | rfl := he <;> simp [returned, hreturned]
    · obtain rfl | rfl := he <;> simp [peak, inUse, handed, returned, hhanded, hreturned, hpeak]
    · obtain rfl | rfl | hr := hmapped' r hr
      · dsimp only
        omega
      · simp only [allocBlocksize]
        omega
      · have := hmapped r hr
        omega

/-- A thread that maps 127 blocks and unmaps one has got two pages for the metadata. -/
theorem metadata_pages_second : ∃ (es : List (Event Unit)) (s : State Unit),
    Run system ownedRelease es s ∧ handed es = 127 ∧ returned es = 1 ∧ (pages es).length = 2 ∧
      ∀ p ∈ pages es, (p, allocBlocksize) ∈ s.mapped := by
  obtain ⟨es, s, run, idle, hhanded, hreturned, hpeak, -, howned⟩ := blocks_run 127
  obtain ⟨b, m, s', run', -⟩ := munmap_run run idle (howned (by omega))
  obtain ⟨hcount, hmapped, -⟩ := metadata_pages _ _ run'
  have hpeak' : peak (.free () :: .unmap () b m :: .remove () (4096 * (2 * 127)) ::
      .release () (4096 * (2 * 127)) :: es) = 127 := by
    simp [peak, inUse, handed, returned, hhanded, hreturned, hpeak]
  rw [hpeak'] at hcount
  exact ⟨_, s', run', by simp [handed, hhanded], by simp [returned, hreturned], hcount, hmapped⟩

end ThreadScan.Footprint
