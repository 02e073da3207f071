import ThreadScan.Search
import ThreadScan.Transition

/-! Concurrent marking. While a round's searches run, the list stays the sorted list they
started from but for low bits, which are only ever set. What a search has learned about
the list therefore stays true, except that its target may meanwhile have been marked. -/
namespace ThreadScan.Marking
open Search

/-- The list `a` is `orig` with low bits set at some of the aligned addresses among its
first `n` entries. -/
def Marked (n : ℤ) (orig a : Mem) : Prop :=
  ∀ i, a i = orig i ∨ (0 ≤ i ∧ i < n) ∧ (orig i).toNat % 4 = 0 ∧ a i = orig i + 1#64

/-- The low bits set in `a` are set in `b`. -/
def Grows (orig a b : Mem) : Prop := ∀ i, a i = orig i + 1#64 → b i = orig i + 1#64

/-- Increasing, but for zeros in front. -/
def Ordered (n : ℤ) (orig : Mem) : Prop :=
  ∀ i j, 0 ≤ i → i < j → j < n →
    (orig i).toNat < (orig j).toNat ∨ (orig i).toNat = 0 ∧ (orig j).toNat = 0

/-- The map holds the first address of every page of the list. -/
def Maps (orig : Mem) (n : ℤ) (map : Mem) (nMap : ℤ) : Prop :=
  n ≤ pageWords * nMap ∧ pageWords * nMap < n + pageWords ∧
    ∀ k, 0 ≤ k → k < nMap → map k = orig (pageWords * k)

variable {orig a b : Mem} {n : ℤ}

theorem Marked.refl (n : ℤ) (orig : Mem) : Marked n orig orig := fun _ => .inl rfl

/-- An entry is its address, or one more. -/
theorem Marked.toNat (h : Marked n orig a) (i : ℤ) :
    (a i).toNat = (orig i).toNat ∨ (orig i).toNat % 4 = 0 ∧ (a i).toNat = (orig i).toNat + 1 := by
  obtain he | ⟨-, h4, he⟩ := h i
  · exact .inl (by rw [he])
  · exact .inr ⟨h4, by rw [he, toNat_add_one (by omega)]⟩

/-- An aligned word found in the list is an unmarked address. -/
theorem Marked.eq_of_aligned (h : Marked n orig a) {i : ℤ} {w : Word} (hw : w.toNat % 4 = 0)
    (he : a i = w) : orig i = w := by
  obtain hi | ⟨-, h4, hmark⟩ := h i
  · rw [← hi, he]
  · exfalso
    have := toNat_add_one (v := orig i) (by omega)
    rw [← hmark, he] at this
    omega

/-- Setting the low bit of an address keeps the list what it was but for marks. -/
theorem Marked.set (h : Marked n orig a) {i : ℤ} (hi : 0 ≤ i ∧ i < n)
    (h4 : (orig i).toNat % 4 = 0) : Marked n orig (Function.update a i (orig i + 1#64)) := by
  intro k
  by_cases hk : k = i
  · subst hk
    exact .inr ⟨hi, h4, Function.update_self ..⟩
  · rw [Function.update_of_ne hk]
    exact h k

theorem Grows.refl (orig a : Mem) : Grows orig a a := fun _ h => h

theorem Grows.set (i : ℤ) : Grows orig a (Function.update a i (orig i + 1#64)) := by
  intro k hk
  by_cases he : k = i
  · subst he
    exact Function.update_self ..
  · rwa [Function.update_of_ne he]

theorem scanMapLoop_spec (orig : Mem) (n i k : ℤ) (map : Mem) (hk : 0 ≤ k)
    (hi : i = pageWords * k) (hn : pageWords * k < n + pageWords)
    (h : ∀ l, 0 ≤ l → l < k → map l = orig (pageWords * l)) :
    Maps orig n (scanMapLoop orig n i k map).1 (scanMapLoop orig n i k map).2 := by
  induction i, k, map using scanMapLoop.induct orig n with
  | case1 i k map hlt ih =>
    rw [scanMapLoop, if_pos hlt]
    apply ih (by omega) (by simp only [pageWords] at *; omega) (by simp only [pageWords] at *; omega)
    intro l hl hlk
    by_cases he : l = k
    · subst he
      rw [Function.update_self, hi]
    · rw [Function.update_of_ne he]
      exact h l hl (by omega)
  | case2 i k map hge =>
    rw [scanMapLoop, if_neg hge]
    dsimp only
    exact ⟨by omega, hn, h⟩

theorem generateScanMap_spec (orig : Mem) (n : ℤ) (hn : 0 ≤ n) (map : Mem) :
    Maps orig n (generateScanMap orig n map).1 (generateScanMap orig n map).2 := by
  apply scanMapLoop_spec orig n 0 0 map le_rfl rfl
  · simp only [pageWords]
    omega
  · intro l h₀ hl
    omega

/-! ### One lookup -/

/-- The position a lookup returns is inside the array, and so is all it reads. -/
def InRange (n : ℤ) : Probe → Prop
  | .bisect lo hi => 0 ≤ lo ∧ lo < hi ∧ hi ≤ n
  | .walk lo hi => 0 ≤ lo ∧ lo ≤ hi ∧ 1 ≤ hi ∧ hi ≤ n
  | .found loc => 0 ≤ loc ∧ loc < n

theorem InRange.access {p : Probe} (h : InRange n p) {i : ℤ} (hi : p.access = some i) :
    0 ≤ i ∧ i < n := by
  cases p with
  | bisect lo hi =>
    obtain ⟨h₁, h₂, h₃⟩ := h
    simp only [Probe.access, Option.some.injEq] at hi
    split_ifs at hi <;> omega
  | walk lo hi =>
    obtain ⟨h₁, h₂, h₃⟩ := h
    simp only [Probe.access] at hi
    split_ifs at hi
    simp only [Option.some.injEq] at hi
    omega
  | found loc => simp [Probe.access] at hi

/-- A lookup stays in range when the first entry is at most what it looks for. -/
theorem InRange.next {p : Probe} {val : Word} (h : InRange n p) (first : (a 0).toNat ≤ val.toNat) :
    InRange n (p.next val a) := by
  cases p with
  | bisect lo hi =>
    obtain ⟨h₁, h₂, h₃⟩ := h
    simp only [Probe.next, binarySearchNext]
    split_ifs with hbig hmid hlt
    · simp only [binaryThreshold] at hbig
      exact ⟨by omega, by omega⟩
    · simp only [binaryThreshold] at hbig
      exact ⟨h₁, by omega, by omega⟩
    · simp only [binaryThreshold] at hbig
      exact ⟨by omega, by omega, h₃⟩
    · exact ⟨h₁, by omega⟩
    · exact ⟨h₁, by omega, by omega, h₃⟩
  | walk lo hi =>
    obtain ⟨h₁, h₂, h₃, h₄⟩ := h
    simp only [Probe.next, iterativeSearchNext]
    split_ifs with hlo hmid hlt
    · exact ⟨h₁, by omega⟩
    · -- stepping back from the first entry would mean that it is larger
      have hne : lo ≠ 0 := by
        rintro rfl
        rw [BitVec.lt_def] at hlt
        omega
      exact ⟨by omega, by omega⟩
    · exact ⟨by omega, by omega, h₃, h₄⟩
    · exact ⟨by omega, by omega⟩
  | found loc => exact h

/-- The lookup has not gone past position `f`; a walk may stand one further, at `b`. -/
def Located (f b : ℤ) : Probe → Prop
  | .bisect lo hi => lo ≤ f ∧ f < hi
  | .walk lo hi => lo ≤ b ∧ f < hi
  | .found loc => loc = f

/-- A lookup closes in on the last entry that is at most what it looks for. -/
theorem Located.next {p : Probe} {val : Word} {f b : ℤ} (h : Located f b p) (range : InRange n p)
    (exact : a f = val ∧ b = f ∨ (a f).toNat ≤ val.toNat ∧ b = f + 1)
    (below : ∀ i, 0 ≤ i → i < f → (a i).toNat < val.toNat)
    (above : ∀ i, f < i → i < n → val.toNat < (a i).toNat) : Located f b (p.next val a) := by
  have hf : (a f).toNat ≤ val.toNat := by
    obtain ⟨he, -⟩ | ⟨hle, -⟩ := exact
    · rw [he]
    · exact hle
  have hb : f ≤ b := by omega
  have hne : ∀ i, a i = val → ¬ (0 ≤ i ∧ i < f) ∧ ¬ (f < i ∧ i < n) := by
    intro i hi
    have h₁ := below i
    have h₂ := above i
    rw [hi] at h₁ h₂
    omega
  cases p with
  | bisect lo hi =>
    obtain ⟨h₁, h₂⟩ := h
    obtain ⟨r₁, r₂, r₃⟩ := range
    simp only [Probe.next, binarySearchNext]
    split_ifs with hbig hmid hlt hout
    · simp only [binaryThreshold] at hbig
      have := hne _ hmid
      simp only [Located]
      omega
    · rw [BitVec.lt_def] at hlt
      refine ⟨h₁, ?_⟩
      by_contra hge
      obtain he | hlt' : (hi + lo) / 2 = f ∨ (hi + lo) / 2 < f := by omega
      · rw [he] at hlt
        omega
      · have := below _ (by omega) hlt'
        omega
    · rw [BitVec.lt_def] at hlt
      refine ⟨?_, h₂⟩
      by_contra hlt'
      have := above ((hi + lo) / 2) (by omega) (by simp only [binaryThreshold] at hbig; omega)
      have hval : (a ((hi + lo) / 2)).toNat ≠ val.toNat := fun he => hmid (BitVec.eq_of_toNat_eq he)
      omega
    · rw [BitVec.lt_def] at hout
      have hle : lo = f := by
        by_contra hlo
        have := below lo r₁ (by omega)
        omega
      exact hle
    · exact ⟨by omega, h₂⟩
  | walk lo hi =>
    obtain ⟨h₁, h₂⟩ := h
    obtain ⟨r₁, r₂, r₃, r₄⟩ := range
    simp only [Probe.next, iterativeSearchNext]
    split_ifs with hlo hmid hlt
    · have := hne _ hmid
      have hval := exact
      simp only [Located]
      by_contra hlf
      omega
    · rw [BitVec.lt_def] at hlt
      have hlf : f < lo := by
        by_contra hle
        obtain he | hlt' : lo = f ∨ lo < f := by omega
        · rw [he] at hlt
          omega
        · have := below lo r₁ hlt'
          omega
      simp only [Located]
      omega
    · rw [BitVec.lt_def] at hlt
      refine ⟨?_, h₂⟩
      have hlf : lo ≤ f := by
        by_contra hgt
        have := above lo (by omega) (by omega)
        omega
      obtain ⟨he, hbf⟩ | ⟨-, hbf⟩ := exact
      · have : lo ≠ f := fun hl => hmid (hl ▸ he)
        omega
      · omega
    · simp only [Located]
      omega
  | found loc => exact h

/-! ### The page of an address -/

theorem page_inRange {map : Mem} {nMap : ℤ} (pos : 1 ≤ n) (maps : Maps orig n map nMap)
    (val : Word) (first : (orig 0).toNat ≤ val.toNat) :
    0 ≤ binarySearch val map 0 nMap ∧ binarySearch val map 0 nMap < nMap := by
  obtain ⟨h₁, -, h₃⟩ := maps
  simp only [pageWords] at h₁
  have hfirst : (map 0).toNat ≤ val.toNat := by
    rwa [h₃ 0 le_rfl (by omega)]
  exact Probe.result_of_invariant (P := InRange nMap) (fun p hp => hp.next hfirst) _
    ⟨le_rfl, by omega, le_rfl⟩

theorem Ordered.lt (h : Ordered n orig) {i j : ℤ} (hi : 0 ≤ i) (hij : i < j) (hj : j < n)
    (h₀ : (orig i).toNat ≠ 0 ∨ (orig j).toNat ≠ 0) : (orig i).toNat < (orig j).toNat := by
  have := h i j hi hij hj
  omega

theorem Ordered.eq (h : Ordered n orig) {i j : ℤ} (hi : 0 ≤ i ∧ i < n) (hj : 0 ≤ j ∧ j < n)
    (h₀ : (orig j).toNat ≠ 0) (he : orig i = orig j) : i = j := by
  have heq : (orig i).toNat = (orig j).toNat := by rw [he]
  obtain hlt | rfl | hgt : i < j ∨ i = j ∨ j < i := by omega
  · have := h.lt hi.1 hlt hj.2 (.inr h₀)
    omega
  · rfl
  · have := h.lt hj.1 hgt hi.2 (.inl h₀)
    omega

theorem page_located {map : Mem} {nMap : ℤ} (ordered : Ordered n orig)
    (maps : Maps orig n map nMap) {j : ℤ} (hj : 0 ≤ j ∧ j < n) (h₀ : (orig j).toNat ≠ 0) :
    binarySearch (orig j) map 0 nMap = j / pageWords := by
  obtain ⟨h₁, h₂, h₃⟩ := maps
  simp only [pageWords] at h₁ h₂ h₃ ⊢
  have hle : ∀ i, 0 ≤ i → i ≤ j → (orig i).toNat ≤ (orig j).toNat := by
    intro i hi hij
    obtain rfl | hlt : i = j ∨ i < j := by omega
    · exact le_rfl
    · exact (ordered.lt hi hlt hj.2 (.inr h₀)).le
  have hfirst : (map 0).toNat ≤ (orig j).toNat := by
    rw [h₃ 0 le_rfl (by omega)]
    exact hle _ le_rfl (by omega)
  have hinv := Probe.result_of_invariant (v := orig j) (a := map)
    (P := fun p => InRange nMap p ∧ Located (j / 512) (j / 512 + 1) p) ?_
    (.bisect 0 nMap) ⟨⟨le_rfl, by omega, le_rfl⟩, by omega, by omega⟩
  · exact hinv.2
  · rintro p ⟨hrange, hloc⟩
    refine ⟨hrange.next hfirst, hloc.next hrange (.inr ⟨?_, rfl⟩) ?_ ?_⟩
    · rw [h₃ _ (by omega) (by omega)]
      exact hle _ (by omega) (by omega)
    · intro i hi hif
      rw [h₃ i hi (by omega)]
      exact ordered.lt (by omega) (by omega) hj.2 (.inr h₀)
    · intro i hfi hi
      rw [h₃ i (by omega) hi]
      exact ordered.lt hj.1 (by omega) (by omega) (.inl h₀)

/-! ### One search -/

/-- A bound that a search has cached: the address of an entry, marked or not. -/
def Near (orig : Mem) (i : ℤ) (w : Word) : Prop :=
  w = orig i ∨ (orig i).toNat % 4 = 0 ∧ w = orig i + 1#64

theorem Marked.near (h : Marked n orig a) (i : ℤ) : Near orig i (a i) :=
  (h i).imp_right And.right

theorem Near.le {i : ℤ} {w : Word} (h : Near orig i w) : (orig i).toNat ≤ w.toNat := by
  obtain rfl | ⟨h4, rfl⟩ := h
  · exact le_rfl
  · rw [toNat_add_one (by omega)]
    omega

theorem Near.eq_of_aligned {i : ℤ} {w : Word} (h : Near orig i w) (hw : w.toNat % 4 = 0) :
    orig i = w := by
  obtain rfl | ⟨h4, rfl⟩ := h
  · rfl
  · rw [toNat_add_one (by omega)] at hw
    omega

/-- The bounds that a search has cached. -/
def Bounds (orig : Mem) (n : ℤ) (s : Scan) : Prop :=
  Near orig 0 s.minPtr ∧ Near orig (n - 1) s.maxPtr

/-- One of the words refers to the address the search is working on. -/
def Asked (words : List Word) (s : Scan) : Prop := ∃ w ∈ words, ptrMask w = s.cmp

/-- What the position of a search says about the addresses the round started with. -/
def At (orig : Mem) (n : ℤ) (words : List Word) (s : Scan) : Prop :=
  match s.pc with
  | .mono i _ => 0 ≤ i
  | .monoLast i => 0 ≤ i ∧ i < n
  | .readMin | .fatal | .abort => True
  | .done => s.mem = []
  | .readMax => Near orig 0 s.minPtr
  | .next => Bounds orig n s
  | .setLow loc => Bounds orig n s ∧ Asked words s ∧ (0 ≤ loc ∧ loc < n) ∧ orig loc = s.cmp
  | .setStore loc v =>
    Bounds orig n s ∧ Asked words s ∧ (0 ≤ loc ∧ loc < n) ∧ orig loc = s.cmp ∧ v = s.cmp
  | .lookup p | .recheck p =>
    Bounds orig n s ∧ Asked words s ∧ (orig 0).toNat < s.cmp.toNat ∧ InRange n p
  | .compare loc | .reassert loc =>
    Bounds orig n s ∧ Asked words s ∧ (orig 0).toNat < s.cmp.toNat ∧ 0 ≤ loc ∧ loc < n

/-- A search examines the words of its range, and knows where it stands in the list. -/
structure Sound (orig : Mem) (n : ℤ) (words : List Word) (s : Scan) : Prop where
  fed : ∀ w ∈ s.mem, w ∈ words
  place : At orig n words s

theorem Asked.aligned {words : List Word} {s : Scan} (h : Asked words s) :
    s.cmp.toNat % 4 = 0 := by
  obtain ⟨w, -, hw⟩ := h
  rw [← hw]
  exact ptrMask_aligned w

theorem sound_searchRange (debug : Bool) (words : List Word) :
    Sound orig n words (searchRange debug words) := by
  unfold searchRange
  split_ifs
  · exact ⟨fun _ h => h, le_rfl⟩
  · exact ⟨fun _ h => h, trivial⟩

/-- Every entry that a search accesses is in the list. -/
theorem Sound.access {words : List Word} {s : Scan} (h : Sound orig n words s) (pos : 1 ≤ n)
    {i : ℤ} (hi : s.pc.access n = some i) : 0 ≤ i ∧ i < n := by
  obtain ⟨mem, minPtr, maxPtr, cmp, pc⟩ := s
  have hat := h.place
  cases pc with
  | mono k last =>
    simp only [Pc.access] at hi
    split_ifs at hi with hk
    simp only [Option.some.injEq] at hi
    simp only [At] at hat
    omega
  | readMin | readMax =>
    simp only [Pc.access, Option.some.injEq] at hi
    omega
  | monoLast loc =>
    simp only [Pc.access, Option.some.injEq] at hi
    exact hi ▸ hat
  | setLow loc | setStore loc v =>
    simp only [Pc.access, Option.some.injEq] at hi
    exact hi ▸ hat.2.2.1
  | compare loc | reassert loc =>
    simp only [Pc.access, Option.some.injEq] at hi
    exact hi ▸ hat.2.2.2
  | lookup p | recheck p => exact hat.2.2.2.access hi
  | next | done | fatal | abort => simp [Pc.access] at hi

/-- One masked word is skipped, is one of the cached bounds, or is looked for on a page. -/
theorem at_examine {g : Working} {words mem : List Word} {minPtr maxPtr cmp : Word}
    (pos : 1 ≤ g.nAddrs) (maps : Maps orig g.nAddrs g.bufScanMap g.nScanMap)
    (hb : Near orig 0 minPtr ∧ Near orig (g.nAddrs - 1) maxPtr)
    (ask : ∃ w ∈ words, ptrMask w = cmp) :
    At orig g.nAddrs words ⟨mem, minPtr, maxPtr, cmp, examine g minPtr maxPtr cmp⟩ := by
  have h4 : cmp.toNat % 4 = 0 := Asked.aligned (s := ⟨mem, minPtr, maxPtr, cmp, .next⟩) ask
  unfold examine
  split_ifs with hout hlo hhi
  · exact hb
  · exact ⟨hb, ask, ⟨le_rfl, by omega⟩, hb.1.eq_of_aligned (hlo ▸ h4) |>.trans hlo⟩
  · exact ⟨hb, ask, ⟨by omega, by omega⟩, hb.2.eq_of_aligned (hhi ▸ h4) |>.trans hhi⟩
  · rw [not_or, BitVec.lt_def] at hout
    have hle := hb.1.le
    have hne : minPtr.toNat ≠ cmp.toNat := fun he => hlo (BitVec.eq_of_toNat_eq he)
    have hfirst : (orig 0).toNat < cmp.toNat := by omega
    obtain ⟨hv₀, hv₁⟩ := page_inRange pos maps cmp hfirst.le
    obtain ⟨h₁, h₂, -⟩ := maps
    simp only [pageWords] at h₁ h₂ ⊢
    refine ⟨hb, ask, hfirst, by omega, ?_, ?_⟩ <;> split_ifs <;> omega

/-- A marked first entry is at most any address beyond it. -/
theorem Marked.first_le (h : Marked n orig a) {cmp : Word} (hlt : (orig 0).toNat < cmp.toNat) :
    (a 0).toNat ≤ cmp.toNat := by
  have := h.toNat 0
  omega

/-- A mark that one of the words asks for. -/
def Marks (orig : Mem) (n : ℤ) (words : List Word) (st : Option (ℤ × Word)) : Prop :=
  ∀ p, st = some p → (0 ≤ p.1 ∧ p.1 < n) ∧ (orig p.1).toNat % 4 = 0 ∧
    (∃ w ∈ words, ptrMask w = orig p.1) ∧ p.2 = orig p.1 + 1#64

theorem marks_none (words : List Word) : Marks orig n words none := by
  intro p hp
  simp at hp

/-- The list of a round while it is searched: what the round started from, but for marks. -/
structure Searchable (orig : Mem) (g : Working) : Prop where
  pos : 1 ≤ g.nAddrs
  maps : Maps orig g.nAddrs g.bufScanMap g.nScanMap
  marked : Marked g.nAddrs orig g.bufAddrs

/-- A step keeps a search sound, and stores at most a mark that one of its words asks for. -/
theorem Sound.next {g : Working} {words : List Word} {s : Scan}
    (h : Sound orig g.nAddrs words s) (list : Searchable orig g) (debug : Bool) :
    Sound orig g.nAddrs words (searchNext debug g s).1 ∧
      Marks orig g.nAddrs words (searchNext debug g s).2 := by
  obtain ⟨pos, maps, marked⟩ := list
  obtain ⟨mem, minPtr, maxPtr, cmp, pc⟩ := s
  obtain ⟨fed, hat⟩ := h
  cases pc with
  | mono i last =>
    simp only [searchNext]
    split_ifs with hi hle
    · exact ⟨⟨fed, trivial⟩, marks_none words⟩
    · exact ⟨⟨fed, hat, hi⟩, marks_none words⟩
    · exact ⟨⟨fed, trivial⟩, marks_none words⟩
  | monoLast i =>
    have hnext : 0 ≤ i + 1 := by
      have := hat.1
      omega
    exact ⟨⟨fed, hnext⟩, marks_none words⟩
  | readMin => exact ⟨⟨fed, marked.near 0⟩, marks_none words⟩
  | readMax =>
    simp only [searchNext]
    split_ifs
    · exact ⟨⟨fed, trivial⟩, marks_none words⟩
    · exact ⟨⟨fed, hat, marked.near _⟩, marks_none words⟩
  | next =>
    cases mem with
    | nil => exact ⟨⟨fed, rfl⟩, marks_none words⟩
    | cons w mem =>
      have ask : ∃ v ∈ words, ptrMask v = ptrMask w := ⟨w, fed w List.mem_cons_self, rfl⟩
      exact ⟨⟨fun v hv => fed v (List.mem_cons_of_mem _ hv), at_examine pos maps hat ask⟩,
        marks_none words⟩
  | setLow loc =>
    obtain ⟨hb, ask, hloc, he⟩ := hat
    refine ⟨⟨fed, ?_⟩, marks_none words⟩
    simp only [searchNext]
    split_ifs with hlow
    · exact hb
    · refine ⟨hb, ask, hloc, he, ?_⟩
      obtain hsame | ⟨-, h4, hmark⟩ := marked loc
      · exact hsame.trans he
      · exact absurd (lowBit_add_one (by omega)) (hmark ▸ hlow)
  | setStore loc v =>
    obtain ⟨hb, ask, hloc, he, rfl⟩ := hat
    refine ⟨⟨fed, hb⟩, ?_⟩
    intro p hp
    simp only [searchNext, Option.some.injEq] at hp
    subst hp
    dsimp only at he ⊢
    rw [he]
    exact ⟨hloc, ask.aligned, ask, rfl⟩
  | lookup p =>
    obtain ⟨hb, ask, hlt, hin⟩ := hat
    have hnext := hin.next (marked.first_le hlt)
    cases p with
    | found loc => exact ⟨⟨fed, hb, ask, hlt, hin⟩, marks_none words⟩
    | bisect lo hi | walk lo hi => exact ⟨⟨fed, hb, ask, hlt, hnext⟩, marks_none words⟩
  | compare loc =>
    obtain ⟨hb, ask, hlt, hloc⟩ := hat
    simp only [searchNext]
    split_ifs with he
    · exact ⟨⟨fed, hb, ask, hloc, marked.eq_of_aligned ask.aligned he⟩, marks_none words⟩
    · exact ⟨⟨fed, hb, ask, hlt, le_rfl, by omega, le_rfl⟩, marks_none words⟩
    · exact ⟨⟨fed, hb⟩, marks_none words⟩
  | recheck p =>
    obtain ⟨hb, ask, hlt, hin⟩ := hat
    have hnext := hin.next (marked.first_le hlt)
    cases p with
    | found loc => exact ⟨⟨fed, hb, ask, hlt, hin⟩, marks_none words⟩
    | bisect lo hi | walk lo hi => exact ⟨⟨fed, hb, ask, hlt, hnext⟩, marks_none words⟩
  | reassert loc =>
    obtain ⟨hb, ask, hlt, hloc⟩ := hat
    simp only [searchNext]
    split_ifs
    · exact ⟨⟨fed, trivial⟩, marks_none words⟩
    · exact ⟨⟨fed, hb⟩, marks_none words⟩
  | done => exact ⟨⟨fed, hat⟩, marks_none words⟩
  | fatal | abort => exact ⟨⟨fed, trivial⟩, marks_none words⟩

theorem Marks.store_marked {words : List Word} {st : Option (ℤ × Word)}
    (h : Marks orig n words st) (marked : Marked n orig a) : Marked n orig (store a st) := by
  cases st with
  | none => exact marked
  | some p =>
    obtain ⟨hi, h4, -, hv⟩ := h p rfl
    simp only [store, hv]
    exact marked.set hi h4

theorem Marks.store_grows {words : List Word} {st : Option (ℤ × Word)}
    (h : Marks orig n words st) : Grows orig a (store a st) := by
  cases st with
  | none => exact Grows.refl _ _
  | some p =>
    simp only [store, (h p rfl).2.2.2]
    exact Grows.set p.1

/-! ### No address is missed -/

/-- A bound cached with its mark was marked. -/
def Caught (orig : Mem) (n : ℤ) (a : Mem) (s : Scan) : Prop :=
  ((orig 0).toNat % 4 = 0 → s.minPtr = orig 0 + 1#64 → a 0 = orig 0 + 1#64) ∧
    ((orig (n - 1)).toNat % 4 = 0 → s.maxPtr = orig (n - 1) + 1#64 →
      a (n - 1) = orig (n - 1) + 1#64)

theorem Caught.grows {s : Scan} (h : Caught orig n a s) (grows : Grows orig a b) :
    Caught orig n b s :=
  ⟨fun h4 he => grows 0 (h.1 h4 he), fun h4 he => grows (n - 1) (h.2 h4 he)⟩

theorem zero_ne_marked {i : ℤ} (h4 : (orig i).toNat % 4 = 0) : 0#64 ≠ orig i + 1#64 := by
  intro he
  have := toNat_add_one (v := orig i) (by omega)
  rw [← he] at this
  simp at this

theorem caught_searchRange (debug : Bool) (words : List Word) :
    Caught orig n a (searchRange debug words) := by
  unfold searchRange
  split_ifs <;>
    exact ⟨fun h4 he => absurd he (zero_ne_marked h4), fun h4 he => absurd he (zero_ne_marked h4)⟩

theorem Caught.next {debug : Bool} {g : Working} {s : Scan}
    (h : Caught orig g.nAddrs g.bufAddrs s) :
    Caught orig g.nAddrs g.bufAddrs (searchNext debug g s).1 := by
  obtain ⟨mem, minPtr, maxPtr, cmp, pc⟩ := s
  cases pc with
  | readMin => exact ⟨fun _ he => he, h.2⟩
  | readMax =>
    simp only [searchNext]
    split_ifs
    · exact h
    · exact ⟨h.1, fun _ he => he⟩
  | mono i last | compare loc | reassert loc =>
    simp only [searchNext]
    split_ifs <;> exact h
  | next => cases mem <;> exact h
  | lookup p | recheck p => cases p <;> exact h
  | monoLast i | setLow loc | setStore loc v | done | fatal | abort => exact h

/-- The search is about to mark the entry `j`, unless somebody else does so first. -/
def Seeks (j : ℤ) : Pc → Prop
  | .setLow loc | .setStore loc _ | .compare loc => loc = j
  | .lookup p => Located j j p
  | _ => False

theorem Ordered.first_le (h : Ordered n orig) {j : ℤ} (hj : 0 ≤ j ∧ j < n) :
    (orig 0).toNat ≤ (orig j).toNat := by
  obtain rfl | hlt : j = 0 ∨ 0 < j := by omega
  · exact le_rfl
  · have := h 0 j le_rfl hlt hj.2
    omega

theorem Ordered.le_last (h : Ordered n orig) {j : ℤ} (hj : 0 ≤ j ∧ j < n) :
    (orig j).toNat ≤ (orig (n - 1)).toNat := by
  obtain rfl | hlt : j = n - 1 ∨ j < n - 1 := by omega
  · exact le_rfl
  · have := h j (n - 1) hj.1 hlt (by omega)
    omega

/-- A word that refers to an unmarked address sets the search on its way to it. -/
theorem seeks_examine {g : Working} {s : Scan} (list : Searchable orig g)
    (ordered : Ordered g.nAddrs orig) (hb : Bounds orig g.nAddrs s)
    (caught : Caught orig g.nAddrs g.bufAddrs s) {j : ℤ} (hj : 0 ≤ j ∧ j < g.nAddrs)
    (h₀ : (orig j).toNat ≠ 0) (h4 : (orig j).toNat % 4 = 0) (unmarked : g.bufAddrs j = orig j) :
    Seeks j (examine g s.minPtr s.maxPtr (orig j)) := by
  have hfirst := ordered.first_le hj
  have hlast := ordered.le_last hj
  unfold examine
  split_ifs with hout hlo hhi
  · -- only a bound that was already marked lies beyond its own address
    exfalso
    rw [BitVec.lt_def, BitVec.lt_def] at hout
    obtain hlt | hgt := hout
    · obtain he | ⟨h4', he⟩ := hb.1
      · rw [he] at hlt
        omega
      · have hval := toNat_add_one (v := orig 0) (by omega)
        rw [he, hval] at hlt
        have hzero : orig 0 = orig j := BitVec.eq_of_toNat_eq (by omega)
        have hj₀ : 0 = j := ordered.eq ⟨le_rfl, by omega⟩ hj h₀ hzero
        subst hj₀
        have := caught.1 h4' he
        rw [unmarked] at this
        rw [← this] at hval
        omega
    · have := hb.2.le
      omega
  · have he := hb.1.eq_of_aligned (hlo ▸ h4)
    exact ordered.eq ⟨le_rfl, by omega⟩ hj h₀ (he.trans hlo)
  · have he := hb.2.eq_of_aligned (hhi ▸ h4)
    exact ordered.eq ⟨by omega, by omega⟩ hj h₀ (he.trans hhi)
  · have hpage := page_located ordered list.maps hj h₀
    obtain ⟨h₁, h₂, -⟩ := list.maps
    dsimp only
    rw [hpage]
    simp only [Seeks, Located, pageWords] at h₁ h₂ ⊢
    split_ifs <;> omega

/-- A search on its way to an unmarked address stays on its way, or marks it. -/
theorem Seeks.next {debug : Bool} {g : Working} {words : List Word} {s : Scan}
    (list : Searchable orig g) (ordered : Ordered g.nAddrs orig)
    (sound : Sound orig g.nAddrs words s) {j : ℤ} (hj : 0 ≤ j ∧ j < g.nAddrs)
    (h₀ : (orig j).toNat ≠ 0) (unmarked : g.bufAddrs j = orig j) (hcmp : s.cmp = orig j)
    (h : Seeks j s.pc) :
    store g.bufAddrs (searchNext debug g s).2 j = orig j + 1#64 ∨
      (searchNext debug g s).1.cmp = orig j ∧ Seeks j (searchNext debug g s).1.pc := by
  obtain ⟨mem, minPtr, maxPtr, cmp, pc⟩ := s
  obtain ⟨-, hat⟩ := sound
  dsimp only at hcmp h
  subst hcmp
  cases pc with
  | setLow loc =>
    obtain ⟨-, ask, -, he⟩ := hat
    simp only [Seeks] at h
    subst h
    have h4 := ask.aligned
    dsimp only at h4
    have hlow : lowBit (g.bufAddrs loc) = false := by
      rw [unmarked, lowBit_eq_false]
      omega
    refine .inr ⟨rfl, ?_⟩
    simp [searchNext, hlow, Seeks]
  | setStore loc v =>
    obtain ⟨-, -, -, -, hv⟩ := hat
    simp only [Seeks] at h
    subst h
    exact .inl (by simp [searchNext, store, hv])
  | compare loc =>
    simp only [Seeks] at h
    subst h
    exact .inr (by simp [searchNext, unmarked, Seeks])
  | lookup p =>
    obtain ⟨-, ask, hlt, hin⟩ := hat
    have h4 := ask.aligned
    dsimp only at h4
    have hnext : Located j j (p.next (orig j) g.bufAddrs) := by
      apply Located.next h hin (.inl ⟨unmarked, rfl⟩)
      · intro i hi hij
        have hlt := ordered.lt hi hij hj.2 (.inr h₀)
        have := list.marked.toNat i
        omega
      · intro i hji hi
        have hlt := ordered.lt hj.1 hji hi (.inl h₀)
        have := list.marked.toNat i
        omega
    cases p with
    | found loc => exact .inr ⟨rfl, h⟩
    | bisect lo hi | walk lo hi => exact .inr ⟨rfl, hnext⟩
  | mono _ _ | monoLast _ | readMin | readMax | next | recheck _ | reassert _ | done | fatal
  | abort => exact h.elim

/-- The search has yet to examine a word that refers to entry `j`, or is on its way there. -/
def Pending (orig : Mem) (j : ℤ) (s : Scan) : Prop :=
  (∃ w ∈ s.mem, ptrMask w = orig j) ∨ s.cmp = orig j ∧ Seeks j s.pc

theorem pending_searchRange (debug : Bool) {words : List Word} {j : ℤ}
    (h : ∃ w ∈ words, ptrMask w = orig j) : Pending orig j (searchRange debug words) := by
  unfold searchRange
  split_ifs <;> exact .inl h

theorem Pending.next {debug : Bool} {g : Working} {words : List Word} {s : Scan}
    (list : Searchable orig g) (ordered : Ordered g.nAddrs orig)
    (sound : Sound orig g.nAddrs words s) (caught : Caught orig g.nAddrs g.bufAddrs s) {j : ℤ}
    (hj : 0 ≤ j ∧ j < g.nAddrs) (h₀ : (orig j).toNat ≠ 0) (unmarked : g.bufAddrs j = orig j)
    (h : Pending orig j s) :
    store g.bufAddrs (searchNext debug g s).2 j = orig j + 1#64 ∨
      Pending orig j (searchNext debug g s).1 := by
  obtain hmem | ⟨hcmp, hseek⟩ := h
  · obtain ⟨mem, minPtr, maxPtr, cmp, pc⟩ := s
    cases pc with
    | next =>
      cases mem with
      | nil => exact .inr (.inl hmem)
      | cons w mem =>
        obtain ⟨v, hv, he⟩ := hmem
        obtain rfl | hv := List.mem_cons.mp hv
        · have h4 := ptrMask_aligned v
          rw [he] at h4
          have hseek := seeks_examine list ordered sound.place caught hj h₀ h4 unmarked
          refine .inr (.inr ⟨he, ?_⟩)
          simp only [searchNext, he]
          exact hseek
        · exact .inr (.inl ⟨v, hv, he⟩)
    | mono i last | readMax | compare loc | reassert loc =>
      simp only [searchNext]
      split_ifs <;> exact .inr (.inl hmem)
    | lookup p | recheck p => cases p <;> exact .inr (.inl hmem)
    | monoLast i | readMin | setLow loc | setStore loc v | done | fatal | abort =>
      exact .inr (.inl hmem)
  · obtain hmark | hon := hseek.next list ordered sound hj h₀ unmarked hcmp
    · exact .inl hmark
    · exact .inr (.inr hon)

/-- A finished search has nothing pending. -/
theorem Pending.not_done {words : List Word} {s : Scan} {j : ℤ}
    (sound : Sound orig n words s) (h : Pending orig j s) : s.pc ≠ .done := by
  intro hpc
  have hat := sound.place
  simp only [At, hpc] at hat
  obtain ⟨w, hw, -⟩ | ⟨-, hseek⟩ := h
  · rw [hat] at hw
    simp at hw
  · rw [hpc] at hseek
    exact hseek

/-! ### The assertions of a debug build -/

/-- Strictly increasing positive multiples of four. -/
structure Monotonic (n : ℤ) (orig : Mem) : Prop where
  aligned : ∀ i, 0 ≤ i → i < n → (orig i).toNat % 4 = 0
  positive : ∀ i, 0 ≤ i → i < n → 0 < (orig i).toNat
  increasing : ∀ i j, 0 ≤ i → i < j → j < n → (orig i).toNat < (orig j).toNat

theorem Monotonic.ordered (h : Monotonic n orig) : Ordered n orig :=
  fun i j hi hij hj => .inl (h.increasing i j hi hij hj)

/-- Where a search of a monotonic list stands, no assertion is about to fail. -/
def Calm (orig : Mem) (n : ℤ) (a : Mem) (s : Scan) : Prop :=
  match s.pc with
  | .mono i last => i = 0 ∧ last = 0#64 ∨ 1 ≤ i ∧ last.toNat ≤ (orig (i - 1)).toNat + 1
  | .lookup _ | .compare _ | .recheck _ | .reassert _ =>
    ∀ j, 0 ≤ j → j < n → s.cmp = orig j → a j = orig j + 1#64 ∨ Seeks j s.pc
  | .fatal | .abort => False
  | _ => True

theorem calm_searchRange (debug : Bool) (words : List Word) :
    Calm orig n a (searchRange debug words) := by
  unfold searchRange
  split_ifs
  · exact .inl ⟨rfl, rfl⟩
  · exact trivial

theorem Calm.grows {s : Scan} (h : Calm orig n a s) (grows : Grows orig a b) :
    Calm orig n b s := by
  obtain ⟨mem, minPtr, maxPtr, cmp, pc⟩ := s
  cases pc with
  | lookup p | compare loc | recheck p | reassert loc =>
    intro j h₀ hj he
    exact (h j h₀ hj he).imp_left (grows j)
  | mono _ _ | monoLast _ | readMin | readMax | next | setLow _ | setStore _ _ | done | fatal
  | abort => exact h

theorem Calm.not_failed {s : Scan} (h : Calm orig n a s) : s.pc ≠ .fatal ∧ s.pc ≠ .abort := by
  constructor <;>
  · intro hpc
    rw [Calm, hpc] at h
    exact h

theorem calm_examine {g : Working} {s : Scan} {mem : List Word} {cmp : Word}
    (list : Searchable orig g) (mono : Monotonic g.nAddrs orig) (hb : Bounds orig g.nAddrs s)
    (caught : Caught orig g.nAddrs g.bufAddrs s) :
    Calm orig g.nAddrs g.bufAddrs
      ⟨mem, s.minPtr, s.maxPtr, cmp, examine g s.minPtr s.maxPtr cmp⟩ := by
  have hseek : ∀ j, 0 ≤ j → j < g.nAddrs → cmp = orig j →
      g.bufAddrs j = orig j + 1#64 ∨ Seeks j (examine g s.minPtr s.maxPtr cmp) := by
    rintro j h₀ hj rfl
    obtain he | ⟨-, -, he⟩ := list.marked j
    · have hpos := mono.positive j h₀ hj
      exact .inr (seeks_examine list mono.ordered hb caught ⟨h₀, hj⟩ (by omega)
        (mono.aligned j h₀ hj) he)
    · exact .inl he
  revert hseek
  unfold examine
  split_ifs
  · exact fun _ => trivial
  · exact fun _ => trivial
  · exact fun _ => trivial
  · exact id

/-- The cached bounds are in order, marked or not. -/
theorem Caught.le {s : Scan} (h : Caught orig n a s) (marked : Marked n orig a)
    (mono : Monotonic n orig) (pos : 1 ≤ n) (hmin : Near orig 0 s.minPtr) :
    ¬ a (n - 1) < s.minPtr := by
  rw [BitVec.lt_def]
  have hlast := marked.toNat (n - 1)
  obtain rfl | hlt : n = 1 ∨ 1 < n := by omega
  · rw [show (1 : ℤ) - 1 = 0 by norm_num] at *
    obtain he | ⟨h4, he⟩ := hmin
    · rw [he]
      omega
    · rw [h.1 h4 he, he]
      omega
  · have hinc := mono.increasing 0 (n - 1) le_rfl (by omega) (by omega)
    obtain he | ⟨h4, he⟩ := hmin
    · rw [he]
      omega
    · have hval := toNat_add_one (v := orig 0) (by omega)
      rw [he, hval]
      omega

/-- Searching a monotonic list, however it is being marked, keeps clear of every assertion. -/
theorem Calm.next {debug : Bool} {g : Working} {words : List Word} {s : Scan}
    (h : Calm orig g.nAddrs g.bufAddrs s) (list : Searchable orig g)
    (mono : Monotonic g.nAddrs orig) (sound : Sound orig g.nAddrs words s)
    (caught : Caught orig g.nAddrs g.bufAddrs s) :
    Calm orig g.nAddrs (store g.bufAddrs (searchNext debug g s).2) (searchNext debug g s).1 := by
  have grows : Grows orig g.bufAddrs (store g.bufAddrs (searchNext debug g s).2) :=
    (sound.next list debug).2.store_grows
  have hstay : ∀ j, 0 ≤ j → j < g.nAddrs → s.cmp = orig j → Seeks j s.pc →
      store g.bufAddrs (searchNext debug g s).2 j = orig j + 1#64 ∨
        Seeks j (searchNext debug g s).1.pc := by
    intro j h₀ hj hcmp hseek
    have hpos := mono.positive j h₀ hj
    obtain he | ⟨-, -, he⟩ := list.marked j
    · exact (hseek.next list mono.ordered sound ⟨h₀, hj⟩ (by omega) he hcmp).imp_right And.right
    · exact .inl (grows j he)
  obtain ⟨mem, minPtr, maxPtr, cmp, pc⟩ := s
  have hat := sound.place
  cases pc with
  | mono i last =>
    simp only [searchNext]
    split_ifs with hi hle
    · rw [BitVec.le_def] at hle
      have hentry := list.marked.toNat i
      have hpos := mono.positive i hat hi
      obtain ⟨rfl, rfl⟩ | ⟨hi₁, hlast⟩ := h
      · have : (0#64).toNat = 0 := rfl
        omega
      · have hinc := mono.increasing (i - 1) i (by omega) (by omega) hi
        have h₁ := mono.aligned (i - 1) (by omega) (by omega)
        have h₂ := mono.aligned i hat hi
        omega
    · exact trivial
    · exact trivial
  | monoLast i =>
    have hentry := list.marked.toNat i
    obtain ⟨h₀, -⟩ := hat
    refine .inr ⟨by omega, ?_⟩
    rw [Int.add_sub_cancel]
    omega
  | readMin => exact trivial
  | readMax =>
    have hle := caught.le list.marked mono list.pos hat
    simp only [searchNext]
    split_ifs with hlt
    · exact absurd hlt.2 hle
    · exact trivial
  | next =>
    cases mem with
    | nil => exact trivial
    | cons w mem => exact (calm_examine list mono hat caught).grows grows
  | setLow loc =>
    simp only [searchNext]
    split_ifs <;> exact trivial
  | setStore loc v => exact trivial
  | lookup p =>
    cases p with
    | found loc => exact h
    | bisect lo hi | walk lo hi =>
      intro j h₀ hj he
      obtain hmark | hseek := h j h₀ hj he
      · exact .inl (grows j hmark)
      · exact hstay j h₀ hj he hseek
  | compare loc =>
    have hdone : g.bufAddrs loc ≠ cmp → ∀ j, 0 ≤ j → j < g.nAddrs → cmp = orig j →
        g.bufAddrs j = orig j + 1#64 := by
      intro hne j h₀ hj he
      obtain hmark | rfl := h j h₀ hj he
      · exact hmark
      · obtain hsame | ⟨-, -, hmark⟩ := list.marked loc
        · exact absurd (hsame.trans he.symm) hne
        · exact hmark
    simp only [searchNext]
    split_ifs with he
    · exact trivial
    · exact fun j h₀ hj hcmp => .inl (hdone he j h₀ hj hcmp)
    · exact trivial
  | recheck p =>
    have hmark : ∀ j, 0 ≤ j → j < g.nAddrs → cmp = orig j → g.bufAddrs j = orig j + 1#64 :=
      fun j h₀ hj he => (h j h₀ hj he).resolve_right id
    cases p <;> exact fun j h₀ hj he => .inl (hmark j h₀ hj he)
  | reassert loc =>
    obtain ⟨-, ask, -, hloc⟩ := hat
    simp only [searchNext]
    split_ifs with he
    · have horig := list.marked.eq_of_aligned ask.aligned he
      have hmark := (h loc hloc.1 hloc.2 horig.symm).resolve_right id
      have hval := toNat_add_one (v := orig loc) (by
        have := mono.aligned loc hloc.1 hloc.2
        omega)
      rw [← hmark, he, horig] at hval
      dsimp only at hval
      omega
    · exact trivial
  | done => exact trivial
  | fatal | abort => exact h

end ThreadScan.Marking
