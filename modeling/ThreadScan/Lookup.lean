import ThreadScan.Marking
import ThreadScan.Rearrangement

/-! One lookup of `do_search` in a list that rests. The page comes from the scan map, which
holds the addresses as they were before any of them was marked; the entry comes from the
list, where a marked address is larger than the word that refers to it. -/
namespace ThreadScan.Lookup
open Search Marking Rearrangement

/-- The entries a search of `a` reads. -/
def reads (val : Word) (a : Mem) (p : Probe) : List ℤ :=
  match p with
  | .bisect min max =>
    (Probe.bisect min max).access.toList ++ reads val a (binarySearchNext val a min max)
  | .walk min max =>
    (Probe.walk min max).access.toList ++ reads val a (iterativeSearchNext val a min max)
  | .found _ => []
termination_by p.size
decreasing_by
  · exact binarySearchNext_size val a min max
  · exact iterativeSearchNext_size val a min max

/-- The page of the list that `do_search` picks. -/
def lookupPage (g : Working) (cmp : Word) : ℤ := binarySearch cmp g.bufScanMap 0 g.nScanMap

/-- The search of that page. -/
def pageProbe (g : Working) (cmp : Word) : Probe :=
  .bisect (lookupPage g cmp * pageWords)
    (if lookupPage g cmp = g.nScanMap - 1 then g.nAddrs else (lookupPage g cmp + 1) * pageWords)

/-- The position that the two searches of `do_search` return. -/
def lookup (g : Working) (cmp : Word) : ℤ := (pageProbe g cmp).result cmp g.bufAddrs

/-- The one-level search of the debug builds. -/
def lookupFlat (g : Working) (cmp : Word) : ℤ := binarySearch cmp g.bufAddrs 0 g.nAddrs

/-- Membership by looking at one entry after another. -/
def linearScan (g : Working) (cmp : Word) : Bool := (contents g.bufAddrs g.nAddrs.toNat).contains cmp

/-- `do_search` runs this lookup for a word between the bounds. -/
theorem examine_lookup (g : Working) {minPtr maxPtr cmp : Word} (above : minPtr < cmp)
    (below : cmp < maxPtr) : examine g minPtr maxPtr cmp = .lookup (pageProbe g cmp) := by
  rw [BitVec.lt_def] at above below
  have hout : ¬ (cmp < minPtr ∨ maxPtr < cmp) := by
    simp only [BitVec.lt_def]
    omega
  have hmin : minPtr ≠ cmp := by
    rintro rfl
    omega
  have hmax : maxPtr ≠ cmp := by
    rintro rfl
    omega
  rw [examine, if_neg hout, if_neg hmin, if_neg hmax]
  rfl

/-- Everything that is read is read by a step of the search. -/
theorem reads_of_invariant {P : Probe → Prop} {v : Word} {a : Mem}
    (step : ∀ p, P p → P (p.next v a)) (p : Probe) (h : P p) :
    ∀ i ∈ reads v a p, ∃ q, P q ∧ q.access = some i := by
  induction p using reads.induct v a with
  | case1 min max ih =>
    intro i hi
    rw [reads, List.mem_append, Option.mem_toList] at hi
    rcases hi with hi | hi
    · exact ⟨_, h, hi⟩
    · exact ih (step _ h) i hi
  | case2 min max ih =>
    intro i hi
    rw [reads, List.mem_append, Option.mem_toList] at hi
    rcases hi with hi | hi
    · exact ⟨_, h, hi⟩
    · exact ih (step _ h) i hi
  | case3 loc => simp [reads]

/-- A search in range reads inside of its array, and returns a position inside of it. -/
theorem search_within {n : ℤ} {v : Word} {a : Mem} {p : Probe} (h : InRange n p)
    (first : (a 0).toNat ≤ v.toNat) :
    (∀ i ∈ reads v a p, 0 ≤ i ∧ i < n) ∧ 0 ≤ p.result v a ∧ p.result v a < n := by
  constructor
  · intro i hi
    obtain ⟨q, hq, hacc⟩ := reads_of_invariant (P := InRange n) (fun q hq => hq.next first) p h i hi
    exact hq.access hacc
  · exact Probe.result_of_invariant (P := InRange n) (fun q hq => hq.next first) p h

/-- A search finds the entry it looks for, if all others are clearly apart. -/
theorem search_finds {n f : ℤ} {v : Word} {a : Mem} {p : Probe} (h : InRange n p)
    (loc : Located f f p) (first : (a 0).toNat ≤ v.toNat) (target : a f = v)
    (below : ∀ i, 0 ≤ i → i < f → (a i).toNat < v.toNat)
    (above : ∀ i, f < i → i < n → v.toNat < (a i).toNat) : p.result v a = f := by
  have hend := Probe.result_of_invariant (v := v) (a := a)
    (P := fun q => InRange n q ∧ Located f f q)
    (fun q hq => ⟨hq.1.next first, hq.2.next hq.1 (.inl ⟨target, rfl⟩) below above⟩) p ⟨h, loc⟩
  exact hend.2

/-- The last address that is at most the word. -/
theorem exists_predecessor {n : ℕ} {orig : Mem} {v : Word} (pos : 1 ≤ n)
    (mono : Monotonic n orig) (first : (orig 0).toNat ≤ v.toNat) :
    ∃ j : ℤ, (0 ≤ j ∧ j < n) ∧ (orig j).toNat ≤ v.toNat ∧
      ∀ i, j < i → i < n → v.toNat < (orig i).toNat := by
  induction n with
  | zero => omega
  | succ n ih =>
    push_cast at mono ⊢
    rcases le_or_gt (orig n).toNat v.toNat with hle | hgt
    · exact ⟨n, by omega, hle, fun i hi hn => by omega⟩
    · rcases Nat.eq_zero_or_pos n with rfl | hn
      · rw [Nat.cast_zero] at hgt
        omega
      have hmono : Monotonic n orig :=
        ⟨fun i h₀ hi => mono.aligned i h₀ (by omega), fun i h₀ hi => mono.positive i h₀ (by omega),
          fun i j h₀ hij hj => mono.increasing i j h₀ hij (by omega)⟩
      obtain ⟨j, hj, hle, habove⟩ := ih hn hmono
      refine ⟨j, by omega, hle, fun i hi hin => ?_⟩
      rcases (show i ≤ n by omega).eq_or_lt with rfl | hlt
      · exact hgt
      · exact habove i hi hlt

/-- The page of the last address that is at most the word. -/
theorem lookupPage_spec {n : ℕ} {orig map : Mem} {nMap j : ℤ} {v : Word} (mono : Monotonic n orig)
    (maps : Maps orig n map nMap) (hj : 0 ≤ j ∧ j < n) (hle : (orig j).toNat ≤ v.toNat)
    (habove : ∀ i, j < i → i < n → v.toNat < (orig i).toNat) :
    binarySearch v map 0 nMap = j / pageWords := by
  obtain ⟨h₁, h₂, h₃⟩ := maps
  simp only [pageWords] at h₁ h₂ h₃ ⊢
  have hbelow : ∀ i, 0 ≤ i → i ≤ j → (orig i).toNat ≤ v.toNat := by
    intro i h₀ hi
    rcases hi.eq_or_lt with rfl | hlt
    · exact hle
    · exact ((mono.increasing i j h₀ hlt hj.2).trans_le hle).le
  have hfirst : (map 0).toNat ≤ v.toNat := by
    rw [h₃ 0 le_rfl (by omega)]
    exact hbelow _ (by omega) (by omega)
  have hend := Probe.result_of_invariant (v := v) (a := map)
    (P := fun p => InRange nMap p ∧ Located (j / 512) (j / 512 + 1) p) ?_
    (.bisect 0 nMap) ⟨⟨le_rfl, by omega, le_rfl⟩, by omega, by omega⟩
  · exact hend.2
  · rintro p ⟨hrange, hloc⟩
    refine ⟨hrange.next hfirst, hloc.next hrange (.inr ⟨?_, rfl⟩) ?_ ?_⟩
    · rw [h₃ _ (by omega) (by omega)]
      exact hbelow _ (by omega) (by omega)
    · intro i h₀ hi
      rw [h₃ i h₀ (by omega)]
      exact (mono.increasing (512 * i) j (by omega) (by omega) hj.2).trans_le hle
    · intro i hi hn
      rw [h₃ i (by omega) hn]
      exact habove _ (by omega) (by omega)

/-- The list of a round with its scan map, some of its addresses marked by now. -/
def working (orig a map : Mem) (n : ℕ) : Working where
  bufAddrs := a
  nAddrs := n
  bufScanMap := (generateScanMap orig n map).1
  nScanMap := (generateScanMap orig n map).2

/-- The page that `do_search` picks starts at or below the word and holds the last address that
is at most the word. -/
theorem pageProbe_spec {n : ℕ} {orig : Mem} {j : ℤ} {cmp : Word} (a map : Mem) (pos : 1 ≤ n)
    (mono : Monotonic n orig) (hj : 0 ≤ j ∧ j < n) (hle : (orig j).toNat ≤ cmp.toNat)
    (habove : ∀ i, j < i → i < n → cmp.toNat < (orig i).toNat) :
    let g := working orig a map n
    (0 ≤ lookupPage g cmp ∧ lookupPage g cmp < g.nScanMap) ∧
      orig (lookupPage g cmp * pageWords) ≤ cmp ∧
      InRange n (pageProbe g cmp) ∧ Located j j (pageProbe g cmp) := by
  intro g
  have maps : Maps orig n g.bufScanMap g.nScanMap := generateScanMap_spec orig n (by omega) map
  have hpage : lookupPage g cmp = j / pageWords := lookupPage_spec mono maps hj hle habove
  obtain ⟨h₁, h₂, -⟩ := maps
  simp only [pageWords] at hpage h₁ h₂
  have hstart : orig (lookupPage g cmp * pageWords) ≤ cmp := by
    rw [BitVec.le_def]
    simp only [pageWords]
    rcases (show lookupPage g cmp * 512 ≤ j by omega).eq_or_lt with he | hlt
    · rw [he]
      exact hle
    · exact ((mono.increasing _ _ (by omega) hlt hj.2).trans_le hle).le
  -- the last page ends with the list, every other one in front of the next
  obtain ⟨hi, hprobe, hlast⟩ : ∃ hi, pageProbe g cmp = .bisect (lookupPage g cmp * 512) hi ∧
      j < hi ∧ hi ≤ n := by
    by_cases hend : lookupPage g cmp = g.nScanMap - 1
    · exact ⟨n, congrArg (Probe.bisect (lookupPage g cmp * 512)) (if_pos hend), hj.2, le_rfl⟩
    · exact ⟨(lookupPage g cmp + 1) * 512,
        congrArg (Probe.bisect (lookupPage g cmp * 512)) (if_neg hend), by omega, by omega⟩
  refine ⟨by omega, hstart, ?_⟩
  rw [hprobe]
  exact ⟨⟨by omega, by omega, hlast.2⟩, by omega, hlast.1⟩

/-- An entry that equals the word is unmarked and the last address that is at most the word,
so every search whose range holds that one finds it. -/
theorem finds_predecessor {n : ℕ} {orig a : Mem} {i j : ℤ} {cmp : Word} {p : Probe}
    (mono : Monotonic n orig) (marked : Marked n orig a) (h4 : cmp.toNat % 4 = 0)
    (habove : ∀ k, j < k → k < n → cmp.toNat < (orig k).toNat) (hle : (orig j).toNat ≤ cmp.toNat)
    (hj : 0 ≤ j ∧ j < n) (hfirst : (a 0).toNat ≤ cmp.toNat) (hrange : InRange n p)
    (hloc : Located j j p) (hi : 0 ≤ i ∧ i < n) (he : a i = cmp) : p.result cmp a = i := by
  have ho : orig i = cmp := marked.eq_of_aligned h4 he
  have hij : i = j := by
    rcases lt_trichotomy i j with hlt | rfl | hgt
    · have := mono.increasing i j hi.1 hlt hj.2
      rw [ho] at this
      omega
    · rfl
    · have := habove i hgt hi.2
      rw [ho] at this
      omega
  subst hij
  refine search_finds hrange hloc hfirst he (fun k h₀ hk => ?_) (fun k hk hn => ?_)
  · have := mono.increasing k i h₀ hk hi.2
    have h4k := mono.aligned k h₀ (by omega)
    rw [ho] at this
    rcases marked.toNat k with h | ⟨-, h⟩ <;> omega
  · have := habove k hk hn
    rcases marked.toNat k with h | ⟨-, h⟩ <;> omega

/-- The two levels of a lookup stay in their arrays and find exactly the unmarked addresses,
as a scan of all entries does and the search of the whole list. The word may as well lie
behind the last entry. -/
theorem two_level_lookup (n : ℕ) (pos : 1 ≤ n) (orig a map : Mem) (mono : Monotonic n orig)
    (marked : Marked n orig a) (w : Word) (above : a 0 < ptrMask w) :
    let g := working orig a map n
    let v := lookupPage g (ptrMask w)
    let loc := lookup g (ptrMask w)
    ((0 ≤ v ∧ v < g.nScanMap) ∧ orig (v * pageWords) ≤ ptrMask w) ∧
    (0 ≤ loc ∧ loc < n) ∧
    (∀ i ∈ reads (ptrMask w) g.bufScanMap (.bisect 0 g.nScanMap), 0 ≤ i ∧ i < g.nScanMap) ∧
    (∀ i ∈ reads (ptrMask w) a (pageProbe g (ptrMask w)), 0 ≤ i ∧ i < n) ∧
    (a loc = ptrMask w ↔ ∃ i : ℤ, (0 ≤ i ∧ i < n) ∧ lowBit (a i) = false ∧ a i = ptrMask w) ∧
    (a loc = ptrMask w ↔ linearScan g (ptrMask w) = true) ∧
    (a loc = ptrMask w ↔ a (lookupFlat g (ptrMask w)) = ptrMask w) := by
  have h4 := ptrMask_aligned w
  generalize ptrMask w = cmp at h4 above ⊢
  intro g v loc
  rw [BitVec.lt_def] at above
  have horig : (orig 0).toNat < cmp.toNat := by
    rcases marked.toNat 0 with h | ⟨-, h⟩ <;> omega
  have maps : Maps orig n g.bufScanMap g.nScanMap := generateScanMap_spec orig n (by omega) map
  obtain ⟨j, hj, hle, habove⟩ := exists_predecessor pos mono horig.le
  obtain ⟨hv, hstart, hrange, hlocated⟩ : (0 ≤ v ∧ v < g.nScanMap) ∧ orig (v * pageWords) ≤ cmp ∧
      InRange n (pageProbe g cmp) ∧ Located j j (pageProbe g cmp) :=
    pageProbe_spec a map pos mono hj hle habove
  have hflat : InRange n (.bisect 0 n) := ⟨le_rfl, by omega, le_rfl⟩
  have hmap : (g.bufScanMap 0).toNat ≤ cmp.toNat := by
    rw [maps.2.2 0 le_rfl (by omega)]
    exact horig.le
  obtain ⟨hreads, hloc⟩ := search_within hrange above.le
  obtain ⟨-, hlocFlat⟩ := search_within hflat above.le
  obtain ⟨hreadsMap, -⟩ :=
    search_within (p := .bisect 0 g.nScanMap) ⟨le_rfl, by omega, le_rfl⟩ hmap
  -- both searches find an entry that equals the word
  have hfind : ∀ i : ℤ, 0 ≤ i ∧ i < n → a i = cmp → loc = i ∧ lookupFlat g cmp = i :=
    fun i hi he =>
      ⟨finds_predecessor mono marked h4 habove hle hj above.le hrange hlocated hi he,
        finds_predecessor mono marked h4 habove hle hj above.le hflat hj hi he⟩
  have heven : ∀ i, a i = cmp → lowBit (a i) = false := by
    intro i he
    rw [he]
    exact (lowBit_eq_false cmp).mpr (by omega)
  refine ⟨⟨hv, hstart⟩, hloc, hreadsMap, hreads, ?_, ?_, ?_⟩
  · constructor
    · exact fun he => ⟨loc, hloc, heven loc he, he⟩
    · rintro ⟨i, hi, -, he⟩
      rw [(hfind i hi he).1]
      exact he
  · rw [linearScan, List.contains_iff_mem, mem_contents]
    constructor
    · exact fun he => ⟨loc, hloc.1, hloc.2, he⟩
    · rintro ⟨i, h₀, hi, he⟩
      have hn : i < n := hi
      rw [(hfind i ⟨h₀, hn⟩ he).1]
      exact he
  · constructor
    · intro he
      rw [(hfind loc hloc he).2]
      exact he
    · intro he
      rw [(hfind _ hlocFlat he).1]
      exact he

/-- The word 10 refers to the second of three addresses. -/
theorem two_level_lookup_second :
    let orig : Mem := fun i => BitVec.ofInt 64 (4 * i + 4)
    let g := working orig orig (fun _ => 0#64) 3
    orig (lookup g (ptrMask 10#64)) = ptrMask 10#64 := by
  intro orig g
  have hval : ∀ i : ℤ, 0 ≤ i → i < 3 → (orig i).toNat = (4 * i + 4).toNat := by
    intro i h₀ hi
    obtain rfl | rfl | rfl : i = 0 ∨ i = 1 ∨ i = 2 := by omega
    all_goals decide
  have mono : Monotonic (3 : ℕ) orig := by
    refine ⟨fun i h₀ hi => ?_, fun i h₀ hi => ?_, fun i j h₀ hij hj => ?_⟩
    · rw [hval i h₀ hi]
      omega
    · rw [hval i h₀ hi]
      omega
    · push_cast at hj
      rw [hval i h₀ (by omega), hval j (by omega) hj]
      omega
  obtain ⟨-, -, -, -, hfound, -⟩ := two_level_lookup 3 (by norm_num) orig orig (fun _ => 0#64)
    mono (Marked.refl _ _) 10#64 (by decide)
  exact hfound.mpr ⟨1, by norm_num, by decide, by decide⟩

end ThreadScan.Lookup
