import ThreadScan.Word

/-! The two-level search of `do_search` (`threadscan.c`), cut at its accesses to the
address list: every thread of a round runs it on the same list while the others set low
bits in it. Indices are C `int`s; the list has at most `2 ^ 24` entries, so the sums and
products of indices do not overflow. -/
namespace ThreadScan.Search

/-- The fields of `threadscan_data_t` that a search reads. -/
structure Working where
  bufAddrs : Mem
  nAddrs : ℤ
  bufScanMap : Mem
  nScanMap : ℤ

/-- BINARY_THRESHOLD. -/
def binaryThreshold : ℤ := 32

/-- PAGESIZE / sizeof(size_t): the addresses on one page of the list. -/
def pageWords : ℤ := 512

/-- The loop of `generate_scan_map`, at index `i` of the list and `n` of the map. -/
def scanMapLoop (bufAddrs : Mem) (nAddrs i n : ℤ) (map : Mem) : Mem × ℤ :=
  if i < nAddrs then
    scanMapLoop bufAddrs nAddrs (i + pageWords) (n + 1) (Function.update map n (bufAddrs i))
  else (map, n)
termination_by (nAddrs - i).toNat
decreasing_by simp [pageWords]; omega

def generateScanMap (bufAddrs : Mem) (nAddrs : ℤ) (map : Mem) : Mem × ℤ :=
  scanMapLoop bufAddrs nAddrs 0 0 map

/-- Where a `binary_search` stands: in its own loop, in the loop of `iterative_search`, or
with the position it returns. -/
inductive Probe
  | bisect (min max : ℤ)
  | walk (min max : ℤ)
  | found (loc : ℤ)

/-- One iteration of the loop of `binary_search`, or the first test of `iterative_search`. -/
def binarySearchNext (val : Word) (a : Mem) (min max : ℤ) : Probe :=
  if binaryThreshold ≤ max - min then
    let mid := (max + min) / 2
    if a mid = val then .found mid
    else if val < a mid then .bisect min mid
    else .bisect mid max
  else if val < a min ∨ min = max then .found min
  else .walk min max

/-- One iteration of the loop of `iterative_search`, or its end. -/
def iterativeSearchNext (val : Word) (a : Mem) (min max : ℤ) : Probe :=
  if min < max then
    if a min = val then .found min
    else if val < a min then .found (min - 1)
    else .walk (min + 1) max
  else .found (min - 1)

/-- The next step of a search for `val` in `a`; it reads at most one entry. -/
def Probe.next (val : Word) (a : Mem) : Probe → Probe
  | .bisect min max => binarySearchNext val a min max
  | .walk min max => iterativeSearchNext val a min max
  | .found loc => .found loc

/-- The entry that the next step reads. -/
def Probe.access : Probe → Option ℤ
  | .bisect min max => some (if binaryThreshold ≤ max - min then (max + min) / 2 else min)
  | .walk min max => if min < max then some min else none
  | .found _ => none

def Probe.size : Probe → ℕ
  | .bisect min max => 2 * (max - min).toNat + 2
  | .walk min max => (max - min).toNat + 1
  | .found _ => 0

theorem binarySearchNext_size (val : Word) (a : Mem) (min max : ℤ) :
    (binarySearchNext val a min max).size < (Probe.bisect min max).size := by
  unfold binarySearchNext
  split_ifs with hbig
  · dsimp only
    simp only [binaryThreshold] at hbig
    split_ifs <;> simp only [Probe.size] <;> omega
  all_goals simp only [Probe.size]; omega

theorem iterativeSearchNext_size (val : Word) (a : Mem) (min max : ℤ) :
    (iterativeSearchNext val a min max).size < (Probe.walk min max).size := by
  unfold iterativeSearchNext
  split_ifs <;> simp only [Probe.size] <;> omega

/-- A search of an array that nobody else writes. -/
def Probe.result (val : Word) (a : Mem) (p : Probe) : ℤ :=
  match p with
  | .bisect min max => Probe.result val a (binarySearchNext val a min max)
  | .walk min max => Probe.result val a (iterativeSearchNext val a min max)
  | .found loc => loc
termination_by p.size
decreasing_by
  · exact binarySearchNext_size val a min max
  · exact iterativeSearchNext_size val a min max

def binarySearch (val : Word) (a : Mem) (min max : ℤ) : ℤ := Probe.result val a (.bisect min max)

/-- Invariant rule for a search of an array that nobody else writes. -/
theorem Probe.result_of_invariant {P : Probe → Prop} {v : Word} {a : Mem}
    (step : ∀ p, P p → P (p.next v a)) (p : Probe) (h : P p) :
    P (.found (p.result v a)) := by
  induction p using Probe.result.induct v a with
  | case1 min max ih =>
    rw [Probe.result]
    exact ih (step _ h)
  | case2 min max ih =>
    rw [Probe.result]
    exact ih (step _ h)
  | case3 loc => rwa [Probe.result]

/-- Where a thread stands in `search_range`: `fatal` is the error of `assert_monotonicity`,
`abort` a failed assertion of `do_search`. -/
inductive Pc
  | mono (i : ℤ) (last : Word)
  | monoLast (i : ℤ)
  | readMin
  | readMax
  | next
  | setLow (loc : ℤ)
  | setStore (loc : ℤ) (v : Word)
  | lookup (p : Probe)
  | compare (loc : ℤ)
  | recheck (p : Probe)
  | reassert (loc : ℤ)
  | done
  | fatal
  | abort

/-- A search in progress, with the words of the range it has yet to examine. -/
structure Scan where
  mem : List Word
  minPtr : Word
  maxPtr : Word
  cmp : Word
  pc : Pc

/-- `do_search` at its entry. -/
def doSearch (mem : List Word) : Scan := ⟨mem, 0#64, 0#64, 0#64, .readMin⟩

/-- `search_range` at its entry: debug builds check the list first. -/
def searchRange (debug : Bool) (mem : List Word) : Scan :=
  if debug then { doSearch mem with pc := .mono 0 0#64 } else doSearch mem

/-- What the loop of `do_search` does with one masked word. -/
def examine (g : Working) (minPtr maxPtr cmp : Word) : Pc :=
  if cmp < minPtr ∨ maxPtr < cmp then .next
  else if minPtr = cmp then .setLow 0
  else if maxPtr = cmp then .setLow (g.nAddrs - 1)
  else
    -- Level 1 search: find the page the address would be on.
    let v := binarySearch cmp g.bufScanMap 0 g.nScanMap
    -- Level 2 search: find the address within the page.
    .lookup (.bisect (v * pageWords)
      (if v = g.nScanMap - 1 then g.nAddrs else (v + 1) * pageWords))

/-- The next step of a search, which accesses at most one entry of the list: the search
afterwards and the store it makes. -/
def searchNext (debug : Bool) (g : Working) (s : Scan) : Scan × Option (ℤ × Word) :=
  match s.pc with
  | .mono i last =>
    if i < g.nAddrs then
      if g.bufAddrs i ≤ last then ({ s with pc := .fatal }, none)
      else ({ s with pc := .monoLast i }, none)
    else ({ s with pc := .readMin }, none)
  | .monoLast i => ({ s with pc := .mono (i + 1) (g.bufAddrs i) }, none)
  -- an empty list has no entries 0 and -1: a word is read all the same, where the program faults
  | .readMin => ({ s with minPtr := g.bufAddrs 0, pc := .readMax }, none)
  | .readMax =>
    let maxPtr := g.bufAddrs (g.nAddrs - 1)
    if debug ∧ maxPtr < s.minPtr then ({ s with pc := .abort }, none)
    else ({ s with maxPtr := maxPtr, pc := .next }, none)
  | .next =>
    match s.mem with
    | [] => ({ s with pc := .done }, none)
    | w :: mem =>
      ({ s with mem := mem, cmp := ptrMask w, pc := examine g s.minPtr s.maxPtr (ptrMask w) },
        none)
  | .setLow loc =>
    let v := g.bufAddrs loc
    ({ s with pc := if lowBit v then .next else .setStore loc v }, none)
  | .setStore loc v => ({ s with pc := .next }, some (loc, v + 1#64))
  | .lookup (.found loc) => ({ s with pc := .compare loc }, none)
  | .lookup p => ({ s with pc := .lookup (p.next s.cmp g.bufAddrs) }, none)
  | .compare loc =>
    if g.bufAddrs loc = s.cmp then ({ s with pc := .setLow loc }, none)
    else if debug then ({ s with pc := .recheck (.bisect 0 g.nAddrs) }, none)
    else ({ s with pc := .next }, none)
  | .recheck (.found loc) => ({ s with pc := .reassert loc }, none)
  | .recheck p => ({ s with pc := .recheck (p.next s.cmp g.bufAddrs) }, none)
  | .reassert loc =>
    if g.bufAddrs loc = s.cmp then ({ s with pc := .abort }, none)
    else ({ s with pc := .next }, none)
  | .done | .fatal | .abort => (s, none)

/-- The entry of the list that the next step of a search accesses. -/
def Pc.access (nAddrs : ℤ) : Pc → Option ℤ
  | .mono i _ => if i < nAddrs then some i else none
  | .readMin => some 0
  | .readMax => some (nAddrs - 1)
  | .monoLast loc | .setLow loc | .setStore loc _ | .compare loc | .reassert loc => some loc
  | .lookup p | .recheck p => p.access
  | .next | .done | .fatal | .abort => none

/-- The list after a step. -/
def store (a : Mem) : Option (ℤ × Word) → Mem
  | none => a
  | some (i, v) => Function.update a i v

end ThreadScan.Search
