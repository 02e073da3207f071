import ThreadScan.Scanf

/-! The search of `/proc/self/maps` for the stack of a thread (`proc.c`): the listing is read with
`fscanf`, one line after the other, and no read knows where a line ends. -/
namespace ThreadScan.Procmap
open Scanf

/-- `mapline_t`. -/
structure MaplineT where
  rangeBegin : ℕ
  rangeEnd : ℕ
  bits : List Char
  f1 : ℕ
  f2 : ℕ
  f3 : ℕ
  f4 : ℤ
  location : List Char

/-- "%llx-%llx %s %llx %x:%x %d" -/
def maplineFormat : List Directive :=
  [.number 16, .literal '-', .number 16, .space, .word, .space, .number 16, .space, .number 16,
    .literal ':', .number 16, .space, .number 10]

/-- "%s\\n" -/
def locationFormat : List Directive := [.word, .space]

/-- The byte that is EOF once it is a `char`. -/
def eofChar : Char := Char.ofNat 255

/-- How a call of `read_mapline` ends: at the end of the file, with a line, or in
`threadscan_fatal` with what `fscanf` returned. -/
inductive Outcome
  | done
  | line (m : MaplineT) (fp : Input)
  | fatal (n : ℤ)

/-- The part of `read_mapline` behind the first `fscanf`. -/
def readLocation (m : MaplineT) (fp : Input) : Outcome :=
  let fp := fp.skip fun c => c = ' '
  match fp.rest with
  | [] => .line m { fp with eof := true }
  | c :: r =>
    if c = '\n' ∨ c = eofChar then .line m { fp with rest := r }
    else
      match fscanf locationFormat { fp with rest := r } with
      | .ok ([.word w], fp) => .line { m with location := c :: w } fp
      | .ok (vs, _) => .fatal vs.length
      | .error n => .fatal n

def readMapline (fp : Input) : Outcome :=
  if fp.eof then .done
  else
    match fscanf maplineFormat fp with
    | .ok ([.number b, .number e, .word bits, .number f1, .number f2, .number f3, .number f4], fp) =>
      readLocation {
        rangeBegin := unsignedLongLong b
        rangeEnd := unsignedLongLong e
        bits := bits
        f1 := unsignedLongLong f1
        f2 := unsignedInt f2
        f3 := unsignedInt f3
        f4 := int f4
        location := [] } fp
    | .ok (vs, _) => .fatal vs.length
    | .error n => .fatal n

/-- The loop of `threadscan_proc_stack_from_addr`, if it takes less than the given number of
steps: the range that is found, zeros if there is none, or what `fscanf` returned. -/
def stackLoop (addr : ℕ) : ℕ → Input → Option (Except ℤ (ℕ × ℕ))
  | 0, _ => none
  | fuel + 1, fp =>
    match readMapline fp with
    | .done => some (.ok (0, 0))
    | .fatal n => some (.error n)
    | .line m fp =>
      if m.rangeBegin < addr ∧ addr < m.rangeEnd then some (.ok (m.rangeBegin, m.rangeEnd))
      else stackLoop addr fuel fp

def threadscanProcStackFromAddr (maps : List Char) (addr fuel : ℕ) : Option (Except ℤ (ℕ × ℕ)) :=
  stackLoop addr fuel ⟨maps, false⟩

/-! ### Listings -/

/-- The bits of a line. -/
structure Perms where
  readable : Bool
  writable : Bool
  executable : Bool
  shared : Bool

def Perms.text (p : Perms) : List Char :=
  [if p.readable then 'r' else '-', if p.writable then 'w' else '-',
    if p.executable then 'x' else '-', if p.shared then 's' else 'p']

/-- A line of a listing: digits as they are printed, and spaces in front of the name. -/
structure Line where
  rangeBegin : List Char
  rangeEnd : List Char
  perms : Perms
  offset : List Char
  major : List Char
  minor : List Char
  inode : List Char
  spaces : ℕ
  name : List Char

def Line.header (l : Line) : List Char :=
  l.rangeBegin ++ '-' :: (l.rangeEnd ++ ' ' :: (l.perms.text ++ ' ' :: (l.offset ++ ' ' ::
    (l.major ++ ':' :: (l.minor ++ ' ' :: l.inode)))))

/-- What stands behind the header. -/
def Line.rest (l : Line) : List Char := List.replicate l.spaces ' ' ++ (l.name ++ ['\n'])

def text (ls : List Line) : List Char := ls.flatMap fun l => l.header ++ l.rest

def Line.low (l : Line) : ℕ := ofDigits 16 l.rangeBegin

def Line.high (l : Line) : ℕ := ofDigits 16 l.rangeEnd

def Digits (base : ℕ) (d : List Char) : Prop := d ≠ [] ∧ ∀ c ∈ d, isdigit base c = true

structure Line.WellFormed (l : Line) : Prop where
  rangeBegin : Digits 16 l.rangeBegin ∧ l.rangeBegin.length ≤ 16
  rangeEnd : Digits 16 l.rangeEnd ∧ l.rangeEnd.length ≤ 16
  offset : Digits 16 l.offset
  major : Digits 16 l.major
  minor : Digits 16 l.minor
  inode : Digits 10 l.inode
  range : l.low < l.high
  spaces : l.name ≠ [] → 0 < l.spaces
  name : ' ' ∉ l.name.head? ∧ '\n' ∉ l.name ∧ l.name.length ≤ 254

/-- The ranges increase and are disjoint. -/
structure WellFormed (ls : List Line) : Prop where
  lines : ∀ l ∈ ls, l.WellFormed
  increasing : ls.Pairwise fun l m => l.high ≤ m.low

/-- What a name leaves for the next line to read. -/
def surplus : List Char → List Char
  | [] => []
  | c :: r =>
    if c = eofChar then r.dropWhile isspace else skipWord r

/-- There is nothing but white space behind the first character of a name. -/
def Wordless : List Char → Prop
  | [] => False
  | c :: r => c ≠ eofChar ∧ ∀ x ∈ r, isspace x = true

/-- The next read starts where the line ends. -/
def InStep (name : List Char) : Prop := ¬ Wordless name ∧ surplus name = []

/-- The text starts with a number and a minus, as a line does. -/
def LooksLikeRange (t : List Char) : Prop :=
  ∃ r, fscanf [.number 16, .literal '-'] ⟨t, false⟩ = .ok r

variable {l m : Line} {ls before after : List Line} {addr fuel : ℕ} {c : Char} {r ws t : List Char}
  {e : Bool} {d : List Char} {base : ℕ} {fp : Input}

theorem Digits.nonblank (h : Digits base d) (hbase : base ≤ 16) : ∀ x ∈ d, isspace x = false :=
  fun x hx => isspace_of_isdigit hbase (h.2 x hx)

theorem Perms.text_ne_nil (p : Perms) : p.text ≠ [] := by simp [Perms.text]

theorem Perms.nonblank (p : Perms) : ∀ x ∈ p.text, isspace x = false := by
  intro x hx
  simp only [Perms.text, List.mem_cons, List.not_mem_nil, or_false] at hx
  rcases hx with rfl | rfl | rfl | rfl <;> split_ifs <;> decide

/-- The header of a line is read as it is printed. -/
theorem fscanf_header (h : l.WellFormed) (blank : ∀ x ∈ ws, isspace x = true)
    (hc : isspace c = true) :
    fscanf maplineFormat ⟨ws ++ (l.header ++ c :: r), e⟩ =
      .ok ([.number l.low, .number l.high, .word l.perms.text, .number (ofDigits 16 l.offset),
        .number (ofDigits 16 l.major), .number (ofDigits 16 l.minor),
        .number (ofDigits 10 l.inode)], ⟨c :: r, e⟩) := by
  have hdigit : isdigit 10 c = false := by simp [isdigit, digitValue_of_isspace hc]
  have hx : c ≠ 'x' := by rintro rfl; simp [isspace] at hc
  have hX : c ≠ 'X' := by rintro rfl; simp [isspace] at hc
  obtain ⟨⟨hb, -⟩, ⟨he, -⟩, ho, hma, hmi, hi, -, -, -⟩ := h
  have hcolon : isdigit 16 ':' = false := by decide
  have hminus : isdigit 16 '-' = false := by decide
  have hspace : isdigit 16 ' ' = false := by decide
  simp only [Line.header, List.append_assoc, List.cons_append]
  refine Reads.fscanf (.cons (read_number le_rfl blank hb.1 hb.2 hminus (by decide) (by decide)) ?_)
  refine .cons read_literal (.cons (read_digits le_rfl he.1 he.2 hspace (by decide) (by decide)) ?_)
  refine .cons (read_blank l.perms.text_ne_nil l.perms.nonblank) ?_
  refine .cons (read_letters l.perms.text_ne_nil l.perms.nonblank (by decide)) ?_
  refine .cons (read_blank ho.1 (ho.nonblank le_rfl)) ?_
  refine .cons (read_digits le_rfl ho.1 ho.2 hspace (by decide) (by decide)) ?_
  refine .cons (read_blank hma.1 (hma.nonblank le_rfl)) ?_
  refine .cons (read_digits le_rfl hma.1 hma.2 hcolon (by decide) (by decide)) ?_
  refine .cons read_literal (.cons (read_digits le_rfl hmi.1 hmi.2 hspace (by decide) (by decide)) ?_)
  refine .cons (read_blank hi.1 (hi.nonblank (by omega))) ?_
  exact .cons (read_digits (by omega) hi.1 hi.2 hdigit hx hX) (.nil _)

theorem Line.WellFormed.low_lt (h : l.WellFormed) : l.low < 2 ^ 64 := by
  have hlt := ofDigits_lt h.rangeBegin.1.2
  have hpow : 16 ^ l.rangeBegin.length ≤ 16 ^ 16 := Nat.pow_le_pow_right (by omega) h.rangeBegin.2
  exact hlt.trans_le hpow

theorem Line.WellFormed.high_lt (h : l.WellFormed) : l.high < 2 ^ 64 := by
  have hlt := ofDigits_lt h.rangeEnd.1.2
  have hpow : 16 ^ l.rangeEnd.length ≤ 16 ^ 16 := Nat.pow_le_pow_right (by omega) h.rangeEnd.2
  exact hlt.trans_le hpow

/-- A name is preceded by a space, and so is the end of a line or not. -/
theorem Line.WellFormed.rest_cons (h : l.WellFormed) : ∃ c t, l.rest = c :: t ∧ isspace c = true := by
  cases hs : l.spaces with
  | zero =>
    have hname : l.name = [] := by
      by_contra hne
      have hpos := h.spaces hne
      omega
    exact ⟨'\n', [], by simp [Line.rest, hs, hname], by decide⟩
  | succ n =>
    exact ⟨' ', List.replicate n ' ' ++ (l.name ++ ['\n']), by simp [Line.rest, hs, List.replicate_succ],
      by decide⟩

/-- What is stored for the header of a line. -/
def Line.mapline (l : Line) : MaplineT where
  rangeBegin := l.low
  rangeEnd := l.high
  bits := l.perms.text
  f1 := unsignedLongLong (ofDigits 16 l.offset)
  f2 := unsignedInt (ofDigits 16 l.major)
  f3 := unsignedInt (ofDigits 16 l.minor)
  f4 := int (ofDigits 10 l.inode)
  location := []

/-- The text of a line up to its name is read as its range, wherever the line ends. -/
theorem readMapline_line (h : l.WellFormed) (blank : ∀ x ∈ ws, isspace x = true) :
    readMapline ⟨ws ++ (l.header ++ (l.rest ++ r)), false⟩ =
      readLocation l.mapline ⟨l.rest ++ r, false⟩ := by
  obtain ⟨c, t, hrest, hc⟩ := h.rest_cons
  rw [hrest, List.cons_append]
  have hheader := fscanf_header (r := t ++ r) (e := false) h blank hc
  simp only [readMapline, hheader, Bool.false_eq_true, if_false, Line.mapline]
  rw [unsignedLongLong_of_lt h.low_lt, unsignedLongLong_of_lt h.high_lt]

/-- What happens behind the header depends on the name alone, up to the word that is read. -/
theorem readLocation_rest (h : l.WellFormed) (m : MaplineT) :
    readLocation m ⟨l.rest ++ r, false⟩ =
      match l.name with
      | [] => .line m ⟨r, false⟩
      | c :: t =>
        if c = eofChar then .line m ⟨t ++ '\n' :: r, false⟩
        else
          match fscanf locationFormat ⟨t ++ '\n' :: r, false⟩ with
          | .ok ([.word w], fp) => .line { m with location := c :: w } fp
          | .ok (vs, _) => .fatal vs.length
          | .error n => .fatal n := by
  have hspaces : ∀ x ∈ List.replicate l.spaces ' ', decide (x = ' ') = true := by
    intro x hx
    simpa using List.eq_of_mem_replicate hx
  obtain ⟨hhead, hline, -⟩ := h.name
  have hassoc : l.rest ++ r = List.replicate l.spaces ' ' ++ (l.name ++ '\n' :: r) := by
    simp [Line.rest]
  rw [hassoc]
  cases hname : l.name with
  | nil =>
    have hskip := Input.skip_append (e := false) (r := r) hspaces
      (show decide ('\n' = ' ') = false by decide)
    simp only [readLocation, List.nil_append, hskip, true_or, if_true]
  | cons c t =>
    rw [hname] at hhead hline
    have hc : decide (c = ' ') = false := by simpa using hhead
    have hnl : c ≠ '\n' := fun he => hline (by simp [he])
    have hskip := Input.skip_append (e := false) (r := t ++ '\n' :: r) hspaces hc
    simp only [readLocation, List.cons_append, hskip, hnl, false_or]

/-- A word behind the first character of a name. -/
theorem dropWhile_ne_nil {t : List Char} (hc : c ≠ eofChar) (h : ¬ Wordless (c :: t)) :
    t.dropWhile isspace ≠ [] := by
  intro hnil
  exact h ⟨hc, List.dropWhile_eq_nil_iff.mp hnil⟩

/-- A line whose name has a word is read, and what is left is behind that word. -/
theorem readMapline_word {t : List Char} (h : l.WellFormed) (blank : ∀ x ∈ ws, isspace x = true)
    (hname : l.name = c :: t) (hc : c ≠ eofChar) (ht : (t ++ '\n' :: r).dropWhile isspace ≠ []) :
    ∃ w e', readMapline ⟨ws ++ (l.header ++ (l.rest ++ r)), false⟩ =
        .line { l.mapline with location := w } ⟨skipWord (t ++ '\n' :: r), e'⟩ ∧
      (skipWord (t ++ '\n' :: r) ≠ [] → e' = false) := by
  obtain ⟨w, e', hscan, he⟩ := scan_word (e := false) ht
  refine ⟨c :: w, e', ?_, he⟩
  rw [readMapline_line h blank, readLocation_rest h, hname]
  simp only [if_neg hc, locationFormat, hscan]

/-- A line in step is read, and the next one comes. -/
theorem readMapline_inStep (h : l.WellFormed) (blank : ∀ x ∈ ws, isspace x = true)
    (step : InStep l.name) (hr : r ≠ []) (start : r.dropWhile isspace = r) :
    ∃ w us, (∀ x ∈ us, isspace x = true) ∧
      readMapline ⟨ws ++ (l.header ++ (l.rest ++ r)), false⟩ =
        .line { l.mapline with location := w } ⟨us ++ r, false⟩ := by
  obtain ⟨hword, hsurplus⟩ := step
  cases hname : l.name with
  | nil =>
    refine ⟨[], [], by simp, ?_⟩
    rw [readMapline_line h blank, readLocation_rest h, hname]
    rfl
  | cons c t =>
    rw [hname] at hword hsurplus
    by_cases hc : c = eofChar
    · -- the name passes for none
      have hblank : ∀ x ∈ t, isspace x = true := by
        rw [surplus, if_pos hc] at hsurplus
        exact List.dropWhile_eq_nil_iff.mp hsurplus
      refine ⟨[], t ++ ['\n'], ?_, ?_⟩
      · intro x hx
        rcases List.mem_append.mp hx with hx | hx
        · exact hblank x hx
        · rw [List.mem_singleton.mp hx]
          decide
      · rw [readMapline_line h blank, readLocation_rest h, hname]
        simp only [if_pos hc, List.append_assoc, List.singleton_append]
        rfl
    · have ht := dropWhile_ne_nil hc hword
      rw [surplus, if_neg hc] at hsurplus
      have hleft : skipWord (t ++ '\n' :: r) = r := by
        rw [skipWord_append (by decide) ht, if_pos hsurplus, start]
      have hmore : (t ++ '\n' :: r).dropWhile isspace ≠ [] := by
        rw [List.dropWhile_append, if_neg (by simpa using ht)]
        exact List.append_ne_nil_of_left_ne_nil ht _
      obtain ⟨w, e', hread, he⟩ := readMapline_word h blank hname hc hmore
      rw [hleft] at hread he
      rw [he hr] at hread
      exact ⟨w, [], by simp, hread⟩

/-- The line that is looked for is read, unless it needs a word and there is none. -/
theorem readMapline_target (h : l.WellFormed) (blank : ∀ x ∈ ws, isspace x = true)
    (start : r.dropWhile isspace = r) :
    (¬ (r = [] ∧ Wordless l.name) ∧ ∃ w fp,
      readMapline ⟨ws ++ (l.header ++ (l.rest ++ r)), false⟩ =
        .line { l.mapline with location := w } fp) ∨
      r = [] ∧ Wordless l.name ∧
        readMapline ⟨ws ++ (l.header ++ (l.rest ++ r)), false⟩ = .fatal (-1) := by
  cases hname : l.name with
  | nil =>
    refine .inl ⟨fun hw => hw.2, [], ⟨r, false⟩, ?_⟩
    rw [readMapline_line h blank, readLocation_rest h, hname]
    rfl
  | cons c t =>
    by_cases hc : c = eofChar
    · refine .inl ⟨fun hw => hw.2.1 hc, [], ⟨t ++ '\n' :: r, false⟩, ?_⟩
      rw [readMapline_line h blank, readLocation_rest h, hname]
      simp only [if_pos hc]
      rfl
    by_cases hmore : (t ++ '\n' :: r).dropWhile isspace = []
    · have hall := List.dropWhile_eq_nil_iff.mp hmore
      have hnil : r = [] := by
        rw [← start, List.dropWhile_eq_nil_iff]
        exact fun x hx => hall x (by simp [hx])
      refine .inr ⟨hnil, ⟨hc, fun x hx => hall x (by simp [hx])⟩, ?_⟩
      rw [readMapline_line h blank, readLocation_rest h, hname]
      simp only [if_neg hc, locationFormat, scan_word_blank hmore]
    · have hsome : ¬ (r = [] ∧ Wordless (c :: t)) := by
        rintro ⟨rfl, -, hblank⟩
        refine hmore (List.dropWhile_eq_nil_iff.mpr fun x hx => ?_)
        rcases List.mem_append.mp hx with hx | hx
        · exact hblank x hx
        · rw [List.mem_singleton.mp hx]
          decide
      obtain ⟨w, e', hread, -⟩ := readMapline_word h blank hname hc hmore
      exact .inl ⟨hsome, w, _, hread⟩

/-- The bits of a line do not pass for a number. -/
theorem readMapline_perms (p : Perms) (t : List Char) :
    readMapline ⟨p.text ++ t, false⟩ = .fatal 0 := by
  have hnumber : readNumber 16 (p.text ++ t) = none := by
    obtain ⟨readable, writable, executable, shared⟩ := p
    cases readable <;> cases writable <;>
      simp [Perms.text, readNumber, readSign, readPrefix, isdigit, digitValue]
  have hskip : (⟨p.text ++ t, false⟩ : Input).skip isspace = ⟨p.text ++ t, false⟩ := by
    have hfirst := p.nonblank
    simp only [Perms.text, List.cons_append, Input.skip] at hfirst ⊢
    rw [List.dropWhile_cons_of_neg (by simp [hfirst])]
    rfl
  have hne : p.text ++ t ≠ [] := List.append_ne_nil_of_left_ne_nil p.text_ne_nil t
  simp [readMapline, fscanf, maplineFormat, scan, Directive.read, hskip, hne, hnumber]

/-- A text that does not start like a line is not read as one. -/
theorem readMapline_fails (blank : ∀ x ∈ ws, isspace x = true) (ht : t ≠ [])
    (start : t.dropWhile isspace = t) (h : ¬ LooksLikeRange t) :
    ∃ n, readMapline ⟨ws ++ (t ++ '\n' :: r), false⟩ = .fatal n := by
  have hnl : isspace '\n' = true := by decide
  cases t with
  | nil => exact absurd rfl ht
  | cons a t =>
    have ha : isspace a = false := by
      have hhead := List.head?_dropWhile_not isspace (a :: t)
      rw [start] at hhead
      simpa using hhead
    have hskip : (⟨ws ++ (a :: t ++ '\n' :: r), false⟩ : Input).skip isspace =
        ⟨a :: t ++ '\n' :: r, false⟩ := Input.skip_append blank ha
    have hself : (⟨a :: t, false⟩ : Input).skip isspace = ⟨a :: t, false⟩ := by
      simp [Input.skip, ha]
    have hnumber : readNumber 16 (a :: t ++ '\n' :: r) =
        (readNumber 16 (a :: t)).map fun q => (q.1, q.2 ++ '\n' :: r) :=
      readNumber_append le_rfl hnl
    cases hfound : readNumber 16 (a :: t) with
    | none =>
      rw [hfound] at hnumber
      refine ⟨0, ?_⟩
      simp only [readMapline, fscanf, maplineFormat, scan, Directive.read, hskip, hnumber]
      rfl
    | some q =>
      obtain ⟨v, q⟩ := q
      rw [hfound] at hnumber
      cases q with
      | nil =>
        refine ⟨1, ?_⟩
        simp only [readMapline, fscanf, maplineFormat, scan, Directive.read, hskip, hnumber]
        rfl
      | cons b q =>
        have hb : b ≠ '-' := by
          rintro rfl
          have hread : (Directive.number 16).read ⟨a :: t, false⟩ =
              .ok ([.number v], ⟨'-' :: q, false⟩) := by
            simp [Directive.read, hself, hfound]
          exact h ⟨_, Reads.fscanf (.cons hread (.cons read_literal (.nil _)))⟩
        refine ⟨1, ?_⟩
        simp only [readMapline, fscanf, maplineFormat, scan, Directive.read, hskip, hnumber]
        simp [hb]

theorem text_cons (l : Line) (ls : List Line) :
    text (l :: ls) = l.header ++ (l.rest ++ text ls) := by
  simp [text]

/-- A listing starts with a digit. -/
theorem header_start (h : l.WellFormed) (t : List Char) :
    (l.header ++ t).dropWhile isspace = l.header ++ t := by
  obtain ⟨hne, hdigits⟩ := h.rangeBegin.1
  cases hd : l.rangeBegin with
  | nil => exact absurd hd hne
  | cons a d =>
    have ha := isspace_of_isdigit le_rfl (hdigits a (by simp [hd]))
    rw [Line.header, hd]
    exact List.dropWhile_cons_of_neg (by simp [ha])

theorem text_start (h : ∀ l ∈ ls, l.WellFormed) : (text ls).dropWhile isspace = text ls := by
  cases ls with
  | nil => rfl
  | cons l ls =>
    rw [text_cons]
    exact header_start (h l (by simp)) _

theorem text_ne_nil (l : Line) (ls : List Line) : text (l :: ls) ≠ [] := by
  simp [text, Line.header]

/-- Behind the first word of a line its bits stand. -/
theorem skipWord_header (h : l.WellFormed) (t : List Char) :
    ∃ s, skipWord (l.header ++ t) = l.perms.text ++ s := by
  have hword : ∀ x ∈ l.rangeBegin ++ '-' :: l.rangeEnd, isspace x = false := by
    intro x hx
    rcases List.mem_append.mp hx with hx | hx
    · exact h.rangeBegin.1.nonblank le_rfl x hx
    rcases List.mem_cons.mp hx with rfl | hx
    · decide
    · exact h.rangeEnd.1.nonblank le_rfl x hx
  have hsplit : l.header ++ t = (l.rangeBegin ++ '-' :: l.rangeEnd) ++ ' ' :: (l.perms.text ++
      (' ' :: (l.offset ++ ' ' :: (l.major ++ ':' :: (l.minor ++ ' ' :: (l.inode ++ t)))))) := by
    simp [Line.header]
  rw [hsplit]
  exact ⟨_, skipWord_cons (by simp) hword (by decide) l.perms.text_ne_nil l.perms.nonblank⟩

/-- What is left starts with a word, if anything is left. -/
theorem surplus_start (name : List Char) : (surplus name).dropWhile isspace = surplus name := by
  cases name with
  | nil => rfl
  | cons c t =>
    by_cases hc : c = eofChar
    · rw [surplus, if_pos hc]
      exact List.dropWhile_idempotent _ _
    · rw [surplus, if_neg hc]
      exact List.dropWhile_idempotent _ _

/-- After a line out of step the next read fails, unless what the name leaves starts like a
line. -/
theorem readMapline_outOfStep (h : l.WellFormed) (blank : ∀ x ∈ ws, isspace x = true)
    (next : m.WellFormed) (t : List Char) (out : ¬ InStep l.name)
    (unlike : ¬ LooksLikeRange (surplus l.name)) :
    ∃ w fp n, readMapline ⟨ws ++ (l.header ++ (l.rest ++ (m.header ++ t))), false⟩ =
      .line { l.mapline with location := w } fp ∧ readMapline fp = .fatal n := by
  have hnl : isspace '\n' = true := by decide
  cases hname : l.name with
  | nil => exact absurd ⟨by simp [Wordless, hname], by simp [surplus, hname]⟩ out
  | cons c s =>
    rw [hname] at out unlike
    have hstart := surplus_start (c :: s)
    by_cases hc : c = eofChar
    · -- the rest of the name is left
      have hne : surplus (c :: s) ≠ [] := fun he => out ⟨fun hw => hw.1 hc, he⟩
      have hsplit : s = s.takeWhile isspace ++ surplus (c :: s) := by
        rw [surplus, if_pos hc, List.takeWhile_append_dropWhile]
      have hblank : ∀ x ∈ s.takeWhile isspace, isspace x = true := fun x hx =>
        List.mem_takeWhile_imp hx
      obtain ⟨n, hn⟩ := readMapline_fails (r := m.header ++ t) hblank hne hstart unlike
      refine ⟨[], _, n, ?_, hn⟩
      rw [readMapline_line h blank, readLocation_rest h, hname]
      simp only [if_pos hc]
      rw [← List.append_assoc, ← hsplit]
      rfl
    by_cases hword : Wordless (c :: s)
    · -- the first word of the next line is taken for the name
      obtain ⟨u, hu⟩ := skipWord_header next t
      have hskip : skipWord (s ++ '\n' :: (m.header ++ t)) = m.perms.text ++ u := by
        have hblank : ∀ x ∈ ['\n'], isspace x = true := by simp [hnl]
        rw [skipWord_blank hword.2, ← hu]
        exact skipWord_blank hblank
      have hmore : (s ++ '\n' :: (m.header ++ t)).dropWhile isspace ≠ [] := by
        rw [List.dropWhile_append_of_pos hword.2, List.dropWhile_cons_of_pos hnl, header_start next]
        simp [Line.header]
      obtain ⟨w, e', hread, he⟩ := readMapline_word h blank hname hc hmore
      rw [hskip] at hread he
      rw [he (List.append_ne_nil_of_left_ne_nil m.perms.text_ne_nil u)] at hread
      exact ⟨w, _, 0, hread, readMapline_perms m.perms u⟩
    · have hs := dropWhile_ne_nil hc hword
      have hne : skipWord s ≠ [] := fun he => out ⟨hword, by rw [surplus, if_neg hc, he]⟩
      rw [surplus, if_neg hc] at unlike hstart
      have hskip : skipWord (s ++ '\n' :: (m.header ++ t)) = skipWord s ++ '\n' :: (m.header ++ t) := by
        rw [skipWord_append hnl hs, if_neg hne]
      have hmore : (s ++ '\n' :: (m.header ++ t)).dropWhile isspace ≠ [] := by
        rw [List.dropWhile_append, if_neg (by simpa using hs)]
        exact List.append_ne_nil_of_left_ne_nil hs _
      obtain ⟨w, e', hread, he⟩ := readMapline_word h blank hname hc hmore
      rw [hskip] at hread he
      rw [he (List.append_ne_nil_of_left_ne_nil hne _)] at hread
      have hnone : ∀ x ∈ ([] : List Char), isspace x = true := by simp
      obtain ⟨n, hn⟩ := readMapline_fails (r := m.header ++ t) hnone hne hstart unlike
      exact ⟨w, _, n, hread, hn⟩

/-- The search ends and finds the range. -/
def Finds (addr : ℕ) (fp : Input) (range : ℕ × ℕ) : Prop :=
  ∃ fuel, stackLoop addr fuel fp = some (.ok range)

variable {fp' : Input} {range : ℕ × ℕ} {line m' : MaplineT} {n : ℤ}

/-- A line that does not hold the address is passed. -/
theorem finds_line (h : readMapline fp = .line line fp')
    (outside : ¬ (line.rangeBegin < addr ∧ addr < line.rangeEnd)) :
    Finds addr fp range ↔ Finds addr fp' range := by
  constructor
  · rintro ⟨fuel, hfuel⟩
    cases fuel with
    | zero => cases hfuel
    | succ fuel =>
      simp only [stackLoop, h, if_neg outside] at hfuel
      exact ⟨fuel, hfuel⟩
  · rintro ⟨fuel, hfuel⟩
    refine ⟨fuel + 1, ?_⟩
    simp only [stackLoop, h, if_neg outside, hfuel]

theorem finds_of_line (h : readMapline fp = .line line fp')
    (inside : line.rangeBegin < addr ∧ addr < line.rangeEnd) :
    Finds addr fp (line.rangeBegin, line.rangeEnd) :=
  ⟨1, by simp only [stackLoop, h, if_pos inside]⟩

theorem not_finds_of_fatal (h : readMapline fp = .fatal n) : ¬ Finds addr fp range := by
  rintro ⟨fuel, hfuel⟩
  cases fuel with
  | zero => cases hfuel
  | succ fuel =>
    simp only [stackLoop, h] at hfuel
    cases hfuel

theorem readLocation_length (h : readLocation line fp = .line m' fp') :
    fp'.rest.length ≤ fp.rest.length := by
  have hskip := skip_length (p := fun c => decide (c = ' ')) fp
  simp only [readLocation] at h
  split at h
  · next hrest =>
    obtain ⟨-, rfl⟩ := Outcome.line.inj h
    exact hskip
  · next c r hrest =>
    rw [hrest, List.length_cons] at hskip
    split_ifs at h
    · obtain ⟨-, rfl⟩ := Outcome.line.inj h
      dsimp only
      omega
    · split at h
      · next w fp'' hscan =>
        obtain ⟨-, rfl⟩ := Outcome.line.inj h
        have hless := scan_length hscan
        dsimp only at hless
        omega
      · cases h
      · cases h

/-- A line that is read has a digit. -/
theorem readMapline_length (h : readMapline fp = .line line fp') :
    fp'.rest.length < fp.rest.length := by
  simp only [readMapline] at h
  split_ifs at h
  split at h
  · next hscan =>
    have hlocation := readLocation_length h
    -- the first directive reads a number
    simp only [fscanf, maplineFormat] at hscan
    rw [scan] at hscan
    split at hscan
    · cases hscan
    · cases hscan
    · next vs i hread =>
      split at hscan
      · cases hscan
      · next ws j hrest =>
        obtain ⟨-, rfl⟩ := Prod.mk.inj (Except.ok.inj hscan)
        have hless := scan_length hrest
        have hnumber : i.rest.length < fp.rest.length := read_number_length hread
        omega
  · cases h
  · cases h

/-- The search ends on every input. -/
theorem stackLoop_ends (addr : ℕ) (fp : Input) : ∃ fuel a, stackLoop addr fuel fp = some a := by
  induction hk : fp.rest.length using Nat.strong_induction_on generalizing fp with
  | _ k ih =>
    cases hread : readMapline fp with
    | done => exact ⟨1, .ok (0, 0), by simp only [stackLoop, hread]⟩
    | fatal n => exact ⟨1, .error n, by simp only [stackLoop, hread]⟩
    | line m fp' =>
      by_cases hin : m.rangeBegin < addr ∧ addr < m.rangeEnd
      · exact ⟨1, .ok (m.rangeBegin, m.rangeEnd), by simp only [stackLoop, hread, if_pos hin]⟩
      · obtain ⟨fuel, a, hfuel⟩ := ih _ (hk ▸ readMapline_length hread) fp' rfl
        exact ⟨fuel + 1, a, by simp only [stackLoop, hread, if_neg hin, hfuel]⟩

/-- Every line in front of the one that is looked for is in step, and that one does not need a
word behind the end of the listing. -/
def AllInStep (before : List Line) (l : Line) (after : List Line) : Prop :=
  (∀ m ∈ before, InStep m.name) ∧ (after = [] → ¬ Wordless l.name)

theorem AllInStep.tail (h : AllInStep (m :: before) l after) : AllInStep before l after :=
  ⟨fun x hx => h.1 x (by simp [hx]), h.2⟩

theorem WellFormed.tail (h : WellFormed (l :: ls)) : WellFormed ls :=
  ⟨fun m hm => h.lines m (by simp [hm]), h.increasing.of_cons⟩

/-- The address is not in a line in front of its own. -/
theorem WellFormed.outside (h : WellFormed (m :: (before ++ l :: after)))
    (inside : l.low < addr ∧ addr < l.high) : ¬ (m.low < addr ∧ addr < m.high) := by
  have hbelow := (List.pairwise_cons.mp h.increasing).1 l (by simp)
  omega

/-- The search goes along the lines as long as they are in step. -/
theorem finds_text (h : WellFormed (before ++ l :: after)) (inside : l.low < addr ∧ addr < l.high)
    (blank : ∀ x ∈ ws, isspace x = true) :
    (AllInStep before l after →
      Finds addr ⟨ws ++ text (before ++ l :: after), false⟩ (l.low, l.high)) ∧
    ((∀ m ∈ before, ¬ LooksLikeRange (surplus m.name)) →
      Finds addr ⟨ws ++ text (before ++ l :: after), false⟩ (l.low, l.high) →
      AllInStep before l after) := by
  induction before generalizing ws with
  | nil =>
    have hwell := h.lines l (by simp)
    have hafter : ∀ m ∈ after, m.WellFormed := fun m hm => h.lines m (by simp [hm])
    have hstart := text_start hafter
    rw [List.nil_append, text_cons]
    rcases readMapline_target hwell blank hstart with ⟨hword, w, fp, hread⟩ | ⟨hend, hwordless, hread⟩
    · refine ⟨fun _ => finds_of_line hread inside, fun _ _ => ⟨by simp, ?_⟩⟩
      rintro rfl hwordless
      exact hword ⟨rfl, hwordless⟩
    · have hlast : after = [] := by
        cases after with
        | nil => rfl
        | cons m after => exact absurd hend (text_ne_nil m after)
      refine ⟨fun hstep => absurd hwordless (hstep.2 hlast), fun _ hfinds => ?_⟩
      exact absurd hfinds (not_finds_of_fatal hread)
  | cons m before ih =>
    have hwell := h.lines m (by simp)
    have houtside := h.outside inside
    rw [List.cons_append, text_cons]
    by_cases hstep : InStep m.name
    · have hstart := text_start h.tail.lines
      have hne : text (before ++ l :: after) ≠ [] := by
        cases before with
        | nil => exact text_ne_nil l after
        | cons k before => exact text_ne_nil k _
      obtain ⟨w, us, hus, hread⟩ := readMapline_inStep hwell blank hstep hne hstart
      have hfinds : Finds addr _ (l.low, l.high) ↔ Finds addr _ (l.low, l.high) :=
        finds_line hread houtside
      obtain ⟨hforth, hback⟩ := ih h.tail hus
      refine ⟨fun hall => hfinds.mpr (hforth hall.tail), fun unlike hfound => ?_⟩
      obtain ⟨hbefore, hlast⟩ := hback (fun k hk => unlike k (by simp [hk])) (hfinds.mp hfound)
      refine ⟨fun k hk => ?_, hlast⟩
      rcases List.mem_cons.mp hk with rfl | hk
      · exact hstep
      · exact hbefore k hk
    · refine ⟨fun hall => absurd (hall.1 m (by simp)) hstep, fun unlike hfound => ?_⟩
      -- the next line is not read as one
      obtain ⟨k, ks, hk⟩ : ∃ k ks, before ++ l :: after = k :: ks :=
        List.exists_cons_of_ne_nil (by simp)
      have hnext : k.WellFormed := h.tail.lines k (by simp [hk])
      rw [hk, text_cons] at hfound
      obtain ⟨w, fp, n, hread, hfatal⟩ :=
        readMapline_outOfStep hwell blank hnext _ hstep (unlike m (by simp))
      exact absurd ((finds_line hread houtside).mp hfound) (not_finds_of_fatal hfatal)

/-- The range of the line is found if every name in front of it is in step, and not otherwise,
unless what is left of a name passes for the beginning of a line. -/
theorem proc_stack_from_addr_finds (before after : List Line) (l : Line) (addr : ℕ)
    (h : WellFormed (before ++ l :: after)) (inside : l.low < addr ∧ addr < l.high) :
    (AllInStep before l after → ∃ fuel, threadscanProcStackFromAddr
      (text (before ++ l :: after)) addr fuel = some (.ok (l.low, l.high))) ∧
    ((∀ m ∈ before, ¬ LooksLikeRange (surplus m.name)) →
      (∃ fuel, threadscanProcStackFromAddr (text (before ++ l :: after)) addr fuel =
        some (.ok (l.low, l.high))) → AllInStep before l after) := by
  have hnone : ∀ x ∈ ([] : List Char), isspace x = true := by simp
  exact finds_text h inside hnone

/-- A mapped file at 0x1000. -/
def fileLine (name : List Char) : Line where
  rangeBegin := ['1', '0', '0', '0']
  rangeEnd := ['2', '0', '0', '0']
  perms := ⟨true, false, true, false⟩
  offset := ['0']
  major := ['0', '8']
  minor := ['0', '1']
  inode := ['7']
  spaces := 1
  name := name

/-- A stack at 0x3000. -/
def stackLine : Line where
  rangeBegin := ['3', '0', '0', '0']
  rangeEnd := ['4', '0', '0', '0']
  perms := ⟨true, true, false, false⟩
  offset := ['0']
  major := ['0']
  minor := ['0']
  inode := ['0']
  spaces := 0
  name := []

theorem stackLine_wellFormed : stackLine.WellFormed where
  rangeBegin := ⟨⟨by decide, by simp [stackLine, isdigit, digitValue]⟩, by decide⟩
  rangeEnd := ⟨⟨by decide, by simp [stackLine, isdigit, digitValue]⟩, by decide⟩
  offset := ⟨by decide, by simp [stackLine, isdigit, digitValue]⟩
  major := ⟨by decide, by simp [stackLine, isdigit, digitValue]⟩
  minor := ⟨by decide, by simp [stackLine, isdigit, digitValue]⟩
  inode := ⟨by decide, by simp [stackLine, isdigit, digitValue]⟩
  range := by decide
  spaces h := absurd rfl h
  name := by decide

theorem fileLine_wellFormed {name : List Char}
    (h : ' ' ∉ name.head? ∧ '\n' ∉ name ∧ name.length ≤ 254) : (fileLine name).WellFormed where
  rangeBegin := ⟨⟨by simp [fileLine], by simp [fileLine, isdigit, digitValue]⟩, by simp [fileLine]⟩
  rangeEnd := ⟨⟨by simp [fileLine], by simp [fileLine, isdigit, digitValue]⟩, by simp [fileLine]⟩
  offset := ⟨by simp [fileLine], by simp [fileLine, isdigit, digitValue]⟩
  major := ⟨by simp [fileLine], by simp [fileLine, isdigit, digitValue]⟩
  minor := ⟨by simp [fileLine], by simp [fileLine, isdigit, digitValue]⟩
  inode := ⟨by simp [fileLine], by simp [fileLine, isdigit, digitValue]⟩
  range := by simp only [Line.low, Line.high, fileLine]; decide
  spaces _ := one_pos
  name := h

/-- A file and a stack. -/
theorem pair_wellFormed {name : List Char}
    (h : ' ' ∉ name.head? ∧ '\n' ∉ name ∧ name.length ≤ 254) :
    WellFormed ([fileLine name] ++ stackLine :: []) := by
  constructor
  · intro l hl
    rcases List.mem_cons.mp hl with rfl | hl
    · exact fileLine_wellFormed h
    · rw [List.mem_singleton.mp hl]
      exact stackLine_wellFormed
  · have hbelow : (fileLine name).high ≤ stackLine.low := by
      simp only [Line.low, Line.high, fileLine, stackLine]
      decide
    exact List.pairwise_pair.mpr hbelow

theorem stackLine_inside : stackLine.low < 14336 ∧ 14336 < stackLine.high := by decide

/-- The file's name has no blank. -/
theorem proc_stack_from_addr_finds_second : ∃ fuel, threadscanProcStackFromAddr
    (text [fileLine ['/', 'a'], stackLine]) 14336 fuel = some (.ok (12288, 16384)) := by
  have hwell : WellFormed ([fileLine ['/', 'a']] ++ stackLine :: []) := pair_wellFormed (by decide)
  have hstep : AllInStep [fileLine ['/', 'a']] stackLine [] := by
    refine ⟨fun m hm => ?_, fun _ hw => hw⟩
    rw [List.mem_singleton.mp hm]
    exact ⟨fun hw => by simpa [isspace] using hw.2 'a' (by simp), by decide⟩
  exact (proc_stack_from_addr_finds _ _ _ _ hwell stackLine_inside).1 hstep

/-- In front of the stack there is a file whose name has a blank. -/
theorem proc_stack_from_addr_fails : ¬ ∀ (before after : List Line) (l : Line) (addr : ℕ),
    WellFormed (before ++ l :: after) → l.low < addr ∧ addr < l.high →
      ∃ fuel, threadscanProcStackFromAddr (text (before ++ l :: after)) addr fuel =
        some (.ok (l.low, l.high)) := by
  intro h
  have hwell : WellFormed ([fileLine ['/', 'a', ' ', 'b']] ++ stackLine :: []) :=
    pair_wellFormed (by decide)
  have hnone : ∀ x ∈ ([] : List Char), isspace x = true := by simp
  have hunlike : ∀ m ∈ [fileLine ['/', 'a', ' ', 'b']], ¬ LooksLikeRange (surplus m.name) := by
    intro m hm
    rw [List.mem_singleton.mp hm]
    rintro ⟨r, hr⟩
    cases hr
  have hfinds := h _ _ _ _ hwell stackLine_inside
  obtain ⟨hstep, -⟩ := (finds_text hwell stackLine_inside hnone).2 hunlike hfinds
  have hsurplus := (hstep _ (List.mem_singleton.mpr rfl)).2
  cases hsurplus

end ThreadScan.Procmap
