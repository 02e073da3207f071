import Mathlib

/-! Formatted input as `fscanf` reads it, with one character of lookahead. A character is a byte
of the stream. -/
namespace ThreadScan.Scanf

/-- What is left of a stream, and whether a read has run into its end. -/
structure Input where
  rest : List Char
  eof : Bool

/-- What a conversion reads. -/
inductive Value
  | number (v : ℤ)
  | word (w : List Char)
  deriving DecidableEq

inductive Directive
  | space
  | literal (c : Char)
  | number (base : ℕ)
  | word

inductive Failure
  | input
  | matching

def isspace (c : Char) : Bool := c = ' ' || ('\t' ≤ c && c ≤ '\r')

def digitValue (c : Char) : ℕ :=
  if '0' ≤ c ∧ c ≤ '9' then c.toNat - 48
  else if 'a' ≤ c ∧ c ≤ 'f' then c.toNat - 87
  else if 'A' ≤ c ∧ c ≤ 'F' then c.toNat - 55
  else 16

def isdigit (base : ℕ) (c : Char) : Bool := digitValue c < base

def ofDigits (base : ℕ) (l : List Char) : ℕ := l.foldl (fun n c => base * n + digitValue c) 0

/-- Reads on while the characters pass the test. -/
def Input.skip (p : Char → Bool) (i : Input) : Input :=
  ⟨i.rest.dropWhile p, i.eof || (i.rest.dropWhile p).isEmpty⟩

/-- The characters behind a sign, and whether that is a minus. -/
def readSign : List Char → Bool × List Char
  | '-' :: l => (true, l)
  | '+' :: l => (false, l)
  | l => (false, l)

/-- The characters behind the prefix of a hexadecimal number. -/
def readPrefix (base : ℕ) : List Char → List Char
  | '0' :: 'x' :: l => if base = 16 then l else '0' :: 'x' :: l
  | '0' :: 'X' :: l => if base = 16 then l else '0' :: 'X' :: l
  | l => l

/-- The number in front of a text, and what is behind it. -/
def readNumber (base : ℕ) (l : List Char) : Option (ℤ × List Char) :=
  let sign := readSign l
  let l := readPrefix base sign.2
  let digits := l.takeWhile (isdigit base)
  if digits = [] then none
  else some (if sign.1 then -(ofDigits base digits : ℤ) else ofDigits base digits,
    l.dropWhile (isdigit base))

def Directive.read : Directive → Input → Except Failure (List Value × Input)
  | space, i => .ok ([], i.skip isspace)
  | literal c, i =>
    match i.rest with
    | [] => .error .input
    | x :: r => if x = c then .ok ([], { i with rest := r }) else .error .matching
  | number base, i =>
    let i := i.skip isspace
    if i.rest = [] then .error .input
    else
      match readNumber base i.rest with
      | none => .error .matching
      | some (v, r) => .ok ([.number v], ⟨r, i.eof || r.isEmpty⟩)
  | word, i =>
    let i := i.skip isspace
    if i.rest = [] then .error .input
    else .ok ([.word (i.rest.takeWhile fun c => !isspace c)], i.skip fun c => !isspace c)

/-- The directives in turn, after `n` conversions. -/
def scan : List Directive → ℕ → Input → Except ℤ (List Value × Input)
  | [], _, i => .ok ([], i)
  | d :: ds, n, i =>
    match d.read i with
    | .error .input => .error (if n = 0 then -1 else n)
    | .error .matching => .error n
    | .ok (vs, i) =>
      match scan ds (n + vs.length) i with
      | .error m => .error m
      | .ok (ws, i) => .ok (vs ++ ws, i)

/-- `fscanf`: the values and the rest of the stream, or the number that is returned where a
directive fails. -/
def fscanf (format : List Directive) (i : Input) : Except ℤ (List Value × Input) := scan format 0 i

/-- What is stored for an `unsigned long long`. -/
def unsignedLongLong (v : ℤ) : ℕ := if 2 ^ 64 ≤ |v| then 2 ^ 64 - 1 else (v % 2 ^ 64).toNat

/-- What is stored for an `unsigned int`. -/
def unsignedInt (v : ℤ) : ℕ := unsignedLongLong v % 2 ^ 32

/-- What is stored for an `int`. -/
def int (v : ℤ) : ℤ := (max (-2 ^ 63) (min (2 ^ 63 - 1) v)).bmod (2 ^ 32)

variable {base n : ℕ} {c a b : Char} {l r d w ws t : List Char} {e : Bool} {p : Char → Bool}
  {i i' : Input} {ds : List Directive} {vs : List Value} {v : ℤ}

/-! ### Reading what is there -/

theorem Input.skip_append (hl : ∀ x ∈ l, p x = true) (hc : p c = false) :
    (⟨l ++ c :: r, e⟩ : Input).skip p = ⟨c :: r, e⟩ := by
  simp [Input.skip, List.dropWhile_append_of_pos hl, hc]

theorem isdigit_lt (h : isdigit base a = true) : digitValue a < base := by
  simpa [isdigit] using h

/-- A digit is neither a sign nor the second character of a prefix. -/
theorem ne_of_isdigit (hbase : base ≤ 16) (h : isdigit base a = true) (hb : digitValue b = 16) :
    a ≠ b := by
  rintro rfl
  have hlt := isdigit_lt h
  omega

/-- White space is no digit. -/
theorem digitValue_of_isspace (h : isspace a = true) : digitValue a = 16 := by
  simp only [isspace, Bool.or_eq_true, decide_eq_true_iff, Bool.and_eq_true] at h
  rcases h with rfl | ⟨-, hhigh⟩
  · rfl
  · have hle : a.toNat ≤ 13 := hhigh
    have h0 : ¬ '0' ≤ a := fun hge => by
      have hge : 48 ≤ a.toNat := hge
      omega
    have ha : ¬ 'a' ≤ a := fun hge => by
      have hge : 97 ≤ a.toNat := hge
      omega
    have hA : ¬ 'A' ≤ a := fun hge => by
      have hge : 65 ≤ a.toNat := hge
      omega
    simp [digitValue, h0, ha, hA]

theorem isspace_of_isdigit (hbase : base ≤ 16) (h : isdigit base a = true) : isspace a = false := by
  have hlt := isdigit_lt h
  by_contra hspace
  have hvalue := digitValue_of_isspace (Bool.eq_true_of_not_eq_false hspace)
  omega

theorem readSign_of_ne (hminus : a ≠ '-') (hplus : a ≠ '+') : readSign (a :: l) = (false, a :: l) := by
  unfold readSign
  split <;> simp_all

theorem readPrefix_of_ne (hx : b ≠ 'x') (hX : b ≠ 'X') :
    readPrefix base (a :: b :: l) = a :: b :: l := by
  unfold readPrefix
  split <;> simp_all

/-- The digits up to the first other character. -/
theorem readNumber_digits (hbase : base ≤ 16) (hd : d ≠ []) (digits : ∀ x ∈ d, isdigit base x = true)
    (hc : isdigit base c = false) (hx : c ≠ 'x') (hX : c ≠ 'X') :
    readNumber base (d ++ c :: r) = some ((ofDigits base d : ℤ), c :: r) := by
  have hne : ∀ x ∈ d, ∀ y, digitValue y = 16 → x ≠ y :=
    fun x hx y hy => ne_of_isdigit hbase (digits x hx) hy
  have hsign : readSign (d ++ c :: r) = (false, d ++ c :: r) := by
    cases d with
    | nil => exact absurd rfl hd
    | cons a d =>
      exact readSign_of_ne (hne a (by simp) _ rfl) (hne a (by simp) _ rfl)
  have hprefix : readPrefix base (d ++ c :: r) = d ++ c :: r := by
    cases d with
    | nil => exact absurd rfl hd
    | cons a d =>
      cases d with
      | nil => exact readPrefix_of_ne hx hX
      | cons b d =>
        exact readPrefix_of_ne (hne b (by simp) _ rfl) (hne b (by simp) _ rfl)
  have htake : (d ++ c :: r).takeWhile (isdigit base) = d := by
    simp [List.takeWhile_append_of_pos digits, hc]
  have hdrop : (d ++ c :: r).dropWhile (isdigit base) = c :: r := by
    simp [List.dropWhile_append_of_pos digits, hc]
  simp only [readNumber, hsign, hprefix, htake, hdrop, if_neg hd, Bool.false_eq_true, if_false]

theorem read_number (hbase : base ≤ 16) (blank : ∀ x ∈ ws, isspace x = true) (hd : d ≠ [])
    (digits : ∀ x ∈ d, isdigit base x = true) (hc : isdigit base c = false) (hx : c ≠ 'x')
    (hX : c ≠ 'X') : (Directive.number base).read ⟨ws ++ (d ++ c :: r), e⟩ =
      .ok ([.number (ofDigits base d)], ⟨c :: r, e⟩) := by
  have hskip : (⟨ws ++ (d ++ c :: r), e⟩ : Input).skip isspace = ⟨d ++ c :: r, e⟩ := by
    cases d with
    | nil => exact absurd rfl hd
    | cons a d => exact Input.skip_append blank (isspace_of_isdigit hbase (digits a (by simp)))
  simp only [Directive.read, hskip, List.append_eq_nil_iff, reduceCtorEq, and_false, if_false,
    readNumber_digits hbase hd digits hc hx hX, List.isEmpty_cons, Bool.or_false]

theorem read_word (blank : ∀ x ∈ ws, isspace x = true) (hw : w ≠ [])
    (letters : ∀ x ∈ w, isspace x = false) (hc : isspace c = true) :
    Directive.word.read ⟨ws ++ (w ++ c :: r), e⟩ = .ok ([.word w], ⟨c :: r, e⟩) := by
  have hskip : (⟨ws ++ (w ++ c :: r), e⟩ : Input).skip isspace = ⟨w ++ c :: r, e⟩ := by
    cases w with
    | nil => exact absurd rfl hw
    | cons a w => exact Input.skip_append blank (letters a (by simp))
  have hletters : ∀ x ∈ w, (!isspace x) = true := by simpa using letters
  have hend : (!isspace c) = false := by simp [hc]
  have hrest : (⟨w ++ c :: r, e⟩ : Input).skip (fun x => !isspace x) = ⟨c :: r, e⟩ :=
    Input.skip_append hletters hend
  have htake : (w ++ c :: r).takeWhile (fun x => !isspace x) = w := by
    simp [List.takeWhile_append_of_pos hletters, hc]
  simp only [Directive.read, hskip, List.append_eq_nil_iff, reduceCtorEq, and_false, if_false,
    htake, hrest]

theorem read_space (blank : ∀ x ∈ ws, isspace x = true) (hw : w ≠ [])
    (letters : ∀ x ∈ w, isspace x = false) :
    Directive.space.read ⟨ws ++ (w ++ r), e⟩ = .ok ([], ⟨w ++ r, e⟩) := by
  cases w with
  | nil => exact absurd rfl hw
  | cons a w =>
    have hskip : (⟨ws ++ a :: (w ++ r), e⟩ : Input).skip isspace = ⟨a :: (w ++ r), e⟩ :=
      Input.skip_append blank (letters a (by simp))
    simp only [Directive.read, List.cons_append, hskip]

/-- The same without white space in front. -/
theorem read_digits (hbase : base ≤ 16) (hd : d ≠ []) (digits : ∀ x ∈ d, isdigit base x = true)
    (hc : isdigit base c = false) (hx : c ≠ 'x') (hX : c ≠ 'X') :
    (Directive.number base).read ⟨d ++ c :: r, e⟩ =
      .ok ([.number (ofDigits base d)], ⟨c :: r, e⟩) := by
  have hnone : ∀ x ∈ ([] : List Char), isspace x = true := by simp
  exact read_number hbase hnone hd digits hc hx hX

theorem read_letters (hw : w ≠ []) (letters : ∀ x ∈ w, isspace x = false) (hc : isspace c = true) :
    Directive.word.read ⟨w ++ c :: r, e⟩ = .ok ([.word w], ⟨c :: r, e⟩) := by
  have hnone : ∀ x ∈ ([] : List Char), isspace x = true := by simp
  exact read_word hnone hw letters hc

theorem read_blank (hw : w ≠ []) (letters : ∀ x ∈ w, isspace x = false) :
    Directive.space.read ⟨' ' :: (w ++ r), e⟩ = .ok ([], ⟨w ++ r, e⟩) := by
  have hblank : ∀ x ∈ [' '], isspace x = true := by simp [isspace]
  exact read_space hblank hw letters

theorem read_literal : (Directive.literal c).read ⟨c :: r, e⟩ = .ok ([], ⟨r, e⟩) := by
  simp [Directive.read]

/-- All directives succeed, however many conversions came before. -/
def Reads (ds : List Directive) (i : Input) (vs : List Value) (i' : Input) : Prop :=
  ∀ n, scan ds n i = .ok (vs, i')

theorem Reads.nil (i : Input) : Reads [] i [] i := fun _ => rfl

theorem Reads.cons {dir : Directive} {j : Input} {us : List Value} (head : dir.read i = .ok (vs, j))
    (tail : Reads ds j us i') : Reads (dir :: ds) i (vs ++ us) i' := by
  intro n
  simp only [scan, head, tail (n + vs.length)]

theorem Reads.fscanf (h : Reads ds i vs i') : fscanf ds i = .ok (vs, i') := h 0

theorem ofDigits_lt (digits : ∀ x ∈ d, isdigit base x = true) :
    ofDigits base d < base ^ d.length := by
  induction d using List.reverseRecOn with
  | nil => simp [ofDigits]
  | append_singleton d a ih =>
    have hrest := ih fun x hx => digits x (by simp [hx])
    have hlast := isdigit_lt (digits a (by simp))
    have hstep : ofDigits base (d ++ [a]) = base * ofDigits base d + digitValue a := by
      simp [ofDigits]
    rw [hstep, List.length_append, List.length_singleton, pow_succ]
    calc base * ofDigits base d + digitValue a
        < base * ofDigits base d + base := by omega
      _ = base * (ofDigits base d + 1) := by ring
      _ ≤ base * base ^ d.length := Nat.mul_le_mul_left base hrest
      _ = base ^ d.length * base := Nat.mul_comm _ _

theorem unsignedLongLong_of_lt {k : ℕ} (h : k < 2 ^ 64) : unsignedLongLong k = k := by
  rw [unsignedLongLong, if_neg]
  · rw [Int.emod_eq_of_lt (by omega) (by exact_mod_cast h), Int.toNat_natCast]
  · rw [abs_of_nonneg (by omega)]
    exact_mod_cast Nat.not_le.mpr h

/-- The text behind the next word and the white space around it. -/
def skipWord (t : List Char) : List Char :=
  ((t.dropWhile isspace).dropWhile fun x => !isspace x).dropWhile isspace

/-- A word and what follows it, up to the next one. -/
theorem scan_word (h : t.dropWhile isspace ≠ []) :
    ∃ w e', fscanf [.word, .space] ⟨t, e⟩ = .ok ([.word w], ⟨skipWord t, e'⟩) ∧
      (skipWord t ≠ [] → e' = e) := by
  have hread : Directive.word.read ⟨t, e⟩ =
      .ok ([.word ((t.dropWhile isspace).takeWhile fun x => !isspace x)],
        ((⟨t, e⟩ : Input).skip isspace).skip fun x => !isspace x) := by
    simp [Directive.read, Input.skip, h]
  have hspace : ∀ i : Input, Directive.space.read i = .ok ([], i.skip isspace) := fun _ => rfl
  refine ⟨_, _, Reads.fscanf (.cons hread (.cons (hspace _) (.nil _))), fun hne => ?_⟩
  have hword : (t.dropWhile isspace).dropWhile (fun x => !isspace x) ≠ [] := by
    intro hnil
    rw [skipWord, hnil] at hne
    exact hne rfl
  simp only [skipWord] at hne
  simp only [Input.skip, List.isEmpty_eq_false_iff.mpr h, List.isEmpty_eq_false_iff.mpr hword,
    List.isEmpty_eq_false_iff.mpr hne, Bool.or_false]

/-- There is no word. -/
theorem scan_word_blank (h : t.dropWhile isspace = []) :
    fscanf [.word, .space] ⟨t, e⟩ = .error (-1) := by
  simp [fscanf, scan, Directive.read, Input.skip, h]

/-! ### White space behind a text -/

theorem dropWhile_append_stop (hc : p c = false) :
    (t ++ c :: r).dropWhile p = t.dropWhile p ++ c :: r := by
  rw [List.dropWhile_append]
  split_ifs with hall
  · simp [List.isEmpty_iff.mp hall, hc]
  · rfl

theorem takeWhile_append_stop (hc : p c = false) : (t ++ c :: r).takeWhile p = t.takeWhile p := by
  induction t with
  | nil => simp [hc]
  | cons a t ih =>
    rw [List.cons_append, List.takeWhile_cons, List.takeWhile_cons, ih]

theorem readSign_append (hc : isspace c = true) :
    readSign (t ++ c :: r) = ((readSign t).1, (readSign t).2 ++ c :: r) := by
  cases t with
  | nil =>
    have hminus : c ≠ '-' := by rintro rfl; simp [isspace] at hc
    have hplus : c ≠ '+' := by rintro rfl; simp [isspace] at hc
    exact readSign_of_ne hminus hplus
  | cons a t =>
    by_cases hminus : a = '-'
    · subst hminus
      rfl
    by_cases hplus : a = '+'
    · subst hplus
      rfl
    · rw [List.cons_append, readSign_of_ne hminus hplus, readSign_of_ne hminus hplus]
      rfl

theorem readPrefix_append (hc : isspace c = true) :
    readPrefix base (t ++ c :: r) = readPrefix base t ++ c :: r := by
  have hx : c ≠ 'x' := by rintro rfl; simp [isspace] at hc
  have hX : c ≠ 'X' := by rintro rfl; simp [isspace] at hc
  have hzero : c ≠ '0' := by rintro rfl; simp [isspace] at hc
  cases t with
  | nil => unfold readPrefix; split <;> simp_all
  | cons a t =>
    cases t with
    | nil =>
      have hone : readPrefix base [a] = [a] := by
        unfold readPrefix
        split <;> simp_all
      rw [List.singleton_append, readPrefix_of_ne hx hX, hone]
      rfl
    | cons b t =>
      unfold readPrefix
      split <;> split <;> simp_all

/-- A number ends at white space. -/
theorem readNumber_append (hbase : base ≤ 16) (hc : isspace c = true) :
    readNumber base (t ++ c :: r) = (readNumber base t).map fun q => (q.1, q.2 ++ c :: r) := by
  have hdigit : isdigit base c = false := by
    simp [isdigit, digitValue_of_isspace hc, hbase]
  simp only [readNumber, readSign_append hc, readPrefix_append hc, takeWhile_append_stop hdigit,
    dropWhile_append_stop hdigit]
  split_ifs <;> rfl

/-- Behind the only word of a text the next one begins. -/
theorem skipWord_append (hc : isspace c = true) (h : t.dropWhile isspace ≠ []) :
    skipWord (t ++ c :: r) =
      if skipWord t = [] then r.dropWhile isspace else skipWord t ++ c :: r := by
  have hstop : (!isspace c) = false := by simp [hc]
  have hfirst : (t ++ c :: r).dropWhile isspace = t.dropWhile isspace ++ c :: r := by
    rw [List.dropWhile_append, if_neg (by simpa using h)]
  rw [skipWord, hfirst, dropWhile_append_stop hstop, List.dropWhile_append,
    List.dropWhile_cons_of_pos hc]
  simp only [List.isEmpty_iff]
  rfl

theorem skipWord_blank (blank : ∀ x ∈ ws, isspace x = true) : skipWord (ws ++ r) = skipWord r := by
  rw [skipWord, List.dropWhile_append_of_pos blank, skipWord]

/-- A word, a blank and the next word. -/
theorem skipWord_cons (hw : w ≠ []) (letters : ∀ x ∈ w, isspace x = false) (hc : isspace c = true)
    (hd : d ≠ []) (others : ∀ x ∈ d, isspace x = false) :
    skipWord (w ++ c :: (d ++ r)) = d ++ r := by
  cases w with
  | nil => exact absurd rfl hw
  | cons a w =>
    cases d with
    | nil => exact absurd rfl hd
    | cons b d =>
      have ha := letters a (by simp)
      have hb := others b (by simp)
      have hletters : ∀ x ∈ a :: w, (!isspace x) = true := by
        intro x hx
        simp [letters x hx]
      have hfirst : (a :: w ++ c :: (b :: d ++ r)).dropWhile isspace = a :: w ++ c :: (b :: d ++ r) :=
        List.dropWhile_cons_of_neg (by simp [ha])
      rw [skipWord, hfirst, List.dropWhile_append_of_pos hletters,
        List.dropWhile_cons_of_neg (by simp [hc]), List.dropWhile_cons_of_pos hc]
      exact List.dropWhile_cons_of_neg (by simp [hb])

/-! ### Every read moves on -/

theorem skip_length (i : Input) : (i.skip p).rest.length ≤ i.rest.length :=
  (List.dropWhile_sublist p).length_le

theorem readSign_length (l : List Char) : (readSign l).2.length ≤ l.length := by
  unfold readSign
  split <;> simp

theorem readPrefix_length (l : List Char) : (readPrefix base l).length ≤ l.length := by
  unfold readPrefix
  split
  · split_ifs
    · simp only [List.length_cons]
      omega
    · exact le_rfl
  · split_ifs
    · simp only [List.length_cons]
      omega
    · exact le_rfl
  · exact le_rfl

/-- A number has a digit. -/
theorem readNumber_length {q : ℤ × List Char} (h : readNumber base l = some q) :
    q.2.length < l.length := by
  have hsign := readSign_length l
  have hprefix : (readPrefix base (readSign l).2).length ≤ (readSign l).2.length :=
    readPrefix_length _
  have hnone : (readPrefix base (readSign l).2).takeWhile (isdigit base) ≠ [] := by
    intro hnil
    simp [readNumber, hnil] at h
  simp only [readNumber, if_neg hnone] at h
  obtain rfl := Option.some.inj h
  have hsplit := congrArg List.length
    (List.takeWhile_append_dropWhile (p := isdigit base) (l := readPrefix base (readSign l).2))
  have hpos := List.length_pos_of_ne_nil hnone
  rw [List.length_append] at hsplit
  dsimp only
  omega

theorem read_number_length (h : (Directive.number base).read i = .ok (vs, i')) :
    i'.rest.length < i.rest.length := by
  have hskip := skip_length (p := isspace) i
  simp only [Directive.read] at h
  split_ifs at h
  split at h
  · cases h
  · next v r hnumber =>
    obtain ⟨-, rfl⟩ := Prod.mk.inj (Except.ok.inj h)
    have hless := readNumber_length hnumber
    dsimp only at hless ⊢
    omega

theorem read_length {dir : Directive} (h : dir.read i = .ok (vs, i')) :
    i'.rest.length ≤ i.rest.length := by
  cases dir with
  | space =>
    obtain ⟨-, rfl⟩ := Prod.mk.inj (Except.ok.inj h)
    exact skip_length i
  | literal c =>
    simp only [Directive.read] at h
    split at h
    · cases h
    · next x r hrest =>
      split_ifs at h
      obtain ⟨-, rfl⟩ := Prod.mk.inj (Except.ok.inj h)
      simp [hrest]
  | number base => exact (read_number_length h).le
  | word =>
    have hskip := skip_length (p := isspace) i
    have hmore := skip_length (p := fun c => !isspace c) (i.skip isspace)
    simp only [Directive.read] at h
    split_ifs at h
    obtain ⟨-, rfl⟩ := Prod.mk.inj (Except.ok.inj h)
    exact hmore.trans hskip

theorem scan_length (h : scan ds n i = .ok (vs, i')) : i'.rest.length ≤ i.rest.length := by
  induction ds generalizing n i vs with
  | nil =>
    obtain ⟨-, rfl⟩ := Prod.mk.inj (Except.ok.inj h)
    exact le_rfl
  | cons dir ds ih =>
    simp only [scan] at h
    split at h
    · cases h
    · cases h
    · next us j hread =>
      split at h
      · cases h
      · next ws k hrest =>
        obtain ⟨-, rfl⟩ := Prod.mk.inj (Except.ok.inj h)
        exact (ih hrest).trans (read_length hread)

end ThreadScan.Scanf
