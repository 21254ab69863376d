import Ippcode.Proofs.Numeral.Grammar

/-!
# How integers are written

An integer is written in a constant with a sign, the mark of a radix and digits (`IsLiteral`), and
on a line of input with a sign and decimal digits, which single underscores may group (`IsLine`).
Both readers are exact (`IsExact`) : they read what is written if it has 64 bits, and nothing else,
whatever the number of digits (`readers_exact`).

A constant may be written without a mark and a line without underscores. Texts that are both are
read alike.
-/

namespace Ippcode.Numeral

variable {cs cs' sign body digits : List Char} {negative : Bool} {radix n : Nat}

/-! ## Exact readers -/

/-- A reader reads the texts that write an integer of 64 bits, and as this integer. -/
structure IsExact (read : List Char → Option Int64) (Writes : List Char → ℤ → Prop) : Prop where
  unique : ∀ cs m n, Writes cs m → Writes cs n → m = n
  eq_some_iff : ∀ cs w, read cs = some w ↔ Writes cs w.toInt
  /-- Nothing in the range is refused. -/
  exists_of_writes : ∀ cs n, Writes cs n → -2 ^ 63 ≤ n → n < 2 ^ 63 →
    ∃ w, read cs = some w ∧ w.toInt = n
  /-- Nothing out of the range is wrapped or cut off. -/
  eq_none_iff : ∀ cs, read cs = none ↔ ∀ n, Writes cs n → n < -2 ^ 63 ∨ 2 ^ 63 ≤ n

/-- A number is narrowed exactly if it has 64 bits. -/
theorem narrow?_eq_some_iff {n : ℤ} {w : Int64} : narrow? n = some w ↔ w.toInt = n :=
  ⟨toInt_of_narrow?, fun h => h ▸ narrow?_toInt w⟩

/-- The numbers of 64 bits lie in one range. -/
theorem exists_narrow? {n : ℤ} (low : -2 ^ 63 ≤ n) (high : n < 2 ^ 63) :
    ∃ w, narrow? n = some w ∧ w.toInt = n := by
  have range : Int64.minValue.toInt ≤ n ∧ n ≤ Int64.maxValue.toInt :=
    ⟨low, Int.le_sub_one_of_lt high⟩
  have read : narrow? n = some (Int64.ofInt n) := if_pos range
  exact ⟨_, read, toInt_of_narrow? read⟩

namespace IsExact

variable {read read' : List Char → Option Int64} {Writes Writes' : List Char → ℤ → Prop}

/-- A reader that finds the integer first and narrows it then is exact. -/
theorem of_narrow {value : List Char → Option ℤ}
    (value_iff : ∀ cs n, value cs = some n ↔ Writes cs n)
    (reads : ∀ cs, read cs = (value cs).bind narrow?) : IsExact read Writes := by
  have some_iff (cs : List Char) (w : Int64) : read cs = some w ↔ Writes cs w.toInt := by
    rw [reads, Option.bind_eq_some_iff, ← value_iff]
    constructor
    · rintro ⟨n, found, small⟩
      rwa [narrow?_eq_some_iff.mp small]
    · exact fun found => ⟨_, found, narrow?_toInt w⟩
  have exists_some (cs : List Char) (n : ℤ) (written : Writes cs n) (low : -2 ^ 63 ≤ n)
      (high : n < 2 ^ 63) : ∃ w, read cs = some w ∧ w.toInt = n := by
    obtain ⟨w, -, rfl⟩ := exists_narrow? low high
    exact ⟨w, (some_iff cs w).mpr written, rfl⟩
  refine ⟨fun cs m n hm hn => ?_, some_iff, exists_some, fun cs => ⟨fun none n written => ?_, ?_⟩⟩
  · have hm := (value_iff cs m).mpr hm
    rw [(value_iff cs n).mpr hn] at hm
    exact (Option.some.inj hm).symm
  · by_contra inside
    obtain ⟨w, read, -⟩ := exists_some cs n written (by omega) (by omega)
    rw [none] at read
    cases read
  · intro outside
    rw [Option.eq_none_iff_forall_ne_some]
    intro w read
    have low := w.le_toInt
    have high := w.toInt_lt
    rcases outside _ ((some_iff cs w).mp read) with below | above
    · omega
    · omega

/-- Readers agree on texts that write the same. -/
theorem congr (exact : IsExact read Writes) (exact' : IsExact read' Writes')
    (same : ∀ n, Writes cs n ↔ Writes' cs' n) : read cs = read' cs' := by
  refine Option.ext fun w => ?_
  rw [exact.eq_some_iff, exact'.eq_some_iff, same]

/-- Texts that write the same number are read alike. -/
theorem eq_of_writes (exact : IsExact read Writes) {n : ℤ} (written : Writes cs n)
    (written' : Writes cs' n) : read cs = read cs' := by
  refine exact.congr exact fun m => ⟨fun h => ?_, fun h => ?_⟩
  · rwa [exact.unique cs m n h written]
  · rwa [exact.unique cs' m n h written']

end IsExact

/-! ## Constants -/

/-- What stands in front of the digits of a radix. -/
inductive IsRadixMark : List Char → Nat → Prop
  | decimal : IsRadixMark [] 10
  | hexadecimal {c : Char} (letter : c = 'x' ∨ c = 'X') : IsRadixMark ['0', c] 16
  | octal {c : Char} (letter : c = 'o' ∨ c = 'O') : IsRadixMark ['0', c] 8
  | binary {c : Char} (letter : c = 'b' ∨ c = 'B') : IsRadixMark ['0', c] 2

/-- A text writes an integer as a constant : a sign or none, the mark of a radix, and one or more
digits of this radix. -/
inductive IsLiteral : List Char → ℤ → Prop
  | mk {sign mark digits : List Char} {negative : Bool} {radix n : Nat}
      (signed : IsSign sign negative) (marked : IsRadixMark mark radix) (nonempty : digits ≠ [])
      (written : Digits radix digits n) :
      IsLiteral (sign ++ (mark ++ digits)) (if negative then -n else n)

/-- The integer that a constant writes, whether it has 64 bits or not. -/
def literal? (cs : List Char) : Option ℤ :=
  let body := splitRadix (splitSign cs).2
  (natOfDigits? body.1 body.2).map (signed (splitSign cs).1)

/-- An integer of a program is read without bounds and then narrowed. -/
theorem ofLiteral?_eq (cs : List Char) : ofLiteral? cs = (literal? cs).bind narrow? := by
  unfold literal? ofLiteral?
  rw [Option.bind_map]
  exact word?_bind_narrow? _ _ _

theorem IsRadixMark.le (marked : IsRadixMark sign radix) : radix ≤ 16 := by
  cases marked <;> omega

theorem IsRadixMark.pos (marked : IsRadixMark sign radix) : 0 < radix := by
  cases marked <;> omega

/-- Each text has a mark of its radix, which may be empty. -/
theorem exists_radixMark (cs : List Char) :
    ∃ mark, IsRadixMark mark (splitRadix cs).1 ∧ cs = mark ++ (splitRadix cs).2 := by
  unfold splitRadix
  split
  · exact ⟨['0', 'x'], .hexadecimal (.inl rfl), rfl⟩
  · exact ⟨['0', 'X'], .hexadecimal (.inr rfl), rfl⟩
  · exact ⟨['0', 'o'], .octal (.inl rfl), rfl⟩
  · exact ⟨['0', 'O'], .octal (.inr rfl), rfl⟩
  · exact ⟨['0', 'b'], .binary (.inl rfl), rfl⟩
  · exact ⟨['0', 'B'], .binary (.inr rfl), rfl⟩
  · exact ⟨[], .decimal, rfl⟩

theorem allDigits_of_written (nonempty : digits ≠ []) (written : Digits 10 digits n) :
    AllDigits digits :=
  (natOfDigits?_eq_some_iff.mp ((natOfDigits?_iff_digits (by omega)).mpr ⟨nonempty, written⟩)).2.1

/-- A mark is found again in front of digits of its radix. -/
theorem splitRadix_append {mark : List Char} (marked : IsRadixMark mark radix)
    (nonempty : digits ≠ []) (written : Digits radix digits n) :
    splitRadix (mark ++ digits) = (radix, digits) := by
  cases marked with
  | decimal => exact splitRadix_digits (allDigits_of_written nonempty written)
  | hexadecimal letter | octal letter | binary letter => rcases letter with rfl | rfl <;> rfl

/-- Digits have no sign. -/
theorem splitSign_allDigits (nonempty : digits ≠ []) (all : AllDigits digits) :
    splitSign digits = (false, digits) := by
  cases digits with
  | nil => exact absurd rfl nonempty
  | cons c cs => exact splitSign_of_isDigit (all c List.mem_cons_self)

/-- Neither marks nor digits look like a sign. -/
theorem splitSign_marked {mark : List Char} (marked : IsRadixMark mark radix)
    (nonempty : digits ≠ []) (written : Digits radix digits n) :
    splitSign (mark ++ digits) = (false, mark ++ digits) := by
  cases marked with
  | decimal => exact splitSign_allDigits nonempty (allDigits_of_written nonempty written)
  | hexadecimal _ | octal _ | binary _ => exact splitSign_of_isDigit rfl

/-- Without bounds the reader of constants is exact by the grammar. -/
theorem literal?_eq_some_iff (cs : List Char) (n : ℤ) : literal? cs = some n ↔ IsLiteral cs n := by
  constructor
  · intro h
    obtain ⟨k, read, rfl⟩ := Option.map_eq_some_iff.mp h
    obtain ⟨sign, signed, whole⟩ := exists_sign cs
    obtain ⟨mark, marked, body⟩ := exists_radixMark (splitSign cs).2
    obtain ⟨nonempty, written⟩ := (natOfDigits?_iff_digits marked.le).mp read
    have literal := IsLiteral.mk signed marked nonempty written
    rwa [← body, ← whole] at literal
  · rintro ⟨signed, marked, nonempty, written⟩
    have read := (natOfDigits?_iff_digits marked.le).mpr ⟨nonempty, written⟩
    unfold literal?
    simp only [splitSign_append signed (splitSign_marked marked nonempty written),
      splitRadix_append marked nonempty written, read, Option.map_some]
    rfl

/-- The reader of constants is exact by the grammar, within the range. -/
theorem ofLiteral?_isExact : IsExact ofLiteral? IsLiteral :=
  .of_narrow literal?_eq_some_iff ofLiteral?_eq

/-! ## Lines of input -/

/-- One or more decimal digits, with single underscores between some of them : an underscore stands
directly behind a digit and directly in front of one. -/
structure IsGrouped (cs : List Char) : Prop where
  nonempty : cs ≠ []
  char : ∀ c ∈ cs, c.isDigit = true ∨ c = '_'
  between : ∀ as bs, cs = as ++ '_' :: bs →
    (∃ d ∈ as.getLast?, d.isDigit = true) ∧ ∃ d ∈ bs.head?, d.isDigit = true

/-- A text without its underscores. -/
def withoutUnderscores (cs : List Char) : List Char := cs.filter (· != '_')

/-- A line writes an integer : a sign or none, and decimal digits in groups. -/
inductive IsLine : List Char → ℤ → Prop
  | mk {sign body : List Char} {negative : Bool} {n : Nat} (signed : IsSign sign negative)
      (grouped : IsGrouped body) (written : Digits 10 (withoutUnderscores body) n) :
      IsLine (sign ++ body) (if negative then -n else n)

/-- The integer that a line writes, whether it has 64 bits or not. -/
def line? (cs : List Char) : Option ℤ :=
  ((ungrouped? (splitSign cs).2).bind (natOfDigits? 10)).map (signed (splitSign cs).1)

/-- A line is read without bounds too, and then narrowed. -/
theorem ofLine?_eq (cs : List Char) : ofLine? cs = (line? cs).bind narrow? := by
  unfold line? ofLine?
  rw [Option.bind_map, Option.bind_assoc]
  exact congrArg (Option.bind (ungrouped? (splitSign cs).2))
    (funext fun digits => word?_bind_narrow? 10 digits (splitSign cs).1)

/-! ### Groups -/

theorem isDigit_underscore : '_'.isDigit = false := rfl

/-- Digits stay when underscores are left out. -/
theorem withoutUnderscores_cons_of_isDigit {c : Char} (h : c.isDigit = true) :
    withoutUnderscores (c :: cs) = c :: withoutUnderscores cs :=
  List.filter_cons_of_pos (bne_iff_ne.mpr (ne_of_isDigit h isDigit_underscore))

/-- Groups begin with a digit. -/
theorem IsGrouped.isDigit_head {c : Char} (h : IsGrouped (c :: cs)) : c.isDigit = true := by
  rcases h.char c List.mem_cons_self with digit | rfl
  · exact digit
  · obtain ⟨⟨d, none, -⟩, -⟩ := h.between [] cs rfl
    cases none

/-- An underscore in a text with one more digit in front. -/
theorem between_cons {c : Char} (digit : c.isDigit = true) {as bs : List Char}
    (whole : c :: cs = as ++ '_' :: bs) : ∃ rest, as = c :: rest ∧ cs = rest ++ '_' :: bs := by
  cases as with
  | nil =>
    rw [(List.cons.inj whole).1] at digit
    cases digit
  | cons d rest =>
    obtain ⟨rfl, tail⟩ := List.cons.inj whole
    exact ⟨rest, rfl, tail⟩

/-- In front of a group there may be one more digit. -/
theorem IsGrouped.cons {c : Char} (digit : c.isDigit = true) (h : IsGrouped cs) :
    IsGrouped (c :: cs) := by
  refine ⟨List.cons_ne_nil c _, List.forall_mem_cons.mpr ⟨.inl digit, h.char⟩, ?_⟩
  intro as bs whole
  obtain ⟨rest, rfl, tail⟩ := between_cons digit whole
  obtain ⟨⟨x, last, isDigit⟩, first⟩ := h.between rest bs tail
  exact ⟨⟨x, List.mem_getLast?_cons last, isDigit⟩, first⟩

/-- Digits are grouped if no underscore stands at an end, or behind another one. -/
theorem isGrouped_iff : IsGrouped cs ↔ cs ≠ [] ∧ cs.head? ≠ some '_' ∧ cs.getLast? ≠ some '_' ∧
    ¬ ['_', '_'] <:+: cs ∧ ∀ c ∈ cs, c.isDigit = true ∨ c = '_' := by
  constructor
  · intro h
    refine ⟨h.nonempty, fun head => ?_, fun last => ?_, ?_, h.char⟩
    · obtain ⟨bs, rfl⟩ := List.head?_eq_some_iff.mp head
      exact absurd h.isDigit_head Bool.false_ne_true
    · obtain ⟨as, rfl⟩ := List.getLast?_eq_some_iff.mp last
      obtain ⟨-, d, none, -⟩ := h.between as [] rfl
      cases none
    · rintro ⟨as, bs, rfl⟩
      obtain ⟨-, d, next, digit⟩ := h.between as ('_' :: bs) (by simp)
      rw [← Option.some.inj next] at digit
      cases digit
  · rintro ⟨nonempty, head, last, double, char⟩
    refine ⟨nonempty, char, fun as bs whole => ⟨?_, ?_⟩⟩
    · cases front : as.getLast? with
      | none =>
        rw [whole, List.getLast?_eq_none_iff.mp front] at head
        exact absurd rfl head
      | some d =>
        obtain ⟨as, rfl⟩ := List.getLast?_eq_some_iff.mp front
        refine ⟨d, rfl, (char d (by simp [whole])).resolve_right ?_⟩
        rintro rfl
        exact double ⟨as, bs, by simp [whole]⟩
    · cases bs with
      | nil =>
        rw [whole] at last
        exact absurd List.getLast?_concat last
      | cons d bs =>
        refine ⟨d, rfl, (char d (by simp [whole])).resolve_right ?_⟩
        rintro rfl
        exact double ⟨as, bs, by simp [whole]⟩

/-- The digits of a grouped text are found by leaving out its underscores. -/
theorem ungrouped?_eq_some_iff :
    ungrouped? cs = some digits ↔ IsGrouped cs ∧ withoutUnderscores cs = digits := by
  have char : (!cs.all fun c => c.isDigit || c == '_') = false ↔
      ∀ c ∈ cs, c.isDigit = true ∨ c = '_' := by simp
  rw [isGrouped_iff, ungrouped?, Option.ite_none_left_eq_some, Option.some.injEq, ← char,
    ← Text.occurs_iff]
  simp only [not_or, Bool.not_eq_true]
  rfl

/-- A sign is found in front of a digit. -/
theorem IsGrouped.splitSign_eq (h : IsGrouped cs) : splitSign cs = (false, cs) := by
  cases cs with
  | nil => exact absurd rfl h.nonempty
  | cons c cs => exact splitSign_of_isDigit h.isDigit_head

/-- Without its underscores a grouped text still has a digit. -/
theorem IsGrouped.withoutUnderscores_ne_nil (h : IsGrouped cs) : withoutUnderscores cs ≠ [] := by
  cases cs with
  | nil => exact absurd rfl h.nonempty
  | cons c cs =>
    rw [withoutUnderscores_cons_of_isDigit h.isDigit_head]
    exact List.cons_ne_nil c _

/-- The reader of lines is exact by its own grammar. -/
theorem line?_eq_some_iff (cs : List Char) (n : ℤ) : line? cs = some n ↔ IsLine cs n := by
  constructor
  · intro h
    obtain ⟨k, read, rfl⟩ := Option.map_eq_some_iff.mp h
    obtain ⟨digits, groups, read⟩ := Option.bind_eq_some_iff.mp read
    obtain ⟨grouped, rfl⟩ := ungrouped?_eq_some_iff.mp groups
    obtain ⟨sign, signed, whole⟩ := exists_sign cs
    obtain ⟨-, written⟩ := (natOfDigits?_iff_digits (by omega)).mp read
    have line := IsLine.mk signed grouped written
    rwa [← whole] at line
  · rintro ⟨signed, grouped, written⟩
    have read := (natOfDigits?_iff_digits (by omega)).mpr
      ⟨grouped.withoutUnderscores_ne_nil, written⟩
    have groups := ungrouped?_eq_some_iff.mpr ⟨grouped, rfl⟩
    unfold line?
    simp only [splitSign_append signed grouped.splitSign_eq, groups, Option.bind_some, read,
      Option.map_some]
    rfl

theorem ofLine?_isExact : IsExact ofLine? IsLine := .of_narrow line?_eq_some_iff ofLine?_eq

/-! ## Both readers -/

/-- Digits alone are one group. -/
theorem isGrouped_of_allDigits (nonempty : cs ≠ []) (all : AllDigits cs) : IsGrouped cs :=
  (ungrouped?_eq_some_iff.mp (ungrouped?_digits nonempty all)).1

/-- A text has the mark of a radix, behind its sign if it has one. -/
def HasRadixMark (cs : List Char) : Prop :=
  ∃ sign mark rest negative radix, IsSign sign negative ∧ IsRadixMark mark radix ∧ mark ≠ [] ∧
    cs = sign ++ (mark ++ rest)

theorem withoutUnderscores_of_not_mem (h : '_' ∉ cs) : withoutUnderscores cs = cs := by
  refine List.filter_eq_self.mpr fun c hc => bne_iff_ne.mpr ?_
  rintro rfl
  exact h hc

/-- Without underscores and marks, both forms are a sign and decimal digits. -/
theorem isLine_iff_isLiteral (plain : '_' ∉ cs) (unmarked : ¬ HasRadixMark cs) (n : ℤ) :
    IsLine cs n ↔ IsLiteral cs n := by
  constructor
  · rintro ⟨signed, grouped, written⟩
    rename_i sign body negative k
    rw [withoutUnderscores_of_not_mem fun h => plain (List.mem_append_right sign h)] at written
    exact .mk signed .decimal grouped.nonempty written
  · rintro ⟨signed, marked, nonempty, written⟩
    rename_i sign mark digits negative radix k
    cases marked with
    | decimal =>
      rw [List.nil_append] at plain ⊢
      have grouped := isGrouped_of_allDigits nonempty (allDigits_of_written nonempty written)
      refine .mk signed grouped ?_
      rwa [withoutUnderscores_of_not_mem fun h => plain (List.mem_append_right sign h)]
    | hexadecimal letter =>
      exact absurd ⟨_, _, _, _, _, signed, .hexadecimal letter, List.cons_ne_nil _ _, rfl⟩ unmarked
    | octal letter =>
      exact absurd ⟨_, _, _, _, _, signed, .octal letter, List.cons_ne_nil _ _, rfl⟩ unmarked
    | binary letter =>
      exact absurd ⟨_, _, _, _, _, signed, .binary letter, List.cons_ne_nil _ _, rfl⟩ unmarked

/-- A line is a constant without its underscores. -/
theorem IsLine.isLiteral {n : ℤ} (line : IsLine cs n) : IsLiteral (withoutUnderscores cs) n := by
  obtain ⟨signed, grouped, written⟩ := line
  rename_i sign body negative k
  have sign_eq : withoutUnderscores sign = sign := by cases signed <;> rfl
  have split : withoutUnderscores (sign ++ body) = sign ++ ([] ++ withoutUnderscores body) := by
    rw [List.nil_append]
    nth_rewrite 2 [← sign_eq]
    exact List.filter_append ..
  rw [split]
  exact .mk signed .decimal grouped.withoutUnderscores_ne_nil written

/-- Groups write a number. -/
theorem IsGrouped.exists_number (h : IsGrouped cs) : ∃ n, Digits 10 (withoutUnderscores cs) n := by
  have all : AllDigits (withoutUnderscores cs) := by
    intro c hc
    obtain ⟨mem, other⟩ := List.mem_filter.mp hc
    exact (h.char c mem).resolve_right (bne_iff_ne.mp other)
  have read := natOfDigits?_digits h.withoutUnderscores_ne_nil all
  exact ⟨_, ((natOfDigits?_iff_digits (by omega)).mp read).2⟩

/-! ### Leading zeros -/

theorem digits_zero (pos : 0 < radix) (written : Digits radix digits n) :
    Digits radix ('0' :: digits) n := by
  obtain ⟨ds, each, rfl⟩ := written
  refine ⟨0 :: ds, .cons ⟨pos, rfl⟩ each, ?_⟩
  rw [List.reverse_cons, Nat.ofDigits_append, Nat.ofDigits_singleton, Nat.mul_zero, Nat.add_zero]

/-- Zeros in front of digits change no number. -/
theorem digits_zeros (pos : 0 < radix) (written : Digits radix digits n) :
    ∀ k, Digits radix (List.replicate k '0' ++ digits) n
  | 0 => written
  | k + 1 => digits_zero pos (digits_zeros pos written k)

/-- Zeros may stand in front of groups. -/
theorem IsGrouped.zeros (h : IsGrouped cs) : ∀ k, IsGrouped (List.replicate k '0' ++ cs)
  | 0 => h
  | k + 1 => (h.zeros k).cons rfl

theorem withoutUnderscores_zeros (k : Nat) (cs : List Char) :
    withoutUnderscores (List.replicate k '0' ++ cs) =
      List.replicate k '0' ++ withoutUnderscores cs := by
  unfold withoutUnderscores
  rw [List.filter_append, List.filter_replicate_of_pos (by decide)]

/-- Constants and lines of input are read exactly. A text is read if it writes an integer of 64
bits, with any sign, mark, number of leading zeros and grouping that its form allows, and what is
read is this integer; any other text is refused, and no integer is wrapped or cut off. A text
without underscores and without the mark of a radix is the same in both forms, and what is read from
a line is read from a constant, too, once its underscores are left out. -/
theorem readers_exact :
    IsExact ofLiteral? IsLiteral ∧ IsExact ofLine? IsLine ∧
    (∀ {sign mark digits : List Char} {negative : Bool} {radix n : Nat} (k : Nat),
      IsSign sign negative → IsRadixMark mark radix → digits ≠ [] → Digits radix digits n →
      ofLiteral? (sign ++ (mark ++ (List.replicate k '0' ++ digits))) =
        ofLiteral? (sign ++ (mark ++ digits))) ∧
    (∀ {sign body : List Char} {negative : Bool} (k : Nat), IsSign sign negative →
      IsGrouped body → ofLine? (sign ++ (List.replicate k '0' ++ body)) = ofLine? (sign ++ body)) ∧
    (∀ cs, '_' ∉ cs → ¬ HasRadixMark cs → ofLine? cs = ofLiteral? cs) ∧
    ∀ cs w, ofLine? cs = some w → ofLiteral? (withoutUnderscores cs) = some w := by
  refine ⟨ofLiteral?_isExact, ofLine?_isExact, ?_, ?_, fun cs plain unmarked => ?_,
    fun cs w h => ?_⟩
  · intro sign mark digits negative radix n k signed marked nonempty written
    have zeros := digits_zeros marked.pos written k
    refine ofLiteral?_isExact.eq_of_writes (.mk signed marked ?_ zeros)
      (.mk signed marked nonempty written)
    exact List.append_ne_nil_of_right_ne_nil _ nonempty
  · intro sign body negative k signed grouped
    obtain ⟨n, written⟩ := grouped.exists_number
    refine ofLine?_isExact.eq_of_writes (.mk signed (grouped.zeros k) ?_)
      (.mk signed grouped written)
    rw [withoutUnderscores_zeros]
    exact digits_zeros (by omega) written k
  · exact ofLine?_isExact.congr ofLiteral?_isExact (isLine_iff_isLiteral plain unmarked)
  · have line := (ofLine?_isExact.eq_some_iff cs w).mp h
    exact (ofLiteral?_isExact.eq_some_iff _ w).mpr line.isLiteral

/-- The least integer and the one above the greatest, in both forms, and many leading zeros. -/
theorem readers_exact_ends :
    ofLiteral? "-0X8000000000000000".toList = some Int64.minValue ∧
    IsLiteral "-0X8000000000000000".toList (-2 ^ 63) ∧
    ofLiteral? "0x8000000000000000".toList = none ∧
    (∀ n, IsLiteral "0x8000000000000000".toList n → n < -2 ^ 63 ∨ 2 ^ 63 ≤ n) ∧
    ofLiteral? (['-'] ++ (['0', 'b'] ++ (List.replicate 100 '0' ++ ['1', '1']))) = some (-3) ∧
    ofLine? "-9_223_372_036_854_775_808".toList = some Int64.minValue ∧
    ofLiteral? "-9223372036854775808".toList = some Int64.minValue ∧
    ofLine? (['+'] ++ (List.replicate 100 '0' ++ "1_0".toList)) = some 10 ∧
    ofLine? "1__0".toList = none ∧ ofLine? "+7".toList = ofLiteral? "+7".toList := by
  obtain ⟨literal, line, literal_zeros, line_zeros, agree, plain⟩ := readers_exact
  have least : ofLiteral? "-0X8000000000000000".toList = some Int64.minValue := by decide +kernel
  have refused : ofLiteral? "0x8000000000000000".toList = none := by decide +kernel
  have grouped : ofLine? "-9_223_372_036_854_775_808".toList = some Int64.minValue := by
    decide +kernel
  have three : Digits 2 ['1', '1'] 3 :=
    ((natOfDigits?_iff_digits (by omega)).mp (by decide : natOfDigits? 2 ['1', '1'] = some 3)).2
  have ten : IsGrouped "1_0".toList :=
    (ungrouped?_eq_some_iff.mp (by decide : ungrouped? "1_0".toList = some ['1', '0'])).1
  refine ⟨least, (literal.eq_some_iff _ _).mp least, refused, (literal.eq_none_iff _).mp refused,
    ?_, grouped, plain _ _ grouped, ?_, by decide, agree _ (by decide) ?_⟩
  · rw [literal_zeros 100 .minus (.binary (.inl rfl)) (List.cons_ne_nil _ _) three]
    decide
  · rw [line_zeros 100 .plus ten]
    decide
  · rintro ⟨sign, mark, rest, negative, radix, signed, marked, nonempty, whole⟩
    cases signed <;> cases marked <;> simp_all

end Ippcode.Numeral
