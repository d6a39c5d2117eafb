import LiveStack.Proofs.Code.Printing

/-!
# Literals read back

An integer, a truth or a string is written as one token, which reads as the same value: an integer
by the digits it is written with, whatever its sign, and a string by its quotes.
-/

namespace LiveStack

/-! ## Digits -/

namespace Decimal

theorem digitOf?_of_isDigit {c : Char} (digit : c.isDigit = true) :
    digitOf? 10 c = some (c.toNat - '0'.toNat) := by
  have range : '0' ≤ c ∧ c ≤ '9' := by
    rw [Char.isDigit, Bool.and_eq_true, decide_eq_true_eq, decide_eq_true_eq] at digit
    exact digit
  have small : c.toNat ≤ '9'.toNat := range.2
  have few : '9'.toNat - '0'.toNat < 10 := by decide
  have fits : c.toNat - '0'.toNat < 10 := by omega
  simp only [digitOf?, digitValue?, range, decide_true, Bool.and_self, if_true, Option.filter]
  rw [if_pos (decide_eq_true fits)]

/-- Digits are read as the number that they stand for. -/
theorem accumulate?_of_isDigit {digits : List Char} (all : ∀ c ∈ digits, c.isDigit = true)
    (start : Nat) : accumulate? 10 start digits = some (Nat.ofDigitChars 10 digits start) := by
  induction digits generalizing start with
  | nil => rfl
  | cons c rest ih =>
      obtain ⟨first, rests⟩ := List.forall_mem_cons.1 all
      rw [accumulate?_cons, digitOf?_of_isDigit first, Option.bind_some, ih rests,
        Nat.ofDigitChars_cons, Nat.mul_comm]

theorem digits_toDigits (number : Nat) :
    Nat.toDigits 10 number ≠ [] ∧ ∀ c ∈ Nat.toDigits 10 number, c.isDigit = true :=
  ⟨Nat.toDigits_ne_nil, fun _ mem => Nat.isDigit_of_mem_toDigits (by decide) (by decide) mem⟩

theorem readNat?_toDigits (number : Nat) :
    readNat? 10 (Nat.toDigits 10 number) = some number := by
  obtain ⟨-, all⟩ := digits_toDigits number
  have some : (Nat.toDigits 10 number).isEmpty = false := by simp
  rw [readNat?_eq, some, if_neg Bool.false_ne_true, accumulate?_of_isDigit all,
    Nat.ofDigitChars_toDigits (by decide) (by decide)]

end Decimal

/-! ## Whole numbers -/

namespace Literal

theorem startsNumber_iff {c : Char} :
    startsNumber c = true ↔ (c.isDigit = true ∨ c = '-') ∨ c = '.' := by
  have range : c.isDigit = (decide ('0' ≤ c) && decide (c ≤ '9')) := rfl
  rw [startsNumber, Bool.or_eq_true, Bool.or_eq_true, beq_iff_eq, beq_iff_eq, range]

/-- No truth and no string begins as a number does. -/
theorem read?_eq_readNumber? {text : String}
    (starts : ∃ c ∈ text.toList.head?, startsNumber c = true) :
    read? text = readNumber? text.toList := by
  obtain ⟨first, head, starts⟩ := starts
  have other {c : Char} (none : startsNumber c = false) : text.toList.head? ≠ some c := by
    intro same
    obtain rfl := Option.some.inj (head.symm.trans same)
    rw [starts] at none
    cases none
  have notTrue : text ≠ "true" := by
    rintro rfl
    exact other (c := 't') (by decide) (by decide)
  have notFalse : text ≠ "false" := by
    rintro rfl
    exact other (c := 'f') (by decide) (by decide)
  have notQuoted : Text.Quoted.decode? text = none :=
    Text.Quoted.decode?_eq_none (other (by decide))
  rw [read?, if_neg notTrue, if_neg notFalse, notQuoted]

/-- The characters of a whole number: digits, perhaps behind a minus. -/
structure Numeral (chars : List Char) : Prop where
  nonempty : chars ≠ []
  plain : ∀ c ∈ chars, c.isDigit = true ∨ c = '-'

namespace Numeral

variable {chars : List Char} (numeral : Numeral chars)

theorem ofDigits {digits : List Char} (nonempty : digits ≠ [])
    (all : ∀ c ∈ digits, c.isDigit = true) : Numeral digits ∧ Numeral ('-' :: digits) := by
  have plain : ∀ c ∈ digits, c.isDigit = true ∨ c = '-' := fun c mem => .inl (all c mem)
  refine ⟨⟨nonempty, plain⟩, List.cons_ne_nil _ _, ?_⟩
  exact List.forall_mem_cons.2 ⟨.inr rfl, plain⟩

include numeral

/-- No other character stands in a whole number. -/
theorem notMem {c : Char} (other : (c.isDigit || c == '-') = false) : c ∉ chars := by
  intro mem
  rw [Bool.or_eq_false_iff] at other
  rcases numeral.plain c mem with digit | same
  · rw [other.1] at digit
    cases digit
  · rw [same] at other
    cases other.2

/-- A whole number can name a word, if it is not taken as a number. -/
theorem nameProblem?_ofList : nameProblem? (String.ofList chars) = none := by
  have solid : chars.any Token.isBreak = false := by
    rw [List.any_eq_false]
    intro c mem broken
    have either := numeral.plain c mem
    simp only [Token.isBreak, Token.isBlank, Bool.or_eq_true, beq_iff_eq] at broken
    rcases broken with (((((rfl | rfl) | rfl) | rfl) | rfl) | rfl) | rfl <;>
      exact absurd either (by decide)
  have unquoted : chars.head? ≠ some '"' := fun same =>
    numeral.notMem (by decide) (List.mem_of_mem_head? same)
  have nonempty : (String.ofList chars).isEmpty = false := by
    simpa using numeral.nonempty
  simp [nameProblem?, nonempty, unquoted, solid]

theorem starts : ∃ first rest, chars = first :: rest ∧ startsNumber first = true := by
  obtain ⟨first, rest, rfl⟩ := List.exists_cons_of_ne_nil numeral.nonempty
  exact ⟨first, rest, rfl, startsNumber_iff.2 (.inl (numeral.plain first List.mem_cons_self))⟩

/-- A whole number is read with its sign, in base ten. -/
theorem readNumber? : readNumber? chars = readInt? 10 chars := by
  have noX : 'x' ∉ chars := numeral.notMem (by decide)
  have noB : 'b' ∉ chars := numeral.notMem (by decide)
  have whole : chars.any marksFloat = false := by
    rw [List.any_eq_false]
    intro c mem marks
    have either := numeral.plain c mem
    simp only [marksFloat, Bool.or_eq_true, beq_iff_eq] at marks
    rcases marks with (rfl | rfl) | rfl <;> exact absurd either (by decide)
  obtain ⟨first, rest, same, starts⟩ := numeral.starts
  rw [readNumber?.eq_def]
  split
  · simp at noX
  · simp at noB
  · obtain ⟨rfl, rfl⟩ := List.cons.inj same
    simp [starts, whole]
  · cases same

/-- The token of a whole number is no truth and no string. -/
theorem read?_ofList : read? (String.ofList chars) = Literal.readInt? 10 chars := by
  have starts : ∃ c ∈ (String.ofList chars).toList.head?, startsNumber c = true := by
    obtain ⟨first, rest, rfl, starts⟩ := numeral.starts
    exact ⟨first, by rw [String.toList_ofList]; rfl, starts⟩
  rw [read?_eq_readNumber? starts, String.toList_ofList]
  exact numeral.readNumber?

end Numeral

/-- The characters an integer is written with. -/
def numeralOf : Int → List Char
  | .ofNat number => Nat.toDigits 10 number
  | .negSucc number => '-' :: Nat.toDigits 10 (number + 1)

theorem toString_int (number : Int) : toString number = String.ofList (numeralOf number) := by
  cases number with
  | ofNat number => exact Nat.repr_eq_ofList_toDigits
  | negSucc number =>
      show "-" ++ (number + 1).repr = String.ofList ('-' :: Nat.toDigits 10 (number + 1))
      rw [Nat.repr_eq_ofList_toDigits, String.ofList_cons]
      rfl

theorem numeral_numeralOf (number : Int) : Numeral (numeralOf number) := by
  cases number with
  | ofNat number =>
      obtain ⟨nonempty, all⟩ := Decimal.digits_toDigits number
      exact (Numeral.ofDigits nonempty all).1
  | negSucc number =>
      obtain ⟨nonempty, all⟩ := Decimal.digits_toDigits (number + 1)
      exact (Numeral.ofDigits nonempty all).2

/-- The characters an integer is written with are read as the integer. -/
theorem readInt?_numeralOf (number : Int) :
    Decimal.readInt? 10 (numeralOf number) = some number := by
  cases number with
  | negSucc number =>
      show (Decimal.readNat? 10 (Nat.toDigits 10 (number + 1))).map (Decimal.withSign true) = _
      rw [Decimal.readNat?_toDigits]
      rfl
  | ofNat number =>
      obtain ⟨nonempty, all⟩ := Decimal.digits_toDigits number
      have unsigned : Decimal.splitSign (Nat.toDigits 10 number) =
          (false, Nat.toDigits 10 number) := by
        rw [Decimal.splitSign.eq_def]
        split
        · next same => exact absurd (all '-' (by simp [same])) (by decide)
        · next same => exact absurd (all '+' (by simp [same])) (by decide)
        · rfl
      rw [Decimal.readInt?, numeralOf, unsigned]
      show (Decimal.readNat? 10 (Nat.toDigits 10 number)).map (Decimal.withSign false) = _
      rw [Decimal.readNat?_toDigits]
      rfl

theorem read?_toString (number : Int64) :
    read? (toString number.toInt) = some (.int number) := by
  have numeral := numeral_numeralOf number.toInt
  have kept : dropUnderscores (numeralOf number.toInt) = numeralOf number.toInt := by
    rw [dropUnderscores, List.filter_eq_self]
    intro c mem
    refine decide_eq_true ?_
    rintro rfl
    exact numeral.notMem (by decide) mem
  have fits : Int64.minValue.toInt ≤ number.toInt ∧ number.toInt ≤ Int64.maxValue.toInt :=
    ⟨number.minValue_le_toInt, number.toInt_le⟩
  rw [toString_int, numeral.read?_ofList, readInt?, kept, readInt?_numeralOf]
  show ofInt? number.toInt = some (.int number)
  rw [ofInt?, if_pos fits, Int64.ofInt_toInt]

/-! ## Strings -/

theorem isNumeric_of_ofInt? {number : Int} {value : Value} (fits : ofInt? number = some value) :
    value.isNumeric = true := by
  rw [ofInt?] at fits
  split at fits
  · obtain rfl := Option.some.inj fits
    rfl
  · cases fits

/-- What is read as a number is an integer or a float. -/
theorem isNumeric_of_readNumber? {chars : List Char} {value : Value}
    (read : Literal.readNumber? chars = some value) : value.isNumeric = true := by
  have integer : ∀ {base chars}, readInt? base chars = some value → value.isNumeric = true := by
    intro base chars read
    obtain ⟨number, -, fits⟩ := Option.bind_eq_some_iff.1 read
    exact isNumeric_of_ofInt? fits
  rw [Literal.readNumber?.eq_def] at read
  split at read
  · exact integer read
  · exact integer read
  · split at read
    · cases read
    · split at read
      · obtain ⟨number, -, rfl⟩ := Option.map_eq_some_iff.1 read
        rfl
      · exact integer read
  · cases read

/-- A token is read as a string just if it is a quoted one. -/
theorem read?_eq_string_iff {text body : String} :
    read? text = some (.string body) ↔ Text.Quoted.decode? text = some body := by
  have notTrue : Text.Quoted.decode? "true" = none := Text.Quoted.decode?_eq_none (by decide)
  have notFalse : Text.Quoted.decode? "false" = none := Text.Quoted.decode?_eq_none (by decide)
  rw [read?]
  split
  · next same =>
      rw [same, notTrue]
      exact ⟨nofun, nofun⟩
  split
  · next same =>
      rw [same, notFalse]
      exact ⟨nofun, nofun⟩
  split
  · next decoded =>
      rw [decoded, Option.some.injEq, Option.some.injEq, Value.string.injEq]
  · next notQuoted =>
      rw [notQuoted]
      refine ⟨fun read => ?_, nofun⟩
      cases isNumeric_of_readNumber? read

end Literal

/-! ## Values -/

namespace Value

/-- Lists are code, and floats need not read back; every other value is written to read back. -/
def isExact : Value → Bool
  | .int _ | .bool _ | .string _ => true
  | .float _ | .list _ => false

variable {value : Value}

theorem solid_source (exact : value.isExact = true) : Token.Solid value.source := by
  cases value with
  | int number =>
      show Token.Solid (toString number.toInt)
      rw [Literal.toString_int]
      exact Token.solid_of_valid (Literal.numeral_numeralOf _).nameProblem?_ofList
  | bool truth => cases truth <;> exact Token.solid_of_valid (by decide)
  | string text => exact Token.solid_encode text
  | float | list => cases exact

/-- The source text of an integer, a truth or a string is read as the same value. -/
theorem read?_source (exact : value.isExact = true) : Literal.read? value.source = some value := by
  cases value with
  | int number => exact Literal.read?_toString number
  | bool truth => cases truth <;> simp [source, render, Literal.read?]
  | string text => exact Literal.read?_eq_string_iff.2 (Text.Quoted.decode?_encode text)
  | float | list => cases exact

end Value

end LiveStack
