import LiveStack.Proofs.Code.Literals
import LiveStack.Proofs.Run.Arithmetic
import Mathlib.Data.Nat.Digits.Defs

/-!
# Integers in source text

The reader tells the forms of a number apart by tests that overlap: a prefix, the first character,
the marks of a float, and the underscores that it drops. Here the integers of source text are said
as a grammar, with the number that each text stands for, and the reader is shown to accept just
these. A text of the grammar whose number is too large or too small is no literal.
-/

namespace LiveStack

/-! ## Digits of a base -/

namespace Decimal

/-- `c` is the digit of `value`, with small letters or capitals for what is ten or more. -/
def IsDigit (base : Nat) (c : Char) (value : Nat) : Prop :=
  value < base ∧
    ("0123456789abcdef".toList[value]? = some c ∨ "0123456789ABCDEF".toList[value]? = some c)

/-- One or more digits of a base, with the number that they are written for. -/
def Digits (base : Nat) (chars : List Char) (number : Nat) : Prop :=
  chars ≠ [] ∧ ∃ values, List.Forall₂ (IsDigit base) chars values ∧
    number = Nat.ofDigits base values.reverse

/-- Digits of a base, perhaps behind a minus. -/
inductive Whole (base : Nat) : List Char → Int → Prop
  | plain {digits : List Char} {number : Nat} (written : Digits base digits number) :
      Whole base digits number
  | minus {digits : List Char} {number : Nat} (written : Digits base digits number) :
      Whole base ('-' :: digits) (-number)

/-- Digits of a base, perhaps behind a sign. -/
inductive Signed (base : Nat) : List Char → Int → Prop
  | whole {chars : List Char} {number : Int} (written : Whole base chars number) :
      Signed base chars number
  | plus {digits : List Char} {number : Nat} (written : Digits base digits number) :
      Signed base ('+' :: digits) number

variable {base : Nat}

/-- Only the first characters of all are digits, and these can be gone through. -/
theorem written_of_digitValue? {c : Char} {value : Nat} (read : digitValue? c = some value) :
    "0123456789abcdef".toList[value]? = some c ∨ "0123456789ABCDEF".toList[value]? = some c := by
  have early : ∀ n < 128, ∀ value ∈ digitValue? (Char.ofNat n),
      "0123456789abcdef".toList[value]? = some (Char.ofNat n) ∨
        "0123456789ABCDEF".toList[value]? = some (Char.ofNat n) := by decide
  have last : c ≤ '9' ∨ c ≤ 'f' ∨ c ≤ 'F' := by grind [digitValue?]
  have bound : c.toNat < 128 := by
    rcases last with range | range | range <;> exact Nat.lt_of_le_of_lt range (by decide)
  have here := early c.toNat bound
  rw [Char.ofNat_toNat] at here
  exact here value read

theorem digitValue?_of_written {c : Char} {value : Nat}
    (written : "0123456789abcdef".toList[value]? = some c ∨
      "0123456789ABCDEF".toList[value]? = some c) : digitValue? c = some value := by
  have small : ∀ value < 16,
      "0123456789abcdef".toList[value]?.all (digitValue? · == some value) = true := by decide
  have capital : ∀ value < 16,
      "0123456789ABCDEF".toList[value]?.all (digitValue? · == some value) = true := by decide
  rcases written with written | written
  · obtain ⟨bound, -⟩ := List.getElem?_eq_some_iff.1 written
    exact eq_of_beq ((Option.all_eq_true _ _).1 (small value bound) c written)
  · obtain ⟨bound, -⟩ := List.getElem?_eq_some_iff.1 written
    exact eq_of_beq ((Option.all_eq_true _ _).1 (capital value bound) c written)

theorem digitOf?_eq_some_iff {c : Char} {value : Nat} :
    digitOf? base c = some value ↔ IsDigit base c value := by
  rw [digitOf?, Option.filter_eq_some_iff, decide_eq_true_eq, and_comm, IsDigit]
  exact and_congr_right fun _ => ⟨written_of_digitValue?, digitValue?_of_written⟩

/-- Digits are read from the left, each with a place more for all that stand before it. -/
theorem accumulate?_eq_some_iff {digits : List Char} {start number : Nat} :
    accumulate? base start digits = some number ↔
      ∃ values, List.Forall₂ (IsDigit base) digits values ∧
        number = values.foldl (fun sum value => sum * base + value) start := by
  induction digits generalizing start with
  | nil =>
      rw [accumulate?, List.foldlM_nil]
      constructor
      · intro read
        exact ⟨[], .nil, (Option.some.inj read).symm⟩
      · rintro ⟨values, all, rfl⟩
        cases all
        rfl
  | cons c rest ih =>
      rw [accumulate?_cons, Option.bind_eq_some_iff]
      constructor
      · rintro ⟨value, first, read⟩
        obtain ⟨values, all, rfl⟩ := ih.1 read
        exact ⟨value :: values, .cons (digitOf?_eq_some_iff.1 first) all, rfl⟩
      · rintro ⟨values, all, rfl⟩
        obtain _ | ⟨first, all⟩ := all
        exact ⟨_, digitOf?_eq_some_iff.2 first, ih.2 ⟨_, all, rfl⟩⟩

theorem readNat?_eq_some_iff {digits : List Char} {number : Nat} :
    readNat? base digits = some number ↔ Digits base digits number := by
  have horner (values : List Nat) :
      values.foldl (fun sum value => sum * base + value) 0 = Nat.ofDigits base values.reverse := by
    rw [Nat.ofDigits_eq_foldr, List.foldr_reverse]
    simp only [Nat.cast_id, Nat.add_comm, Nat.mul_comm]
  rw [readNat?_eq, Digits]
  split
  · next none => simp [List.isEmpty_iff.1 none]
  · next some =>
      have nonempty : digits ≠ [] := fun none => some (List.isEmpty_iff.2 none)
      simp only [accumulate?_eq_some_iff, horner, nonempty, ne_eq, not_false_eq_true, true_and]

instance {digits : List Char} {number : Nat} : Decidable (Digits base digits number) :=
  decidable_of_iff _ readNat?_eq_some_iff

/-- No digit is a sign. -/
theorem Digits.splitSign_eq {digits : List Char} {number : Nat}
    (written : Digits base digits number) : splitSign digits = (false, digits) := by
  obtain ⟨-, values, all, -⟩ := written
  have first {c : Char} {rest : List Char} (same : digits = c :: rest) : digitValue? c ≠ none := by
    subst same
    obtain _ | ⟨digit, -⟩ := all
    rw [digitValue?_of_written digit.2]
    exact Option.some_ne_none _
  rw [splitSign.eq_def]
  split
  · exact absurd rfl (first rfl)
  · exact absurd rfl (first rfl)
  · rfl

theorem readInt?_eq_some_iff {chars : List Char} {number : Int} :
    readInt? base chars = some number ↔ Signed base chars number := by
  constructor
  · intro read
    obtain ⟨magnitude, written, signed⟩ := Option.map_eq_some_iff.1 read
    rw [readNat?_eq_some_iff] at written
    -- The sign that is split off says which of the three ways the number is written in.
    split at written
    · subst signed
      exact .whole (.minus written)
    · subst signed
      exact .plus written
    · next noMinus noPlus =>
        split at signed
        · exact absurd rfl (noMinus _)
        · exact absurd rfl (noPlus _)
        · subst signed
          exact .whole (.plain written)
  · intro signed
    have read {negative : Bool} {digits : List Char} {magnitude : Nat}
        (split : splitSign chars = (negative, digits)) (written : Digits base digits magnitude) :
        readInt? base chars = some (withSign negative magnitude) := by
      rw [readInt?, split]
      show (readNat? base digits).map (withSign negative) = _
      rw [readNat?_eq_some_iff.2 written, Option.map_some]
    obtain ⟨written⟩ | ⟨written⟩ := signed
    · obtain ⟨written⟩ | ⟨written⟩ := written
      · exact read written.splitSign_eq written
      · exact read rfl written
    · exact read rfl written

instance {chars : List Char} {number : Int} : Decidable (Signed base chars number) :=
  decidable_of_iff _ readInt?_eq_some_iff

end Decimal

/-! ## Integers -/

namespace Literal

open Decimal

/-- The characters of an integer, with the number that it is written for. Where the base is ten,
nothing else tells an integer from a word or a float but its first character and the marks. -/
inductive Integer : List Char → Int → Prop
  | hexadecimal {rest : List Char} {number : Int}
      (written : Signed 16 (dropUnderscores rest) number) : Integer ('0' :: 'x' :: rest) number
  | binary {rest : List Char} {number : Int}
      (written : Signed 2 (dropUnderscores rest) number) : Integer ('0' :: 'b' :: rest) number
  | decimal {chars : List Char} {number : Int}
      (noHexadecimal : ∀ rest, chars ≠ '0' :: 'x' :: rest)
      (noBinary : ∀ rest, chars ≠ '0' :: 'b' :: rest)
      (starts : ∃ c ∈ chars.head?, c.isDigit = true ∨ c = '-')
      (whole : ∀ c ∈ chars, c ≠ '.' ∧ c ≠ 'e' ∧ c ≠ 'E')
      (written : Whole 10 (dropUnderscores chars) number) : Integer chars number

theorem ofInt?_eq_some_iff {number : Int} {value : Int64} :
    ofInt? number = some (.int value) ↔ number = value.toInt := by
  by_cases fits : InRange number
  · rw [ofInt?_of_inRange fits, Option.some.injEq, Value.int.injEq]
    constructor
    · rintro rfl
      exact (toInt_ofInt_of_inRange fits).symm
    · rintro rfl
      exact Int64.ofInt_toInt value
  · rw [ofInt?_of_not_inRange fits]
    refine ⟨nofun, ?_⟩
    rintro rfl
    exact absurd (inRange_toInt value) fits

theorem marksFloat_eq_false_iff {chars : List Char} :
    chars.any marksFloat = false ↔ ∀ c ∈ chars, c ≠ '.' ∧ c ≠ 'e' ∧ c ≠ 'E' := by
  simp only [List.any_eq_false, marksFloat, Bool.or_eq_true, beq_iff_eq, not_or, and_assoc, ne_eq]

theorem readInt?_of_signed {base : Nat} {chars : List Char} {number : Int}
    (written : Signed base (dropUnderscores chars) number) :
    readInt? base chars = ofInt? number := by
  show (Decimal.readInt? base (dropUnderscores chars)).bind ofInt? = _
  rw [readInt?_eq_some_iff.2 written, Option.bind_some]

theorem signed_of_readInt? {base : Nat} {chars : List Char} {value : Int64}
    (read : readInt? base chars = some (.int value)) :
    Signed base (dropUnderscores chars) value.toInt := by
  obtain ⟨number, written, fits⟩ := Option.bind_eq_some_iff.1 read
  obtain rfl := ofInt?_eq_some_iff.1 fits
  exact readInt?_eq_some_iff.1 written

variable {chars : List Char} {number : Int}

theorem Integer.startsNumber (integer : Integer chars number) :
    ∃ c ∈ chars.head?, startsNumber c = true := by
  cases integer with
  | hexadecimal | binary => exact ⟨'0', rfl, by decide⟩
  | decimal _ _ starts =>
      obtain ⟨c, first, either⟩ := starts
      exact ⟨c, first, startsNumber_iff.2 (.inl either)⟩

/-- What the grammar has is read, if its number fits. -/
theorem Integer.readNumber?_eq (integer : Integer chars number) :
    readNumber? chars = ofInt? number := by
  have starts := integer.startsNumber
  cases integer with
  | hexadecimal written => exact readInt?_of_signed written
  | binary written => exact readInt?_of_signed written
  | decimal noHexadecimal noBinary _ whole written =>
      obtain ⟨first, head, starts⟩ := starts
      obtain ⟨rest, rfl⟩ := List.head?_eq_some_iff.1 head
      rw [readNumber?.eq_def]
      split
      · next same => exact absurd same (noHexadecimal _)
      · next same => exact absurd same (noBinary _)
      · next same =>
          obtain ⟨rfl, rfl⟩ := List.cons.inj same
          rw [marksFloat_eq_false_iff.2 whole, starts]
          exact readInt?_of_signed (.whole written)
      · next none => cases none

/-- What is read as an integer is in the grammar. -/
theorem integer_of_readNumber? {value : Int64} (read : readNumber? chars = some (.int value)) :
    Integer chars value.toInt := by
  rw [readNumber?.eq_def] at read
  split at read
  · exact .hexadecimal (signed_of_readInt? read)
  · exact .binary (signed_of_readInt? read)
  · next first rest noHexadecimal noBinary =>
      split at read
      · cases read
      next starts =>
      split at read
      · obtain ⟨number, -, other⟩ := Option.map_eq_some_iff.1 read
        cases other
      next whole =>
      rw [Bool.not_eq_true, marksFloat_eq_false_iff] at whole
      rw [Bool.not_eq_true', Bool.not_eq_false, startsNumber_iff] at starts
      have either := starts.resolve_right (whole first List.mem_cons_self).1
      -- The first character is kept, and it is no plus, the one sign that an integer cannot have.
      have kept : dropUnderscores (first :: rest) = first :: dropUnderscores rest := by
        refine List.filter_cons_of_pos (decide_eq_true ?_)
        rintro rfl
        exact absurd either (by decide)
      have signed := signed_of_readInt? read
      rw [kept] at signed
      generalize value.toInt = number at signed ⊢
      refine .decimal (fun tail same => ?_) (fun tail same => ?_) ⟨first, rfl, either⟩ whole ?_
      · obtain ⟨rfl, rfl⟩ := List.cons.inj same
        exact noHexadecimal _ rfl rfl
      · obtain ⟨rfl, rfl⟩ := List.cons.inj same
        exact noBinary _ rfl rfl
      · rw [kept]
        cases signed with
        | whole written => exact written
        | plus => exact absurd either (by decide)
  · cases read

theorem read?_eq_some_int_iff {text : String} {value : Int64} :
    read? text = some (.int value) ↔ Integer text.toList value.toInt := by
  constructor
  · intro read
    rw [read?] at read
    split at read
    · cases read
    split at read
    · cases read
    split at read
    · cases read
    · exact integer_of_readNumber? read
  · intro integer
    rw [read?_eq_readNumber? integer.startsNumber, integer.readNumber?_eq, ofInt?_eq_some_iff]

/-- **Integers are read by one grammar.** A text is read as an integer just if the grammar has it
with this integer. A text that the grammar has with a number that does not fit in 64 bits is no
literal at all. And what an integer is written with is read as the integer. -/
theorem integers_are_read_by_one_grammar :
    (∀ (text : String) (value : Int64),
      read? text = some (.int value) ↔ Integer text.toList value.toInt) ∧
    (∀ (text : String) (number : Int), Integer text.toList number →
      ¬ (-9223372036854775808 ≤ number ∧ number ≤ 9223372036854775807) → read? text = none) ∧
    ∀ value : Int64, read? (Value.int value).render = some (.int value) := by
  refine ⟨fun text value => read?_eq_some_int_iff, ?_, read?_toString⟩
  intro text number integer large
  rw [read?_eq_readNumber? integer.startsNumber, integer.readNumber?_eq]
  refine ofInt?_of_not_inRange fun fits => large ?_
  unfold InRange at fits
  omega

/-- One more than the greatest integer, and the least integer, which has no positive. -/
theorem integers_are_read_by_one_grammar_of_limits :
    Integer "0x8000_0000_0000_0000".toList 9223372036854775808 ∧
    read? "0x8000_0000_0000_0000" = none ∧
    Integer "-9_223_372_036_854_775_808".toList (-9223372036854775808) ∧
    read? "-9_223_372_036_854_775_808" = some (.int (-9223372036854775808)) ∧
    (Value.int (-9223372036854775808)).render = "-9223372036854775808" := by
  obtain ⟨exact, large, -⟩ := integers_are_read_by_one_grammar
  have above : Integer "0x8000_0000_0000_0000".toList 9223372036854775808 :=
    .hexadecimal (by decide)
  have least : Integer "-9_223_372_036_854_775_808".toList (-9223372036854775808) :=
    .decimal (by simp) (by simp) ⟨'-', by decide, by decide⟩ (by simp) (.minus (by decide))
  exact ⟨above, large _ _ above (by decide), least, (exact _ _).2 least, by decide⟩

end Literal

end LiveStack
