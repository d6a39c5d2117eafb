import LiveStack.Proofs.Run.Arithmetic

/-!
# Quotients and remainders

The remainder of two integers or truth values is what the truncated quotient leaves: it is smaller
than the divisor and has the sign of the number that is divided. So `/` and `mod` agree. Where the
remainder is zero the division comes out even, and `/` pushes an integer. There is one quotient of
two 64-bit integers that does not fit in 64 bits, that of the smallest by `-1`, and for these two
both words stop with an overflow, `mod` no less than `/`.
-/

namespace LiveStack

open Machine

namespace Operation

/-- What the truncated division of `x` by `y` leaves. -/
structure IsRemainder (x y r : Int) : Prop where
  whole : x = y * x.tdiv y + r
  less : r.natAbs < y.natAbs
  sign : r = 0 ∨ r.sign = x.sign

/-- Remainders: by zero, of the two numbers whose quotient does not fit, and of any others. -/
inductive Remaining (a b : Value) (x y : Int) : Except Cause Value → Prop
  | byZero (zero : y = 0) : Remaining a b x y (.error .divisionByZero)
  | beyond (least : x = -2 ^ 63) (negative : y = -1) : Remaining a b x y (.error (overflow a b))
  | pushed (nonzero : y ≠ 0) (inside : ¬ (x = -2 ^ 63 ∧ y = -1)) (number : Int64)
      (rest : IsRemainder x y number.toInt) : Remaining a b x y (.ok (.int number))

/-! ## Truncated division -/

variable {x y : Int}

theorem isRemainder_tmod (nonzero : y ≠ 0) : IsRemainder x y (x.tmod y) where
  whole := (Int.mul_tdiv_add_tmod x y).symm
  less := by
    rw [Int.natAbs_tmod]
    exact Nat.mod_lt _ (Int.natAbs_pos.2 nonzero)
  sign := by
    by_cases divides : y ∣ x
    · exact .inl (Int.dvd_iff_tmod_eq_zero.1 divides)
    · exact .inr (by rw [Int.sign_tmod, if_neg divides])

/-- A remainder is no larger than the number that is divided, and on the same side of zero. -/
theorem inRange_tmod (fits : InRange x) (nonzero : y ≠ 0) : InRange (x.tmod y) := by
  have size : (x.tmod y).natAbs ≤ x.natAbs := by
    rw [Int.natAbs_tmod]
    exact Nat.mod_le _ _
  obtain ⟨least, most⟩ := fits
  rcases (isRemainder_tmod nonzero).sign with none | same
  · rw [none]
    exact inRange_toInt 0
  · have below : x.tmod y < 0 ↔ x < 0 := by
      rw [← Int.sign_eq_neg_one_iff_neg, same, Int.sign_eq_neg_one_iff_neg]
    constructor <;> omega

/-- Only the quotient of the smallest integer by `-1` does not fit. -/
theorem inRange_tdiv_iff (fits : InRange x) (nonzero : y ≠ 0) :
    InRange (x.tdiv y) ↔ ¬ (x = -2 ^ 63 ∧ y = -1) := by
  obtain ⟨least, most⟩ := fits
  constructor
  · rintro ⟨-, below⟩ ⟨rfl, rfl⟩
    exact absurd below (by decide)
  · intro other
    by_cases unit : y.natAbs = 1
    · rcases Int.natAbs_eq_iff.1 unit with rfl | rfl
      · rw [Nat.cast_one, Int.tdiv_one]
        exact ⟨least, most⟩
      · rw [Nat.cast_one, Int.tdiv_neg, Int.tdiv_one]
        constructor <;> omega
    · -- Any other divisor at least halves the number.
      have halved : (x.tdiv y).natAbs ≤ x.natAbs / 2 := by
        rw [Int.natAbs_tdiv]
        exact Nat.div_le_div_left (by omega) (by decide)
      constructor <;> omega

/-! ## The two operations -/

section
variable {a b : Value} (first : a.reading? = some x) (second : b.reading? = some y)
include first

theorem inRange_of_reading : InRange x := by
  obtain ⟨-, -, -, rfl⟩ := reckons_of_reading first
  exact inRange_toInt _

include second

theorem remainder_of_readings (nonzero : y ≠ 0) :
    remainder a b = exact a b (x.tdiv y) >>= fun _ => exact a b (x.tmod y) := by
  rw [remainder, arithmetic_of_readings first second, if_neg nonzero]

theorem quotient_of_readings (nonzero : y ≠ 0) :
    quotient a b =
      if x.tmod y = 0 then exact a b (x.tdiv y) else .ok (.float (a.toFloat / b.toFloat)) := by
  rw [quotient, arithmetic_of_readings first second, if_neg nonzero]

/-- Two numbers whose quotient fits have a remainder. -/
theorem remainder_of_inside (nonzero : y ≠ 0) (inside : ¬ (x = -2 ^ 63 ∧ y = -1)) :
    remainder a b = .ok (.int (.ofInt (x.tmod y))) := by
  have fits := inRange_of_reading first
  rw [remainder_of_readings first second nonzero,
    exact_of_inRange a b ((inRange_tdiv_iff fits nonzero).2 inside),
    exact_of_inRange a b (inRange_tmod fits nonzero)]
  rfl

theorem remainder_of_beyond (nonzero : y ≠ 0) (beyond : x = -2 ^ 63 ∧ y = -1) :
    remainder a b = .error (overflow a b) := by
  have large : ¬ InRange (x.tdiv y) := fun fits =>
    (inRange_tdiv_iff (inRange_of_reading first) nonzero).1 fits beyond
  rw [remainder_of_readings first second nonzero, exact_of_not_inRange a b large]
  rfl

theorem remainder_remaining : Remaining a b x y (remainder a b) := by
  by_cases zero : y = 0
  · rw [remainder, arithmetic_of_readings first second, if_pos zero]
    exact .byZero zero
  by_cases inside : x = -2 ^ 63 ∧ y = -1
  · rw [remainder_of_beyond first second zero inside]
    exact .beyond inside.1 inside.2
  · rw [remainder_of_inside first second zero inside]
    refine .pushed zero inside _ ?_
    rw [toInt_ofInt_of_inRange (inRange_tmod (inRange_of_reading first) zero)]
    exact isRemainder_tmod zero

/-- The quotient is an integer where the remainder is zero, and does not fit where there is no
remainder for want of a quotient. -/
theorem quotient_agrees (nonzero : y ≠ 0) :
    ((∃ number, quotient a b = .ok (.int number)) ↔ remainder a b = .ok (.int 0)) ∧
      (quotient a b = .error (overflow a b) ↔ remainder a b = .error (overflow a b)) := by
  have fits := inRange_of_reading first
  rw [quotient_of_readings first second nonzero]
  by_cases inside : x = -2 ^ 63 ∧ y = -1
  · have even : x.tmod y = 0 := by rw [inside.1, inside.2]; rfl
    have large : ¬ InRange (x.tdiv y) := fun within =>
      (inRange_tdiv_iff fits nonzero).1 within inside
    rw [remainder_of_beyond first second nonzero inside, if_pos even,
      exact_of_not_inRange a b large]
    exact ⟨⟨nofun, nofun⟩, Iff.rfl⟩
  · rw [remainder_of_inside first second nonzero inside]
    by_cases even : x.tmod y = 0
    · rw [if_pos even, even, exact_of_inRange a b ((inRange_tdiv_iff fits nonzero).2 inside)]
      exact ⟨⟨fun _ => rfl, fun _ => ⟨_, rfl⟩⟩, nofun, nofun⟩
    · rw [if_neg even]
      refine ⟨⟨nofun, fun none => absurd ?_ even⟩, nofun, nofun⟩
      have none : Int64.ofInt (x.tmod y) = 0 := Value.int.inj (Except.ok.inj none)
      rw [← toInt_ofInt_of_inRange (inRange_tmod fits nonzero), none, Int64.toInt_zero]

end

end Operation

namespace Machine

open Operation Prelude

/-- **Remainder and division agree.** For integers and truth values, `mod` stops for a divisor of
zero, as `/` does, and otherwise pushes what the truncated quotient leaves, which is smaller than
the divisor and has the sign of the number that is divided. Where the divisor is not zero, `/`
pushes an integer exactly if `mod` pushes zero. Both stop with an overflow for the smallest integer
and `-1`, and for no other two numbers does `mod`. -/
theorem remainder_and_division_agree {limit : Nat} {host : Host} {made : Machine}
    (loaded : bootstrapped limit host = .ok made) {a b : Value} {x y : Int}
    (first : a.reading? = some x) (second : b.reading? = some y) :
    ∃ rest divided, made.Answers "mod" [a, b] rest ∧ made.Answers "/" [a, b] divided ∧
      Remaining a b x y rest ∧
      (y ≠ 0 → ((∃ number, divided = .ok (.int number)) ↔ rest = .ok (.int 0)) ∧
        (divided = .error (overflow a b) ↔ rest = .error (overflow a b))) := by
  refine ⟨remainder a b, quotient a b, ?_, ?_, remainder_remaining first second,
    quotient_agrees first second⟩
  · exact answers_of_makes loaded (show (Item.op .modulo).name? = some "mod" from rfl)
      (.binary (fun _ _ => rfl) rfl a b)
  · exact answers_of_makes loaded (show (Item.op .divide).name? = some "/" from rfl)
      (.binary (fun _ _ => rfl) rfl a b)

/-- The remainder of `-7` by `2` is negative, and the smallest integer has none by `-1`. -/
theorem remainder_and_division_agree_at_bounds :
    let fresh : Machine := new 8 .empty
    ∃ made word location fault last, bootstrapped 50 .empty = .ok made ∧
      made.bind "mod" = some word ∧
      runCode [⟨none, .word word⟩] (fresh.topped [.int 2, .int (-7)]) =
        .ok () { fresh.topped [.int (-1)] with location } ∧
      runCode [⟨none, .word word⟩] (fresh.topped [.int (-1), .int .minValue]) =
        .error fault last ∧
      fault.cause = overflow (.int .minValue) (.int (-1)) := by
  intro fresh
  obtain ⟨made, loaded, -⟩ := exists_bootstrapped (show 0 < 50 by decide) .empty
  obtain ⟨_, -, ⟨word, bound, leaves⟩, -, remaining, -⟩ :=
    remainder_and_division_agree loaded (a := .int (-7)) (b := .int 2) (x := -7) (y := 2) rfl rfl
  obtain ⟨_, -, ⟨word', bound', leaves'⟩, -, remaining', -⟩ :=
    remainder_and_division_agree loaded (a := .int .minValue) (b := .int (-1)) (x := -2 ^ 63)
      (y := -1) rfl rfl
  obtain rfl := Option.some.inj (bound.symm.trans bound')
  have ran : fresh.ComesTo _ _ := leaves none fresh (.inl (by decide))
  have stopped : fresh.ComesTo _ _ := leaves' none fresh (.inl (by decide))
  cases remaining with
  | byZero zero => exact absurd zero (by decide)
  | beyond least => exact absurd least (by decide)
  | pushed _ _ number rest =>
      have value : number.toInt = -1 := by
        have whole : (-7 : Int) = 2 * (-3) + number.toInt := rest.whole
        omega
      obtain rfl : number = -1 := Int64.toInt_inj.1 value
      cases remaining' with
      | byZero zero => exact absurd zero (by decide)
      | pushed _ inside => exact absurd ⟨rfl, rfl⟩ inside
      | beyond =>
          obtain ⟨fault, last, stops, cause⟩ := stopped.exists_error
          obtain ⟨location, pushes⟩ := ran.exists_ok
          exact ⟨made, word, location, fault, last, loaded, bound, pushes, stops, cause⟩

end Machine

end LiveStack
