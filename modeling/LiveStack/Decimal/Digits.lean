/-!
# Digits

A whole number without a sign is one or more digits of its base, read from the left. A long run of
digits is halved and its halves are joined, which gives the same number (`joinHalves?_eq`) but
needs a multiplication for each half instead of one for each digit.
-/

namespace LiveStack.Decimal

/-- The value of a digit, of whatever base up to sixteen. -/
def digitValue? (c : Char) : Option Nat :=
  if '0' ≤ c && c ≤ '9' then some (c.toNat - '0'.toNat)
  else if 'a' ≤ c && c ≤ 'f' then some (c.toNat - 'a'.toNat + 10)
  else if 'A' ≤ c && c ≤ 'F' then some (c.toNat - 'A'.toNat + 10)
  else none

/-- The value of a digit of `base`. -/
def digitOf? (base : Nat) (c : Char) : Option Nat :=
  (digitValue? c).filter (· < base)

/-- The number whose digits `digits` go on from `start`, or `none` if one is no digit. -/
def accumulate? (base start : Nat) (digits : List Char) : Option Nat :=
  digits.foldlM (fun sum c => (digitOf? base c).map (sum * base + ·)) start

/-- The number written `digits`, put together from the numbers of its two halves, each of which
is halved again until `depth` is used up. -/
def joinHalves? (base : Nat) : Nat → List Char → Option Nat
  | 0, digits => accumulate? base 0 digits
  | depth + 1, digits => do
      let half := digits.length / 2
      let high ← joinHalves? base depth (digits.take half)
      let low ← joinHalves? base depth (digits.drop half)
      return high * Nat.pow base (digits.length - half) + low

/-- The length from which a run of digits is halved. -/
def longRun : Nat := 128

/-- Read one or more digits. -/
def readNat? (base : Nat) (digits : List Char) : Option Nat :=
  if digits.isEmpty then none
  else joinHalves? base (2 * digits.length / longRun).log2 digits

theorem accumulate?_cons (base start : Nat) (c : Char) (rest : List Char) :
    accumulate? base start (c :: rest) =
      (digitOf? base c).bind fun digit => accumulate? base (start * base + digit) rest := by
  cases h : digitOf? base c <;> simp [accumulate?, h]

theorem accumulate?_append (base start : Nat) (high low : List Char) :
    accumulate? base start (high ++ low) =
      (accumulate? base start high).bind fun sum => accumulate? base sum low := by
  simp [accumulate?, List.foldlM_append, bind]

/-- What stands before a run of digits counts once for each place of the run. -/
theorem accumulate?_start (base start : Nat) (digits : List Char) :
    accumulate? base start digits =
      (accumulate? base 0 digits).map (start * Nat.pow base digits.length + ·) := by
  induction digits generalizing start with
  | nil => simp [accumulate?]
  | cons c rest ih =>
      rw [accumulate?_cons, accumulate?_cons]
      cases digitOf? base c with
      | none => rfl
      | some digit =>
          simp only [Option.bind_some]
          rw [ih (start * base + digit), ih (0 * base + digit), Option.map_map]
          congr 1
          funext sum
          have places : Nat.pow base (rest.length + 1) = Nat.pow base rest.length * base := rfl
          simp only [Function.comp_apply, List.length_cons, places, Nat.add_mul, Nat.zero_mul,
            Nat.zero_add, Nat.add_assoc, Nat.mul_assoc, Nat.mul_comm base]

theorem joinHalves?_eq (base depth : Nat) (digits : List Char) :
    joinHalves? base depth digits = accumulate? base 0 digits := by
  induction depth generalizing digits with
  | zero => rfl
  | succ depth ih =>
      have split : accumulate? base 0 digits =
          (accumulate? base 0 (digits.take (digits.length / 2))).bind fun sum =>
            accumulate? base sum (digits.drop (digits.length / 2)) := by
        rw [← accumulate?_append, List.take_append_drop]
      rw [split, joinHalves?, ih, ih]
      cases accumulate? base 0 (digits.take (digits.length / 2)) with
      | none => rfl
      | some high =>
          simp only [bind, Option.bind_some]
          rw [accumulate?_start base high, List.length_drop]
          cases accumulate? base 0 (digits.drop (digits.length / 2)) <;> rfl

/-- Reading digits is reading them one by one from the left. -/
theorem readNat?_eq (base : Nat) (digits : List Char) :
    readNat? base digits = if digits.isEmpty then none else accumulate? base 0 digits := by
  rw [readNat?, joinHalves?_eq]

end LiveStack.Decimal
