import Mathlib.Algebra.BigOperators.Group.List.Basic
import Mathlib.Algebra.Ring.Int.Defs
import Mathlib.Data.Nat.Factorial.Basic
import LiveStack.Proofs.Run.Outcomes

/-!
# Integer arithmetic

Arithmetic on integers and truth values never wraps. An operation gives the exact result, or fails
where this does not fit in 64 bits. The words of the prelude that are made of such operations go
from one partial result to the next, and stop at the first that does not fit: a sum or a product
over a list is exact if all that come on the way from the first value to the last are.
-/

namespace LiveStack

open Machine
open scoped Nat

/-- The integer that an integer or a truth value reads as. -/
def Value.reading? : Value → Option Int
  | .int number => some number.toInt
  | .bool truth => some (if truth then 1 else 0)
  | _ => none

/-- The code is a list of integers and truth values that read as these integers. -/
def Code.Counts (items : Code) (numbers : List Int) : Prop :=
  List.Forall₂ (fun item number => ∃ value : Value,
    item.element.value? = some value ∧ value.reading? = some number) items numbers

/-- The integers that fit in 64 bits. -/
def InRange (number : Int) : Prop := -2 ^ 63 ≤ number ∧ number < 2 ^ 63

theorem inRange_toInt (number : Int64) : InRange number.toInt :=
  ⟨number.le_toInt, number.toInt_lt⟩

theorem toInt_ofInt_of_inRange {number : Int} (fits : InRange number) :
    (Int64.ofInt number).toInt = number :=
  Int64.toInt_ofInt_of_le fits.1 fits.2

theorem Literal.ofInt?_of_inRange {number : Int} (fits : InRange number) :
    ofInt? number = some (.int (.ofInt number)) := by
  unfold InRange at fits
  rw [ofInt?, Int64.toInt_minValue, Int64.toInt_maxValue, if_pos (by omega)]

theorem Literal.ofInt?_of_not_inRange {number : Int} (large : ¬ InRange number) :
    ofInt? number = none := by
  unfold InRange at large
  rw [ofInt?, Int64.toInt_minValue, Int64.toInt_maxValue, if_neg (by omega)]

namespace Operation

/-- Exact arithmetic: the result as an integer if it fits, else one of these failures. -/
inductive Exact (fits : Prop) (result : Int) (failure : Cause → Prop) : Except Cause Value → Prop
  | pushed (yes : fits) (number : Int64) (same : number.toInt = result) :
      Exact fits result failure (.ok (.int number))
  | stopped (no : ¬ fits) (cause : Cause) (fails : failure cause) :
      Exact fits result failure (.error cause)

/-- The failure of an integer result that does not fit, whatever it was made of. -/
def IsOverflow (cause : Cause) : Prop := ∃ a b, cause = overflow a b

/-- Division: by zero, of a multiple of the divisor, and of any other number. -/
inductive Divided (a b : Value) (x y : Int) : Except Cause Value → Prop
  | byZero (zero : y = 0) : Divided a b x y (.error .divisionByZero)
  | whole (nonzero : y ≠ 0) {q : Int} (multiple : q * y = x) {outcome : Except Cause Value}
      (exact : Exact (InRange q) q (· = overflow a b) outcome) : Divided a b x y outcome
  | fraction (nonzero : y ≠ 0) (remains : ¬ y ∣ x) :
      Divided a b x y (.ok (.float (a.toFloat / b.toFloat)))

/-- The words that are exact on integers, and what they are there. -/
inductive Integral : String → (Int → Int → Int) → Prop
  | add : Integral "+" (· + ·)
  | subtract : Integral "-" (· - ·)
  | multiply : Integral "*" (· * ·)

theorem Exact.congr {fits fits' : Prop} {result result' : Int} {failure failure' : Cause → Prop}
    {outcome : Except Cause Value} (exact : Exact fits result failure outcome)
    (same : fits ↔ fits') (same' : result = result')
    (weaker : ∀ cause, failure cause → failure' cause) : Exact fits' result' failure' outcome := by
  cases exact with
  | pushed yes number is => exact .pushed (same.1 yes) number (is.trans same')
  | stopped no cause fails => exact .stopped (mt same.2 no) cause (weaker cause fails)

/-- An overflow is not a want of room. -/
theorem Exact.not_isOverrun {fits : Prop} {result : Int} {outcome : Except Cause Value}
    (exact : Exact fits result IsOverflow outcome) (cause : Cause)
    (stopped : outcome.map ([·]) = .error cause) : ¬ cause.IsOverrun := by
  rintro ⟨limit, rfl⟩
  cases exact with
  | pushed => cases stopped
  | stopped _ cause fails =>
      obtain ⟨a, b, rfl⟩ := fails
      cases stopped

/-! ## Single operations -/

theorem exact_of_inRange (a b : Value) {result : Int} (fits : InRange result) :
    exact a b result = .ok (.int (.ofInt result)) := by
  rw [exact, Literal.ofInt?_of_inRange fits]

theorem exact_of_not_inRange (a b : Value) {result : Int} (large : ¬ InRange result) :
    exact a b result = .error (overflow a b) := by
  rw [exact, Literal.ofInt?_of_not_inRange large]

theorem exact_exact (a b : Value) (result : Int) :
    Exact (InRange result) result (· = overflow a b) (exact a b result) := by
  by_cases fits : InRange result
  · rw [exact_of_inRange a b fits]
    exact .pushed fits _ (toInt_ofInt_of_inRange fits)
  · rw [exact_of_not_inRange a b fits]
    exact .stopped fits _ rfl

/-- A value with a reading is a number, but no float, and is reckoned as its reading. -/
theorem reckons_of_reading {value : Value} {x : Int} (read : value.reading? = some x) :
    value.isNumeric = true ∧ value.isFloat = false ∧ value.isString = false ∧
      value.toInt.toInt = x := by
  cases value with
  | int number => exact ⟨rfl, rfl, rfl, Option.some.inj read⟩
  | bool truth =>
      obtain rfl := Option.some.inj read
      cases truth <;> exact ⟨rfl, rfl, rfl, rfl⟩
  | float number => cases read
  | string text => cases read
  | list code => cases read

/-- The difference of two numbers. -/
def difference (a b : Value) : Except Cause Value :=
  arithmetic a b (· - ·) fun x y => exact a b (x - y)

/-- The product of two numbers. -/
def product (a b : Value) : Except Cause Value :=
  arithmetic a b (· * ·) fun x y => exact a b (x * y)

section
variable {a b : Value} {x y : Int} (first : a.reading? = some x) (second : b.reading? = some y)
include first second

/-- Two integers or truth values are reckoned as integers. -/
theorem arithmetic_of_readings (onFloats : Float → Float → Float)
    (onInts : Int → Int → Except Cause Value) : arithmetic a b onFloats onInts = onInts x y := by
  obtain ⟨number, whole, -, same⟩ := reckons_of_reading first
  obtain ⟨number', whole', -, same'⟩ := reckons_of_reading second
  simp [arithmetic, number, number', whole, whole', same, same']

theorem sum_of_readings : sum a b = exact a b (x + y) := by
  obtain ⟨-, -, text, -⟩ := reckons_of_reading first
  obtain ⟨-, -, text', -⟩ := reckons_of_reading second
  rw [sum, text, text', Bool.or_false, if_neg Bool.false_ne_true]
  exact arithmetic_of_readings first second _ _

theorem difference_of_readings : difference a b = exact a b (x - y) :=
  arithmetic_of_readings first second _ _

theorem product_of_readings : product a b = exact a b (x * y) :=
  arithmetic_of_readings first second _ _

theorem quotient_divided : Divided a b x y (quotient a b) := by
  rw [quotient, arithmetic_of_readings first second]
  by_cases zero : y = 0
  · rw [if_pos zero]
    exact .byZero zero
  rw [if_neg zero]
  by_cases divides : y ∣ x
  · rw [if_pos (Int.dvd_iff_tmod_eq_zero.1 divides)]
    exact .whole zero (Int.tdiv_mul_cancel divides) (exact_exact a b _)
  · rw [if_neg (mt Int.dvd_iff_tmod_eq_zero.2 divides)]
    exact .fraction zero divides

end

/-! ## Folds -/

/-- The values of a list, combined by exact arithmetic: the exact result if every partial result
fits, and an overflow otherwise. -/
theorem exact_combined {f : Int → Int → Int} {combine : Value → Value → Except Cause Value}
    (agrees : ∀ a b x y, a.reading? = some x → b.reading? = some y →
      combine a b = exact a b (f x y))
    {items : Code} {numbers : List Int} (counts : items.Counts numbers) (initial : Int64) :
    Exact (∀ n, InRange ((numbers.take n).foldl (fun result x => f x result) initial.toInt))
      (numbers.foldl (fun result x => f x result) initial.toInt) IsOverflow
      (Leaves.combined combine (.int initial) items) := by
  induction counts generalizing initial with
  | nil =>
      refine .pushed (fun n => ?_) initial rfl
      rw [List.take_nil]
      exact inRange_toInt initial
  | @cons item x items numbers head _ ih =>
      obtain ⟨value, read, reading⟩ := head
      have step : Leaves.combined combine (.int initial) (item :: items) =
          combine value (.int initial) >>= fun result => Leaves.combined combine result items := by
        rw [Leaves.combined, Instruction.value, read]
        rfl
      rw [step, agrees value _ x initial.toInt reading rfl]
      -- The first partial result fits, and the rest goes on from it, or the loop stops at it.
      by_cases fits : InRange (f x initial.toInt)
      · rw [exact_of_inRange _ _ fits]
        refine (ih (.ofInt (f x initial.toInt))).congr ?_ ?_ fun _ => id
        · rw [toInt_ofInt_of_inRange fits]
          constructor
          · intro all n
            cases n with
            | zero => exact inRange_toInt initial
            | succ n => exact all n
          · exact fun all n => all (n + 1)
        · rw [toInt_ofInt_of_inRange fits]
          rfl
      · rw [exact_of_not_inRange _ _ fits]
        exact .stopped (fun all => fits (all 1)) _ ⟨_, _, rfl⟩

/-- A first value and the ones added to it, one by one. -/
theorem foldl_add (numbers : List Int) (initial : Int) :
    numbers.foldl (fun result x => x + result) initial = initial + numbers.sum := by
  induction numbers generalizing initial with
  | nil => simp
  | cons x rest ih =>
      rw [List.foldl_cons, ih, List.sum_cons]
      omega

/-- A first value and the ones it is multiplied by, one by one. -/
theorem foldl_mul (numbers : List Int) (initial : Int) :
    numbers.foldl (fun result x => x * result) initial = initial * numbers.prod := by
  induction numbers generalizing initial with
  | nil => simp
  | cons x rest ih => rw [List.foldl_cons, ih, List.prod_cons, mul_comm x, mul_assoc]

theorem exact_sum {items : Code} {numbers : List Int} (counts : items.Counts numbers) :
    Exact (∀ n, InRange (numbers.take n).sum) numbers.sum IsOverflow
      (Leaves.combined sum (.int 0) items) := by
  have exact := exact_combined (fun a b x y first second => sum_of_readings first second) counts 0
  refine exact.congr ?_ ?_ fun _ => id
  · simp only [foldl_add, Int64.toInt_zero, zero_add]
  · rw [foldl_add, Int64.toInt_zero, zero_add]

theorem exact_prod {items : Code} {numbers : List Int} (counts : items.Counts numbers) :
    Exact (∀ n, InRange (numbers.take n).prod) numbers.prod IsOverflow
      (Leaves.combined product (.int 1) items) := by
  have exact := exact_combined (fun a b x y first second => product_of_readings first second)
    counts 1
  refine exact.congr ?_ ?_ fun _ => id
  · simp only [foldl_mul, Int64.toInt_one, one_mul]
  · rw [foldl_mul, Int64.toInt_one, one_mul]

/-- A negation is a difference from zero. -/
theorem exact_neg {value : Value} {x : Int} (reading : value.reading? = some x) :
    Exact (InRange (-x)) (-x) IsOverflow (difference (.int 0) value) := by
  have zero : Value.reading? (.int 0) = some 0 := rfl
  rw [difference_of_readings zero reading]
  exact (exact_exact _ _ _).congr (by rw [Int.zero_sub]) (Int.zero_sub x) fun _ is => ⟨_, _, is⟩

/-! ## Factorials -/

/-- The integers from one up, multiplied. -/
theorem prod_range (count : Nat) :
    ((List.range count).map fun offset : Nat => 1 + (offset : Int)).prod = (count ! : Int) := by
  induction count with
  | zero => rfl
  | succ count ih =>
      rw [List.range_succ, List.map_append, List.prod_append, ih, Nat.factorial_succ]
      simp [mul_comm, add_comm]

/-- The integers from one up to another, as values. -/
theorem counts_counting (high : Int64) :
    Code.Counts (counting 1 high.toInt) (integers 1 high.toInt) := by
  refine List.forall₂_map_left_iff.2 (List.forall₂_same.2 fun number mem => ?_)
  refine ⟨.int (.ofInt number), rfl, congrArg some (toInt_ofInt_of_inRange ?_)⟩
  obtain ⟨offset, below, rfl⟩ := List.mem_map.1 mem
  have least := high.toInt_lt
  rw [List.mem_range] at below
  unfold InRange
  omega

/-- A factorial fits if all that come before it do. -/
theorem inRange_factorial_iff (high : Int64) :
    (∀ n, InRange ((integers 1 high.toInt).take n).prod) ↔ InRange (high.toInt.toNat ! : Int) := by
  have whole : (integers 1 high.toInt) =
      (List.range high.toInt.toNat).map fun offset : Nat => 1 + (offset : Int) := by
    rw [integers, show high.toInt + 1 - 1 = high.toInt by omega]
  have part (n : Nat) : ((integers 1 high.toInt).take n).prod =
      ((min n high.toInt.toNat) ! : Int) := by
    rw [whole, ← List.map_take, List.take_range, prod_range]
  constructor
  · intro all
    have last := all high.toInt.toNat
    rwa [part, Nat.min_self] at last
  · intro ⟨_, fits⟩ n
    rw [part]
    have le : (min n high.toInt.toNat)! ≤ high.toInt.toNat ! :=
      Nat.factorial_le (Nat.min_le_right ..)
    constructor <;> omega

theorem exact_factorial (high : Int64) :
    Exact (InRange (high.toInt.toNat ! : Int)) (high.toInt.toNat ! : Int) IsOverflow
      (Leaves.combined product (.int 1) (counting 1 high.toInt)) := by
  refine (exact_prod (counts_counting high)).congr (inRange_factorial_iff high) ?_ fun _ => id
  rw [integers, show high.toInt + 1 - 1 = high.toInt by omega, prod_range]

end Operation

/-! ## Words of the prelude -/

namespace Prelude.Makes

open Operation

variable {depth : Nat} {op : Operation} {combine : Value → Value → Except Cause Value}

/-- An operation on two values that gives one. -/
theorem binary (gives : ∀ a b, op.apply [a, b] = one (combine a b))
    (arity : (Primitive.operation op).arity = 2) (a b : Value) :
    Makes (depth + 1) [b, a] [.op op] ((combine a b).map ([·])) := by
  have makes : Makes (depth + 1) [b, a] [.op op] _ := operation [a, b] arity
  have single : (one (combine a b)).map (·.reverse ++ []) = (combine a b).map ([·]) := by
    cases combine a b <;> rfl
  rwa [gives, single] at makes

/-- Exact arithmetic is done by an operation. -/
theorem exists_integral {name : String} {f : Int → Int → Int} (integral : Integral name f)
    {a b : Value} {x y : Int} (first : a.reading? = some x) (second : b.reading? = some y) :
    ∃ op : Operation, (Item.op op).name? = some name ∧
      Makes (depth + 1) [b, a] [.op op] ((exact a b (f x y)).map ([·])) := by
  cases integral with
  | add =>
      rw [← sum_of_readings first second]
      exact ⟨.add, rfl, binary (fun _ _ => rfl) rfl a b⟩
  | subtract =>
      rw [← difference_of_readings first second]
      exact ⟨.subtract, rfl, binary (fun _ _ => rfl) rfl a b⟩
  | multiply =>
      rw [← product_of_readings first second]
      exact ⟨.multiply, rfl, binary (fun _ _ => rfl) rfl a b⟩

/-- A word that folds a list with an operation combines its values with the operation. -/
theorem folding (gives : ∀ a b, op.apply [a, b] = one (combine a b))
    (arity : (Primitive.operation op).arity = 2) {text : String} {initial : Value}
    (read : Literal.read? text = some initial) (items : Code) :
    Makes (depth + 2) [.list items] [.literal text, .list [.op op], .primitive .fold]
      ((Leaves.combined combine initial items).map ([·])) :=
  .still (.of_does (literal read)) <| .list fun quotation reads =>
    .fold (fun a b => binary gives arity a b quotation reads) items initial

theorem sum (items : Code) :
    Makes (depth + 3) [.list items] [.word .sum]
      ((Leaves.combined Operation.sum (.int 0) items).map ([·])) :=
  .word <| folding (fun _ _ => rfl) rfl rfl items

theorem prod (items : Code) :
    Makes (depth + 3) [.list items] [.word .prod]
      ((Leaves.combined product (.int 1) items).map ([·])) :=
  .word <| folding (fun _ _ => rfl) rfl rfl items

/-- The integers from one up to another, where a vector has room for them. -/
theorem range_of_le {high : Int64} (fits : high.toInt ≤ Code.capacity) :
    Operation.range.apply [.int high, .int 1] = .ok [.list (counting 1 high.toInt)] := by
  have given : Operation.range.apply [.int high, .int 1] = one (counted 1 high.toInt) := rfl
  rw [given, counted_of_le (by omega)]
  rfl

theorem range_of_lt {high : Int64} (large : Code.capacity < high.toInt) :
    Operation.range.apply [.int high, .int 1] = .error .capacityOverflow := by
  refine range_of_overlong ⟨high, 1, rfl, ?_⟩
  rw [Int64.toInt_one]
  omega

theorem factorial_of_le {high : Int64} (fits : high.toInt ≤ Code.capacity) :
    Makes (depth + 4) [.int high] [.word .factorial]
      ((Leaves.combined product (.int 1) (counting 1 high.toInt)).map ([·])) :=
  .word <| .still (.of_does (literal rfl)) <|
    .still (.of_does (.operation [.int high, .int 1] [.list _] (range_of_le fits))) (prod _)

/-- Nothing is multiplied where the list of the integers cannot be made. -/
theorem factorial_of_lt {high : Int64} (large : Code.capacity < high.toInt) :
    Makes (depth + 4) [.int high] [.word .factorial] (.error .capacityOverflow) := by
  have counts : Makes (depth + 3) [.int 1, .int high] [.op .range] _ :=
    operation [.int high, .int 1] rfl
  rw [range_of_lt large] at counts
  exact .word <| .still (.of_does (literal rfl)) (.stops counts)

theorem neg (value : Value) :
    Makes (depth + 3) [value] [.word .neg] ((difference (.int 0) value).map ([·])) :=
  .word <| .still (.of_does (literal rfl)) <| .still (.of_does .swap) <|
    binary (fun _ _ => rfl) rfl (.int 0) value

theorem less_apply (number : Int64) :
    Operation.less.apply [.int number, .int 0] = .ok [.bool (decide (number.toInt < 0))] := by
  have compared : Operation.less.apply [.int number, .int 0] =
      .ok [.bool (compare number 0 == .lt)] := rfl
  have same : (compare number 0 == .lt) = decide (number.toInt < 0) := by
    rw [Bool.eq_iff_iff, beq_iff_eq, decide_eq_true_iff, Std.compare_eq_lt,
      Int64.lt_iff_toInt_lt, Int64.toInt_zero]
  rw [compared, same]

/-- A number that is not negative stays. -/
theorem abs_of_nonneg {number : Int64} (nonneg : 0 ≤ number.toInt) :
    Makes (depth + 5) [.int number] [.word .abs] (.ok [.int number]) := by
  have less := less_apply number
  rw [decide_eq_false (by omega)] at less
  refine of_does <| .word <| .still .dup <| .still (literal rfl) <|
    .still (.operation [.int number, .int 0] [.bool false] less) <| .list fun quotation _ => ?_
  exact .when .nil

/-- Any other is taken from zero. -/
theorem abs_of_neg {number : Int64} (negative : number.toInt < 0) :
    Makes 8 [.int number] [.word .abs]
      ((difference (.int 0) (.int number)).map ([·])) := by
  have less := less_apply number
  rw [decide_eq_true negative] at less
  refine .word <| .still (.of_does .dup) <| .still (.of_does (literal rfl)) <|
    .still (.of_does (.operation [.int number, .int 0] [.bool true] less)) <|
      .list fun quotation reads => ?_
  intro code reads'
  have chosen : Does 4 [.list quotation, .bool true, .int number] [.word .when]
      (pushing [.int number] ++ quotation) [] := .when (.itself quotation)
  have negated : Leaves 3 [] (pushing [.int number] ++ quotation)
      ((difference (.int 0) (.int number)).map ([·])) := .pushing (neg _ quotation reads)
  have exact := exact_neg (show Value.reading? (.int number) = some number.toInt from rfl)
  have leaves := Leaves.of_expands (chosen code reads') negated exact.not_isOverrun
  have same (outcome : Except Cause (List Value)) : outcome.map ([] ++ ·) = outcome := by
    cases outcome <;> rfl
  rwa [same] at leaves

end Prelude.Makes

/-! ## Calls by name -/

namespace Machine

open Operation Prelude

/-- The word that the name means comes to this outcome for these arguments, the last on top, and
pushes it as its only result. It needs eight calls at most, and is stopped for want of room where
there is not room for those that it needs. -/
def Answers (made : Machine) (name : String) (arguments : List Value)
    (outcome : Except Cause Value) : Prop :=
  ∃ word, made.bind name = some word ∧
    ∀ place : Option Location,
      Leaves 8 arguments.reverse [⟨place, .word word⟩] (outcome.map ([·]))

theorem answers_of_makes {limit : Nat} {host : Host} {made : Machine}
    (loaded : bootstrapped limit host = .ok made) {item : Item} {name : String}
    (named : item.name? = some name) {arguments : List Value} {outcome : Except Cause Value}
    (makes : Makes 8 arguments.reverse [item] (outcome.map ([·]))) :
    made.Answers name arguments outcome := by
  obtain ⟨word, bound, is⟩ := exists_bound loaded named
  exact ⟨word, bound, fun place => makes _ (.cons place is .nil)⟩

/-- **Integer arithmetic never wraps.** In every machine with the words of the language, `+`, `-`
and `*` push the exact result for integers and truth values if it fits in 64 bits, and stop with an
overflow otherwise. So does `/` where the divisor divides the other number; it stops for a divisor
of zero, and pushes a float in all other cases. The words made of these are exact as well: `sum` and
`prod` if every partial result fits, from the first value to the last, and `factorial`, `neg` and
`abs` if the result does. Otherwise they stop with an overflow. Only for a number that is larger
than a list can be long does `factorial` do neither: it makes the list of the integers up to the
number before it multiplies any of them, and panics over that. -/
theorem integer_arithmetic_never_wraps {limit : Nat} {host : Host} {made : Machine}
    (loaded : bootstrapped limit host = .ok made) :
    (∀ name f, Integral name f → ∀ a b x y, a.reading? = some x → b.reading? = some y →
      ∃ outcome, made.Answers name [a, b] outcome ∧
        Exact (InRange (f x y)) (f x y) (· = overflow a b) outcome) ∧
    (∀ a b x y, a.reading? = some x → b.reading? = some y →
      ∃ outcome, made.Answers "/" [a, b] outcome ∧ Divided a b x y outcome) ∧
    (∀ (items : Code) (numbers : List Int), items.Counts numbers →
      ∃ outcome, made.Answers "sum" [.list items] outcome ∧
        Exact (∀ n, InRange (numbers.take n).sum) numbers.sum IsOverflow outcome) ∧
    (∀ (items : Code) (numbers : List Int), items.Counts numbers →
      ∃ outcome, made.Answers "prod" [.list items] outcome ∧
        Exact (∀ n, InRange (numbers.take n).prod) numbers.prod IsOverflow outcome) ∧
    (∀ number : Int64, number.toInt ≤ Code.capacity →
      ∃ outcome, made.Answers "factorial" [.int number] outcome ∧
        Exact (InRange (number.toInt.toNat ! : Int)) (number.toInt.toNat ! : Int) IsOverflow
          outcome) ∧
    (∀ number : Int64, Code.capacity < number.toInt →
      made.Answers "factorial" [.int number] (.error .capacityOverflow)) ∧
    (∀ value x, value.reading? = some x → ∃ outcome, made.Answers "neg" [value] outcome ∧
      Exact (InRange (-x)) (-x) IsOverflow outcome) ∧
    (∀ number : Int64, ∃ outcome, made.Answers "abs" [.int number] outcome ∧
      Exact (InRange (number.toInt.natAbs : Int)) (number.toInt.natAbs : Int) IsOverflow
        outcome) := by
  refine ⟨?_, ?_, ?_, ?_, ?_, ?_, ?_, ?_⟩
  · intro name f integral a b x y first second
    obtain ⟨op, named, makes⟩ := Makes.exists_integral integral first second
    exact ⟨_, answers_of_makes loaded named makes, exact_exact a b (f x y)⟩
  · intro a b x y first second
    refine ⟨quotient a b, ?_, quotient_divided first second⟩
    exact answers_of_makes loaded (show (Item.op .divide).name? = some "/" from rfl)
      (.binary (fun _ _ => rfl) rfl a b)
  · intro items numbers counts
    exact ⟨_, answers_of_makes loaded (show (Item.word .sum).name? = some "sum" from rfl)
      (.sum items), exact_sum counts⟩
  · intro items numbers counts
    exact ⟨_, answers_of_makes loaded (show (Item.word .prod).name? = some "prod" from rfl)
      (.prod items), exact_prod counts⟩
  · intro number fits
    exact ⟨_, answers_of_makes loaded
      (show (Item.word .factorial).name? = some "factorial" from rfl) (.factorial_of_le fits),
      exact_factorial number⟩
  · intro number large
    exact answers_of_makes loaded
      (show (Item.word .factorial).name? = some "factorial" from rfl) (.factorial_of_lt large)
  · intro value x reading
    exact ⟨_, answers_of_makes loaded (show (Item.word .neg).name? = some "neg" from rfl)
      (.neg value), exact_neg reading⟩
  · intro number
    have named : (Item.word .abs).name? = some "abs" := rfl
    rcases Int.lt_or_le number.toInt 0 with negative | nonneg
    · refine ⟨_, answers_of_makes loaded named (.abs_of_neg negative), ?_⟩
      rw [Int.ofNat_natAbs_of_nonpos (Int.le_of_lt negative)]
      exact exact_neg rfl
    · refine ⟨.ok (.int number), answers_of_makes loaded named (.abs_of_nonneg nonneg), ?_⟩
      rw [Int.natAbs_of_nonneg nonneg]
      exact .pushed (inRange_toInt number) number rfl

/-- A sum stops at the largest integer and `true`, though the `-1` behind them would take it back
into range; and the smallest integer is not divided by `-1`. -/
theorem integer_arithmetic_never_wraps_at_bounds :
    let items : Code := [.made (.ofValue (.int .maxValue)), .made (.ofValue (.bool true)),
      .made (.ofValue (.int (-1)))]
    let fresh : Machine := new 8 .empty
    ∃ made word word' fault fault' last last', bootstrapped 50 .empty = .ok made ∧
      made.bind "sum" = some word ∧ made.bind "/" = some word' ∧
      runCode [⟨none, .word word⟩] (fresh.topped [.list items]) = .error fault last ∧
      IsOverflow fault.cause ∧
      runCode [⟨none, .word word'⟩] (fresh.topped [.int (-1), .int .minValue]) =
        .error fault' last' ∧
      fault'.cause = overflow (.int .minValue) (.int (-1)) := by
  intro items fresh
  obtain ⟨made, loaded, -⟩ := exists_bootstrapped (show 0 < 50 by decide) .empty
  obtain ⟨-, divides, sums, -⟩ := integer_arithmetic_never_wraps loaded
  have counts : items.Counts [2 ^ 63 - 1, 1, -1] :=
    .cons ⟨_, rfl, rfl⟩ (.cons ⟨_, rfl, rfl⟩ (.cons ⟨_, rfl, rfl⟩ .nil))
  obtain ⟨_, ⟨word, bound, leaves⟩, exact⟩ := sums items _ counts
  obtain ⟨_, ⟨word', bound', leaves'⟩, divided⟩ :=
    divides (.int .minValue) (.int (-1)) (-2 ^ 63) (-1) rfl rfl
  have stops : fresh.ComesTo _ _ := leaves none fresh (.inl (by decide))
  have stops' : fresh.ComesTo _ _ := leaves' none fresh (.inl (by decide))
  -- The partial sum behind the first two items is out of range, so nothing was pushed.
  cases exact with
  | pushed yes => exact absurd (yes 2).2 (by decide)
  | stopped _ cause fails =>
      obtain ⟨fault, last, ran, rfl⟩ := stops.exists_error
      cases divided with
      | byZero zero => exact absurd zero (by decide)
      | fraction _ remains => exact absurd ⟨2 ^ 63, rfl⟩ remains
      | @whole _ q multiple _ exact' =>
          cases exact' with
          | pushed yes => exact absurd yes.2 (by omega)
          | stopped _ cause' same =>
              obtain ⟨fault', last', ran', cause⟩ := stops'.exists_error
              exact ⟨made, word, word', fault, fault', last, last', loaded, bound, bound', ran,
                fails, ran', cause.trans same⟩

/-- The factorial of the largest integer is neither pushed nor an overflow: the run panics. -/
theorem factorial_of_maxValue_panics :
    ∃ made word fault last, bootstrapped 50 .empty = .ok made ∧
      made.bind "factorial" = some word ∧
      runCode [⟨none, .word word⟩] ((new 8 .empty).topped [.int .maxValue]) = .error fault last ∧
      fault.isPanic = true ∧ ¬ IsOverflow fault.cause := by
  obtain ⟨made, loaded, -⟩ := exists_bootstrapped (show 0 < 50 by decide) .empty
  have large : Code.capacity < (Int64.maxValue).toInt := by decide
  obtain ⟨word, bound, leaves⟩ : made.Answers "factorial" [.int .maxValue]
      (.error .capacityOverflow) :=
    answers_of_makes loaded (show (Item.word .factorial).name? = some "factorial" from rfl)
      (.factorial_of_lt large)
  have stops : (new 8 .empty).ComesTo _ _ := leaves none (new 8 .empty) (.inl (by decide))
  obtain ⟨fault, last, ran, cause⟩ := stops.exists_error
  refine ⟨made, word, fault, last, loaded, bound, ran, decide_eq_true cause, ?_⟩
  rintro ⟨a, b, same⟩
  cases cause.symm.trans same

end Machine

end LiveStack
