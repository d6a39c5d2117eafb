import LiveStack.Proofs.Run.Execution

/-!
# What values are refused for

A built-in word may refuse the values that it takes. The cause then lies in the values, with one
exception: `range` refuses two integers where the list from one to the other would be longer than a
vector can be. So nothing but a call can stop a run for the depth of the calls, and nothing but a
call of `range` can make it panic.
-/

namespace LiveStack

/-- The failure of a call that there is no room for. -/
def Cause.IsOverrun (cause : Cause) : Prop :=
  ∃ limit, cause = .callDepthExceeded limit

/-- Whether the cause lies in the values that a word was given, and in no limit of the machine. -/
def Cause.isRefusal : Cause → Bool
  | .callDepthExceeded _ | .capacityOverflow => false
  | _ => true

/-- If the check fails, the cause lies in the values. -/
def RefusesOnly {α : Type} (checked : Except Cause α) : Prop :=
  ∀ cause, checked = .error cause → cause.isRefusal = true

/-- Two integers with more integers from one to the other than a vector has room for. -/
def Overlong (values : List Value) : Prop :=
  ∃ high low : Int64, values = [.int high, .int low] ∧
    Code.capacity < (high.toInt + 1 - low.toInt).toNat

namespace RefusesOnly

variable {α β : Type}

theorem ok (value : α) : RefusesOnly (.ok value) := nofun

theorem error {cause : Cause} (refusal : cause.isRefusal = true) :
    RefusesOnly (.error cause : Except Cause α) := by
  rintro _ ⟨⟩
  exact refusal

theorem bind {checked : Except Cause α} (refuses : RefusesOnly checked) {next : α → Except Cause β}
    (nexts : ∀ value, RefusesOnly (next value)) : RefusesOnly (checked >>= next) := by
  cases checked with
  | error cause => exact error (refuses cause rfl)
  | ok value => exact nexts value

theorem asList (value : Value) : RefusesOnly value.asList := by
  cases value <;> first | exact ok _ | exact error rfl

theorem asString (value : Value) : RefusesOnly value.asString := by
  cases value <;> first | exact ok _ | exact error rfl

theorem value (item : Instruction) : RefusesOnly item.value := by
  rw [Instruction.value]
  split
  · exact ok _
  · exact error rfl

theorem exact (a b : Value) (result : Int) : RefusesOnly (Operation.exact a b result) := by
  rw [Operation.exact]
  split
  · exact ok _
  · exact error rfl

theorem arithmetic (a b : Value) (onFloats : Float → Float → Float)
    {onInts : Int → Int → Except Cause Value} (ints : ∀ x y, RefusesOnly (onInts x y)) :
    RefusesOnly (Operation.arithmetic a b onFloats onInts) := by
  rw [Operation.arithmetic]
  split
  · exact error rfl
  · split
    · exact error rfl
    · split
      · exact ok _
      · exact ints _ _

theorem sum (a b : Value) : RefusesOnly (Operation.sum a b) := by
  rw [Operation.sum]
  split
  · exact ok _
  · exact arithmetic _ _ _ fun _ _ => exact _ _ _

theorem quotient (a b : Value) : RefusesOnly (Operation.quotient a b) := by
  refine arithmetic _ _ _ fun x y => ?_
  split
  · exact error rfl
  · split
    · exact exact _ _ _
    · exact ok _

theorem remainder (a b : Value) : RefusesOnly (Operation.remainder a b) := by
  refine arithmetic _ _ _ fun x y => ?_
  split
  · exact error rfl
  · exact (exact _ _ _).bind fun _ => exact _ _ _

theorem ordered (a b : Value) (test : Ordering → Bool) :
    RefusesOnly (Operation.ordered a b test) := by
  rw [Operation.ordered]
  split
  · exact ok _
  · split
    · exact ok _
    · exact error rfl

theorem size (value : Value) : RefusesOnly (Operation.size value) := by
  cases value <;> first | exact ok _ | exact error rfl

theorem uncons (list : Value) : RefusesOnly (Operation.uncons list) := by
  refine (asList list).bind fun code => ?_
  cases code with
  | nil => exact error rfl
  | cons head tail => exact (value head).bind fun _ => ok _

theorem one {result : Except Cause Value} (refuses : RefusesOnly result) :
    RefusesOnly (Operation.one result) := by
  cases result with
  | error cause => exact error (refuses cause rfl)
  | ok value => exact ok _

/-- The operations other than `range`. -/
theorem apply {op : Operation} (other : op ≠ .range) (values : List Value) :
    RefusesOnly (op.apply values) := by
  rw [Operation.apply.eq_def]
  split <;> first
    | exact absurd rfl other
    | exact ok _
    | exact error rfl
    | exact uncons _
    | refine one ?_
  all_goals first
    | exact sum _ _
    | exact quotient _ _
    | exact remainder _ _
    | exact ordered _ _ _
    | exact size _
    | exact arithmetic _ _ _ fun _ _ => exact _ _ _
    | exact (asList _).bind fun _ => ok _

theorem arguments (name : String) (count : Nat) (machine : Machine) :
    RefusesOnly (Execution.arguments name count machine) := by
  rw [Execution.arguments]
  split
  · exact ok _
  · exact error rfl

theorem top (machine : Machine) : RefusesOnly (Execution.top machine) := by
  rw [Execution.top]
  split
  · exact ok _
  · exact error rfl

end RefusesOnly

namespace Operation

/-- Of the integers from one to another there is a list, unless they are too many. -/
theorem counted_of_le {low high : Int} (fits : (high + 1 - low).toNat ≤ Code.capacity) :
    counted low high = .ok (.list (counting low high)) := by
  rw [counted, if_pos fits]

theorem counted_of_lt {low high : Int} (large : Code.capacity < (high + 1 - low).toNat) :
    counted low high = .error .capacityOverflow := by
  rw [counted, if_neg (Nat.not_le.2 large)]

/-- Two integers that are too far apart are not refused: `range` asks for the list. -/
theorem range_of_overlong {values : List Value} (overlong : Overlong values) :
    Operation.range.apply values = .error .capacityOverflow := by
  obtain ⟨high, low, rfl, large⟩ := overlong
  have given : Operation.range.apply [.int high, .int low] =
      one (counted low.toInt high.toInt) := rfl
  rw [given, counted_of_lt large]
  rfl

/-- What is no list of integers is refused, or it is too long. -/
theorem refuses_span (high low : Value) : RefusesOnly (span high low) ∨ Overlong [high, low] := by
  match high, low with
  | .int high, .int low =>
      have given : span (.int high) (.int low) = counted low.toInt high.toInt := rfl
      rw [given]
      rcases Nat.lt_or_ge Code.capacity (high.toInt + 1 - low.toInt).toNat with large | fits
      · exact .inr ⟨high, low, rfl, large⟩
      · exact .inl (counted_of_le fits ▸ .ok _)
  | .int _, .float _ | .int _, .bool _ | .int _, .string _ | .int _, .list _ =>
      exact .inl (.error rfl)
  | .float _, _ | .bool _, _ | .string _, _ | .list _, _ => exact .inl (.error rfl)

/-- An operation refuses its values, if it does not give any, for what they are; or it is `range`,
and the list would be too long. -/
theorem refuses_apply (op : Operation) (values : List Value) :
    RefusesOnly (op.apply values) ∨ op = .range ∧ Overlong values := by
  by_cases range : op = .range
  · subst range
    match values with
    | [high, low] =>
        have given : Operation.range.apply [high, low] = one (span high low) := rfl
        rw [given]
        exact (refuses_span high low).imp .one fun overlong => ⟨rfl, overlong⟩
    | [] | [_] | _ :: _ :: _ :: _ => exact .inl (.error rfl)
  · exact .inl (.apply range values)

end Operation

/-- Before it runs any code, a built-in word stops for its values only, unless it is `range` and the
list would be too long. -/
theorem Primitive.refuses_work {primitive : Primitive} {values : List Value}
    {results : Except Cause (List Value)} (given : primitive.work values = .give results) :
    RefusesOnly results ∨ primitive = .operation .range ∧ Overlong values := by
  unfold Primitive.work at given
  split at given <;> cases given <;> first
    | exact .inl (.error rfl)
    | exact (Operation.refuses_apply _ _).imp_right fun ⟨range, rest⟩ => ⟨congrArg _ range, rest⟩

end LiveStack
