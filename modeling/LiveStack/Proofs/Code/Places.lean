import Mathlib.Data.List.Basic
import LiveStack.Operation

/-!
# Code without its places

The same tokens read in two texts give the same code but for the places in it. Nothing that the
language can see of a value depends on these: forgetting them changes neither how a value is
written and compared nor what an operation makes of it. So every function of values here commutes
with forgetting the places.
-/

namespace LiveStack

mutual

/-- The value with the places in it forgotten. -/
def Value.unplaced : Value → Value
  | .int number => .int number
  | .float number => .float number
  | .bool truth => .bool truth
  | .string text => .string text
  | .list code => .list (Code.unplaced code)

/-- The element with the places in it forgotten. -/
def Element.unplaced : Element → Element
  | .word word => .word word.unplaced
  | .literal text value => .literal text value.unplaced
  | .quote code => .quote (Code.unplaced code)
  | .unknown text => .unknown text

/-- The instruction with its place, and the places in it, forgotten. -/
def Instruction.unplaced : Instruction → Instruction
  | ⟨_, element⟩ => ⟨none, element.unplaced⟩

/-- The handler with the places in it forgotten. -/
def Handler.unplaced : Handler → Handler
  | .primitive primitive => .primitive primitive
  | .secondary body => .secondary (Code.unplaced body)

/-- The word with the places in it forgotten. -/
def Word.unplaced : Word → Word
  | ⟨name, handler⟩ => ⟨name, handler.unplaced⟩

/-- The code with the places in it forgotten. -/
def Code.unplaced : List Instruction → List Instruction
  | [] => []
  | instruction :: rest => instruction.unplaced :: Code.unplaced rest

end

theorem Code.unplaced_eq_map (code : Code) :
    Code.unplaced code = code.map Instruction.unplaced := by
  induction code with
  | nil => rfl
  | cons instruction rest ih => rw [Code.unplaced, ih, List.map_cons]

@[simp] theorem Word.name_unplaced (word : Word) : word.unplaced.name = word.name := by
  cases word
  rfl

/-! ## Written text -/

mutual

theorem Element.write_unplaced (front : String) (element : Element) :
    element.unplaced.write front = element.write front := by
  match element with
  | .word ⟨name, handler⟩ => rfl
  | .literal text value => rfl
  | .quote code =>
      rw [Element.unplaced, Element.write, Element.write,
        Code.writeItems_unplaced (front ++ "[ ") code]
  | .unknown text => rfl

theorem Code.writeItems_unplaced (front : String) (code : List Instruction) :
    Code.writeItems front (Code.unplaced code) = Code.writeItems front code := by
  match code with
  | [] => rfl
  | ⟨location, element⟩ :: rest =>
      rw [Code.unplaced, Instruction.unplaced, Code.writeItems, Code.writeItems,
        Element.write_unplaced front element, Code.writeItems_unplaced _ rest]

end

@[simp] theorem Element.render_unplaced (element : Element) :
    element.unplaced.render = element.render := Element.write_unplaced "" element

namespace Value

@[simp] theorem render_unplaced (value : Value) : value.unplaced.render = value.render := by
  cases value with
  | list code => exact Element.render_unplaced (.quote code)
  | _ => rfl

@[simp] theorem source_unplaced (value : Value) : value.unplaced.source = value.source := by
  cases value with
  | list code => exact render_unplaced (.list code)
  | _ => rfl

@[simp] theorem describe_unplaced (value : Value) :
    value.unplaced.describe = value.describe := by
  rw [describe, describe, source_unplaced]
  cases value <;> rfl

/-! ## Values read as truths and numbers -/

@[simp] theorem isNumeric_unplaced (value : Value) :
    value.unplaced.isNumeric = value.isNumeric := by
  cases value <;> rfl

@[simp] theorem isTextual_unplaced (value : Value) :
    value.unplaced.isTextual = value.isTextual := by
  cases value <;> rfl

@[simp] theorem isInt_unplaced (value : Value) : value.unplaced.isInt = value.isInt := by
  cases value <;> rfl

@[simp] theorem isFloat_unplaced (value : Value) : value.unplaced.isFloat = value.isFloat := by
  cases value <;> rfl

@[simp] theorem isString_unplaced (value : Value) : value.unplaced.isString = value.isString := by
  cases value <;> rfl

@[simp] theorem truth_unplaced (value : Value) : value.unplaced.truth = value.truth := by
  cases value <;> rfl

@[simp] theorem toInt_unplaced (value : Value) : value.unplaced.toInt = value.toInt := by
  cases value <;> rfl

@[simp] theorem toFloat_unplaced (value : Value) : value.unplaced.toFloat = value.toFloat := by
  cases value <;> rfl

/-! ## Equality and order -/

@[simp] theorem sameAtom_unplaced (a b : Value) :
    a.unplaced.sameAtom b.unplaced = a.sameAtom b := by
  simp [sameAtom, sameNumber]

@[simp] theorem compare?_unplaced (a b : Value) :
    a.unplaced.compare? b.unplaced = a.compare? b := by
  cases a <;> cases b <;> rfl

end Value

mutual

theorem Value.same_unplaced (a b : Value) : a.unplaced.same b.unplaced = a.same b := by
  match a, b with
  | .list a, .list b =>
      rw [Value.unplaced, Value.unplaced, Value.same, Value.same, Code.same_unplaced a b]
  | .list _, .int _ | .list _, .float _ | .list _, .bool _ | .list _, .string _ => rfl
  | .int _, b | .float _, b | .bool _, b | .string _, b => cases b <;> rfl

theorem Element.same_unplaced (a b : Element) : a.unplaced.same b.unplaced = a.same b := by
  match a, b with
  | .literal text a, .literal text' b =>
      rw [Element.unplaced, Element.unplaced, Element.same, Element.same, Value.same_unplaced a b]
  | .quote a, .quote b =>
      rw [Element.unplaced, Element.unplaced, Element.same, Element.same, Code.same_unplaced a b]
  | .word ⟨_, _⟩, .word ⟨_, _⟩ => rfl
  | .word _, .literal .. | .word _, .quote _ | .word _, .unknown _ => rfl
  | .unknown _, b => cases b <;> rfl
  | .literal .., .word _ | .literal .., .quote _ | .literal .., .unknown _ => rfl
  | .quote _, .word _ | .quote _, .literal .. | .quote _, .unknown _ => rfl

theorem Code.same_unplaced (a b : List Instruction) :
    Code.same (Code.unplaced a) (Code.unplaced b) = Code.same a b := by
  match a, b with
  | [], [] => rfl
  | ⟨_, a⟩ :: as, ⟨_, b⟩ :: bs =>
      rw [Code.unplaced, Code.unplaced, Instruction.unplaced, Instruction.unplaced, Code.same,
        Code.same, Element.same_unplaced a b, Code.same_unplaced as bs]
  | [], _ :: _ => rfl
  | ⟨_, _⟩ :: _, [] => rfl

end

/-! ## Data taken from values -/

@[simp] theorem Element.ofValue_unplaced (value : Value) :
    Element.ofValue value.unplaced = (Element.ofValue value).unplaced := by
  cases value <;> rfl

theorem Instruction.made_unplaced (element : Element) :
    (Instruction.made element).unplaced = .made element.unplaced := rfl

theorem Instruction.value_unplaced (item : Instruction) :
    item.unplaced.value = item.value.map Value.unplaced := by
  obtain ⟨location, element⟩ := item
  cases element with
  | word word =>
      show Except.error (Cause.typeMismatch "list of values"
        s!"word {(Element.word word).unplaced.render}") = _
      rw [Element.render_unplaced]
      rfl
  | literal text value => rfl
  | quote code => rfl
  | unknown text => rfl

namespace Value

theorem asInt_unplaced (value : Value) : value.unplaced.asInt = value.asInt := by
  cases value with
  | list code =>
      show Except.error (Cause.typeMismatch "int" (Value.list code).unplaced.describe) = _
      rw [describe_unplaced]
      rfl
  | _ => rfl

theorem asString_unplaced (value : Value) : value.unplaced.asString = value.asString := by
  cases value with
  | list code =>
      show Except.error (Cause.typeMismatch "string" (Value.list code).unplaced.describe) = _
      rw [describe_unplaced]
      rfl
  | _ => rfl

theorem asList_unplaced (value : Value) :
    value.unplaced.asList = value.asList.map Code.unplaced := by
  cases value <;> rfl

end Value

/-! ## Operations -/

namespace Operation

@[simp] theorem overflow_unplaced (a b : Value) :
    overflow a.unplaced b.unplaced = overflow a b := by
  simp [overflow]

@[simp] theorem exact_unplaced (a b : Value) (result : Int) :
    exact a.unplaced b.unplaced result = exact a b result := by
  simp [exact]

theorem map_exact (a b : Value) (result : Int) :
    (exact a b result).map Value.unplaced = exact a b result := by
  rw [exact, Literal.ofInt?]
  split
  · next value fits =>
      split at fits <;> cases fits
      rfl
  · rfl

theorem arithmetic_unplaced (a b : Value) (onFloats : Float → Float → Float)
    {onInts onInts' : Int → Int → Except Cause Value}
    (same : ∀ x y, onInts' x y = (onInts x y).map Value.unplaced) :
    arithmetic a.unplaced b.unplaced onFloats onInts' =
      (arithmetic a b onFloats onInts).map Value.unplaced := by
  simp only [arithmetic, Value.isNumeric_unplaced, Value.isFloat_unplaced,
    Value.toFloat_unplaced, Value.toInt_unplaced, Value.describe_unplaced]
  split
  · rfl
  · split
    · rfl
    · split
      · rfl
      · exact same ..

theorem sum_unplaced (a b : Value) :
    sum a.unplaced b.unplaced = (sum a b).map Value.unplaced := by
  simp only [sum, Value.isString_unplaced, Value.render_unplaced, exact_unplaced]
  split
  · rfl
  · exact arithmetic_unplaced a b _ fun x y => (map_exact a b _).symm

theorem quotient_unplaced (a b : Value) :
    quotient a.unplaced b.unplaced = (quotient a b).map Value.unplaced := by
  refine arithmetic_unplaced a b _ fun x y => ?_
  simp only [exact_unplaced, Value.toFloat_unplaced]
  split
  · rfl
  · split
    · exact (map_exact a b _).symm
    · rfl

theorem remainder_unplaced (a b : Value) :
    remainder a.unplaced b.unplaced = (remainder a b).map Value.unplaced := by
  refine arithmetic_unplaced a b _ fun x y => ?_
  simp only [exact_unplaced]
  split
  · rfl
  · cases exact a b (x.tdiv y) with
    | error cause => rfl
    | ok value => exact (map_exact a b _).symm

theorem ordered_unplaced (a b : Value) (test : Ordering → Bool) :
    ordered a.unplaced b.unplaced test = (ordered a b test).map Value.unplaced := by
  simp only [ordered, Value.compare?_unplaced, Value.isNumeric_unplaced, Value.describe_unplaced]
  split
  · rfl
  · split <;> rfl

theorem size_unplaced (value : Value) :
    size value.unplaced = (size value).map Value.unplaced := by
  cases value with
  | list code => simp [size, Value.unplaced, Code.unplaced_eq_map, Except.map]
  | _ => rfl

theorem prepend_unplaced (value list : Value) :
    prepend value.unplaced list.unplaced = (prepend value list).map Value.unplaced := by
  rw [prepend, prepend, Value.asList_unplaced]
  cases list.asList with
  | error cause => rfl
  | ok code =>
      rw [Element.ofValue_unplaced]
      rfl

theorem uncons_unplaced (list : Value) :
    uncons list.unplaced = (uncons list).map (List.map Value.unplaced) := by
  rw [uncons, uncons, Value.asList_unplaced]
  cases list.asList with
  | error cause => rfl
  | ok code =>
      cases code with
      | nil => rfl
      | cons head tail =>
          show (do return [← head.unplaced.value, .list (Code.unplaced tail)]) =
            Except.map _ (do return [← head.value, .list tail])
          rw [Instruction.value_unplaced]
          cases head.value <;> rfl

theorem map_counted (low high : Int) :
    (counted low high).map Value.unplaced = counted low high := by
  have same : Code.unplaced (counting low high) = counting low high := by
    rw [Code.unplaced_eq_map, counting, List.map_map]
    rfl
  rw [counted]
  split
  · show Except.ok (Value.list (Code.unplaced _)) = _
    rw [same]
  · rfl

theorem span_unplaced (high low : Value) :
    span high.unplaced low.unplaced = (span high low).map Value.unplaced := by
  rw [span, span, Value.asInt_unplaced, Value.asInt_unplaced]
  cases high.asInt with
  | error cause => rfl
  | ok high =>
      cases low.asInt with
      | error cause => rfl
      | ok low => exact (map_counted low.toInt high.toInt).symm

theorem one_unplaced {result result' : Except Cause Value}
    (same : result' = result.map Value.unplaced) :
    one result' = (one result).map (List.map Value.unplaced) := by
  subst same
  cases result <;> rfl

theorem apply_of_length_ne {op : Operation} {values : List Value}
    (wrong : values.length ≠ op.info.arity) :
    op.apply values = .error (.stackUnderflow op.info.name op.info.arity values.length) := by
  unfold apply
  split <;> first | rfl | exact absurd rfl wrong

/-- An operation does the same with values whose places are forgotten. -/
theorem apply_unplaced (op : Operation) (values : List Value) :
    op.apply (values.map Value.unplaced) =
      (op.apply values).map (List.map Value.unplaced) := by
  by_cases right : values.length = op.info.arity
  · cases op with
    | dup | drop =>
        obtain ⟨a, rfl⟩ := List.length_eq_one_iff.1 right
        rfl
    | not =>
        obtain ⟨a, rfl⟩ := List.length_eq_one_iff.1 right
        simp [apply, Except.map, Value.unplaced]
    | length =>
        obtain ⟨a, rfl⟩ := List.length_eq_one_iff.1 right
        exact one_unplaced (size_unplaced a)
    | snoc =>
        obtain ⟨a, rfl⟩ := List.length_eq_one_iff.1 right
        exact uncons_unplaced a
    | choose =>
        obtain ⟨condition, whenTrue, whenFalse, rfl⟩ := List.length_eq_three.1 right
        simp [apply, Except.map, apply_ite]
    | add =>
        obtain ⟨a, b, rfl⟩ := List.length_eq_two.1 right
        exact one_unplaced (sum_unplaced a b)
    | subtract | multiply =>
        obtain ⟨a, b, rfl⟩ := List.length_eq_two.1 right
        refine one_unplaced (arithmetic_unplaced a b _ fun x y => ?_)
        rw [exact_unplaced, map_exact]
    | divide =>
        obtain ⟨a, b, rfl⟩ := List.length_eq_two.1 right
        exact one_unplaced (quotient_unplaced a b)
    | modulo =>
        obtain ⟨a, b, rfl⟩ := List.length_eq_two.1 right
        exact one_unplaced (remainder_unplaced a b)
    | less | greater | lessEqual | greaterEqual =>
        obtain ⟨a, b, rfl⟩ := List.length_eq_two.1 right
        exact one_unplaced (ordered_unplaced a b _)
    | equal | and | or | xor =>
        obtain ⟨a, b, rfl⟩ := List.length_eq_two.1 right
        simp [apply, Except.map, Value.unplaced, Value.same_unplaced]
    | cons =>
        obtain ⟨a, b, rfl⟩ := List.length_eq_two.1 right
        exact one_unplaced (prepend_unplaced a b)
    | range =>
        obtain ⟨a, b, rfl⟩ := List.length_eq_two.1 right
        exact one_unplaced (span_unplaced a b)
  · -- With a wrong number of values only that number is told.
    have wrong : (values.map Value.unplaced).length ≠ op.info.arity := by
      rwa [List.length_map]
    rw [apply_of_length_ne right, apply_of_length_ne wrong, List.length_map]
    rfl

end Operation

end LiveStack
