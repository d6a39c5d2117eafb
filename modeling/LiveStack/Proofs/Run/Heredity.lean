import LiveStack.Proofs.Code.Places
import LiveStack.Proofs.Run.Execution

/-!
# What values pass on

A property of values is hereditary if all that is no list has it, if a list has it just when each of
its items is sound, and if values go into items and come out of them with it. The operations make
values with such a property of values with it, and so do the loops along a list: what they give is
either new data, or was there before, as a value or as an item.
-/

namespace LiveStack

open Run

/-! ## Checks -/

/-- The check gives nothing but what has the property. -/
def Gives {α : Type} (property : α → Prop) (checked : Except Cause α) : Prop :=
  ∀ result, checked = .ok result → property result

namespace Gives

variable {α β : Type} {property : α → Prop} {property' : β → Prop}

theorem error (cause : Cause) : Gives property (.error cause) := fun _ given => by cases given

theorem ok {result : α} (holds : property result) : Gives property (.ok result) := by
  intro other given
  cases given
  exact holds

theorem bind {checked : Except Cause α} (gives : Gives property checked)
    {next : α → Except Cause β} (goes : ∀ result, property result → Gives property' (next result)) :
    Gives property' (checked >>= next) := by
  cases checked with
  | error cause => exact .error cause
  | ok result => exact goes result (gives result rfl)

end Gives

/-! ## Hereditary properties -/

/-- The value is no list. -/
def Value.IsAtom (value : Value) : Prop := ∀ code, value ≠ .list code

/-- A property of values that depends only on the items of the lists among them. -/
structure Hereditary (keeps : Value → Prop) (sound : Instruction → Prop) : Prop where
  atom : ∀ {value}, value.IsAtom → keeps value
  list : ∀ {code}, keeps (.list code) ↔ ∀ item ∈ code, sound item
  made : ∀ {value}, keeps value → sound (.made (.ofValue value))
  value : ∀ {item : Instruction}, sound item → Gives keeps item.value

namespace Hereditary

variable {keeps : Value → Prop} {sound : Instruction → Prop} (hereditary : Hereditary keeps sound)

include hereditary

theorem int (number : Int64) : keeps (.int number) := hereditary.atom nofun

theorem float (number : Float) : keeps (.float number) := hereditary.atom nofun

theorem bool (truth : Bool) : keeps (.bool truth) := hereditary.atom nofun

theorem string (text : String) : keeps (.string text) := hereditary.atom nofun

theorem asList_gives {value : Value} (kept : keeps value) :
    Gives (fun code => ∀ item ∈ code, sound item) value.asList := by
  cases value with
  | list code => exact .ok (hereditary.list.1 kept)
  | int | float | bool | string => exact .error _

/-! ## Operations -/

theorem exact_gives (a b : Value) (result : Int) : Gives keeps (Operation.exact a b result) := by
  rw [Operation.exact, Literal.ofInt?]
  split
  · next value fits =>
      split at fits <;> cases fits
      exact .ok (hereditary.int _)
  · exact .error _

theorem arithmetic_gives (a b : Value) (onFloats : Float → Float → Float)
    {onInts : Int → Int → Except Cause Value} (gives : ∀ x y, Gives keeps (onInts x y)) :
    Gives keeps (Operation.arithmetic a b onFloats onInts) := by
  rw [Operation.arithmetic]
  split
  · exact .error _
  · split
    · exact .error _
    · split
      · exact .ok (hereditary.float _)
      · exact gives _ _

theorem sum_gives (a b : Value) : Gives keeps (Operation.sum a b) := by
  rw [Operation.sum]
  split
  · exact .ok (hereditary.string _)
  · exact hereditary.arithmetic_gives a b _ fun x y => hereditary.exact_gives a b _

theorem quotient_gives (a b : Value) : Gives keeps (Operation.quotient a b) := by
  refine hereditary.arithmetic_gives a b _ fun x y => ?_
  split
  · exact .error _
  · split
    · exact hereditary.exact_gives a b _
    · exact .ok (hereditary.float _)

theorem remainder_gives (a b : Value) : Gives keeps (Operation.remainder a b) := by
  refine hereditary.arithmetic_gives a b _ fun x y => ?_
  split
  · exact .error _
  · exact (hereditary.exact_gives a b _).bind fun _ _ => hereditary.exact_gives a b _

theorem ordered_gives (a b : Value) (test : Ordering → Bool) :
    Gives keeps (Operation.ordered a b test) := by
  rw [Operation.ordered]
  split
  · exact .ok (hereditary.bool _)
  · split
    · exact .ok (hereditary.bool _)
    · exact .error _

theorem size_gives (value : Value) : Gives keeps (Operation.size value) := by
  cases value with
  | list | string => exact .ok (hereditary.int _)
  | int | float | bool => exact .error _

theorem prepend_gives {value list : Value} (kept : keeps value) (kept' : keeps list) :
    Gives keeps (Operation.prepend value list) :=
  (hereditary.asList_gives kept').bind fun _ rest =>
    .ok (hereditary.list.2 (List.forall_mem_cons.2 ⟨hereditary.made kept, rest⟩))

theorem uncons_gives {list : Value} (kept : keeps list) :
    Gives (fun values => ∀ value ∈ values, keeps value) (Operation.uncons list) := by
  refine (hereditary.asList_gives kept).bind fun code items => ?_
  cases code with
  | nil => exact .error _
  | cons head tail =>
      obtain ⟨first, rest⟩ := List.forall_mem_cons.1 items
      refine (hereditary.value first).bind fun value kept => .ok ?_
      exact List.forall_mem_cons.2 ⟨kept, List.forall_mem_singleton.2 (hereditary.list.2 rest)⟩

theorem counted_gives (low high : Int) : Gives keeps (Operation.counted low high) := by
  rw [Operation.counted]
  split
  · refine .ok (hereditary.list.2 fun item mem => ?_)
    obtain ⟨number, -, rfl⟩ := List.mem_map.1 mem
    exact hereditary.made (hereditary.int _)
  · exact .error _

theorem span_gives (high low : Value) : Gives keeps (Operation.span high low) := by
  have any (value : Value) : Gives (fun _ => True) value.asInt := fun _ _ => trivial
  exact (any high).bind fun top _ => (any low).bind fun bottom _ => hereditary.counted_gives _ _

omit hereditary in
theorem one_gives {checked : Except Cause Value} (gives : Gives keeps checked) :
    Gives (fun values => ∀ value ∈ values, keeps value) (Operation.one checked) := by
  cases checked with
  | error cause => exact .error cause
  | ok value => exact .ok (List.forall_mem_singleton.2 (gives value rfl))

/-- An operation makes values with the property of values with the property. -/
theorem apply_gives (op : Operation) {values : List Value} (kept : ∀ value ∈ values, keeps value) :
    Gives (fun values => ∀ value ∈ values, keeps value) (op.apply values) := by
  by_cases right : values.length = op.info.arity
  · cases op with
    | dup =>
        obtain ⟨a, rfl⟩ := List.length_eq_one_iff.1 right
        exact .ok (List.forall_mem_cons.2 ⟨kept a List.mem_cons_self, kept⟩)
    | drop =>
        obtain ⟨a, rfl⟩ := List.length_eq_one_iff.1 right
        exact .ok (by simp)
    | choose =>
        obtain ⟨condition, whenTrue, whenFalse, rfl⟩ := List.length_eq_three.1 right
        refine .ok (List.forall_mem_singleton.2 ?_)
        split
        · exact kept whenTrue (by simp)
        · exact kept whenFalse (by simp)
    | not =>
        obtain ⟨a, rfl⟩ := List.length_eq_one_iff.1 right
        exact .ok (List.forall_mem_singleton.2 (hereditary.bool _))
    | length =>
        obtain ⟨a, rfl⟩ := List.length_eq_one_iff.1 right
        exact one_gives (hereditary.size_gives a)
    | snoc =>
        obtain ⟨a, rfl⟩ := List.length_eq_one_iff.1 right
        exact hereditary.uncons_gives (kept a List.mem_cons_self)
    | add =>
        obtain ⟨a, b, rfl⟩ := List.length_eq_two.1 right
        exact one_gives (hereditary.sum_gives a b)
    | subtract | multiply =>
        obtain ⟨a, b, rfl⟩ := List.length_eq_two.1 right
        exact one_gives (hereditary.arithmetic_gives a b _ fun x y => hereditary.exact_gives a b _)
    | divide =>
        obtain ⟨a, b, rfl⟩ := List.length_eq_two.1 right
        exact one_gives (hereditary.quotient_gives a b)
    | modulo =>
        obtain ⟨a, b, rfl⟩ := List.length_eq_two.1 right
        exact one_gives (hereditary.remainder_gives a b)
    | less | greater | lessEqual | greaterEqual =>
        obtain ⟨a, b, rfl⟩ := List.length_eq_two.1 right
        exact one_gives (hereditary.ordered_gives a b _)
    | equal | and | or | xor =>
        obtain ⟨a, b, rfl⟩ := List.length_eq_two.1 right
        exact .ok (List.forall_mem_singleton.2 (hereditary.bool _))
    | cons =>
        obtain ⟨a, b, rfl⟩ := List.length_eq_two.1 right
        exact one_gives (hereditary.prepend_gives (kept a (by simp)) (kept b (by simp)))
    | range =>
        obtain ⟨a, b, rfl⟩ := List.length_eq_two.1 right
        exact one_gives (hereditary.span_gives a b)
  · rw [Operation.apply_of_length_ne right]
    exact .error _

end Hereditary

/-! ## Loops -/

/-- What a loop has gathered has the property. -/
def Loop.Keeps (keeps : Value → Prop) (sound : Instruction → Prop) : Loop → Prop
  | .map results => ∀ item ∈ results, sound item
  | .filter kept => ∀ item ∈ kept, sound item
  | .fold result => keeps result

namespace Loop.Keeps

variable {keeps : Value → Prop} {sound : Instruction → Prop} {loop : Loop} {item : Instruction}
  {value : Value}

theorem arguments (gathered : loop.Keeps keeps sound) (first : keeps value) :
    ∀ argument ∈ loop.arguments value, keeps argument := by
  cases loop with
  | map | filter => exact List.forall_mem_singleton.2 first
  | fold result => exact List.forall_mem_cons.2 ⟨first, List.forall_mem_singleton.2 gathered⟩

theorem gather (hereditary : Hereditary keeps sound) (gathered : loop.Keeps keeps sound)
    (kept : sound item) (result : keeps value) : (loop.gather item value).Keeps keeps sound := by
  cases loop with
  | map results => exact List.forall_mem_cons.2 ⟨hereditary.made result, gathered⟩
  | filter items =>
      rw [Loop.gather]
      split
      · exact List.forall_mem_cons.2 ⟨kept, gathered⟩
      · exact gathered
  | fold _ => exact result

theorem outcome (hereditary : Hereditary keeps sound) (gathered : loop.Keeps keeps sound) :
    keeps loop.outcome := by
  cases loop with
  | map | filter =>
      refine hereditary.list.2 fun item mem => ?_
      exact gathered item (List.mem_reverse.1 mem)
  | fold result => exact gathered

end Loop.Keeps

/-! ## Values taken off the stack -/

namespace Execution

variable {keeps : Value → Prop} {machine : Machine}

theorem split?_keeps {count : Nat} {taken stack values rest : List Value}
    (found : split? count taken stack = some (values, rest)) (taken' : ∀ value ∈ taken, keeps value)
    (stack' : ∀ value ∈ stack, keeps value) :
    (∀ value ∈ values, keeps value) ∧ ∀ value ∈ rest, keeps value := by
  induction count generalizing taken stack with
  | zero =>
      cases found
      exact ⟨taken', stack'⟩
  | succ count ih =>
      cases stack with
      | nil => cases found
      | cons value stack =>
          obtain ⟨first, stack'⟩ := List.forall_mem_cons.1 stack'
          exact ih found (List.forall_mem_cons.2 ⟨first, taken'⟩) stack'

/-- The values that a word takes off a stack, and those that it leaves, were on it. -/
theorem arguments_gives (name : String) (count : Nat)
    (stack : ∀ value ∈ machine.stack, keeps value) :
    Gives (fun parts => (∀ value ∈ parts.1, keeps value) ∧ ∀ value ∈ parts.2, keeps value)
      (arguments name count machine) := by
  rw [arguments]
  cases found : split? count [] machine.stack with
  | none => exact .error _
  | some parts => exact .ok (split?_keeps found (by simp) stack)

theorem top_gives (stack : ∀ value ∈ machine.stack, keeps value) :
    Gives (fun parts => keeps parts.1 ∧ ∀ value ∈ parts.2, keeps value) (top machine) := by
  rw [top]
  split
  · next value rest found =>
      rw [found] at stack
      exact .ok (List.forall_mem_cons.1 stack)
  · exact .error _

end Execution

end LiveStack
