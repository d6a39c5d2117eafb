import LiveStack.Proofs.Run.Rereading

/-!
# Equality

Equality changes its rule with what it compares: numbers by value, texts as they are printed, and
lists item by item. It is reflexive and symmetric on all values without floats. A float need not be
equal to itself.

Of a list equality sees the spelling: how it is nested and, item by item, whether there is a word, a
literal or an unknown token, and its text. That is not so for lists of every kind, since a literal
could hold any value. In the code that comes about, though, what a literal pushes is read from its
text, so two lists with the same spelling push the same.
-/

namespace LiveStack

/-! ## Values without floats -/

mutual

/-- There is no float in the value, at any depth. -/
def Value.FloatFree : Value → Prop
  | .int _ | .bool _ | .string _ => True
  | .float _ => False
  | .list code => Code.FloatFree code

/-- There is no float in what the element pushes. A word counts by its name alone. -/
def Element.FloatFree : Element → Prop
  | .word _ | .unknown _ => True
  | .literal _ value => value.FloatFree
  | .quote code => Code.FloatFree code

/-- There is no float in what the instructions push. -/
def Code.FloatFree : List Instruction → Prop
  | [] => True
  | ⟨_, element⟩ :: rest => element.FloatFree ∧ Code.FloatFree rest

end

theorem Value.FloatFree.isFloat {value : Value} (free : value.FloatFree) :
    value.isFloat = false := by
  cases value with
  | float number => exact free.elim
  | int | bool | string | list => rfl

/-! ## Reflexivity and symmetry -/

mutual

theorem Value.same_refl (value : Value) (free : value.FloatFree) : value.same value = true := by
  match value with
  | .int _ | .bool _ | .string _ => exact Value.same_self rfl
  | .float _ => exact free.elim
  | .list code =>
      rw [Value.same]
      exact Code.same_refl code free

theorem Element.same_refl (element : Element) (free : element.FloatFree) :
    element.same element = true := by
  match element with
  | .word _ | .unknown _ =>
      rw [Element.same]
      exact beq_self_eq_true _
  | .literal text value =>
      rw [Element.same, beq_self_eq_true, Value.same_refl value free]
      rfl
  | .quote code =>
      rw [Element.same]
      exact Code.same_refl code free

theorem Code.same_refl (code : List Instruction) (free : Code.FloatFree code) :
    Code.same code code = true := by
  match code with
  | [] => rfl
  | ⟨_, element⟩ :: rest =>
      rw [Code.same, Element.same_refl element free.1, Code.same_refl rest free.2]
      rfl

end

/-- Numbers that are no floats are compared as integers if either is one, else as truths. -/
theorem Value.sameNumber_of_whole {a b : Value} (whole : a.isFloat = false)
    (whole' : b.isFloat = false) :
    a.sameNumber b = if a.isInt || b.isInt then a.toInt == b.toInt else a.truth == b.truth := by
  rw [sameNumber, whole, whole']
  rfl

/-- Two values that are no floats are compared by the same rule whichever comes first. -/
theorem Value.sameAtom_comm {a b : Value} (whole : a.isFloat = false) (whole' : b.isFloat = false) :
    a.sameAtom b = b.sameAtom a := by
  have numbers : a.sameNumber b = b.sameNumber a := by
    rw [sameNumber_of_whole whole whole', sameNumber_of_whole whole' whole, Bool.or_comm a.isInt,
      BEq.comm (a := a.toInt), BEq.comm (a := a.truth)]
  rw [sameAtom, sameAtom, numbers, Bool.and_comm a.isNumeric, Bool.and_comm a.isTextual,
    BEq.comm (a := a.render)]

mutual

theorem Value.same_comm (a b : Value) (free : a.FloatFree) (free' : b.FloatFree) :
    a.same b = b.same a := by
  have atoms := Value.sameAtom_comm free.isFloat free'.isFloat
  match a, b with
  | .list code, .list code' =>
      rw [Value.same, Value.same]
      exact Code.same_comm code code' free free'
  | .int _, b | .bool _, b | .string _, b => cases b <;> exact atoms
  | .list _, .int _ | .list _, .bool _ | .list _, .string _ => exact atoms

theorem Element.same_comm (a b : Element) (free : a.FloatFree) (free' : b.FloatFree) :
    a.same b = b.same a := by
  match a, b with
  | .word _, .word _ | .unknown _, .unknown _ =>
      rw [Element.same, Element.same]
      exact BEq.comm
  | .literal text value, .literal text' value' =>
      rw [Element.same, Element.same, BEq.comm (a := text), Value.same_comm value value' free free']
  | .quote code, .quote code' =>
      rw [Element.same, Element.same]
      exact Code.same_comm code code' free free'
  | .word _, .literal _ _ | .word _, .quote _ | .word _, .unknown _ => rfl
  | .literal _ _, .word _ | .literal _ _, .quote _ | .literal _ _, .unknown _ => rfl
  | .quote _, .word _ | .quote _, .literal _ _ | .quote _, .unknown _ => rfl
  | .unknown _, .word _ | .unknown _, .literal _ _ | .unknown _, .quote _ => rfl

theorem Code.same_comm (code code' : List Instruction) (free : Code.FloatFree code)
    (free' : Code.FloatFree code') : Code.same code code' = Code.same code' code := by
  match code, code' with
  | [], [] | [], ⟨_, _⟩ :: _ | ⟨_, _⟩ :: _, [] => rfl
  | ⟨_, a⟩ :: rest, ⟨_, b⟩ :: rest' =>
      rw [Code.same, Code.same, Element.same_comm a b free.1 free'.1,
        Code.same_comm rest rest' free.2 free'.2]

end

/-- On data equality is not transitive: a truth value is compared with a number, and a number with a
string, but a truth value with no string. -/
example : Value.same (.bool true) (.int 1) = true ∧ Value.same (.int 1) (.string "1") = true ∧
    Value.same (.bool true) (.string "1") = false := by decide

/-! ## Spelling -/

/-- What equality sees of an element: what kind of token it is and its text, or the list of what it
sees of the items. -/
inductive Spelling where
  | word (name : String)
  | literal (text : String)
  | unknown (text : String)
  | list (items : List Spelling)

mutual

/-- How the element is spelled. -/
def Element.spelling : Element → Spelling
  | .word word => .word word.name
  | .literal text _ => .literal text
  | .quote code => .list (Code.spelling code)
  | .unknown text => .unknown text

/-- How the instructions are spelled. -/
def Code.spelling : List Instruction → List Spelling
  | [] => []
  | ⟨_, element⟩ :: rest => element.spelling :: Code.spelling rest

end

/-- A legible literal that is no float has the value that its text is read as. -/
theorem Element.Legible.read? {text : String} {value : Value}
    (legible : (Element.literal text value).Legible) (free : value.FloatFree) :
    Literal.read? text = some value := by
  rcases legible with float | ⟨-, read⟩
  · cases free.isFloat.symm.trans float
  · exact read

mutual

theorem Element.same_iff_spelling (a b : Element) (legible : a.Legible) (legible' : b.Legible)
    (free : a.FloatFree) (free' : b.FloatFree) : a.same b = true ↔ a.spelling = b.spelling := by
  match a, b with
  | .word _, .word _ | .unknown _, .unknown _ => simp [Element.same, Element.spelling]
  | .literal text value, .literal text' value' =>
      rw [Element.same, Bool.and_eq_true, beq_iff_eq, Element.spelling, Element.spelling,
        Spelling.literal.injEq]
      refine ⟨And.left, fun texts => ⟨texts, ?_⟩⟩
      have read := legible.read? free
      have read' := legible'.read? free'
      rw [texts, read'] at read
      obtain rfl := Option.some.inj read
      exact Value.same_refl _ free
  | .quote code, .quote code' =>
      rw [Element.same, Element.spelling, Element.spelling, Spelling.list.injEq]
      exact Code.same_iff_spelling code code' legible legible' free free'
  | .word _, .literal _ _ | .word _, .quote _ | .word _, .unknown _ => exact ⟨nofun, nofun⟩
  | .literal _ _, .word _ | .literal _ _, .quote _ | .literal _ _, .unknown _ =>
      exact ⟨nofun, nofun⟩
  | .quote _, .word _ | .quote _, .literal _ _ | .quote _, .unknown _ => exact ⟨nofun, nofun⟩
  | .unknown _, .word _ | .unknown _, .literal _ _ | .unknown _, .quote _ => exact ⟨nofun, nofun⟩

/-- Legible lists without floats are equal just if they are spelled alike. -/
theorem Code.same_iff_spelling (code code' : List Instruction) (legible : Code.Legible code)
    (legible' : Code.Legible code') (free : Code.FloatFree code) (free' : Code.FloatFree code') :
    Code.same code code' = true ↔ Code.spelling code = Code.spelling code' := by
  match code, code' with
  | [], [] => exact ⟨fun _ => rfl, fun _ => rfl⟩
  | [], ⟨_, _⟩ :: _ | ⟨_, _⟩ :: _, [] => exact ⟨nofun, nofun⟩
  | ⟨_, a⟩ :: rest, ⟨_, b⟩ :: rest' =>
      rw [Code.same, Bool.and_eq_true, Code.spelling, Code.spelling, List.cons.injEq,
        Element.same_iff_spelling a b legible.1 legible'.1 free.1 free'.1,
        Code.same_iff_spelling rest rest' legible.2 legible'.2 free.2 free'.2]

end

end LiveStack
