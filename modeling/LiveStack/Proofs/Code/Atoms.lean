import LiveStack.Proofs.Code.Pairing

/-!
# The tokens of code

Code is made of tokens and lists. What holds for the meaning of each token of a text holds for every
token of its code, however deep in lists it is: the parser gathers them, and makes no others.
-/

namespace LiveStack

mutual

/-- Whether all that is not a list in the element, or in a list in it, has the property. -/
def Element.Every (property : Element → Prop) : Element → Prop
  | .quote code => Code.Every property code
  | .word word => property (.word word)
  | .literal text value => property (.literal text value)
  | .unknown text => property (.unknown text)

/-- Whether all that is not a list in the code, or in a list in it, has the property. -/
def Code.Every (property : Element → Prop) : List Instruction → Prop
  | [] => True
  | ⟨_, element⟩ :: rest => element.Every property ∧ Code.Every property rest

end

variable {property : Element → Prop} {binding : Binding}

namespace Code

theorem every_iff {code : Code} :
    Code.Every property code ↔ ∀ instruction ∈ code, instruction.element.Every property := by
  induction code with
  | nil => simp [Code.Every]
  | cons instruction rest ih =>
      obtain ⟨location, element⟩ := instruction
      simp [Code.Every, ih]

theorem every_reverse {code : Code} :
    Code.Every property code.reverse ↔ Code.Every property code := by
  simp only [every_iff, List.mem_reverse]

end Code

/-- The meaning of a token is no list. -/
theorem Element.every_ofToken {text : String} :
    (Element.ofToken binding text).Every property ↔ property (.ofToken binding text) := by
  rw [Element.ofToken]
  cases binding text with
  | some word => exact Iff.rfl
  | none => cases Literal.read? text <;> exact Iff.rfl

namespace Code

/-- All that a parser has read has the property. -/
structure Parser.Every (property : Element → Prop) (parser : Parser) : Prop where
  items : Code.Every property parser.items
  outer : ∀ list ∈ parser.outer, Code.Every property list.before

/-- A token has the property, if it is no bracket. -/
def Keeps (property : Element → Prop) (binding : Binding) (lexeme : Lexeme) : Prop :=
  lexeme = .opening ∨ lexeme = .closing ∨ property (.ofToken binding lexeme.text)

theorem Parser.Every.step {parser : Parser} (every : parser.Every property) {token : Token}
    (keeps : Keeps property binding token.lexeme) :
    (Parser.step binding parser token).Every property := by
  obtain ⟨items, outer, faults⟩ := parser
  obtain ⟨items', outer'⟩ := every
  obtain ⟨lexeme, place⟩ := token
  cases lexeme with
  | opening => exact ⟨trivial, List.forall_mem_cons.2 ⟨items', outer'⟩⟩
  | closing =>
      cases outer with
      | nil => exact ⟨items', outer'⟩
      | cons list outer =>
          obtain ⟨before, outer'⟩ := List.forall_mem_cons.1 outer'
          exact ⟨⟨every_reverse.2 items', before⟩, outer'⟩
  | string text | word text =>
      have read : property (.ofToken binding text) := by
        rcases keeps with same | same | read
        · cases same
        · cases same
        · exact read
      exact ⟨⟨Element.every_ofToken.2 read, items'⟩, outer'⟩

theorem Parser.Every.foldl {parser : Parser} (every : parser.Every property) {tokens : List Token}
    (keeps : ∀ token ∈ tokens, Keeps property binding token.lexeme) :
    (tokens.foldl (Parser.step binding) parser).Every property := by
  induction tokens generalizing parser with
  | nil => exact every
  | cons token rest ih =>
      obtain ⟨first, rests⟩ := List.forall_mem_cons.1 keeps
      exact ih (every.step first) rests

theorem Parser.Every.finish {parser : Parser} (every : parser.Every property) :
    Code.Every property parser.finish.1 := by
  obtain ⟨items, outer, faults⟩ := parser
  obtain ⟨items', outer'⟩ := every
  refine every_reverse.2 ?_
  -- the lists that are still open are closed one by one, from the inside
  show Code.Every property (outer.foldl _ items)
  simp only at items' outer'
  induction outer generalizing items with
  | nil => exact items'
  | cons list outer ih =>
      obtain ⟨before, outer'⟩ := List.forall_mem_cons.1 outer'
      exact ih _ ⟨every_reverse.2 items', before⟩ outer'

/-- What holds for the meaning of every token holds for all code of the tokens. -/
theorem every_ofTokens {tokens : List Token}
    (keeps : ∀ token ∈ tokens, Keeps property binding token.lexeme) :
    Code.Every property (ofTokens binding tokens).1 := by
  have start : Parser.Every property {} := ⟨trivial, by simp⟩
  exact (start.foldl keeps).finish

/-- What holds for the meaning of every text that is a token by itself holds for all code that is
read from a text. -/
theorem every_ofSource {name source : String}
    (keeps : ∀ lexeme : Lexeme, lexeme.Whole → Keeps property binding lexeme) :
    Code.Every property (ofSource binding name source).1 :=
  every_ofTokens fun _ mem => keeps _ (Token.whole_of_mem mem)

end Code

/-! ## Code read anew -/

mutual

/-- The element with the places in it forgotten. The words in it stay as they are. -/
def Element.bare : Element → Element
  | .quote code => .quote (Code.bare code)
  | .word word => .word word
  | .literal text value => .literal text value
  | .unknown text => .unknown text

/-- The code with the places in it forgotten. The words in it stay as they are. -/
def Code.bare : List Instruction → List Instruction
  | [] => []
  | ⟨_, element⟩ :: rest => ⟨none, element.bare⟩ :: Code.bare rest

end

mutual

/-- The element as it reads where names have the given meanings. -/
def Element.reread (binding : Binding) : Element → Element
  | .quote code => .quote (Code.reread binding code)
  | .word word => .ofToken binding word.name
  | .literal text _ => .ofToken binding text
  | .unknown text => .ofToken binding text

/-- The code as it reads where names have the given meanings. -/
def Code.reread (binding : Binding) : List Instruction → List Instruction
  | [] => []
  | ⟨_, element⟩ :: rest => ⟨none, element.reread binding⟩ :: Code.reread binding rest

end

theorem Code.bare_append (front back : Code) :
    Code.bare (front ++ back) = Code.bare front ++ Code.bare back := by
  induction front with
  | nil => rfl
  | cons instruction rest ih =>
      obtain ⟨location, element⟩ := instruction
      rw [List.cons_append, Code.bare, ih, Code.bare, List.cons_append]

mutual

/-- An element reads anew as it is where each of its tokens does. -/
theorem Element.reread_eq_bare (binding : Binding) (element : Element)
    (every : element.Every fun atom => atom.reread binding = atom.bare) :
    element.reread binding = element.bare := by
  match element with
  | .word _ | .literal _ _ | .unknown _ => exact every
  | .quote code => rw [Element.reread, Element.bare, Code.reread_eq_bare binding code every]

theorem Code.reread_eq_bare (binding : Binding) (code : List Instruction)
    (every : Code.Every (fun atom => atom.reread binding = atom.bare) code) :
    Code.reread binding code = Code.bare code := by
  match code with
  | [] => rfl
  | ⟨location, element⟩ :: rest =>
      rw [Code.reread, Code.bare, Element.reread_eq_bare binding element every.1,
        Code.reread_eq_bare binding rest every.2]

end

/-- Every word that is bound has the name that it is bound to. -/
def Binding.Faithful (binding : Binding) : Prop :=
  ∀ {name word}, binding name = some word → word.name = name

namespace Element

/-- What a token can mean. -/
theorem ofToken_cases (binding : Binding) (text : String) :
    (∃ word, binding text = some word ∧ ofToken binding text = .word word) ∨
      (∃ value, Literal.read? text = some value ∧ ofToken binding text = .literal text value) ∨
        (Literal.read? text = none ∧ ofToken binding text = .unknown text) := by
  rw [ofToken]
  cases binding text with
  | some word => exact .inl ⟨word, rfl, rfl⟩
  | none =>
      cases Literal.read? text with
      | some value => exact .inr (.inl ⟨value, rfl, rfl⟩)
      | none => exact .inr (.inr ⟨rfl, rfl⟩)

/-- A token is written as it was read. -/
theorem render_ofToken (faithful : binding.Faithful) (text : String) :
    (ofToken binding text).render = text := by
  rcases ofToken_cases binding text with ⟨word, bound, read⟩ | ⟨value, -, read⟩ | ⟨-, read⟩
  · rw [read]
    show "" ++ word.name = text
    rw [String.empty_append, faithful bound]
  · rw [read]
    exact String.empty_append
  · rw [read]
    exact String.empty_append

/-- A token means the same when it is read again. -/
theorem reread_ofToken (faithful : binding.Faithful) (text : String) :
    (ofToken binding text).reread binding = (ofToken binding text).bare := by
  rcases ofToken_cases binding text with ⟨word, bound, read⟩ | ⟨value, -, read⟩ | ⟨-, read⟩
  · rw [read, reread, faithful bound, read]
    rfl
  · rw [read, reread, read]
    rfl
  · rw [read, reread, read]
    rfl

end Element

end LiveStack
