import LiveStack.Proofs.Code.Atoms

/-!
# Printed code reads back

Code is written token by token with a blank between two, so each token of it can be found again as
soon as its text is one token by itself. What is read back is then the same code, each token of it
bound anew: the same element by element, but for the places in it, where the tokens mean what they
meant before.
-/

namespace LiveStack

/-! ## Written code -/

/-- The source text of code, with a blank behind each of its elements. -/
def Code.spell : List Instruction → String
  | [] => ""
  | ⟨_, element⟩ :: rest => element.render ++ " " ++ Code.spell rest

mutual

/-- What is written before an element makes no difference to how it is written. -/
theorem Element.write_eq (front : String) (element : Element) :
    element.write front = front ++ element.render := by
  match element with
  | .word word | .literal text value | .unknown text =>
      simp only [Element.render, Element.write, String.empty_append]
  | .quote code =>
      simp only [Element.render, Element.write]
      rw [Code.writeItems_eq (front ++ "[ ") code, Code.writeItems_eq ("" ++ "[ ") code]
      simp only [String.empty_append, String.append_assoc]

theorem Code.writeItems_eq (front : String) (code : List Instruction) :
    Code.writeItems front code = front ++ Code.spell code := by
  match code with
  | [] => simp only [Code.writeItems, Code.spell, String.append_empty]
  | ⟨location, element⟩ :: rest =>
      rw [Code.writeItems, Element.write_eq front element, Code.writeItems_eq _ rest, Code.spell]
      simp only [String.append_assoc]

end

theorem Element.render_quote (code : Code) :
    (Element.quote code).render = "[ " ++ Code.spell code ++ "]" := by
  rw [Element.render, Element.write, Code.writeItems_eq, String.empty_append]

/-- With a blank behind it, code is written with a blank behind each element. -/
theorem Code.render_append_blank {code : Code} (nonempty : code ≠ []) :
    code.render ++ " " = Code.spell code := by
  induction code with
  | nil => exact absurd rfl nonempty
  | cons instruction rest ih =>
      obtain ⟨location, element⟩ := instruction
      by_cases last : rest = []
      · subst last
        simp [Code.render, Code.spell]
      · have rests : rest.map (fun instruction => instruction.element.render) ≠ [] := by
          simpa using last
        rw [Code.render, List.map_cons, String.intercalate_cons_of_ne_nil rests, ← Code.render,
          String.append_assoc, ih last, Code.spell]

/-! ## Texts that are one token -/

/-- The text is one token, a word or a string, wherever a blank is behind it. -/
def Token.Solid (text : String) : Prop :=
  ∃ lexeme : Lexeme, (lexeme = .word text ∨ lexeme = .string text) ∧
    Token.Yields (text ++ " ").toList [lexeme]

namespace Token

theorem solid_of_valid {name : String} (valid : nameProblem? name = none) : Solid name :=
  ⟨.word name, .inl rfl, yields_name valid⟩

theorem solid_encode (text : String) : Solid (Text.Quoted.encode text) := by
  refine ⟨.string (Text.Quoted.encode text), .inr rfl, ?_⟩
  rw [String.toList_append]
  exact (yields_encode text).append .blank

/-- The text of a token that is no bracket is one token. -/
theorem solid_of_whole {lexeme : Lexeme} (whole : lexeme.Whole) :
    lexeme = .opening ∨ lexeme = .closing ∨ Solid lexeme.text := by
  have yields := yields_of_ofSource (whole "")
  rw [show [' '] = " ".toList from rfl, ← String.toList_append] at yields
  cases lexeme with
  | opening => exact .inl rfl
  | closing => exact .inr (.inl rfl)
  | string text => exact .inr (.inr ⟨.string text, .inr rfl, yields⟩)
  | word text => exact .inr (.inr ⟨.word text, .inl rfl, yields⟩)

/-- Without the blank behind it, a piece of a text ends as it ends with it. -/
theorem Yields.ofSource_blank {source : String} {lexemes : List Lexeme}
    (yields : Yields (source ++ " ").toList lexemes) (name : String) :
    ∃ tokens, Token.ofSource name source = (tokens, []) ∧ tokens.map (·.lexeme) = lexemes := by
  obtain ⟨there, tokens, read, same⟩ := yields (.start name) []
  refine ⟨tokens, ?_, same⟩
  show (source.toList.foldl Lexer.step ⟨.start name, .nothing, []⟩).finish = (tokens, [])
  rw [String.toList_append, List.foldl_append, List.append_nil] at read
  generalize source.toList.foldl Lexer.step ⟨.start name, .nothing, []⟩ = lexer at read ⊢
  obtain ⟨here, pending, found⟩ := lexer
  -- a blank ends a word, as the end of the text does, and no string ends with one
  cases pending with
  | nothing =>
      have ended : found = tokens.reverse := congrArg Lexer.found read
      simp [Lexer.finish, ended]
  | word start chars =>
      have ended : ⟨.word (Lexer.textOf chars), start⟩ :: found = tokens.reverse :=
        congrArg Lexer.found read
      simp [Lexer.finish, ended]
  | string start chars escaped => cases escaped <;> cases congrArg Lexer.pending read

end Token

/-! ## Reading code back -/

/-- The text reads as the code, but for places, wherever it stands between tokens. -/
def Token.Reads (binding : Binding) (text : String) (code : Code) : Prop :=
  ∃ lexemes, Yields text.toList lexemes ∧ Paired lexemes ∧
    ∀ tokens : List Token, tokens.map (·.lexeme) = lexemes →
      Code.bare (Code.ofTokens binding tokens).1 = code

namespace Token.Reads

variable {binding : Binding} {text text' : String} {code code' : Code}

theorem nil : Reads binding "" [] := by
  refine ⟨[], .nil, .nil, ?_⟩
  intro tokens same
  rw [List.map_eq_nil_iff.1 same]
  rfl

theorem append (reads : Reads binding text code) (reads' : Reads binding text' code') :
    Reads binding (text ++ text') (code ++ code') := by
  obtain ⟨lexemes, yields, paired, means⟩ := reads
  obtain ⟨lexemes', yields', paired', means'⟩ := reads'
  refine ⟨lexemes ++ lexemes', ?_, paired.append paired', ?_⟩
  · rw [String.toList_append]
    exact yields.append yields'
  · intro tokens same
    obtain ⟨front, back, rfl, same, same'⟩ := List.map_eq_append_iff.1 same
    rw [Code.ofTokens_append (paired.closed same).ended, Code.bare_append,
      means front same, means' back same']

theorem token (solid : Solid text) :
    Reads binding (text ++ " ") [⟨none, .ofToken binding text⟩] := by
  obtain ⟨lexeme, known, yields⟩ := solid
  refine ⟨[lexeme], yields, ?_, ?_⟩
  · rcases known with rfl | rfl
    · exact .word text
    · exact .string text
  · intro tokens same
    obtain ⟨⟨lexeme', place⟩, rest, rfl, rfl, none⟩ := List.map_eq_cons_iff.1 same
    rw [List.map_eq_nil_iff.1 none]
    have plain : (Element.ofToken binding text).bare = .ofToken binding text := by
      rw [Element.ofToken]
      cases binding text with
      | some word => rfl
      | none => cases Literal.read? text <;> rfl
    rcases known with rfl | rfl
    · exact congrArg (fun element => [(⟨.none, element⟩ : Instruction)]) plain
    · exact congrArg (fun element => [(⟨.none, element⟩ : Instruction)]) plain

theorem list (reads : Reads binding text code) :
    Reads binding ("[ " ++ text ++ "] ") [⟨none, .quote code⟩] := by
  obtain ⟨lexemes, yields, paired, means⟩ := reads
  refine ⟨.opening :: (lexemes ++ [.closing]), ?_, paired.list, ?_⟩
  · have whole := ((Yields.opening.append .blank).append yields).append
      (Yields.closing.append .blank)
    simpa using whole
  · intro tokens same
    obtain ⟨⟨lexeme, place⟩, rest, rfl, rfl, rests⟩ := List.map_eq_cons_iff.1 same
    obtain ⟨inside, last, rfl, insides, ends⟩ := List.map_eq_append_iff.1 rests
    obtain ⟨⟨lexeme', place'⟩, beyond, rfl, rfl, none⟩ := List.map_eq_cons_iff.1 ends
    rw [List.map_eq_nil_iff.1 none]
    rw [Code.ofTokens_list (paired.closed insides), ← means inside insides]
    rfl

end Token.Reads

mutual

/-- An element whose tokens are each one token reads back, each bound anew. -/
theorem Element.reads (binding : Binding) (element : Element)
    (solid : element.Every fun atom => Token.Solid atom.render) :
    Token.Reads binding (element.render ++ " ") [⟨none, element.reread binding⟩] := by
  match element with
  | .word ⟨name, handler⟩ =>
      have same : (Element.word ⟨name, handler⟩).render = name := String.empty_append
      rw [Element.Every, same] at solid
      rw [same]
      exact .token solid
  | .literal text value =>
      have same : (Element.literal text value).render = text := String.empty_append
      rw [Element.Every, same] at solid
      rw [same]
      exact .token solid
  | .unknown text =>
      have same : (Element.unknown text).render = text := String.empty_append
      rw [Element.Every, same] at solid
      rw [same]
      exact .token solid
  | .quote code =>
      have reads := (Code.reads binding code solid).list
      rw [Element.render_quote, Element.reread]
      rwa [show "] " = "]" ++ " " from rfl, ← String.append_assoc] at reads

theorem Code.reads (binding : Binding) (code : List Instruction)
    (solid : Code.Every (fun atom => Token.Solid atom.render) code) :
    Token.Reads binding (Code.spell code) (Code.reread binding code) := by
  match code with
  | [] => exact .nil
  | ⟨location, element⟩ :: rest =>
      exact (Element.reads binding element solid.1).append (Code.reads binding rest solid.2)

end

/-- Source text that reads as the code everywhere reads as it by itself, without a problem. -/
theorem Token.Reads.ofSource {binding : Binding} {source : String} {code : Code}
    (reads : Token.Reads binding (source ++ " ") code) (name : String) :
    ∃ code', Code.ofSource binding name source = (code', []) ∧ Code.bare code' = code := by
  obtain ⟨lexemes, yields, paired, means⟩ := reads
  obtain ⟨tokens, lexed, same⟩ := yields.ofSource_blank name
  refine ⟨(Code.ofTokens binding tokens).1, ?_, means tokens same⟩
  rw [Code.ofSource, lexed]
  exact congrArg (Prod.mk _) (Code.faults_of_closed (paired.closed same) binding)

/-- Code whose tokens are each one token reads back from its source text without a problem. -/
theorem Code.ofSource_render (binding : Binding) {code : Code}
    (solid : Code.Every (fun atom => Token.Solid atom.render) code) (name : String) :
    ∃ code', Code.ofSource binding name code.render = (code', []) ∧
      Code.bare code' = Code.reread binding code := by
  by_cases empty : code = []
  · subst empty
    exact ⟨[], rfl, rfl⟩
  · have reads := Code.reads binding code solid
    rw [← Code.render_append_blank empty] at reads
    exact reads.ofSource name

/-- What a text reads as reads back from its own source text: without a problem, and as the same code
but for places. -/
theorem Code.ofSource_render_ofSource {binding : Binding} (faithful : binding.Faithful)
    (name source name' : String) :
    ∃ code', Code.ofSource binding name' (Code.ofSource binding name source).1.render =
        (code', []) ∧
      Code.bare code' = Code.bare (Code.ofSource binding name source).1 := by
  -- each token of the text is one token by itself, and means again what it meant
  have solid : Code.Every (fun atom => Token.Solid atom.render)
      (Code.ofSource binding name source).1 := by
    refine Code.every_ofSource fun lexeme whole => ?_
    rw [Code.Keeps, Element.render_ofToken faithful]
    exact Token.solid_of_whole whole
  have same : Code.Every (fun atom => atom.reread binding = atom.bare)
      (Code.ofSource binding name source).1 :=
    Code.every_ofSource fun lexeme _ => .inr (.inr (Element.reread_ofToken faithful _))
  obtain ⟨code', read, means⟩ := Code.ofSource_render binding solid name'
  exact ⟨code', read, means.trans (Code.reread_eq_bare binding _ same)⟩

end LiveStack
