import LiveStack.Proofs.Run.Rereading

/-!
# The tokens of code

Code has a token for each of its instructions, and two for a list. Read from tokens, it has those
tokens again, with the places that they had: only the closing brackets that close nothing are
missing, which are reported instead, and those are added that the text is short of. Between two
tokens the parser holds the code of what it has read in pieces, one for each list that is open, and
the tokens of the pieces are those that were read.
-/

namespace LiveStack

/-! ## What tokens say -/

/-- What a token says to the parser: it is a bracket, or a text that means something. -/
inductive Mark where
  | opening
  | closing
  | text (text : String)
deriving DecidableEq, Repr

/-- Words and strings are alike to the parser. -/
def Lexeme.mark : Lexeme → Mark
  | .opening => .opening
  | .closing => .closing
  | .string text | .word text => .text text

namespace Token

/-- What the token says, and where it says so. Code has no place for a closing bracket. -/
def mark : Token → Mark × Option Location
  | ⟨.closing, _⟩ => (.closing, none)
  | ⟨lexeme, place⟩ => (lexeme.mark, some place)

/-- The tokens without the closing brackets that are met where no list is open. Before the tokens,
`depth` lists are open. -/
def kept : (depth : Nat) → List Token → List Token
  | _, [] => []
  | depth, ⟨.opening, place⟩ :: rest => ⟨.opening, place⟩ :: kept (depth + 1) rest
  | 0, ⟨.closing, _⟩ :: rest => kept 0 rest
  | depth + 1, ⟨.closing, place⟩ :: rest => ⟨.closing, place⟩ :: kept depth rest
  | depth, ⟨.string text, place⟩ :: rest => ⟨.string text, place⟩ :: kept depth rest
  | depth, ⟨.word text, place⟩ :: rest => ⟨.word text, place⟩ :: kept depth rest

/-- The places of the closing brackets that are met where no list is open. -/
def stray : (depth : Nat) → List Token → List Location
  | _, [] => []
  | depth, ⟨.opening, _⟩ :: rest => stray (depth + 1) rest
  | 0, ⟨.closing, place⟩ :: rest => place :: stray 0 rest
  | depth + 1, ⟨.closing, _⟩ :: rest => stray depth rest
  | depth, ⟨.string _, _⟩ :: rest | depth, ⟨.word _, _⟩ :: rest => stray depth rest

/-- How the rest of the tokens is taken depends on how many lists the first leaves open. -/
theorem kept_cons (depth : Nat) (token : Token) (rest : List Token) :
    kept depth (token :: rest) =
      kept depth [token] ++ kept (leavesOpen depth [token.lexeme]) rest := by
  obtain ⟨lexeme, place⟩ := token
  cases lexeme with
  | closing => cases depth <;> rfl
  | opening => rfl
  | string text | word text => cases depth <;> simp [kept, leavesOpen]

theorem stray_cons (depth : Nat) (token : Token) (rest : List Token) :
    stray depth (token :: rest) =
      stray depth [token] ++ stray (leavesOpen depth [token.lexeme]) rest := by
  obtain ⟨lexeme, place⟩ := token
  cases lexeme with
  | closing => cases depth <;> rfl
  | opening => rfl
  | string text | word text => cases depth <;> simp [stray, leavesOpen]

end Token

/-! ## The tokens of code -/

mutual

/-- The tokens of an element at a place. -/
def Element.marks (place : Option Location) : Element → List (Mark × Option Location)
  | .word word => [(.text word.name, place)]
  | .literal text _ => [(.text text, place)]
  | .quote code => (.opening, place) :: (Code.marks code ++ [(.closing, none)])
  | .unknown text => [(.text text, place)]

/-- The tokens of code. -/
def Code.marks : List Instruction → List (Mark × Option Location)
  | [] => []
  | ⟨place, element⟩ :: rest => element.marks place ++ Code.marks rest

end

theorem Code.marks_append (front back : Code) :
    Code.marks (front ++ back) = Code.marks front ++ Code.marks back := by
  induction front with
  | nil => rfl
  | cons instruction rest ih =>
      obtain ⟨place, element⟩ := instruction
      rw [List.cons_append, Code.marks, ih, Code.marks, List.append_assoc]

theorem Code.marks_singleton (place : Option Location) (element : Element) :
    Code.marks [⟨place, element⟩] = element.marks place := List.append_nil _

/-- What a token means is written as the token. -/
theorem Element.marks_ofToken {binding : Binding} (faithful : binding.Faithful) (text : String)
    (place : Option Location) : (ofToken binding text).marks place = [(.text text, place)] := by
  rcases ofToken_cases binding text with ⟨word, bound, read⟩ | ⟨value, -, read⟩ | ⟨-, read⟩
  · rw [read, marks, faithful bound]
  · rw [read, marks]
  · rw [read, marks]

namespace Code

namespace Parser

variable {binding : Binding}

/-- The tokens before the innermost list: for each open list those that come before it in the list
around it, and its bracket. -/
def openMarks : List OpenList → List (Mark × Option Location)
  | [] => []
  | list :: outer =>
      openMarks outer ++ (Code.marks list.before.reverse ++ [(.opening, some list.bracket)])

/-- The tokens of what a parser has read. -/
def marks (parser : Parser) : List (Mark × Option Location) :=
  openMarks parser.outer ++ Code.marks parser.items.reverse

/-- A token is behind those read before, unless it is a bracket that closes nothing. That one is
reported. -/
theorem marks_step (faithful : binding.Faithful) (parser : Parser) (token : Token) :
    marks (step binding parser token) =
        marks parser ++ (Token.kept parser.outer.length [token]).map Token.mark ∧
      (step binding parser token).faults =
        ((Token.stray parser.outer.length [token]).map (.reading · .unbalancedClose)).reverse ++
          parser.faults := by
  obtain ⟨items, outer, faults⟩ := parser
  obtain ⟨lexeme, place⟩ := token
  cases lexeme with
  | opening =>
      refine ⟨?_, rfl⟩
      simp [marks, step, openMarks, Code.marks, Token.kept, Token.mark, Lexeme.mark]
  | closing =>
      cases outer with
      | nil => exact ⟨(List.append_nil _).symm, rfl⟩
      | cons list outer =>
          refine ⟨?_, rfl⟩
          simp [marks, step, close, openMarks, Code.marks_append, Code.marks_singleton,
            Element.marks, Token.kept, Token.mark]
  | string text | word text =>
      refine ⟨?_, by simp [step, Token.stray]⟩
      simp [marks, step, Code.marks_append, Code.marks_singleton, Element.marks_ofToken faithful,
        Token.kept, Token.mark, Lexeme.mark]

/-- What was read is what was read before, and the tokens but for those that are reported. -/
theorem marks_foldl (faithful : binding.Faithful) (tokens : List Token) (parser : Parser) :
    marks (tokens.foldl (step binding) parser) =
        marks parser ++ (Token.kept parser.outer.length tokens).map Token.mark ∧
      (tokens.foldl (step binding) parser).faults =
        ((Token.stray parser.outer.length tokens).map (.reading · .unbalancedClose)).reverse ++
          parser.faults := by
  induction tokens generalizing parser with
  | nil => exact ⟨(List.append_nil _).symm, rfl⟩
  | cons token rest ih =>
      have depth : (step binding parser token).outer.length =
          Token.leavesOpen parser.outer.length [token.lexeme] := length_outer_foldl [token] parser
      obtain ⟨read, reported⟩ := marks_step faithful parser token
      obtain ⟨reads, reports⟩ := ih (step binding parser token)
      rw [List.foldl_cons, Token.kept_cons, Token.stray_cons, ← depth]
      constructor
      · rw [reads, read, List.map_append, List.append_assoc]
      · rw [reports, reported, List.map_append, List.reverse_append, List.append_assoc]

/-- The end of the tokens closes the lists that are open. -/
theorem marks_finish (parser : Parser) :
    Code.marks parser.finish.1 =
      marks parser ++ List.replicate parser.outer.length (.closing, none) := by
  obtain ⟨items, outer, faults⟩ := parser
  induction outer generalizing items with
  | nil => exact (List.append_nil _).symm
  | cons list outer ih =>
      show Code.marks (finish ⟨_ :: list.before, outer, faults⟩).1 = _
      rw [ih, List.length_cons, List.replicate_succ]
      simp [marks, openMarks, Code.marks_append, Code.marks_singleton, Element.marks]

end Parser

end Code

/-- Where no name is bound to a word of another name, which is so in every machine that can be
reached, code has the tokens that it was read from, and one closing bracket more for every list that
they leave open, but no closing bracket that is met where no list is open. Every instruction has the
place of its token, a list that of its opening bracket. The closing brackets that are left out are
reported, each once, in order and with its own place, and nothing else is. -/
theorem Code.tokens_are_kept_in_code (tokens : List Token) :
    (∀ {binding : Binding}, binding.Faithful →
      Code.marks (ofTokens binding tokens).1 =
          (Token.kept 0 tokens).map Token.mark ++
            List.replicate (Token.leavesOpen 0 (tokens.map (·.lexeme))) (.closing, none) ∧
        (ofTokens binding tokens).2 =
          (Token.stray 0 tokens).map (.reading · .unbalancedClose)) ∧
    ∀ {limit : Nat} {host : Host} {machine : Machine}, Machine.Reached limit host machine →
      Binding.Faithful machine.bind := by
  refine ⟨fun {binding} faithful => ?_, fun reached => reached.inStep.faithful⟩
  obtain ⟨read, reported⟩ := Parser.marks_foldl faithful tokens {}
  constructor
  · rw [ofTokens, Parser.marks_finish, read, Parser.length_outer_foldl]
    rfl
  · rw [ofTokens, Parser.finish, reported, List.append_nil, List.reverse_reverse]
    rfl

/-- Two closing brackets close nothing, and the last list is left open. -/
theorem Code.tokens_are_kept_in_code_of_stray_brackets :
    ∃ machine : Machine, Machine.Reached 50 .empty machine ∧ Binding.Faithful machine.bind ∧
      let tokens : List Token :=
        [⟨.closing, ⟨"<text>", 1, 1⟩⟩, ⟨.opening, ⟨"<text>", 1, 3⟩⟩,
          ⟨.word "dup", ⟨"<text>", 1, 5⟩⟩, ⟨.closing, ⟨"<text>", 2, 1⟩⟩,
          ⟨.closing, ⟨"<text>", 2, 3⟩⟩, ⟨.opening, ⟨"<text>", 2, 4⟩⟩,
          ⟨.string "\"a\"", ⟨"<text>", 2, 6⟩⟩]
      Code.marks (ofTokens machine.bind tokens).1 =
          [(.opening, some ⟨"<text>", 1, 3⟩), (.text "dup", some ⟨"<text>", 1, 5⟩),
            (.closing, none), (.opening, some ⟨"<text>", 2, 4⟩),
            (.text "\"a\"", some ⟨"<text>", 2, 6⟩), (.closing, none)] ∧
        (ofTokens machine.bind tokens).2 =
          [.reading ⟨"<text>", 1, 1⟩ .unbalancedClose,
            .reading ⟨"<text>", 2, 3⟩ .unbalancedClose] := by
  obtain ⟨machine, made, -⟩ := Machine.exists_bootstrapped (show 0 < 50 by decide) .empty
  have reached : Machine.Reached 50 .empty machine := .bootstrapped made
  refine ⟨machine, reached, (tokens_are_kept_in_code []).2 reached, ?_⟩
  intro tokens
  obtain ⟨reads, faithful⟩ := tokens_are_kept_in_code tokens
  obtain ⟨written, reported⟩ := reads (faithful reached)
  exact ⟨written.trans (by decide), reported.trans (by decide)⟩

end LiveStack
