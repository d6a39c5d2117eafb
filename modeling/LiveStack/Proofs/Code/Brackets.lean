import LiveStack.Code.Parser

/-!
# Closed pieces of a text

A piece of a text is closed if it closes every list that it opens, and no other. Where closed
pieces follow each other, the code of the whole is the code of the pieces, one after the other:
what stands before a piece, or around it, makes no difference to what the piece means. Where nothing
stands around the pieces, it is enough that the first leaves no list open: a bracket that closes
nothing is dropped behind it as it is at the beginning of a text.
-/

namespace LiveStack

namespace Token

/-- Whether tokens close the `depth` lists that are open before them and every list that they open,
and no other. -/
def closes : (depth : Nat) → List Token → Bool
  | depth, [] => depth = 0
  | depth, ⟨.opening, _⟩ :: rest => closes (depth + 1) rest
  | depth + 1, ⟨.closing, _⟩ :: rest => closes depth rest
  | 0, ⟨.closing, _⟩ :: _ => false
  | depth, ⟨.string _, _⟩ :: rest | depth, ⟨.word _, _⟩ :: rest => closes depth rest

/-- Whether tokens close every list that they open, and no other. -/
def Closed (tokens : List Token) : Prop := closes 0 tokens = true

instance (tokens : List Token) : Decidable (Closed tokens) :=
  inferInstanceAs (Decidable (_ = true))

/-- The places of the tokens make no difference. -/
theorem closes_congr {tokens tokens' : List Token}
    (same : tokens.map (·.lexeme) = tokens'.map (·.lexeme)) (depth : Nat) :
    closes depth tokens = closes depth tokens' := by
  induction tokens generalizing tokens' depth with
  | nil => rw [List.map_eq_nil_iff.1 same.symm]
  | cons token rest ih =>
      obtain ⟨token', rest', rfl, lexeme, rests⟩ := List.map_eq_cons_iff.1 same.symm
      obtain ⟨own, place⟩ := token
      obtain ⟨own', place'⟩ := token'
      obtain rfl : own' = own := lexeme
      cases own' with
      | closing =>
          cases depth with
          | zero => rfl
          | succ depth => exact ih rests.symm depth
      | opening => exact ih rests.symm (depth + 1)
      | string text | word text => cases depth <;> exact ih rests.symm _

/-- How many lists are open behind lexemes, where `depth` are open before them. A closing bracket
that closes nothing changes nothing. -/
def leavesOpen : (depth : Nat) → List Lexeme → Nat
  | depth, [] => depth
  | depth, .opening :: rest => leavesOpen (depth + 1) rest
  | depth, .closing :: rest => leavesOpen (depth - 1) rest
  | depth, .string _ :: rest | depth, .word _ :: rest => leavesOpen depth rest

/-- Whether tokens leave no list open. -/
def Ended (tokens : List Token) : Prop := leavesOpen 0 (tokens.map (·.lexeme)) = 0

instance (tokens : List Token) : Decidable (Ended tokens) :=
  inferInstanceAs (Decidable (_ = _))

theorem leavesOpen_of_closes {depth : Nat} {tokens : List Token}
    (closed : closes depth tokens = true) : leavesOpen depth (tokens.map (·.lexeme)) = 0 := by
  fun_induction closes depth tokens with
  | case1 depth => simpa [leavesOpen] using closed
  | case4 => cases closed
  | case2 depth place rest ih | case3 depth place rest ih | case5 depth text place rest ih
  | case6 depth text place rest ih => exact ih closed

theorem Closed.ended {tokens : List Token} (closed : Closed tokens) : Ended tokens :=
  leavesOpen_of_closes closed

end Token

namespace Code

namespace Parser

variable {binding : Binding} {below : Code} {outer : List OpenList} {faults : List Fault}

/-- The open lists of a piece, the last of which has `below` before it, and `outer` around it. -/
def sink (below : Code) (outer : List OpenList) : List OpenList → List OpenList
  | [] => outer
  | [list] => { list with before := list.before ++ below } :: outer
  | list :: next :: rest => list :: sink below outer (next :: rest)

/-- A parser of a piece of a text, as it is where `below` comes before the piece and the lists
`outer` are around it. -/
def within (below : Code) (outer : List OpenList) (faults : List Fault) (parser : Parser) :
    Parser where
  items := if parser.outer = [] then parser.items ++ below else parser.items
  outer := sink below outer parser.outer
  faults := faults

/-- As long as a piece closes no list but its own, it is read in the same way everywhere. -/
theorem step_within (parser : Parser) (token : Token)
    (inside : token.lexeme = .closing → parser.outer ≠ []) :
    step binding (parser.within below outer faults) token =
      (step binding parser token).within below outer faults := by
  obtain ⟨items, lists, own⟩ := parser
  obtain ⟨lexeme, location⟩ := token
  cases lexeme with
  | opening =>
      match lists with
      | [] => rfl
      | [list] => rfl
      | list :: next :: rest => rfl
  | closing =>
      match lists with
      | [] => exact absurd rfl (inside rfl)
      | [list] => rfl
      | list :: next :: rest => rfl
  | string text | word text =>
      match lists with
      | [] => rfl
      | [list] => rfl
      | list :: next :: rest => rfl

theorem foldl_within (tokens : List Token) (parser : Parser)
    (closes : Token.closes parser.outer.length tokens = true) :
    tokens.foldl (step binding) (parser.within below outer faults) =
        (tokens.foldl (step binding) parser).within below outer faults ∧
      (tokens.foldl (step binding) parser).outer = [] ∧
      (tokens.foldl (step binding) parser).faults = parser.faults := by
  induction tokens generalizing parser with
  | nil =>
      simp only [Token.closes, decide_eq_true_eq, List.length_eq_zero_iff] at closes
      exact ⟨rfl, closes, rfl⟩
  | cons token rest ih =>
      rw [List.foldl_cons, List.foldl_cons]
      obtain ⟨items, lists, own⟩ := parser
      obtain ⟨lexeme, location⟩ := token
      cases lexeme with
      | opening =>
          rw [step_within _ _ (by simp)]
          exact ih _ (by simpa [step, Token.closes] using closes)
      | closing =>
          -- A closing bracket is where the lists around could be touched: it has to find one of its
          -- own open.
          cases lists with
          | nil => simp [Token.closes] at closes
          | cons list lists =>
              rw [step_within _ _ (fun _ => List.cons_ne_nil _ _)]
              exact ih _ (by simpa [step, close, Token.closes] using closes)
      | string text | word text =>
          rw [step_within _ _ (by simp)]
          exact ih _ (by simpa [step, Token.closes] using closes)

end Parser

/-! ## Pieces that leave no list open -/

namespace Parser

variable {binding : Binding} {below : Code} {faults : List Fault}

theorem length_outer_foldl (tokens : List Token) (parser : Parser) :
    (tokens.foldl (step binding) parser).outer.length =
      Token.leavesOpen parser.outer.length (tokens.map (·.lexeme)) := by
  induction tokens generalizing parser with
  | nil => rfl
  | cons token rest ih =>
      obtain ⟨lexeme, location⟩ := token
      rw [List.foldl_cons, ih]
      cases lexeme with
      | closing =>
          obtain ⟨items, outer, own⟩ := parser
          cases outer <;> rfl
      | _ => rfl

/-- With no list around it, a piece is read in the same way even where it closes nothing: only the
problems that are reported differ. -/
theorem foldl_within_root (tokens : List Token) (parser : Parser) :
    ∃ faults', tokens.foldl (step binding) (parser.within below [] faults) =
      (tokens.foldl (step binding) parser).within below [] faults' := by
  induction tokens generalizing parser faults with
  | nil => exact ⟨faults, rfl⟩
  | cons token rest ih =>
      rw [List.foldl_cons, List.foldl_cons]
      by_cases inside : token.lexeme = .closing → parser.outer ≠ []
      · rw [step_within parser token inside]
        exact ih _
      · obtain ⟨items, outer, own⟩ := parser
        obtain ⟨lexeme, location⟩ := token
        simp only [Classical.not_imp, Classical.not_not] at inside
        obtain ⟨rfl, rfl⟩ := inside
        exact ih ⟨items, [], .reading location .unbalancedClose :: own⟩

/-- What comes before a piece comes before its code. -/
theorem finish_within_root (parser : Parser) :
    (parser.within below [] faults).finish.1 = below.reverse ++ parser.finish.1 := by
  obtain ⟨items, outer, own⟩ := parser
  induction outer generalizing items with
  | nil => exact List.reverse_append
  | cons list outer ih =>
      cases outer with
      | nil =>
          show (_ :: (list.before ++ below)).reverse = below.reverse ++ (_ :: list.before).reverse
          rw [← List.cons_append, List.reverse_append]
          rfl
      | cons next rest => exact ih _

end Parser

/-- Behind a piece that leaves no list open, tokens are the code that they are by themselves. -/
theorem ofTokens_append {front : List Token} (ended : Token.Ended front) (back : List Token)
    (binding : Binding) :
    (ofTokens binding (front ++ back)).1 =
      (ofTokens binding front).1 ++ (ofTokens binding back).1 := by
  have none : (front.foldl (Parser.step binding) {}).outer.length = 0 :=
    (Parser.length_outer_foldl front {}).trans ended
  rw [ofTokens, ofTokens, ofTokens, List.foldl_append]
  generalize front.foldl (Parser.step binding) {} = parser at *
  obtain ⟨items, outer, faults⟩ := parser
  obtain rfl := List.length_eq_zero_iff.1 none
  have start : Parser.within items [] faults {} = ⟨items, [], faults⟩ := rfl
  rw [← start]
  obtain ⟨faults', read⟩ := Parser.foldl_within_root back {}
  rw [read, Parser.finish_within_root]
  rfl

/-! ## Closed pieces -/

/-- A closed piece adds its own code, whatever the parser has read before. -/
theorem foldl_step_of_closed {tokens : List Token} (closed : Token.Closed tokens)
    (binding : Binding) (items : Code) (outer : List OpenList) (faults : List Fault) :
    tokens.foldl (Parser.step binding) ⟨items, outer, faults⟩ =
      ⟨(ofTokens binding tokens).1.reverse ++ items, outer, faults⟩ := by
  have start : Parser.within items outer faults {} = ⟨items, outer, faults⟩ := rfl
  rw [← start]
  obtain ⟨whole, ended, -⟩ := Parser.foldl_within tokens {} closed
  rw [whole, ofTokens, Parser.finish, ended, Parser.within, ended]
  simp [Parser.sink]

/-- A closed piece in brackets is a list of its code. -/
theorem ofTokens_list {tokens : List Token} (closed : Token.Closed tokens) (binding : Binding)
    (place place' : Location) :
    (ofTokens binding (⟨.opening, place⟩ :: (tokens ++ [⟨.closing, place'⟩]))).1 =
      [⟨some place, .quote (ofTokens binding tokens).1⟩] := by
  rw [ofTokens, List.foldl_cons, List.foldl_append]
  show (List.foldl _ (tokens.foldl (Parser.step binding) ⟨[], [⟨place, []⟩], []⟩) _).finish.1 = _
  rw [foldl_step_of_closed closed]
  simp [Parser.step, Parser.close, Parser.finish]

/-- Reading a closed piece meets no problem. -/
theorem faults_of_closed {tokens : List Token} (closed : Token.Closed tokens)
    (binding : Binding) : (ofTokens binding tokens).2 = [] := by
  have clean : (tokens.foldl (Parser.step binding) {}).faults = [] :=
    (Parser.foldl_within tokens {} closed : _ = Parser.within [] [] [] _ ∧ _).2.2
  rw [ofTokens, Parser.finish, clean]
  rfl

end Code

end LiveStack
