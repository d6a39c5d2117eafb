import LiveStack.Proofs.Code.Brackets
import LiveStack.Proofs.Code.Lexing
import LiveStack.Proofs.Code.Places

/-!
# Reading the same tokens twice

The code of a text depends on its lexemes and on what the words in it mean, and on nothing else but
for places. Where the brackets of pieces are in pairs, the code of the whole is the code of the
pieces, so that a piece can be taken out, or replaced by another.
-/

namespace LiveStack

/-! ## Brackets in pairs -/

namespace Token

/-- Lexemes that close every list that they open, and no other, wherever they stand. -/
def Paired (lexemes : List Lexeme) : Prop :=
  ∀ (tokens rest : List Token) (depth : Nat), tokens.map (·.lexeme) = lexemes →
    closes depth (tokens ++ rest) = closes depth rest

namespace Paired

theorem nil : Paired [] := by
  intro tokens rest depth same
  rw [List.map_eq_nil_iff.1 same, List.nil_append]

theorem append {front back : List Lexeme} (paired : Paired front) (paired' : Paired back) :
    Paired (front ++ back) := by
  intro tokens rest depth same
  obtain ⟨first, second, rfl, same, same'⟩ := List.map_eq_append_iff.1 same
  rw [List.append_assoc, paired first _ depth same, paired' second rest depth same']

theorem word (text : String) : Paired [.word text] := by
  intro tokens rest depth same
  obtain ⟨⟨lexeme, place⟩, tokens, rfl, rfl, nil⟩ := List.map_eq_cons_iff.1 same
  rw [List.map_eq_nil_iff.1 nil]
  cases depth <;> rfl

theorem string (text : String) : Paired [.string text] := by
  intro tokens rest depth same
  obtain ⟨⟨lexeme, place⟩, tokens, rfl, rfl, nil⟩ := List.map_eq_cons_iff.1 same
  rw [List.map_eq_nil_iff.1 nil]
  cases depth <;> rfl

theorem list {inner : List Lexeme} (paired : Paired inner) :
    Paired (.opening :: (inner ++ [.closing])) := by
  intro tokens rest depth same
  obtain ⟨⟨lexeme, place⟩, tokens, rfl, rfl, rests⟩ := List.map_eq_cons_iff.1 same
  obtain ⟨inside, last, rfl, insides, ends⟩ := List.map_eq_append_iff.1 rests
  obtain ⟨⟨lexeme', place'⟩, tokens', rfl, closing, nil⟩ := List.map_eq_cons_iff.1 ends
  obtain rfl : lexeme' = .closing := closing
  rw [List.map_eq_nil_iff.1 nil, List.cons_append, List.append_assoc]
  show closes (depth + 1) (inside ++ ([⟨.closing, place'⟩] ++ rest)) = closes depth rest
  rw [paired inside _ _ insides]
  rfl

theorem closed {lexemes : List Lexeme} (paired : Paired lexemes) {tokens : List Token}
    (same : tokens.map (·.lexeme) = lexemes) : Closed tokens := by
  have whole := paired tokens [] 0 same
  rw [List.append_nil] at whole
  exact whole

end Paired

end Token

/-! ## The code of pieces -/

namespace Code

/-- The code of a text in three pieces is the code of the pieces. -/
theorem ofSource_pieces {front middle back : String} {before inside behind : List Lexeme}
    (first : Token.Yields front.toList before ∧ Token.Paired before)
    (second : Token.Yields middle.toList inside ∧ Token.Paired inside)
    (third : Token.Yields back.toList behind ∧ Token.Paired behind) (binding : Binding)
    (name : String) :
    ∃ fronts middles backs, fronts.map (·.lexeme) = before ∧ middles.map (·.lexeme) = inside ∧
      backs.map (·.lexeme) = behind ∧
      (ofSource binding name (front ++ middle ++ back)).1 = (ofTokens binding fronts).1 ++
        ((ofTokens binding middles).1 ++ (ofTokens binding backs).1) := by
  have yields : Token.Yields (front ++ middle ++ back).toList (before ++ inside ++ behind) := by
    rw [String.toList_append, String.toList_append]
    exact (first.1.append second.1).append third.1
  obtain ⟨tokens, lexed, lexemes⟩ := yields.ofSource name
  obtain ⟨tokens, backs, rfl, lexemes, ends⟩ := List.map_eq_append_iff.1 lexemes
  obtain ⟨fronts, middles, rfl, starts, middle'⟩ := List.map_eq_append_iff.1 lexemes
  have closed : Token.Closed (fronts ++ middles) :=
    (first.2.append second.2).closed (by rw [List.map_append, starts, middle'])
  refine ⟨fronts, middles, backs, starts, middle', ends, ?_⟩
  rw [ofSource, lexed, ← List.append_assoc]
  show (ofTokens binding (fronts ++ middles ++ backs)).1 = _
  rw [ofTokens_append closed.ended, ofTokens_append (first.2.closed starts).ended]

/-- A word that is bound is called. -/
theorem ofTokens_word {binding : Binding} {text : String} {word : Word}
    (bound : binding text = some word) (place : Location) :
    (ofTokens binding [⟨.word text, place⟩]).1 = [⟨some place, .word word⟩] := by
  show [(⟨some place, Element.ofToken binding text⟩ : Instruction)] = _
  rw [Element.ofToken, bound]

/-! ## The same but for places -/

/-- Open lists with the same before them, but for places. -/
def OpenList.unplaced (list : OpenList) : Code := Code.unplaced list.before

/-- Parsers that have read the same, but for places. -/
structure Parser.Like (first second : Parser) : Prop where
  items : Code.unplaced first.items = Code.unplaced second.items
  outer : first.outer.map OpenList.unplaced = second.outer.map OpenList.unplaced

end Code

/-- The words mean the same but for places, as far as lexemes name them. -/
def Binding.Like (first second : Binding) (lexemes : List Lexeme) : Prop :=
  ∀ lexeme ∈ lexemes, (first lexeme.text).map Word.unplaced = (second lexeme.text).map Word.unplaced

/-- The text that is looked up for a lexeme. Brackets are not looked up. -/
def Lexeme.lookup? : Lexeme → Option String
  | .opening | .closing => none
  | .string text | .word text => some text

/-- The words mean the same but for places, as far as they are looked up for lexemes. -/
def Binding.Agrees (first second : Binding) (lexemes : List Lexeme) : Prop :=
  ∀ lexeme ∈ lexemes, ∀ text ∈ lexeme.lookup?,
    (first text).map Word.unplaced = (second text).map Word.unplaced

theorem Binding.Like.agrees {first second : Binding} {lexemes : List Lexeme}
    (like : first.Like second lexemes) : first.Agrees second lexemes := by
  intro lexeme mem text looked
  cases lexeme with
  | opening | closing => cases looked
  | string own | word own =>
      cases looked
      exact like _ mem

theorem Element.ofToken_like {first second : Binding} {text : String}
    (same : (first text).map Word.unplaced = (second text).map Word.unplaced) :
    (Element.ofToken first text).unplaced = (Element.ofToken second text).unplaced := by
  rw [Element.ofToken, Element.ofToken]
  cases found : first text with
  | none =>
      cases found' : second text with
      | none => rfl
      | some word' => simp [found, found'] at same
  | some word =>
      cases found' : second text with
      | none => simp [found, found'] at same
      | some word' =>
          rw [found, found'] at same
          exact congrArg Element.word (Option.some.inj same)

namespace Code

variable {first second : Binding}

theorem unplaced_reverse {code code' : Code} (same : Code.unplaced code = Code.unplaced code') :
    Code.unplaced code.reverse = Code.unplaced code'.reverse := by
  simp only [unplaced_eq_map, List.map_reverse] at same ⊢
  rw [same]

theorem Parser.Like.step {parser parser' : Parser} (like : parser.Like parser')
    {token token' : Token} (same : token.lexeme = token'.lexeme)
    (bindings : ∀ text ∈ token.lexeme.lookup?,
      (first text).map Word.unplaced = (second text).map Word.unplaced) :
    (Parser.step first parser token).Like (Parser.step second parser' token') := by
  obtain ⟨items, outer, faults⟩ := parser
  obtain ⟨items', outer', faults'⟩ := parser'
  obtain ⟨lexeme, place⟩ := token
  obtain ⟨lexeme', place'⟩ := token'
  obtain ⟨same', outers⟩ := like
  obtain rfl : lexeme = lexeme' := same
  cases lexeme with
  | opening => exact ⟨rfl, congrArg₂ List.cons same' outers⟩
  | closing =>
      -- Both have as many lists open, so the bracket closes one in both or is too many in both.
      match outer, outer' with
      | [], [] => exact ⟨same', rfl⟩
      | list :: outer, list' :: outer' =>
          obtain ⟨before, outers⟩ := List.cons.inj outers
          refine ⟨congrArg₂ List.cons ?_ before, outers⟩
          show (⟨none, .quote (Code.unplaced items.reverse)⟩ : Instruction) =
            ⟨none, .quote (Code.unplaced items'.reverse)⟩
          rw [unplaced_reverse same']
      | [], _ :: _ => cases outers
      | _ :: _, [] => cases outers
  | string text | word text =>
      have elements : (Element.ofToken first text).unplaced =
          (Element.ofToken second text).unplaced := Element.ofToken_like (bindings text rfl)
      exact ⟨congrArg₂ List.cons (congrArg (Instruction.mk none) elements) same', outers⟩

theorem Parser.Like.foldl {parser parser' : Parser} (like : parser.Like parser')
    {tokens tokens' : List Token} {lexemes : List Lexeme}
    (same : tokens.map (·.lexeme) = lexemes) (same' : tokens'.map (·.lexeme) = lexemes)
    (bindings : first.Agrees second lexemes) :
    (tokens.foldl (Parser.step first) parser).Like
      (tokens'.foldl (Parser.step second) parser') := by
  induction lexemes generalizing tokens tokens' parser parser' with
  | nil =>
      rw [List.map_eq_nil_iff.1 same, List.map_eq_nil_iff.1 same']
      exact like
  | cons lexeme lexemes ih =>
      obtain ⟨token, tokens, rfl, rfl, sames⟩ := List.map_eq_cons_iff.1 same
      obtain ⟨token', tokens', rfl, equal, sames'⟩ := List.map_eq_cons_iff.1 same'
      exact ih (like.step equal.symm (bindings _ List.mem_cons_self)) sames sames'
        fun lexeme mem => bindings lexeme (List.mem_cons_of_mem _ mem)

/-- The end of the tokens closes the open lists in the same way. -/
theorem Parser.Like.finish {parser parser' : Parser} (like : parser.Like parser') :
    Code.unplaced parser.finish.1 = Code.unplaced parser'.finish.1 := by
  obtain ⟨items, outer, faults⟩ := parser
  obtain ⟨items', outer', faults'⟩ := parser'
  obtain ⟨same, outers⟩ := like
  refine unplaced_reverse ?_
  show Code.unplaced (outer.foldl _ items) = Code.unplaced (outer'.foldl _ items')
  simp only at same outers
  induction outer generalizing items items' outer' with
  | nil =>
      obtain rfl := List.map_eq_nil_iff.1 outers.symm
      exact same
  | cons list outer ih =>
      obtain ⟨list', outer', rfl, before, rests⟩ := List.map_eq_cons_iff.1 outers.symm
      rw [List.foldl_cons, List.foldl_cons]
      refine ih _ _ _ (congrArg₂ List.cons ?_ before.symm) rests.symm
      show (⟨none, .quote (Code.unplaced items.reverse)⟩ : Instruction) =
        ⟨none, .quote (Code.unplaced items'.reverse)⟩
      rw [unplaced_reverse same]

/-- The same lexemes are the same code but for places, where the words in them mean the same. -/
theorem ofTokens_agrees {tokens tokens' : List Token} {lexemes : List Lexeme}
    (same : tokens.map (·.lexeme) = lexemes) (same' : tokens'.map (·.lexeme) = lexemes)
    (bindings : first.Agrees second lexemes) :
    Code.unplaced (ofTokens first tokens).1 = Code.unplaced (ofTokens second tokens').1 :=
  (Parser.Like.foldl (⟨rfl, rfl⟩ : Parser.Like {} {}) same same' bindings).finish

theorem ofTokens_like {tokens tokens' : List Token} {lexemes : List Lexeme}
    (same : tokens.map (·.lexeme) = lexemes) (same' : tokens'.map (·.lexeme) = lexemes)
    (bindings : first.Like second lexemes) :
    Code.unplaced (ofTokens first tokens).1 = Code.unplaced (ofTokens second tokens').1 :=
  ofTokens_agrees same same' bindings.agrees

end Code

end LiveStack
