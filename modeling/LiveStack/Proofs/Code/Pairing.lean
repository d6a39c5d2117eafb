import LiveStack.Proofs.Code.Reading

/-!
# Brackets put in pairs

The reader of code drops a closing bracket that closes nothing, and closes at the end what a text
leaves open. So a text means the same when its brackets are put in pairs first (`Lexeme.pairUp`),
and then it reads without a problem. Every token that the lexer finds is a token by itself, so that
the tokens can be written down with a blank behind each, and lex to themselves again.
-/

namespace LiveStack

namespace Lexeme

/-- The text of the lexeme lexes to it, and to nothing else. -/
def Whole (lexeme : Lexeme) : Prop :=
  ∀ name, Token.ofSource name lexeme.text = ([⟨lexeme, .start name⟩], [])

/-- The text of lexemes, with a blank behind each. -/
def spell : List Lexeme → String
  | [] => ""
  | lexeme :: rest => lexeme.text ++ " " ++ spell rest

/-- The lexemes without the closing brackets that close nothing, and with those that are missing,
where `depth` lists are open before them. -/
def pairUp : (depth : Nat) → List Lexeme → List Lexeme
  | depth, [] => List.replicate depth .closing
  | depth, .opening :: rest => .opening :: pairUp (depth + 1) rest
  | 0, .closing :: rest => pairUp 0 rest
  | depth + 1, .closing :: rest => .closing :: pairUp depth rest
  | depth, .string text :: rest => .string text :: pairUp depth rest
  | depth, .word text :: rest => .word text :: pairUp depth rest

theorem spell_append (front back : List Lexeme) :
    spell (front ++ back) = spell front ++ spell back := by
  induction front with
  | nil => simp [spell]
  | cons lexeme rest ih => simp [spell, ih, String.append_assoc]

theorem pairUp_replicate (depth : Nat) :
    pairUp depth (List.replicate depth .closing) = List.replicate depth .closing := by
  induction depth with
  | zero => rfl
  | succ depth ih => rw [List.replicate_succ, pairUp, ih]

/-- Brackets in pairs are left as they are. -/
theorem pairUp_pairUp (depth : Nat) (lexemes : List Lexeme) :
    pairUp depth (pairUp depth lexemes) = pairUp depth lexemes := by
  fun_induction pairUp depth lexemes with
  | case1 depth => exact pairUp_replicate depth
  | case2 depth rest ih => rw [pairUp, ih]
  | case3 rest ih => exact ih
  | case4 depth rest ih => rw [pairUp, ih]
  | case5 depth text rest ih => rw [pairUp, ih]
  | case6 depth text rest ih => rw [pairUp, ih]

theorem mem_pairUp {depth : Nat} {lexemes : List Lexeme} {lexeme : Lexeme}
    (mem : lexeme ∈ pairUp depth lexemes) : lexeme ∈ lexemes ∨ lexeme = .closing := by
  fun_induction pairUp depth lexemes with
  | case1 depth => exact .inr (List.eq_of_mem_replicate mem)
  | case3 rest ih => exact (ih mem).imp_left (List.mem_cons_of_mem _)
  | case2 depth rest ih | case4 depth rest ih | case5 depth text rest ih
  | case6 depth text rest ih =>
      rcases List.mem_cons.1 mem with rfl | mem
      · exact .inl List.mem_cons_self
      · exact (ih mem).imp_left (List.mem_cons_of_mem _)

end Lexeme

namespace Token

/-! ## Tokens by themselves -/

namespace Lexer

/-- A token that is begun is begun by its own characters, wherever they stand. -/
def Alone : Pending → Prop
  | .nothing => True
  | .word _ chars => ∀ here, ∃ there, chars.reverse.foldl step ⟨here, .nothing, []⟩ =
      ⟨there, .word here chars, []⟩
  | .string _ chars escaped => ∀ here, ∃ there, chars.reverse.foldl step ⟨here, .nothing, []⟩ =
      ⟨there, .string here chars escaped, []⟩

/-- Every token found, and the one begun, is what it is by itself. -/
structure Clean (lexer : Lexer) : Prop where
  pending : Alone lexer.pending
  found : ∀ token ∈ lexer.found, token.lexeme.Whole

theorem foldl_reverse_cons (c : Char) (chars : List Char) (start : Lexer) :
    (c :: chars).reverse.foldl step start = (chars.reverse.foldl step start).step c := by
  rw [List.reverse_cons, List.foldl_append]
  rfl

theorem whole_opening : Lexeme.Whole .opening := by
  intro name
  rfl

theorem whole_closing : Lexeme.Whole .closing := by
  intro name
  rfl

/-- A word that ends is a word by itself. -/
theorem whole_word {start : Location} {chars : List Char} (alone : Alone (.word start chars)) :
    Lexeme.Whole (.word (textOf chars)) := by
  intro name
  obtain ⟨there, read⟩ := alone (.start name)
  show ((textOf chars).toList.foldl step ⟨.start name, .nothing, []⟩).finish = _
  rw [textOf, String.toList_ofList, read]
  rfl

/-- A string that ends is a string by itself. -/
theorem whole_string {start : Location} {chars : List Char}
    (alone : Alone (.string start chars false)) :
    Lexeme.Whole (.string (textOf ('"' :: chars))) := by
  intro name
  obtain ⟨there, read⟩ := alone (.start name)
  show ((textOf ('"' :: chars)).toList.foldl step ⟨.start name, .nothing, []⟩).finish = _
  rw [textOf, String.toList_ofList, foldl_reverse_cons, read]
  rfl

section

variable {found : List Token} {start : Location} {chars : List Char}
  (whole : ∀ token ∈ found, token.lexeme.Whole) (here : Location) (c : Char)

include whole

theorem clean_breakAt : (breakAt here found c).Clean := by
  refine ⟨True.intro, ?_⟩
  intro token mem
  simp only [breakAt] at mem
  split at mem
  · rcases List.mem_cons.1 mem with rfl | mem
    · exact whole_opening
    · exact whole token mem
  · split at mem
    · rcases List.mem_cons.1 mem with rfl | mem
      · exact whole_closing
      · exact whole token mem
    · exact whole token mem

theorem clean_step_nothing : (Lexer.step ⟨here, .nothing, found⟩ c).Clean := by
  simp only [Lexer.step]
  split
  · exact clean_breakAt whole here c
  · next solid =>
      split
      · next quote =>
          refine ⟨?_, whole⟩
          intro here
          refine ⟨here.after c, ?_⟩
          subst quote
          rfl
      · next plain =>
          refine ⟨?_, whole⟩
          intro here
          refine ⟨here.after c, ?_⟩
          simp [Lexer.step, solid, plain]

theorem clean_step_word (alone : Alone (.word start chars)) :
    (Lexer.step ⟨here, .word start chars, found⟩ c).Clean := by
  simp only [Lexer.step]
  split
  · refine clean_breakAt ?_ here c
    intro token mem
    rcases List.mem_cons.1 mem with rfl | mem
    · exact whole_word alone
    · exact whole token mem
  · next solid =>
      refine ⟨?_, whole⟩
      intro here
      obtain ⟨there, read⟩ := alone here
      refine ⟨there.after c, ?_⟩
      rw [foldl_reverse_cons, read]
      simp [Lexer.step, solid]

theorem clean_step_string {escaped : Bool} (alone : Alone (.string start chars escaped)) :
    (Lexer.step ⟨here, .string start chars escaped, found⟩ c).Clean := by
  have further (escaped' : Bool) (taken : ∀ here there : Location,
      Lexer.step ⟨there, .string here chars escaped, []⟩ c =
        ⟨there.after c, .string here (c :: chars) escaped', []⟩) :
      Alone (.string start (c :: chars) escaped') := by
    intro here
    obtain ⟨there, read⟩ := alone here
    exact ⟨there.after c, by rw [foldl_reverse_cons, read, taken]⟩
  simp only [Lexer.step]
  split
  · next isEscaped => exact ⟨further false (by simp [Lexer.step, isEscaped]), whole⟩
  · next notEscaped =>
      split
      · next backslash =>
          exact ⟨further true (by simp [Lexer.step, notEscaped, backslash]), whole⟩
      · next plain =>
          split
          · next quote =>
              -- Only here does a string end, so that it is whole with this quote.
              refine ⟨True.intro, ?_⟩
              intro token mem
              obtain rfl : escaped = false := by simpa using notEscaped
              rcases List.mem_cons.1 mem with rfl | mem
              · rw [quote]
                exact whole_string alone
              · exact whole token mem
          · next unquoted =>
              exact ⟨further false (by simp [Lexer.step, notEscaped, plain, unquoted]), whole⟩

end

theorem Clean.step {lexer : Lexer} (clean : lexer.Clean) (c : Char) : (lexer.step c).Clean := by
  obtain ⟨here, pending, found⟩ := lexer
  obtain ⟨alone, whole⟩ := clean
  cases pending with
  | nothing => exact clean_step_nothing whole here c
  | word start chars => exact clean_step_word whole here c alone
  | string start chars escaped => exact clean_step_string whole here c alone

theorem Clean.foldl {lexer : Lexer} (clean : lexer.Clean) (chars : List Char) :
    (chars.foldl Lexer.step lexer).Clean := by
  induction chars generalizing lexer with
  | nil => exact clean
  | cons c rest ih => exact ih (clean.step c)

end Lexer

/-- Every token of a text lexes to itself. -/
theorem whole_of_mem {name source : String} {token : Token}
    (mem : token ∈ (ofSource name source).1) : token.lexeme.Whole := by
  have start : Lexer.Clean ⟨.start name, .nothing, []⟩ := ⟨True.intro, by simp⟩
  have clean := start.foldl source.toList
  rw [show ofSource name source =
    (source.toList.foldl Lexer.step ⟨.start name, .nothing, []⟩).finish from rfl] at mem
  generalize source.toList.foldl Lexer.step ⟨.start name, .nothing, []⟩ = lexer at clean mem
  obtain ⟨here, pending, found⟩ := lexer
  obtain ⟨alone, whole⟩ := clean
  cases pending with
  | nothing => exact whole token (List.mem_reverse.1 mem)
  | word start chars =>
      rcases List.mem_cons.1 (List.mem_reverse.1 mem) with rfl | mem
      · exact Lexer.whole_word alone
      · exact whole token mem
  | string start chars escaped => exact whole token (List.mem_reverse.1 mem)

/-- Lexemes that are whole lex to themselves when they are written with a blank behind each. -/
theorem yields_spell {lexemes : List Lexeme} (whole : ∀ lexeme ∈ lexemes, lexeme.Whole) :
    Yields (Lexeme.spell lexemes).toList lexemes := by
  induction lexemes with
  | nil => exact .nil
  | cons lexeme rest ih =>
      have first := yields_of_ofSource (whole lexeme List.mem_cons_self "")
      rw [Lexeme.spell, String.toList_append, String.toList_append]
      exact first.append (ih fun lexeme mem => whole lexeme (List.mem_cons_of_mem _ mem))

/-- Brackets that were put in pairs are in pairs. -/
theorem closes_of_pairUp {depth : Nat} {lexemes : List Lexeme} {tokens : List Token}
    (paired : tokens.map (·.lexeme) = Lexeme.pairUp depth lexemes) :
    closes depth tokens = true := by
  fun_induction Lexeme.pairUp depth lexemes generalizing tokens with
  | case1 depth =>
      induction depth generalizing tokens with
      | zero =>
          rw [List.map_eq_nil_iff.1 paired]
          rfl
      | succ depth ih =>
          obtain ⟨⟨lexeme, place⟩, tokens, rfl, rfl, rests⟩ := List.map_eq_cons_iff.1 paired
          exact ih rests
  | case3 rest ih => exact ih paired
  | case2 depth rest ih | case4 depth rest ih | case5 depth text rest ih
  | case6 depth text rest ih =>
      obtain ⟨⟨lexeme, place⟩, tokens, rfl, rfl, rests⟩ := List.map_eq_cons_iff.1 paired
      rw [closes]
      exact ih rests

/-! ## Texts with their brackets in pairs -/

/-- The tokens of a text with a blank behind each, and with their brackets in pairs. -/
def tidy (source : String) : String :=
  Lexeme.spell (Lexeme.pairUp 0 ((ofSource "" source).1.map (·.lexeme)))

/-- The tokens of a tidy text are those of the text with their brackets in pairs. -/
theorem ofSource_tidy (name name' source : String) :
    ∃ tokens, ofSource name (tidy source) = (tokens, []) ∧
      tokens.map (·.lexeme) = Lexeme.pairUp 0 ((ofSource name' source).1.map (·.lexeme)) := by
  have whole : ∀ lexeme ∈ Lexeme.pairUp 0 ((ofSource "" source).1.map (·.lexeme)),
      lexeme.Whole := by
    intro lexeme mem
    rcases Lexeme.mem_pairUp mem with known | rfl
    · obtain ⟨token, found, rfl⟩ := List.mem_map.1 known
      exact whole_of_mem found
    · exact Lexer.whole_closing
  rw [map_lexeme_ofSource name' ""]
  exact (yields_spell whole).ofSource name

/-- A tidy text stays as it is. -/
theorem tidy_tidy (source : String) : tidy (tidy source) = tidy source := by
  obtain ⟨tokens, lexed, paired⟩ := ofSource_tidy "" "" source
  rw [tidy, lexed, paired, Lexeme.pairUp_pairUp, ← tidy]

end Token

/-! ## The code of brackets put in pairs -/

namespace Code

/-- Closing brackets for all open lists do what the end of the tokens does. -/
theorem finish_closings {binding : Binding} (parser : Parser) {tokens : List Token}
    (closings : tokens.map (·.lexeme) = List.replicate parser.outer.length .closing) :
    (tokens.foldl (Parser.step binding) parser).finish.1 = parser.finish.1 := by
  obtain ⟨items, outer, faults⟩ := parser
  induction outer generalizing items tokens with
  | nil =>
      rw [List.map_eq_nil_iff.1 closings]
      rfl
  | cons list outer ih =>
      obtain ⟨⟨lexeme, place⟩, tokens, rfl, rfl, rests⟩ := List.map_eq_cons_iff.1 closings
      exact ih _ rests

/-- From parsers that have read the same, tokens are read like the same tokens with their brackets
in pairs. -/
theorem Parser.Like.pairUp {binding : Binding} {parser parser' : Parser}
    (like : parser.Like parser') {tokens tokens' : List Token}
    (paired : tokens'.map (·.lexeme) =
      Lexeme.pairUp parser.outer.length (tokens.map (·.lexeme))) :
    Code.unplaced (tokens.foldl (Parser.step binding) parser).finish.1 =
      Code.unplaced (tokens'.foldl (Parser.step binding) parser').finish.1 := by
  induction tokens generalizing parser parser' tokens' with
  | nil =>
      have outer : parser.outer.length = parser'.outer.length := by
        simpa using congrArg List.length like.outer
      rw [List.map_nil, Lexeme.pairUp, outer] at paired
      rw [finish_closings parser' paired]
      exact like.finish
  | cons token rest ih =>
      obtain ⟨lexeme, place⟩ := token
      obtain ⟨items, outer, faults⟩ := parser
      rw [List.map_cons] at paired
      cases lexeme with
      | opening =>
          rw [Lexeme.pairUp] at paired
          obtain ⟨token', rest', rfl, same, rests⟩ := List.map_eq_cons_iff.1 paired
          exact ih (like.step same.symm fun _ _ => rfl) rests
      | closing =>
          cases outer with
          | nil =>
              -- The bracket is dropped on one side, and missing on the other.
              rw [List.length_nil, Lexeme.pairUp] at paired
              have dropped : Parser.Like
                  ⟨items, [], .reading place .unbalancedClose :: faults⟩ parser' :=
                ⟨like.items, like.outer⟩
              exact ih dropped paired
          | cons list outer =>
              rw [List.length_cons, Lexeme.pairUp] at paired
              obtain ⟨token', rest', rfl, same, rests⟩ := List.map_eq_cons_iff.1 paired
              exact ih (like.step same.symm fun _ _ => rfl) rests
      | string text | word text =>
          rw [Lexeme.pairUp] at paired
          obtain ⟨token', rest', rfl, same, rests⟩ := List.map_eq_cons_iff.1 paired
          exact ih (like.step same.symm fun _ _ => rfl) rests

/-- The code of tokens is the code of the same tokens with their brackets in pairs, but for
places. -/
theorem ofTokens_pairUp (binding : Binding) {tokens tokens' : List Token}
    (paired : tokens'.map (·.lexeme) = Lexeme.pairUp 0 (tokens.map (·.lexeme))) :
    Code.unplaced (ofTokens binding tokens').1 = Code.unplaced (ofTokens binding tokens).1 :=
  ((⟨rfl, rfl⟩ : Parser.Like {} {}).pairUp paired).symm

/-- A tidy text reads as the same code as the text, and without a problem. -/
theorem ofSource_tidy (binding : Binding) (name name' source : String) :
    Code.unplaced (ofSource binding name (Token.tidy source)).1 =
        Code.unplaced (ofSource binding name' source).1 ∧
      (ofSource binding name (Token.tidy source)).2 = [] := by
  obtain ⟨tokens, lexed, paired⟩ := Token.ofSource_tidy name name' source
  have closed : Token.Closed tokens := Token.closes_of_pairUp paired
  rw [ofSource, lexed]
  exact ⟨ofTokens_pairUp binding paired, faults_of_closed closed binding⟩

end Code

end LiveStack
