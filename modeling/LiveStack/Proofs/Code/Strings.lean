import LiveStack.Proofs.Code.Literals
import LiveStack.Proofs.Code.Segments

/-!
# Strings in source text

Three readings of a quoted string meet here. The writer escapes some characters, the lexer looks for
the closing quote from the left, one escape after the other, and the literal reader decides by the
backslashes before the last quote whether it closes. They agree: what is written for a string is one
token wherever a token may begin, and is read as the string; and what the lexer takes for a string is
always read as one.
-/

namespace LiveStack

open Token

/-! ## What is written between quotes -/

namespace Text.Quoted

/-- In what is written for a string, every quote is escaped, and so would not be what comes next. -/
theorem unquoted_flatMap (chars : List Char) :
    Unquoted (chars.flatMap encodeChar) ∧ ¬ Escapes (chars.flatMap encodeChar) := by
  induction chars using List.reverseRecOn with
  | nil => exact ⟨unquoted_nil, by decide⟩
  | append_singleton front c ih =>
      obtain ⟨unquoted, ends⟩ := ih
      rw [List.flatMap_append, List.flatMap_singleton]
      rcases encodeChar_cases c with ⟨written, plain, noQuote⟩ | ⟨other, written, -⟩
      · rw [written, escapes_concat]
        exact ⟨unquoted.concat fun same => absurd same noQuote, fun escapes => plain escapes.1⟩
      · -- the backslash that is written escapes the character behind it, and no more
        have escapes : Escapes (front.flatMap encodeChar ++ ['\\']) :=
          (escapes_concat _ _).2 ⟨rfl, ends⟩
        have unquoted' : Unquoted (front.flatMap encodeChar ++ ['\\']) :=
          unquoted.concat fun same => absurd same (by decide)
        rw [written, ← List.singleton_append, ← List.append_assoc, escapes_concat]
        exact ⟨unquoted'.concat fun _ => escapes, fun both => both.2 escapes⟩

/-- Characters between two quotes are a quoted string if the last quote is not escaped. -/
theorem decode?_of_ends {text : String} {inside : List Char}
    (written : text.toList = '"' :: (inside ++ ['"'])) (ends : ¬ Escapes inside) :
    decode? text = some (String.ofList (decodeBody inside)) := by
  have even : (inside.reverse.takeWhile (· = '\\')).length % 2 = 0 := by
    rw [Escapes] at ends
    omega
  rw [decode?, written, body?_of_even even, Option.map_some]

end Text.Quoted

open Text

/-! ## Tokens and what they are read as -/

namespace Segment

/-- What is written for a string is a whole segment, whatever comes behind it. -/
theorem fits_encode (text : String) (behind : List Char) :
    (Segment.token (.string (Quoted.encode text))).Fits behind :=
  ⟨text.toList.flatMap Quoted.encodeChar, String.toList_ofList, Quoted.unquoted_flatMap _⟩

variable {behind : List Char} {text : String}

theorem Fits.read?_string (fits : (Segment.token (.string text)).Fits behind) :
    ∃ body, Literal.read? text = some (.string body) := by
  obtain ⟨inside, written, -, ends⟩ := fits
  exact ⟨_, Literal.read?_eq_string_iff.2 (Quoted.decode?_of_ends written ends)⟩

theorem Fits.read?_word (fits : (Segment.token (.word text)).Fits behind) (body : String) :
    Literal.read? text ≠ some (.string body) := by
  obtain ⟨-, plain, -⟩ := fits
  intro read
  rw [Literal.read?_eq_string_iff, Quoted.decode?_eq_none plain] at read
  cases read

theorem mem_of_mem_tokens {name : String} {front : List Char} {segments : List Segment}
    {token : Token} (mem : token ∈ tokens name front segments) : .token token.lexeme ∈ segments := by
  induction segments generalizing front with
  | nil => cases mem
  | cons segment rest ih =>
      rw [tokens, List.mem_append] at mem
      rcases mem with own | others
      · cases segment with
        | blank c => cases own
        | token lexeme =>
            obtain rfl := List.mem_singleton.1 own
            exact List.mem_cons_self
      · exact List.mem_cons_of_mem _ (ih others)

end Segment

namespace Token

/-- Every token of a text is a whole segment of it. -/
theorem exists_fits {name source : String} {token : Token}
    (mem : token ∈ (ofSource name source).1) :
    ∃ behind, (Segment.token token.lexeme).Fits behind := by
  obtain ⟨segments, tail, cut⟩ := Segment.exists_cut source.toList
  have scanned : ofSource name source = (Segment.tokens name [] segments,
      cutOff name (segments.flatMap Segment.chars) tail) := finish_cut cut name [] []
  rw [scanned] at mem
  obtain ⟨front, back, split⟩ := List.append_of_mem (Segment.mem_of_mem_tokens mem)
  exact ⟨_, cut.fits split⟩

/-! ## Between two tokens -/

namespace Lexer

/-- A break character leaves nothing begun, unless it is in a string. -/
theorem pending_step_break {c : Char} (breaks : isBreak c = true) (lexer : Lexer) :
    (lexer.step c).pending = .nothing ∨
      ∃ start chars escaped, (lexer.step c).pending = .string start chars escaped := by
  have noQuote : c ≠ '"' := by
    rintro rfl
    cases breaks
  obtain ⟨here, pending, found⟩ := lexer
  cases pending with
  | nothing =>
      simp only [step, breaks, if_true]
      exact .inl rfl
  | word start chars =>
      simp only [step, breaks, if_true]
      exact .inl rfl
  | string start chars escaped =>
      simp only [step, if_neg noQuote]
      split_ifs
      all_goals exact .inr ⟨_, _, _, rfl⟩

/-- With nothing begun, and no string that is not ended, the tokens found are all there are. -/
theorem found_of_pending {lexer : Lexer} (between : lexer.pending = .nothing) :
    lexer.found = lexer.finish.1.reverse := by
  rw [finish, between]
  exact (List.reverse_reverse _).symm

/-- The tokens of the rest of a text are found whatever was found before. -/
theorem finish_foldl (name : String) (front rest : List Char) (found : List Token) :
    (rest.foldl step ⟨.behind name front, .nothing, found⟩).finish =
      (found.reverse ++ (scan ⟨.behind name front, rest⟩).1,
        (scan ⟨.behind name front, rest⟩).2) := by
  obtain ⟨segments, tail, cut⟩ := Segment.exists_cut rest
  have scanned : scan ⟨.behind name front, rest⟩ = (Segment.tokens name front segments,
      cutOff name (front ++ segments.flatMap Segment.chars) tail) := finish_cut cut name front []
  rw [finish_cut cut, scanned]

end Lexer

/-- The text ends where a token may begin: it is empty or ends with a blank or a bracket, and that
is in no string. -/
structure EndsBetween (name front : String) : Prop where
  whole : (ofSource name front).2 = []
  breaks : front = "" ∨ ∃ c ∈ front.toList.getLast?, isBreak c = true

variable {name front : String}

/-- After such a text the lexer has found its tokens, and has begun none. -/
theorem EndsBetween.foldl_step (between : EndsBetween name front) :
    front.toList.foldl Lexer.step ⟨.start name, .nothing, []⟩ =
      ⟨.behind name front.toList, .nothing, (ofSource name front).1.reverse⟩ := by
  have nothing : (front.toList.foldl Lexer.step ⟨.start name, .nothing, []⟩).pending = .nothing := by
    rcases between.breaks with rfl | ⟨c, last, breaks⟩
    · rfl
    obtain ⟨init, ends⟩ := List.getLast?_eq_some_iff.1 (Option.mem_def.1 last)
    have whole : (front.toList.foldl Lexer.step ⟨.start name, .nothing, []⟩).finish.2 = [] :=
      between.whole
    rw [ends, List.foldl_append, List.foldl_cons, List.foldl_nil] at whole ⊢
    -- Behind a character that breaks, only a string can be begun, and then it is not ended.
    rcases Lexer.pending_step_break breaks _ with none | ⟨start, chars, escaped, begun⟩
    · exact none
    · rw [Lexer.finish, begun] at whole
      cases whole
  have here := Lexer.here_foldl ⟨.start name, .nothing, []⟩ front.toList
  rw [show (Lexer.mk (.start name) .nothing []).here = .behind name [] from rfl,
    Location.advance_behind, List.nil_append] at here
  have found := Lexer.found_of_pending nothing
  generalize taken : front.toList.foldl Lexer.step ⟨.start name, .nothing, []⟩ = lexer at *
  have scanned : ofSource name front = lexer.finish := by
    rw [← taken]
    rfl
  obtain ⟨place, pending, own⟩ := lexer
  rw [scanned, ← found, show place = _ from here, show pending = _ from nothing]

/-- Where a token may begin, characters that are a whole token there are that token, and what stands
behind them is lexed as if it stood there alone. -/
theorem EndsBetween.ofSource_token (between : EndsBetween name front) {lexeme : Lexeme}
    {written rest : String} (text : lexeme.text = written)
    (fits : (Segment.token lexeme).Fits rest.toList) :
    let behind : Reader := ⟨.behind name (front.toList ++ written.toList), rest.toList⟩
    ofSource name (front ++ written ++ rest) =
      ((ofSource name front).1 ++ ⟨lexeme, .behind name front.toList⟩ :: (scan behind).1,
        (scan behind).2) := by
  intro behind
  show ((front ++ written ++ rest).toList.foldl Lexer.step ⟨.start name, .nothing, []⟩).finish = _
  have taken := finish_segment fits (.behind name front.toList) (ofSource name front).1.reverse
  rw [Segment.chars, text] at taken
  rw [String.toList_append, String.toList_append, List.append_assoc, List.foldl_append,
    between.foldl_step]
  refine taken.trans ?_
  rw [Location.advance_behind, Lexer.finish_foldl]
  simp [Segment.tokenAt, behind]

/-- **Strings survive quoting, lexing and reading.** In a text that goes on with a quoted string
where a token may begin, and then with anything, the lexer finds the tokens before it, the string as
one token, as it is written, and the tokens behind it. The token is read as the string that was
quoted. In turn, in every text, each token that the lexer takes for a string is read as one, and none
that it takes for a word is. -/
theorem strings_survive_quoting_lexing_and_reading :
    (∀ name front, EndsBetween name front → ∀ text rest,
      let quoted := Quoted.encode text
      let behind : Reader := ⟨.behind name (front.toList ++ quoted.toList), rest.toList⟩
      ofSource name (front ++ quoted ++ rest) =
        ((ofSource name front).1 ++
          ⟨.string quoted, .behind name front.toList⟩ :: (scan behind).1, (scan behind).2) ∧
      Literal.read? quoted = some (.string text)) ∧
    (∀ name source, ∀ token ∈ (ofSource name source).1,
      (∀ text, token.lexeme = .string text →
        ∃ body, Literal.read? text = some (.string body)) ∧
      (∀ text, token.lexeme = .word text →
        ∀ body, Literal.read? text ≠ some (.string body))) := by
  refine ⟨?_, ?_⟩
  · intro name front between text rest quoted behind
    exact ⟨between.ofSource_token rfl (Segment.fits_encode text rest.toList),
      Literal.read?_eq_string_iff.2 (Quoted.decode?_encode text)⟩
  · intro name source token mem
    -- Every token found fits what is behind it, and what fits as a string is written as one.
    obtain ⟨behind, fits⟩ := exists_fits mem
    refine ⟨?_, ?_⟩
    · intro text same
      rw [same] at fits
      exact fits.read?_string
    · intro text same body
      rw [same] at fits
      exact fits.read?_word body

/-- Behind a bracket, a string of a quote, a backslash and a line feed is one token, and the bracket
behind it is the next. A string with a backslash that escapes nothing is a string too, and a word
with a quote in it is none. -/
theorem strings_survive_quoting_lexing_and_reading_of_escapes :
    EndsBetween "<text>" "x [" ∧
    Quoted.encode "\"\\\n" = "\"\\\"\\\\\\n\"" ∧
    ofSource "<text>" ("x [" ++ Quoted.encode "\"\\\n" ++ "]") =
      ([⟨.word "x", ⟨"<text>", 1, 1⟩⟩, ⟨.opening, ⟨"<text>", 1, 3⟩⟩,
        ⟨.string (Quoted.encode "\"\\\n"), ⟨"<text>", 1, 4⟩⟩, ⟨.closing, ⟨"<text>", 1, 12⟩⟩], []) ∧
    Literal.read? (Quoted.encode "\"\\\n") = some (.string "\"\\\n") ∧
    (∃ body, Literal.read? "\"\\q\"" = some (.string body)) ∧
    (∀ body, Literal.read? "a\"b\"" ≠ some (.string body)) := by
  have between : EndsBetween "<text>" "x [" := ⟨by decide, .inr ⟨'[', by decide, by decide⟩⟩
  obtain ⟨survives, readable⟩ := strings_survive_quoting_lexing_and_reading
  obtain ⟨lexed, read⟩ := survives "<text>" "x [" between "\"\\\n" "]"
  let odd : Token := ⟨.string "\"\\q\"", ⟨"<text>", 1, 1⟩⟩
  let word : Token := ⟨.word "a\"b\"", ⟨"<text>", 1, 6⟩⟩
  have both : (ofSource "<text>" "\"\\q\" a\"b\"").1 = [odd, word] := by decide
  refine ⟨between, by decide, lexed.trans (by decide), read, ?_, ?_⟩
  · exact (readable _ _ odd (both ▸ List.mem_cons_self)).1 _ rfl
  · exact (readable _ _ word (both ▸ List.mem_cons_of_mem _ List.mem_cons_self)).2 _ rfl

end Token

end LiveStack
