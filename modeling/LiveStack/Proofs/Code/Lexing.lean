import LiveStack.Token
import LiveStack.Text.Quoted

/-!
# Texts in pieces

A piece of a text that begins and ends between two tokens yields the same tokens in every text,
but for their places. So the tokens of a text are found piece by piece. A text that lexes without a
problem is such a piece as soon as a blank or a bracket stands behind it, and so are a name that can
name a word, with a blank behind it, and a quoted string.
-/

namespace LiveStack

/-- The lexeme that a break character is. A blank is none. -/
def Lexeme.ofBreak (c : Char) : List Lexeme :=
  if c = '[' then [.opening] else if c = ']' then [.closing] else []

theorem Lexeme.reverse_ofBreak (c : Char) : (ofBreak c).reverse = ofBreak c := by
  rw [ofBreak]
  split
  · rfl
  · split <;> rfl

namespace Token

/-- Characters that begin and end between two tokens, and the lexemes that they are in every
text. -/
def Yields (chars : List Char) (lexemes : List Lexeme) : Prop :=
  ∀ (here : Location) (found : List Token), ∃ (there : Location) (tokens : List Token),
    chars.foldl Lexer.step ⟨here, .nothing, found⟩ = ⟨there, .nothing, tokens.reverse ++ found⟩ ∧
      tokens.map (·.lexeme) = lexemes

namespace Yields

variable {front back : List Char} {before behind : List Lexeme}

theorem nil : Yields [] [] := fun here _ => ⟨here, [], rfl, rfl⟩

theorem append (yields : Yields front before) (yields' : Yields back behind) :
    Yields (front ++ back) (before ++ behind) := by
  intro here found
  obtain ⟨there, tokens, read, lexemes⟩ := yields here found
  obtain ⟨there', tokens', read', lexemes'⟩ := yields' there (tokens.reverse ++ found)
  refine ⟨there', tokens ++ tokens', ?_, ?_⟩
  · rw [List.foldl_append, read, read', List.reverse_append, List.append_assoc]
  · rw [List.map_append, lexemes, lexemes']

theorem opening : Yields ['['] [.opening] := fun here _ => ⟨_, [⟨.opening, here⟩], rfl, rfl⟩

theorem closing : Yields [']'] [.closing] := fun here _ => ⟨_, [⟨.closing, here⟩], rfl, rfl⟩

theorem blank : Yields [' '] [] := fun _ _ => ⟨_, [], rfl, rfl⟩

/-- The tokens of a text that is such a piece. -/
theorem ofSource {source : String} {lexemes : List Lexeme} (yields : Yields source.toList lexemes)
    (name : String) :
    ∃ tokens, Token.ofSource name source = (tokens, []) ∧ tokens.map (·.lexeme) = lexemes := by
  obtain ⟨there, tokens, read, same⟩ := yields (.start name) []
  refine ⟨tokens, ?_, same⟩
  show (source.toList.foldl Lexer.step ⟨.start name, .nothing, []⟩).finish = _
  rw [read, List.append_nil]
  exact Prod.ext (List.reverse_reverse tokens) rfl

end Yields

/-! ## Texts that lex without a problem -/

/-- Tokens begun, with the same characters so far. -/
inductive Pending.Same : Pending → Pending → Prop
  | nothing : Same .nothing .nothing
  | word (start start' : Location) (chars : List Char) :
      Same (.word start chars) (.word start' chars)
  | string (start start' : Location) (chars : List Char) (escaped : Bool) :
      Same (.string start chars escaped) (.string start' chars escaped)

/-- Two lexers in the same text, the second of which has found other tokens before. -/
structure Lexer.Behind (found : List Token) (first second : Lexer) : Prop where
  pending : first.pending.Same second.pending
  tokens : ∃ tokens, second.found = tokens ++ found ∧
    tokens.map (·.lexeme) = first.found.map (·.lexeme)

namespace Lexer

variable {found : List Token}

/-- A token more is found by both. -/
theorem exists_cons {own own' : List Token}
    (same : ∃ tokens, own' = tokens ++ found ∧ tokens.map (·.lexeme) = own.map (·.lexeme))
    (lexeme : Lexeme) (start start' : Location) :
    ∃ tokens, ⟨lexeme, start'⟩ :: own' = tokens ++ found ∧
      tokens.map (·.lexeme) = (⟨lexeme, start⟩ :: own).map (·.lexeme) := by
  obtain ⟨tokens, rfl, lexemes⟩ := same
  exact ⟨⟨lexeme, start'⟩ :: tokens, rfl, by rw [List.map_cons, List.map_cons, lexemes]⟩

theorem behind_breakAt {own own' : List Token}
    (same : ∃ tokens, own' = tokens ++ found ∧ tokens.map (·.lexeme) = own.map (·.lexeme))
    (here here' : Location) (c : Char) :
    Behind found (breakAt here own c) (breakAt here' own' c) := by
  refine ⟨.nothing, ?_⟩
  simp only [breakAt]
  split
  · exact exists_cons same .opening here here'
  · split
    · exact exists_cons same .closing here here'
    · exact same

/-- The tokens found before make no difference to a step. -/
theorem Behind.step {first second : Lexer} (behind : Behind found first second) (c : Char) :
    Behind found (first.step c) (second.step c) := by
  obtain ⟨here, pending, own⟩ := first
  obtain ⟨here', pending', own'⟩ := second
  obtain ⟨pendings, tokens⟩ := behind
  -- What a step does depends on the token that is begun and on the character only.
  cases pendings with
  | nothing =>
      simp only [Lexer.step]
      split
      · exact behind_breakAt tokens here here' c
      · split
        · exact ⟨.string .., tokens⟩
        · exact ⟨.word .., tokens⟩
  | word start start' chars =>
      simp only [Lexer.step]
      split
      · exact behind_breakAt (exists_cons tokens (.word (textOf chars)) start start') here here' c
      · exact ⟨.word .., tokens⟩
  | string start start' chars escaped =>
      simp only [Lexer.step]
      split
      · exact ⟨.string .., tokens⟩
      · split
        · exact ⟨.string .., tokens⟩
        · split
          · exact ⟨.nothing, exists_cons tokens _ start start'⟩
          · exact ⟨.string .., tokens⟩

theorem Behind.foldl {first second : Lexer} (behind : Behind found first second)
    (chars : List Char) :
    Behind found (chars.foldl Lexer.step first) (chars.foldl Lexer.step second) := by
  induction chars generalizing first second with
  | nil => exact behind
  | cons c rest ih => exact ih (behind.step c)

/-- A break character adds its own lexeme to what was found. -/
theorem breakAt_eq (here : Location) (own : List Token) (c : Char) :
    breakAt here own c =
      ⟨here.after c, .nothing, (Lexeme.ofBreak c).map (⟨·, here⟩) ++ own⟩ := by
  rw [breakAt, Lexeme.ofBreak]
  split
  · rfl
  · split <;> rfl

/-- A break character ends what the end of the text would end. -/
theorem step_break {c : Char} (breaks : isBreak c = true) {lexer : Lexer} {tokens : List Token}
    (ended : lexer.finish = (tokens, [])) :
    lexer.step c = breakAt lexer.here tokens.reverse c := by
  obtain ⟨here, pending, own⟩ := lexer
  cases pending with
  | nothing =>
      rw [← (Prod.mk.inj ended).1, List.reverse_reverse]
      simp only [Lexer.step, breaks, if_true]
  | word start chars =>
      rw [← (Prod.mk.inj ended).1, List.reverse_reverse]
      simp only [Lexer.step, breaks, if_true]
  | string start chars escaped => cases (Prod.mk.inj ended).2

end Lexer

/-- A text that lexes without a problem, with a break character behind it, yields its tokens
everywhere, and the bracket behind them if the character is one. -/
theorem yields_of_break {c : Char} (breaks : isBreak c = true) {name source : String}
    {tokens : List Token} (lexed : Token.ofSource name source = (tokens, [])) :
    Yields (source.toList ++ [c]) (tokens.map (·.lexeme) ++ Lexeme.ofBreak c) := by
  intro here found
  have start : Lexer.Behind found ⟨.start name, .nothing, []⟩ ⟨here, .nothing, found⟩ :=
    ⟨.nothing, [], rfl, rfl⟩
  obtain ⟨pendings, tokens', found', lexemes⟩ := (start.foldl source.toList).step c
  rw [Lexer.step_break breaks (show
    (source.toList.foldl Lexer.step ⟨.start name, .nothing, []⟩).finish = (tokens, []) from lexed),
    Lexer.breakAt_eq] at pendings lexemes
  rw [List.foldl_append, List.foldl_cons, List.foldl_nil]
  generalize (source.toList.foldl Lexer.step ⟨here, .nothing, found⟩).step c = last at *
  obtain ⟨there, pending', found''⟩ := last
  cases pendings
  refine ⟨there, tokens'.reverse, ?_, ?_⟩
  · rw [List.reverse_reverse, ← found']
  · have own (place : Location) :
        ((Lexeme.ofBreak c).map (Token.mk · place)).map (·.lexeme) = Lexeme.ofBreak c := by
      rw [List.map_map]
      exact List.map_id _
    rw [List.map_reverse, lexemes, List.map_append, own, List.reverse_append,
      Lexeme.reverse_ofBreak, List.map_reverse, List.reverse_reverse]

theorem yields_of_blank {c : Char} (breaks : isBreak c = true) (blank : Lexeme.ofBreak c = [])
    {name source : String} {tokens : List Token}
    (lexed : Token.ofSource name source = (tokens, [])) :
    Yields (source.toList ++ [c]) (tokens.map (·.lexeme)) := by
  have yields := yields_of_break breaks lexed
  rwa [blank, List.append_nil] at yields

theorem yields_of_ofSource {name source : String} {tokens : List Token}
    (lexed : Token.ofSource name source = (tokens, [])) :
    Yields (source.toList ++ [' ']) (tokens.map (·.lexeme)) :=
  yields_of_blank rfl rfl lexed

/-- Behind such a piece, a text lexes as it does by itself. -/
theorem Yields.lexemes_append {front : String} {before : List Lexeme}
    (yields : Yields front.toList before) (name name' source : String) :
    (Token.ofSource name (front ++ source)).1.map (·.lexeme) =
      before ++ (Token.ofSource name' source).1.map (·.lexeme) := by
  obtain ⟨there, tokens, read, lexemes⟩ := yields (.start name) []
  rw [List.append_nil] at read
  have start : Lexer.Behind tokens.reverse ⟨.start name', .nothing, []⟩
      ⟨there, .nothing, tokens.reverse⟩ := ⟨.nothing, [], rfl, rfl⟩
  show ((front ++ source).toList.foldl Lexer.step
      ⟨.start name, .nothing, []⟩).finish.1.map (·.lexeme) =
    before ++ (source.toList.foldl Lexer.step ⟨.start name', .nothing, []⟩).finish.1.map (·.lexeme)
  rw [String.toList_append, List.foldl_append, read, ← lexemes]
  obtain ⟨pendings, tokens', found, sames⟩ := start.foldl source.toList
  generalize source.toList.foldl Lexer.step ⟨.start name', .nothing, []⟩ = first at *
  generalize source.toList.foldl Lexer.step ⟨there, .nothing, tokens.reverse⟩ = second at *
  obtain ⟨here, pending, own⟩ := first
  obtain ⟨here', pending', own'⟩ := second
  obtain rfl : own' = tokens' ++ tokens.reverse := found
  cases pendings <;> simp [Lexer.finish, List.map_reverse, sames]

/-- The lexemes of a text are the same whatever it is called. -/
theorem map_lexeme_ofSource (name name' source : String) :
    (ofSource name source).1.map (·.lexeme) = (ofSource name' source).1.map (·.lexeme) := by
  have nothing : Yields "".toList [] := .nil
  have whole := nothing.lexemes_append name name' source
  rwa [String.empty_append] at whole

/-! ## Names -/

theorem foldl_step_word {chars : List Char} (solid : ∀ c ∈ chars, isBreak c = false)
    (here start : Location) (read : List Char) (found : List Token) :
    ∃ there, chars.foldl Lexer.step ⟨here, .word start read, found⟩ =
      ⟨there, .word start (chars.reverse ++ read), found⟩ := by
  induction chars generalizing here read with
  | nil => exact ⟨here, rfl⟩
  | cons c rest ih =>
      have step : Lexer.step ⟨here, .word start read, found⟩ c =
          ⟨here.after c, .word start (c :: read), found⟩ := by
        simp [Lexer.step, solid c List.mem_cons_self]
      obtain ⟨there, rests⟩ := ih (fun c mem => solid c (List.mem_cons_of_mem _ mem))
        (here.after c) (c :: read)
      exact ⟨there, by rw [List.foldl_cons, step, rests]; simp⟩

/-- A name that can name a word is taken in as a word. -/
theorem foldl_step_of_valid {name : String} (valid : nameProblem? name = none) (here : Location)
    (found : List Token) :
    ∃ there, name.toList.foldl Lexer.step ⟨here, .nothing, found⟩ =
      ⟨there, .word here name.toList.reverse, found⟩ := by
  rw [nameProblem?] at valid
  split at valid
  · cases valid
  · next nonempty =>
      split at valid
      · cases valid
      · next unquoted =>
          split at valid
          · cases valid
          · next solid =>
              rw [Bool.not_eq_true, List.any_eq_false] at solid
              replace nonempty : name ≠ "" := by simpa using nonempty
              generalize written : name.toList = chars at unquoted solid
              cases chars with
              | nil => exact absurd (String.toList_eq_nil_iff.1 written) nonempty
              | cons c rest =>
                  -- The first character begins the word, and no other ends it.
                  have plain : c ≠ '"' := fun quote => unquoted (congrArg some quote)
                  have first : Lexer.step ⟨here, .nothing, found⟩ c =
                      ⟨here.after c, .word here [c], found⟩ := by
                    simp [Lexer.step, solid c List.mem_cons_self, plain]
                  have solid' : ∀ other ∈ rest, isBreak other = false := fun other mem => by
                    simpa using solid other (List.mem_cons_of_mem _ mem)
                  obtain ⟨there, read⟩ := foldl_step_word solid' (here.after c) here [c] found
                  exact ⟨there, by rw [List.foldl_cons, first, read, List.reverse_cons]⟩

/-- The tokens of a text that ends with a name, with no blank behind it. -/
theorem Yields.ofSource_name {source : String} {before : List Lexeme}
    (yields : Yields source.toList before) {name : String} (valid : nameProblem? name = none)
    (text : String) :
    ∃ tokens, Token.ofSource text (source ++ name) = (tokens, []) ∧
      tokens.map (·.lexeme) = before ++ [.word name] := by
  obtain ⟨there, tokens, read, lexemes⟩ := yields (.start text) []
  obtain ⟨there', read'⟩ := foldl_step_of_valid valid there (tokens.reverse ++ [])
  refine ⟨tokens ++ [⟨.word name, there⟩], ?_, by rw [List.map_append, lexemes]; rfl⟩
  show ((source ++ name).toList.foldl Lexer.step ⟨.start text, .nothing, []⟩).finish = _
  rw [String.toList_append, List.foldl_append, read, read']
  simp [Lexer.finish, Lexer.textOf]

/-- A name that can name a word is one word. -/
theorem yields_name {name : String} (valid : nameProblem? name = none) :
    Yields (name ++ " ").toList [.word name] := by
  have nothing : Yields "".toList [] := .nil
  obtain ⟨tokens, lexed, lexemes⟩ := nothing.ofSource_name valid ""
  rw [String.empty_append] at lexed
  rw [← show tokens.map (·.lexeme) = [.word name] from lexemes, String.toList_append]
  exact yields_of_ofSource lexed

end Token

/-! ## Quoted strings -/

namespace Text.Quoted

/-- Inside quotes, a character is written as it is or escaped. -/
theorem encodeChar_cases (c : Char) :
    encodeChar c = [c] ∧ c ≠ '\\' ∧ c ≠ '"' ∨
      ∃ other, encodeChar c = ['\\', other] ∧ escaped other = c := by
  unfold encodeChar
  split
  · exact .inr ⟨'"', rfl, rfl⟩
  · exact .inr ⟨'n', rfl, rfl⟩
  · exact .inr ⟨'r', rfl, rfl⟩
  · exact .inr ⟨'t', rfl, rfl⟩
  · exact .inr ⟨'\\', rfl, rfl⟩
  · next plain _ _ _ plain' => exact .inl ⟨rfl, plain', plain⟩

theorem decodeBody_cons {c : Char} (plain : c ≠ '\\') (rest : List Char) :
    decodeBody (c :: rest) = c :: decodeBody rest := by
  rw [decodeBody.eq_def]
  split
  · next same => cases same
  · next same => cases same; exact absurd rfl plain
  · next same => cases same; exact absurd rfl plain
  · next same => cases same; rfl

theorem decodeBody_flatMap (chars : List Char) :
    decodeBody (chars.flatMap encodeChar) = chars := by
  induction chars with
  | nil => rfl
  | cons c rest ih =>
      rw [List.flatMap_cons]
      rcases encodeChar_cases c with ⟨written, plain, -⟩ | ⟨other, written, reads⟩
      · rw [written, List.singleton_append, decodeBody_cons plain, ih]
      · rw [written]
        show escaped other :: decodeBody (rest.flatMap encodeChar) = c :: rest
        rw [reads, ih]

/-- The backslashes that an encoded text ends with are in pairs. -/
theorem even_backslashes (chars : List Char) :
    ((chars.flatMap fun c => (encodeChar c).reverse).takeWhile (· = '\\')).length % 2 = 0 := by
  induction chars with
  | nil => rfl
  | cons c rest ih =>
      rw [List.flatMap_cons]
      rcases encodeChar_cases c with ⟨written, plain, -⟩ | ⟨other, written, -⟩
      · simp [written, plain]
      · by_cases pair : other = '\\'
        · simp only [written, pair, List.reverse_cons, List.reverse_nil, List.nil_append,
            List.cons_append, List.takeWhile_cons, decide_true, if_true, List.length_cons]
          omega
        · simp [written, pair]

/-- Characters between two quotes are the body of a quoted string if the backslashes before the last
quote are in pairs. -/
theorem body?_of_even {inside : List Char}
    (even : (inside.reverse.takeWhile (· = '\\')).length % 2 = 0) :
    body? ('"' :: (inside ++ ['"'])) = some inside := by
  simp only [body?, List.reverse_append, List.reverse_singleton, List.singleton_append, even,
    if_true, List.reverse_reverse]

theorem decode?_encode (text : String) : decode? (encode text) = some text := by
  have inside : (text.toList.flatMap encodeChar).reverse =
      text.toList.reverse.flatMap fun c => (encodeChar c).reverse := by
    rw [List.reverse_flatMap]
    rfl
  have even := even_backslashes text.toList.reverse
  rw [← inside] at even
  rw [decode?, encode, String.toList_ofList, body?_of_even even, Option.map_some,
    decodeBody_flatMap, String.ofList_toList]

/-- What does not begin with a quote is no quoted string. -/
theorem decode?_eq_none {text : String} (plain : text.toList.head? ≠ some '"') :
    decode? text = none := by
  rw [decode?, body?.eq_def]
  split
  · next same => exact absurd (congrArg List.head? same) plain
  · rfl

end Text.Quoted

namespace Token

/-- A character inside quotes is taken in as it is written. -/
theorem foldl_step_encodeChar (c : Char) (here start : Location) (read : List Char)
    (found : List Token) :
    ∃ there, (Text.Quoted.encodeChar c).foldl Lexer.step ⟨here, .string start read false, found⟩ =
      ⟨there, .string start ((Text.Quoted.encodeChar c).reverse ++ read) false, found⟩ := by
  rcases Text.Quoted.encodeChar_cases c with ⟨written, plain, unquoted⟩ | ⟨other, written, -⟩
  · exact ⟨here.after c, by simp [written, Lexer.step, plain, unquoted]⟩
  · exact ⟨(here.after '\\').after other, by simp [written, Lexer.step]⟩

theorem foldl_step_flatMap (chars : List Char) (here start : Location) (read : List Char)
    (found : List Token) :
    ∃ there, (chars.flatMap Text.Quoted.encodeChar).foldl Lexer.step
        ⟨here, .string start read false, found⟩ =
      ⟨there, .string start ((chars.flatMap Text.Quoted.encodeChar).reverse ++ read) false,
        found⟩ := by
  induction chars generalizing here read with
  | nil => exact ⟨here, rfl⟩
  | cons c rest ih =>
      obtain ⟨there, first⟩ := foldl_step_encodeChar c here start read found
      obtain ⟨there', rests⟩ := ih there ((Text.Quoted.encodeChar c).reverse ++ read)
      refine ⟨there', ?_⟩
      rw [List.flatMap_cons, List.foldl_append, first, rests, List.reverse_append,
        List.append_assoc]

/-- A quoted string is one token. -/
theorem yields_encode (text : String) :
    Yields (Text.Quoted.encode text).toList [.string (Text.Quoted.encode text)] := by
  intro here found
  obtain ⟨there, inside⟩ := foldl_step_flatMap text.toList (here.after '"') here ['"'] found
  refine ⟨there.after '"', [⟨.string (Text.Quoted.encode text), here⟩], ?_, rfl⟩
  rw [Text.Quoted.encode, String.toList_ofList, List.foldl_cons, List.foldl_append,
    show Lexer.step ⟨here, .nothing, found⟩ '"' = ⟨here.after '"', .string here ['"'] false, found⟩
      from rfl, inside]
  simp [Lexer.step, Lexer.textOf]

end Token

end LiveStack
