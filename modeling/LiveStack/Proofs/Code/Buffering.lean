import LiveStack.Proofs.Code.Lookahead

/-!
# Lexing through a buffer

`Token.scan` goes through the characters of a text one by one, and remembers of each token what it
has seen of it. Here the text is read through a buffer instead, in loops: the next character is
looked at, and says what is taken from there on, a blank, a bracket, a string or a word. A string
is taken up to the quote that ends it. The end of a word can only be looked at, since what ends it
is no part of it. The loops give the tokens that the scan gives, from wherever the buffer is in the
text and whether or not it holds a character.
-/

namespace LiveStack

open Token Lexer

namespace Buffer

variable {buffer last : Buffer} {c : Char}

/-! ## Taking characters -/

/-- How many characters have not been taken. -/
def left (buffer : Buffer) : Nat := buffer.reader.rest.length

/-- What is taken was the first of the characters that had not been. -/
theorem reader_of_next? (taken : buffer.next? = (some c, last)) :
    buffer.reader = ⟨buffer.location, c :: last.reader.rest⟩ ∧
      last.location = buffer.location.after c := by
  obtain ⟨location, stream, held⟩ := buffer
  match held, stream with
  | some c, _ | none, c :: rest =>
      cases taken
      exact ⟨rfl, rfl⟩
  | none, [] => cases taken

/-- Where nothing is taken, nothing was left. -/
theorem rest_of_next? (taken : buffer.next? = (none, last)) :
    buffer.reader.rest = [] ∧ last.reader.rest = [] := by
  obtain ⟨location, stream, held⟩ := buffer
  match held, stream with
  | some c, _ | none, c :: rest => cases taken
  | none, [] =>
      cases taken
      exact ⟨rfl, rfl⟩

/-- A character that was looked at is there to be taken. -/
theorem next?_of_peek? (looked : buffer.peek? = (some c, last)) :
    last.reader = buffer.reader ∧ last.next? = (some c, last.next?.2) := by
  obtain ⟨location, stream, held⟩ := buffer
  match held, stream with
  | some c, _ | none, c :: rest =>
      cases looked
      exact ⟨rfl, rfl⟩
  | none, [] => cases looked

/-- To look once more is answered the same. -/
theorem peek?_of_peek? (looked : buffer.peek? = (some c, last)) : last.peek? = (some c, last) := by
  obtain ⟨location, stream, held⟩ := buffer
  match held, stream with
  | some c, _ | none, c :: rest =>
      cases looked
      rfl
  | none, [] => cases looked

theorem rest_of_peek? (looked : buffer.peek? = (none, last)) :
    buffer.reader.rest = [] ∧ last.reader = buffer.reader := by
  obtain ⟨location, stream, held⟩ := buffer
  match held, stream with
  | some c, _ | none, c :: rest => cases looked
  | none, [] =>
      cases looked
      exact ⟨rfl, rfl⟩

theorem left_of_next? (taken : buffer.next? = (some c, last)) : last.left < buffer.left := by
  rw [left, left, (reader_of_next? taken).1]
  exact Nat.lt_succ_self _

theorem left_of_peek? (looked : buffer.peek? = (some c, last)) :
    last.next?.2.left < buffer.left := by
  obtain ⟨same, taken⟩ := next?_of_peek? looked
  have fewer := left_of_next? taken
  rwa [left, left, same] at fewer

/-! ## The loops -/

/-- Take what is behind `text` in a string: up to the quote that ends it, or all that is left. -/
def takeString (buffer : Buffer) (text : List Char) (escaped : Bool) :
    Except String String × Buffer :=
  match _ : buffer.next? with
  | (none, last) => (.error (textOf text), last)
  | (some c, last) =>
      if escaped then last.takeString (c :: text) false
      else if c = '\\' then last.takeString (c :: text) true
      else if c = '"' then (.ok (textOf (c :: text)), last)
      else last.takeString (c :: text) false
termination_by buffer.left
decreasing_by all_goals exact left_of_next? ‹_›

/-- Take what is behind `text` in a word: up to the next break. -/
def takeWord (buffer : Buffer) (text : List Char) : String × Buffer :=
  match _ : buffer.peek? with
  | (none, last) => (textOf text, last)
  | (some c, last) =>
      if isBreak c then (textOf text, last)
      else last.next?.2.takeWord (c :: text)
termination_by buffer.left
decreasing_by exact left_of_peek? ‹_›

/-- Take a string, with the quote that it begins with. -/
def takeQuoted (buffer : Buffer) : Except String String × Buffer :=
  let (quote, last) := buffer.next?
  last.takeString quote.toList false

theorem left_takeString_le (buffer : Buffer) (text : List Char) (escaped : Bool) :
    (buffer.takeString text escaped).2.left ≤ buffer.left := by
  fun_induction takeString buffer text escaped with
  | case1 buffer text escaped last taken =>
      rw [left, (rest_of_next? taken).2]
      exact Nat.zero_le _
  | case2 buffer text c last taken ih => exact ih.trans (left_of_next? taken).le
  | case3 buffer text escaped last _ taken ih => exact ih.trans (left_of_next? taken).le
  | case4 buffer text escaped last _ taken _ => exact (left_of_next? taken).le
  | case5 buffer text escaped c last taken _ _ _ ih => exact ih.trans (left_of_next? taken).le

theorem left_takeQuoted_lt (looked : buffer.peek? = (some c, last)) :
    last.takeQuoted.2.left < buffer.left := by
  rw [takeQuoted, (next?_of_peek? looked).2]
  exact (left_takeString_le _ _ _).trans_lt (left_of_peek? looked)

theorem left_takeWord_le (buffer : Buffer) (text : List Char) :
    (buffer.takeWord text).2.left ≤ buffer.left := by
  fun_induction takeWord buffer text with
  | case1 buffer text last looked => rw [left, left, (rest_of_peek? looked).2]
  | case2 buffer text c last looked => rw [left, left, (next?_of_peek? looked).1]
  | case3 buffer text c last looked _ ih => exact ih.trans (left_of_peek? looked).le

/-- A character that is no break is taken into a word. -/
theorem takeWord_of_peek? (looked : buffer.peek? = (some c, last)) (solid : isBreak c = false)
    (text : List Char) : last.takeWord text = last.next?.2.takeWord (c :: text) := by
  rw [takeWord]
  split
  · next looked' => cases (peek?_of_peek? looked).symm.trans looked'
  · next looked' =>
      cases (peek?_of_peek? looked).symm.trans looked'
      rw [if_neg (Bool.eq_false_iff.1 solid)]

theorem left_takeWord_lt (looked : buffer.peek? = (some c, last)) (solid : isBreak c = false)
    (text : List Char) : (last.takeWord text).2.left < buffer.left := by
  rw [takeWord_of_peek? looked solid]
  exact (left_takeWord_le _ _).trans_lt (left_of_peek? looked)

/-- Take all tokens that are left, behind those that were found. -/
def tokens (buffer : Buffer) (found : List Token) (faults : List Fault) :
    List Token × List Fault :=
  match _ : buffer.peek? with
  | (none, _) => (found.reverse, faults.reverse)
  | (some c, last) =>
      let place := last.location
      if isBlank c then last.next?.2.tokens found faults
      else if c = '[' then last.next?.2.tokens (⟨.opening, place⟩ :: found) faults
      else if c = ']' then last.next?.2.tokens (⟨.closing, place⟩ :: found) faults
      else if c = '"' then
        match _ : last.takeQuoted with
        | (.ok text, last) => last.tokens (⟨.string text, place⟩ :: found) faults
        | (.error text, last) =>
            last.tokens found (.reading place (.unterminatedString text) :: faults)
      else
        let word := last.takeWord []
        word.2.tokens (⟨.word word.1, place⟩ :: found) faults
termination_by buffer.left
decreasing_by
  · exact left_of_peek? ‹_›
  · exact left_of_peek? ‹_›
  · exact left_of_peek? ‹_›
  · next taken =>
      have fewer := left_takeQuoted_lt ‹buffer.peek? = _›
      rwa [taken] at fewer
  · next taken =>
      have fewer := left_takeQuoted_lt ‹buffer.peek? = _›
      rwa [taken] at fewer
  · next space opens closes _ =>
      refine left_takeWord_lt ‹buffer.peek? = _› ?_ []
      simp [isBreak, space, opens, closes]

/-! ## Scans -/

/-- What a scan gives that goes on from here, with a token begun and others found. -/
def lexed (pending : Pending) (found : List Token) (reader : Reader) : List Token × List Fault :=
  (reader.rest.foldl Lexer.step ⟨reader.location, pending, found⟩).finish

variable {pending pending' : Pending} {found found' : List Token}

theorem lexed_nil (left : buffer.reader.rest = []) :
    lexed pending found buffer.reader = Lexer.finish ⟨buffer.location, pending, found⟩ := by
  rw [lexed, left]
  rfl

/-- The scan goes on behind a character that is taken. -/
theorem lexed_next (taken : buffer.next? = (some c, last))
    (step : Lexer.step ⟨buffer.location, pending, found⟩ c =
      ⟨buffer.location.after c, pending', found'⟩) :
    lexed pending found buffer.reader = lexed pending' found' last.reader := by
  obtain ⟨here, moved⟩ := reader_of_next? taken
  rw [lexed, lexed, here, List.foldl_cons, step, ← moved]
  rfl

theorem lexed_peeked (looked : buffer.peek? = (some c, last))
    (step : Lexer.step ⟨last.location, pending, found⟩ c =
      ⟨last.location.after c, pending', found'⟩) :
    lexed pending found buffer.reader = lexed pending' found' last.next?.2.reader := by
  obtain ⟨same, taken⟩ := next?_of_peek? looked
  rw [← same, lexed_next taken step]

/-- A string that is taken is one that the scan finds, and one that is not ended is broken off. -/
theorem lexed_string (buffer : Buffer) (text : List Char) (escaped : Bool) (start : Location) :
    match buffer.takeString text escaped with
    | (.ok string, last) => lexed (.string start text escaped) found buffer.reader =
        lexed .nothing (⟨.string string, start⟩ :: found) last.reader
    | (.error string, last) => last.reader.rest = [] ∧
        lexed (.string start text escaped) found buffer.reader =
          (found.reverse, [.reading start (.unterminatedString string)]) := by
  fun_induction takeString buffer text escaped with
  | case1 buffer text escaped last taken =>
      obtain ⟨none, none'⟩ := rest_of_next? taken
      exact ⟨none', lexed_nil none⟩
  | case2 buffer text c last taken ih =>
      rwa [lexed_next taken rfl]
  | case3 buffer text escaped last fresh taken ih =>
      rwa [lexed_next taken (by rw [Lexer.step, if_neg fresh, if_pos rfl])]
  | case4 buffer text escaped last fresh taken plain =>
      exact lexed_next taken (by rw [Lexer.step, if_neg fresh, if_neg plain, if_pos rfl])
  | case5 buffer text escaped c last taken fresh plain inside ih =>
      rwa [lexed_next taken (by rw [Lexer.step, if_neg fresh, if_neg plain, if_neg inside])]

theorem lexed_quoted (found : List Token) (looked : buffer.peek? = (some '"', last)) :
    match last.takeQuoted with
    | (.ok string, behind) => lexed .nothing found buffer.reader =
        lexed .nothing (⟨.string string, last.location⟩ :: found) behind.reader
    | (.error string, behind) => behind.reader.rest = [] ∧
        lexed .nothing found buffer.reader =
          (found.reverse, [.reading last.location (.unterminatedString string)]) := by
  have taken : last.takeQuoted = last.next?.2.takeString ['"'] false := by
    rw [takeQuoted, (next?_of_peek? looked).2]
    rfl
  rw [taken, lexed_peeked looked rfl]
  exact lexed_string last.next?.2 ['"'] false last.location

/-- A word that is taken is one that the scan finds. -/
theorem lexed_word (buffer : Buffer) (text : List Char) (start : Location) :
    lexed (.word start text) found buffer.reader =
      lexed .nothing (⟨.word (buffer.takeWord text).1, start⟩ :: found)
        (buffer.takeWord text).2.reader := by
  fun_induction takeWord buffer text with
  | case1 buffer text last looked =>
      obtain ⟨none, same⟩ := rest_of_peek? looked
      rw [same, lexed_nil none, lexed_nil none]
      rfl
  | case2 buffer text c last looked breaks =>
      -- The break ends the word, and is taken as if no word had been begun.
      obtain ⟨same, taken⟩ := next?_of_peek? looked
      have step : Lexer.step ⟨last.location, .word start text, found⟩ c = Lexer.step
          ⟨last.location, .nothing, ⟨.word (textOf text), start⟩ :: found⟩ c := by
        rw [Lexer.step, if_pos breaks, Lexer.step, if_pos breaks]
      rw [← same, lexed, lexed, (reader_of_next? taken).1, List.foldl_cons, List.foldl_cons, step]
  | case3 buffer text c last looked solid ih =>
      rw [lexed_peeked looked (by rw [Lexer.step, if_neg solid]), ih]

/-- The loop finds what the scan goes on to find. -/
theorem tokens_eq (buffer : Buffer) (found : List Token) (faults : List Fault) :
    buffer.tokens found faults = ((lexed .nothing found buffer.reader).1,
      faults.reverse ++ (lexed .nothing found buffer.reader).2) := by
  fun_induction tokens buffer found faults with
  | case1 buffer found faults last looked =>
      rw [lexed_nil (rest_of_peek? looked).1]
      simp [Lexer.finish]
  | case2 buffer found faults c last looked blank ih =>
      have skipped : lexed .nothing found buffer.reader =
          lexed .nothing found last.next?.2.reader := by
        have breaks : isBreak c = true := by simp [isBreak, blank]
        refine lexed_peeked looked ?_
        rw [Lexer.step, if_pos breaks, breakAt, if_neg, if_neg]
        · rintro rfl
          cases blank
        · rintro rfl
          cases blank
      rw [ih, skipped]
  | case3 buffer found faults last place looked _ ih =>
      have taken : lexed .nothing found buffer.reader =
          lexed .nothing (⟨.opening, place⟩ :: found) last.next?.2.reader :=
        lexed_peeked looked rfl
      rw [ih, taken]
  | case4 buffer found faults last place looked _ _ ih =>
      have taken : lexed .nothing found buffer.reader =
          lexed .nothing (⟨.closing, place⟩ :: found) last.next?.2.reader :=
        lexed_peeked looked rfl
      rw [ih, taken]
  | case5 buffer found faults last place text behind read looked _ _ _ ih =>
      have taken := lexed_quoted found looked
      rw [read] at taken
      rw [ih, taken]
  | case6 buffer found faults last place text behind read looked _ _ _ ih =>
      -- The string went to the end of the text, so nothing is left to be found.
      have taken := lexed_quoted found looked
      rw [read] at taken
      rw [ih, taken.2, lexed_nil taken.1]
      simp [Lexer.finish, place]
  | case7 buffer found faults c last looked place blank opens closes quotes word ih =>
      have solid : isBreak c = false := by simp [isBreak, blank, opens, closes]
      have begun : lexed .nothing found buffer.reader =
          lexed (.word place [c]) found last.next?.2.reader := by
        refine lexed_peeked looked ?_
        rw [Lexer.step, if_neg (Bool.eq_false_iff.1 solid), if_neg quotes]
      rw [ih, begun, lexed_word, ← takeWord_of_peek? looked solid]

/-- Lexing through a buffer gives the tokens that a scan gives. -/
theorem tokens_eq_scan (buffer : Buffer) : buffer.tokens [] [] = scan buffer.reader := by
  rw [tokens_eq]
  rfl

/-- The tokens of a text are those that are found when it is read through a buffer. -/
theorem tokens_ofString (name source : String) :
    (Buffer.ofString name source).tokens [] [] = Token.ofSource name source :=
  tokens_eq_scan _

end Buffer

end LiveStack
