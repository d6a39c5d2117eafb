import LiveStack.Proofs.Code.Strings

/-!
# Names in source text

A name is checked when a word is defined, and lexed whenever the word is used. The check asks for
characters, and the lexer goes from one character to the next; both come to the same names. So a
word that can be defined can be called, wherever a token may begin and end.
-/

namespace LiveStack

open Token

/-- Characters are a whole word, in front of others, just if they can name one and what comes next
ends it. -/
theorem Segment.fits_word_iff {behind : List Char} {name : String} :
    (Segment.token (.word name)).Fits behind ↔
      nameProblem? name = none ∧ ∀ c ∈ behind.head?, isBreak c = true := by
  rw [Segment.Fits, nameProblem?_eq_none_iff, and_assoc, and_assoc]

namespace Token

/-- A text is one word and nothing else just if it can name a word. -/
theorem nameProblem?_eq_none_iff_ofSource (text name : String) :
    nameProblem? name = none ↔
      ∃ token, ofSource text name = ([token], []) ∧ token.lexeme = .word name := by
  constructor
  · intro valid
    have nothing : Yields "".toList [] := .nil
    obtain ⟨tokens, lexed, lexemes⟩ := nothing.ofSource_name valid text
    rw [List.nil_append, List.map_eq_singleton_iff] at lexemes
    obtain ⟨token, rfl, same⟩ := lexemes
    rw [String.empty_append] at lexed
    exact ⟨token, lexed, same⟩
  · rintro ⟨token, lexed, same⟩
    have mem : token ∈ (ofSource text name).1 := by
      rw [lexed]
      exact List.mem_singleton_self token
    obtain ⟨behind, fits⟩ := exists_fits mem
    rw [same] at fits
    exact (Segment.fits_word_iff.1 fits).1

/-- **A name is what lexes as one word.** A name passes the check just if it lexes, by itself and
without a diagnostic, as one token, which is a word of just this text. Then it does so in every
text: where a token may begin, and a blank, a bracket or the end of the text follows, the name is
one word, behind the tokens that are found before it and in front of those found in the rest. -/
theorem names_lex_as_one_word (name : String) :
    (∀ text, nameProblem? name = none ↔
      ∃ token, ofSource text name = ([token], []) ∧ token.lexeme = .word name) ∧
    (nameProblem? name = none → ∀ text front rest, EndsBetween text front →
      (∀ c ∈ rest.toList.head?, isBreak c = true) →
      let behind : Reader := ⟨.behind text (front.toList ++ name.toList), rest.toList⟩
      ofSource text (front ++ name ++ rest) =
        ((ofSource text front).1 ++ ⟨.word name, .behind text front.toList⟩ :: (scan behind).1,
          (scan behind).2)) := by
  refine ⟨fun text => nameProblem?_eq_none_iff_ofSource text name, ?_⟩
  intro valid text front rest between breaks
  exact between.ofSource_token rfl (Segment.fits_word_iff.2 ⟨valid, breaks⟩)

/-- A name with a quote in it, behind a string and a bracket and in front of another bracket. -/
theorem names_lex_as_one_word_of_inner_quote :
    nameProblem? "a\"b" = none ∧
    EndsBetween "<text>" "\"[ \" [" ∧
    ofSource "<text>" ("\"[ \" [" ++ "a\"b" ++ "] \"") =
      ([⟨.string "\"[ \"", ⟨"<text>", 1, 1⟩⟩, ⟨.opening, ⟨"<text>", 1, 6⟩⟩,
        ⟨.word "a\"b", ⟨"<text>", 1, 7⟩⟩, ⟨.closing, ⟨"<text>", 1, 10⟩⟩],
        [.reading ⟨"<text>", 1, 12⟩ (.unterminatedString "\"")]) := by
  have valid : nameProblem? "a\"b" = none := by decide
  have between : EndsBetween "<text>" "\"[ \" [" :=
    ⟨by decide, .inr ⟨'[', by decide, by decide⟩⟩
  have breaks : ∀ c ∈ "] \"".toList.head?, isBreak c = true := by
    intro c first
    obtain rfl : ']' = c := Option.some.inj first
    rfl
  have lexed := (names_lex_as_one_word "a\"b").2 valid "<text>" "\"[ \" [" "] \"" between breaks
  exact ⟨valid, between, lexed.trans (by decide)⟩

end Token

end LiveStack
