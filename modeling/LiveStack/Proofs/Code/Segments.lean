import Mathlib.Data.List.Induction
import Mathlib.Data.List.TakeWhile
import Mathlib.Tactic.SplitIfs
import LiveStack.Proofs.Code.Lexing

/-!
# The segments of a text

The lexer goes through a text once, and what it takes at a time is a segment: a blank, or all the
characters of one token. Which segment comes next, and where it ends, depends only on the text from
there on. So a text is cut into segments from its beginning, and nothing of it is left over but a
string that is not ended, which then reaches to the end of the text.
-/

namespace LiveStack

theorem Lexeme.ofBreak_of_isBlank {c : Char} (blank : Token.isBlank c = true) :
    ofBreak c = [] := by
  rw [ofBreak, if_neg, if_neg]
  · rintro rfl
    cases blank
  · rintro rfl
    cases blank

/-! ## Places in a text -/

/-- The place behind the characters `front`, which begin the text called `name`. -/
def Location.behind (name : String) (front : List Char) : Location where
  name := name
  line := 1 + front.count '\n'
  column := 1 + (front.reverse.takeWhile (· ≠ '\n')).length

namespace Location

/-- A line feed begins a line, and every other character is one column. -/
theorem after_behind (name : String) (front : List Char) (c : Char) :
    (behind name front).after c = behind name (front ++ [c]) := by
  rw [behind, behind, after, List.count_append, List.reverse_append]
  by_cases feed : c = '\n'
  · simp [feed, Nat.add_assoc]
  · simp [feed, Nat.add_comm]

theorem advance_behind (name : String) (front chars : List Char) :
    (behind name front).advance chars = behind name (front ++ chars) := by
  induction chars generalizing front with
  | nil => rw [List.append_nil, advance_nil]
  | cons c rest ih => rw [advance_cons, after_behind, ih, List.append_assoc, List.singleton_append]

end Location

namespace Token

/-! ## Strings -/

/-- A character behind `front` is escaped: the number of backslashes right before it is odd. -/
def Escapes (front : List Char) : Prop := (front.reverse.takeWhile (· = '\\')).length % 2 = 1

instance (front : List Char) : Decidable (Escapes front) := inferInstanceAs (Decidable (_ = _))

/-- Every quote among the characters is escaped. -/
def Unquoted (chars : List Char) : Prop :=
  ∀ front back, chars = front ++ '"' :: back → Escapes front

/-- A quote, and no other behind it that would end the string. -/
def Unended (chars : List Char) : Prop := ∃ inside, chars = '"' :: inside ∧ Unquoted inside

/-- Only a backslash that is not escaped itself escapes what comes behind it. -/
theorem escapes_concat (front : List Char) (c : Char) :
    Escapes (front ++ [c]) ↔ c = '\\' ∧ ¬ Escapes front := by
  rw [Escapes, Escapes, List.reverse_append, List.reverse_singleton, List.singleton_append]
  by_cases backslash : c = '\\'
  · simp only [backslash, List.takeWhile_cons, decide_true, if_true, List.length_cons, true_and]
    omega
  · simp [backslash]

theorem unquoted_nil : Unquoted [] := by
  intro front back same
  cases front <;> cases same

theorem Unquoted.of_append {front back : List Char} (unquoted : Unquoted (front ++ back)) :
    Unquoted front := by
  intro before behind same
  exact unquoted before (behind ++ back) (by simp [same])

/-- Another character leaves all quotes escaped, unless it is a quote that is not. -/
theorem Unquoted.concat {front : List Char} (unquoted : Unquoted front) {c : Char}
    (escaped : c = '"' → Escapes front) : Unquoted (front ++ [c]) := by
  intro before behind same
  rcases List.eq_nil_or_concat behind with rfl | ⟨init, last, rfl⟩
  · obtain ⟨rfl, last⟩ := List.append_inj' same rfl
    exact escaped (List.head_eq_of_cons_eq last)
  · rw [List.concat_eq_append, ← List.cons_append, ← List.append_assoc] at same
    exact unquoted before init (List.append_inj' same rfl).1

/-- Either all quotes are escaped, or one is the first that is not. -/
theorem unquoted_or_exists (chars : List Char) :
    Unquoted chars ∨
      ∃ front back, chars = front ++ '"' :: back ∧ Unquoted front ∧ ¬ Escapes front := by
  induction chars using List.reverseRecOn with
  | nil => exact .inl unquoted_nil
  | append_singleton front c ih =>
      rcases ih with unquoted | ⟨before, behind, rfl, unquoted, ends⟩
      · by_cases quote : c = '"' ∧ ¬ Escapes front
        · obtain ⟨rfl, ends⟩ := quote
          exact .inr ⟨front, [], rfl, unquoted, ends⟩
        · refine .inl (unquoted.concat fun same => ?_)
          exact not_not.1 fun ends => quote ⟨same, ends⟩
      · exact .inr ⟨before, behind ++ [c], by simp, unquoted, ends⟩

/-! ## Segments -/

end Token

/-- What the lexer takes at a time: a blank or a token. -/
inductive Segment where
  | blank (c : Char)
  | token (lexeme : Lexeme)

namespace Segment

open Token

/-- The characters of a segment. -/
def chars : Segment → List Char
  | .blank c => [c]
  | .token lexeme => lexeme.text.toList

/-- The segment is whole, with the characters `behind` coming after it. A word goes on up to a
blank, a bracket or the end of the text. A string goes on up to its first quote that is not
escaped. -/
def Fits (behind : List Char) : Segment → Prop
  | .blank c => isBlank c = true
  | .token .opening | .token .closing => True
  | .token (.word text) => text ≠ "" ∧ text.toList.head? ≠ some '"' ∧
      (∀ c ∈ text.toList, isBreak c = false) ∧ ∀ c ∈ behind.head?, isBreak c = true
  | .token (.string text) => ∃ inside, text.toList = '"' :: (inside ++ ['"']) ∧
      Unquoted inside ∧ ¬ Escapes inside

/-- The token that a segment is, at a place. A blank is none. -/
def tokenAt (place : Location) : Segment → List Token
  | .blank _ => []
  | .token lexeme => [⟨lexeme, place⟩]

/-- The tokens among segments, each at the place of its first character. The characters `front` come
before the segments in the text called `name`. -/
def tokens (name : String) (front : List Char) : List Segment → List Token
  | [] => []
  | segment :: rest =>
      segment.tokenAt (.behind name front) ++ tokens name (front ++ segment.chars) rest

/-- Characters cut into whole segments, and a tail that is the beginning of a string, or nothing. -/
inductive Cut : List Char → List Segment → List Char → Prop
  | done : Cut [] [] []
  | tail {chars : List Char} (unended : Unended chars) : Cut chars [] chars
  | segment {segment : Segment} {behind : List Char} {rest : List Segment} {tail : List Char}
      (fits : segment.Fits behind) (cut : Cut behind rest tail) :
      Cut (segment.chars ++ behind) (segment :: rest) tail

namespace Cut

variable {chars tail : List Char} {segments : List Segment} (cut : Cut chars segments tail)

include cut

/-- Nothing is lost. -/
theorem eq_append : chars = segments.flatMap Segment.chars ++ tail := by
  induction cut with
  | done => rfl
  | tail unended => rfl
  | segment fits cut ih => rw [List.flatMap_cons, List.append_assoc, ← ih]

/-- Every segment is whole where it stands. -/
theorem fits {front back : List Segment} {segment : Segment}
    (split : segments = front ++ segment :: back) :
    segment.Fits (back.flatMap Segment.chars ++ tail) := by
  induction cut generalizing front with
  | done => cases front <;> cases split
  | tail unended => cases front <;> cases split
  | segment fits cut ih =>
      cases front with
      | nil =>
          cases split
          rwa [← cut.eq_append]
      | cons first front =>
          cases split
          exact ih rfl

theorem tail_cases : tail = [] ∨ Unended tail := by
  induction cut with
  | done => exact .inl rfl
  | tail unended => exact .inr unended
  | segment fits cut ih => exact ih

end Cut

end Segment

namespace Token

/-! ## Taking a segment -/

/-- A name is a word by itself: it is not empty, begins with no quote, and has no blanks or brackets
in it. -/
theorem nameProblem?_eq_none_iff {name : String} : nameProblem? name = none ↔
    name ≠ "" ∧ name.toList.head? ≠ some '"' ∧ ∀ c ∈ name.toList, isBreak c = false := by
  rw [nameProblem?]
  split_ifs <;> simp_all

namespace Lexer

theorem here_step (lexer : Lexer) (c : Char) : (lexer.step c).here = lexer.here.after c := by
  obtain ⟨here, pending, found⟩ := lexer
  cases pending with
  | nothing =>
      simp only [step]
      split
      · rfl
      · split <;> rfl
  | word start chars =>
      simp only [step]
      split <;> rfl
  | string start chars escaped =>
      simp only [step]
      split_ifs <;> rfl

/-- The lexer is always at the place behind what it has taken. -/
theorem here_foldl (lexer : Lexer) (chars : List Char) :
    (chars.foldl step lexer).here = lexer.here.advance chars := by
  induction chars generalizing lexer with
  | nil => rfl
  | cons c rest ih => rw [List.foldl_cons, ih, here_step, Location.advance_cons]

/-- In front of a blank, a bracket or the end of the text, a word is ended. -/
theorem finish_word {rest : List Char} (breaks : ∀ c ∈ rest.head?, isBreak c = true)
    (here start : Location) (read : List Char) (found : List Token) :
    (rest.foldl step ⟨here, .word start read, found⟩).finish =
      (rest.foldl step ⟨here, .nothing, ⟨.word (textOf read), start⟩ :: found⟩).finish := by
  cases rest with
  | nil => rfl
  | cons c rest =>
      have isBreak : isBreak c = true := breaks c rfl
      simp only [List.foldl_cons, step, isBreak, if_true]

/-- As long as its quotes are escaped, a string goes on. -/
theorem foldl_step_unquoted {inside : List Char} (unquoted : Unquoted inside)
    (here start : Location) (found : List Token) :
    inside.foldl step ⟨here, .string start ['"'] false, found⟩ =
      ⟨here.advance inside, .string start (inside.reverse ++ ['"']) (decide (Escapes inside)),
        found⟩ := by
  induction inside using List.reverseRecOn with
  | nil => rfl
  | append_singleton front c ih =>
      rw [List.foldl_append, ih unquoted.of_append, List.foldl_cons, List.foldl_nil,
        Location.advance_append, List.reverse_append]
      have escaping := escapes_concat front c
      by_cases escaped : Escapes front
      · simp [step, escaped, escaping]
      · by_cases backslash : c = '\\'
        · subst backslash
          simp [step, escaped, escaping]
        · have plain : c ≠ '"' := by
            rintro rfl
            exact escaped (unquoted front [] rfl)
          simp [step, escaped, escaping, backslash, plain]

/-- A string ends with its first quote that is not escaped. -/
theorem foldl_step_string {inside : List Char} (unquoted : Unquoted inside)
    (ends : ¬ Escapes inside) (here : Location) (found : List Token) :
    ('"' :: (inside ++ ['"'])).foldl step ⟨here, .nothing, found⟩ =
      ⟨here.advance ('"' :: (inside ++ ['"'])), .nothing,
        ⟨.string (String.ofList ('"' :: (inside ++ ['"']))), here⟩ :: found⟩ := by
  rw [List.foldl_cons, List.foldl_append]
  show step (inside.foldl step ⟨here.after '"', .string here ['"'] false, found⟩) '"' = _
  rw [foldl_step_unquoted unquoted]
  simp [step, ends, textOf, Location.advance_append]

end Lexer

/-- The string that the text ends inside of is reported from its quote on. The characters `front`
come before it. -/
def cutOff (name : String) (front tail : List Char) : List Fault :=
  if tail = [] then []
  else [.reading (.behind name front) (.unterminatedString (String.ofList tail))]

variable {name : String} {front chars tail : List Char} {segments : List Segment}

/-- A lexer with no token begun takes any whole segment that comes next. -/
theorem finish_segment {segment : Segment} {behind : List Char} (fits : segment.Fits behind)
    (here : Location) (found : List Token) :
    ((segment.chars ++ behind).foldl Lexer.step ⟨here, .nothing, found⟩).finish =
      (behind.foldl Lexer.step ⟨here.advance segment.chars, .nothing,
        segment.tokenAt here ++ found⟩).finish := by
  rw [List.foldl_append]
  match segment, fits with
  | .blank c, blank =>
      rw [Segment.Fits] at blank
      have taken : Lexer.step ⟨here, .nothing, found⟩ c = ⟨here.after c, .nothing, found⟩ := by
        simp [Lexer.step, isBreak, blank, Lexer.breakAt_eq, Lexeme.ofBreak_of_isBlank blank]
      show (behind.foldl Lexer.step ([c].foldl Lexer.step _)).finish = _
      rw [List.foldl_cons, List.foldl_nil, taken]
      rfl
  | .token .opening, _ | .token .closing, _ => rfl
  | .token (.word text), ⟨nonempty, plain, solid, breaks⟩ =>
      -- A word is not found before something ends it, so what is behind it is looked at too.
      obtain ⟨there, read⟩ := foldl_step_of_valid
        (nameProblem?_eq_none_iff.2 ⟨nonempty, plain, solid⟩) here found
      have place := Lexer.here_foldl ⟨here, .nothing, found⟩ text.toList
      rw [read] at place
      obtain rfl : there = here.advance text.toList := place
      show (behind.foldl Lexer.step (text.toList.foldl Lexer.step _)).finish = _
      rw [read, Lexer.finish_word breaks, Lexer.textOf, List.reverse_reverse, String.ofList_toList]
      rfl
  | .token (.string text), ⟨inside, written, unquoted, ends⟩ =>
      have closes := Lexer.foldl_step_string unquoted ends here found
      rw [← written, String.ofList_toList] at closes
      show (behind.foldl Lexer.step (text.toList.foldl Lexer.step _)).finish = _
      rw [closes]
      rfl

/-- A lexer with no token begun takes the segments of a text, and is left with the tail. -/
theorem finish_cut (cut : Segment.Cut chars segments tail) (name : String) (front : List Char)
    (found : List Token) :
    (chars.foldl Lexer.step ⟨.behind name front, .nothing, found⟩).finish =
      (found.reverse ++ Segment.tokens name front segments,
        cutOff name (front ++ segments.flatMap Segment.chars) tail) := by
  induction cut generalizing front found with
  | done => simp [Lexer.finish, Segment.tokens, cutOff]
  | tail unended =>
      obtain ⟨inside, rfl, unquoted⟩ := unended
      rw [List.foldl_cons]
      show (inside.foldl Lexer.step ⟨_, .string (.behind name front) ['"'] false, found⟩).finish = _
      rw [Lexer.foldl_step_unquoted unquoted]
      simp [Lexer.finish, Lexer.textOf, Segment.tokens, cutOff]
  | @segment segment behind rest tail fits cut ih =>
      rw [finish_segment fits, Location.advance_behind, ih, Segment.tokens, List.flatMap_cons]
      cases segment <;> simp [Segment.tokenAt]

end Token

/-! ## Cutting a text -/

namespace Segment

open Token

/-- Whatever a text begins with, it is a whole segment or a string that is not ended. -/
theorem exists_segment (c : Char) (rest : List Char) :
    Unended (c :: rest) ∨ ∃ (segment : Segment) (behind : List Char),
      c :: rest = segment.chars ++ behind ∧ segment.Fits behind ∧
        behind.length ≤ rest.length := by
  by_cases blank : isBlank c = true
  · exact .inr ⟨.blank c, rest, rfl, blank, Nat.le_refl _⟩
  by_cases opening : c = '['
  · exact .inr ⟨.token .opening, rest, by rw [opening]; rfl, True.intro, Nat.le_refl _⟩
  by_cases closing : c = ']'
  · exact .inr ⟨.token .closing, rest, by rw [closing]; rfl, True.intro, Nat.le_refl _⟩
  by_cases quote : c = '"'
  · subst quote
    rcases unquoted_or_exists rest with unquoted | ⟨inside, behind, rfl, unquoted, ends⟩
    · exact .inl ⟨rest, rfl, unquoted⟩
    · refine .inr ⟨.token (.string (String.ofList ('"' :: (inside ++ ['"'])))), behind, ?_,
        ⟨inside, String.toList_ofList, unquoted, ends⟩, ?_⟩
      · simp [Segment.chars, Lexeme.text]
      · simp only [List.length_append, List.length_cons]
        omega
  · -- a word goes on as long as no character ends it
    let solid (c : Char) : Bool := !isBreak c
    refine .inr ⟨.token (.word (String.ofList (c :: rest.takeWhile solid))),
      rest.dropWhile solid, ?_, ⟨?_, ?_, ?_, ?_⟩, (List.dropWhile_sublist solid).length_le⟩
    · simp [Segment.chars, Lexeme.text]
    · simp
    · simpa using quote
    · intro other mem
      rw [String.toList_ofList] at mem
      rcases List.mem_cons.1 mem with rfl | mem
      · simp [isBreak, blank, opening, closing]
      · simpa [solid] using List.mem_takeWhile_imp mem
    · intro other first
      have ends := List.head?_dropWhile_not solid rest
      rw [Option.mem_def.1 first] at ends
      simpa [solid] using ends

/-- Every text can be cut. -/
theorem exists_cut (chars : List Char) : ∃ segments tail, Cut chars segments tail := by
  induction size : chars.length using Nat.strongRecOn generalizing chars with
  | ind size ih =>
      cases chars with
      | nil => exact ⟨[], [], .done⟩
      | cons c rest =>
          rcases exists_segment c rest with unended | ⟨segment, behind, split, fits, shorter⟩
          · exact ⟨[], _, .tail unended⟩
          · rw [List.length_cons] at size
            obtain ⟨segments, tail, cut⟩ := ih behind.length (by omega) behind rfl
            exact ⟨segment :: segments, tail, split ▸ .segment fits cut⟩

end Segment

/-- Every text consists of blanks, brackets, words and strings, one directly behind the other, and
perhaps of a string at its end that is not ended. A word goes on up to a blank, a bracket or the end
of the text, and a string up to its first quote that is not escaped. The tokens are the segments
that are no blanks, in order, each with the line and the column of its first character. There is a
diagnostic only for the string that is not ended: one, with its text and its place. -/
theorem Token.texts_are_cut_into_segments (name source : String) :
    ∃ segments tail,
      source.toList = segments.flatMap Segment.chars ++ tail ∧
      (∀ front segment back, segments = front ++ segment :: back →
        segment.Fits (back.flatMap Segment.chars ++ tail)) ∧
      (ofSource name source).1 = Segment.tokens name [] segments ∧
      ((tail = [] ∧ (ofSource name source).2 = []) ∨
        (Unended tail ∧ (ofSource name source).2 =
          [.reading (.behind name (segments.flatMap Segment.chars))
            (.unterminatedString (String.ofList tail))])) := by
  obtain ⟨segments, tail, cut⟩ := Segment.exists_cut source.toList
  have scanned : ofSource name source = (Segment.tokens name [] segments,
      cutOff name (segments.flatMap Segment.chars) tail) := finish_cut cut name [] []
  refine ⟨segments, tail, cut.eq_append, fun front segment back => cut.fits, ?_, ?_⟩
  · rw [scanned]
  · rw [scanned, cutOff]
    rcases cut.tail_cases with rfl | unended
    · exact .inl ⟨rfl, rfl⟩
    · obtain ⟨inside, rfl, -⟩ := id unended
      exact .inr ⟨unended, rfl⟩

end LiveStack
