import LiveStack.Document.Render
import LiveStack.Proofs.Code.Strings
import LiveStack.Proofs.Document.Positions
import LiveStack.Proofs.Document.Spelling

/-!
# Reading the line back

The line of an editor is written from an outline and from what is marked in it. Marks are written
next to the nodes with no space between, and a word may have blanks and brackets in it if it is a
string. If every word is one token, does not end with a blank and has no mark in it, the line can
be read all the same: each part of it is known by its first character, a word ends where it is one
token and a mark or a space comes next, and so the same line is written only for the same tree
with the same marks.
-/

namespace LiveStack

open Relation

/-! ## Words in a line -/

namespace Token

variable {name : String} {front chars tail : List Char} {segments : List Segment}

/-- Segments with no token among them are blanks. -/
theorem blank_of_cut (cut : Segment.Cut chars segments tail)
    (none : Segment.tokens name front segments = []) (whole : tail = []) :
    ∀ c ∈ chars, isBlank c = true := by
  induction cut generalizing front with
  | done => exact List.forall_mem_nil _
  | tail unended =>
      rw [whole]
      exact List.forall_mem_nil _
  | @segment segment behind rest tail fits cut ih =>
      obtain ⟨here, behind⟩ := List.append_eq_nil_iff.1 none
      cases segment with
      | blank c => exact List.forall_mem_cons.2 ⟨fits, ih behind whole⟩
      | token lexeme => cases here

/-- Where no token is found and nothing is reported, there are only blanks. -/
theorem blank_of_scan {rest : List Char} (nothing : scan ⟨.behind name front, rest⟩ = ([], [])) :
    ∀ c ∈ rest, isBlank c = true := by
  obtain ⟨segments, tail, cut⟩ := Segment.exists_cut rest
  have scanned : scan ⟨.behind name front, rest⟩ = (Segment.tokens name front segments,
      cutOff name (front ++ segments.flatMap Segment.chars) tail) := finish_cut cut name front []
  obtain ⟨none, whole⟩ := Prod.mk.inj (scanned.symm.trans nothing)
  refine blank_of_cut cut none ?_
  by_contra cutShort
  rw [cutOff, if_neg cutShort] at whole
  cases whole

/-- If a text is one token, and still is with a space and more behind it, then what is behind it is
blank. -/
theorem blank_of_single {text longer : String} {more : List Char} {token token' : Token}
    (single : ofSource name text = ([token], [])) (single' : ofSource name longer = ([token'], []))
    (split : longer.toList = text.toList ++ ' ' :: more) : ∀ c ∈ more, isBlank c = true := by
  have yields : Yields (text ++ " ").toList [token.lexeme] := by
    rw [String.toList_append]
    exact yields_of_ofSource single
  obtain ⟨tokens, lexed, same⟩ := yields.ofSource name
  obtain ⟨found, rfl, -⟩ := List.map_eq_singleton_iff.1 same
  have between : EndsBetween name (text ++ " ") :=
    ⟨by rw [lexed], .inr ⟨' ', by simp, rfl⟩⟩
  have whole : ofSource name longer =
      (((text ++ " ").toList ++ more).foldl Lexer.step ⟨.start name, .nothing, []⟩).finish := by
    rw [String.toList_append, List.append_assoc]
    exact congrArg (fun chars => (chars.foldl Lexer.step ⟨.start name, .nothing, []⟩).finish) split
  rw [List.foldl_append, between.foldl_step, Lexer.finish_foldl, single', lexed,
    Prod.mk.injEq] at whole
  have both : token' = found ∧
      (scan ⟨.behind name (text ++ " ").toList, more⟩).1 = [] := by simpa using whole.1
  exact blank_of_scan (Prod.ext both.2 whole.2.symm)

/-- Blanks between tokens are blank. -/
theorem isBlank_of_isBlank {c : Char} (blank : isBlank c = true) : Text.isBlank c = true := by
  simp only [isBlank, Bool.or_eq_true, beq_iff_eq] at blank
  rcases blank with (((rfl | rfl) | rfl) | rfl) | rfl <;> decide

end Token

/-- A text that can be told in a line: it is one word or one string, it does not end with a blank,
and it has none of the marks in it. -/
structure Text.Discernible (text : String) : Prop where
  single : (Lexeme.ofText? text).isSome = true
  ends : ∀ c ∈ text.toList.getLast?, Text.isBlank c = false
  plain : ∀ c ∈ text.toList, c ∉ ['|', '\x7b', '\x7d']

-- by the characters of the text, and not by all there are
instance (text : String) : Decidable (Text.Discernible text) :=
  decidable_of_iff ((Lexeme.ofText? text).isSome = true ∧
    text.toList.getLast?.all (fun c => !Text.isBlank c) = true ∧
      text.toList.all (fun c => c ∉ ['|', '\x7b', '\x7d']) = true) <| by
    simp only [Option.all_eq_true, List.all_eq_true, Bool.not_eq_true', decide_eq_true_eq]
    exact ⟨fun ⟨single, ends, plain⟩ => ⟨single, ends, plain⟩,
      fun text => ⟨text.single, text.ends, text.plain⟩⟩

/-- What may come behind a word: a mark, or a space. -/
def Stops (chars : List Char) : Prop := ∀ c ∈ chars.head?, c ∈ [' ', '|', '\x7d']

namespace Text.Discernible

variable {text text' : String} {more rest rest' : List Char} (discernible : Discernible text)

include discernible

theorem exists_token : ∃ token, Token.ofSource "" text = ([token], []) ∧
    token.lexeme ≠ .opening ∧ token.lexeme ≠ .closing := by
  obtain ⟨lexeme, single⟩ := Option.isSome_iff_exists.1 discernible.single
  unfold Lexeme.ofText? at single
  split at single
  · next lexed => exact ⟨_, lexed, nofun, nofun⟩
  · next lexed => exact ⟨_, lexed, nofun, nofun⟩
  · cases single

/-- The text begins as neither a list nor a mark does. -/
theorem exists_head : ∃ c rest, text.toList = c :: rest ∧ c ∉ ['[', ']', '|', '\x7b'] := by
  obtain ⟨token, lexed, notOpening, notClosing⟩ := discernible.exists_token
  cases begins : text.toList with
  | nil =>
      rw [String.toList_eq_nil_iff] at begins
      rw [begins] at lexed
      cases lexed
  | cons c rest =>
      have plain := discernible.plain c (by simp [begins])
      have lexemes {lexeme : Lexeme} (yields : Token.Yields [c] [lexeme]) :
          token.lexeme = lexeme := by
        rw [show [c] = (String.ofList [c]).toList from String.toList_ofList.symm] at yields
        have whole := yields.lexemes_append "" "" (String.ofList rest)
        rw [← String.ofList_append, List.singleton_append, ← begins, String.ofList_toList,
          lexed] at whole
        exact (List.cons.inj whole).1
      refine ⟨c, rest, rfl, ?_⟩
      simp only [List.mem_cons, List.not_mem_nil, or_false, not_or] at plain ⊢
      refine ⟨?_, ?_, plain.1, plain.2.1⟩
      · rintro rfl
        exact notOpening (lexemes .opening)
      · rintro rfl
        exact notClosing (lexemes .closing)

theorem head?_ne {c : Char} (other : c ∈ ['[', ']', '|', '\x7b']) :
    (text.toList ++ rest).head? ≠ some c := by
  obtain ⟨first, chars, begins, apart⟩ := discernible.exists_head
  rw [begins]
  intro same
  exact apart (Option.some.inj same ▸ other)

/-- The text does not go on with a mark or a space. -/
theorem nil_of_append (discernible' : Discernible text')
    (split : text'.toList = text.toList ++ more) (stops : Stops more) : more = [] := by
  obtain ⟨token, lexed, -⟩ := discernible.exists_token
  obtain ⟨token', lexed', -⟩ := discernible'.exists_token
  cases more with
  | nil => rfl
  | cons c more =>
      have plain := discernible'.plain c (by simp [split])
      have stop := stops c rfl
      obtain rfl : c = ' ' := by
        simp only [List.mem_cons, List.not_mem_nil, or_false] at plain stop
        tauto
      -- behind the space there are only blanks, so that the text would end with one
      have blanks := Token.blank_of_single lexed lexed' split
      have ends := List.getLast?_eq_some_getLast (List.cons_ne_nil ' ' more)
      have mem := List.getLast_mem (List.cons_ne_nil ' ' more)
      generalize (' ' :: more).getLast _ = last at ends mem
      have blank : Text.isBlank last = true := by
        rcases List.mem_cons.1 mem with rfl | mem
        · decide
        · exact Token.isBlank_of_isBlank (blanks last mem)
      have solid := discernible'.ends last (by simp [split, ends])
      rw [blank] at solid
      cases solid

/-- In front of a mark or a space, it can be told which text it is. -/
theorem eq_of_append (discernible' : Discernible text')
    (same : text.toList ++ rest = text'.toList ++ rest') (stops : Stops rest)
    (stops' : Stops rest') : text = text' ∧ rest = rest' := by
  have tell {text text' : String} {more rest rest' : List Char} (discernible : Discernible text)
      (discernible' : Discernible text') (split : text'.toList = text.toList ++ more)
      (stops : Stops rest) (rests : rest = more ++ rest') : text = text' ∧ rest = rest' := by
    have more := discernible.nil_of_append discernible' split fun c first =>
      stops c (by rw [rests, List.head?_append, first]; rfl)
    subst more
    rw [List.append_nil] at split
    exact ⟨(String.toList_inj.1 split).symm, rests⟩
  rcases List.append_eq_append_iff.1 same with ⟨more, split, rests⟩ | ⟨more, split, rests⟩
  · exact tell discernible discernible' split stops rests
  · obtain ⟨texts, rests⟩ := tell discernible' discernible split stops' rests
    exact ⟨texts.symm, rests.symm⟩

end Text.Discernible

/-! ## The line as characters -/

/-- A character that stands in the line if something holds. -/
def glyphIf (holds : Bool) (c : Char) : List Char := if holds then [c] else []

theorem glyphIf_append_inj {holds holds' : Bool} {c : Char} {rest rest' : List Char}
    (apart : rest.head? ≠ some c) (apart' : rest'.head? ≠ some c)
    (same : glyphIf holds c ++ rest = glyphIf holds' c ++ rest') :
    holds = holds' ∧ rest = rest' := by
  cases holds <;> cases holds'
  · exact ⟨rfl, same⟩
  · exact absurd (congrArg List.head? (show rest = c :: rest' from same)) apart
  · exact absurd (congrArg List.head? (show c :: rest = rest' from same)).symm apart'
  · exact ⟨rfl, (List.cons.inj (show c :: rest = c :: rest' from same)).2⟩

namespace Marks

variable (marks : Marks) (id : NodeId)

/-- Whether the selection begins with the node. -/
def opens : Bool := marks.selection.map (·.first) = some id

/-- Whether the selection ends with the node. -/
def closes : Bool := marks.selection.map (·.last) = some id

/-- Whether the cursor is on the node. -/
def bars : Bool := marks.cursor = id

/-- What stands behind a node that is no head. -/
def glyphsBehind : List Char :=
  glyphIf (marks.closes id) '\x7d' ++ (glyphIf (marks.bars id) '|' ++ [' '])

/-- What stands for the head of a list, which is never an end of the selection. -/
def glyphsAtHead : List Char := if marks.bars id then ['|', ' '] else []

/-- Two nodes that have the same marks. -/
structure Same (marks marks' : Marks) (id id' : NodeId) : Prop where
  opens : marks.opens id = marks'.opens id'
  closes : marks.closes id = marks'.closes id'
  bars : marks.bars id = marks'.bars id'

theorem Same.decide_eq {marks marks' : Marks} {id id' : NodeId} (same : marks.Same marks' id id') :
    decide (marks.cursor = id) = decide (marks'.cursor = id') := same.bars

end Marks

mutual

/-- What stands for an item. -/
def Outline.glyphs (marks : Marks) : Outline → List Char
  | .head _ => []
  | .word _ _ text => text.toList
  | .list _ items => '[' :: ' ' :: (Outline.glyphsAll marks items ++ [']'])

/-- What stands for some items, with their marks. -/
def Outline.glyphsAll (marks : Marks) : List Outline → List Char
  | [] => []
  | item :: rest =>
      glyphIf (marks.opens item.id) '\x7b' ++ item.glyphs marks ++
        (glyphIf (marks.closes item.id) '\x7d' ++ (glyphIf (marks.bars item.id) '|' ++
          glyphIf (!item.isHead || marks.bars item.id) ' ')) ++ Outline.glyphsAll marks rest

end

namespace Marks

variable {marks marks' : Marks} {id id' : NodeId} {rest rest' : List Char}

theorem toList_mark {holds : Prop} [Decidable holds] {mark : String} {c : Char}
    (written : mark.toList = [c]) : (if holds then mark else "").toList = glyphIf holds c := by
  by_cases shown : holds
  · rw [if_pos shown, written, decide_eq_true shown]
    rfl
  · rw [if_neg shown, decide_eq_false shown]
    rfl

theorem toList_before : (marks.before id).toList = glyphIf (marks.opens id) '\x7b' :=
  toList_mark rfl

theorem toList_behind : (marks.behind id).toList =
    glyphIf (marks.closes id) '\x7d' ++ glyphIf (marks.bars id) '|' := by
  rw [behind, String.toList_append, toList_mark rfl, toList_mark rfl]
  rfl

theorem toList_gap (item : Outline) :
    (marks.gap item).toList = glyphIf (!item.isHead || marks.bars item.id) ' ' := by
  rw [gap, bars]
  cases item.isHead <;> by_cases here : marks.cursor = item.id <;> simp [here, glyphIf]

/-- Behind a node the marks can be told. -/
theorem glyphsBehind_append_inj
    (same : marks.glyphsBehind id ++ rest = marks'.glyphsBehind id' ++ rest') :
    marks.closes id = marks'.closes id' ∧ marks.bars id = marks'.bars id' ∧ rest = rest' := by
  simp only [glyphsBehind, List.append_assoc] at same
  have apart {holds : Bool} {rest : List Char} :
      (glyphIf holds '|' ++ ([' '] ++ rest)).head? ≠ some '\x7d' := by
    cases holds <;> simp [glyphIf]
  obtain ⟨closes, same⟩ := glyphIf_append_inj apart apart same
  obtain ⟨bars, same⟩ := glyphIf_append_inj (by simp) (by simp) same
  exact ⟨closes, bars, List.append_cancel_left same⟩

/-- At a head it can be told whether the cursor is there. -/
theorem glyphsAtHead_append_inj (apart : rest.head? ≠ some '|') (apart' : rest'.head? ≠ some '|')
    (same : marks.glyphsAtHead id ++ rest = marks'.glyphsAtHead id' ++ rest') :
    marks.bars id = marks'.bars id' ∧ rest = rest' := by
  rw [glyphsAtHead, glyphsAtHead] at same
  cases bars : marks.bars id <;> cases bars' : marks'.bars id' <;> rw [bars, bars'] at same
  · exact ⟨rfl, same⟩
  · exact absurd (congrArg List.head? (show rest = '|' :: ' ' :: rest' from same)) apart
  · exact absurd (congrArg List.head? (show '|' :: ' ' :: rest = rest' from same)).symm apart'
  · exact ⟨rfl, List.append_cancel_left same⟩

theorem stops_glyphsBehind : Stops (marks.glyphsBehind id ++ rest) := by
  rw [glyphsBehind]
  cases marks.closes id <;> cases marks.bars id <;> simp [glyphIf, Stops]

end Marks

namespace Outline

variable {marks marks' : Marks} {id : NodeId} {items inner rest : List Outline}

mutual

theorem toList_draw (marks : Marks) (front : String) (item : Outline) :
    (item.draw marks front).toList = front.toList ++ item.glyphs marks := by
  match item with
  | .head id => rw [draw, glyphs, List.append_nil]
  | .word id reading text => rw [draw, glyphs, String.toList_append]
  | .list id items =>
      rw [draw, glyphs, String.toList_append, toList_drawAll marks _ items, String.toList_append]
      simp

theorem toList_drawAll (marks : Marks) (front : String) (items : List Outline) :
    (drawAll marks front items).toList = front.toList ++ glyphsAll marks items := by
  match items with
  | [] => rw [drawAll, glyphsAll, List.append_nil]
  | item :: rest =>
      rw [drawAll, glyphsAll, toList_drawAll marks _ rest, String.toList_append,
        String.toList_append, toList_draw marks _ item, String.toList_append, Marks.toList_before,
        Marks.toList_behind, Marks.toList_gap]
      simp only [List.append_assoc]

end

/-- Items behind a head can be told in the line: the words are discernible, and each list begins
with a head that is no end of the selection, and has no other. -/
inductive Clear (marks : Marks) : List Outline → Prop
  | nil : Clear marks []
  | word {id : NodeId} {reading : TokenClass} {text : String} {rest : List Outline}
      (discernible : Text.Discernible text) (behind : Clear marks rest) :
      Clear marks (.word id reading text :: rest)
  | list {id head : NodeId} {inner rest : List Outline} (opens : marks.opens head = false)
      (closes : marks.closes head = false) (inside : Clear marks inner)
      (behind : Clear marks rest) : Clear marks (.list id (.head head :: inner) :: rest)

/-- Items with a head in front of them. -/
inductive Headed (marks : Marks) : List Outline → Prop
  | head {head : NodeId} {rest : List Outline} (opens : marks.opens head = false)
      (closes : marks.closes head = false) (behind : Clear marks rest) :
      Headed marks (.head head :: rest)

theorem glyphsAll_head {head : NodeId} (opens : marks.opens head = false)
    (closes : marks.closes head = false) :
    glyphsAll marks (.head head :: rest) = marks.glyphsAtHead head ++ glyphsAll marks rest := by
  rw [glyphsAll, Marks.glyphsAtHead, id, opens, closes]
  cases marks.bars head <;> rfl

theorem glyphsAll_word {reading : TokenClass} {text : String} (tail : List Char) :
    glyphsAll marks (.word id reading text :: rest) ++ tail =
      glyphIf (marks.opens id) '\x7b' ++ (text.toList ++
        (marks.glyphsBehind id ++ (glyphsAll marks rest ++ tail))) := by
  rw [glyphsAll, glyphs, Outline.id, Marks.glyphsBehind]
  simp [isHead, glyphIf]

theorem glyphsAll_list (tail : List Char) :
    glyphsAll marks (.list id inner :: rest) ++ tail =
      glyphIf (marks.opens id) '\x7b' ++ ('[' :: ' ' :: (glyphsAll marks inner ++
        ']' :: (marks.glyphsBehind id ++ (glyphsAll marks rest ++ tail)))) := by
  rw [glyphsAll, glyphs, Outline.id, Marks.glyphsBehind]
  simp [isHead, glyphIf]

/-! ## Reading -/

/-- Items that are the same but for the numbers of their nodes and the classes of their words,
with a relation between nodes in the same place. -/
inductive Alike (R : NodeId → NodeId → Prop) : List Outline → List Outline → Prop
  | nil : Alike R [] []
  | head {id id' : NodeId} {rest rest' : List Outline} (same : R id id')
      (behind : Alike R rest rest') : Alike R (.head id :: rest) (.head id' :: rest')
  | word {id id' : NodeId} {reading reading' : TokenClass} {text : String}
      {rest rest' : List Outline} (same : R id id') (behind : Alike R rest rest') :
      Alike R (.word id reading text :: rest) (.word id' reading' text :: rest')
  | list {id id' : NodeId} {inner inner' rest rest' : List Outline} (same : R id id')
      (inside : Alike R inner inner') (behind : Alike R rest rest') :
      Alike R (.list id inner :: rest) (.list id' inner' :: rest')

/-- What comes in front of the end of a list begins with the end of the list only if there is
nothing, and never with the mark of the cursor. -/
theorem Clear.head?_glyphsAll (clear : Clear marks items) (tail : List Char) :
    ((glyphsAll marks items ++ ']' :: tail).head? = some ']' ↔ items = []) ∧
      (glyphsAll marks items ++ ']' :: tail).head? ≠ some '|' := by
  cases clear with
  | nil => simp [glyphsAll]
  | @word id reading text rest discernible behind =>
      obtain ⟨c, chars, begins, other⟩ := discernible.exists_head
      rw [glyphsAll_word, begins]
      simp only [List.mem_cons, List.not_mem_nil, or_false, not_or] at other
      cases marks.opens id <;> simp [glyphIf, other]
  | @list id head inner rest opens closes inside behind =>
      rw [glyphsAll_list]
      cases marks.opens id <;> simp [glyphIf]

theorem Clear.eq_nil_iff {items items' : List Outline} {tail tail' : List Char}
    (clear : Clear marks items) (clear' : Clear marks' items')
    (same : glyphsAll marks items ++ ']' :: tail = glyphsAll marks' items' ++ ']' :: tail') :
    items = [] ↔ items' = [] := by
  rw [← (clear.head?_glyphsAll tail).1, ← (clear'.head?_glyphsAll tail').1, same]

/-- From the line up to the end of a list, the items behind its head can be read with their marks.
-/
theorem Clear.alike {items items' : List Outline} {tail tail' : List Char}
    (clear : Clear marks items) (clear' : Clear marks' items')
    (same : glyphsAll marks items ++ ']' :: tail = glyphsAll marks' items' ++ ']' :: tail') :
    Alike (marks.Same marks') items items' ∧ tail = tail' := by
  -- the other items are read along: the character behind the mark in front says what comes next
  induction clear generalizing items' tail tail' with
  | nil =>
      obtain rfl := (Clear.nil.eq_nil_iff clear' same).1 rfl
      exact ⟨.nil, (List.cons.inj same).2⟩
  | @word id reading text rest discernible behind ih =>
      cases clear' with
      | nil => cases ((Clear.word discernible behind).eq_nil_iff .nil same).2 rfl
      | word discernible' behind' =>
          rw [glyphsAll_word, glyphsAll_word] at same
          obtain ⟨opens, same⟩ := glyphIf_append_inj (discernible.head?_ne (by simp))
            (discernible'.head?_ne (by simp)) same
          obtain ⟨rfl, after⟩ := discernible.eq_of_append discernible' same
            Marks.stops_glyphsBehind Marks.stops_glyphsBehind
          obtain ⟨closes, bars, after⟩ := Marks.glyphsBehind_append_inj after
          obtain ⟨alike, tails⟩ := ih behind' after
          exact ⟨.word ⟨opens, closes, bars⟩ alike, tails⟩
      | list opens' closes' inside' behind' =>
          rw [glyphsAll_word, glyphsAll_list] at same
          obtain ⟨-, same⟩ := glyphIf_append_inj (discernible.head?_ne (by simp)) (by simp) same
          exact absurd (congrArg List.head? same) (discernible.head?_ne (by simp))
  | @list id head inner rest opens closes inside behind ih ih' =>
      cases clear' with
      | nil => cases ((Clear.list opens closes inside behind).eq_nil_iff .nil same).2 rfl
      | word discernible' behind' =>
          rw [glyphsAll_list, glyphsAll_word] at same
          obtain ⟨-, same⟩ := glyphIf_append_inj (by simp) (discernible'.head?_ne (by simp)) same
          exact absurd (congrArg List.head? same).symm (discernible'.head?_ne (by simp))
      | list opens' closes' inside' behind' =>
          rw [glyphsAll_list, glyphsAll_list] at same
          obtain ⟨begin, same⟩ := glyphIf_append_inj (by simp) (by simp) same
          have same := (List.cons.inj (List.cons.inj same).2).2
          rw [glyphsAll_head opens closes, glyphsAll_head opens' closes', List.append_assoc,
            List.append_assoc] at same
          obtain ⟨atHead, same⟩ := Marks.glyphsAtHead_append_inj (inside.head?_glyphsAll _).2
            (inside'.head?_glyphsAll _).2 same
          obtain ⟨within, same⟩ := ih inside' same
          obtain ⟨ends, bars, same⟩ := Marks.glyphsBehind_append_inj same
          obtain ⟨alike, tails⟩ := ih' behind' same
          have heads : marks.Same marks' head _ :=
            ⟨opens.trans opens'.symm, closes.trans closes'.symm, atHead⟩
          exact ⟨.list ⟨begin, ends, bars⟩ (.head heads within) alike, tails⟩

/-- From the line, items can be read with their marks. -/
theorem Headed.alike {items items' : List Outline} (headed : Headed marks items)
    (headed' : Headed marks' items') (same : glyphsAll marks items = glyphsAll marks' items') :
    Alike (marks.Same marks') items items' := by
  obtain ⟨opens, closes, clear⟩ := headed
  obtain ⟨opens', closes', clear'⟩ := headed'
  have same := congrArg (· ++ [']']) same
  simp only [glyphsAll_head opens closes, glyphsAll_head opens' closes', List.append_assoc] at same
  obtain ⟨atHead, same⟩ := Marks.glyphsAtHead_append_inj (clear.head?_glyphsAll _).2
    (clear'.head?_glyphsAll _).2 same
  exact .head ⟨opens.trans opens'.symm, closes.trans closes'.symm, atHead⟩
    (clear.alike clear' same).1

/-! ## The end of the line -/

/-- Characters that do not end with a blank. -/
def Solid (chars : List Char) : Prop := ∃ front c, chars = front ++ [c] ∧ Text.isBlank c = false

theorem Solid.append_left {chars : List Char} (solid : Solid chars) (front : List Char) :
    Solid (front ++ chars) := by
  obtain ⟨init, c, rfl, notBlank⟩ := solid
  exact ⟨front ++ init, c, (List.append_assoc ..).symm, notBlank⟩

theorem Solid.append_glyphIf {chars : List Char} (solid : Solid chars) (holds : Bool) {c : Char}
    (notBlank : Text.isBlank c = false) : Solid (chars ++ glyphIf holds c) := by
  cases holds with
  | false => rwa [glyphIf, if_neg Bool.false_ne_true, List.append_nil]
  | true => exact ⟨chars, c, rfl, notBlank⟩

/-- Characters that end with one space. -/
def Spaced (chars : List Char) : Prop := ∃ line, chars = line ++ [' '] ∧ Solid line

theorem Spaced.append_left {chars : List Char} (spaced : Spaced chars) (front : List Char) :
    Spaced (front ++ chars) := by
  obtain ⟨line, rfl, solid⟩ := spaced
  exact ⟨front ++ line, (List.append_assoc ..).symm, solid.append_left front⟩

/-- Trimming takes away the one space. -/
theorem Spaced.eq_dropTrailing {chars : List Char} (spaced : Spaced chars) :
    chars = Text.dropTrailing chars ++ [' '] := by
  obtain ⟨_, rfl, front, c, rfl, notBlank⟩ := spaced
  have space : Text.isBlank ' ' = true := by decide
  simp [Text.dropTrailing, space, notBlank]

/-- Behind an item that is no head there is one space. -/
theorem Solid.spaced {chars : List Char} (solid : Solid chars) (id : NodeId) :
    Spaced (chars ++ marks.glyphsBehind id) := by
  refine ⟨chars ++ glyphIf (marks.closes id) '\x7d' ++ glyphIf (marks.bars id) '|', ?_, ?_⟩
  · rw [Marks.glyphsBehind, List.append_assoc, List.append_assoc]
  · exact (solid.append_glyphIf _ (by decide)).append_glyphIf _ (by decide)

theorem Solid.spaced_append {chars : List Char} (solid : Solid chars) (id : NodeId)
    (behind : rest = [] ∨ Spaced (glyphsAll marks rest)) :
    Spaced (chars ++ (marks.glyphsBehind id ++ glyphsAll marks rest)) := by
  rcases behind with rfl | spaced
  · rw [glyphsAll, List.append_nil]
    exact solid.spaced id
  · exact (spaced.append_left _).append_left _

theorem Clear.spaced (clear : Clear marks items) : items = [] ∨ Spaced (glyphsAll marks items) := by
  induction clear with
  | nil => exact .inl rfl
  | @word id reading text rest discernible behind ih =>
      have solid : Solid text.toList := by
        obtain ⟨c, chars, begins, -⟩ := discernible.exists_head
        have last := List.getLast?_eq_some_getLast (show text.toList ≠ [] by simp [begins])
        obtain ⟨init, ends⟩ := List.getLast?_eq_some_iff.1 last
        exact ⟨init, _, ends, discernible.ends _ last⟩
      rw [← List.append_nil (glyphsAll _ _), glyphsAll_word, List.append_nil]
      exact .inr ((solid.spaced_append id ih).append_left _)
  | @list id head inner rest opens closes inside behind ih ih' =>
      have solid : Solid ('[' :: ' ' :: (glyphsAll marks (.head head :: inner) ++ [']'])) :=
        ⟨'[' :: ' ' :: glyphsAll marks (.head head :: inner), ']', rfl, by decide⟩
      rw [← List.append_nil (glyphsAll _ _), glyphsAll_list, List.append_nil]
      have spaced := (solid.spaced_append id ih').append_left (glyphIf (marks.opens id) '\x7b')
      simp only [List.append_assoc, List.cons_append, List.nil_append] at spaced
      exact .inr spaced

/-- The line ends with one space, if the cursor is on one of the items or in one of them. -/
theorem Headed.spaced (headed : Headed marks items) (mem : marks.cursor ∈ positionsAll items) :
    Spaced (glyphsAll marks items) := by
  obtain ⟨opens, closes, clear⟩ := headed
  rw [glyphsAll_head opens closes]
  rcases clear.spaced with rfl | spaced
  · have here : marks.cursor = _ := List.mem_singleton.1 mem
    rw [Marks.glyphsAtHead, Marks.bars, decide_eq_true here]
    exact ⟨['|'], rfl, [], '|', rfl, by decide⟩
  · exact spaced.append_left _

/-! ## What is read -/

namespace Alike

variable {R : NodeId → NodeId → Prop} {items items' : List Outline} {target target' : NodeId}

/-- Nodes that are told from all others alike have the same path. -/
theorem pathFrom?_eq (alike : Alike R items items')
    (told : ∀ {id id'}, R id id' → (target = id ↔ target' = id')) (index : Nat) :
    pathFrom? target index items = pathFrom? target' index items' := by
  have same {id id' : NodeId} (related : R id id') : id = target ↔ id' = target' := by
    rw [eq_comm, told related, eq_comm]
  induction alike generalizing index with
  | nil => rw [pathFrom?, pathFrom?]
  | head related _ ih | word related _ ih =>
      simp only [pathFrom?, ih]
      exact if_congr (same related) rfl rfl
  | list related _ _ ih ih' => simp only [pathFrom?, same related, ih, ih']

/-- What holds of related nodes alike holds of the positions alike. -/
theorem map_positions {f f' : NodeId → Bool} (alike : Alike R items items')
    (same : ∀ {id id'}, R id id' → f id = f' id') :
    (positionsAll items).map f = (positionsAll items').map f' := by
  induction alike with
  | nil => rfl
  | head related _ ih => simp [positionsAll, positions, same related, ih]
  | word related _ ih => simp [positionsAll, positions, same related, ih]
  | list related _ _ ih ih' => simp [positionsAll, positions, same related, ih, ih']

theorem sketchAll_eq (alike : Alike (marks.Same marks') items items') :
    sketchAll marks.cursor items = sketchAll marks'.cursor items' := by
  induction alike with
  | nil => rfl
  | head same _ ih => rw [sketchAll, sketchAll, sketch, sketch, ih, same.decide_eq]
  | word same _ ih => rw [sketchAll, sketchAll, sketch, sketch, ih, same.decide_eq]
  | list same _ _ ih ih' => rw [sketchAll, sketchAll, sketch, sketch, ih, ih', same.decide_eq]

end Alike

/-- Every node among the items has a path. -/
theorem exists_pathFrom? {target : NodeId} (mem : target ∈ positionsAll items) (index : Nat) :
    ∃ path, pathFrom? target index items = some path := by
  fun_induction pathFrom? target index items with
  | case1 => cases mem
  | case2 => exact ⟨_, rfl⟩
  | case3 => exact ⟨_, rfl⟩
  | case4 index id inner rest differs none ih ih' =>
      simp only [positionsAll, positions, List.mem_append, List.mem_singleton] at mem
      rcases mem with (mem | rfl) | mem
      · obtain ⟨path, found⟩ := ih mem
        cases none.symm.trans found
      · exact absurd rfl differs
      · exact ih' mem
  | case5 => exact ⟨_, rfl⟩
  | case6 index item rest notList differs ih =>
      refine ih ?_
      cases item with
      | head id => exact (List.mem_cons.1 mem).resolve_left (Ne.symm differs)
      | word id reading text => exact (List.mem_cons.1 mem).resolve_left (Ne.symm differs)
      | list id inner => exact absurd rfl (notList id inner)

end Outline

namespace Document

variable {document : Document} {kids : Contents} {marks : Marks} {list : NodeId}
  {front ids : List NodeId} {items : List Outline}

theorem Arranged.kind?_first (arranged : document.Arranged kids []) {id : NodeId}
    (split : kids list = id :: ids) : document.kind? id = some .head :=
  (arranged.heads (by rw [split]; exact List.mem_cons_self)).2 (by rw [split]; rfl)

/-- The items of a list can be told in the line, if the words can and no head is an end of the
selection: all of them with the head in front, or those behind some front of the list. -/
theorem Outlined.headed_and_clear (arranged : document.Arranged kids [])
    (shown : document.Outlined kids ids items) (split : kids list = front ++ ids)
    (isList : document.isList list = true)
    (words : ∀ word ∈ Outline.wordsAll items, Text.Discernible word.1)
    (bare : ∀ id, document.kind? id = some .head →
      marks.opens id = false ∧ marks.closes id = false) :
    (front = [] → Outline.Headed marks items) ∧ (front ≠ [] → Outline.Clear marks items) := by
  -- A node is a head if and only if nothing is in front of it, which leaves one of the two parts to
  -- show in each case.
  induction shown generalizing list front with
  | nil =>
      refine ⟨?_, fun _ => .nil⟩
      rintro rfl
      obtain ⟨head, rest, split', -⟩ := arranged.exists_head isList
      cases split.symm.trans split'
  | @head id ids items kind shown ih =>
      have split' : kids list = (front ++ [id]) ++ ids := by simp [split]
      have behind := (ih split' isList words).2 (by simp)
      obtain ⟨opens, closes⟩ := bare id kind
      exact ⟨fun _ => .head opens closes behind,
        fun nonempty => absurd kind (arranged.kind?_ne_head split nonempty)⟩
  | @word id ids items reading text kind shown ih =>
      obtain ⟨discernible, words⟩ := List.forall_mem_cons.1 words
      have split' : kids list = (front ++ [id]) ++ ids := by simp [split]
      refine ⟨?_, fun _ => .word discernible ((ih split' isList words).2 (by simp))⟩
      rintro rfl
      cases kind.symm.trans (arranged.kind?_first split)
  | @list id first last ids inner items kind inside shown ih ih' =>
      obtain ⟨within, words⟩ := List.forall_mem_append.1 words
      have split' : kids list = (front ++ [id]) ++ ids := by simp [split]
      have behind := (ih' split' isList words).2 (by simp)
      have headed := (ih (List.nil_append _).symm (isList_iff.2 ⟨first, last, kind⟩) within).1 rfl
      refine ⟨?_, fun _ => ?_⟩
      · rintro rfl
        cases kind.symm.trans (arranged.kind?_first split)
      · cases headed with
        | head opens closes clear => exact .list opens closes clear behind

theorem Arranged.headed_outline (arranged : document.Arranged kids [])
    (words : ∀ word ∈ Outline.wordsAll document.outline, Text.Discernible word.1)
    (bare : ∀ id, document.kind? id = some .head →
      marks.opens id = false ∧ marks.closes id = false) :
    Outline.Headed marks document.outline :=
  (arranged.outline_outlined.headed_and_clear arranged (List.nil_append _).symm arranged.rooted
    words bare).1 rfl

end Document

end LiveStack
