import LiveStack.Proofs.Code.Reading
import LiveStack.Proofs.Document.Outlining
import LiveStack.Proofs.Document.Sketch

/-!
# The tokens of a document

The text of a document is written node by node. If the text of every word in it is one token, the
text lexes to these tokens, with brackets around those of each list, and the brackets are in pairs.
-/

namespace LiveStack

open Relation

/-- The lexeme that a text is, if it is one word or one string and nothing else. -/
def Lexeme.ofText? (text : String) : Option Lexeme :=
  match Token.ofSource "" text with
  | ([⟨.word text, _⟩], []) => some (.word text)
  | ([⟨.string text, _⟩], []) => some (.string text)
  | _ => none

theorem Lexeme.ofText?_cases {text : String} {lexeme : Lexeme}
    (single : ofText? text = some lexeme) :
    Token.Yields (text ++ " ").toList [lexeme] ∧ Token.Paired [lexeme] := by
  rw [String.toList_append]
  unfold ofText? at single
  split at single
  · next word place lexed =>
      cases single
      exact ⟨Token.yields_of_ofSource lexed, .word word⟩
  · next string place lexed =>
      cases single
      exact ⟨Token.yields_of_ofSource lexed, .string string⟩
  · cases single

namespace Outline

mutual

/-- The text of a node. -/
def spell : Outline → String
  | .head _ => ""
  | .word _ _ text => text ++ " "
  | .list _ items => "[ " ++ spellAll items ++ "] "

/-- The text of some nodes. -/
def spellAll : List Outline → String
  | [] => ""
  | item :: rest => item.spell ++ spellAll rest

end

mutual

/-- The lexemes of a node. -/
def lexemes : Outline → List Lexeme
  | .head _ => []
  | .word _ _ text => (Lexeme.ofText? text).toList
  | .list _ items => .opening :: (lexemesAll items ++ [.closing])

/-- The lexemes of some nodes. -/
def lexemesAll : List Outline → List Lexeme
  | [] => []
  | item :: rest => item.lexemes ++ lexemesAll rest

end

theorem spellAll_append (items items' : List Outline) :
    spellAll (items ++ items') = spellAll items ++ spellAll items' := by
  induction items with
  | nil => simp [spellAll]
  | cons item rest ih => simp [spellAll, ih, String.append_assoc]

theorem wordsAll_append (items items' : List Outline) :
    wordsAll (items ++ items') = wordsAll items ++ wordsAll items' := by
  induction items with
  | nil => rfl
  | cons item rest ih => simp [wordsAll, ih]

/-! ## Writing -/

mutual

theorem write_none (front : String) (item : Outline) :
    item.write none front = (front ++ item.spell, false) := by
  match item with
  | .head id => simp [write, spell]
  | .word id reading text => simp [write, spell, String.append_assoc]
  | .list id items =>
      simp [write, spell, writeAll_none (front ++ "[ ") items, String.append_assoc]

theorem writeAll_none (front : String) (items : List Outline) :
    writeAll none front items = (front ++ spellAll items, false) := by
  match items with
  | [] => simp [writeAll, spellAll]
  | item :: rest =>
      simp only [writeAll, write_none front item]
      rw [writeAll_none (front ++ item.spell) rest, spellAll, String.append_assoc]

end

variable (classify : String → TokenClass)

mutual

theorem spell_reread (item : Outline) : (item.reread classify).spell = item.spell := by
  match item with
  | .head id => rfl
  | .word id reading text => rfl
  | .list id items => rw [reread, spell, spell, spellAll_reread items]

theorem spellAll_reread (items : List Outline) :
    spellAll (rereadAll classify items) = spellAll items := by
  match items with
  | [] => rfl
  | item :: rest => rw [rereadAll, spellAll, spellAll, spell_reread item, spellAll_reread rest]

end

/-! ## Lexing -/

mutual

theorem yields_spell (item : Outline)
    (single : ∀ word ∈ item.words, (Lexeme.ofText? word.1).isSome) :
    Token.Yields item.spell.toList item.lexemes ∧ Token.Paired item.lexemes := by
  match item with
  | .head id => exact ⟨.nil, .nil⟩
  | .word id reading text =>
      obtain ⟨lexeme, found⟩ :=
        Option.isSome_iff_exists.1 (single (text, reading) (by simp [words]))
      rw [spell, lexemes, found]
      exact Lexeme.ofText?_cases found
  | .list id items =>
      obtain ⟨yields, paired⟩ := yields_spellAll items single
      refine ⟨?_, paired.list⟩
      rw [spell, lexemes, String.toList_append, String.toList_append]
      exact (((Token.Yields.opening.append .blank).append yields).append
        (Token.Yields.closing.append .blank) :
          Token.Yields _ ([.opening] ++ [] ++ lexemesAll items ++ ([.closing] ++ [])))

/-- If every word is one token, the text of some nodes lexes to their lexemes everywhere. -/
theorem yields_spellAll (items : List Outline)
    (single : ∀ word ∈ wordsAll items, (Lexeme.ofText? word.1).isSome) :
    Token.Yields (spellAll items).toList (lexemesAll items) ∧ Token.Paired (lexemesAll items) := by
  match items with
  | [] => exact ⟨.nil, .nil⟩
  | item :: rest =>
      obtain ⟨first, paired⟩ := yields_spell item fun word mem =>
        single word (List.mem_append_left _ mem)
      obtain ⟨second, paired'⟩ := yields_spellAll rest fun word mem =>
        single word (List.mem_append_right _ mem)
      rw [spellAll, lexemesAll, String.toList_append]
      exact ⟨first.append second, paired.append paired'⟩

end

end Outline

namespace Document

variable {document : Document} {kids : Contents} {ids : List NodeId} {items : List Outline}
  {stop : NodeId}

/-! ## Writing up to a node -/

/-- Writing goes on as long as the node to stop at is not met. -/
theorem Outlined.writeAll (shown : document.Outlined kids ids items)
    (apart : ∀ start ∈ ids, ∀ id, ReflTransGen kids.Holds start id → id ≠ stop)
    (front : String) :
    Outline.writeAll (some stop) front items = (front ++ Outline.spellAll items, false) := by
  -- No item holds the node to stop at, so each is written to its end.
  induction shown generalizing front with
  | nil => simp [Outline.writeAll, Outline.spellAll]
  | @head id ids items kind _ ih =>
      have differs : stop ≠ id := (apart id List.mem_cons_self id .refl).symm
      rw [Outline.writeAll]
      simp only [Outline.write, Option.some.injEq, differs, decide_false]
      rw [ih fun start mem => apart start (List.mem_cons_of_mem _ mem), Outline.spellAll,
        Outline.spell, String.empty_append]
  | @word id ids items reading text kind _ ih =>
      have differs : stop ≠ id := (apart id List.mem_cons_self id .refl).symm
      rw [Outline.writeAll]
      simp only [Outline.write, Option.some.injEq, differs, decide_false]
      rw [ih fun start mem => apart start (List.mem_cons_of_mem _ mem), Outline.spellAll,
        Outline.spell, String.append_assoc, String.append_assoc, String.append_assoc]
  | @list id first last ids inner items kind _ _ ih ih' =>
      have differs : stop ≠ id := (apart id List.mem_cons_self id .refl).symm
      rw [Outline.writeAll]
      simp only [Outline.write, Option.some.injEq, differs, decide_false, Bool.or_false]
      rw [ih fun start mem other reaches => apart id List.mem_cons_self other (.head mem reaches)]
      simp only
      rw [ih' fun start mem => apart start (List.mem_cons_of_mem _ mem), Outline.spellAll,
        Outline.spell]
      simp only [String.append_assoc]

/-- Writing stops behind the node to stop at. -/
theorem Outlined.writeAll_stop {id : NodeId} {item : Outline}
    (shown : document.Outlined kids [id] [item])
    (apart : ∀ start ∈ kids id, ∀ other, ReflTransGen kids.Holds start other → other ≠ id)
    (front : String) (rest : List Outline) :
    Outline.writeAll (some id) front (item :: rest) = (front ++ item.spell, true) := by
  rw [Outline.writeAll]
  cases shown with
  | head kind => simp [Outline.write, Outline.spell]
  | word kind => simp [Outline.write, Outline.spell, String.append_assoc]
  | list kind inside =>
      rw [Outline.write, inside.writeAll apart]
      simp [Outline.spell, String.append_assoc]

theorem writeAll_append {before : List Outline} {front written : String}
    (passed : Outline.writeAll (some stop) front before = (written, false))
    (behind : List Outline) :
    Outline.writeAll (some stop) front (before ++ behind) =
      Outline.writeAll (some stop) written behind := by
  induction before generalizing front with
  | nil =>
      obtain ⟨rfl, -⟩ := Prod.mk.inj passed
      rfl
  | cons item rest ih =>
      rw [Outline.writeAll] at passed
      rw [List.cons_append, Outline.writeAll]
      cases here : item.write (some stop) front with
      | mk text met =>
          rw [here] at passed
          cases met with
          | true => cases (Prod.mk.inj passed).2
          | false => exact ih passed

/-- Writing some nodes of a list up to the last of them writes them all. -/
theorem Arranged.writeAll_to_last (arranged : document.Arranged kids []) {list : NodeId}
    {front back : List NodeId} (split : kids list = front ++ ids ++ back)
    (shown : document.Outlined kids ids items) (ends : ids.getLast? = some stop) (text : String)
    (rest : List Outline) :
    Outline.writeAll (some stop) text (items ++ rest) = (text ++ Outline.spellAll items, true) := by
  obtain ⟨init, toLast⟩ := List.getLast?_eq_some_iff.1 ends
  obtain rfl := shown.ids_eq
  obtain ⟨before, ending, rfl, rfl, single⟩ := List.map_eq_append_iff.1 toLast
  obtain ⟨item, more, rfl, isLast, none⟩ := List.map_eq_cons_iff.1 single
  obtain rfl := List.map_eq_nil_iff.1 none
  obtain ⟨ids, ids', -, passed, stopped⟩ := shown.exists_append
  obtain rfl := passed.ids_eq
  obtain rfl := stopped.ids_eq
  have inside : ∀ {id}, id ∈ (before ++ [item]).map Outline.id → id ∈ kids list := fun mem => by
    rw [split]
    exact List.mem_append_left _ (List.mem_append_right _ mem)
  have notMem : stop ∉ before.map Outline.id := by
    have nodup := arranged.nodup list
    rw [split, toLast] at nodup
    intro mem
    exact (List.nodup_append.1 (List.nodup_append.1 (List.nodup_append.1 nodup).1).2.1).2.2 stop mem
      stop (List.mem_singleton_self _) rfl
  -- The last node is held neither by those before it nor by itself, so writing stops behind it.
  have unmet : ∀ start ∈ before.map Outline.id, ∀ id, ReflTransGen kids.Holds start id →
      id ≠ stop := by
    rintro start mem id reaches rfl
    have same := arranged.apart_of_mem (inside (by simp [mem])) (inside (by simp [isLast])) reaches
      .refl
    exact notMem (same ▸ mem)
  have unmet' : ∀ start ∈ kids item.id, ∀ id, ReflTransGen kids.Holds start id → id ≠ item.id := by
    rintro start mem id reaches rfl
    exact arranged.acyclic mem reaches
  rw [List.append_assoc, writeAll_append (passed.writeAll unmet text), List.singleton_append,
    ← isLast, stopped.writeAll_stop unmet', Outline.spellAll_append]
  simp [Outline.spellAll, String.append_assoc]

/-- The text from the first node of a run of siblings up to its last is that of the run. -/
theorem Arranged.sourceFrom_run (arranged : document.Arranged kids []) {list first : NodeId}
    {front back : List NodeId} {rest : List Outline} (split : kids list = front ++ ids ++ back)
    (starts : ids.head? = some first) (ends : ids.getLast? = some stop)
    (shown : document.Outlined kids ids items) (shown' : document.Outlined kids back rest) :
    document.sourceFrom first (some stop) = Outline.spellAll items := by
  have whole := shown.append shown'
  obtain ⟨middle, fromFirst⟩ := List.head?_eq_some_iff.1 starts
  rw [fromFirst] at whole
  have atFirst : kids list = front ++ first :: (middle ++ back) := by simp [split, fromFirst]
  rw [sourceFrom, (arranged.outlineFrom_outlined atFirst).unique whole,
    arranged.writeAll_to_last split shown ends, String.empty_append]

end Document

namespace Editor

/-- The text of a program is that of its nodes. -/
theorem source_eq (editor : Editor) :
    editor.source = Outline.spellAll editor.document.outline := by
  show (Outline.writeAll none "" editor.document.outline).1 = _
  rw [Outline.writeAll_none, String.empty_append]

/-- The text up to the cursor is written from the front. -/
theorem sourceToCursor_eq_writeAll (editor : Editor) :
    editor.sourceToCursor =
      (Outline.writeAll (some editor.cursor) "" editor.document.outline).1 := rfl

/-- Classifying the words anew does not change the text. -/
theorem source_reclassify (editor : Editor) (classify : Classifier) :
    (editor.reclassify classify).source = editor.source := by
  rw [source_eq, source_eq, reclassify, Document.outline_reclassify, Outline.spellAll_reread]

end Editor

end LiveStack
