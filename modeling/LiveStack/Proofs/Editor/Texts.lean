import LiveStack.Proofs.Document.Spelling
import LiveStack.Proofs.Editor.Refinement

/-!
# The texts of a program

An editor gives three texts: the whole program, the program up to the cursor, which is the one that
is run, and the selected code. If the text of every word is one token, each of them lexes without a
problem, and the tokens are those of a tree: of the whole tree; of the tree with all taken away that
comes behind the cursor, in its own list and in the lists around it; and of the selected run.
-/

namespace LiveStack

open Relation

/-- The text lexes without a problem and to these lexemes, whatever it is called. -/
def Token.Spells (source : String) (lexemes : List Lexeme) : Prop :=
  ∀ name, ∃ tokens, ofSource name source = (tokens, []) ∧ tokens.map (·.lexeme) = lexemes

/-! ## The lexemes of a tree -/

mutual

/-- The lexemes of a tree: those of a list are between brackets. -/
def Tree.lexemes : Tree → List Lexeme
  | .word _ text => (Lexeme.ofText? text).toList
  | .list items => .opening :: (lexemesAll items ++ [.closing])

/-- The lexemes of some trees, one after the other. -/
def Tree.lexemesAll : List Tree → List Lexeme
  | [] => []
  | tree :: rest => tree.lexemes ++ lexemesAll rest

end

theorem Tree.lexemesAll_append (trees trees' : List Tree) :
    lexemesAll (trees ++ trees') = lexemesAll trees ++ lexemesAll trees' := by
  induction trees with
  | nil => rfl
  | cons tree rest ih => rw [List.cons_append, lexemesAll, ih, lexemesAll, List.append_assoc]

namespace Outline

mutual

theorem lexemes_eq (item : Outline) : item.lexemes = Tree.lexemesAll item.trees := by
  match item with
  | .head id => rfl
  | .word id reading text => simp [lexemes, Tree.lexemesAll, Tree.lexemes]
  | .list id items => simp [lexemes, Tree.lexemesAll, Tree.lexemes, lexemesAll_eq items]

/-- Nodes have the lexemes of what they show. -/
theorem lexemesAll_eq (items : List Outline) :
    lexemesAll items = Tree.lexemesAll (forest items) := by
  match items with
  | [] => rfl
  | item :: rest =>
      rw [lexemesAll, lexemes_eq item, lexemesAll_eq rest, forest_cons, Tree.lexemesAll_append]

end

/-- If every word is one token, the text of some nodes lexes to the lexemes of what they show. -/
theorem spells (items : List Outline)
    (single : ∀ word ∈ wordsAll items, (Lexeme.ofText? word.1).isSome) :
    Token.Spells (spellAll items) (Tree.lexemesAll (forest items)) := by
  intro name
  rw [← lexemesAll_eq]
  exact (yields_spellAll items single).1.ofSource name

end Outline

/-! ## The tree up to a place -/

/-- The place with nothing behind it, neither in its list nor in those around it. -/
def Spot.upTo (spot : Spot) : Spot where
  before := spot.before
  after := []
  around := spot.around.map fun level => { level with after := [] }

/-- Up to a place in a list, the list is kept with what it has up to the place, and is the last of
what is kept of the list around it. -/
theorem Spot.program_upTo_cons (before after : List Tree) (level : Level) (around : List Level) :
    (Spot.upTo ⟨before, after, level :: around⟩).program =
      (Spot.upTo ⟨.list before.reverse :: level.before, [], around⟩).program := by
  simp [upTo, program, Level.enclose]

namespace Document

variable {document : Document} {kids : Contents} {list below stop : NodeId}
  {items cut : List Outline} {around : List Level}

/-- The words in a list are words of the document. -/
theorem Framed.wordsAll_subset (framed : document.Framed kids list around)
    (arranged : document.Arranged kids []) (shown : document.Outlined kids (kids list) items) :
    Outline.wordsAll items ⊆ Outline.wordsAll document.outline := by
  induction framed generalizing items with
  | root =>
      rw [shown.unique arranged.outline_outlined]
      exact List.Subset.refl _
  | @inside outer inner front back level around framed isList split before after ih =>
      obtain ⟨nearer, further, -, whole, -, -⟩ := before.exists_outlined after isList split shown
      refine List.Subset.trans (fun word mem => ?_) (ih whole)
      rw [Outline.wordsAll_append]
      exact List.mem_append_right _ (List.mem_append_left _ mem)

/-- If writing a list stops in it, behind what `cut` has of it, writing the document stops there
too, and has written all that comes before the list and before each list around it. -/
theorem Framed.exists_cut (framed : document.Framed kids list around)
    (arranged : document.Arranged kids []) (shown : document.Outlined kids (kids list) items)
    (mem : stop ∈ kids below) (down : ReflTransGen kids.Holds list below)
    (writes : ∀ text, Outline.writeAll (some stop) text items =
      (text ++ Outline.spellAll cut, true))
    (words : Outline.wordsAll cut ⊆ Outline.wordsAll items) :
    ∃ whole, Outline.writeAll (some stop) "" document.outline = (Outline.spellAll whole, true) ∧
      Outline.wordsAll whole ⊆ Outline.wordsAll document.outline ∧
      Outline.forest whole = (Spot.upTo ⟨(Outline.forest cut).reverse, [], around⟩).program := by
  induction framed generalizing items cut with
  | root =>
      obtain rfl := shown.unique arranged.outline_outlined
      refine ⟨cut, ?_, words, ?_⟩
      · rw [writes, String.empty_append]
      · simp [Spot.upTo, Spot.program]
  | @inside outer inner front back level around framed isList split before after ih =>
      have held : inner ∈ kids outer := by simp [split]
      obtain ⟨nearer, further, passed, whole, same, -⟩ :=
        before.exists_outlined after isList split shown
      -- what comes before the list is written before it, and the list is closed once it is cut
      have apart : ∀ start ∈ front, ∀ id, ReflTransGen kids.Holds start id → id ≠ stop := by
        rintro start mem' id reaches rfl
        exact arranged.apart_of_split split (List.mem_append_left _ mem') reaches (down.tail mem)
      have writes' (text : String) :
          Outline.writeAll (some stop) text (nearer ++ .list inner items :: further) =
            (text ++ Outline.spellAll (nearer ++ [.list inner cut]), true) := by
        rw [writeAll_append (passed.writeAll apart text), Outline.writeAll, Outline.write, writes,
          Outline.spellAll_append]
        simp [Outline.spellAll, Outline.spell, String.append_assoc]
      have words' : Outline.wordsAll (nearer ++ [.list inner cut]) ⊆
          Outline.wordsAll (nearer ++ .list inner items :: further) := by
        rw [Outline.wordsAll_append, Outline.wordsAll_append]
        refine List.append_subset.2 ⟨List.subset_append_left _ _, fun word mem => ?_⟩
        rw [Outline.wordsAll, Outline.wordsAll, List.append_nil] at mem
        exact List.mem_append_right _ (List.mem_append_left _ (words mem))
      obtain ⟨all, written, words, shows⟩ := ih whole (.head held down) writes' words'
      refine ⟨all, written, words, shows.trans ?_⟩
      rw [Spot.program_upTo_cons, Outline.forest_append, same]
      simp

end Document

namespace Editor

open Document (root)

variable {editor : Editor} {kids : Contents} {list : NodeId} {front back : List NodeId}
  {spot : Spot}

/-- The text up to the cursor is that of the tree up to the place of the cursor. -/
theorem Stands.spells (stands : editor.Stands kids list front back spot)
    (single : ∀ word ∈ editor.words, (Lexeme.ofText? word.1).isSome) :
    Token.Spells editor.sourceToCursor (Tree.lexemesAll spot.upTo.program) := by
  have mem := stands.cursor_mem
  obtain ⟨arranged, framed, split, ends, ⟨items, shown, same⟩, ⟨rest, shown', -⟩⟩ := stands
  have whole : editor.document.Outlined kids (kids list) (items ++ rest) :=
    split ▸ shown.append shown'
  have writes (text : String) : Outline.writeAll (some editor.cursor) text (items ++ rest) =
      (text ++ Outline.spellAll items, true) :=
    arranged.writeAll_to_last (show kids list = [] ++ front ++ back from split) shown ends text rest
  have words : Outline.wordsAll items ⊆ Outline.wordsAll (items ++ rest) := by
    rw [Outline.wordsAll_append]
    exact List.subset_append_left _ _
  obtain ⟨cut, written, words, shows⟩ := framed.exists_cut arranged whole mem .refl writes words
  rw [same, List.reverse_reverse] at shows
  have shows : Outline.forest cut = spot.upTo.program := shows
  rw [sourceToCursor_eq_writeAll, written, ← shows]
  exact Outline.spells cut fun word mem => single word (words mem)

/-- The text of a selection is that of the run from its first node to its last. -/
theorem selectionSource?_spells (sound : editor.Sound kids) {span : Span}
    (selected : editor.selection? = some span)
    (single : ∀ word ∈ editor.words, (Lexeme.ofText? word.1).isSome) :
    ∃ text, editor.selectionSource? = some text ∧ Token.Spells text (Tree.lexemesAll
      ((editor.document.run span.first span.last).flatMap editor.document.shows)) := by
  have arranged := sound.arranged
  obtain ⟨list, front, run, back, prev, split, parted⟩ := (selection_sound sound).2 span selected
  have inside : ∀ id ∈ run, id ∈ kids list := fun id mem => by simp [split, mem]
  obtain ⟨around, framed⟩ :=
    arranged.exists_framed (arranged.isList_of_mem (inside _ parted.first_mem))
  obtain ⟨trees, shown⟩ := arranged.exists_shown list
  -- The trees of the list are those of the run, with others before and behind it.
  rw [split] at shown
  obtain ⟨_, _, rfl, shown, ⟨after, shown₃, -⟩⟩ := shown.exists_append
  obtain ⟨_, _, rfl, ⟨before, shown₁, -⟩, shown⟩ := shown.exists_append
  rw [arranged.run_of_split split parted.starts parted.ends, shown.flatMap_shows arranged inside]
  obtain ⟨items, shown₂, rfl⟩ := shown
  have whole : editor.document.Outlined kids (kids list) (before ++ items ++ after) :=
    split ▸ (shown₁.append shown₂).append shown₃
  refine ⟨Outline.spellAll items, ?_, Outline.spells items fun word mem => single word ?_⟩
  · rw [selectionSource?, selected, Option.map_some,
      arranged.sourceFrom_run split parted.starts parted.ends shown₂ shown₃]
  · refine framed.wordsAll_subset arranged whole ?_
    rw [Outline.wordsAll_append, Outline.wordsAll_append]
    exact List.mem_append_left _ (List.mem_append_right _ mem)

/-- In every editor that steps lead to and whose words are all one token each, the three texts lex
without a problem. With the cursor on any node but the root, the text up to it has the tokens of the
tree up to there: what comes behind the cursor in its list, and behind each list around it, is gone,
and those lists are closed. The text of the program has the tokens of the whole tree, and the text
of the selection those of the selected run. -/
theorem texts_lex_to_the_tree (steps : List Step) :
    let editor := steps.foldl Step.perform Editor.new
    (∀ word ∈ editor.words, (Lexeme.ofText? word.1).isSome) →
    (∀ cursor ∈ editor.document.live, cursor ≠ root →
      ∃ spot, { editor with cursor }.At spot ∧
        Token.Spells { editor with cursor }.sourceToCursor (Tree.lexemesAll spot.upTo.program)) ∧
    Token.Spells editor.source (Tree.lexemesAll (Outline.forest editor.document.outline)) ∧
    ∀ span, editor.selection? = some span →
      ∃ text, editor.selectionSource? = some text ∧ Token.Spells text (Tree.lexemesAll
        ((editor.document.run span.first span.last).flatMap editor.document.shows)) := by
  intro editor single
  obtain ⟨kids, sound⟩ : ∃ kids, editor.Sound kids := sound_of_steps steps
  refine ⟨fun cursor live differs => ?_, ?_, fun span selected => ?_⟩
  · obtain ⟨list, held⟩ := sound.arranged.exists_list (Document.mem_live.1 live) differs
    obtain ⟨front, back, split⟩ := List.append_of_mem held
    have split : kids list = (front ++ [cursor]) ++ back := by simp [split]
    obtain ⟨spot, stands⟩ := @exists_stands { editor with cursor } _ _ _ _ sound.arranged split
      (List.getLast?_concat ..)
    exact ⟨spot, stands.isAt, stands.spells single⟩
  · rw [source_eq]
    exact Outline.spells _ single
  · exact selectionSource?_spells sound selected single

/-- With the cursor on a string in a list that goes on behind it, and more behind the list, the text
up to the cursor ends with the string and closes the list; only the last word is selected. -/
theorem texts_lex_to_the_tree_of_nested_string :
    let editor := [Step.edit (.insertWord "one") fun _ => .unknown,
      .edit .insertList fun _ => .unknown, .edit (.insertWord "\"a b\"") fun _ => .unknown,
      .edit (.insertWord "two") fun _ => .unknown,
      .edit (.moveNext { stepOut := true }) fun _ => .unknown,
      .edit (.insertWord "three") fun _ => .unknown,
      .edit (.movePrev { select := true }) fun _ => .unknown].foldl Step.perform Editor.new
    let one : List Lexeme := [.word "one", .opening, .string "\"a b\""]
    (∀ word ∈ editor.words, (Lexeme.ofText? word.1).isSome) ∧
    (5 ∈ editor.document.live ∧
      Token.Spells { editor with cursor := 5 }.sourceToCursor (one ++ [.closing])) ∧
    Token.Spells editor.source (one ++ [.word "two", .closing, .word "three"]) ∧
    ∃ text, editor.selectionSource? = some text ∧ Token.Spells text [.word "three"] := by
  intro editor one
  have single : ∀ word ∈ editor.words, (Lexeme.ofText? word.1).isSome := by decide +kernel
  have live : 5 ∈ editor.document.live := by decide
  obtain ⟨upTo, whole, selected⟩ := texts_lex_to_the_tree _ single
  refine ⟨single, ⟨live, ?_⟩, ?_, ?_⟩
  · obtain ⟨spot, here, spells⟩ := upTo 5 live (by decide)
    have place : { editor with cursor := 5 }.spot? = some ⟨[.word .unknown "\"a b\""],
      [.word .unknown "two"], [⟨[.word .unknown "one"], [.word .unknown "three"]⟩]⟩ := rfl
    obtain rfl := Option.some.inj (here.place.symm.trans place)
    exact spells
  · exact whole
  · exact selected ⟨7, 7⟩ rfl

end Editor

end LiveStack
