import LiveStack.Proofs.Code.Pairing
import LiveStack.Proofs.Document.Spelling
import LiveStack.Proofs.Editor.Changes

/-!
# Typing a source text

Source text is inserted token by token. Each token goes in behind the last one, in the innermost of
the lists that were opened and not closed yet; the document above that list, and beside it, stays as
it is. So what stands in the document is at any time the lexemes typed so far, and once the lists
left open are closed, it is the lexemes of the text with their brackets in pairs.
-/

namespace LiveStack

open Relation

namespace Document

variable {document document' : Document} {kids kids' : Contents} {list id : NodeId} {depth : Nat}
  {before : List Lexeme}

/-- The open lists, from the root down to `list`: each is the last node of the one around it.
`before` is all that is written in front of the nodes of `list`. -/
inductive Spine (document : Document) (kids : Contents) :
    (list : NodeId) → (depth : Nat) → (before : List Lexeme) → Prop
  | root : Spine document kids root 0 []
  | opened {list inner : NodeId} {depth : Nat} {before lexemes : List Lexeme}
      {front : List NodeId} {items : List Outline} (spine : Spine document kids list depth before)
      (split : kids list = front ++ [inner]) (shown : document.Outlined kids front items)
      (spelled : Outline.spellAll items = Lexeme.spell lexemes) :
      Spine document kids inner (depth + 1) (before ++ (lexemes ++ [.opening]))

/-- A change in a list leaves alone what is above the list and beside it. -/
theorem Spine.congr (spine : document.Spine kids list depth before)
    (arranged : document.Arranged kids [])
    (same : ∀ id, document.Live id → ¬ ReflTransGen kids.Holds list id →
      document'.kind? id = document.kind? id ∧ kids' id = kids id) :
    document'.Spine kids' list depth before := by
  induction spine with
  | root => exact .root
  | @opened outer inner depth before lexemes front items spine split shown spelled ih =>
      have mem : inner ∈ kids outer := by simp [split]
      obtain ⟨⟨-, contents⟩, beside⟩ := arranged.above_and_beside split same
      refine .opened (ih fun id live out => same id live fun reaches => out (.head mem reaches))
        (contents.trans split) (shown.congr fun start front => beside start ?_) spelled
      exact List.mem_append_left _ front

end Document

namespace Editor

open Document (root)

variable {editor : Editor} {kids : Contents} {list : NodeId} {depth : Nat}
  {written : List Lexeme}

/-- The lexemes `written` are all that is in the document, with `depth` lists open at the end, and
the cursor is on the last node of the innermost of them. -/
structure Typed (editor : Editor) (kids : Contents) (list : NodeId) (depth : Nat)
    (written : List Lexeme) : Prop where
  arranged : editor.document.Arranged kids []
  ends : (kids list).getLast? = some editor.cursor
  parts : ∃ before inside items, editor.document.Spine kids list depth before ∧
    editor.document.Outlined kids (kids list) items ∧
    Outline.spellAll items = Lexeme.spell inside ∧ written = before ++ inside

namespace Typed

/-- An editor on a document with nothing in it but the head of the root. -/
theorem empty (arranged : editor.document.Arranged kids []) (only : kids root = [editor.cursor]) :
    editor.Typed kids root 0 [] := by
  refine ⟨arranged, by rw [only]; rfl, [], [], _, .root, arranged.outlined_head only, ?_, rfl⟩
  simp [Outline.spellAll, Outline.spell, Lexeme.spell]

/-- Nothing is written in a new editor. -/
theorem new : ∃ kids, Editor.new.Typed kids root 0 [] :=
  ⟨_, empty Document.arranged_empty rfl⟩

/-- Nothing is written in an editor that was cleared. -/
theorem clear (arranged : editor.document.Arranged kids []) :
    ∃ kids', editor.clear.Typed kids' root 0 [] := by
  obtain ⟨kids', arranged', only⟩ := exists_cleared arranged
  exact ⟨kids', empty arranged' only⟩

/-- A new node behind the cursor goes in behind all that is written. -/
theorem grow (typed : editor.Typed kids list depth written) {document' : Document}
    {fresh : NodeId} {inner : List NodeId} (growth : editor.document.Grown document' fresh inner) :
    ∃ kids', (document'.linkAfter editor.cursor fresh).Arranged kids' [] ∧
      kids' list = kids list ++ [fresh] ∧ kids' fresh = inner ∧
      (document'.linkAfter editor.cursor fresh).kind? fresh = document'.kind? fresh ∧
      ∃ before inside items,
        (document'.linkAfter editor.cursor fresh).Spine kids' list depth before ∧
        (document'.linkAfter editor.cursor fresh).Outlined kids' (kids list) items ∧
        Outline.spellAll items = Lexeme.spell inside ∧ written = before ++ inside := by
  obtain ⟨arranged, ends, before, written, items, spine, shown, spelled, rfl⟩ := typed
  obtain ⟨kids', linked, contents, inside, kind, spares⟩ :=
    growth.exists_linked arranged (List.append_nil _).symm ends
  rw [List.append_nil] at contents
  refine ⟨kids', linked, contents, inside, kind, before, written, items,
    spine.congr arranged fun id live out => spares id live ?_ (List.forall_mem_nil _),
    spares.outlined_of_nil arranged (fun _ mem => mem) shown, spelled, rfl⟩
  rintro rfl
  exact out .refl

/-- A word is written behind the rest. -/
theorem insertWord (typed : editor.Typed kids list depth written) (classify : Classifier)
    (lexeme : Lexeme) :
    ∃ kids', (editor.insertWord classify lexeme.text).Typed kids' list depth
      (written ++ [lexeme]) := by
  obtain ⟨kids', arranged, contents, -, kind, before, inside, items, spine, shown, spelled, rfl⟩ :=
    typed.grow (Document.grown_pushWord (classify lexeme.text) lexeme.text)
  rw [Document.kind?_push] at kind
  refine ⟨kids', arranged, ?_, before, inside ++ [lexeme],
    items ++ [.word editor.document.slots.size (classify lexeme.text) lexeme.text], spine, ?_, ?_,
    List.append_assoc ..⟩
  · rw [contents, List.getLast?_concat]
    rfl
  · rw [contents]
    exact shown.append (.word kind .nil)
  · rw [Outline.spellAll_append, spelled, Lexeme.spell_append]
    simp [Outline.spellAll, Outline.spell, Lexeme.spell]

/-- An opening bracket is written behind the rest, and the cursor is in the new list. -/
theorem insertList (typed : editor.Typed kids list depth written) :
    ∃ kids', editor.insertList.2.Typed kids' editor.document.slots.size (depth + 1)
      (written ++ [.opening]) := by
  obtain ⟨kids', arranged, contents, inner, -, before, inside, items, spine, shown, spelled, rfl⟩ :=
    typed.grow Document.grown_pushList
  refine ⟨kids', arranged, ?_, _, [], _, spine.opened contents shown spelled,
    arranged.outlined_head inner, ?_, ?_⟩
  · rw [inner, cursor_insertList arranged inner]
    rfl
  · simp [Outline.spellAll, Outline.spell, Lexeme.spell]
  · simp

/-- A closing bracket is written behind the rest, and the cursor is on the list that it closes. -/
theorem closeList (typed : editor.Typed kids list (depth + 1) written) :
    ∃ outer, editor.closeList.1 = true ∧
      editor.closeList.2.Typed kids outer depth (written ++ [.closing]) := by
  obtain ⟨arranged, ends, before, inside, items, spine, shown, spelled, rfl⟩ := typed
  cases spine with
  | @opened outer _ _ before lexemes front items' spine split shown' spelled' =>
      have mem : list ∈ kids outer := by simp [split]
      have cursor : editor.cursor ∈ kids list := List.mem_of_mem_getLast? ends
      obtain ⟨first, last', kind⟩ := Document.isList_iff.1 (arranged.isList_of_mem cursor)
      rw [closeList_of_last arranged ends mem]
      refine ⟨outer, rfl, arranged, ?_, before, lexemes ++ .opening :: (inside ++ [.closing]),
        items' ++ [.list list items], spine, ?_, ?_, by simp⟩
      · rw [split, List.getLast?_concat]
      · rw [split]
        exact shown'.append (.list kind shown .nil)
      · rw [Outline.spellAll_append, spelled', Lexeme.spell_append]
        simp [Outline.spellAll, Outline.spell, Lexeme.spell, Lexeme.spell_append, spelled,
          Lexeme.text, String.append_assoc]

/-! ## Token by token -/

/-- After some tokens, what is written and what is open make up the rest of the brackets' pairs. -/
theorem insertTokens (typed : editor.Typed kids list depth written) (classify : Classifier)
    (tokens : List Token) :
    ∃ editor' depth' kids' list' written',
      tokens.foldl (insertToken classify) (editor, depth) = (editor', depth') ∧
        editor'.Typed kids' list' depth' written' ∧
        written' ++ List.replicate depth' .closing =
          written ++ Lexeme.pairUp depth (tokens.map (·.lexeme)) := by
  induction tokens generalizing editor kids list depth written with
  | nil => exact ⟨editor, depth, kids, list, written, rfl, typed, rfl⟩
  | cons token rest ih =>
      obtain ⟨lexeme, place⟩ := token
      -- The step of the token, and what it writes.
      have go {editor' : Editor} {depth' : Nat} {kids' : Contents} {list' : NodeId}
          (step : insertToken classify (editor, depth) ⟨lexeme, place⟩ = (editor', depth'))
          {more : List Lexeme} (typed' : editor'.Typed kids' list' depth' (written ++ more))
          (pairs : Lexeme.pairUp depth (lexeme :: rest.map (·.lexeme)) =
            more ++ Lexeme.pairUp depth' (rest.map (·.lexeme))) :
          ∃ editor' depth' kids' list' written',
            rest.foldl (insertToken classify)
                (insertToken classify (editor, depth) ⟨lexeme, place⟩) = (editor', depth') ∧
              editor'.Typed kids' list' depth' written' ∧
              written' ++ List.replicate depth' .closing =
                written ++ Lexeme.pairUp depth (lexeme :: rest.map (·.lexeme)) := by
        rw [step, pairs, ← List.append_assoc]
        exact ih typed'
      cases lexeme with
      | opening =>
          obtain ⟨kids', typed'⟩ := typed.insertList
          exact go rfl typed' rfl
      | closing =>
          cases depth with
          | zero =>
              have same : editor.Typed kids list 0 (written ++ []) := by rwa [List.append_nil]
              exact go rfl same rfl
          | succ depth =>
              obtain ⟨outer, -, typed'⟩ := typed.closeList
              exact go rfl typed' rfl
      | string text =>
          obtain ⟨kids', typed'⟩ := typed.insertWord classify (.string text)
          exact go rfl typed' (by rw [Lexeme.pairUp]; rfl)
      | word text =>
          obtain ⟨kids', typed'⟩ := typed.insertWord classify (.word text)
          exact go rfl typed' (by rw [Lexeme.pairUp]; rfl)

/-- Lists that are left open are closed. -/
theorem closeOpen (typed : editor.Typed kids list depth written) :
    (Editor.closeOpen depth editor).Typed kids root 0
      (written ++ List.replicate depth .closing) := by
  induction depth generalizing editor list written with
  | zero =>
      obtain ⟨arranged, ends, before, inside, items, spine, parts⟩ := typed
      rw [List.replicate_zero, List.append_nil]
      cases spine
      exact ⟨arranged, ends, [], inside, items, .root, parts⟩
  | succ depth ih =>
      obtain ⟨outer, moved, typed'⟩ := typed.closeList
      rw [Editor.closeOpen]
      generalize editor.closeList = closed at moved typed'
      obtain ⟨_, editor'⟩ := closed
      obtain rfl := moved
      have all := ih typed'
      rwa [List.append_assoc, List.singleton_append, ← List.replicate_succ] at all

/-- A source text puts its lexemes in, with their brackets in pairs. -/
theorem insertSource (typed : editor.Typed kids root 0 written) (classify : Classifier)
    (source : String) :
    ∃ kids', (editor.insertSource classify source).Typed kids' root 0
      (written ++ Lexeme.pairUp 0 ((Token.ofSource "<insert>" source).1.map (·.lexeme))) := by
  obtain ⟨editor', depth, kids', list, written', inserted, typed', same⟩ :=
    typed.insertTokens classify (Token.ofSource "<insert>" source).1
  have closed : editor.insertSource classify source = Editor.closeOpen depth editor' := by
    show Editor.closeOpen
      ((Token.ofSource "<insert>" source).1.foldl (insertToken classify) (editor, 0)).2
      ((Token.ofSource "<insert>" source).1.foldl (insertToken classify) (editor, 0)).1 = _
    rw [inserted]
  refine ⟨kids', ?_⟩
  rw [← same, closed]
  exact typed'.closeOpen

/-! ## What is written -/

/-- The outline of the program is that of the lexemes. -/
theorem outline (typed : editor.Typed kids root 0 written) :
    editor.document.Outlined kids (kids root) editor.document.outline ∧
      Outline.spellAll editor.document.outline = Lexeme.spell written := by
  obtain ⟨arranged, -, before, inside, items, spine, shown, spelled, rfl⟩ := typed
  cases spine
  rw [arranged.outline_outlined.unique shown]
  exact ⟨shown, spelled⟩

/-- The text of the program is the text of the lexemes. -/
theorem source (typed : editor.Typed kids root 0 written) :
    editor.source = Lexeme.spell written := by
  rw [source_eq, typed.outline.2]

/-- The cursor is behind all of the program. -/
theorem sourceToCursor (typed : editor.Typed kids root 0 written) :
    editor.sourceToCursor = Lexeme.spell written := by
  obtain ⟨shown, spelled⟩ := typed.outline
  have split : kids root = [] ++ kids root ++ [] := by simp
  have all := typed.arranged.writeAll_to_last split shown typed.ends "" []
  rw [List.append_nil, String.empty_append] at all
  rw [sourceToCursor_eq_writeAll, all, spelled]

/-- Where nothing was written, a source text is printed tidied up, and so is the text up to the
cursor. -/
theorem source_insertSource (typed : editor.Typed kids root 0 []) (classify : Classifier)
    (text : String) :
    (editor.insertSource classify text).source = Token.tidy text ∧
      (editor.insertSource classify text).sourceToCursor = Token.tidy text := by
  obtain ⟨kids', typed'⟩ := typed.insertSource classify text
  rw [typed'.source, typed'.sourceToCursor, Token.map_lexeme_ofSource _ "", List.nil_append]
  exact ⟨rfl, rfl⟩

end Typed

end Editor

end LiveStack
