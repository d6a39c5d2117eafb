import LiveStack.Proofs.Code.Pairing
import LiveStack.Proofs.Editor.Refinement

/-!
# Pasting a source text

A source text is put in token by token, and the cursor goes into each list that the text opens and
out of it again. Once its brackets are in pairs, a text is words and lists, and putting in a list is
putting in what is in it in between (`Tree.Written`). So it is shown for words and lists that they
go in behind the cursor and that all else is left alone (`Pastes`), and that this is so of one text
behind another, and of a text in a list.
-/

namespace LiveStack

open Relation

/-! ## Texts of trees -/

namespace Tree

variable {classify : String → TokenClass} {items trees : List Tree}
  {inner lexemes front : List Lexeme} {depth : Nat}

/-- The lexemes of trees: words and strings with the class that they are given, and lists between
brackets. -/
inductive Written (classify : String → TokenClass) : List Tree → List Lexeme → Prop
  | nil : Written classify [] []
  | word (text : String) {trees : List Tree} {lexemes : List Lexeme}
      (more : Written classify trees lexemes) :
      Written classify (.word (classify text) text :: trees) (.word text :: lexemes)
  | string (text : String) {trees : List Tree} {lexemes : List Lexeme}
      (more : Written classify trees lexemes) :
      Written classify (.word (classify text) text :: trees) (.string text :: lexemes)
  | list {items trees : List Tree} {inner lexemes : List Lexeme}
      (inside : Written classify items inner) (more : Written classify trees lexemes) :
      Written classify (.list items :: trees) (.opening :: (inner ++ .closing :: lexemes))

/-- Lexemes of trees that close so many lists, and go on behind each. -/
inductive Closing (classify : String → TokenClass) : (depth : Nat) → List Lexeme → Prop
  | last {trees : List Tree} {lexemes : List Lexeme} (written : Written classify trees lexemes) :
      Closing classify 0 lexemes
  | close {items : List Tree} {inner lexemes : List Lexeme} {depth : Nat}
      (inside : Written classify items inner) (more : Closing classify depth lexemes) :
      Closing classify (depth + 1) (inner ++ .closing :: lexemes)

theorem Written.append {trees' : List Tree} {lexemes' : List Lexeme}
    (written : Written classify trees lexemes) (written' : Written classify trees' lexemes') :
    Written classify (trees ++ trees') (lexemes ++ lexemes') := by
  induction written with
  | nil => exact written'
  | word text _ ih => exact .word text ih
  | string text _ ih => exact .string text ih
  | list inside _ _ ih =>
      rw [List.cons_append, List.cons_append, List.append_assoc, List.cons_append]
      exact .list inside ih

theorem Closing.behind (closing : Closing classify depth lexemes)
    (written : Written classify trees front) : Closing classify depth (front ++ lexemes) := by
  cases closing with
  | last written' => exact .last (written.append written')
  | close inside more =>
      rw [← List.append_assoc]
      exact .close (written.append inside) more

/-- Once the brackets of a text are in pairs, it is a text of trees. -/
theorem closing_pairUp (depth : Nat) (lexemes : List Lexeme) :
    Closing classify depth (Lexeme.pairUp depth lexemes) := by
  fun_induction Lexeme.pairUp depth lexemes with
  | case1 depth =>
      induction depth with
      | zero => exact .last .nil
      | succ depth ih => exact .close .nil ih
  | case2 depth rest ih =>
      -- the first list that is closed is the one that was just opened
      generalize Lexeme.pairUp (depth + 1) rest = lexemes at ih
      cases ih with
      | @close items inner lexemes _ inside more =>
          have list : Written classify [.list items] (.opening :: (inner ++ [.closing])) :=
            .list inside .nil
          have behind := more.behind list
          rwa [List.cons_append, List.append_assoc] at behind
  | case3 rest ih => exact ih
  | case4 depth rest ih => exact .close .nil ih
  | case5 depth text rest ih => exact ih.behind (.string text .nil)
  | case6 depth text rest ih => exact ih.behind (.word text .nil)

theorem exists_written (classify : String → TokenClass) (lexemes : List Lexeme) :
    ∃ trees, Written classify trees (Lexeme.pairUp 0 lexemes) := by
  have closing : Closing classify 0 (Lexeme.pairUp 0 lexemes) := closing_pairUp 0 lexemes
  generalize Lexeme.pairUp 0 lexemes = lexemes at closing
  cases closing with
  | last written => exact ⟨_, written⟩

end Tree

namespace Editor

variable {editor middle edited : Editor} {kids between kids' : Contents}
  {list : NodeId} {front inserted inserted' back : List NodeId} {trees trees' : List Tree}
  {classify : Classifier} {lexemes : List Lexeme}

/-! ## One text behind another, and in a list -/

/-- Nodes were put behind `front` in a list, and all else was left alone. They are new, they show
the trees, and the cursor is on the last of them. -/
structure Pastes (editor edited : Editor) (kids kids' : Contents) (list : NodeId)
    (front inserted back : List NodeId) (trees : List Tree) : Prop where
  arranged : edited.document.Arranged kids' []
  contents : kids' list = front ++ inserted ++ back
  ends : (front ++ inserted).getLast? = some edited.cursor
  spares : editor.document.Spares edited.document kids kids' list []
  fresh : ∀ id ∈ inserted, ¬ editor.document.Live id
  shown : edited.document.Shown kids' inserted trees
  unmarked : (inserted = [] ∧ edited = editor) ∨ (inserted ≠ [] ∧ edited.hasSelection = false)

namespace Pastes

theorem nil (arranged : editor.document.Arranged kids []) (split : kids list = front ++ back)
    (ends : front.getLast? = some editor.cursor) :
    editor.Pastes editor kids kids list front [] back [] := by
  refine ⟨arranged, ?_, ?_, fun id _ _ _ => ⟨rfl, rfl⟩, List.forall_mem_nil _, .nil,
    .inl ⟨rfl, rfl⟩⟩
  · rw [split, List.append_nil]
  · rw [List.append_nil, ends]

theorem isList (pastes : editor.Pastes edited kids kids' list front inserted back trees) :
    edited.document.isList list = true := by
  have mem : edited.cursor ∈ kids' list := by
    rw [pastes.contents]
    exact List.mem_append_left _ (List.mem_of_mem_getLast? pastes.ends)
  exact pastes.arranged.isList_of_mem mem

/-- Nothing goes. -/
theorem live (pastes : editor.Pastes edited kids kids' list front inserted back trees) {id : NodeId}
    (live : editor.document.Live id) : edited.document.Live id := by
  rcases eq_or_ne id list with rfl | differs
  · exact Document.live_of_isList pastes.isList
  · exact pastes.spares.live live differs (List.forall_mem_nil _)

theorem trans (first : editor.Pastes middle kids between list front inserted back trees)
    (second : middle.Pastes edited between kids' list (front ++ inserted) inserted' back trees') :
    editor.Pastes edited kids kids' list front (inserted ++ inserted') back (trees ++ trees') := by
  constructor
  case arranged => exact second.arranged
  case contents => rw [second.contents, List.append_assoc front]
  case ends => rw [← List.append_assoc, second.ends]
  case spares =>
    exact first.spares.trans second.spares fun _ _ differs => ⟨differs, List.forall_mem_nil _⟩
  case fresh =>
    intro id mem live
    rcases List.mem_append.1 mem with mem | mem
    · exact first.fresh id mem live
    · exact second.fresh id mem (first.live live)
  case shown =>
    refine .append ?_ second.shown
    refine second.spares.shown_of_nil first.arranged (fun id mem => ?_) first.shown
    rw [first.contents]
    simp [mem]
  case unmarked =>
    rcases second.unmarked with ⟨rfl, rfl⟩ | ⟨nonempty, unmarked⟩
    · rw [List.append_nil]
      exact first.unmarked
    · exact .inr ⟨List.append_ne_nil_of_right_ne_nil _ nonempty, unmarked⟩

/-- What goes into a new list is in that list, and the cursor goes out of it onto the list. -/
theorem enclose {opened made : Editor} {fresh head : NodeId}
    (outside : editor.Pastes made kids between list front [fresh] back [.list []])
    (inside : opened.Pastes edited between kids' fresh [head] inserted [] trees)
    (same : opened.document = made.document) :
    edited.closeList = (true, { edited.selectNone with cursor := fresh }) ∧
      editor.Pastes { edited.selectNone with cursor := fresh } kids kids' list front [fresh] back
        [.list trees] := by
  have held : fresh ∈ between list := by simp [outside.contents]
  have differs := outside.arranged.ne_of_mem held
  -- the list around the new one is left alone by what goes into that
  have live : opened.document.Live list := by
    rw [same]
    exact Document.live_of_isList outside.isList
  have around := (inside.spares list live differs.symm (List.forall_mem_nil _)).2
  have within : kids' fresh = head :: inserted := by simp [inside.contents]
  have kind : edited.document.kind? head = some .head :=
    (inside.arranged.heads (show head ∈ kids' fresh by simp [within])).2 (by rw [within]; rfl)
  have ends : (kids' fresh).getLast? = some edited.cursor := by
    rw [within]
    exact inside.ends
  refine ⟨closeList_of_last inside.arranged ends (around ▸ held), ?_⟩
  constructor
  case arranged => exact inside.arranged
  case contents => exact around.trans outside.contents
  case ends => exact List.getLast?_concat ..
  case spares =>
    refine outside.spares.trans (same ▸ inside.spares) fun id live _ => ⟨?_, List.forall_mem_nil _⟩
    rintro rfl
    exact outside.fresh id (List.mem_singleton_self _) live
  case fresh => exact outside.fresh
  case shown =>
    refine .ofList inside.isList ?_
    rw [within]
    exact (Document.Shown.ofHead kind).append inside.shown
  case unmarked => exact .inr ⟨List.cons_ne_nil _ _, rfl⟩

end Pastes

/-! ## Lexeme by lexeme -/

section
variable (arranged : editor.document.Arranged kids []) (split : kids list = front ++ back)
  (ends : front.getLast? = some editor.cursor)
include arranged split ends

theorem exists_pastes_grown {document' : Document} {fresh : NodeId} {inner : List NodeId}
    {tree : Tree} (growth : editor.document.Grown document' fresh inner)
    (shown : ∀ kids', (document'.linkAfter editor.cursor fresh).Arranged kids' [] →
      kids' fresh = inner →
      (document'.linkAfter editor.cursor fresh).kind? fresh = document'.kind? fresh →
      (document'.linkAfter editor.cursor fresh).Shown kids' [fresh] [tree]) :
    ∃ kids', kids' fresh = inner ∧ editor.Pastes
      { document := document'.linkAfter editor.cursor fresh, cursor := fresh } kids kids' list front
      [fresh] back [tree] := by
  obtain ⟨kids', linked, contents, inside, kind, spares⟩ :=
    growth.exists_linked arranged split ends
  refine ⟨kids', inside, linked, contents, List.getLast?_concat .., spares, ?_,
    shown kids' linked inside kind, .inr ⟨List.cons_ne_nil _ _, rfl⟩⟩
  intro id mem
  rw [List.mem_singleton.1 mem]
  exact growth.unborn

theorem exists_pastes_insertWord (classify : Classifier) (text : String) :
    ∃ kids', editor.Pastes (editor.insertWord classify text) kids kids' list front
      [editor.document.slots.size] back [.word (classify text) text] := by
  obtain ⟨kids', -, pastes⟩ := exists_pastes_grown arranged split ends
    (Document.grown_pushWord (classify text) text)
    fun _ _ _ kind => .ofWord (kind.trans (Document.kind?_push _))
  exact ⟨kids', pastes⟩

/-- The new list has its head in it, and the cursor is on that. -/
theorem exists_pastes_insertList : ∃ made kids', editor.Pastes made kids kids' list front
    [editor.document.slots.size] back [.list []] ∧
      editor.insertList.2.document = made.document ∧
      kids' editor.document.slots.size = [editor.insertList.2.cursor] := by
  obtain ⟨kids', inner, pastes⟩ := exists_pastes_grown arranged split ends
    Document.grown_pushList fun _ arranged inner _ => arranged.shown_empty inner
  have cursor := cursor_insertList pastes.arranged inner
  exact ⟨_, kids', pastes, rfl, cursor ▸ inner⟩

end

/-- Put in what a lexeme says, whatever its place in the text. -/
def insertLexeme (classify : Classifier) (state : Editor × Nat) (lexeme : Lexeme) : Editor × Nat :=
  insertToken classify state ⟨lexeme, .start ""⟩

/-- The lexemes of trees put in the trees, behind the cursor. -/
theorem exists_pastes (written : Tree.Written classify trees lexemes)
    (arranged : editor.document.Arranged kids []) (split : kids list = front ++ back)
    (ends : front.getLast? = some editor.cursor) (depth : Nat) :
    ∃ edited kids' inserted,
      lexemes.foldl (insertLexeme classify) (editor, depth) = (edited, depth) ∧
        editor.Pastes edited kids kids' list front inserted back trees := by
  induction written generalizing editor kids list front back depth with
  | nil => exact ⟨editor, kids, [], rfl, .nil arranged split ends⟩
  | word text _ ih | string text _ ih =>
      obtain ⟨between, first⟩ := exists_pastes_insertWord arranged split ends classify text
      obtain ⟨edited, kids', inserted, puts, second⟩ :=
        ih first.arranged first.contents first.ends depth
      exact ⟨edited, kids', _, puts, first.trans second⟩
  | list _ _ ih ih' =>
      -- What is in the brackets goes into the list they make, and what is behind them behind it.
      obtain ⟨made, between, outside, same, inner⟩ := exists_pastes_insertList arranged split ends
      obtain ⟨filled, kids₁, items, fills, inside⟩ := ih (same ▸ outside.arranged)
        (inner.trans (List.append_nil _).symm) rfl (depth + 1)
      obtain ⟨closes, first⟩ := outside.enclose inside same
      obtain ⟨edited, kids', inserted, puts, second⟩ :=
        ih' first.arranged first.contents first.ends depth
      refine ⟨edited, kids', _, ?_, first.trans second⟩
      have opens : insertLexeme classify (editor, depth) .opening =
          (editor.insertList.2, depth + 1) := rfl
      have steps : insertLexeme classify (filled, depth + 1) .closing =
          (filled.closeList.2, depth) := rfl
      rw [List.foldl_cons, opens, List.foldl_append, fills, List.foldl_cons, steps, closes, puts]

/-! ## Token by token -/

/-- Where a list can't be closed, closing it once more changes nothing. -/
theorem closeList_of_false (stays : editor.closeList = (false, edited)) :
    edited.closeList = (false, edited) := by
  cases next : editor.document.next? editor.cursor with
  | some next' => simp [closeList, moveNext, beginMove, goTo, selectNone, next] at stays
  | none =>
      cases outer : editor.document.enclosing? editor.cursor with
      | some list => simp [closeList, moveNext, beginMove, goTo, selectNone, next, outer] at stays
      | none =>
          have closed : editor.closeList = (false, editor.selectNone) := by
            simp [closeList, moveNext, beginMove, selectNone, next, outer]
          obtain rfl := (Prod.mk.inj (closed.symm.trans stays)).2
          simp [closeList, moveNext, beginMove, selectNone, next, outer]

/-- Closing what is left open is putting in the closing brackets that are missing. -/
theorem closeOpen_eq (classify : Classifier) (depth : Nat) (editor : Editor) :
    closeOpen depth editor =
      ((List.replicate depth .closing).foldl (insertLexeme classify) (editor, depth)).1 := by
  induction depth generalizing editor with
  | zero => rfl
  | succ depth ih =>
      have steps : insertLexeme classify (editor, depth + 1) .closing =
          (editor.closeList.2, depth) := rfl
      rw [closeOpen, List.replicate_succ, List.foldl_cons, steps, ← ih]
      generalize closed : editor.closeList = result
      obtain ⟨moved, edited⟩ := result
      cases moved with
      | true => rfl
      | false =>
          cases depth with
          | zero => rfl
          | succ depth =>
              show edited = closeOpen (depth + 1) edited
              rw [closeOpen, closeList_of_false closed]

/-- Tokens do what their lexemes do with the brackets in pairs. -/
theorem closeOpen_insertTokens (classify : Classifier) (tokens : List Token) (editor : Editor)
    (depth : Nat) :
    closeOpen (tokens.foldl (insertToken classify) (editor, depth)).2
        (tokens.foldl (insertToken classify) (editor, depth)).1 =
      ((Lexeme.pairUp depth (tokens.map (·.lexeme))).foldl (insertLexeme classify)
        (editor, depth)).1 := by
  induction tokens generalizing editor depth with
  | nil => exact closeOpen_eq classify depth editor
  | cons token rest ih =>
      obtain ⟨lexeme, place⟩ := token
      cases lexeme with
      | opening => exact ih editor.insertList.2 (depth + 1)
      | closing =>
          cases depth with
          | zero => exact ih editor 0
          | succ depth => exact ih editor.closeList.2 depth
      | string text | word text =>
          rw [List.map_cons, Lexeme.pairUp]
          exact ih (editor.insertWord classify text) depth

theorem insertSource_eq (editor : Editor) (classify : Classifier) (source : String) :
    editor.insertSource classify source =
      ((Lexeme.pairUp 0 ((Token.ofSource "<insert>" source).1.map (·.lexeme))).foldl
        (insertLexeme classify) (editor, 0)).1 :=
  closeOpen_insertTokens classify (Token.ofSource "<insert>" source).1 editor 0

end Editor

/-! ## What the numbers of the nodes say -/

namespace Document

variable {document : Document} {kids : Contents} {loose : List NodeId} {list : NodeId}

/-- The nodes of a list, its head first. -/
def nodes (document : Document) (list : NodeId) : List NodeId :=
  match document.first? list with
  | some first => document.siblingsFrom first
  | none => []

theorem Arranged.nodes_eq (arranged : document.Arranged kids loose) (list : NodeId) :
    document.nodes list = kids list := by
  rw [nodes]
  cases known : document.first? list with
  | none => exact (arranged.holds_nothing known).symm
  | some first => exact arranged.siblingsFrom_first known

/-- The nodes `inserted` were put into a list behind `front`, and all else was left alone. -/
structure Pasted (document pasted : Document) (list : NodeId)
    (front inserted back : List NodeId) : Prop where
  before : document.nodes list = front ++ back
  after : pasted.nodes list = front ++ inserted ++ back
  fresh : ∀ id ∈ inserted, id ∉ document.live
  /-- No node goes, and each is in the list that it was in. -/
  kept : ∀ id ∈ document.live, id ∈ pasted.live ∧ pasted.parent? id = document.parent? id
  /-- Words stay as they are, and so do the other lists with the nodes in them. -/
  others : ∀ id ∈ document.live, id ≠ list →
    pasted.kind? id = document.kind? id ∧ pasted.nodes id = document.nodes id
  /-- Nodes elsewhere have the links that they had. -/
  elsewhere : ∀ id ∈ document.live, id ≠ list → id ∉ document.nodes list →
    pasted.get? id = document.get? id

end Document

namespace Editor

open Document (root)

variable {editor edited : Editor} {kids kids' : Contents} {list : NodeId}
  {front inserted back : List NodeId} {trees : List Tree}

namespace Pastes

variable (pastes : editor.Pastes edited kids kids' list front inserted back trees)
  (arranged : editor.document.Arranged kids []) (split : kids list = front ++ back)

include pastes arranged split

/-- A node of a list is in that list still. -/
theorem mem_of_mem {outer id : NodeId} (mem : id ∈ kids outer) : id ∈ kids' outer := by
  rcases eq_or_ne outer list with rfl | differs
  · rw [split, List.mem_append] at mem
    rw [pastes.contents]
    rcases mem with mem | mem <;> simp [mem]
  · have live := Document.live_of_isList (arranged.isList_of_mem mem)
    rwa [(pastes.spares outer live differs (List.forall_mem_nil _)).2]

theorem parent?_eq {id : NodeId} (live : editor.document.Live id) :
    edited.document.parent? id = editor.document.parent? id := by
  rcases eq_or_ne id root with rfl | differs
  · rw [Document.parent?_eq, Document.parent?_eq, pastes.arranged.unlinked, arranged.unlinked]
  · obtain ⟨outer, mem⟩ := arranged.exists_list live differs
    rw [arranged.parent? mem, pastes.arranged.parent? (pastes.mem_of_mem arranged split mem)]

theorem get?_eq {id : NodeId} (live : editor.document.Live id) (differs : id ≠ list)
    (out : id ∉ kids list) : edited.document.get? id = editor.document.get? id := by
  obtain ⟨kind, -⟩ := pastes.spares id live differs (List.forall_mem_nil _)
  refine Document.get?_eq_of_links? ?_ kind
  rcases eq_or_ne id root with rfl | notRoot
  · rw [pastes.arranged.unlinked, arranged.unlinked]
  · obtain ⟨outer, mem⟩ := arranged.exists_list live notRoot
    have elsewhere : outer ≠ list := by
      rintro rfl
      exact out mem
    have live' := Document.live_of_isList (arranged.isList_of_mem mem)
    obtain ⟨-, contents⟩ := pastes.spares outer live' elsewhere (List.forall_mem_nil _)
    obtain ⟨before, behind, split'⟩ := List.append_of_mem mem
    rw [arranged.links? split', pastes.arranged.links? (contents.trans split')]

theorem pasted : editor.document.Pasted edited.document list front inserted back := by
  constructor
  case before => rw [arranged.nodes_eq, split]
  case after => rw [pastes.arranged.nodes_eq, pastes.contents]
  case fresh =>
    intro id mem
    rw [Document.mem_live]
    exact pastes.fresh id mem
  case kept =>
    intro id live
    rw [Document.mem_live] at live ⊢
    exact ⟨pastes.live live, pastes.parent?_eq arranged split live⟩
  case others =>
    intro id live differs
    rw [pastes.arranged.nodes_eq, arranged.nodes_eq]
    exact pastes.spares id (Document.mem_live.1 live) differs (List.forall_mem_nil _)
  case elsewhere =>
    intro id live differs out
    rw [arranged.nodes_eq] at out
    exact pastes.get?_eq arranged split (Document.mem_live.1 live) differs out

end Pastes

/-- Whatever was done in an editor, a source text goes in right behind the cursor: new nodes, which
show the words and lists of the text once its brackets are in pairs, and no others. No node goes,
and each is where it was, holds what it held, and has the ones around it that it had, but for those
that the text went between. The cursor is on the last of the new nodes. If there are any, nothing is
selected any more, and else the editor is as it was. -/
theorem pasting_is_local (steps : List Step) (classify : Classifier) (text : String) :
    let editor := steps.foldl Step.perform Editor.new
    let edited := editor.insertSource classify text
    let lexemes := (Token.ofSource "<insert>" text).1.map (·.lexeme)
    ∃ list front inserted back,
      editor.document.Pasted edited.document list front inserted back ∧
      front.getLast? = some editor.cursor ∧
      Tree.Written classify (inserted.flatMap edited.document.shows) (Lexeme.pairUp 0 lexemes) ∧
      edited.cursor = inserted.getLast?.getD editor.cursor ∧
      ((inserted = [] ∧ edited = editor) ∨ (inserted ≠ [] ∧ edited.hasSelection = false)) := by
  intro editor edited lexemes
  obtain ⟨kids, sound⟩ : ∃ kids, editor.Sound kids := sound_of_steps steps
  obtain ⟨list, front, back, split, ends⟩ := sound.exists_parts
  obtain ⟨trees, written⟩ := Tree.exists_written classify lexemes
  obtain ⟨last, kids', inserted, puts, pastes⟩ :=
    exists_pastes written sound.arranged split ends 0
  obtain rfl : edited = last := by
    show editor.insertSource classify text = last
    rw [insertSource_eq, puts]
  have inside : ∀ id ∈ inserted, id ∈ kids' list := fun id mem => by simp [pastes.contents, mem]
  have shown := pastes.shown.flatMap_shows pastes.arranged inside
  have cursor := pastes.ends
  rw [List.getLast?_append, ends] at cursor
  refine ⟨list, front, inserted, back, pastes.pasted sound.arranged split, ends, ?_, ?_,
    pastes.unmarked⟩
  · rw [shown]
    exact written
  · cases last : inserted.getLast? <;> rw [last] at cursor <;> exact (Option.some.inj cursor).symm

/-- With a word selected, pasting a text with no word or list in it leaves the word selected. -/
theorem pasting_nothing_keeps_the_selection :
    let typed := [Step.edit (.insertWord "one") fun _ => .unknown,
      .edit .selectAll fun _ => .unknown]
    let editor := typed.foldl Step.perform Editor.new
    (editor.insertSource (fun _ => .unknown) " ] ").hasSelection = true := by
  decide +kernel

end Editor

end LiveStack
