import LiveStack.Proofs.Document.Trees
import LiveStack.Proofs.Editor.Selections

/-!
# Edits of a tree

An editor without the numbers of its nodes is a place in an ordered tree, and every edit is one of
such a place. Where the selection is empty, that is shown here: what is inserted, removed or put in
the place of a list is just that, and all else stays as it is and where it is.
-/

namespace LiveStack

open Relation

open Document (root Parted)

/-! ## Edits of a place -/

namespace Spot

/-- Put a word right before the place. -/
def insertWord (spot : Spot) (reading : TokenClass) (text : String) : Spot :=
  { spot with before := .word reading text :: spot.before }

/-- Put an empty list right before the place, and go into it. -/
def insertList (spot : Spot) : Spot := ⟨[], [], ⟨spot.before, spot.after⟩ :: spot.around⟩

/-- Remove what is right before the place, or the list around it if nothing is and the edit steps
out. An edit that steps in goes to the end of a list instead. -/
def deletePrev (stepIn stepOut : Bool) : Spot → Bool × Spot
  | ⟨.list items :: before, after, around⟩ =>
      -- the list is gone into, and its end has nothing behind it to remove
      if stepIn then (true, ⟨items.reverse, [], ⟨before, after⟩ :: around⟩)
      else (true, ⟨before, after, around⟩)
  | ⟨.word _ _ :: before, after, around⟩ => (true, ⟨before, after, around⟩)
  | ⟨[], after, level :: around⟩ =>
      if stepOut then (true, ⟨level.before, level.after, around⟩)
      else (false, ⟨[], after, level :: around⟩)
  | ⟨[], after, []⟩ => (false, ⟨[], after, []⟩)

/-- Remove what is right behind the place. -/
def deleteNext : Spot → Bool × Spot
  | ⟨before, _ :: after, around⟩ => (true, ⟨before, after, around⟩)
  | ⟨before, [], around⟩ => (false, ⟨before, [], around⟩)

/-- Put the items of the list right before the place where that list is. -/
def unquote : Spot → Bool × Spot
  | ⟨.list items :: before, after, around⟩ => (true, ⟨items.reverse ++ before, after, around⟩)
  | spot => (false, spot)

/-- The run is right before the place, or right behind it; `rest` is the place once it is gone. -/
inductive Selects (run : List Tree) : Spot → Spot → Prop
  | before {before after : List Tree} {around : List Level} :
      Selects run ⟨run.reverse ++ before, after, around⟩ ⟨before, after, around⟩
  | after {before after : List Tree} {around : List Level} :
      Selects run ⟨before, run ++ after, around⟩ ⟨before, after, around⟩

/-- Put a list of the items right before the place. -/
def insertQuoted (spot : Spot) (items : List Tree) : Spot :=
  { spot with before := .list items :: spot.before }

end Spot

namespace Editor

/-- The place of the cursor in the tree. -/
def spot? (editor : Editor) : Option Spot :=
  Outline.spotFrom? editor.cursor [] [] editor.document.outline

/-- The document shows the tree around the place, and the cursor is there. -/
structure At (editor : Editor) (spot : Spot) : Prop where
  place : editor.spot? = some spot
  program : spot.program = Outline.forest editor.document.outline

/-- An edit says the same as one of the tree, and ends where that ends. -/
def Does (edited : Bool × Editor) (meant : Bool × Spot) : Prop :=
  edited.1 = meant.1 ∧ edited.2.At meant.2

/-- The cursor is on the last of the nodes `front` of a list, in the place `spot`. -/
structure Stands (editor : Editor) (kids : Contents) (list : NodeId) (front back : List NodeId)
    (spot : Spot) : Prop where
  arranged : editor.document.Arranged kids []
  framed : editor.document.Framed kids list spot.around
  split : kids list = front ++ back
  ends : front.getLast? = some editor.cursor
  before : editor.document.Shown kids front spot.before.reverse
  after : editor.document.Shown kids back spot.after

variable {editor : Editor} {kids : Contents} {list : NodeId} {front run back : List NodeId}
  {spot : Spot}

/-! ## Moves that an edit begins with -/

theorem movePrev_of_last {stepOut : Bool} {last : NodeId}
    (known : editor.document.last? editor.cursor = some last) :
    editor.movePrev { stepIn := true, stepOut } =
      (true, { editor.selectNone with cursor := last }) := by
  simp [movePrev, beginMove, goTo, selectNone, known]

theorem movePrev_of_prev {stepIn stepOut : Bool} {prev : NodeId}
    (noList : stepIn = true → editor.document.last? editor.cursor = none)
    (before : editor.document.prev? editor.cursor = some prev) :
    editor.movePrev { stepIn, stepOut } =
      (true, { editor.selectNone with cursor := prev }) := by
  cases stepIn with
  | false => simp [movePrev, beginMove, goTo, selectNone, before]
  | true => simp [movePrev, beginMove, goTo, selectNone, before, noList]

section
variable {stepIn : Bool} (kind : editor.document.kind? editor.cursor = some .head)
  (first : editor.document.prev? editor.cursor = none)
include kind first

theorem movePrev_of_outer {prev : NodeId}
    (outer : (editor.document.enclosing? editor.cursor).bind editor.document.prev? = some prev) :
    editor.movePrev { stepIn, stepOut := true } =
      (true, { editor.selectNone with cursor := prev }) := by
  have noList : editor.document.last? editor.cursor = none := by rw [Document.last?, kind]
  cases stepIn <;> simp [movePrev, beginMove, goTo, selectNone, first, noList, outer]

/-- In front of a list a move back can only step out. -/
theorem movePrev_of_front {stepOut : Bool}
    (outer : stepOut = true → editor.document.enclosing? editor.cursor = none) :
    editor.movePrev { stepIn, stepOut } = (false, editor.selectNone) := by
  have noList : editor.document.last? editor.cursor = none := by rw [Document.last?, kind]
  cases stepOut with
  | false => cases stepIn <;> simp [movePrev, beginMove, selectNone, first, noList]
  | true => cases stepIn <;> simp [movePrev, beginMove, selectNone, first, noList, outer]

end

theorem moveNext_of_next {next : NodeId}
    (known : editor.document.next? editor.cursor = some next) :
    editor.moveNext { } = (true, { editor.selectNone with cursor := next }) := by
  simp [moveNext, beginMove, goTo, selectNone, known]

/-- At the end of a list there is nothing to go over. -/
theorem moveNext_of_none (none : editor.document.next? editor.cursor = none) :
    editor.moveNext { } = (false, editor.selectNone) := by
  simp [moveNext, beginMove, selectNone, none]

theorem cursor_removeNext : editor.removeNext.cursor = editor.cursor := by
  unfold removeNext
  split
  · rfl
  · split <;> rfl

/-! ## What a change leaves around the place -/

/-- Where `fresh` stands in a list in the place of what is gone, and all else was left alone, the
tree has what `fresh` shows before the place, and is otherwise the same. -/
theorem stands_of_spares {document' : Document} {kids' : Contents} {cursor : NodeId}
    {gone fresh : List NodeId} {inside before after : List Tree} {around : List Level}
    (arranged : editor.document.Arranged kids [])
    (framed : editor.document.Framed kids list around)
    (shown : editor.document.Shown kids front before.reverse)
    (shown' : editor.document.Shown kids back after) (held : ∀ id ∈ gone, id ∈ kids list)
    (beside : (∀ id ∈ front, id ∈ kids list ∧ id ∉ gone) ∧
      ∀ id ∈ back, id ∈ kids list ∧ id ∉ gone)
    (spares : editor.document.Spares document' kids kids' list gone)
    (arranged' : document'.Arranged kids' []) (contents : kids' list = front ++ fresh ++ back)
    (ends : (front ++ fresh).getLast? = some cursor)
    (new : document'.Shown kids' fresh inside) :
    Stands { document := document', cursor } kids' list (front ++ fresh) back
      ⟨inside.reverse ++ before, after, around⟩ := by
  have mem : cursor ∈ kids' list := by
    rw [contents]
    exact List.mem_append_left _ (List.mem_of_mem_getLast? ends)
  have framed' := spares.framed arranged held (arranged'.isList_of_mem mem) framed
  refine ⟨arranged', framed', contents, ends, ?_, spares.shown arranged held beside.2 shown'⟩
  rw [List.reverse_append, List.reverse_reverse]
  exact (spares.shown arranged held beside.1 shown).append new

/-- Once a run was taken out of a list and removed, the cursor is on the node before it. -/
theorem stands_of_removed {freed : Document} {prev first last : NodeId} {before after : List Tree}
    {around : List Level} (arranged : editor.document.Arranged kids [])
    (framed : editor.document.Framed kids list around)
    (parted : Parted front run back prev first last) (split : kids list = front ++ run ++ back)
    (shown : editor.document.Shown kids front before.reverse)
    (shown' : editor.document.Shown kids back after)
    (removal : (editor.document.cutRun (some list) prev first last back.head?).Freed freed
      (kids.set list (front ++ back)) run) :
    ∃ kids', Stands { document := freed, cursor := prev } kids' list front back
      ⟨before, after, around⟩ := by
  obtain ⟨kids', arranged', contents, spares⟩ := arranged.exists_removed parted split removal
  have gone : ∀ id ∈ run, id ∈ kids list := fun id mem => by simp [split, mem]
  rw [← List.append_nil front] at contents
  have ends : (front ++ []).getLast? = some prev := by rw [List.append_nil, parted.before]
  have stands := stands_of_spares arranged framed shown shown' gone (parted.beside split) spares
    arranged' contents ends .nil
  rw [List.append_nil] at stands
  exact ⟨kids', stands⟩

namespace Stands

variable (stands : editor.Stands kids list front back spot)

include stands

/-- The numbers of the nodes are forgotten. -/
theorem isAt : editor.At spot := by
  obtain ⟨arranged, framed, split, ends, before, after⟩ := stands
  constructor
  case place =>
    rw [spot?, framed.spotFrom?_of_split arranged split ends before after, List.reverse_reverse]
  case program => exact framed.foldl_enclose arranged (split ▸ before.append after)

theorem cursor_mem : editor.cursor ∈ kids list := by
  rw [stands.split]
  exact List.mem_append_left _ (List.mem_of_mem_getLast? stands.ends)

/-- The selection makes no difference. -/
theorem congr {other : Editor} (document : other.document = editor.document)
    (cursor : other.cursor = editor.cursor) : other.Stands kids list front back spot := by
  obtain ⟨arranged, framed, split, ends, before, after⟩ := stands
  rw [← document] at arranged framed before after
  exact ⟨arranged, framed, split, cursor ▸ ends, before, after⟩

/-! ## What is right before the place -/

/-- Nothing is before the place: the cursor is on the head of the list. -/
theorem of_nil (none : spot.before = []) :
    front = [editor.cursor] ∧ editor.document.kind? editor.cursor = some .head := by
  obtain ⟨arranged, framed, split, ends, before, after⟩ := stands
  obtain ⟨init, rfl⟩ := List.getLast?_eq_some_iff.1 ends
  rw [none, List.reverse_nil] at before
  obtain ⟨first, second, same, -, here⟩ := before.exists_append
  obtain ⟨rfl, rfl⟩ := List.append_eq_nil_iff.1 same.symm
  have kind : editor.document.kind? editor.cursor = some .head := by
    rcases here.single with ⟨kind, -⟩ | ⟨_, _, -, other⟩ | ⟨_, -, -, other⟩
    · exact kind
    · cases other
    · cases other
  have atCursor : kids list = init ++ editor.cursor :: back := by simp [split]
  have isFirst : init = [] := by
    by_contra behind
    exact arranged.kind?_ne_head atCursor behind kind
  rw [isFirst]
  exact ⟨rfl, kind⟩

theorem front_of_nil (none : spot.before = []) :
    editor.document.kind? editor.cursor = some .head ∧
      editor.document.prev? editor.cursor = .none := by
  obtain ⟨rfl, kind⟩ := stands.of_nil none
  exact ⟨kind,
    stands.arranged.prev? (show kids list = [] ++ editor.cursor :: back from stands.split)⟩

/-- Something is before the place: it is what the cursor is on, and that has a node before it. -/
theorem of_cons {tree : Tree} {rest : List Tree} (some : spot.before = tree :: rest) :
    ∃ init prev, front = init ++ [editor.cursor] ∧ init.getLast? = Option.some prev ∧
      editor.document.Shown kids init rest.reverse ∧
      editor.document.Shown kids [editor.cursor] [tree] := by
  obtain ⟨arranged, framed, split, ends, before, after⟩ := stands
  obtain ⟨init, rfl⟩ := List.getLast?_eq_some_iff.1 ends
  rw [some, List.reverse_cons] at before
  have atCursor : kids list = init ++ editor.cursor :: back := by simp [split]
  obtain ⟨first, second, same, shown, here⟩ := before.exists_append
  have notHead : editor.document.kind? editor.cursor ≠ Option.some .head := by
    intro kind
    -- a head shows nothing, and nothing is before it
    have isFirst : init = [] := by
      by_contra behind
      exact arranged.kind?_ne_head atCursor behind kind
    rw [isFirst] at shown
    rw [here.eq_nil_of_head kind, shown.eq_nil] at same
    exact List.append_ne_nil_of_right_ne_nil _ (List.cons_ne_nil _ _) same
  obtain ⟨prev, last⟩ := arranged.exists_before atCursor notHead
  obtain ⟨other, rfl⟩ := here.exists_tree notHead
  obtain ⟨rfl, same'⟩ := List.append_inj' same rfl
  obtain rfl : tree = other := List.head_eq_of_cons_eq same'
  exact ⟨init, prev, rfl, last, shown, here⟩

theorem last?_of_word {reading : TokenClass} {text : String} {rest : List Tree}
    (word : spot.before = .word reading text :: rest) :
    editor.document.last? editor.cursor = none := by
  obtain ⟨_, _, -, -, -, here⟩ := stands.of_cons word
  rcases here.single with ⟨-, other⟩ | ⟨_, _, kind, -⟩ | ⟨_, -, -, other⟩
  · cases other
  · rw [Document.last?, kind]
  · cases other

/-- There is no way out of the top level. -/
theorem enclosing?_of_nil (none : spot.around = []) :
    editor.document.enclosing? editor.cursor = .none := by
  have mem := stands.cursor_mem
  have framed := stands.framed
  rw [none] at framed
  cases framed
  rw [Document.enclosing?, stands.arranged.parent? mem, Option.filter_some, if_neg (by simp)]

/-! ## What is right behind the place -/

theorem next?_eq : editor.document.next? editor.cursor = back.head? := by
  obtain ⟨init, same⟩ := List.getLast?_eq_some_iff.1 stands.ends
  exact stands.arranged.next? (show kids list = init ++ editor.cursor :: back by
    simp [stands.split, same])

/-- The next node is what is behind the place, since it is no head. -/
theorem of_next {passed : NodeId} {rest : List NodeId} (split : back = passed :: rest) :
    ∃ tree others, spot.after = tree :: others ∧
      editor.document.Shown kids [passed] [tree] ∧ editor.document.Shown kids rest others := by
  subst split
  have behind : front ≠ [] := by
    intro none
    rw [none] at stands
    cases stands.ends
  obtain ⟨first, others, same, here, shown⟩ := stands.after.cons
  obtain ⟨tree, rfl⟩ := here.exists_tree (stands.arranged.kind?_ne_head stands.split behind)
  exact ⟨tree, others, same, here, shown⟩

/-! ## Insertions -/

/-- A new node goes in right behind the cursor, and all else is left alone. -/
theorem grow {document' : Document} {fresh : NodeId} {inner : List NodeId} {tree : Tree}
    (growth : editor.document.Grown document' fresh inner)
    (shown : ∀ kids', (document'.linkAfter editor.cursor fresh).Arranged kids' [] →
      kids' fresh = inner →
      (document'.linkAfter editor.cursor fresh).kind? fresh = document'.kind? fresh →
      (document'.linkAfter editor.cursor fresh).Shown kids' [fresh] [tree]) :
    ∃ kids', kids' fresh = inner ∧
      Stands { document := document'.linkAfter editor.cursor fresh, cursor := fresh } kids' list
        (front ++ [fresh]) back { spot with before := tree :: spot.before } := by
  obtain ⟨arranged, framed, split, ends, before, after⟩ := stands
  obtain ⟨kids', linked, contents, inside, kind, spares⟩ :=
    growth.exists_linked arranged split ends
  exact ⟨kids', inside, stands_of_spares arranged framed before after (List.forall_mem_nil _)
    ⟨fun id mem => ⟨by simp [split, mem], List.not_mem_nil⟩,
      fun id mem => ⟨by simp [split, mem], List.not_mem_nil⟩⟩
    spares linked contents (List.getLast?_concat ..) (shown kids' linked inside kind)⟩

theorem insertWord (classify : Classifier) (text : String) :
    (editor.insertWord classify text).At (spot.insertWord (classify text) text) := by
  have growth := editor.document.grown_pushWord (classify text) text
  obtain ⟨kids', -, stands'⟩ :=
    stands.grow growth fun kids' _ _ kind => .ofWord (kind.trans (Document.kind?_push _))
  exact stands'.isAt

/-- The list that the cursor is on, and what is around it. -/
theorem within {items before after : List Tree} {around : List Level}
    (same : spot = ⟨.list items :: before, after, around⟩) :
    editor.document.Framed kids editor.cursor (⟨before, after⟩ :: around) ∧
      editor.document.isList editor.cursor = true ∧
      editor.document.Shown kids (kids editor.cursor) items := by
  obtain ⟨init, prev, rfl, -, shown, here⟩ :=
    stands.of_cons (show spot.before = .list items :: before by rw [same])
  have isList : editor.document.isList editor.cursor = true ∧
      editor.document.Shown kids (kids editor.cursor) items := by
    rcases here.single with ⟨-, other⟩ | ⟨_, _, -, other⟩ | ⟨inner, isList, inside, other⟩
    · cases other
    · cases other
    · cases other
      exact ⟨isList, inside⟩
  have framed := stands.framed
  have after := stands.after
  rw [same] at framed after
  refine ⟨framed.inside isList.1 ?_ shown after, isList⟩
  rw [stands.split, List.append_assoc]
  rfl

theorem insertList : editor.insertList.2.At spot.insertList := by
  obtain ⟨kids', inner, stands'⟩ :=
    stands.grow editor.document.grown_pushList fun _ arranged inner _ => arranged.shown_empty inner
  obtain ⟨framed, -, shown⟩ := stands'.within rfl
  have arranged := stands'.arranged
  have cursor : editor.insertList.2 = { document := _, cursor := editor.document.slots.size + 1 } :=
    congrArg (Editor.mk _ · none none) (cursor_insertList arranged inner)
  rw [cursor]
  exact isAt ⟨arranged, framed, inner, rfl, inner ▸ shown, .nil⟩

/-! ## Moves -/

/-- The cursor is on the node before, if there is one. -/
theorem goBack {tree : Tree} {before after : List Tree} {around : List Level}
    (same : spot = ⟨tree :: before, after, around⟩) :
    ∃ init prev, editor.document.prev? editor.cursor = some prev ∧
      Stands { editor.selectNone with cursor := prev } kids list init (editor.cursor :: back)
        ⟨before, tree :: after, around⟩ := by
  obtain ⟨init, prev, rfl, last, shown, here⟩ :=
    stands.of_cons (show spot.before = tree :: before by rw [same])
  obtain ⟨arranged, framed, split, ends, -, shown'⟩ := stands
  have atCursor : kids list = init ++ editor.cursor :: back := by simp [split]
  rw [same] at framed shown'
  exact ⟨init, prev, (arranged.prev? atCursor).trans last, arranged, framed, atCursor, last, shown,
    here.append shown'⟩

/-- The cursor is on the node behind, if there is one. -/
theorem goForth {passed : NodeId} {rest : List NodeId} (split : back = passed :: rest) :
    ∃ tree others, spot.after = tree :: others ∧
      Stands { editor.selectNone with cursor := passed } kids list (front ++ [passed]) rest
        ⟨tree :: spot.before, others, spot.around⟩ := by
  obtain ⟨tree, others, same, here, shown⟩ := stands.of_next split
  subst split
  refine ⟨tree, others, same, stands.arranged, stands.framed, ?_, by simp, ?_, shown⟩
  · rw [stands.split, List.append_assoc]
    rfl
  · rw [List.reverse_cons]
    exact stands.before.append here

/-- The cursor is at the end of the list that it was on. -/
theorem goIn {items before after : List Tree} {around : List Level}
    (same : spot = ⟨.list items :: before, after, around⟩) :
    ∃ last, editor.document.last? editor.cursor = some last ∧
      Stands { editor.selectNone with cursor := last } kids editor.cursor (kids editor.cursor) []
        ⟨items.reverse, [], ⟨before, after⟩ :: around⟩ := by
  obtain ⟨framed, isList, shown⟩ := stands.within same
  have arranged := stands.arranged
  obtain ⟨head, rest, split, -⟩ := arranged.exists_head isList
  have known := arranged.last?_of_isList isList
  obtain ⟨last, ends⟩ : ∃ last, (kids editor.cursor).getLast? = some last := by
    rw [split, List.getLast?_cons]
    exact ⟨_, rfl⟩
  refine ⟨last, known.trans ends, arranged, framed, (List.append_nil _).symm, ends, ?_, .nil⟩
  rw [List.reverse_reverse]
  exact shown

/-- The cursor is on the node before the list that it was in front of. -/
theorem goOut {after : List Tree} {level : Level} {around : List Level}
    (same : spot = ⟨[], after, level :: around⟩) :
    ∃ outer front' back' prev, (editor.document.enclosing? editor.cursor).bind
        editor.document.prev? = some prev ∧
      Stands { editor.selectNone with cursor := prev } kids outer front' (list :: back')
        ⟨level.before, .list after :: level.after, around⟩ := by
  obtain ⟨rfl, kind⟩ := stands.of_nil (show spot.before = [] by rw [same])
  have mem := stands.cursor_mem
  obtain ⟨arranged, framed, split, -, -, shown⟩ := stands
  rw [same] at framed shown
  cases framed with
  | @inside outer _ front' back' _ _ framed isList split' before behind =>
      -- the list is no head, so there is a node before it to go to
      have held : list ∈ kids outer := by simp [split']
      obtain ⟨_, _, kind'⟩ := Document.isList_iff.1 isList
      obtain ⟨prev, last⟩ := arranged.exists_before split' (by simp [kind'])
      have enclosing := arranged.enclosing?_of_mem mem held
      refine ⟨outer, front', back', prev, ?_, arranged, framed, split', last, before, ?_⟩
      · rw [enclosing, Option.bind_some, arranged.prev? split', last]
      · have inside : editor.document.Shown kids (kids list) after :=
          split ▸ (Document.Shown.ofHead kind).append shown
        exact (Document.Shown.ofList isList inside).append behind

/-! ## Deletions -/

/-- What is behind the cursor goes, with all that is in it, and all else is left alone. -/
theorem removeNext :
    ∃ kids', editor.removeNext.Stands kids' list front back.tail
      { spot with after := spot.after.tail } := by
  have next := stands.next?_eq
  cases back with
  | nil =>
      obtain ⟨arranged, framed, split, ends, before, after⟩ := stands
      have same : editor.removeNext = editor := by
        rw [Editor.removeNext, next]
        rfl
      rw [same]
      refine ⟨kids, arranged, framed, split, ends, before, ?_⟩
      rw [after.eq_nil]
      exact .nil
  | cons passed rest =>
      obtain ⟨tree, others, same, -, shown⟩ := stands.of_next rfl
      obtain ⟨arranged, framed, split, ends, before, -⟩ := stands
      -- the next node is cut out as a run of one
      have whole : kids list = front ++ [passed] ++ rest := by simp [split]
      have parted : Parted front [passed] rest editor.cursor passed passed :=
        ⟨whole ▸ arranged.nodup list, ends, rfl, rfl⟩
      have cut := (arranged.rearranged_cutRun parted whole).result arranged
      rw [List.append_nil] at cut
      obtain ⟨kids', stands'⟩ :=
        stands_of_removed arranged framed parted whole before shown cut.free_freed
      refine ⟨kids', ?_⟩
      rw [same, Editor.removeNext, next]
      simp only [List.head?_cons, arranged.unlinkRun_eq parted whole]
      exact stands'.congr rfl rfl

/-- An edit that moves first removes what is behind the cursor then. -/
theorem deletePrev_of_moved {start : Editor} {stepIn stepOut : Bool}
    (unmarked : start.hasSelection = false)
    (moves : start.movePrev { stepIn, stepOut } = (true, editor)) :
    Does (start.deletePrev stepIn stepOut) (true, { spot with after := spot.after.tail }) := by
  obtain ⟨kids', stands'⟩ := stands.removeNext
  simp only [Editor.deletePrev, unmarked, Bool.false_eq_true, if_false, moves]
  exact ⟨rfl, stands'.isAt⟩

theorem deletePrev (unmarked : editor.hasSelection = false) (stepIn stepOut : Bool) :
    Does (editor.deletePrev stepIn stepOut) (spot.deletePrev stepIn stepOut) := by
  -- a deletion is the move that begins it, and removing what is behind the cursor then
  have stays (moves : editor.movePrev { stepIn, stepOut } = (false, editor.selectNone)) :
      Does (editor.deletePrev stepIn stepOut) (false, spot) := by
    have same : editor.selectNone.Stands kids list front back spot := stands.congr rfl rfl
    simp only [Editor.deletePrev, unmarked, Bool.false_eq_true, if_false, moves]
    exact ⟨rfl, same.isAt⟩
  obtain ⟨before, after, around⟩ := spot
  cases before with
  | nil =>
      obtain ⟨kind, first⟩ := stands.front_of_nil rfl
      cases around with
      | nil => exact stays (movePrev_of_front kind first fun _ => stands.enclosing?_of_nil rfl)
      | cons level around =>
          cases stepOut with
          | false => exact stays (movePrev_of_front kind first Bool.noConfusion)
          | true =>
              obtain ⟨_, _, _, _, outer, stands'⟩ := stands.goOut rfl
              exact stands'.deletePrev_of_moved unmarked (movePrev_of_outer kind first outer)
  | cons tree before =>
      obtain ⟨init, prev, beside, stands'⟩ := stands.goBack rfl
      cases tree with
      | word reading text =>
          have noList := stands.last?_of_word rfl
          exact stands'.deletePrev_of_moved unmarked (movePrev_of_prev (fun _ => noList) beside)
      | list items =>
          cases stepIn with
          | false =>
              exact stands'.deletePrev_of_moved unmarked (movePrev_of_prev Bool.noConfusion beside)
          | true =>
              obtain ⟨last, known, stands''⟩ := stands.goIn rfl
              exact stands''.deletePrev_of_moved unmarked (movePrev_of_last known)

/-- Deleting forwards is to go over the next node and to delete back. -/
theorem deleteNext (unmarked : editor.hasSelection = false) :
    Does (editor.deleteNext false false) spot.deleteNext := by
  have next := stands.next?_eq
  simp only [Editor.deleteNext, unmarked, Bool.false_eq_true, if_false]
  cases back with
  | nil =>
      have same : editor.selectNone.Stands kids list front [] spot := stands.congr rfl rfl
      have none := stands.after.eq_nil
      obtain ⟨before, after, around⟩ := spot
      obtain rfl : after = [] := none
      rw [moveNext_of_none next]
      exact ⟨rfl, same.isAt⟩
  | cons passed rest =>
      obtain ⟨tree, others, same, stands'⟩ := stands.goForth rfl
      have deletes := stands'.deletePrev rfl false false
      obtain ⟨before, after, around⟩ := spot
      obtain rfl : after = tree :: others := same
      rw [moveNext_of_next next]
      cases tree <;> exact deletes

/-- Deleting forwards ends where it began: the cursor goes over the next node and back. -/
theorem cursor_deleteNext (unmarked : editor.hasSelection = false) :
    (editor.deleteNext false false).2.cursor = editor.cursor := by
  have next := stands.next?_eq
  simp only [Editor.deleteNext, unmarked, Bool.false_eq_true, if_false]
  cases back with
  | nil =>
      rw [moveNext_of_none next]
      rfl
  | cons passed rest =>
      have before : editor.document.prev? passed = some editor.cursor :=
        (stands.arranged.prev? stands.split).trans stands.ends
      rw [moveNext_of_next next]
      show (Editor.deletePrev { editor.selectNone with cursor := passed } false false).2.cursor = _
      rw [Editor.deletePrev, if_neg (by simp [hasSelection, selectNone]),
        movePrev_of_prev Bool.noConfusion before]
      exact cursor_removeNext

end Stands

end Editor

end LiveStack
