import LiveStack.Proofs.Editor.Refinement

/-!
# Edits that undo each other

What an edit puts in, another takes out again, and then every node is what it was and where it was.
That is not shown link by link. A document is known from what is in its lists, so it is enough that
the list that was edited holds the same again, and that all other nodes were left alone.
-/

namespace LiveStack

open Relation

open Document (Parted)

namespace Document

variable {document document' : Document} {kids : Contents} {id fresh : NodeId}
  {inner : List NodeId}

/-- What is in a new node is new, also once the node is in a list. -/
theorem Grown.not_reaches_live {linked : Document} (growth : document.Grown document' fresh inner)
    (arranged : linked.Arranged kids []) (inside : kids fresh = inner) (live : document.Live id) :
    ¬ ReflTransGen kids.Holds fresh id := by
  rcases growth.kind with ⟨rfl, -⟩ | ⟨head, rfl, -, -⟩
  · intro reaches
    rcases ReflTransGen.cases_head reaches with rfl | ⟨_, held, -⟩
    · exact growth.unborn live
    · rw [Contents.Holds, inside] at held
      cases held
  · rw [arranged.reaches_shell inside]
    rintro (rfl | rfl)
    · exact growth.unborn' (List.mem_singleton_self _) live
    · exact growth.unborn live

end Document

namespace Editor

variable {editor : Editor} {kids : Contents} {list : NodeId} {front run back : List NodeId}
  {spot rest : Spot}

/-- The nodes are what they were, the cursor is where it was, and nothing is selected. -/
structure Restores (edited : Bool × Editor) (editor : Editor) : Prop where
  done : edited.1 = true
  document : editor.document.Restored edited.2.document
  cursor : edited.2.cursor = editor.cursor
  unmarked : edited.2.hasSelection = false

/-- From the front of a list, a move back that steps out goes to the node before the list. -/
theorem movePrev_of_head {outer prev : NodeId} {rest : List NodeId} {stepIn : Bool}
    (arranged : editor.document.Arranged kids []) (split : kids list = editor.cursor :: rest)
    (held : list ∈ kids outer) (before : editor.document.prev? list = some prev) :
    editor.movePrev { stepIn, stepOut := true } =
      (true, { editor.selectNone with cursor := prev }) := by
  have mem : editor.cursor ∈ kids list := by simp [split]
  have kind := (arranged.heads mem).2 (by rw [split]; rfl)
  have first := arranged.prev? (show kids list = [] ++ editor.cursor :: rest from split)
  refine movePrev_of_outer kind first ?_
  rw [arranged.enclosing?_of_mem mem held, Option.bind_some, before]

namespace Stands

variable (stands : editor.Stands kids list front back spot)

include stands

/-- What was linked in behind the cursor goes again. -/
theorem restored_removeNext {document' : Document} {fresh : NodeId} {inner : List NodeId}
    (growth : editor.document.Grown document' fresh inner) :
    Restores (true, Editor.removeNext
      { document := document'.linkAfter editor.cursor fresh, cursor := editor.cursor }) editor := by
  have mem := stands.cursor_mem
  obtain ⟨arranged, -, split, ends, -, -⟩ := stands
  obtain ⟨kids₁, linked, whole, inside, -, spares⟩ := growth.exists_linked arranged split ends
  generalize document'.linkAfter editor.cursor fresh = grown at *
  have parted : Parted front [fresh] back editor.cursor fresh fresh :=
    ⟨whole ▸ linked.nodup list, ends, rfl, rfl⟩
  obtain ⟨init, behind⟩ := List.getLast?_eq_some_iff.1 ends
  have next : grown.next? editor.cursor = some fresh :=
    linked.next? (show kids₁ list = init ++ editor.cursor :: (fresh :: back) by
      simp [whole, behind])
  have cut := (linked.rearranged_cutRun parted whole).result linked
  rw [List.append_nil] at cut
  obtain ⟨kids₂, arranged', contents, spares'⟩ :=
    linked.exists_removed parted whole cut.free_freed
  have removed : Editor.removeNext { document := grown, cursor := editor.cursor } =
      { document := (grown.cutRun (some list) editor.cursor fresh fresh back.head?).free fresh,
        cursor := editor.cursor } := by
    simp only [Editor.removeNext, next, linked.unlinkRun_eq parted whole]
  rw [removed]
  -- The two changes leave all that was there alone, but for the list, and the list holds what it
  -- held.
  have all := spares.trans spares' fun id live differs =>
    ⟨differs, fun start same =>
      List.mem_singleton.1 same ▸ growth.not_reaches_live linked inside live⟩
  exact ⟨rfl, all.restored (contents.trans split.symm) arranged arranged' mem, rfl, rfl⟩

/-- The node that was linked in has the cursor before it. -/
theorem prev?_linkAfter {document' : Document} {fresh : NodeId} {inner : List NodeId}
    (growth : editor.document.Grown document' fresh inner) :
    (document'.linkAfter editor.cursor fresh).prev? fresh = some editor.cursor := by
  obtain ⟨kids₁, linked, whole, -⟩ :=
    growth.exists_linked stands.arranged stands.split stands.ends
  rw [List.append_assoc] at whole
  exact (linked.prev? whole).trans stands.ends

/-- Deleting back takes out the word that was inserted. -/
theorem deletePrev_insertWord (classify : Classifier) (text : String) (stepOut : Bool) :
    Restores ((editor.insertWord classify text).deletePrev false stepOut) editor := by
  have growth := editor.document.grown_pushWord (classify text) text
  have moves : (editor.insertWord classify text).movePrev { stepOut } = (true, _) :=
    movePrev_of_prev Bool.noConfusion (stands.prev?_linkAfter growth)
  have unmarked : (editor.insertWord classify text).hasSelection = false := rfl
  rw [Editor.deletePrev, unmarked, if_neg Bool.false_ne_true, moves]
  exact stands.restored_removeNext growth

/-- Deleting back out of a list takes out the list that was inserted. -/
theorem deletePrev_insertList : Restores (editor.insertList.2.deletePrev false true) editor := by
  have growth := editor.document.grown_pushList
  obtain ⟨kids₁, inner, stands'⟩ :=
    stands.grow growth fun _ arranged inner _ => arranged.shown_empty inner
  -- the cursor is on the head of the new list
  have cursor := cursor_insertList stands'.arranged inner
  rw [← cursor] at inner
  have moves : editor.insertList.2.movePrev { stepOut := true } = (true, _) :=
    movePrev_of_head stands'.arranged inner stands'.cursor_mem (stands.prev?_linkAfter growth)
  have unmarked : editor.insertList.2.hasSelection = false := rfl
  rw [Editor.deletePrev, unmarked, if_neg Bool.false_ne_true, moves]
  exact stands.restored_removeNext growth

end Stands

/-- The list that the selected run was put into makes way for the run again, with the cursor on the
last of it. -/
theorem Chosen.unquote_quoteSelection {span : Span} {prev : NodeId} {trees : List Tree}
    (chosen : editor.Chosen kids list front run back span prev trees rest) :
    editor.quoteSelection.2.unquote.1 = true ∧
      editor.document.Restored editor.quoteSelection.2.unquote.2.document ∧
      editor.quoteSelection.2.unquote.2.cursor = span.last ∧
      editor.quoteSelection.2.unquote.2.hasSelection = false := by
  obtain ⟨fresh, quoted, head, kids₁, same, arranged₁, contents₁, within, unborn, spares, -⟩ :=
    chosen.exists_quoted
  obtain ⟨-, arranged, -, split, parted, -, -, -⟩ := chosen
  have parted₁ : Parted front [fresh] back prev fresh fresh :=
    ⟨contents₁ ▸ arranged₁.nodup list, parted.before, rfl, rfl⟩
  obtain ⟨_, shown⟩ := arranged₁.exists_shown fresh
  obtain ⟨kids₂, arranged₂, contents₂, kept, -⟩ :=
    arranged₁.exists_unquoted parted₁ contents₁ within parted.starts parted.ends shown
  have mem : span.first ∈ kids list := by simp [split, parted.first_mem]
  have unquoted : Editor.unquote { document := quoted, cursor := fresh } = _ :=
    unquote_eq arranged₁ parted₁ contents₁ within
  simp only [parted.starts, parted.ends] at unquoted
  simp only [same, unquoted]
  refine ⟨trivial, Document.Spares.restored ?_ (contents₂.trans split.symm) arranged arranged₂ mem,
    trivial, rfl⟩
  -- neither the new list nor its head was there before
  intro id live differs none
  obtain ⟨kind, inside⟩ := spares id live differs none
  obtain ⟨kind', inside'⟩ := kept id differs (fun same => unborn.1 (same ▸ live))
    fun same => unborn.2 (same ▸ live)
  exact ⟨kind'.trans kind, inside'.trans inside⟩

/-- Whatever was done in an editor: a word or a list that is inserted is taken out by deleting back,
out of the list where it is one. If there is a selection, quoting it is undone by taking the list
away from around it. Each time every node is again what it was, and is where it was; nothing is
selected, and the cursor is where it was before an insertion, or on the last of the run that was
selected. -/
theorem edits_undo_each_other (steps : List Step) :
    let editor := steps.foldl Step.perform Editor.new
    (∀ classify text stepOut,
      Restores ((editor.insertWord classify text).deletePrev false stepOut) editor) ∧
    Restores (editor.insertList.2.deletePrev false true) editor ∧
    (editor.hasSelection = true → ∃ span list, editor.selection? = some span ∧
      editor.quoteSelection.1 = some list ∧ editor.quoteSelection.2.unquote.1 = true ∧
      editor.document.Restored editor.quoteSelection.2.unquote.2.document ∧
      (editor.document.run span.first span.last).getLast? =
        some editor.quoteSelection.2.unquote.2.cursor ∧
      editor.quoteSelection.2.unquote.2.hasSelection = false) := by
  intro editor
  obtain ⟨kids, arranged, list, origin, run, selected⟩ : editor.Selected :=
    selected_of_steps steps
  obtain ⟨front, back, split⟩ := List.append_of_mem selected.cursor_mem
  have around : kids list = (front ++ [editor.cursor]) ++ back := by simp [split]
  obtain ⟨spot, stands⟩ := exists_stands arranged around (List.getLast?_concat ..)
  refine ⟨stands.deletePrev_insertWord, stands.deletePrev_insertList, fun marked => ?_⟩
  -- What is selected is a run that is not empty, and is all that goes into the new list and comes
  -- out of it.
  have nonempty : run ≠ [] := by
    rw [Ne, ← selected.hasSelection_iff, marked]
    exact Bool.noConfusion
  obtain ⟨_, _, span, _, _, _, _, -, -, chosen⟩ := selected.exists_chosen arranged nonempty
  obtain ⟨undone, restored, cursor, unmarked⟩ := chosen.unquote_quoteSelection
  refine ⟨span, _, chosen.selection, chosen.quoteSelection.1, undone, restored, ?_, unmarked⟩
  rw [chosen.run_eq, chosen.parted.ends, cursor]

/-- In a list behind a word, a second word is selected and quoted, and the list that this makes is
taken away from around it. -/
theorem edits_undo_each_other_of_nested_word :
    let typed := [Step.edit (.insertWord "one") fun _ => .unknown,
      .edit .insertList fun _ => .unknown, .edit (.insertWord "two") fun _ => .unknown,
      .edit (.movePrev { select := true }) fun _ => .unknown]
    let editor := typed.foldl Step.perform Editor.new
    editor.hasSelection = true ∧ ∃ span list, editor.selection? = some span ∧
      editor.quoteSelection.1 = some list ∧ editor.quoteSelection.2.unquote.1 = true ∧
      editor.document.Restored editor.quoteSelection.2.unquote.2.document ∧
      (editor.document.run span.first span.last).getLast? =
        some editor.quoteSelection.2.unquote.2.cursor ∧
      editor.quoteSelection.2.unquote.2.hasSelection = false := by
  intro typed
  exact ⟨by decide, (edits_undo_each_other typed).2.2 (by decide)⟩

end Editor

end LiveStack
