import LiveStack.Proofs.Document.Spelling
import LiveStack.Proofs.Editor.Changes

/-!
# A word in place of the selection

Deleting a selected run of the top level and inserting a word puts the word where the run was, and
leaves all other nodes as they are.
-/

namespace LiveStack

open Relation

namespace Document

variable {document : Document} {kids : Contents}

/-- Taking a run out of the top level and freeing it leaves the rest of the outline. -/
theorem Arranged.exists_freed (arranged : document.Arranged kids [])
    {before run behind : List NodeId} {prev first last : NodeId}
    (parted : Parted before run behind prev first last)
    (split : kids root = before ++ run ++ behind) {front back : List Outline}
    (shown : document.Outlined kids before front) (shown' : document.Outlined kids behind back) :
    ∃ cut kids', document.unlinkRun first last = some (prev, cut) ∧
      (cut.freeRun first last).Arranged kids' [] ∧ kids' root = before ++ behind ∧
      (cut.freeRun first last).Outlined kids' before front ∧
      (cut.freeRun first last).Outlined kids' behind back := by
  have chained := arranged.chained root
  rw [split] at chained
  have loosened := (chained_cutRun parted chained).2
  have cut := (arranged.rearranged_cutRun parted split).result arranged
  rw [List.append_nil] at cut
  have freed := cut.freeRun_freed parted.nodup_run (fun _ mem => mem) loosened
    parted.starts parted.ends
  obtain ⟨kids', arranged', contents, spares⟩ := arranged.exists_removed parted split freed
  have inside : ∀ id ∈ run, id ∈ kids root := fun id mem => by simp [split, mem]
  obtain ⟨others, others'⟩ := parted.beside split
  exact ⟨_, kids', arranged.unlinkRun_eq parted split, arranged', contents,
    spares.outlined arranged inside others shown, spares.outlined arranged inside others' shown'⟩

/-- Inserting a word on the top level puts it into the outline. -/
theorem Arranged.outline_insertWordAfter (arranged : document.Arranged kids [])
    {before behind : List NodeId} {prev : NodeId} (split : kids root = before ++ behind)
    (ends : before.getLast? = some prev) {front back : List Outline}
    (shown : document.Outlined kids before front) (shown' : document.Outlined kids behind back)
    (reading : TokenClass) (text : String) :
    (document.insertWordAfter prev reading text).2.outline =
      front ++ .word document.slots.size reading text :: back := by
  have inside : ∀ {id}, id ∈ before ++ behind → id ∈ kids root := fun mem => split ▸ mem
  have mem : prev ∈ kids root := inside (List.mem_append_left _ (List.mem_of_mem_getLast? ends))
  have growth := document.grown_pushWord reading text
  have whole := (arranged.insertWordAfter split ends reading text).outline_outlined
  rw [Contents.set_self] at whole
  have spares := growth.spares arranged mem (before ++ [document.slots.size] ++ behind)
  have fresh : (document.insertWordAfter prev reading text).2.kind? document.slots.size =
      some (.word reading text) := by
    have differs := growth.ne_fresh (live_of_isList arranged.rooted)
    rw [Document.insertWordAfter, growth.kind?_linkAfter arranged mem differs.symm, kind?_push]
  have first := spares.outlined_of_nil arranged
    (fun _ mem => inside (List.mem_append_left _ mem)) shown
  have second := spares.outlined_of_nil arranged
    (fun _ mem => inside (List.mem_append_right _ mem)) shown'
  rw [whole.unique ((first.append (.word fresh .nil)).append second), List.append_assoc]
  rfl

end Document

namespace Editor

open Document (root Parted)

variable {editor : Editor} {kids : Contents} {front run back : List Outline}

/-- The selection is a run of nodes of the top level, between others. -/
structure SelectsRun (editor : Editor) (front run back : List Outline) : Prop where
  outline : editor.document.outline = front ++ run ++ back
  marked : ∃ span, editor.selection? = some span ∧ (run.map Outline.id).head? = some span.first ∧
    (run.map Outline.id).getLast? = some span.last

theorem SelectsRun.source (selects : editor.SelectsRun front run back) :
    editor.source = Outline.spellAll front ++ Outline.spellAll run ++ Outline.spellAll back := by
  rw [source_eq, selects.outline, Outline.spellAll_append, Outline.spellAll_append]

theorem SelectsRun.words (selects : editor.SelectsRun front run back) :
    editor.words = Outline.wordsAll front ++ Outline.wordsAll run ++ Outline.wordsAll back := by
  rw [Editor.words, selects.outline, Outline.wordsAll_append, Outline.wordsAll_append]

/-- The parts of the top level around a selected run, and in it. -/
structure Parts (editor : Editor) (kids : Contents) (front run back : List Outline) (span : Span)
    (prev : NodeId) : Prop where
  selection : editor.selection? = some span
  split : kids root = front.map Outline.id ++ run.map Outline.id ++ back.map Outline.id
  parted : Parted (front.map Outline.id) (run.map Outline.id) (back.map Outline.id)
    prev span.first span.last
  front : editor.document.Outlined kids (front.map Outline.id) front
  run : editor.document.Outlined kids (run.map Outline.id) run
  back : editor.document.Outlined kids (back.map Outline.id) back

theorem exists_parts (sound : editor.Sound kids) (selects : editor.SelectsRun front run back) :
    ∃ span prev, editor.Parts kids front run back span prev := by
  obtain ⟨span, selected, starts, ends⟩ := selects.marked
  have shown := sound.arranged.outline_outlined
  rw [selects.outline] at shown
  obtain ⟨front', back', split, shown, third⟩ := shown.exists_append
  obtain ⟨front', run', rfl, first, second⟩ := shown.exists_append
  obtain rfl := first.ids_eq
  obtain rfl := second.ids_eq
  obtain rfl := third.ids_eq
  obtain ⟨rest, runs⟩ := List.head?_eq_some_iff.1 starts
  -- A selection does not begin with a head, so there is a node before it.
  have notHead : editor.document.kind? span.first ≠ some .head := by
    obtain ⟨list, front', run', back', prev, split', parted⟩ :=
      (selection_sound sound).2 span selected
    obtain ⟨middle, fromFirst, -⟩ := parted.exists_tail
    have atFirst : kids list = front' ++ span.first :: (middle ++ back') := by
      simp [split', fromFirst]
    exact sound.arranged.kind?_ne_head atFirst (List.ne_nil_of_mem parted.prev_mem)
  obtain ⟨prev, before⟩ := sound.arranged.exists_before
    (show kids root = front.map Outline.id ++ span.first :: (rest ++ back.map Outline.id) by
      rw [split, runs]
      simp) notHead
  exact ⟨span, prev, selected, split, ⟨split ▸ sound.arranged.nodup root, before, starts, ends⟩,
    first, second, third⟩

namespace Parts

variable {span : Span} {prev : NodeId} (parts : editor.Parts kids front run back span prev)
  (sound : editor.Sound kids)

include parts sound

/-- The text of the selection is the text of the run. -/
theorem selectionSource? : editor.selectionSource? = some (Outline.spellAll run) := by
  rw [Editor.selectionSource?, parts.selection, Option.map_some,
    sound.arranged.sourceFrom_run parts.split parts.parted.starts parts.parted.ends parts.run
      parts.back]

/-- After the selection is deleted and a word inserted, the word is where the selection was. -/
theorem outline_insertWord (classify : Classifier) (name : String) :
    ∃ id, (editor.deleteSelection.2.insertWord classify name).document.outline =
      front ++ .word id (classify name) name :: back := by
  obtain ⟨first, last⟩ := span
  obtain ⟨cut, kids', cuts, arranged, split, shown, shown'⟩ :=
    sound.arranged.exists_freed parts.parted parts.split parts.front parts.back
  have deleted :
      editor.deleteSelection.2 = { document := cut.freeRun first last, cursor := prev } := by
    simp [deleteSelection, detachSelection, parts.selection, selectNone, cuts]
  rw [deleted]
  exact ⟨_, arranged.outline_insertWordAfter split parts.parted.before shown shown'
    (classify name) name⟩

end Parts

end Editor

end LiveStack
