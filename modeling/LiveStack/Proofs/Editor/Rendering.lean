import LiveStack.Proofs.Document.Glyphs
import LiveStack.Proofs.Editor.Soundness

/-!
# The line shows the editor

The line has nothing in it but the tree, the cursor and the selection. If all words can be told in
it, nothing of these is lost: two editors with the same line have the same tree, with the cursor
and the selection in the same places.
-/

namespace LiveStack

namespace Editor

variable {editor editor' : Editor} {kids kids' : Contents}

namespace Sound

variable (sound : editor.Sound kids) (words : ∀ word ∈ editor.words, Text.Discernible word.1)

include sound

theorem mem_positions {list id : NodeId} (mem : id ∈ kids list) :
    id ∈ editor.document.positions :=
  (sound.arranged.in_order.2.1 id).2
    ⟨Document.mem_live.2 (sound.arranged.live_of_mem mem), sound.arranged.ne_root mem⟩

/-- There is no selection, or there is one between two children of a list. -/
theorem selection?_cases : (editor.hasSelection = false ∧ editor.selection? = none) ∨
    ∃ span list, editor.selection? = some span ∧ editor.Child kids list span.first ∧
      editor.Child kids list span.last := by
  obtain ⟨list, -, selects⟩ := sound.placed
  rcases selects with ⟨anchor, reach⟩ | ⟨anchor, reach, isAnchor, isReach, child, child'⟩
  · exact .inl ⟨by rw [hasSelection, anchor, reach]; rfl, by rw [selection?, anchor]; rfl⟩
  · refine .inr ?_
    simp only [selection?, isAnchor, isReach, Option.bind_eq_bind, Option.bind_some]
    split
    · exact ⟨_, list, rfl, child, child'⟩
    · exact ⟨_, list, rfl, child', child⟩

theorem marks_of_head {id : NodeId} (kind : editor.document.kind? id = some .head) :
    editor.marks.opens id = false ∧ editor.marks.closes id = false := by
  rw [Marks.opens, Marks.closes, marks]
  rcases sound.selection?_cases with ⟨-, none⟩ | ⟨span, list, known, first, last⟩
  · rw [none]
    exact ⟨rfl, rfl⟩
  · rw [known]
    refine ⟨decide_eq_false ?_, decide_eq_false ?_⟩
    · rintro ⟨⟩
      exact first.2 kind
    · rintro ⟨⟩
      exact last.2 kind

/-- There is a selection just if one of the positions is marked as its first. -/
theorem isSome_selection?_iff : editor.selection?.isSome = true ↔
    true ∈ editor.document.positions.map editor.marks.opens := by
  rw [List.mem_map]
  constructor
  · intro isSome
    rcases sound.selection?_cases with ⟨-, none⟩ | ⟨span, list, known, first, -⟩
    · rw [none] at isSome
      cases isSome
    · exact ⟨span.first, sound.mem_positions first.1, by rw [Marks.opens, marks, known]; simp⟩
  · rintro ⟨id, -, opens⟩
    have first := of_decide_eq_true opens
    rw [Option.map_eq_some_iff] at first
    obtain ⟨span, known, -⟩ := first
    exact Option.isSome_of_mem known

include words

theorem headed_outline : Outline.Headed editor.marks editor.document.outline :=
  sound.arranged.headed_outline words fun _ kind => sound.marks_of_head kind

/-- The line and one space behind it are all that was drawn. -/
theorem toList_render_append :
    editor.render.toList ++ [' '] = Outline.glyphsAll editor.marks editor.document.outline := by
  obtain ⟨list, mem, -⟩ := sound.placed
  have spaced := (sound.headed_outline words).spaced (sound.mem_positions mem)
  rw [render, Text.trimEnd, String.toList_ofList, Outline.toList_drawAll, String.toList_empty,
    List.nil_append, ← spaced.eq_dropTrailing]

end Sound

/-- Editors with the same line have the same outline, but for the numbers of the nodes and the
classes of the words, with the same nodes marked. -/
theorem Sound.alike (sound : editor.Sound kids) (sound' : editor'.Sound kids')
    (words : ∀ word ∈ editor.words, Text.Discernible word.1)
    (words' : ∀ word ∈ editor'.words, Text.Discernible word.1)
    (same : editor.render = editor'.render) :
    Outline.Alike (editor.marks.Same editor'.marks) editor.document.outline
      editor'.document.outline := by
  refine (sound.headed_outline words).alike (sound'.headed_outline words') ?_
  rw [← sound.toList_render_append words, ← sound'.toList_render_append words', same]

/-- Nodes that are told apart from all others by the same mark have the same path. -/
theorem exists_path (alike : Outline.Alike (editor.marks.Same editor'.marks)
      editor.document.outline editor'.document.outline) {target target' : NodeId}
    (mem : target ∈ editor.document.positions)
    (told : ∀ {id id'}, editor.marks.Same editor'.marks id id' → (target = id ↔ target' = id')) :
    ∃ path, editor.document.path? target = some path ∧
      editor'.document.path? target' = some path := by
  obtain ⟨path, found⟩ := Outline.exists_pathFrom? mem 0
  exact ⟨path, found, (alike.pathFrom?_eq told 0).symm.trans found⟩

/-- **The line shows the whole editor.** Whatever was done in two editors: if all their words can
be told in a line, and both are shown by the same line, then they have the same tree, with the
cursor at the same path; and either nothing is selected in both, or in both what is selected goes
from one and the same path to another. -/
theorem line_shows_the_whole_editor (steps steps' : List Step) :
    let editor := steps.foldl Step.perform Editor.new
    let editor' := steps'.foldl Step.perform Editor.new
    (∀ word ∈ editor.words, Text.Discernible word.1) →
    (∀ word ∈ editor'.words, Text.Discernible word.1) →
    editor.render = editor'.render →
      editor.sketch = editor'.sketch ∧
      (∃ path, editor.document.path? editor.cursor = some path ∧
        editor'.document.path? editor'.cursor = some path) ∧
      ((editor.hasSelection = false ∧ editor'.hasSelection = false) ∨
        ∃ span span' first last,
          editor.selection? = some span ∧ editor'.selection? = some span' ∧
          editor.document.path? span.first = some first ∧
          editor'.document.path? span'.first = some first ∧
          editor.document.path? span.last = some last ∧
          editor'.document.path? span'.last = some last) := by
  intro editor editor' words words' same
  obtain ⟨kids, sound⟩ : ∃ kids, editor.Sound kids := sound_of_steps steps
  obtain ⟨kids', sound'⟩ : ∃ kids, editor'.Sound kids := sound_of_steps steps'
  have alike := sound.alike sound' words words' same
  refine ⟨alike.sketchAll_eq, ?_, ?_⟩
  · obtain ⟨list, mem, -⟩ := sound.placed
    exact exists_path alike (sound.mem_positions mem) fun same => decide_eq_decide.1 same.bars
  · -- The line says whether anything is selected.
    have both : editor.selection?.isSome = true ↔ editor'.selection?.isSome = true := by
      rw [sound.isSome_selection?_iff, sound'.isSome_selection?_iff, Document.positions,
        Document.positions, alike.map_positions Marks.Same.opens]
    rcases sound.selection?_cases with ⟨unmarked, none⟩ | ⟨span, list, known, starts, stops⟩ <;>
      rcases sound'.selection?_cases with ⟨unmarked', none'⟩ | ⟨span', -, known', -⟩
    · exact .inl ⟨unmarked, unmarked'⟩
    · rw [none, known'] at both
      cases both.2 rfl
    · rw [known, none'] at both
      cases both.1 rfl
    · obtain ⟨first, isFirst, isFirst'⟩ : ∃ path, editor.document.path? span.first = some path ∧
          editor'.document.path? span'.first = some path :=
        exists_path alike (sound.mem_positions starts.1) fun same => by
          simpa [marks, known, known'] using decide_eq_decide.1 same.opens
      obtain ⟨last, isLast, isLast'⟩ : ∃ path, editor.document.path? span.last = some path ∧
          editor'.document.path? span'.last = some path :=
        exists_path alike (sound.mem_positions stops.1) fun same => by
          simpa [marks, known, known'] using decide_eq_decide.1 same.closes
      exact .inr ⟨span, span', first, last, known, known', isFirst, isFirst', isLast, isLast'⟩

/-- In one editor a word was typed and taken back, so that the numbers differ: the line is the
same, with a selected string in a list, and so is all that it shows. -/
theorem line_shows_the_whole_editor_of_selected_string :
    let type (text : String) := Step.edit (.insertWord text) fun _ => .unknown
    let edit (change : Edit) := Step.edit change fun _ => .unknown
    let ending := [edit .insertList, type "\"b ]\"", edit (.movePrev { select := true })]
    let editor := (type "a" :: ending).foldl Step.perform Editor.new
    let editor' := (type "a" :: type "x" :: edit (.deletePrev false false) :: ending).foldl
      Step.perform Editor.new
    editor.render = "a [ | \x7b\"b ]\"\x7d ]" ∧ editor'.render = editor.render ∧
      editor'.cursor ≠ editor.cursor ∧ editor.sketch = editor'.sketch ∧
      ∃ span span' first last,
        editor.selection? = some span ∧ editor'.selection? = some span' ∧
        editor.document.path? span.first = some first ∧
        editor'.document.path? span'.first = some first ∧
        editor.document.path? span.last = some last ∧
        editor'.document.path? span'.last = some last := by
  intro type edit ending editor editor'
  have line : editor.render = "a [ | \x7b\"b ]\"\x7d ]" := by decide
  have line' : editor'.render = "a [ | \x7b\"b ]\"\x7d ]" := by decide
  have words : ∀ word ∈ editor.words, Text.Discernible word.1 := by decide
  have words' : ∀ word ∈ editor'.words, Text.Discernible word.1 := by decide
  obtain ⟨tree, -, selection⟩ :=
    line_shows_the_whole_editor _ _ words words' (line.trans line'.symm)
  have marked : ¬ (editor.hasSelection = false ∧ editor'.hasSelection = false) := by decide
  exact ⟨line, line'.trans line.symm, by decide, tree, selection.resolve_left marked⟩

end Editor

end LiveStack
