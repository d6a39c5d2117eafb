import LiveStack.Proofs.Editor.Changes

/-!
# Every editor is sound

A step of a sound editor leads to a sound editor, and an empty editor is sound. So whatever is done
in an editor, its links agree, nothing of its document is lost, its cursor and its selection are on
nodes that are there, and the next step can be done strictly.
-/

namespace LiveStack

open Relation

open Document (root)

namespace Editor

variable {editor : Editor} {kids : Contents}

theorem exists_sound_new : ∃ kids, Editor.new.Sound kids :=
  ⟨_, Document.arranged_empty, root, List.mem_singleton_self _, .inl ⟨rfl, rfl⟩⟩

/-- An edit of a sound editor can be applied strictly. -/
theorem edit_sound (sound : editor.Sound kids) (classify : Classifier) (edit : Edit) :
    edit.applyStrictly classify editor = some (edit.apply classify editor) ∧
      ∃ kids', (edit.apply classify editor).2.Sound kids' := by
  cases edit with
  | movePrev motion => exact (movePrev_sound sound motion).imp_right fun sound => ⟨kids, sound⟩
  | moveNext motion => exact (moveNext_sound sound motion).imp_right fun sound => ⟨kids, sound⟩
  | moveFirst select => exact (moveFirst_sound select sound).imp_right fun sound => ⟨kids, sound⟩
  | moveLast select => exact (moveLast_sound select sound).imp_right fun sound => ⟨kids, sound⟩
  | insertWord text =>
      obtain ⟨strict, sound⟩ := insertWord_sound sound classify text
      exact ⟨by rw [Edit.applyStrictly, strict]; rfl, sound⟩
  | insertList =>
      obtain ⟨strict, sound⟩ := insertList_sound sound
      exact ⟨by rw [Edit.applyStrictly, strict]; rfl, sound⟩
  | closeList => exact (moveNext_sound sound _).imp_right fun sound => ⟨kids, sound⟩
  | insertSource source =>
      obtain ⟨strict, sound⟩ := insertSource_sound sound classify source
      exact ⟨by rw [Edit.applyStrictly, strict]; rfl, sound⟩
  | deletePrev stepIn stepOut => exact deletePrev_sound sound stepIn stepOut
  | deleteNext stepIn stepOut => exact deleteNext_sound sound stepIn stepOut
  | selectAll =>
      obtain ⟨strict, sound⟩ := selectAll_sound sound
      exact ⟨by rw [Edit.applyStrictly, strict]; rfl, kids, sound⟩
  | selectNone => exact ⟨rfl, kids, sound.selectNone⟩
  | quote =>
      obtain ⟨strict, sound⟩ := quoteSelection_sound sound
      exact ⟨by rw [Edit.applyStrictly, strict]; rfl, sound⟩
  | unquote => exact unquote_sound sound

/-- A step of a sound editor can be done strictly, and leads to a sound editor. -/
theorem step_sound (sound : editor.Sound kids) (step : Step) :
    step.performStrictly editor = some (Step.perform editor step) ∧
      ∃ kids', (Step.perform editor step).Sound kids' := by
  cases step with
  | edit change classify =>
      obtain ⟨strict, sound⟩ := edit_sound sound classify change
      exact ⟨by rw [Step.performStrictly, strict]; rfl, sound⟩
  | deleteSelection =>
      obtain ⟨strict, sound⟩ := deleteSelection_sound sound
      exact ⟨by rw [Step.performStrictly, strict]; rfl, sound⟩
  | clear => exact clear_sound sound
  | reclassify classify => exact ⟨rfl, kids, reclassify_sound sound classify⟩

theorem steps_sound (sound : editor.Sound kids) (steps : List Step) :
    ∃ kids', (steps.foldl Step.perform editor).Sound kids' := by
  induction steps generalizing editor kids with
  | nil => exact ⟨kids, sound⟩
  | cons step rest ih =>
      obtain ⟨-, kids', sound⟩ := step_sound sound step
      exact ih sound

/-- Whatever steps are taken in a new editor, they leave a sound one. -/
theorem sound_of_steps (steps : List Step) :
    ∃ kids, (steps.foldl Step.perform Editor.new).Sound kids := by
  obtain ⟨_, new⟩ := exists_sound_new
  exact steps_sound new steps

/-- Whatever steps were taken: the links agree; the nodes that have not been removed are those that
the links lead to from the root; the cursor is on one of them, and not on the root; the selection
has no end, or two, and both are on such nodes that are no heads; and the next step, whichever it
is, reads no node that was removed and ends. -/
theorem every_step_is_sound (steps : List Step) :
    let editor := steps.foldl Step.perform Editor.new
    editor.document.isConsistent = true ∧
      (∀ id, id ∈ editor.document.live ↔ ReflTransGen editor.document.Points root id) ∧
      (editor.cursor ∈ editor.document.live ∧ editor.cursor ≠ root) ∧
      ((editor.anchor = none ∧ editor.reach = none) ∨
        ∃ anchor reach, editor.anchor = some anchor ∧ editor.reach = some reach ∧
          (anchor ∈ editor.document.live ∧ editor.document.isHead anchor = false) ∧
          (reach ∈ editor.document.live ∧ editor.document.isHead reach = false)) ∧
      ∀ step : Step, step.performStrictly editor = some (Step.perform editor step) := by
  intro editor
  obtain ⟨kids, sound⟩ : ∃ kids, editor.Sound kids := sound_of_steps steps
  have arranged := sound.arranged
  obtain ⟨list, mem, selects⟩ := sound.placed
  have found : ∀ {id}, editor.Child kids list id →
      id ∈ editor.document.live ∧ editor.document.isHead id = false := fun child =>
    ⟨Document.mem_live.2 (arranged.live_of_mem child.1), decide_eq_false child.2⟩
  refine ⟨arranged.isConsistent, fun id => Document.mem_live.trans arranged.live_iff_points,
    ⟨Document.mem_live.2 sound.live, arranged.ne_root mem⟩, ?_, fun step => (step_sound sound step).1⟩
  rcases selects with none | ⟨anchor, reach, isAnchor, isReach, child, child'⟩
  · exact .inl none
  · exact .inr ⟨anchor, reach, isAnchor, isReach, found child, found child'⟩

end Editor

end LiveStack
