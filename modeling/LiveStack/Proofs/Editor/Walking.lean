import LiveStack.Proofs.Document.Positions
import LiveStack.Proofs.Editor.Soundness
import LiveStack.Proofs.Editor.Spots

/-!
# Walking in and out

A move that steps both in and out goes to the next position in the order of the document, or to the
one before. So the two moves undo each other, and walking forward from the head of the top level
comes to every node but the root, once, before it stops.
-/

namespace LiveStack

open Document (root Threaded threaded_iff)

/-- A move that goes into lists and out of them. -/
def Motion.inAndOut : Motion := { stepIn := true, stepOut := true }

namespace Editor

/-- What comes of a move to a node, or of one that leads nowhere. The selection is dropped. -/
def moved (editor : Editor) : Option NodeId → Bool × Editor
  | some id => (true, { editor.selectNone with cursor := id })
  | none => (false, editor.selectNone)

/-- The positions where the cursor is on a walk forward, `count` of them at most. -/
def visits : (count : Nat) → Editor → List NodeId
  | 0, _ => []
  | count + 1, editor =>
      editor.cursor ::
        match editor.moveNext .inAndOut with
        | (true, there) => visits count there
        | (false, _) => []

theorem moveNext_inAndOut (editor : Editor) :
    editor.moveNext .inAndOut = editor.moved (editor.document.forth? editor.cursor) := by
  cases next : editor.document.next? editor.cursor with
  | some next =>
      simp [moveNext, beginMove, Motion.inAndOut, goTo, selectNone, moved, Document.forth?, next]
  | none =>
      cases outer : editor.document.enclosing? editor.cursor <;>
        simp [moveNext, beginMove, Motion.inAndOut, goTo, selectNone, moved, Document.forth?, next,
          outer]

theorem movePrev_inAndOut (editor : Editor) :
    editor.movePrev .inAndOut = editor.moved (editor.document.back? editor.cursor) := by
  cases last : editor.document.last? editor.cursor with
  | some last =>
      rw [Document.back?, last]
      exact movePrev_of_last last
  | none =>
      cases prev : editor.document.prev? editor.cursor with
      | some prev =>
          rw [Document.back?, last, prev]
          exact movePrev_of_prev (fun _ => last) prev
      | none =>
          cases outer : (editor.document.enclosing? editor.cursor).bind editor.document.prev? <;>
            simp [movePrev, beginMove, Motion.inAndOut, goTo, selectNone, moved, Document.back?,
              last, prev, outer]

/-- A walk comes to all positions that are left. -/
theorem visits_of_threaded {rest : List NodeId} {editor : Editor} {before : Option NodeId}
    (threaded : Threaded editor.document.Between before (editor.cursor :: rest) none) (more : Nat) :
    visits ((editor.cursor :: rest).length + more) editor = editor.cursor :: rest := by
  induction rest generalizing editor before with
  | nil =>
      obtain ⟨⟨-, forth⟩, -⟩ := threaded
      rw [List.length_singleton, Nat.add_comm, visits, moveNext_inAndOut, forth]
      rfl
  | cons next rest ih =>
      obtain ⟨⟨-, forth⟩, threaded⟩ := threaded
      have further := @ih { editor.selectNone with cursor := next } _ threaded
      rw [List.length_cons, Nat.add_right_comm, visits, moveNext_inAndOut, forth]
      exact congrArg (editor.cursor :: ·) further

/-- In every editor that steps lead to, the positions are the nodes that have not been removed but
the root, each once. The cursor is on one of them; a move in and out goes to the next one, or to the
one before, and says whether there is one. So each of the two moves undoes the other, and a walk
forward from the first position comes to all of them in order and stops. -/
theorem in_and_out_walks_the_positions (steps : List Step) :
    let editor := steps.foldl Step.perform Editor.new
    let positions := editor.document.positions
    (positions.Nodup ∧ ∀ id, id ∈ positions ↔ id ∈ editor.document.live ∧ id ≠ root) ∧
    (∃ before after, positions = before ++ editor.cursor :: after ∧
      editor.moveNext .inAndOut = editor.moved after.head? ∧
      editor.movePrev .inAndOut = editor.moved before.getLast?) ∧
    (∀ there, editor.moveNext .inAndOut = (true, there) →
      there.movePrev .inAndOut = (true, editor.selectNone)) ∧
    (∀ there, editor.movePrev .inAndOut = (true, there) →
      there.moveNext .inAndOut = (true, editor.selectNone)) ∧
    ∀ more, visits (positions.length + more) { editor with cursor := editor.document.top } =
      positions := by
  intro editor positions
  obtain ⟨kids, sound⟩ : ∃ kids, editor.Sound kids := sound_of_steps steps
  have arranged := sound.arranged
  obtain ⟨nodup, mem, threaded⟩ := arranged.in_order
  obtain ⟨list, held, -⟩ := sound.placed
  obtain ⟨before, after, split⟩ := List.append_of_mem
    ((mem editor.cursor).2 ⟨Document.mem_live.2 sound.live, arranged.ne_root held⟩)
  have around := threaded_iff.1 threaded
  have back : editor.document.back? editor.cursor = before.getLast? := by
    simpa using (around before editor.cursor after split).1
  have forth : editor.document.forth? editor.cursor = after.head? := by
    simpa using (around before editor.cursor after split).2
  refine ⟨⟨nodup, mem⟩, ⟨before, after, split, ?_, ?_⟩, ?_, ?_, ?_⟩
  · rw [moveNext_inAndOut, forth]
  · rw [movePrev_inAndOut, back]
  · intro there went
    rw [moveNext_inAndOut, forth] at went
    cases after with
    | nil => cases went
    | cons next after =>
        cases went
        have between := around (before ++ [editor.cursor]) next after (by simp [split])
        rw [List.getLast?_concat] at between
        exact (movePrev_inAndOut _).trans (congrArg (moved _) between.1)
  · intro there went
    rw [movePrev_inAndOut, back] at went
    -- The move back came to the position before, whose next one is the cursor.
    cases last : before.getLast? with
    | none =>
        rw [last] at went
        cases went
    | some prev =>
        rw [last] at went
        cases went
        obtain ⟨before, rfl⟩ := List.getLast?_eq_some_iff.1 last
        have between := around before prev (editor.cursor :: after) (by simp [split])
        rw [List.head?_cons] at between
        exact (moveNext_inAndOut _).trans (congrArg (moved _) between.2)
  · intro more
    obtain ⟨rest, first⟩ := List.head?_eq_some_iff.1 arranged.head?_positions
    rw [first] at threaded
    have all := @visits_of_threaded rest { editor with cursor := editor.document.top } _ threaded more
    rwa [← first] at all

/-- Behind a word, in an empty list in a list: one move goes out onto the empty list and comes back,
the other goes in front of it and comes back, and a walk from the front comes to all six nodes. -/
theorem in_and_out_walks_the_positions_of_nested_list :
    let typed := [Step.edit (.insertWord "one") fun _ => .unknown,
      .edit .insertList fun _ => .unknown, .edit .insertList fun _ => .unknown]
    let editor := typed.foldl Step.perform Editor.new
    editor.document.positions = [1, 2, 4, 6, 5, 3] ∧ editor.cursor = 6 ∧
    (∃ there, editor.moveNext .inAndOut = (true, there) ∧ there.cursor = 5 ∧
      there.movePrev .inAndOut = (true, editor.selectNone)) ∧
    (∃ there, editor.movePrev .inAndOut = (true, there) ∧ there.cursor = 4 ∧
      there.moveNext .inAndOut = (true, editor.selectNone)) ∧
    visits 9 { editor with cursor := editor.document.top } = [1, 2, 4, 6, 5, 3] := by
  intro typed editor
  obtain ⟨-, -, returns, returns', walks⟩ := in_and_out_walks_the_positions typed
  have positions : editor.document.positions = [1, 2, 4, 6, 5, 3] := by decide
  have forth : editor.moveNext .inAndOut = (true, { editor with cursor := 5 }) := by decide
  have back : editor.movePrev .inAndOut = (true, { editor with cursor := 4 }) := by decide
  have walked := walks 3
  rw [positions] at walked
  exact ⟨positions, rfl, ⟨_, forth, rfl, returns _ forth⟩, ⟨_, back, rfl, returns' _ back⟩, walked⟩

end Editor

end LiveStack
