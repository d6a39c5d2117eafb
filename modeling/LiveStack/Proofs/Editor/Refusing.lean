import LiveStack.Proofs.Editor.Undoing

/-!
# Edits that do nothing

A move, a deletion and a change of lists say whether they did anything. Where one says that it did
not, the document and the cursor are what they were; only a selection may have been dropped on the
way. This holds of every editor, and also of the edits that are made of others: a move to the end of
a list repeats a move that has just been refused, and is refused again.

Deleting forward is the exception. It moves forward and then deletes back, and where the move has
gone into a list and may not step out of it again, the second half is refused and the cursor stays
where the first half put it. In every editor that steps lead to, this is the only way for the
second half to be refused.
-/

namespace LiveStack

namespace Editor

variable {editor edited other : Editor} {kids : Contents} {head : NodeId}

/-- The document and the cursor are what they were. -/
structure Still (editor edited : Editor) : Prop where
  document : edited.document = editor.document
  cursor : edited.cursor = editor.cursor

/-- An edit that says that it did nothing did nothing. -/
def Honest (editor : Editor) (edited : Bool × Editor) : Prop :=
  edited.1 = false → editor.Still edited.2

namespace Still

theorem refl (editor : Editor) : editor.Still editor := ⟨rfl, rfl⟩

theorem trans (still : editor.Still edited) (still' : edited.Still other) : editor.Still other :=
  ⟨still'.document.trans still.document, still'.cursor.trans still.cursor⟩

theorem selectNone (editor : Editor) : editor.Still editor.selectNone := ⟨rfl, rfl⟩

theorem beginMove (editor : Editor) (motion : Motion) : editor.Still (editor.beginMove motion) := by
  unfold Editor.beginMove
  split
  · exact refl editor
  · exact selectNone editor

/-- What can be said of the siblings before and after the cursor stays. -/
theorem prev?_eq (still : editor.Still edited) :
    edited.document.prev? edited.cursor = editor.document.prev? editor.cursor := by
  rw [still.document, still.cursor]

theorem next?_eq (still : editor.Still edited) :
    edited.document.next? edited.cursor = editor.document.next? editor.cursor := by
  rw [still.document, still.cursor]

end Still

/-! ## Moves -/

theorem movePrev_honest (editor : Editor) (motion : Motion) :
    editor.Honest (editor.movePrev motion) := by
  intro refused
  have still := Still.beginMove editor motion
  unfold movePrev at refused ⊢
  generalize editor.beginMove motion = begun at refused still ⊢
  dsimp only at refused ⊢
  split at refused
  · cases refused
  · split at refused
    · cases refused
    · split at refused
      · cases refused
      · exact still

theorem moveNext_honest (editor : Editor) (motion : Motion) :
    editor.Honest (editor.moveNext motion) := by
  intro refused
  have still := Still.beginMove editor motion
  unfold moveNext at refused ⊢
  generalize editor.beginMove motion = begun at refused still ⊢
  dsimp only at refused ⊢
  split at refused
  · split at refused <;> cases refused
  · split at refused
    · cases refused
    · exact still

theorem moveOr_honest {first second : Editor → Bool × Editor}
    (honest : ∀ editor, Honest editor (first editor))
    (honest' : ∀ editor, Honest editor (second editor)) (editor : Editor) :
    editor.Honest (moveOr first second editor) := by
  intro refused
  unfold moveOr at refused ⊢
  have still := honest editor
  generalize first editor = tried at refused still ⊢
  obtain ⟨moved, between⟩ := tried
  cases moved with
  | true => cases refused
  | false => exact (still rfl).trans (honest' between refused)

/-- A move that is refused at once is not repeated. -/
theorem Still.repeatMove {move : Editor → Bool × Editor} (honest : Honest editor (move editor))
    (refused : (move editor).1 = false) (count : Nat) :
    editor.Still (repeatMove move count editor) := by
  cases count with
  | zero => exact refl editor
  | succ count =>
      have still := honest refused
      unfold Editor.repeatMove
      generalize move editor = tried at refused still ⊢
      obtain ⟨moved, there⟩ := tried
      obtain rfl : moved = false := refused
      exact still

theorem moveOr_refused {first second : Editor → Bool × Editor}
    (refused : (moveOr first second editor).1 = false) : (first editor).1 = false := by
  unfold moveOr at refused
  generalize first editor = tried at refused ⊢
  obtain ⟨moved, between⟩ := tried
  cases moved with
  | true => cases refused
  | false => rfl

/-- A move along a list is refused where no sibling comes next, and only there. -/
theorem movePrev_along (editor : Editor) (select : Bool) :
    (editor.movePrev { select }).1 = (editor.document.prev? editor.cursor).isSome := by
  rw [← (Still.beginMove editor { select }).prev?_eq]
  unfold movePrev
  cases prev : (editor.beginMove { select }).document.prev?
    (editor.beginMove { select }).cursor <;> simp [prev, goTo]

theorem moveNext_along (editor : Editor) (select : Bool) :
    (editor.moveNext { select }).1 = (editor.document.next? editor.cursor).isSome := by
  rw [← (Still.beginMove editor { select }).next?_eq]
  unfold moveNext
  cases next : (editor.beginMove { select }).document.next?
    (editor.beginMove { select }).cursor <;> cases select <;> simp [next, goTo]

theorem moveFirst_honest (editor : Editor) (select : Bool) :
    editor.Honest (editor.moveFirst select) := by
  intro refused
  have still := moveOr_honest (movePrev_honest · { select })
    (movePrev_honest · { select, stepOut := true }) editor refused
  have along : (editor.movePrev { select }).1 = false :=
    @moveOr_refused _ (movePrev · { select }) (movePrev · { select, stepOut := true }) refused
  -- the document and the cursor are the same, so the same sibling is missing
  rw [movePrev_along, ← still.prev?_eq, ← movePrev_along _ select] at along
  exact still.trans (.repeatMove (movePrev_honest _ { select }) along _)

theorem moveLast_honest (editor : Editor) (select : Bool) :
    editor.Honest (editor.moveLast select) := by
  intro refused
  have still := moveOr_honest (moveNext_honest · { select })
    (moveNext_honest · { select, stepOut := true }) editor refused
  have along : (editor.moveNext { select }).1 = false :=
    @moveOr_refused _ (moveNext · { select }) (moveNext · { select, stepOut := true }) refused
  rw [moveNext_along, ← still.next?_eq, ← moveNext_along _ select] at along
  exact still.trans (.repeatMove (moveNext_honest _ { select }) along _)

/-! ## Deletions and lists -/

/-- Without a run to take out, nothing is taken out. -/
theorem detachSelection_still (none : editor.detachSelection.1 = none) :
    editor.Still editor.detachSelection.2 := by
  unfold detachSelection at none ⊢
  split
  · exact .refl editor
  · next known =>
      simp only [known] at none
      split at none
      · cases none
      · next refused =>
          simp only [refused]
          exact .selectNone editor

theorem deleteSelection_honest (editor : Editor) : editor.Honest editor.deleteSelection := by
  intro refused
  have still := @detachSelection_still editor
  unfold deleteSelection at refused ⊢
  generalize editor.detachSelection = detached at refused still ⊢
  obtain ⟨span, rest⟩ := detached
  cases span with
  | some span => cases refused
  | none => exact still rfl

theorem quoteSelection_still (none : editor.quoteSelection.1 = none) :
    editor.Still editor.quoteSelection.2 := by
  have still := @detachSelection_still editor
  unfold quoteSelection at none ⊢
  generalize editor.detachSelection = detached at none still ⊢
  obtain ⟨span, rest⟩ := detached
  cases span with
  | some span => cases none
  | none => exact still rfl

theorem unquote_honest (editor : Editor) : editor.Honest editor.unquote := by
  intro refused
  unfold unquote at refused ⊢
  dsimp only at refused ⊢
  split
  · exact .refl editor
  · next isList =>
      rw [if_neg isList] at refused
      split at refused
      · next stuck =>
          exact .selectNone editor
      · cases refused

theorem deletePrev_refused {stepIn stepOut : Bool} (unmarked : editor.hasSelection = false)
    (refused : (editor.deletePrev stepIn stepOut).1 = false) :
    (editor.movePrev { stepIn, stepOut }).1 = false := by
  rw [Editor.deletePrev, unmarked, if_neg Bool.false_ne_true] at refused
  generalize editor.movePrev { stepIn, stepOut } = tried at refused ⊢
  obtain ⟨moved, there⟩ := tried
  cases moved with
  | true => cases refused
  | false => rfl

theorem deletePrev_of_refused {stepIn stepOut : Bool} {there : Editor}
    (unmarked : editor.hasSelection = false)
    (stuck : editor.movePrev { stepIn, stepOut } = (false, there)) :
    editor.deletePrev stepIn stepOut = (false, there) := by
  rw [Editor.deletePrev, unmarked, if_neg Bool.false_ne_true, stuck]

theorem deletePrev_honest (editor : Editor) (stepIn stepOut : Bool) :
    editor.Honest (editor.deletePrev stepIn stepOut) := by
  intro refused
  cases marked : editor.hasSelection with
  | true =>
      rw [Editor.deletePrev, if_pos marked] at refused ⊢
      exact deleteSelection_honest editor refused
  | false =>
      have still := movePrev_honest editor { stepIn, stepOut }
      have stuck := deletePrev_refused marked refused
      cases tried : editor.movePrev { stepIn, stepOut } with
      | mk moved there =>
          rw [tried] at still stuck
          obtain rfl : moved = false := stuck
          rw [deletePrev_of_refused marked tried]
          exact still rfl

/-! ## Deleting forward -/

/-- Deleting forward goes into a list, onto `head`, and may not step out of it again. -/
structure Enters (editor : Editor) (stepIn stepOut : Bool) (head : NodeId) : Prop where
  unmarked : editor.hasSelection = false
  inward : stepIn = true
  within : stepOut = false
  list : ∃ list, editor.document.next? editor.cursor = some list ∧
    editor.document.first? list = some head

/-- A deletion forward moves first. -/
theorem deleteNext_of_moved {stepIn stepOut : Bool} {there : Editor}
    (unmarked : editor.hasSelection = false)
    (moves : editor.moveNext { stepIn, stepOut } = (true, there)) :
    editor.deleteNext stepIn stepOut = there.deletePrev stepIn stepOut := by
  rw [Editor.deleteNext, unmarked, if_neg Bool.false_ne_true, moves]

theorem deleteNext_of_refused {stepIn stepOut : Bool} {there : Editor}
    (unmarked : editor.hasSelection = false)
    (stuck : editor.moveNext { stepIn, stepOut } = (false, there)) :
    editor.deleteNext stepIn stepOut = (false, there) := by
  rw [Editor.deleteNext, unmarked, if_neg Bool.false_ne_true, stuck]

/-- A move forward that may step in goes onto the head of the list that is next. -/
theorem moveNext_of_first {stepOut : Bool} {list : NodeId}
    (beside : editor.document.next? editor.cursor = some list)
    (first : editor.document.first? list = some head) :
    editor.moveNext { stepIn := true, stepOut } =
      (true, { editor.selectNone with cursor := head }) := by
  simp [moveNext, beginMove, goTo, selectNone, beside, first]

/-- Where a move forward goes: onto the next node, onto the head of the list that is next, or onto
the list that it is at the end of. -/
theorem moveNext_moved {stepIn stepOut : Bool} {there : Editor}
    (moves : editor.moveNext { stepIn, stepOut } = (true, there)) :
    ∃ id, there = { editor.selectNone with cursor := id } ∧
      (editor.document.next? editor.cursor = some id ∨
        (stepIn = true ∧ ∃ list, editor.document.next? editor.cursor = some list ∧
          editor.document.first? list = some id) ∨
        editor.document.enclosing? editor.cursor = some id) := by
  -- One case for each way through the move; a move that ends where it began says so.
  cases known : editor.document.next? editor.cursor with
  | some next =>
      cases inner : if stepIn then editor.document.first? next else none with
      | none =>
          have lands : editor.moveNext { stepIn, stepOut } =
              (true, { editor.selectNone with cursor := next }) := by
            simp [moveNext, beginMove, goTo, selectNone, known, inner]
          cases lands.symm.trans moves
          exact ⟨next, rfl, .inl rfl⟩
      | some head =>
          obtain ⟨rfl, first⟩ := Option.ite_none_right_eq_some.1 inner
          cases (moveNext_of_first known first).symm.trans moves
          exact ⟨head, rfl, .inr (.inl ⟨rfl, next, rfl, first⟩)⟩
  | none =>
      cases outer : if stepOut then editor.document.enclosing? editor.cursor else none with
      | none =>
          have stays : editor.moveNext { stepIn, stepOut } = (false, editor.selectNone) := by
            simp [moveNext, beginMove, selectNone, known, outer]
          cases stays.symm.trans moves
      | some list =>
          have lands : editor.moveNext { stepIn, stepOut } =
              (true, { editor.selectNone with cursor := list }) := by
            simp [moveNext, beginMove, goTo, selectNone, known, outer]
          cases lands.symm.trans moves
          exact ⟨list, rfl, .inr (.inr (Option.ite_none_right_eq_some.1 outer).2)⟩

/-- With a sibling before it, a cursor can always move back. -/
theorem movePrev_moved {motion : Motion} {prev : NodeId}
    (before : editor.document.prev? editor.cursor = some prev) :
    (editor.movePrev motion).1 = true := by
  rw [← (Still.beginMove editor motion).prev?_eq] at before
  unfold movePrev
  dsimp only
  split
  · rfl
  · rw [before]
    rfl

/-- The move back that follows a move forward in a sound editor is refused on the head of a list
only, and only if it may not step out. -/
theorem Sound.enters_of_refused (sound : editor.Sound kids) {stepIn stepOut : Bool}
    {there : Editor} (unmarked : editor.hasSelection = false)
    (moves : editor.moveNext { stepIn, stepOut } = (true, there))
    (refused : (there.deletePrev stepIn stepOut).1 = false) :
    ∃ head, editor.Enters stepIn stepOut head ∧ there.cursor = head := by
  have arranged := sound.arranged
  obtain ⟨list, mem, -⟩ := sound.placed
  obtain ⟨front, back, split⟩ := List.append_of_mem mem
  have next := arranged.next? split
  obtain ⟨id, rfl, whither⟩ := moveNext_moved moves
  have stuck := deletePrev_refused rfl refused
  rcases whither with beside | ⟨inward, inner, beside, first⟩ | outer
  · -- the cursor was there, right before it
    obtain ⟨rest, rfl⟩ := List.head?_eq_some_iff.1 (next.symm.trans beside)
    have before := arranged.prev? (show kids list = (front ++ [editor.cursor]) ++ id :: rest by
      simp [split])
    rw [List.getLast?_concat] at before
    exact absurd (movePrev_moved before) (by rw [stuck]; exact Bool.false_ne_true)
  · refine ⟨id, ⟨unmarked, inward, ?_, inner, beside, first⟩, rfl⟩
    by_contra outward
    obtain ⟨rest, rfl⟩ := List.head?_eq_some_iff.1 (next.symm.trans beside)
    have before := arranged.prev? (show kids list = (front ++ [editor.cursor]) ++ inner :: rest by
      simp [split])
    rw [List.getLast?_concat] at before
    obtain ⟨inside, head⟩ := List.head?_eq_some_iff.1
      ((arranged.first?_of_isList (arranged.isList_of_mem (arranged.mem_of_first? first))).symm.trans
        first)
    rw [Bool.not_eq_false] at outward
    have goes : Editor.movePrev { editor.selectNone with cursor := id }
        { stepIn, stepOut := true } = (true, _) :=
      movePrev_of_head arranged head (show inner ∈ kids list by simp [split]) before
    rw [outward, goes] at stuck
    cases stuck
  · -- the list around the cursor is no head, so there is a node before it
    obtain ⟨outer', held⟩ := sound.exists_outer outer
    obtain ⟨rfl, -⟩ := arranged.ne_root_of_enclosing? mem outer
    obtain ⟨front', back', split'⟩ := List.append_of_mem held
    obtain ⟨first, last, kind⟩ := Document.isList_iff.1 (arranged.isList_of_mem mem)
    obtain ⟨prev, before⟩ := arranged.exists_before split' (by rw [kind]; nofun)
    have before' := (arranged.prev? split').trans before
    exact absurd (movePrev_moved before') (by rw [stuck]; exact Bool.false_ne_true)

/-- A deletion forward that goes into a list and may not step out of it is refused, with the cursor
on the head of the list, and not where it was. -/
theorem Sound.deleteNext_of_enters (sound : editor.Sound kids) {stepIn stepOut : Bool}
    (enters : editor.Enters stepIn stepOut head) :
    editor.deleteNext stepIn stepOut = (false, { editor.selectNone with cursor := head }) ∧
      head ≠ editor.cursor := by
  have arranged := sound.arranged
  obtain ⟨unmarked, rfl, rfl, inner, beside, first⟩ := enters
  obtain ⟨list, mem, -⟩ := sound.placed
  obtain ⟨front, back, split⟩ := List.append_of_mem mem
  obtain ⟨rest, rfl⟩ := List.head?_eq_some_iff.1 ((arranged.next? split).symm.trans beside)
  have inside := arranged.mem_of_first? first
  have starts := (arranged.first?_of_isList (arranged.isList_of_mem inside)).symm.trans first
  obtain ⟨others, contents⟩ := List.head?_eq_some_iff.1 starts
  have kind := (arranged.heads inside).2 starts
  -- On a head there is nothing before the cursor, and the move may not step out.
  have alone := arranged.prev? (show kids inner = [] ++ head :: others from contents)
  have stuck : Editor.movePrev { editor.selectNone with cursor := head } { stepIn := true } =
      (false, _) := movePrev_of_front kind alone Bool.noConfusion
  constructor
  · rw [deleteNext_of_moved unmarked (moveNext_of_first beside first),
      deletePrev_of_refused rfl stuck]
    rfl
  · rintro rfl
    have same := arranged.single inside mem
    subst same
    exact arranged.ne_of_mem (show inner ∈ kids inner by simp [split]) rfl

/-- What a refused deletion forward leaves behind. -/
theorem Sound.deleteNext_refused (sound : editor.Sound kids) {stepIn stepOut : Bool}
    (refused : (editor.deleteNext stepIn stepOut).1 = false) :
    (editor.deleteNext stepIn stepOut).2.document = editor.document ∧
      ((editor.deleteNext stepIn stepOut).2.cursor = editor.cursor ∨
        editor.Enters stepIn stepOut (editor.deleteNext stepIn stepOut).2.cursor) := by
  cases marked : editor.hasSelection with
  | true =>
      rw [Editor.deleteNext, if_pos marked] at refused ⊢
      have still := deleteSelection_honest editor refused
      exact ⟨still.document, .inl still.cursor⟩
  | false =>
      have honest := moveNext_honest editor { stepIn, stepOut }
      cases moves : editor.moveNext { stepIn, stepOut } with
      | mk moved there =>
          cases moved with
          | false =>
              rw [moves] at honest
              rw [deleteNext_of_refused marked moves]
              exact ⟨(honest rfl).document, .inl (honest rfl).cursor⟩
          | true =>
              rw [deleteNext_of_moved marked moves] at refused ⊢
              obtain ⟨head, enters, on⟩ := sound.enters_of_refused marked moves refused
              obtain ⟨id, rfl, -⟩ := moveNext_moved moves
              have still := deletePrev_honest _ stepIn stepOut refused
              refine ⟨still.document, .inr ?_⟩
              rw [still.cursor, on]
              exact enters

/-! ## All edits -/

/-- Whatever was done in an editor, an edit that says that it did nothing leaves the document and
the cursor as they were, whichever edit it is and however it may step; but for one. A deletion
forward that says so leaves the document as it was, and the cursor too unless it may step in and not
out and the next node is a list: then it always says so, and the cursor is on the head of that
list. -/
theorem refused_edits_do_nothing (steps : List Step) :
    let editor := steps.foldl Step.perform Editor.new
    (∀ motion, editor.Honest (editor.movePrev motion)) ∧
    (∀ motion, editor.Honest (editor.moveNext motion)) ∧
    (∀ select, editor.Honest (editor.moveFirst select)) ∧
    (∀ select, editor.Honest (editor.moveLast select)) ∧
    editor.Honest editor.closeList ∧
    (∀ stepIn stepOut, editor.Honest (editor.deletePrev stepIn stepOut)) ∧
    editor.Honest editor.deleteSelection ∧
    editor.Honest editor.unquote ∧
    (editor.quoteSelection.1 = none → editor.Still editor.quoteSelection.2) ∧
    (∀ stepIn stepOut, (editor.deleteNext stepIn stepOut).1 = false →
      (editor.deleteNext stepIn stepOut).2.document = editor.document ∧
        ((editor.deleteNext stepIn stepOut).2.cursor = editor.cursor ∨
          editor.Enters stepIn stepOut (editor.deleteNext stepIn stepOut).2.cursor)) ∧
    (∀ stepIn stepOut head, editor.Enters stepIn stepOut head →
      editor.deleteNext stepIn stepOut = (false, { editor.selectNone with cursor := head }) ∧
        head ≠ editor.cursor) := by
  intro editor
  obtain ⟨kids, sound⟩ : ∃ kids, editor.Sound kids := sound_of_steps steps
  exact ⟨movePrev_honest editor, moveNext_honest editor, moveFirst_honest editor,
    moveLast_honest editor, moveNext_honest editor _, deletePrev_honest editor,
    deleteSelection_honest editor, unquote_honest editor, quoteSelection_still,
    fun _ _ => sound.deleteNext_refused, fun _ _ _ => sound.deleteNext_of_enters⟩

/-- In front of a list with a word in it, deleting forward into the list says that nothing was done,
and has left the cursor on the head of the list. -/
theorem refused_edits_do_nothing_of_list :
    let typed := [Step.edit (.insertSource "[ a ]") fun _ => .unknown,
      .edit (.movePrev { }) fun _ => .unknown]
    let editor := typed.foldl Step.perform Editor.new
    let deleted := editor.deleteNext true false
    editor.cursor = 1 ∧ deleted.1 = false ∧ deleted.2.document = editor.document ∧
      deleted.2.cursor = 3 ∧ editor.Enters true false 3 ∧ ¬ editor.Still deleted.2 := by
  intro typed editor deleted
  obtain ⟨-, -, -, -, -, -, -, -, -, refused, entered⟩ := refused_edits_do_nothing typed
  have enters : editor.Enters true false 3 :=
    ⟨by decide +kernel, rfl, rfl, 2, by decide +kernel, by decide +kernel⟩
  obtain ⟨same, differs⟩ := entered true false 3 enters
  have stuck : deleted.1 = false := congrArg Prod.fst same
  have on : deleted.2.cursor = 3 := congrArg (·.2.cursor) same
  exact ⟨by decide +kernel, stuck, (refused true false stuck).1, on, enters,
    fun still => differs (on.symm.trans still.cursor)⟩

end Editor

end LiveStack
